import MethodJit.Code.Assembler
import MethodJit.Proofs.Boundaries
import MethodJit.Proofs.Enumeration
import MethodJit.Proofs.Numbers

/-!
# Assembled code

The bytes of a step and its references to labels are known from where it stands. The assembled code consists of
these bytes, but for the references, of which each holds the distance to its label. So branches lead to their
labels, and the interpreter goes from a switch to the label of the selected case.
-/

namespace MethodJit

namespace Assembler

variable {a a' a'' : Assembler} {steps before after : List Step} {s : Step} {p q i t : Nat} {label : String}
  {code code' : Array UInt8} {bs : List UInt8} {labels : List (String × Nat)} {f g : Fixup} {fs : List Fixup}

/-! ## What a step stands for -/

/-- The references to the labels of the cases of a switch, one after another. -/
def caseReferences (base : Nat) : Nat → List String → List Fixup
  | _, [] => []
  | p, label :: cases => ⟨p, base, label⟩ :: caseReferences base (p + 3) cases

namespace Step

/-- The count in a switch. -/
def countBytes (cases : List String) : List UInt8 := Immediate.encodeU32 (.ofNat cases.length - 1)

/-- The bytes of a step, with zeros in place of references. -/
def bytes : Step → List UInt8
  | .op byte immediates => byte :: immediates.flatMap Immediate.encodeU32
  | .raw bytes => bytes
  | .pushByte x => [Opcode.pushByte.byte, x.toUInt8]
  | .pushShort x => Opcode.pushShort.byte :: Immediate.encodeU32 x.toUInt16.toUInt32
  | .mark _ => []
  | .label _ => [Opcode.label.byte]
  | .branch byte _ => [byte, 0, 0, 0]
  | .branchOffset byte offset => byte :: Immediate.encodeS24 offset
  | .switch _ cases =>
    [Opcode.lookupSwitch.byte, 0, 0, 0] ++ countBytes cases ++ List.replicate (3 * cases.length) 0

/-- The references of a step that stands at `p`. -/
def references (p : Nat) : Step → List Fixup
  | .branch _ label => [⟨p + 1, p + 4, label⟩]
  | .switch default cases => ⟨p + 1, p, default⟩ :: caseReferences p (p + 4 + (countBytes cases).length) cases
  | _ => []

/-- The label that a step marks. -/
def marked? : Step → Option String
  | .mark label => some label
  | .label label => some label
  | _ => none

end Step

/-- The bytes of steps, with zeros in place of references. -/
def emitted (steps : List Step) : List UInt8 := steps.flatMap Step.bytes

/-- Where the next step stands. -/
def offset (before : List Step) : Nat := (emitted before).length

/-- The references of steps of which the first stands at `p`. -/
def references : Nat → List Step → List Fixup
  | _, [] => []
  | p, s :: steps => s.references p ++ references (p + s.bytes.length) steps

/-- The labels of steps of which the first stands at `p`. -/
def marks : Nat → List Step → List (String × Nat)
  | _, [] => []
  | p, s :: steps => s.marked?.toList.map (·, p) ++ marks (p + s.bytes.length) steps

/-- A label is marked at a place. -/
def MarkedAt (steps : List Step) (label : String) (t : Nat) : Prop :=
  ∃ before s after, steps = before ++ s :: after ∧ s.marked? = some label ∧ t = offset before

@[simp] theorem emitted_append (steps steps' : List Step) :
    emitted (steps ++ steps') = emitted steps ++ emitted steps' :=
  List.flatMap_append

@[simp] theorem emitted_cons (s : Step) (steps : List Step) : emitted (s :: steps) = s.bytes ++ emitted steps := rfl

theorem references_append (p : Nat) (before after : List Step) :
    references p (before ++ after) = references p before ++ references (p + offset before) after := by
  induction before generalizing p with
  | nil => rfl
  | cons s before ih => simp [references, ih, offset, add_assoc]

theorem mem_marks : (label, t) ∈ marks p steps ↔
    ∃ before s after, steps = before ++ s :: after ∧ s.marked? = some label ∧ t = p + offset before := by
  induction steps generalizing p with
  | nil => simp [marks]
  | cons s steps ih =>
    simp only [marks, List.mem_append, ih]
    constructor
    · rintro (hm | ⟨before, s', after, rfl, hs, rfl⟩)
      · obtain ⟨l, hl, heq⟩ := List.mem_map.1 hm
        cases heq
        exact ⟨[], s, steps, rfl, Option.mem_toList.1 hl, rfl⟩
      · exact ⟨s :: before, s', after, rfl, hs, by simp [offset, add_assoc]⟩
    · rintro ⟨before, s', after, heq, hs, rfl⟩
      cases before with
      | nil =>
        cases heq
        exact .inl (List.mem_map.2 ⟨label, Option.mem_toList.2 hs, rfl⟩)
      | cons s₀ before =>
        cases heq
        exact .inr ⟨before, s', after, rfl, hs, by simp [offset, add_assoc]⟩

theorem mem_marks_zero : (label, t) ∈ marks 0 steps ↔ MarkedAt steps label t := by
  rw [mem_marks, MarkedAt]
  simp only [Nat.zero_add]

/-! ## What a step does -/

/-- What steps wrote, referred to and marked between two states of the assembler, the last mark first. -/
structure Extends (a a' : Assembler) (bs : List UInt8) (fs : List Fixup) (ms : List (String × Nat)) : Prop where
  code : a'.code.toList = a.code.toList ++ bs
  fixups : a'.fixups.toList = a.fixups.toList ++ fs
  labels : a'.labels = ms ++ a.labels
  nodup : (a.labels.map (·.1)).Nodup → (a'.labels.map (·.1)).Nodup

theorem Extends.size {ms : List (String × Nat)} (h : Extends a a' bs fs ms) :
    a'.code.size = a.code.size + bs.length := by
  rw [← Array.length_toList, h.code, List.length_append, Array.length_toList]

theorem Extends.trans {bs' : List UInt8} {fs' : List Fixup} {ms ms' : List (String × Nat)} (h : Extends a a' bs fs ms)
    (h' : Extends a' a'' bs' fs' ms') : Extends a a'' (bs ++ bs') (fs ++ fs') (ms' ++ ms) where
  code := by rw [h'.code, h.code, List.append_assoc]
  fixups := by rw [h'.fixups, h.fixups, List.append_assoc]
  labels := by rw [h'.labels, h.labels, List.append_assoc]
  nodup hn := h'.nodup (h.nodup hn)

theorem extends_emit (a : Assembler) (bs : List UInt8) : Extends a (a.emit bs) bs [] [] :=
  ⟨by simp [emit], by simp [emit], rfl, id⟩

theorem extends_reference (a : Assembler) (base : Nat) (label : String) :
    Extends a (a.reference base label) [0, 0, 0] [⟨a.code.size, base, label⟩] [] :=
  ⟨by simp [reference, emit], by simp [reference, emit], rfl, id⟩

theorem extends_mark (hok : a.mark label = .ok a') : Extends a a' [] [] [(label, a.code.size)] := by
  unfold mark at hok
  split at hok
  · cases hok
  · rename_i hnew
    cases hok
    refine ⟨by simp, by simp, rfl, fun hn => ?_⟩
    rw [List.map_cons, List.nodup_cons]
    refine ⟨fun hm => hnew ?_, hn⟩
    rw [List.lookup_isSome_iff]
    obtain ⟨⟨l, t⟩, hlt, rfl⟩ := List.mem_map.1 hm
    exact ⟨_, hlt, beq_self_eq_true l⟩

theorem extends_cases (cases : List String) (a : Assembler) (base : Nat) :
    Extends a (cases.foldl (fun a label => a.reference base label) a) (List.replicate (3 * cases.length) 0)
      (caseReferences base a.code.size cases) [] := by
  induction cases generalizing a with
  | nil => exact ⟨by simp, by simp [caseReferences], rfl, id⟩
  | cons label cases ih =>
    have hfirst := extends_reference a base label
    have hrest := ih (a.reference base label)
    rw [hfirst.size] at hrest
    have hboth := hfirst.trans hrest
    rwa [show List.replicate (3 * (label :: cases).length) (0 : UInt8) =
      [0, 0, 0] ++ List.replicate (3 * cases.length) 0 by
        rw [List.length_cons, Nat.mul_succ, Nat.add_comm, List.replicate_add]; rfl]

theorem extends_step (hok : a.step s = .ok a') :
    Extends a a' s.bytes (s.references a.code.size) (s.marked?.toList.map (·, a.code.size)) := by
  cases s with
  | mark label => exact extends_mark hok
  | label label =>
    simp only [step] at hok
    cases hmark : a.mark label with
    | error e =>
      rw [hmark] at hok
      cases hok
    | ok a₁ =>
      rw [hmark] at hok
      cases hok
      exact (extends_mark hmark).trans (extends_emit a₁ _)
  | branch byte label =>
    cases hok
    have hfirst := extends_emit a [byte]
    have hrest := extends_reference (a.emit [byte]) ((a.emit [byte]).code.size + 3) label
    rw [hfirst.size] at hrest ⊢
    exact hfirst.trans hrest
  | «switch» default cases =>
    cases hok
    have hopcode := extends_emit a [Opcode.lookupSwitch.byte]
    have hdefault := extends_reference (a.emit [Opcode.lookupSwitch.byte]) a.code.size default
    rw [hopcode.size] at hdefault
    have hcount := (hopcode.trans hdefault).trans (extends_emit _ (Step.countBytes cases))
    have hcases := extends_cases cases
      (((a.emit [Opcode.lookupSwitch.byte]).reference a.code.size default).emit (Step.countBytes cases)) a.code.size
    rw [hcount.size, List.length_append, ← Nat.add_assoc] at hcases
    exact hcount.trans hcases
  | op byte immediates =>
    cases hok
    exact extends_emit a _
  | raw bytes =>
    cases hok
    exact extends_emit a _
  | pushByte x =>
    cases hok
    exact extends_emit a _
  | pushShort x =>
    cases hok
    exact extends_emit a _
  | branchOffset byte offset =>
    cases hok
    exact extends_emit a _

/-- What a run of the assembler writes, refers to and marks. -/
theorem extends_steps (hok : steps.foldlM step a = .ok a') :
    Extends a a' (emitted steps) (references a.code.size steps) (marks a.code.size steps).reverse := by
  induction steps generalizing a with
  | nil =>
    cases hok
    exact ⟨by simp [emitted], by simp [references], rfl, id⟩
  | cons s steps ih =>
    rw [List.foldlM_cons] at hok
    cases hstep : a.step s with
    | error e =>
      rw [hstep] at hok
      cases hok
    | ok a₁ =>
      rw [hstep] at hok
      have hfirst := extends_step hstep
      have hrest := ih hok
      rw [hfirst.size] at hrest
      have hmarks : (marks a.code.size (s :: steps)).reverse =
          (marks (a.code.size + s.bytes.length) steps).reverse ++ s.marked?.toList.map (·, a.code.size) := by
        rw [marks, List.reverse_append]
        cases s.marked? <;> rfl
      rw [hmarks]
      exact hfirst.trans hrest

theorem extends_of_assemble (hok : assemble steps = .ok code) :
    ∃ a, Extends {} a (emitted steps) (references 0 steps) (marks 0 steps).reverse ∧ a.finish = .ok code := by
  unfold assemble at hok
  cases hsteps : steps.foldlM step {} with
  | error e =>
    rw [hsteps] at hok
    cases hok
  | ok a =>
    rw [hsteps] at hok
    exact ⟨a, extends_steps hsteps, hok⟩

/-! ## Where references stand -/

/-- References that stand one after another between two places, with their bases there too. -/
structure Spaced (p q : Nat) (fs : List Fixup) : Prop where
  order : fs.Pairwise fun f g => f.position + 3 ≤ g.position
  bounds : ∀ f ∈ fs, p ≤ f.position ∧ f.position + 3 ≤ q
  bases : ∀ f ∈ fs, f.base ≤ q

theorem Spaced.append {r : Nat} {gs : List Fixup} (h : Spaced p q fs) (h' : Spaced q r gs) (hpq : p ≤ q)
    (hqr : q ≤ r) : Spaced p r (fs ++ gs) where
  order := by
    refine List.pairwise_append.2 ⟨h.order, h'.order, fun f hf g hg => ?_⟩
    have hf := (h.bounds f hf).2
    have hg := (h'.bounds g hg).1
    omega
  bounds f hf := by
    rcases List.mem_append.1 hf with hf | hf
    · have := h.bounds f hf
      omega
    · have := h'.bounds f hf
      omega
  bases f hf := by
    rcases List.mem_append.1 hf with hf | hf
    · exact (h.bases f hf).trans hqr
    · exact h'.bases f hf

theorem spaced_nil : Spaced p q [] := ⟨.nil, by simp, by simp⟩

theorem spaced_singleton (hp : p ≤ f.position) (hq : f.position + 3 ≤ q) (hb : f.base ≤ q) : Spaced p q [f] :=
  ⟨List.pairwise_singleton _ f, by simpa using ⟨hp, hq⟩, by simpa using hb⟩

theorem spaced_cases (cases : List String) (hb : q ≤ p) :
    Spaced p (p + 3 * cases.length) (caseReferences q p cases) := by
  induction cases generalizing p with
  | nil => exact spaced_nil
  | cons label cases ih =>
    have hrest := ih (p := p + 3) (by omega)
    have hfirst : Spaced p (p + 3) [⟨p, q, label⟩] :=
      spaced_singleton (Nat.le_refl _) (Nat.le_refl _) (show q ≤ p + 3 by omega)
    have hboth := hfirst.append hrest (by omega) (by omega)
    rwa [List.length_cons, Nat.mul_succ, Nat.add_comm (3 * cases.length) 3, ← Nat.add_assoc]

theorem length_bytes_switch (default : String) (cases : List String) : (Step.switch default cases).bytes.length =
    4 + (Step.countBytes cases).length + 3 * cases.length := by
  simp only [Step.bytes, List.length_append, List.length_cons, List.length_nil, List.length_replicate]

theorem spaced_step (p : Nat) (s : Step) : Spaced p (p + s.bytes.length) (s.references p) := by
  cases s with
  | branch byte label => exact spaced_singleton (Nat.le_succ p) (Nat.le_refl _) (Nat.le_refl _)
  | «switch» default cases =>
    rw [length_bytes_switch]
    have hcases := spaced_cases (p := p + 4 + (Step.countBytes cases).length) (q := p) cases (by omega)
    have hdefault : Spaced p (p + 4 + (Step.countBytes cases).length) [⟨p + 1, p, default⟩] :=
      spaced_singleton (Nat.le_succ p) (by simp only; omega) (by simp only; omega)
    have hboth := hdefault.append hcases (by omega) (by omega)
    rwa [← Nat.add_assoc, ← Nat.add_assoc]
  | _ => exact spaced_nil

theorem spaced_references (p : Nat) (steps : List Step) : Spaced p (p + offset steps) (references p steps) := by
  induction steps generalizing p with
  | nil => exact spaced_nil
  | cons s steps ih =>
    have hboth := (spaced_step p s).append (ih (p + s.bytes.length)) (Nat.le_add_right _ _) (Nat.le_add_right _ _)
    rwa [offset, emitted_cons, List.length_append, ← Nat.add_assoc]

/-! ## Filling in -/

@[simp] theorem size_overwrite (code : Array UInt8) (p : Nat) (bs : List UInt8) :
    (overwrite code p bs).size = code.size := by
  induction bs generalizing code p with
  | nil => rfl
  | cons b bs ih => rw [overwrite, ih, Array.size_setIfInBounds]

theorem getElem?_overwrite_of_lt (code : Array UInt8) (bs : List UInt8) (hi : i < p) :
    (overwrite code p bs)[i]? = code[i]? := by
  induction bs generalizing code p with
  | nil => rfl
  | cons b bs ih =>
    rw [overwrite, ih _ (by omega), Array.getElem?_setIfInBounds_ne (by omega)]

theorem getElem?_overwrite_of_le (code : Array UInt8) (bs : List UInt8) (hi : p + bs.length ≤ i) :
    (overwrite code p bs)[i]? = code[i]? := by
  induction bs generalizing code p with
  | nil => rfl
  | cons b bs ih =>
    rw [List.length_cons] at hi
    rw [overwrite, ih _ (by omega), Array.getElem?_setIfInBounds_ne (by omega)]

theorem getElem?_overwrite (code : Array UInt8) (hfits : p + bs.length ≤ code.size) (hi : i < bs.length) :
    (overwrite code p bs)[p + i]? = bs[i]? := by
  induction bs generalizing code p i with
  | nil => cases hi
  | cons b bs ih =>
    rw [List.length_cons] at hfits hi
    rw [overwrite]
    cases i with
    | zero =>
      rw [getElem?_overwrite_of_lt _ _ (show p + 0 < p + 1 by omega)]
      exact Array.getElem?_setIfInBounds_self_of_lt (by omega)
    | succ i =>
      have hrest := ih (p := p + 1) (i := i) (code.setIfInBounds p b) (by rw [Array.size_setIfInBounds]; omega)
        (by omega)
      rwa [Nat.add_right_comm] at hrest

/-- The place is one of the three bytes of a reference. -/
def Covers (f : Fixup) (i : Nat) : Prop := f.position ≤ i ∧ i < f.position + 3

/-- The bytes of a reference whose label is marked at `t`. -/
def distanceBytes (f : Fixup) (t : Nat) : List UInt8 := Immediate.encodeS24 (.ofInt ((t : Int) - f.base))

theorem length_distanceBytes (f : Fixup) (t : Nat) : (distanceBytes f t).length = 3 := rfl

theorem resolve_eq_ok (hok : resolve labels code f = .ok code') :
    ∃ t, labels.lookup f.label = some t ∧ code' = overwrite code f.position (distanceBytes f t) := by
  unfold resolve at hok
  cases hlookup : labels.lookup f.label with
  | none =>
    rw [hlookup] at hok
    cases hok
  | some t =>
    rw [hlookup] at hok
    cases hok
    exact ⟨t, rfl, rfl⟩

/-- Filling in references that stand apart puts the distance in each of them and changes nothing else. -/
theorem foldlM_resolve (horder : fs.Pairwise fun f g => f.position + 3 ≤ g.position)
    (hfits : ∀ f ∈ fs, f.position + 3 ≤ code.size) (hok : fs.foldlM (resolve labels) code = .ok code') :
    code'.size = code.size ∧ (∀ i, (∀ f ∈ fs, ¬Covers f i) → code'[i]? = code[i]?) ∧
    ∀ f ∈ fs, ∃ t, labels.lookup f.label = some t ∧ ∀ j < 3, code'[f.position + j]? = (distanceBytes f t)[j]? := by
  induction fs generalizing code with
  | nil =>
    cases hok
    exact ⟨rfl, fun _ _ => rfl, by simp⟩
  | cons f fs ih =>
    rw [List.foldlM_cons] at hok
    cases hfirst : resolve labels code f with
    | error e =>
      rw [hfirst] at hok
      cases hok
    | ok code₁ =>
      rw [hfirst] at hok
      obtain ⟨t, ht, rfl⟩ := resolve_eq_ok hfirst
      obtain ⟨hlater, horder⟩ := List.pairwise_cons.1 horder
      have hfit := hfits f List.mem_cons_self
      have hfits' : ∀ g ∈ fs, g.position + 3 ≤ (overwrite code f.position (distanceBytes f t)).size := fun g hg => by
        rw [size_overwrite]
        exact hfits g (List.mem_cons_of_mem f hg)
      obtain ⟨hsize, hothers, hfilled⟩ := ih horder hfits' hok
      refine ⟨hsize.trans (size_overwrite code f.position _), fun i hi => ?_, fun g hg => ?_⟩
      · rw [hothers i fun g hg => hi g (List.mem_cons_of_mem f hg)]
        have hout : ¬Covers f i := hi f List.mem_cons_self
        rcases Nat.lt_or_ge i f.position with hlt | hge
        · exact getElem?_overwrite_of_lt code _ hlt
        · refine getElem?_overwrite_of_le code _ ?_
          rw [length_distanceBytes]
          exact Nat.le_of_not_lt fun hlt => hout ⟨hge, hlt⟩
      · rcases List.mem_cons.1 hg with rfl | hg
        · refine ⟨t, ht, fun j hj => ?_⟩
          have hbefore : ∀ g' ∈ fs, ¬Covers g' (g.position + j) := fun g' hg' hcov => by
            have := hlater g' hg'
            have := hcov.1
            omega
          rw [hothers _ hbefore, getElem?_overwrite code hfit hj]
        · exact hfilled g hg

/-! ## Assembled code -/

/-- The bytes of the steps with the distances in place of the references. -/
structure Assembled (steps : List Step) (code : Array UInt8) : Prop where
  size : code.size = offset steps
  others : ∀ i, (∀ f ∈ references 0 steps, ¬Covers f i) → code[i]? = (emitted steps)[i]?
  filled : ∀ f ∈ references 0 steps, ∃ t, MarkedAt steps f.label t ∧
    ∀ j < 3, code[f.position + j]? = (distanceBytes f t)[j]?
  unique : ∀ label t t', MarkedAt steps label t → MarkedAt steps label t' → t = t'

theorem mem_of_lookup (hl : labels.lookup label = some t) : (label, t) ∈ labels := by
  obtain ⟨l₁, l₂, rfl, -⟩ := List.lookup_eq_some_iff.1 hl
  simp

theorem assembled (hok : assemble steps = .ok code) : Assembled steps code := by
  obtain ⟨a, hext, hfinish⟩ := extends_of_assemble hok
  have hcode : a.code.toList = emitted steps := hext.code
  have hfixups : a.fixups.toList = references 0 steps := hext.fixups
  have hlabels : a.labels = (marks 0 steps).reverse := by rw [hext.labels, List.append_nil]
  have hspaced := spaced_references 0 steps
  have hsize : a.code.size = offset steps := by rw [← Array.length_toList, hcode, offset]
  unfold finish at hfinish
  rw [← Array.foldlM_toList, hfixups] at hfinish
  have hfits : ∀ f ∈ references 0 steps, f.position + 3 ≤ a.code.size := fun f hf => by
    have := (hspaced.bounds f hf).2
    omega
  obtain ⟨hsize', hothers, hfilled⟩ := foldlM_resolve hspaced.order hfits hfinish
  refine ⟨hsize'.trans hsize, fun i hi => ?_, fun f hf => ?_, fun label t t' ht ht' => ?_⟩
  · rw [hothers i hi, ← hcode, Array.getElem?_toList]
  · obtain ⟨t, ht, hbytes⟩ := hfilled f hf
    refine ⟨t, mem_marks_zero.1 ?_, hbytes⟩
    have hmem := mem_of_lookup ht
    rwa [hlabels, List.mem_reverse] at hmem
  · have hnodup : ((marks 0 steps).map (·.1)).Nodup := by
      have hn := hext.nodup List.nodup_nil
      rwa [hlabels, List.map_reverse, List.nodup_reverse] at hn
    have hpair := List.inj_on_of_nodup_map hnodup (mem_marks_zero.2 ht) (mem_marks_zero.2 ht') rfl
    exact congrArg Prod.snd hpair

/-! ## Reading assembled code -/

theorem exists_between (bs : List UInt8) (hbs : ∀ j < bs.length, code[p + j]? = bs[j]?) (hp : p ≤ code.size) :
    ∃ before after, before.length = p ∧ code = (before ++ bs ++ after).toArray := by
  refine ⟨code.toList.take p, code.toList.drop (p + bs.length), ?_, ?_⟩
  · rw [List.length_take, Array.length_toList, Nat.min_eq_left hp]
  · have hdrop : code.toList.drop p = bs ++ code.toList.drop (p + bs.length) := by
      rw [← List.take_append_drop bs.length (code.toList.drop p), List.drop_drop]
      congr 1
      refine List.ext_getElem? fun j => ?_
      rw [List.getElem?_take]
      split
      · rename_i hj
        rw [List.getElem?_drop, Array.getElem?_toList, hbs j hj]
      · rename_i hj
        exact (List.getElem?_eq_none (Nat.le_of_not_lt hj)).symm
    rw [List.append_assoc, ← hdrop, List.take_append_drop, Array.toArray_toList]

theorem mem_references (hsteps : steps = before ++ s :: after) (hf : f ∈ s.references (offset before)) :
    f ∈ references 0 steps := by
  rw [hsteps, references_append, Nat.zero_add, references]
  exact List.mem_append_right _ (List.mem_append_left _ hf)

namespace Assembled

variable (hc : Assembled steps code) (hlt : code.size < 2 ^ 23)

include hc

theorem markedAt_le (ht : MarkedAt steps label t) : t ≤ code.size := by
  obtain ⟨before, s, after, rfl, -, rfl⟩ := ht
  rw [hc.size, offset, offset, emitted_append, List.length_append]
  exact Nat.le_add_right _ _

include hlt in
/-- A reference is read as the distance from its base to its label. -/
theorem s24At_reference (hf : f ∈ references 0 steps) : ∃ t, MarkedAt steps f.label t ∧
    Immediate.s24At code f.position = ⟨(t : Int) - f.base, 3, none⟩ := by
  obtain ⟨t, ht, hbytes⟩ := hc.filled f hf
  have hspaced := spaced_references 0 steps
  have hpos := (hspaced.bounds f hf).2
  have hbase := hspaced.bases f hf
  have htarget := hc.markedAt_le ht
  rw [Nat.zero_add, ← hc.size] at hpos hbase
  obtain ⟨before, after, hlen, hcode⟩ := exists_between (distanceBytes f t) hbytes (by omega)
  have hread := Immediate.s24At_encodeS24 (.ofInt ((t : Int) - f.base)) before after
  have hdistance : (Int32.ofInt ((t : Int) - f.base)).toInt = (t : Int) - f.base :=
    Int32.toInt_ofInt_of_le (by omega) (by omega)
  rw [hdistance, Int.bmod_eq_of_le (by omega) (by omega), hlen] at hread
  refine ⟨t, ht, ?_⟩
  rw [hcode]
  exact hread

/-- The bytes of a step, where it makes no reference. -/
theorem getElem?_step (hsteps : steps = before ++ s :: after) (hi : i < s.bytes.length)
    (hout : ∀ f ∈ s.references (offset before), ¬Covers f (offset before + i)) :
    code[offset before + i]? = s.bytes[i]? := by
  subst hsteps
  rw [hc.others, emitted_append, emitted_cons, offset, List.getElem?_append_right (Nat.le_add_right _ _),
    Nat.add_sub_cancel_left, List.getElem?_append_left hi]
  intro f hf hcov
  rw [references_append, Nat.zero_add, references] at hf
  rcases List.mem_append.1 hf with hf | hf
  · have hb := ((spaced_references 0 before).bounds f hf).2
    have := hcov.1
    have := hcov.2
    omega
  · rcases List.mem_append.1 hf with hf | hf
    · exact hout f hf hcov
    · have hb := ((spaced_references (offset before + s.bytes.length) after).bounds f hf).1
      have := hcov.1
      omega

include hlt in
/-- A branch has its byte and the distance to its label. -/
theorem branch {byte : UInt8} (hsteps : steps = before ++ .branch byte label :: after) :
    ∃ (t : Nat) (d : Int), MarkedAt steps label t ∧ code[offset before]? = some byte ∧
      Immediate.s24At code (offset before + 1) = ⟨d, 3, none⟩ ∧ (offset before : Int) + 4 + d = t := by
  have hbyte := hc.getElem?_step hsteps (i := 0) (by simp [Step.bytes]) (by simp [Step.references, Covers])
  obtain ⟨t, ht, hread⟩ := hc.s24At_reference hlt (mem_references hsteps (List.mem_singleton_self _))
  exact ⟨t, _, ht, hbyte, hread, by push_cast; ring⟩

end Assembled

theorem s24_eq_ok {d : Int} (hread : Immediate.s24At code p = ⟨d, 3, none⟩) :
    Cursor.s24 ⟨code, p⟩ = .ok d ⟨code, p + 3⟩ := by
  simp only [Cursor.s24, Cursor.take, hread]

/-- The distances of the cases of a switch. -/
theorem exists_readDistances {base : Nat} {cases : List String}
    (hread : ∀ f ∈ caseReferences base p cases, ∃ t, MarkedAt steps f.label t ∧
      Immediate.s24At code f.position = ⟨(t : Int) - f.base, 3, none⟩) :
    ∃ ts, List.Forall₂ (MarkedAt steps) cases ts ∧
      readDistances cases.length ⟨code, p⟩ =
        .ok (ts.map fun t : Nat => (t : Int) - base) ⟨code, p + 3 * cases.length⟩ := by
  induction cases generalizing p with
  | nil => exact ⟨[], .nil, rfl⟩
  | cons label cases ih =>
    obtain ⟨t, ht, hfirst⟩ := hread _ List.mem_cons_self
    obtain ⟨ts, hts, hrest⟩ := ih (p := p + 3) fun f hf => hread f (List.mem_cons_of_mem _ hf)
    refine ⟨t :: ts, .cons ht hts, ?_⟩
    rw [List.length_cons, readDistances, bind_of_ok (s24_eq_ok hfirst), bind_of_ok hrest, Nat.mul_succ,
      Nat.add_right_comm, ← Nat.add_assoc]
    rfl

/-- The count of a switch is read as one less than the number of its cases. -/
theorem count_eq_ok {cases : List String} (hbytes : ∀ j < (Step.countBytes cases).length,
      code[p + j]? = (Step.countBytes cases)[j]?) (hp : p ≤ code.size) (hpos : 1 ≤ cases.length)
    (hle : cases.length ≤ 2 ^ 20 + 1) : Cursor.count "lookupswitch case" maxSwitchCases ⟨code, p⟩ =
      .ok (cases.length - 1) ⟨code, p + (Step.countBytes cases).length⟩ := by
  obtain ⟨before, after, hlen, hcode⟩ := exists_between (Step.countBytes cases) hbytes hp
  have hcount : (UInt32.ofNat cases.length - 1).toNat = cases.length - 1 := by
    have hnat : (UInt32.ofNat cases.length).toNat = cases.length :=
      UInt32.toNat_ofNat_of_lt' (by rw [UInt32.size]; omega)
    rw [UInt32.toNat_sub_of_le _ _ (UInt32.le_iff_toNat_le.2 (by rw [hnat]; exact hpos)), hnat]
    rfl
  have hsmall : UInt32.ofNat cases.length - 1 < 0x40000000 := by
    rw [UInt32.lt_iff_toNat_lt, hcount]
    have : (0x40000000 : UInt32).toNat = 2 ^ 30 := rfl
    omega
  have hread : Immediate.u30At code p = ⟨cases.length - 1, (Step.countBytes cases).length, none⟩ := by
    rw [hcode, ← hlen, ← hcount]
    exact Immediate.u30At_encodeU32 hsmall before after
  have hu30 : Cursor.u30 ⟨code, p⟩ = .ok (cases.length - 1) ⟨code, p + (Step.countBytes cases).length⟩ := by
    simp only [Cursor.u30, Cursor.take, hread]
  rw [Cursor.count, bind_of_ok hu30, if_pos (show cases.length - 1 ≤ maxSwitchCases by rw [maxSwitchCases]; omega)]
  rfl

theorem Assembled.getElem?_switch (hc : Assembled steps code) {default : String} {cases : List String}
    (hsteps : steps = before ++ .switch default cases :: after) :
    code[offset before]? = some Opcode.lookupSwitch.byte := by
  refine hc.getElem?_step (i := 0) hsteps (by simp [Step.bytes]) fun f hf hcov => ?_
  rcases List.mem_cons.1 hf with rfl | hf
  · exact absurd hcov.1 (Nat.not_succ_le_self _)
  · have hb := ((spaced_cases cases (by omega)).bounds f hf).1
    have := hcov.1
    omega

theorem Assembled.exists_readSwitch (hc : Assembled steps code) (hlt : code.size < 2 ^ 23) {default : String}
    {cases : List String} (hsteps : steps = before ++ .switch default cases :: after) (hpos : 1 ≤ cases.length)
    (hle : cases.length ≤ 2 ^ 20 + 1) : ∃ (t : Nat) (ts : List Nat) (next : Nat), MarkedAt steps default t ∧
      List.Forall₂ (MarkedAt steps) cases ts ∧ readSwitch ⟨code, offset before + 1⟩ =
        .ok ((t : Int) - offset before, ts.map fun t : Nat => (t : Int) - offset before) ⟨code, next⟩ := by
  have href (f : Fixup) (hf : f ∈ (Step.switch default cases).references (offset before)) :=
    hc.s24At_reference hlt (mem_references hsteps hf)
  obtain ⟨t, ht, hdefault⟩ := href _ List.mem_cons_self
  obtain ⟨ts, hts, hcases⟩ := exists_readDistances fun f hf => href f (List.mem_cons_of_mem _ hf)
  refine ⟨t, ts, offset before + 4 + (Step.countBytes cases).length + 3 * cases.length, ht, hts, ?_⟩
  have hcount : ∀ j < (Step.countBytes cases).length,
      code[offset before + 4 + j]? = (Step.countBytes cases)[j]? := fun j hj => by
    have hin : 4 + j < (Step.switch default cases).bytes.length := by
      rw [length_bytes_switch]
      omega
    rw [Nat.add_assoc, hc.getElem?_step hsteps hin, Step.bytes, List.append_assoc,
      List.getElem?_append_right (Nat.le_add_right 4 j)]
    · rw [show 4 + j - [Opcode.lookupSwitch.byte, 0, 0, 0].length = j from Nat.add_sub_cancel_left 4 j,
        List.getElem?_append_left hj]
    · -- The count stands between the default and the cases.
      intro f hf hcov
      rcases List.mem_cons.1 hf with rfl | hf
      · have := hcov.2
        simp only at this
        omega
      · have hb := ((spaced_cases cases (by omega)).bounds f hf).1
        have := hcov.1
        omega
  have hsize : offset before + 4 ≤ code.size := by
    rw [hc.size, hsteps, offset, offset, emitted_append, emitted_cons, List.length_append, List.length_append,
      length_bytes_switch]
    omega
  rw [readSwitch, bind_of_ok (s24_eq_ok hdefault), bind_of_ok (count_eq_ok hcount hsize hpos hle),
    Nat.sub_add_cancel hpos, bind_of_ok hcases]
  rfl

/-! ## Running a switch -/

section Switch

variable {σ : Type} {mc : Machine σ} {V : View} {O : List Value} {owned : Multiset Value} {x : Value}
  {fallback : Int} {ds : List Int} {next : Nat}

/-- A switch takes the topmost operand and goes where the selected distance leads. -/
theorem exists_step_switch (host : Host σ) (hbyte : code[p]? = some Opcode.lookupSwitch.byte)
    (hread : readSwitch ⟨code, p + 1⟩ = .ok (fallback, ds) ⟨code, next⟩) (hac : mc.Accounts V owned)
    (hO : V.operands = O ++ [x]) (hx : x ≠ .unbound)
    (ht : (p : Int) + Interpreter.selectCase fallback ds (mc.heap.toInt32 x) = t) (hle : t ≤ code.size) :
    ∃ mc', Interpreter.step host code p mc = .ok (.goto t) mc' ∧ mc'.Accounts { V with operands := O } owned := by
  obtain ⟨h, f, s⟩ := mc
  obtain ⟨hf, hac⟩ := hac
  obtain ⟨f', hpop, hf'⟩ := pop_ok (h := h) (s := s) hf hO
  have hvalues : V.values + owned = { V with operands := O }.values + owned + {x} := by
    simp only [View.values, hO, ← Multiset.coe_add, Multiset.coe_singleton]
    abel
  rw [hvalues] at hac
  obtain ⟨h', hrelease, hac'⟩ := hac.exists_release hx
  have hseek : Cursor.seek ((p : Int) + Interpreter.selectCase fallback ds (h.toInt32 x)) ⟨code, next⟩ =
      .ok () ⟨code, t⟩ := by
    rw [ht, Cursor.seek, if_pos ⟨Int.natCast_nonneg t, Int.ofNat_le.2 hle⟩]
    rfl
  refine ⟨⟨h', f', s⟩, ?_, hf', hac'⟩
  have haction : actionOfByte Opcode.lookupSwitch.byte = .lookupSwitch := rfl
  simp only [Interpreter.step, hbyte, haction, Interpreter.perform]
  rw [bind_of_ok (Interpreter.fetch_ok hread), bind_of_ok hpop, get_bind, bind_of_ok (onHeap_ok hrelease),
    bind_of_ok (Interpreter.fetch_ok hseek)]
  rfl

/-- The label that a number selects in a switch. -/
def Selects (default : String) (cases : List String) (i : Int) (label : String) : Prop :=
  (∃ n : Nat, i = n ∧ cases[n]? = some label) ∨ ((∀ n < cases.length, i ≠ (n : Nat)) ∧ label = default)

/-- The instruction at `p` gives up the topmost operand and leads to a label. -/
def Reaches (steps : List Step) (code : Array UInt8) (host : Host σ) (p : Nat) (label : String) (mc : Machine σ)
    (V : View) (owned : Multiset Value) : Prop :=
  ∃ t mc', MarkedAt steps label t ∧ Interpreter.step host code p mc = .ok (.goto t) mc' ∧ mc'.Accounts V owned

theorem exists_selectCase {default : String} {cases : List String} {ts : List Nat} {i : Int32}
    (ht : MarkedAt steps default t) (hts : List.Forall₂ (MarkedAt steps) cases ts)
    (hsel : Selects default cases i.toInt label) : ∃ u : Nat, MarkedAt steps label u ∧
      (p : Int) + Interpreter.selectCase ((t : Int) - p) (ts.map fun u : Nat => (u : Int) - p) i = u := by
  have hnonneg : i < 0 ↔ i.toInt < 0 := Int32.lt_iff_toInt_lt
  rcases hsel with ⟨n, hn, hcase⟩ | ⟨hnone, rfl⟩
  · obtain ⟨hlt, rfl⟩ := List.getElem?_eq_some_iff.1 hcase
    have hlt' : n < ts.length := hts.length_eq ▸ hlt
    refine ⟨ts[n], hts.get hlt hlt', ?_⟩
    rw [Interpreter.selectCase, if_neg (by rw [hnonneg]; omega), Int32.toNatClampNeg, hn, Int.toNat_natCast,
      List.getElem?_map, List.getElem?_eq_getElem hlt', Option.map_some, Option.getD_some]
    omega
  · refine ⟨t, ht, ?_⟩
    rw [Interpreter.selectCase]
    split
    · omega
    · rename_i hge
      rw [List.getElem?_eq_none, Option.getD_none]
      · omega
      · rw [List.length_map, ← hts.length_eq, Int32.toNatClampNeg]
        by_contra hlt
        exact hnone _ (Nat.lt_of_not_le hlt) (by rw [hnonneg] at hge; omega)

end Switch

/-- Assembled code consists of the bytes that its steps write, except for references to labels. A branch has its byte
and the distance from its end to its label. At a switch, the interpreter goes to the label of the case that the
topmost operand selects, or to the default. Every label has one place. -/
theorem assembled_code_reaches_labels (hok : assemble steps = .ok code) (hlt : code.size < 2 ^ 23) :
    (∀ label t t', MarkedAt steps label t → MarkedAt steps label t' → t = t') ∧
    (code.size = offset steps ∧
      ∀ i, (∀ f ∈ references 0 steps, ¬Covers f i) → code[i]? = (emitted steps)[i]?) ∧
    (∀ before byte label after, steps = before ++ .branch byte label :: after →
      ∃ (t : Nat) (d : Int), MarkedAt steps label t ∧ code[offset before]? = some byte ∧
        Immediate.s24At code (offset before + 1) = ⟨d, 3, none⟩ ∧ (offset before : Int) + 4 + d = t) ∧
    ∀ before default cases after, steps = before ++ .switch default cases :: after → 1 ≤ cases.length →
      cases.length ≤ 2 ^ 20 + 1 → ∀ (σ : Type) (host : Host σ) (mc : Machine σ) (V : View) (O : List Value)
        (x : Value) (owned : Multiset Value) (label : String), mc.Accounts V owned → V.operands = O ++ [x] →
        x ≠ .unbound → Selects default cases (mc.heap.toInt32 x).toInt label →
        Reaches steps code host (offset before) label mc { V with operands := O } owned := by
  have hc := assembled hok
  refine ⟨hc.unique, ⟨hc.size, hc.others⟩, fun _ _ _ _ hsteps => hc.branch hlt hsteps, ?_⟩
  intro before default cases after hsteps hpos hle σ host mc V O x owned label hac hO hx hsel
  obtain ⟨t, ts, next, ht, hts, hread⟩ := hc.exists_readSwitch hlt hsteps hpos hle
  obtain ⟨u, hu, hselect⟩ := exists_selectCase (p := offset before) ht hts hsel
  have hbyte := hc.getElem?_switch hsteps
  obtain ⟨mc', hstep, hac'⟩ := exists_step_switch host hbyte hread hac hO hx hselect (hc.markedAt_le hu)
  exact ⟨u, mc', hu, hstep, hac'⟩

/-- A jump over a switch that leads back or behind itself. -/
def roundabout : List Step :=
  [.mark "back", .branch Opcode.jump.byte "on", .switch "back" ["back", "on"], .label "on"]

def roundaboutCode : Array UInt8 :=
  #[0x10, 11, 0, 0, 0x1b, 0xfc, 0xff, 0xff, 1, 0xfc, 0xff, 0xff, 11, 0, 0, 0x09]

/-- A machine whose only operand is the number one. -/
def oneOnStack : Machine Unit where
  heap := { cells := #[⟨1, .int 1⟩] }
  frame := { firstSlots := #[], secondSlots := #[.ref 0], stackIndex := 1 }
  host := ()

def oneInView : View where
  capacity := 1
  global := .null
  method := {}
  jumps := 0
  locals := []
  operands := [.ref 0]
  scope := []

theorem accounts_one : oneOnStack.Accounts oneInView 0 where
  frame := ⟨⟨rfl, rfl, rfl, rfl, by decide, rfl, by decide, by decide⟩, by decide, rfl, rfl, rfl, rfl⟩
  heap := accounted_single rfl rfl (by decide) fun a => by simp [View.values, oneInView]

/-- The jump leads over the switch, and the number one selects its second case, which leads behind it. -/
theorem assembled_code_reaches_labels_roundabout : assemble roundabout = .ok roundaboutCode ∧
    Immediate.s24At roundaboutCode 1 = ⟨11, 3, none⟩ ∧ ∀ host, ∃ mc',
      Interpreter.step host roundaboutCode 4 oneOnStack = .ok (.goto 15) mc' ∧
        mc'.Accounts { oneInView with operands := [] } 0 := by
  have hok : assemble roundabout = .ok roundaboutCode := rfl
  have hon : MarkedAt roundabout "on" 15 := ⟨roundabout.dropLast, .label "on", [], rfl, rfl, rfl⟩
  obtain ⟨hunique, -, hbranch, hswitch⟩ := assembled_code_reaches_labels hok (by decide)
  refine ⟨hok, ?_, fun host => ?_⟩
  · obtain ⟨t, d, ht, -, hread, hd⟩ := hbranch [.mark "back"] _ _ _ rfl
    have heq : (0 : Int) + 4 + d = (15 : Nat) := by rw [hunique _ _ _ hon ht]; exact hd
    obtain rfl : d = 11 := by omega
    exact hread
  · obtain ⟨t, mc', ht, hstep, hac⟩ := hswitch [.mark "back", .branch Opcode.jump.byte "on"] "back" ["back", "on"] _
      rfl (by decide) (by decide) Unit host oneOnStack oneInView [] (.ref 0) 0 "on" accounts_one rfl nofun
      (.inl ⟨1, rfl, rfl⟩)
    obtain rfl : t = 15 := hunique _ _ _ ht hon
    exact ⟨mc', hstep, hac⟩

end Assembler

end MethodJit
