import Mathlib.Logic.Relation
import MethodJit.Proofs.Naming

/-!
# Cascades

When the last reference to a cell is given up, so are the references that it held, and so on. A cascade
is the state of this: the references that are still to be given up, and the heap. `Cascade.Step` leaves
open in which order the references of an emptied cell are given up. Giving up two references in either
order has the same effect, so that every way of carrying out a cascade ends with the same heap. On an
accounted heap none of them fails.
-/

namespace MethodJit

open Relation

variable {h h' h₁ h₂ : Heap} {owned : Multiset Value} {a b : Address} {c : Cell} {v w : Value}
  {held held' rest : List Value}

namespace Cell

/-- A cell to which one reference less is left. -/
def relieved (c : Cell) : Cell :=
  if c.count = 1 then ⟨0, c.body.emptied⟩ else ⟨c.count - 1, c.body⟩

/-- The references that a cell gives up together with one to itself. -/
def yielded (c : Cell) : List Value := if c.count = 1 then c.body.children else []

end Cell

/-- Gives up one reference, and gives those that have to be given up next. -/
def Heap.giveUp (v : Value) (h : Heap) : Except Fault (List Value × Heap) :=
  match v with
  | .unbound => .error .bounds
  | .ref a =>
    match h.cells[a]? with
    | none => .error .bounds
    | some c =>
      if c.count = 0 then .error (.underflow c.body.kind) else .ok (c.yielded, h.setCell a c.relieved)
  | _ => .ok ([], h)

theorem giveUp_ref : h.giveUp (.ref a) = .ok (held, h') ↔
    ∃ c, h.cells[a]? = some c ∧ c.count ≠ 0 ∧ held = c.yielded ∧ h' = h.setCell a c.relieved := by
  cases hc : h.cells[a]? with
  | none => simp [Heap.giveUp, hc]
  | some c => by_cases h0 : c.count = 0 <;> simp [Heap.giveUp, hc, h0, eq_comm]

theorem giveUp_immortal (hv : ∀ a, v ≠ .ref a) (hok : h.giveUp v = .ok (held, h')) :
    held = [] ∧ h' = h := by
  cases v with
  | ref a => exact absurd rfl (hv a)
  | unbound => cases hok
  | _ =>
    cases hok
    exact ⟨rfl, rfl⟩

theorem giveUp_of_immortal (hv : ∀ a, v ≠ .ref a) (hbound : v ≠ .unbound) (h : Heap) :
    h.giveUp v = .ok ([], h) := by
  cases v with
  | ref a => exact absurd rfl (hv a)
  | unbound => exact absurd rfl hbound
  | _ => rfl

theorem giveUp_ne_unbound (hok : h.giveUp v = .ok (held, h')) : v ≠ .unbound := by
  rintro rfl
  cases hok

/-- Releasing gives up the first pending reference and goes on with those that it held. -/
theorem releaseAll_cons (v : Value) (rest : List Value) (h : Heap) :
    Heap.releaseAll (v :: rest) h = match h.giveUp v with
      | .ok (held, h') => Heap.releaseAll (held ++ rest) h'
      | .error e => .error e h := by
  cases v with
  | ref a =>
    rw [Heap.releaseAll]
    split <;> rename_i hc <;> simp [Heap.giveUp, hc, Cell.yielded, Cell.relieved]
  | _ =>
    rw [Heap.releaseAll]
    rfl

theorem setCell_comm (hne : a ≠ b) (c d : Cell) :
    (h.setCell a c).setCell b d = (h.setCell b d).setCell a c := by
  simp only [Heap.setCell]
  rw [Array.setIfInBounds_comm _ _ hne]

/-- Different references can be given up in either order. -/
theorem giveUp_comm (hne : v ≠ w) (hv : h.giveUp v = .ok (held, h₁)) (hw : h.giveUp w = .ok (held', h₂)) :
    ∃ h₃, h₁.giveUp w = .ok (held', h₃) ∧ h₂.giveUp v = .ok (held, h₃) := by
  by_cases hv' : ∀ a, v ≠ .ref a
  · obtain ⟨rfl, rfl⟩ := giveUp_immortal hv' hv
    exact ⟨h₂, hw, giveUp_of_immortal hv' (giveUp_ne_unbound hv) h₂⟩
  by_cases hw' : ∀ a, w ≠ .ref a
  · obtain ⟨rfl, rfl⟩ := giveUp_immortal hw' hw
    exact ⟨h₁, giveUp_of_immortal hw' (giveUp_ne_unbound hw) h₁, hv⟩
  push Not at hv' hw'
  obtain ⟨a, rfl⟩ := hv'
  obtain ⟨b, rfl⟩ := hw'
  have hab : a ≠ b := fun heq => hne (by rw [heq])
  obtain ⟨c, hc, hc0, rfl, rfl⟩ := giveUp_ref.1 hv
  obtain ⟨d, hd, hd0, rfl, rfl⟩ := giveUp_ref.1 hw
  refine ⟨(h.setCell a c.relieved).setCell b d.relieved, giveUp_ref.2 ⟨d, ?_, hd0, rfl, rfl⟩,
    giveUp_ref.2 ⟨c, ?_, hc0, rfl, setCell_comm hab _ _⟩⟩
  · rw [cells_setCell hc, if_neg hab.symm, hd]
  · rw [cells_setCell hd, if_neg hab, hc]

/-! ## Steps -/

/-- The references that are to be given up, and the heap. -/
structure Cascade where
  pending : List Value
  heap : Heap

/-- The first pending reference is given up, and those that it held are given up next, in any order. -/
inductive Cascade.Step : Cascade → Cascade → Prop
  | intro {v : Value} {held order rest : List Value} {h h' : Heap} (hok : h.giveUp v = .ok (held, h'))
    (horder : order.Perm held) : Step ⟨v :: rest, h⟩ ⟨order ++ rest, h'⟩

/-- Any one of the pending references is given up. -/
def Heap.Drops (s s' : Multiset Value × Heap) : Prop :=
  ∃ v held h', v ∈ s.1 ∧ s.2.giveUp v = .ok (held, h') ∧ s' = (s.1.erase v + ↑held, h')

/-- Two drops agree, or each can be followed by the other. -/
theorem Heap.Drops.diamond {s s₁ s₂ : Multiset Value × Heap} (hd₁ : Heap.Drops s s₁)
    (hd₂ : Heap.Drops s s₂) : s₁ = s₂ ∨ ∃ s₃, Heap.Drops s₁ s₃ ∧ Heap.Drops s₂ s₃ := by
  obtain ⟨v, held, h₁, hv, hok₁, rfl⟩ := hd₁
  obtain ⟨w, held', h₂, hw, hok₂, rfl⟩ := hd₂
  by_cases hne : v = w
  · subst hne
    rw [hok₁] at hok₂
    cases hok₂
    exact .inl rfl
  · obtain ⟨h₃, hok₃, hok₃'⟩ := giveUp_comm hne hok₁ hok₂
    have hw' : w ∈ s.1.erase v := (Multiset.mem_erase_of_ne (Ne.symm hne)).2 hw
    have hv' : v ∈ s.1.erase w := (Multiset.mem_erase_of_ne hne).2 hv
    refine .inr ⟨((s.1.erase v).erase w + ↑held + ↑held', h₃),
      ⟨w, held', h₃, Multiset.mem_add.2 (.inl hw'), hok₃, ?_⟩,
      ⟨v, held, h₃, Multiset.mem_add.2 (.inl hv'), hok₃', ?_⟩⟩
    · rw [Multiset.erase_add_left_pos _ hw']
    · rw [Multiset.erase_add_left_pos _ hv', Multiset.erase_comm, add_right_comm]

theorem Heap.Drops.unique {s : Multiset Value × Heap} (hd₁ : ReflTransGen Heap.Drops s (0, h₁))
    (hd₂ : ReflTransGen Heap.Drops s (0, h₂)) : h₁ = h₂ := by
  have hend {h : Heap} {s' : Multiset Value × Heap} (hs : ReflTransGen Heap.Drops (0, h) s') :
      s' = (0, h) := by
    rcases hs.cases_head with heq | ⟨_, ⟨v, _, _, hv, _⟩, _⟩
    · exact heq.symm
    · exact absurd hv (Multiset.notMem_zero v)
  have hstep (s s₁ s₂ : Multiset Value × Heap) (hd₁ : Heap.Drops s s₁) (hd₂ : Heap.Drops s s₂) :
      ∃ s₃, ReflGen Heap.Drops s₁ s₃ ∧ ReflTransGen Heap.Drops s₂ s₃ := by
    rcases hd₁.diamond hd₂ with rfl | ⟨s₃, h₁, h₂⟩
    · exact ⟨s₁, .refl, .refl⟩
    · exact ⟨s₃, .single h₁, .single h₂⟩
  obtain ⟨s₃, hs₁, hs₂⟩ := church_rosser hstep hd₁ hd₂
  have heq := (hend hs₁).symm.trans (hend hs₂)
  exact (Prod.ext_iff.1 heq).2

/-- A cell that died is emptied, and all others hold what they held. -/
structure Heap.Relieved (h h' : Heap) : Prop where
  size : h'.cells.size = h.cells.size
  cells : ∀ (a : Address) c, h.cells[a]? = some c → ∃ c', h'.cells[a]? = some c' ∧ c'.count ≤ c.count ∧
    c'.body = if c.count ≠ 0 ∧ c'.count = 0 then c.body.emptied else c.body
  abandoned : h'.abandoned = h.abandoned

namespace Heap.Relieved

theorem refl (h : Heap) : h.Relieved h where
  size := rfl
  cells _ c hc := ⟨c, hc, Nat.le_refl _, (if_neg fun h0 => h0.1 h0.2).symm⟩
  abandoned := rfl

theorem trans (hr₁ : h.Relieved h₁) (hr₂ : h₁.Relieved h₂) : h.Relieved h₂ where
  size := hr₂.size.trans hr₁.size
  cells a c hc := by
    obtain ⟨c₁, hc₁, hle₁, hbody₁⟩ := hr₁.cells a c hc
    obtain ⟨c₂, hc₂, hle₂, hbody₂⟩ := hr₂.cells a c₁ hc₁
    refine ⟨c₂, hc₂, Nat.le_trans hle₂ hle₁, ?_⟩
    rw [hbody₂, hbody₁]
    by_cases h1 : c₁.count = 0
    · have h2 : c₂.count = 0 := by omega
      simp [h1, h2]
    · have h0 : c.count ≠ 0 := by omega
      simp [h1, h0]
  abandoned := hr₂.abandoned.trans hr₁.abandoned

theorem setCell (hc : h.cells[a]? = some c) (h0 : c.count ≠ 0) :
    h.Relieved (h.setCell a c.relieved) where
  size := size_setCell h a _
  cells b d hd := by
    rw [cells_setCell hc]
    by_cases hb : b = a
    · subst hb
      rw [hc, Option.some.injEq] at hd
      subst hd
      refine ⟨c.relieved, if_pos rfl, ?_⟩
      unfold Cell.relieved
      by_cases h1 : c.count = 1
      · simp [h1]
      · have h2 : c.count - 1 ≠ 0 := by omega
        simp [h1, h2]
    · obtain ⟨d', hd', hrest⟩ := (Heap.Relieved.refl h).cells b d hd
      exact ⟨d', by rw [if_neg hb, hd'], hrest⟩
  abandoned := rfl

end Heap.Relieved

namespace Cascade

variable {s s' : Cascade}

theorem Step.drops (hs : Step s s') : Heap.Drops (↑s.pending, s.heap) (↑s'.pending, s'.heap) := by
  obtain ⟨hok, horder⟩ := hs
  rename_i v held order rest h h'
  refine ⟨v, held, h', by simp, hok, ?_⟩
  have hpending : (↑(order ++ rest) : Multiset Value) = (↑(v :: rest) : Multiset Value).erase v + ↑held := by
    rw [Multiset.coe_erase, List.erase_cons_head, Multiset.coe_add, Multiset.coe_eq_coe]
    exact (horder.append_right rest).trans List.perm_append_comm
  simp only [hpending]

theorem Step.relieved (hs : Step s s') : s.heap.Relieved s'.heap := by
  obtain ⟨hok, -⟩ := hs
  rename_i v held order rest h h'
  by_cases hv : ∀ a, v ≠ .ref a
  · obtain ⟨-, rfl⟩ := giveUp_immortal hv hok
    exact .refl _
  · push Not at hv
    obtain ⟨a, rfl⟩ := hv
    obtain ⟨c, hc, h0, -, rfl⟩ := giveUp_ref.1 hok
    exact .setCell hc h0

/-- Every step takes a pending reference or one that a cell holds. -/
theorem Step.lt (hs : Step s s') :
    s'.pending.length + s'.heap.edges < s.pending.length + s.heap.edges := by
  obtain ⟨hok, horder⟩ := hs
  rename_i v held order rest h h'
  have hlength := horder.length_eq
  simp only [List.length_append, List.length_cons, hlength]
  by_cases hv : ∀ a, v ≠ .ref a
  · obtain ⟨rfl, rfl⟩ := giveUp_immortal hv hok
    simp
  · push Not at hv
    obtain ⟨a, rfl⟩ := hv
    obtain ⟨c, hc, h0, rfl, rfl⟩ := giveUp_ref.1 hok
    have hedges := h.edges_setCell a c c.relieved hc
    unfold Cell.yielded
    unfold Cell.relieved at hedges ⊢
    by_cases h1 : c.count = 1
    · simp only [h1, if_true, Body.children_emptied, List.length_nil] at hedges ⊢
      omega
    · simp only [h1, if_false, List.length_nil] at hedges ⊢
      omega

/-- Every cascade ends, in whatever order references are given up. -/
theorem wellFounded_step : WellFounded fun s' s : Cascade => Step s s' :=
  Subrelation.wf (fun hs => Step.lt hs) (measure fun s : Cascade => s.pending.length + s.heap.edges).wf

/-- Releasing is one of the ways to carry out a cascade. -/
theorem steps_of_releaseAll (pending : List Value) (hok : Heap.releaseAll pending h = .ok () h') :
    ReflTransGen Step ⟨pending, h⟩ ⟨[], h'⟩ := by
  generalize hs : (⟨pending, h⟩ : Cascade) = s
  induction s using wellFounded_step.induction generalizing pending h with
  | _ s ih =>
    subst hs
    cases pending with
    | nil =>
      rw [Heap.releaseAll] at hok
      cases hok
      exact .refl
    | cons v rest =>
      rw [releaseAll_cons] at hok
      cases hg : h.giveUp v with
      | error e =>
        rw [hg] at hok
        cases hok
      | ok p =>
        obtain ⟨held, h₁⟩ := p
        rw [hg] at hok
        have hstep : Step ⟨v :: rest, h⟩ ⟨held ++ rest, h₁⟩ := .intro hg (.refl held)
        exact .head hstep (ih _ hstep _ hok rfl)

/-- The pending references are owned by the cascade, beside those that are owned outside. -/
structure Accounted (owned : Multiset Value) (s : Cascade) : Prop where
  heap : MethodJit.Accounted (↑s.pending + owned) s.heap
  bound : .unbound ∉ s.pending

theorem coe_cons_add (v : Value) (rest : List Value) (owned : Multiset Value) :
    (↑(v :: rest) + owned : Multiset Value) = {v} + (↑rest + owned) := by
  rw [← Multiset.cons_coe, ← Multiset.singleton_add, add_assoc]

theorem Accounted.step (hac : Accounted owned s) (hs : Step s s') : Accounted owned s' := by
  obtain ⟨hheap, hbound⟩ := hac
  obtain ⟨hok, horder⟩ := hs
  rename_i v held order rest h h'
  rw [coe_cons_add] at hheap
  have hrest : .unbound ∉ rest := fun hm => hbound (List.mem_cons_of_mem _ hm)
  have hpending : (↑(order ++ rest) + owned : Multiset Value) = ↑held + (↑rest + owned) := by
    rw [← Multiset.coe_add, Multiset.coe_eq_coe.2 horder, add_assoc]
  by_cases hv : ∀ a, v ≠ .ref a
  · obtain ⟨rfl, rfl⟩ := giveUp_immortal hv hok
    refine ⟨?_, by simpa [horder.eq_nil] using hrest⟩
    rw [hpending, Multiset.coe_nil, zero_add]
    refine hheap.congr fun b => ?_
    rw [Multiset.count_add _ {v}, Multiset.count_singleton, if_neg (Ne.symm (hv b)), Nat.zero_add]
  · push Not at hv
    obtain ⟨a, rfl⟩ := hv
    obtain ⟨⟨count, body⟩, hc, h0, rfl, rfl⟩ := giveUp_ref.1 hok
    by_cases h1 : count = 1
    · subst h1
      refine ⟨?_, ?_⟩
      · rw [hpending]
        exact hheap.empty_cell hc
      · rw [List.mem_append, not_or]
        exact ⟨fun hm => hheap.bound a _ hc (horder.mem_iff.1 hm), hrest⟩
    · obtain ⟨n, rfl⟩ : ∃ n, count = n + 2 := ⟨count - 2, by simp only at h0; omega⟩
      refine ⟨?_, ?_⟩
      · rw [hpending]
        simpa [Cell.yielded, Cell.relieved] using hheap.release hc
      · simpa [Cell.yielded, horder.eq_nil] using hrest

/-- On an accounted heap every pending reference can be given up. -/
theorem Accounted.progress (hac : Accounted owned s) : s.pending = [] ∨ ∃ s', Step s s' := by
  obtain ⟨pending, h⟩ := s
  cases pending with
  | nil => exact .inl rfl
  | cons v rest =>
    right
    have hheap := hac.heap
    rw [coe_cons_add] at hheap
    cases v with
    | unbound => exact absurd List.mem_cons_self hac.bound
    | ref a =>
      obtain ⟨c, hc, h0⟩ := hheap.cell_of_mem (a := a) (by simp)
      exact ⟨_, .intro (giveUp_ref.2 ⟨c, hc, h0, rfl, rfl⟩) (.refl _)⟩
    | _ => exact ⟨_, .intro rfl (.refl _)⟩

theorem Accounted.steps (hac : Accounted owned s) (hs : ReflTransGen Step s s') :
    Accounted owned s' := by
  induction hs with
  | refl => exact hac
  | tail _ hstep ih => exact ih.step hstep

theorem relieved_of_steps (hs : ReflTransGen Step s s') : s.heap.Relieved s'.heap := by
  induction hs with
  | refl => exact .refl _
  | tail _ hstep ih => exact ih.trans hstep.relieved

theorem drops_of_steps (hs : ReflTransGen Step s s') :
    ReflTransGen Heap.Drops (↑s.pending, s.heap) (↑s'.pending, s'.heap) :=
  hs.lift (fun s : Cascade => ((↑s.pending, s.heap) : Multiset Value × Heap)) fun _ _ hstep => hstep.drops

end Cascade

/-- Giving up an owned reference on an accounted heap succeeds and leaves an accounted heap, in which
cells that died are emptied and all others hold what they held. In whatever order references of emptied
cells are given up, this comes to an end, does not fail on the way and ends with the same heap. -/
theorem release_cascade (hac : Accounted owned h) (hv : v ∈ owned) (hbound : v ≠ .unbound) :
    ∃ h', release v h = .ok () h' ∧ Accounted (owned.erase v) h' ∧ h.Relieved h' ∧
      Acc (fun s' s => Cascade.Step s s') ⟨[v], h⟩ ∧
      ∀ s, ReflTransGen Cascade.Step ⟨[v], h⟩ s → s = ⟨[], h'⟩ ∨ ∃ s', Cascade.Step s s' := by
  have howned : (↑[v] + owned.erase v : Multiset Value) = owned := by
    rw [Multiset.coe_singleton, Multiset.singleton_add, Multiset.cons_erase hv]
  rw [← howned] at hac
  have hmem : .unbound ∉ [v] := fun hm => hbound (List.mem_singleton.1 hm).symm
  have hstart : Cascade.Accounted (owned.erase v) ⟨[v], h⟩ := ⟨hac, hmem⟩
  obtain ⟨h', hok, hr, -, -⟩ := Represents.releaseAll [v] hac.represents hmem
  have hsteps := Cascade.steps_of_releaseAll _ hok
  refine ⟨h', hok, hr.accounted, Cascade.relieved_of_steps hsteps, Cascade.wellFounded_step.apply _,
    fun s hs => ?_⟩
  rcases (hstart.steps hs).progress with hnil | hnext
  · obtain ⟨pending, h₁⟩ := s
    obtain rfl : pending = [] := hnil
    obtain rfl := Heap.Drops.unique (Cascade.drops_of_steps hs) (Cascade.drops_of_steps hsteps)
    exact .inl rfl
  · exact .inr hnext

/-- An object that holds an array twice; the array holds another one, which also holds itself. -/
def Heap.knot : Heap where
  cells := #[⟨1, .object ⟨[("x", .ref 1), ("y", .ref 1)], true⟩ none⟩, ⟨2, .array #[.ref 2]⟩,
    ⟨2, .array #[.ref 2]⟩]

theorem accounted_knot : Accounted {.ref 0} Heap.knot where
  counts a := by
    rcases a with _ | _ | _ | a
    · decide
    · decide
    · decide
    · have hheld : Heap.knot.held (a + 3) = 0 := by
        simp [Heap.held, Heap.knot, Heap.total, Cell.held, Body.children]
      rw [hheld]
      simp [Heap.countAt, Heap.knot]
  empty a c hc h0 := by
    rcases a with _ | _ | _ | a <;> simp [Heap.knot] at hc <;> subst hc <;> cases h0
  bound a c hc := by
    rcases a with _ | _ | _ | a <;> simp [Heap.knot] at hc <;> subst hc <;> simp [Body.children]
  makers a c hc k hk := by
    rcases a with _ | _ | _ | a <;> simp [Heap.knot] at hc <;> subst hc <;> cases hk

theorem release_cascade_knot : Accounted {.ref 0} Heap.knot ∧
    ∃ h', release (.ref 0) Heap.knot = .ok () h' ∧ Accounted (Multiset.erase {.ref 0} (.ref 0)) h' ∧
      Heap.knot.Relieved h' ∧ Acc (fun s' s => Cascade.Step s s') ⟨[.ref 0], Heap.knot⟩ ∧
      ∀ s, ReflTransGen Cascade.Step ⟨[.ref 0], Heap.knot⟩ s → s = ⟨[], h'⟩ ∨ ∃ s', Cascade.Step s s' :=
  ⟨accounted_knot, release_cascade accounted_knot (Multiset.mem_singleton_self _) nofun⟩

end MethodJit
