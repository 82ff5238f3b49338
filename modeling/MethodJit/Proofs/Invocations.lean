import Mathlib.Data.List.Find
import MethodJit.Proofs.Immediate

/-!
# Two invocations in lockstep

Two invocations are joined if everything is in their frames and the lanes for which they stand are
joined. An action of an invocation that follows one on its lane can be compared in this way; so can one
that works on the heap, for which it can borrow what the frame holds. A run that is not followed any
further still owns what its frame holds, so that the frame can be given up.
-/

namespace MethodJit

variable {σ α β γ δ : Type} {K : Origin} {s : Setting} {I : σ → Prop} {P Q pre : Multiset Link}
  {borrow : List Link} {t : Prop} {h h' : Heap} {v w : Value} {R : α → β → Multiset Link → Prop}
  {S : γ → δ → Multiset Link → Prop}

/-- The references are owned beside those that the frame holds. -/
def Machine.Owns (own : Multiset Value) (mc : Machine σ) : Prop :=
  ∃ L O S, mc.frame.Holds L O S ∧ MethodJit.Owns (own + ((L.map Value.refs).sum + ↑O + ↑S)) mc.heap

/-- Two invocations that have taken the same number of jumps, with the same host. -/
def Machine.Joined (K : Origin) (s : Setting) (I : σ → Prop) (P : Multiset Link) (mc mc' : Machine σ) :
    Prop :=
  mc.host = mc'.host ∧ I mc.host ∧ ∃ V V' n, mc.frame.Shows V ∧ mc'.frame.Shows V' ∧
    Lane.Joined K { s with jumps := n } P (V.lane mc.heap) (V'.lane mc'.heap)

theorem Owns.of_le {own own' : Multiset Value} (ho : Owns own' h) (hle : own ≤ own') : Owns own h := by
  obtain ⟨more, rfl⟩ := Multiset.le_iff_exists_add.1 hle
  exact ho.mono

namespace Machine

variable {mc mc' : Machine σ} {own more : Multiset Value}

theorem Owns.mono (ho : mc.Owns (own + more)) : mc.Owns own := by
  obtain ⟨L, O, S, hf, ho⟩ := ho
  refine ⟨L, O, S, hf, ?_⟩
  rw [add_right_comm] at ho
  exact ho.mono

/-- A lane owns the references, and the frame holds no more than the lane. -/
theorem Owns.of_covers {ℓ : Lane} (hcovers : ℓ.Covers mc.frame) (hheap : mc.heap = ℓ.heap)
    (ho : ℓ.Owns own) : mc.Owns own := by
  obtain ⟨L, O, S, hf, hle⟩ := hcovers
  refine ⟨L, O, S, hf, ?_⟩
  rw [hheap]
  exact MethodJit.Owns.of_le ho (add_le_add_right hle own)

theorem Joined.owns_left (hj : Joined K s I P mc mc') : mc.Owns (lefts P) := by
  obtain ⟨-, -, V, V', n, hf, -, hj⟩ := hj
  exact .of_covers (hf.covers mc.heap) rfl hj.owns_left

theorem Joined.owns_right (hj : Joined K s I P mc mc') : mc'.Owns (rights P) := by
  obtain ⟨-, -, V, V', n, -, hf, hj⟩ := hj
  exact .of_covers (hf.covers mc'.heap) rfl hj.owns_right

end Machine

/-- Two invocations of the same origin and setting. -/
def machineBridge (K : Origin) (s : Setting) (I : σ → Prop) : Bridge (Machine σ) (Machine σ) where
  joined := Machine.Joined K s I
  failed := Machine.Joined K s I
  left := Machine.Owns
  right := Machine.Owns
  joined_left _ _ _ := Machine.Joined.owns_left
  joined_right _ _ _ := Machine.Joined.owns_right
  left_mono _ _ _ := Machine.Owns.mono
  right_mono _ _ _ := Machine.Owns.mono

theorem machineBridge_plain (K : Origin) (s : Setting) (I : σ → Prop) : (machineBridge K s I).Plain := rfl

/-- Actions of invocations that follow actions on lanes, which throw nothing. -/
theorem Follows.twin {α' β' : Type} {x : Act σ α} {x' : Act σ α'} {y : LaneM β} {y' : LaneM β'}
    {B : α → β → Prop} {B' : α' → β' → Prop} {S : β → β' → Multiset Link → Prop} (hx : Follows x y B)
    (hx' : Follows x' y' B')
    (h : ∀ n, Twin (laneBridge K { s with jumps := n }) borrow pre False y y' S) :
    Twin (machineBridge K s I) borrow pre t x x' fun a a' P =>
      ∃ b b', B a b ∧ B' a' b' ∧ S b b' P := by
  intro keep mc mc' hkeep hj
  obtain ⟨hhost, hI, V, V', n, hf, hf', hj⟩ := hj
  have hagree := h n keep _ _ hkeep hj
  have hfollows := hx mc V hf
  have hfollows' := hx' mc' V' hf'
  cases hrun : x mc with
  | ok a m₁ =>
    obtain ⟨hhost₁, b, V₁, hf₁, hy, hB⟩ := hfollows.ok hrun
    cases hrun' : x' mc' with
    | ok a' m₁' =>
      obtain ⟨hhost₁', b', V₁', hf₁', hy', hB'⟩ := hfollows'.ok hrun'
      rw [hy, hy'] at hagree
      obtain ⟨P, hP, hj₁⟩ := hagree
      refine ⟨P, ⟨b, b', hB, hB', hP⟩, ?_, ?_, V₁, V₁', n, hf₁, hf₁', hj₁⟩
      · rw [hhost₁, hhost₁', hhost]
      · rwa [hhost₁]
    | error ε m₁' =>
      obtain ⟨ℓ', hy', -⟩ := hfollows'.error hrun'
      rw [hy, hy'] at hagree
      exact hagree.elim
  | error ε m₁ =>
    obtain ⟨ℓ, hy, hbroken⟩ := hfollows.error hrun
    have hleft (ho : ℓ.Owns (lefts keep)) : m₁.Owns (lefts keep) :=
      .of_covers hbroken.covers hbroken.heap ho
    cases hrun' : x' mc' with
    | ok a' m₁' =>
      obtain ⟨-, b', V₁', -, hy', -⟩ := hfollows'.ok hrun'
      rw [hy, hy'] at hagree
      cases hagree.cases with
      | bounds hl => exact .of_bounds (hleft hl)
    | error ε' m₁' =>
      obtain ⟨ℓ', hy', hbroken'⟩ := hfollows'.error hrun'
      have hright (ho : ℓ'.Owns (rights keep)) : m₁'.Owns (rights keep) :=
        .of_covers hbroken'.covers hbroken'.heap ho
      rw [hy, hy'] at hagree
      cases hagree.cases with
      | bounds hl => exact .of_bounds (hleft hl)
      | endless hl hr | exhausted hl hr => exact ⟨hleft hl, hright hr⟩
      | thrown ht _ | code ht _ => exact ht.elim

theorem onHeap_eq (x : HeapM α) (mc : Machine σ) :
    onHeap x mc = within (fun h => { mc with heap := h }) (x mc.heap) := by
  obtain ⟨h, f, s⟩ := mc
  simp only [onHeap]
  cases x h <;> rfl

/-- Invocations whose heaps have gone on in lockstep. -/
theorem Machine.Joined.heaps {mc mc' : Machine σ} {V V' : View} {n : Nat} {Z : List (Item × Item)}
    {M : List (Local × Local)} {S : List (Value × Value)} (hhost : mc.host = mc'.host) (hI : I mc.host)
    (hf : mc.frame.Shows V) (hf' : mc'.frame.Shows V')
    (hp : Lane.Pairs { s with jumps := n } (V.lane mc.heap) (V'.lane mc'.heap) Z M S)
    (hZ : ∀ p ∈ Z, p.1.Fits p.2) (hl : Linked K (P + (laneLinks Z M S + Q)) h h') :
    Machine.Joined K s I (P + Q) { mc with heap := h } { mc' with heap := h' } := by
  refine ⟨hhost, hI, V, V', n, hf, hf', Z, M, S, hp.heaps h h', hZ, ?_⟩
  rwa [add_left_comm] at hl

/-- Actions on the heaps of two invocations that can borrow what their frames hold. -/
theorem Machine.twin_reading {x : Act σ α} {y : Act σ β} {z : Lane → HeapM α} {u : Lane → HeapM β}
    (hx : ∀ (mc : Machine σ) V, mc.frame.Shows V → x mc = onHeap (z (V.lane mc.heap)) mc)
    (hy : ∀ (mc : Machine σ) V, mc.frame.Shows V → y mc = onHeap (u (V.lane mc.heap)) mc)
    (h : ∀ n ℓ ℓ' Z M S, Lane.Pairs { s with jumps := n } ℓ ℓ' Z M S →
      ∃ more : List Link, (∀ l ∈ more, l ∈ laneLinks Z M S) ∧
        Twin (heapBridge K) (more ++ borrow) pre t (z ℓ) (u ℓ') R) :
    Twin (machineBridge K s I) borrow pre t x y R := by
  intro keep mc mc' hkeep hj
  obtain ⟨hhost, hI, V, V', n, hf, hf', Z, M, S, hp, hZ, hl⟩ := hj
  obtain ⟨more, hmore, htwin⟩ := h n _ _ Z M S hp
  have hagree := htwin (laneLinks Z M S + keep) mc.heap mc'.heap (fun l hl => by
      rcases List.mem_append.1 hl with hl | hl
      · exact Multiset.mem_add.2 (.inl (hmore l hl))
      · exact Multiset.mem_add.2 (.inr (hkeep l hl)))
    (by rwa [add_left_comm] at hl)
  rw [hx mc V hf, hy mc' V' hf', onHeap_eq, onHeap_eq]
  have hjoin (P : Multiset Link) (h₁ h₁' : Heap) (hl : Linked K (P + (laneLinks Z M S + keep)) h₁ h₁') :
      Machine.Joined K s I (P + keep) { mc with heap := h₁ } { mc' with heap := h₁' } :=
    .heaps hhost hI hf hf' hp hZ hl
  refine Agreeing.within hagree (fun h₁ ho => ?_) (fun h₁ ho => ?_) hjoin
    fun _ _ _ _ ⟨P, hP, hl⟩ => ⟨P, hP, hjoin P _ _ hl⟩
  · have ho : MethodJit.Owns (lefts (laneLinks Z M S + keep)) h₁ := ho
    rw [lefts_add, hp.lefts_eq, add_comm] at ho
    exact .of_covers (ℓ := V.lane h₁) (hf.covers h₁) rfl ho
  · have ho : MethodJit.Owns (rights (laneLinks Z M S + keep)) h₁ := ho
    rw [rights_add, hp.rights_eq, add_comm] at ho
    exact .of_covers (ℓ := V'.lane h₁) (hf'.covers h₁) rfl ho

theorem Machine.twin_onHeap {x : HeapM α} {y : HeapM β} (h : Twin (heapBridge K) borrow pre t x y R) :
    Twin (machineBridge K s I) borrow pre t (onHeap x) (onHeap y) R :=
  Machine.twin_reading (fun _ _ _ => rfl) (fun _ _ _ => rfl) fun _ _ _ _ _ _ _ =>
    ⟨[], fun _ hl => (List.not_mem_nil hl).elim, h⟩

/-! ## Operands -/

theorem GivesItem.objects {P : Multiset Link} (hP : GivesItem (.object v) (.object w) P) : Gives v w P :=
  hP.1

theorem Machine.twin_pop : Twin (machineBridge K s I) borrow 0 t pop pop Gives := by
  refine (follows_pop.twin follows_pop fun _ => Lane.twin_pop).imp fun v w P hP => ?_
  obtain ⟨_, _, rfl, rfl, hP⟩ := hP
  exact hP.objects

theorem Machine.twin_push (v w : Value) :
    Twin (machineBridge K s I) borrow {Link.pair v w} t (push v) (push w) Done := by
  refine ((follows_push v).twin (follows_push w) fun _ => Lane.twin_push id nofun).imp fun _ _ P hP => ?_
  obtain ⟨_, _, -, -, hP⟩ := hP
  exact hP

/-- Takes the topmost operands, the lowest first. -/
def Lane.popMany (c : Int32) : LaneM (List Item) := fun ℓ =>
  if c.toInt < 0 ∨ ℓ.operands.length < c.toInt then .error .bounds ℓ
  else .ok (ℓ.operands.take c.toNatClampNeg).reverse
    { ℓ with operands := ℓ.operands.drop c.toNatClampNeg }

theorem follows_popMany (c : Int32) :
    Follows (popMany c : Act σ (List Value)) (Lane.popMany c) fun vs ys => ys = vs.map .object := by
  rintro ⟨h, f, s⟩ V hf
  have hlen : (V.lane h).operands.length = V.operands.length := by simp [View.lane]
  by_cases hc : c.toInt < 0 ∨ V.operands.length < c.toInt
  · refine Follows.of_error hf (popMany_error hf hc) ?_
    rw [Lane.popMany, if_pos (by rwa [hlen])]
  · obtain ⟨hc₀, hc₁⟩ := not_or.1 hc
    have hclamp : (c.toNatClampNeg : Int) = c.toInt := by
      rw [Int32.toNatClampNeg]
      omega
    have hle : c.toNatClampNeg ≤ V.operands.length := by omega
    have hsplit : V.operands = V.operands.take (V.operands.length - c.toNatClampNeg) ++
        V.operands.drop (V.operands.length - c.toNatClampNeg) := (List.take_append_drop _ _).symm
    obtain ⟨f', hpop, hf'⟩ := popMany_ok (h := h) (s := s) (c := c) hf hsplit (by
      rw [List.length_drop]
      omega)
    refine ends_of_ok hpop ⟨rfl, _, _, hf', ?_, rfl⟩
    rw [Lane.popMany, if_neg (by rwa [hlen])]
    simp only [View.lane, ← List.map_take, ← List.map_drop, ← List.map_reverse, List.take_reverse,
      List.drop_reverse, List.reverse_reverse]

/-- Two lists of items that stand for the same, with what they own. -/
def GivesItems (xs ys : List Item) (P : Multiset Link) : Prop :=
  ∃ Z : List (Item × Item), xs = Z.map Prod.fst ∧ ys = Z.map Prod.snd ∧ P = itemLinks Z

theorem itemLinks_append (Y Z : List (Item × Item)) : itemLinks (Y ++ Z) = itemLinks Y + itemLinks Z := by
  simp [itemLinks]

theorem itemLinks_reverse (Z : List (Item × Item)) : itemLinks Z.reverse = itemLinks Z := by
  simp [itemLinks]

theorem Lane.twin_popMany (c : Int32) :
    Twin (laneBridge K s) borrow 0 t (popMany c) (popMany c) fun xs ys P =>
      GivesItems xs ys P ∧ xs.length = c.toNatClampNeg := by
  intro keep ℓ ℓ' _ hj
  have hown : ℓ.Owns (lefts (0 + keep)) := hj.owns_left
  rw [zero_add] at hown
  obtain ⟨Z, M, S, hp, hZ, hl⟩ := hj
  unfold popMany
  rw [hp.length_eq]
  by_cases hc : c.toInt < 0 ∨ ℓ.operands.length < c.toInt
  · rw [if_pos hc]
    exact Agree.of_bounds hown
  · rw [if_neg hc, if_neg hc]
    have hle : c.toNatClampNeg ≤ ℓ.operands.length := by
      rw [Int32.toNatClampNeg]
      omega
    have hleft : (ℓ.operands.take c.toNatClampNeg).reverse = (Z.take c.toNatClampNeg).reverse.map Prod.fst := by
      rw [hp.operands_left, List.map_reverse, List.map_take]
    have hright : (ℓ'.operands.take c.toNatClampNeg).reverse =
        (Z.take c.toNatClampNeg).reverse.map Prod.snd := by
      rw [hp.operands_right, List.map_reverse, List.map_take]
    refine ⟨itemLinks (Z.take c.toNatClampNeg), ⟨⟨_, hleft, hright, (itemLinks_reverse _).symm⟩, ?_⟩,
      Z.drop c.toNatClampNeg, M, S, ?_, fun p hm => hZ p (List.mem_of_mem_drop hm), ?_⟩
    · rw [List.length_reverse, List.length_take_of_le hle]
    · exact { hp with
        operands_left := by rw [hp.operands_left, List.map_drop]
        operands_right := by rw [hp.operands_right, List.map_drop] }
    · have hsplit : itemLinks Z = itemLinks (Z.take c.toNatClampNeg) + itemLinks (Z.drop c.toNatClampNeg) := by
        rw [← itemLinks_append, List.take_append_drop]
      rw [laneLinks, hsplit, zero_add] at hl
      rw [laneLinks]
      convert hl using 1
      abel

/-- Two lists of values that stand for the same, with a reference to each. -/
def GivesEach (vs ws : List Value) (P : Multiset Link) : Prop :=
  ∃ cs : List (Value × Value), vs = cs.map (·.1) ∧ ws = cs.map (·.2) ∧ P = pairLinks cs

theorem GivesItems.objects {vs ws : List Value} {P : Multiset Link}
    (hP : GivesItems (vs.map .object) (ws.map .object) P) : GivesEach vs ws P := by
  obtain ⟨Z, hvs, hws, rfl⟩ := hP
  induction Z generalizing vs ws with
  | nil =>
    obtain rfl := List.map_eq_nil_iff.1 hvs
    obtain rfl := List.map_eq_nil_iff.1 hws
    exact ⟨[], rfl, rfl, rfl⟩
  | cons p Z ih =>
    obtain ⟨v, vs, rfl, hv, hvs⟩ := List.map_eq_cons_iff.1 hvs
    obtain ⟨w, ws, rfl, hw, hws⟩ := List.map_eq_cons_iff.1 hws
    obtain ⟨cs, rfl, rfl, hcs⟩ := ih hvs hws
    refine ⟨(v, w) :: cs, rfl, rfl, ?_⟩
    rw [itemLinks_cons, hcs, ← hv, ← hw]
    rfl

theorem Machine.twin_popMany (c : Int32) :
    Twin (machineBridge K s I) borrow 0 t (popMany c) (popMany c) fun vs ws P =>
      GivesEach vs ws P ∧ vs.length = c.toNatClampNeg := by
  refine ((follows_popMany c).twin (follows_popMany c) fun _ => Lane.twin_popMany c).imp fun vs ws P hP => ?_
  obtain ⟨_, _, rfl, rfl, hP, hlen⟩ := hP
  exact ⟨hP.objects, by rwa [List.length_map] at hlen⟩

/-! ## Constants of the method -/

/-- Actions that look at the frames, which have the same method and global object. -/
theorem Machine.twin_frame {k : Frame → Act σ α} {k' : Frame → Act σ β}
    (h : ∀ f f' : Frame, f.method = s.method → f'.method = s.method → f.global = s.global →
      f'.global = s.global → Twin (machineBridge K s I) borrow pre t (k f) (k' f') R) :
    Twin (machineBridge K s I) borrow pre t (MethodJit.frame >>= k) (MethodJit.frame >>= k') R := by
  intro keep mc mc' hkeep hj
  obtain ⟨-, -, V, V', n, hf, hf', Z, M, S, hp, -⟩ := id hj
  exact h mc.frame mc'.frame (hf.method.trans (congrArg Setting.method hp.setting_left :))
    (hf'.method.trans (congrArg Setting.method hp.setting_right :))
    (hf.global.trans (congrArg Setting.global hp.setting_left :))
    (hf'.global.trans (congrArg Setting.global hp.setting_right :)) keep mc mc' hkeep hj

theorem twin_entryAt {π : Bridge (Machine σ) (Machine σ)} (table : Array α) (i : Int32) :
    Twin π borrow 0 t (entryAt table i) (entryAt table i) Same := by
  unfold entryAt
  split
  · exact Twin.bounds
  · split
    · exact Twin.pure ⟨rfl, rfl⟩
    · exact Twin.bounds

theorem Machine.twin_nameConstant (i : Int32) :
    Twin (machineBridge K s I) borrow 0 t (nameConstant i) (nameConstant i) Same := by
  refine Machine.twin_frame fun f f' hm hm' _ _ => ?_
  rw [hm, hm']
  exact twin_entryAt _ i

/-! ## Scopes -/

def Lane.enterScope (v : Value) : LaneM Unit := fun ℓ => .ok () { ℓ with scope := ℓ.scope ++ [v] }

/-- Takes the innermost scope, if there is one. -/
def Lane.leaveScope : LaneM (Option Value) := fun ℓ =>
  .ok ℓ.scope.getLast? { ℓ with scope := ℓ.scope.dropLast }

/-- Takes the innermost scope, if there is one. -/
def leaveScope : Act σ (Option Value) := do
  let f ← frame
  match f.scope.back? with
  | none => pure none
  | some v => do
    modifyFrame fun f => { f with scope := f.scope.pop }
    pure (some v)

theorem follows_enterScope (v : Value) :
    Follows (enterScope v : Act σ Unit) (Lane.enterScope v) Eq := by
  rintro ⟨h, f, s⟩ V hf
  have hscope : f.scope.toList = V.scope := hf.scope
  exact ⟨rfl, (), { V with scope := V.scope ++ [v] }, { hf with scope := by simp [hscope] }, rfl, rfl⟩

theorem follows_leaveScope : Follows (leaveScope : Act σ (Option Value)) Lane.leaveScope Eq := by
  rintro ⟨h, f, s⟩ V hf
  have hscope : f.scope.toList = V.scope := hf.scope
  have hback : f.scope.back? = V.scope.getLast? := by rw [← hscope, Array.getLast?_toList]
  cases hlast : V.scope.getLast? with
  | none =>
    have hrun : leaveScope (⟨h, f, s⟩ : Machine σ) = .ok none ⟨h, f, s⟩ := by
      simp only [leaveScope, bind, EStateM.bind, frame, hback, hlast]
      rfl
    have hnil := List.getLast?_eq_none_iff.1 hlast
    refine ends_of_ok hrun ⟨rfl, none, V, hf, ?_, rfl⟩
    simp [Lane.leaveScope, View.lane, hnil]
  | some v =>
    have hrun : leaveScope (⟨h, f, s⟩ : Machine σ) = .ok (some v) ⟨h, { f with scope := f.scope.pop }, s⟩ := by
      simp only [leaveScope, bind, EStateM.bind, frame, hback, hlast]
      rfl
    refine ends_of_ok hrun ⟨rfl, some v, { V with scope := V.scope.dropLast },
      { hf with scope := by simp [hscope] }, ?_, rfl⟩
    simp [Lane.leaveScope, View.lane, hlast]

theorem pairLinks_append (A B : List (Value × Value)) : pairLinks (A ++ B) = pairLinks A + pairLinks B := by
  simp [pairLinks]

theorem Lane.twin_enterScope : Twin (laneBridge K s) borrow {Link.pair v w} t (Lane.enterScope v)
    (Lane.enterScope w) Done := by
  intro keep ℓ ℓ' _ hj
  obtain ⟨Z, M, S, hp, hZ, hl⟩ := hj
  refine ⟨0, rfl, Z, M, S ++ [(v, w)], ?_, hZ, ?_⟩
  · exact { hp with
      scope_left := by simp [hp.scope_left]
      scope_right := by simp [hp.scope_right] }
  · have hlinks : laneLinks Z M (S ++ [(v, w)]) + (0 + keep) = laneLinks Z M S + ({Link.pair v w} + keep) := by
      rw [laneLinks, laneLinks, pairLinks_append, zero_add, ← add_assoc, ← add_assoc]
      rfl
    rw [hlinks]
    exact hl

/-- Two values that stand for the same, with a reference to each, or none. -/
def GivesAny (o o' : Option Value) (P : Multiset Link) : Prop :=
  (o = none ∧ o' = none ∧ P = 0) ∨ ∃ v w, o = some v ∧ o' = some w ∧ P = {Link.pair v w}

theorem Lane.twin_leaveScope : Twin (laneBridge K s) borrow 0 t Lane.leaveScope Lane.leaveScope GivesAny := by
  intro keep ℓ ℓ' _ hj
  obtain ⟨Z, M, S, hp, hZ, hl⟩ := hj
  unfold Lane.leaveScope
  obtain rfl | ⟨S, p, rfl⟩ := List.eq_nil_or_concat S
  · refine ⟨0, .inl ⟨?_, ?_, rfl⟩, Z, M, [], ?_, hZ, hl⟩
    · rw [hp.scope_left]; rfl
    · rw [hp.scope_right]; rfl
    · exact { hp with
        scope_left := by simp [hp.scope_left]
        scope_right := by simp [hp.scope_right] }
  · rw [List.concat_eq_append] at hp hl
    refine ⟨{Link.pair p.1 p.2}, .inr ⟨p.1, p.2, ?_, ?_, rfl⟩, Z, M, S, ?_, hZ, ?_⟩
    · simp [hp.scope_left]
    · simp [hp.scope_right]
    · exact { hp with
        scope_left := by simp [hp.scope_left]
        scope_right := by simp [hp.scope_right] }
    · have hlinks : laneLinks Z M (S ++ [p]) + (0 + keep) = laneLinks Z M S + ({Link.pair p.1 p.2} + keep) := by
        rw [laneLinks, laneLinks, pairLinks_append, zero_add, ← add_assoc, ← add_assoc]
        rfl
      rwa [hlinks] at hl

theorem Machine.twin_enterScope (v w : Value) :
    Twin (machineBridge K s I) borrow {Link.pair v w} t (enterScope v) (enterScope w) Done := by
  refine ((follows_enterScope v).twin (follows_enterScope w) fun _ => Lane.twin_enterScope).imp
    fun _ _ P hP => ?_
  obtain ⟨_, _, -, -, hP⟩ := hP
  exact hP

theorem Machine.twin_leaveScope :
    Twin (machineBridge K s I) borrow 0 t leaveScope leaveScope GivesAny := by
  refine (follows_leaveScope.twin follows_leaveScope fun _ => Lane.twin_leaveScope).imp fun _ _ P hP => ?_
  obtain ⟨_, _, rfl, rfl, hP⟩ := hP
  exact hP

/-- The innermost of the scopes that has the property, or the global object if it has it. -/
def Heap.scopeWith (h : Heap) (scope : List Value) (global : Value) (name : String) : Option Value :=
  (scope.reverse.find? fun v => h.has v name).orElse fun _ =>
    if h.has global name then some global else none

theorem findScope?_eq {f : Frame} {V : View} {x : σ} (hf : f.Shows V) (name : String) :
    findScope? name (⟨h, f, x⟩ : Machine σ) = .ok (h.scopeWith V.scope V.global name) ⟨h, f, x⟩ := by
  rw [findScope?, Heap.scopeWith, ← hf.scope, ← hf.global]

theorem Bond.scopeWith_eq {base : Nat} {G : Graph} {ψ ψ' : Naming} {S : List (Value × Value)}
    {global : Value} (hb : Bond base G ψ ψ' P h h') (hS : ∀ p ∈ S, Link.pair p.1 p.2 ∈ P)
    (hg : Link.pair global global ∈ P) (name : String) :
    (h.scopeWith (S.map Prod.fst) global name = none ∧ h'.scopeWith (S.map Prod.snd) global name = none) ∨
      ∃ p ∈ (global, global) :: S, h.scopeWith (S.map Prod.fst) global name = some p.1 ∧
        h'.scopeWith (S.map Prod.snd) global name = some p.2 := by
  have hleft : (S.map Prod.fst).reverse.find? (fun v => h.has v name) =
      (S.reverse.find? fun p => h.has p.1 name).map Prod.fst := by
    rw [← List.map_reverse, List.find?_map]
    rfl
  have hright : (S.map Prod.snd).reverse.find? (fun v => h'.has v name) =
      (S.reverse.find? fun p => h.has p.1 name).map Prod.snd := by
    rw [← List.map_reverse, List.find?_map, Function.comp_def]
    refine congrArg _ (List.find?_congr fun p hp => ?_)
    exact (hb.has_eq (hb.counterpart (hS p (List.mem_reverse.1 hp))) name).symm
  have hglobal : h'.has global name = h.has global name := (hb.has_eq (hb.counterpart hg) name).symm
  unfold Heap.scopeWith
  rw [hleft, hright, hglobal]
  cases hfound : S.reverse.find? fun p => h.has p.1 name with
  | some p =>
    have hp := List.mem_reverse.1 (List.mem_of_find?_eq_some hfound)
    exact .inr ⟨p, List.mem_cons_of_mem _ hp, rfl, rfl⟩
  | none =>
    cases hhas : h.has global name with
    | true => exact .inr ⟨(global, global), List.mem_cons_self, by simp, by simp⟩
    | false => exact .inl ⟨by simp, by simp⟩

/-- Actions on what was found among the scopes, which is borrowed. -/
theorem Machine.twin_finding (name : String) {k : Option Value → HeapM α} {g : Option Value → HeapM β}
    (hg : Link.pair s.global s.global ∈ borrow)
    (hnone : ∀ more, Twin (heapBridge K) (more ++ borrow) 0 t (k none) (g none) R)
    (hsome : ∀ v w borrow, Link.pair v w ∈ borrow →
      Twin (heapBridge K) borrow 0 t (k (some v)) (g (some w)) R) :
    Twin (machineBridge K s I) borrow 0 t (do onHeap (k (← findScope? name)))
      (do onHeap (g (← findScope? name))) R := by
  refine Machine.twin_reading
    (z := fun ℓ => do k ((← get).scopeWith ℓ.scope ℓ.global name))
    (u := fun ℓ => do g ((← get).scopeWith ℓ.scope ℓ.global name))
    (fun mc V hf => bind_of_ok (findScope?_eq hf name)) (fun mc V hf => bind_of_ok (findScope?_eq hf name))
    fun n ℓ ℓ' Z M S hp => ?_
  refine ⟨S.map fun p => Link.pair p.1 p.2, fun l hl => Multiset.mem_add.2 (.inr (Multiset.mem_coe.2 hl)), ?_⟩
  rw [hp.scope_left, hp.scope_right, hp.setting_left, hp.setting_right]
  refine Twin.reading fun G ψ ψ' P h h' hb hborrow _ => ?_
  have hS (p : Value × Value) (hp : p ∈ S) : Link.pair p.1 p.2 ∈ P :=
    hborrow _ (List.mem_append.2 (.inl (List.mem_map_of_mem hp)))
  obtain ⟨hv, hw⟩ | ⟨p, hp, hv, hw⟩ := hb.scopeWith_eq hS (hborrow _ (List.mem_append.2 (.inr hg))) name
  · rw [hv, hw]
    exact hnone _
  · rw [hv, hw]
    refine hsome p.1 p.2 _ (List.mem_append.2 ?_)
    rcases List.mem_cons.1 hp with rfl | hp
    · exact .inr hg
    · exact .inl (List.mem_map_of_mem hp)

end MethodJit
