import MethodJit.Interpreter
import MethodJit.Proofs.Pending

/-!
# Frames as lanes

An invocation that has everything in its frame stands for a lane, too. `Follows` says that an action of
the invocation carries out an action on this lane; whatever it does, everything is in the frame again
afterwards.
-/

namespace MethodJit

open Compiler (Broken)

variable {σ α β γ δ : Type} {V : View} {h : Heap} {f : Frame} {s : σ} {x : Act σ α} {y : LaneM β}
  {k : α → Act σ γ} {l : β → LaneM δ} {R R' : α → β → Prop} {S : γ → δ → Prop}

/-- The action carries out one on the lane, in an invocation that shows the view. -/
def FollowsAt (m : Machine σ) (V : View) (x : Act σ α) (y : LaneM β) (R : α → β → Prop) : Prop :=
  Ends x m (fun ε m' => ∃ ℓ', y (V.lane m.heap) = .error ε ℓ' ∧ Broken True m.host ε m' ℓ')
    fun a m' => m'.host = m.host ∧
      ∃ b V', m'.frame.Shows V' ∧ y (V.lane m.heap) = .ok b (V'.lane m'.heap) ∧ R a b

def Follows (x : Act σ α) (y : LaneM β) (R : α → β → Prop) : Prop :=
  ∀ (m : Machine σ) V, m.frame.Shows V → FollowsAt m V x y R

namespace Follows

protected theorem pure {a : α} {b : β} (hR : R a b) : Follows (pure a : Act σ α) (pure b) R :=
  fun _ V hf => ⟨rfl, b, V, hf, rfl, hR⟩

theorem bind (hx : Follows x y R) (hk : ∀ a b, R a b → Follows (k a) (l b) S) :
    Follows (x >>= k) (y >>= l) S := by
  intro m V hf
  refine ((hx m V hf).mono ?_ fun _ _ hq => hq).bind ?_
  · rintro ε m' ⟨ℓ', hy, hb⟩
    exact ⟨ℓ', bind_of_error hy, hb⟩
  · rintro a m₁ ⟨hhost, b, V₁, hf₁, hy, hR⟩
    refine (hk a b hR m₁ V₁ hf₁).mono ?_ ?_
    · rintro ε m' ⟨ℓ', hl, hb⟩
      exact ⟨ℓ', by rw [bind_of_ok hy, hl], { hb with host := hb.host.trans hhost }⟩
    · rintro c m₂ ⟨hhost₂, d, V₂, hf₂, hl, hS⟩
      exact ⟨hhost₂.trans hhost, d, V₂, hf₂, by rw [bind_of_ok hy, hl], hS⟩

theorem object {x : Act σ Value} {y : LaneM Value} (hx : Follows x y Eq) :
    Follows x (Item.object <$> y) fun v z => z = .object v := by
  rw [map_eq_pure_bind, ← bind_pure x]
  exact hx.bind fun a b hab => .pure (by rw [hab])

end Follows

/-- The frame holds what its lane owns. -/
theorem Frame.Shows.covers (hf : f.Shows V) (h : Heap) : (V.lane h).Covers f :=
  ⟨V.locals, V.operands, V.scope, hf.toHolds, le_of_eq (V.refs_lane h).symm⟩

/-- An action fails in the state in which it started. -/
theorem Follows.of_error {ε : Fault} (hf : f.Shows V)
    (hx : x (⟨h, f, s⟩ : Machine σ) = .error ε ⟨h, f, s⟩) (hy : y (V.lane h) = .error ε (V.lane h)) :
    FollowsAt ⟨h, f, s⟩ V x y R :=
  ends_of_error hx ⟨_, hy, rfl, rfl, hf.covers h, fun _ _ _ => ⟨V, hf, rfl⟩⟩

theorem follows_reading {x : Act σ α} {z : Lane → HeapM α}
    (hx : ∀ (m : Machine σ) V, m.frame.Shows V → x m = onHeap (z (V.lane m.heap)) m) :
    Follows x (Lane.reading z) Eq := by
  rintro ⟨h, f, s⟩ V hf
  have hlane : (V.lane h).heap = h := rfl
  unfold FollowsAt Ends
  rw [hx _ V hf]
  simp only [onHeap, Lane.reading, hlane]
  cases hz : z (V.lane h) h with
  | ok a h₁ => exact ⟨rfl, a, V, hf, rfl, rfl⟩
  | error ε h₁ => exact ⟨_, rfl, rfl, rfl, hf.covers h₁, fun _ _ _ => ⟨V, hf, rfl⟩⟩

/-- An action on the heap comes first, which leaves the frame alone. -/
theorem FollowsAt.onHeap_bind {z : HeapM α} {k : α → Act σ γ} {l : α → LaneM δ} (hf : f.Shows V)
    (hk : ∀ a h', z h = .ok a h' → FollowsAt ⟨h', f, s⟩ V (k a) (l a) S) :
    FollowsAt ⟨h, f, s⟩ V (onHeap z >>= k) (Lane.onHeap z >>= l) S := by
  have hlane : (V.lane h).heap = h := rfl
  cases hz : z h with
  | ok a h₁ =>
    have hact : onHeap z (⟨h, f, s⟩ : Machine σ) = .ok a ⟨h₁, f, s⟩ := by simp only [onHeap, hz]
    have hlift : Lane.onHeap z (V.lane h) = .ok a (V.lane h₁) := by
      simp only [Lane.onHeap, Lane.reading, hlane, hz]
      rfl
    have hrest := hk a h₁ hz
    unfold FollowsAt Ends at hrest ⊢
    simp only [bind_of_ok hact, bind_of_ok hlift]
    exact hrest
  | error ε h₁ =>
    have hact : onHeap z (⟨h, f, s⟩ : Machine σ) = .error ε ⟨h₁, f, s⟩ := by simp only [onHeap, hz]
    have hlift : Lane.onHeap z (V.lane h) = .error ε (V.lane h₁) := by
      simp only [Lane.onHeap, Lane.reading, hlane, hz]
      rfl
    exact ends_of_error (bind_of_error hact)
      ⟨_, bind_of_error hlift, rfl, rfl, hf.covers h₁, fun _ _ _ => ⟨V, hf, rfl⟩⟩

theorem follows_onHeap (z : HeapM α) : Follows (onHeap z : Act σ α) (Lane.onHeap z) Eq :=
  follows_reading fun _ _ _ => rfl

theorem follows_makeInt (n : Int32) :
    Follows (onHeap (newInt n) : Act σ Value) (Lane.makeInt .eager n) fun v y => y = .object v := by
  have hmake : Lane.makeInt .eager n = Item.object <$> Lane.onHeap (newInt n) := rfl
  rw [hmake]
  exact (follows_onHeap _).object

theorem follows_supply (r : Supply) : Follows (r.run : Act σ Value) (Lane.supply r) Eq :=
  follows_reading fun _ _ hf => r.run_eq hf

theorem follows_constant (c : Constant) (i : Int32) :
    Follows (c.run i : Act σ Value) (Lane.constant c i) Eq :=
  follows_reading fun _ _ hf => c.run_eq hf i

/-! ## Operands -/

theorem View.lane_operands (V : View) (O : List Value) (h : Heap) :
    ({ V with operands := O } : View).lane h =
      { V.lane h with operands := O.reverse.map .object } := rfl

theorem follows_pop : Follows (pop : Act σ Value) Lane.pop fun v y => y = .object v := by
  rintro ⟨h, f, s⟩ V hf
  obtain hO | ⟨O, v, hO⟩ := List.eq_nil_or_concat V.operands
  · exact Follows.of_error hf (pop_error hf hO)
      (Lane.pop_nil (by simp [View.lane, hO]))
  · rw [List.concat_eq_append] at hO
    obtain ⟨f', hpop, hf'⟩ := pop_ok (h := h) (s := s) hf hO
    have htop : (V.lane h).operands = .object v :: O.reverse.map .object := by simp [View.lane, hO]
    exact ends_of_ok hpop ⟨rfl, .object v, _, hf', Lane.pop_cons htop, rfl⟩

theorem follows_push (v : Value) :
    Follows (push v : Act σ Unit) (Lane.push .eager (.object v)) Eq := by
  rintro ⟨h, f, s⟩ V hf
  have hlen : (V.lane h).operands.length = V.operands.length := by simp [View.lane]
  by_cases hfull : V.capacity ≤ V.operands.length
  · refine Follows.of_error hf (push_error hf hfull) ?_
    rw [Lane.push, if_pos ⟨rfl, by rw [hlen]; exact hfull⟩]
  · obtain ⟨f', hpush, hf'⟩ := push_ok (h := h) (s := s) (v := v) hf (Nat.lt_of_not_le hfull)
    refine ends_of_ok hpush ⟨rfl, (), _, hf', ?_, rfl⟩
    rw [Lane.push, if_neg fun hp => hfull (by rw [← hlen]; exact hp.2), View.lane_operands]
    simp [View.lane]

/-- Another reference to the topmost operand, which is left in its place. -/
theorem follows_dup : Follows (do
      let x ← pop
      onHeap (retain x)
      push x
      push x : Act σ Unit) (do
      let x ← Lane.shareTop
      Lane.push .eager x) Eq := by
  rintro ⟨h, f, s⟩ V hf
  obtain hO | ⟨O, v, hO⟩ := List.eq_nil_or_concat V.operands
  · refine Follows.of_error hf (bind_of_error (pop_error hf hO)) ?_
    exact bind_of_error (Lane.shareTop_nil (by simp [View.lane, hO]))
  · rw [List.concat_eq_append] at hO
    have htop : (V.lane h).operands = .object v :: O.reverse.map .object := by simp [View.lane, hO]
    obtain ⟨f', hpop, hf'⟩ := pop_ok (h := h) (s := s) hf hO
    have hroom : O.length < V.capacity := by
      have hle := hf.length_le
      rw [hO, List.length_append] at hle
      exact hle
    have hshare : (Lane.shareTop >>= fun x => Lane.push .eager x) (V.lane h) =
        (do Lane.onHeap (Item.object v).retain; Lane.push .eager (.object v)) (V.lane h) := by
      simp only [bind, EStateM.bind, Lane.shareTop_cons htop]
      cases Lane.onHeap (Item.object v).retain (V.lane h) <;> rfl
    unfold FollowsAt Ends
    rw [bind_of_ok hpop, hshare]
    cases hr : retain v h with
    | error ε h₁ =>
      have hact : onHeap (retain v) (⟨h, f', s⟩ : Machine σ) = .error ε ⟨h₁, f', s⟩ := by
        simp only [onHeap, hr]
      rw [bind_of_error hact]
      have hlane : (V.lane h).heap = h := rfl
      refine ⟨{ V.lane h with heap := h₁ }, ?_, rfl, rfl, ?_, fun _ w hw => ?_⟩
      · simp only [bind, EStateM.bind, Lane.onHeap, Lane.reading, Item.retain, hlane, hr]
      · obtain ⟨L, O', S', hholds, hle⟩ := hf'.covers h₁
        refine ⟨L, O', S', hholds, le_trans hle ?_⟩
        simp [Lane.refs, View.lane, hO, Multiset.zero_le]
      · subst hw
        exact absurd hr (nothrow_retain v h w h₁)
    | ok u h₁ =>
      have hact : onHeap (retain v) (⟨h, f', s⟩ : Machine σ) = .ok u ⟨h₁, f', s⟩ := by
        simp only [onHeap, hr]
      have hlane : (V.lane h).heap = h := rfl
      obtain ⟨f₁, hpush, hf₁⟩ := push_ok (h := h₁) (s := s) (v := v) hf' hroom
      have hview : ({ ({ V with operands := O } : View) with operands := O ++ [v] } : View) = V := by
        rw [← hO]
      rw [hview] at hf₁
      have hrest : (do Lane.onHeap (Item.object v).retain; Lane.push .eager (.object v)) (V.lane h) =
          Lane.push .eager (.object v) (V.lane h₁) := by
        simp only [bind, EStateM.bind, Lane.onHeap, Lane.reading, Item.retain, hlane, hr]
        rfl
      rw [bind_of_ok hact, bind_of_ok hpush, hrest]
      exact follows_push v ⟨h₁, f₁, s⟩ V hf₁

/-- The topmost operand, which stays in its place. -/
def peek : Act σ Value := do readSlot Frame.stack ((← frame).stackIndex - 1)

theorem follows_peek : Follows (do
      let x ← peek
      onHeap (retain x)
      pure x : Act σ Value) Lane.shareTop fun v y => y = .object v := by
  rintro ⟨h, f, s⟩ V hf
  obtain hO | ⟨O, v, hO⟩ := List.eq_nil_or_concat V.operands
  · have hread : f.slot? f.stack (f.stackIndex - 1) = none := by
      rw [hf.index_eq, hO, Frame.slot?, if_pos (by decide)]
    exact Follows.of_error hf (bind_of_error (readSlot_error hread))
      (Lane.shareTop_nil (by simp [View.lane, hO]))
  · rw [List.concat_eq_append] at hO
    have htop : (V.lane h).operands = .object v :: O.reverse.map .object := by simp [View.lane, hO]
    have hread : f.slot? f.stack (f.stackIndex - 1) = some v := by
      have hlt := hf.length_lt
      rw [hO, List.length_append, List.length_singleton] at hlt
      rw [hf.index_eq, hO, List.length_append, List.length_singleton, ofNat_succ_sub_one,
        Frame.slot?_ofNat f _ (by omega), hf.stack]
      exact hf.getElem?_top hO
    have hpeek : peek (⟨h, f, s⟩ : Machine σ) = .ok v ⟨h, f, s⟩ := readSlot_ok hread
    have hshare : Follows (do onHeap (retain v); pure v : Act σ Value)
        (do Lane.onHeap (Item.object v).retain; pure (Item.object v)) fun v y => y = .object v :=
      (follows_onHeap (retain v)).bind fun _ _ _ => Follows.pure rfl
    unfold FollowsAt Ends
    rw [bind_of_ok hpeek, Lane.shareTop_cons htop]
    exact hshare _ V hf

/-! ## Locals -/

theorem Frame.Shows.slot?_none (hf : f.Shows V) {i : Nat} (hi : V.locals[i]? = none) (hlt : i < 2 ^ 63) :
    f.slot? f.locals (.ofNat i) = none := by
  rw [hf.locals, Frame.slot?_ofNat f _ hlt, Frame.slots, ← Array.getElem?_toList, hf.slots, hi]

theorem View.locals_lane (V : View) (h : Heap) (i : Nat) :
    (V.lane h).locals[i]? = (V.locals[i]?).map ({ value := · }) := List.getElem?_map

theorem follows_readLocal {i : Nat} (hlt : i < 2 ^ 63) :
    Follows (readLocal (.ofNat i) : Act σ Value) (Lane.valueOf i) Eq := by
  rintro ⟨h, f, s⟩ V hf
  cases hp : V.locals[i]? with
  | none =>
    refine Follows.of_error hf (readSlot_error (hf.slot?_none hp hlt)) ?_
    simp only [Lane.valueOf, View.locals_lane, hp, Option.map_none]
  | some p =>
    have hread : f.slot? f.locals (.ofNat i) = some p := by
      rw [hf.locals]
      exact hf.slot?_local hp hlt
    refine ends_of_ok (readSlot_ok hread) ⟨rfl, p, V, hf, ?_, rfl⟩
    simp only [Lane.valueOf, View.locals_lane, hp, Option.map_some]

theorem follows_share {i : Nat} (hlt : i < 2 ^ 63) : Follows (do
      let v ← readLocal (.ofNat i)
      onHeap (retain v)
      pure v : Act σ Value) (Lane.share i) Eq := by
  rw [Lane.share_eq]
  refine (follows_readLocal hlt).bind fun v _ heq => ?_
  subst heq
  exact (follows_onHeap (retain v)).bind fun _ _ _ => Follows.pure rfl

theorem follows_setLocal {i : Nat} (hlt : i < 2 ^ 63) (v : Value) :
    Follows (Interpreter.setLocal i v : Act σ Unit) (Lane.setLocal .now i v) Eq := by
  rintro ⟨h, f, s⟩ V hf
  cases hp : V.locals[i]? with
  | none =>
    refine Follows.of_error hf (bind_of_error (readSlot_error (hf.slot?_none hp hlt))) ?_
    simp only [Lane.setLocal, View.locals_lane, hp, Option.map_none]
  | some p =>
    obtain ⟨hact, hf'⟩ := replaceLocal_eq (a := Frame.locals) (h := h) (s := s) (v := v) hf hf.locals hp
      hlt
    have hlane : Lane.setLocal .now i v (V.lane h) = Lane.onHeap (releaseBound p)
        (({ V with locals := V.locals.set i v } : View).lane h) := by
      simp only [Lane.setLocal, View.locals_lane, hp, Option.map_some]
      simp [View.lane, List.map_set]
    have hset : Interpreter.setLocal i v (⟨h, f, s⟩ : Machine σ) =
        onHeap (releaseBound p) ⟨h, f.setLocal i v, s⟩ := hact
    unfold FollowsAt Ends
    rw [hset, hlane]
    exact follows_onHeap (releaseBound p) ⟨h, f.setLocal i v, s⟩ _ hf'

/-! ## Nothing is pending -/

/-- A popped or new object is put into a local. -/
theorem follows_boxLocal {x : Act σ Value} {y : LaneM Item} (hx : Follows x y fun v z => z = .object v)
    {i : Nat} (hlt : i < 2 ^ 63) :
    Follows (do Interpreter.setLocal i (← x)) (do Lane.setLocal .now i (← Lane.onHeap (← y).box)) Eq := by
  refine hx.bind fun v z hz => ?_
  subst hz
  exact follows_setLocal hlt v

theorem sync_lane (hle : V.operands.length ≤ V.capacity) (h : Heap) :
    Lane.sync (V.lane h) = .ok () (V.lane h) := by
  have hops : (V.lane h).operands.reverse = V.operands.map .object := by simp [View.lane]
  have hskip := Lane.storeOperands_objects (A := V.operands) (R := []) (T := []) (ℓ := V.lane h)
    (by simp [View.lane]) hle
  rw [List.append_nil, List.append_nil] at hskip
  rw [Lane.sync_eq, hops, hskip]
  rfl

theorem syncLocals_lane (V : View) (h : Heap) :
    Lane.syncLocals (V.lane h) = .ok () (V.lane h) := by
  have hstore (i : Nat) : Lane.storeLocal i (V.lane h) = .ok () (V.lane h) := by
    unfold Lane.storeLocal
    rw [View.locals_lane]
    cases V.locals[i]? <;> rfl
  have hfrom (n i : Nat) : Lane.syncLocalsFrom n i (V.lane h) = .ok () (V.lane h) := by
    induction n generalizing i with
    | zero => rfl
    | succ n ih => exact (bind_of_ok (hstore i)).trans (ih (i + 1))
  exact hfrom _ 0

end MethodJit
