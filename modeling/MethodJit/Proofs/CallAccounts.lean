import MethodJit.Proofs.Engines
import MethodJit.Proofs.SelfComparison

/-!
# The accounts of calls

A run that is compared with itself shows what becomes of the references. A call of an engine leaves the heap
accounted, with a reference to what it gives besides those that were owned before, as long as no construction
has failed meanwhile. A construction that fails leaves its new object behind, to which nobody owns the
reference that keeps it alive.
-/

namespace MethodJit

open Compiler IR Interpreter Run

variable {σ : Type} {K : Origin} {P : Multiset Link} {h h' : Heap} {owned : Multiset Value} {w w' : World}

/-! ## Worlds -/

/-- The methods of the world are proper, what is kept of compilations is right, the global objects of engines are
owned, and the functions of the program around are obliging. -/
structure World.Proper (owned : Multiset Value) (w : World) : Prop where
  methods : MethodsProper w.methods
  compiled : ∀ (i : Nat) m c, w.methods[i]? = some m → (w.compiled[i]?).bind Once.held = some c → c.Of m
  globals : ∀ e ∈ w.engines, e.global ∈ owned
  foreign : ∀ f ∈ w.foreign, Foreign.Obliging f

/-- The links of the global objects. -/
def World.links (w : World) : List Link := w.engines.toList.map fun e => Link.pair e.global e.global

theorem World.Proper.hosts (hw : w.Proper owned) : w.Hosts w.methods w.links :=
  ⟨rfl, hw.compiled, fun e he => List.mem_map.2 ⟨e, Array.mem_toList_iff.2 he, rfl⟩, hw.foreign⟩

theorem World.Proper.mem_links (hw : w.Proper owned) {l : Link} (hl : l ∈ w.links) : l ∈ ownLinks owned := by
  obtain ⟨e, he, rfl⟩ := List.mem_map.1 hl
  exact mem_ownLinks (hw.globals e (Array.mem_toList_iff.1 he))

/-- The links that a call borrows. -/
theorem World.Proper.mem_callLinks (hw : w.Proper owned) {receiver : Value} {args : List Value}
    (hreceiver : receiver ∈ owned) (hargs : ∀ v ∈ args, v ∈ owned) :
    ∀ l ∈ Link.pair receiver receiver :: ((twice args).map fun p => Link.pair p.1 p.2) ++ w.links,
      l ∈ ownLinks owned := by
  intro l hl
  rcases List.mem_append.1 hl with hl | hl
  · rcases List.mem_cons.1 hl with rfl | hl
    · exact mem_ownLinks hreceiver
    · obtain ⟨p, hp, rfl⟩ := List.mem_map.1 hl
      exact mem_twice hargs hp
  · exact hw.mem_links hl

theorem enumeratesApart_of_all {m : Method} (hm : m.bytes.toList.all (actionOfByte · != .hasNext2)) :
    m.EnumeratesApart := by
  intro _ byte _ _ _ _ _ hbyte haction
  have hne := List.all_eq_true.1 hm byte (Array.mem_def.1 (Array.mem_of_getElem? hbyte))
  exact absurd haction (by simpa using hne)

end MethodJit
