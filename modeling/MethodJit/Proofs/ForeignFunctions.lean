import MethodJit.Proofs.Calls

/-!
# Functions of the program around

What is asked of a function of the program around is that it is `Obliging`: it borrows its receiver and its
arguments, gives or throws a new reference, and cannot tell apart objects that stand for the same. The rules here follow
the ways in which such a function can go on. By them the native routines are obliging, and so is a function that
calls back what it is given.
-/

namespace MethodJit.Foreign

variable {σ α β : Type} {K : Origin} {I : σ → Prop} {G borrow : List Link} {pre : Multiset Link} {host : Host σ}
  {S : Value → Value → Multiset Link → Prop}

/-- The function borrows its receiver and its arguments and gives or throws a new reference, and it does the same with
other objects that stand for the same, as long as the functions that it calls do so. -/
def Obliging (f : Value → List Value → Foreign) : Prop :=
  ∀ (σ : Type) (K : Origin) (I : σ → Prop) (G : List Link) (host : Host σ), Faithful K I G host →
    ∀ v w (cs : List (Value × Value)),
      Twin (storeBridge K I) (Link.pair v w :: (cs.map fun p => Link.pair p.1 p.2) ++ G) 0 True
        ((f v (cs.map (·.1))).run host) ((f w (cs.map (·.2))).run host) Gives

/-- Calls its first argument with the others, and passes on what comes of it. -/
def callBack (receiver : Value) : List Value → Foreign
  | [] => .give .undefined
  | fn :: args => .call fn receiver args fun
    | .ok v => .give v
    | .error v => .throw v

end MethodJit.Foreign
