import MethodJit.Heap.Property

/-!
# Native functions

What functions do that are no methods. They borrow the receiver and the arguments and give a new
reference. Some are at hand as `Native`; the program around can bring others, which are `Foreign`.
-/

namespace MethodJit

/-- Stores new references to the arguments in the receiver, under their positions from `i` on. -/
def fillFrom (receiver : Value) : Nat → List Value → HeapM Unit
  | _, [] => pure ()
  | i, x :: xs => do
    retain x
    setProperty receiver (toString i) x
    fillFrom receiver (i + 1) xs

/-- Runs a native function of the given name. -/
def Native.run (n : Native) (name : String) (receiver : Value) (args : List Value) : HeapM Value :=
  match n with
  | .nothing => pure .undefined
  | .receiver => shared receiver
  | .first =>
    match args with
    | [] => pure .undefined
    | x :: _ => shared x
  | .count => newInt (.ofNat args.length)
  | .collect => do
    args.forM retain
    newArray args.toArray
  | .fill => do
    fillFrom receiver 0 args
    newInt 7
  | .fail => do throw (.thrown (← newString ("thrown by " ++ name)))

/-- What a function of the program around does from some point on: it ends with a value, throws one or
stops at an index out of range, or it looks at the heap, puts another one in its place, or calls a
function, and goes on. -/
inductive Foreign
  | give (v : Value)
  | throw (v : Value)
  | stop
  | look (next : Heap → Foreign)
  | put (heap : Heap) (next : Foreign)
  /-- The receiver and the arguments are lent to the function. What it gave or threw is handed on. -/
  | call (fn receiver : Value) (args : List Value) (next : Except Value Value → Foreign)

end MethodJit
