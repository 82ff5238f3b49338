import MethodJit.Fault

/-!
# Recovering from failures

A failure can be reported by another one, and so on; `Failure` is such a chain. `Failure.recover` tells
the failures that are defects of a method, which are returned to the caller, from all others, which are
raised again.
-/

namespace MethodJit

inductive Failure
  | fault (f : Fault)
  /-- An error that is no defect of a method. -/
  | plain (message : String)
  /-- A text that was raised, which is no error. -/
  | notice (text : String)
  /-- An error with a text in front of that of its cause. -/
  | context (text : String) (cause : Failure)
  /-- A defect of a method with a text of its own, whatever its cause. -/
  | defect (text : String) (cause : Failure)
deriving Repr

/-- The text of a fault that needs no heap. -/
def Fault.text : Fault → String
  | .code e => e.message
  | .trap t => t.message
  | .internal offset message => internalMessage offset message
  | .underflow k => underflowMessage k
  | _ => ""

namespace Failure

def text : Failure → String
  | .fault f => f.text
  | .plain message => message
  | .notice text => text
  | .context text cause => text ++ ": " ++ cause.text
  | .defect text _ => text

/-- Whether the chain goes back to code that ended too early. -/
def isEnd : Failure → Bool
  | .fault (.code .ended) | .fault (.code .truncated) => true
  | .context _ cause | .defect _ cause => cause.isEnd
  | _ => false

/-- The first defect of a method in the chain. -/
def codeFault? : Failure → Option CodeFault
  | .fault (.code e) => some e
  | .context _ cause => cause.codeFault?
  | .defect text _ => some (.text text)
  | _ => none

/-- The defect of a method that a failure reports, with the text of the failure. Code that ended too early
is reported in one way. -/
def recover (f : Failure) : Option (CodeFault × String) :=
  if f.isEnd then some (.truncated, CodeFault.truncated.message)
  else f.codeFault?.map fun e => (e, f.text)

end Failure

end MethodJit
