import MethodJit.IR.Basic
import MethodJit.Text.Quoted

/-!
# The text of functions

A block starts with a line for its label; the lines of its instructions and of its terminator are
indented. A call without a helper has no text.
-/

namespace MethodJit.IR

/-- How labels and the names of helpers are written. -/
structure Style where
  label : String → String := id
  helper : String → String := id

/-- The plain style. -/
def Style.plain : Style := {}

/-- Labels and names in brackets. -/
def Style.bracketed : Style where
  label s := "<" ++ s ++ ">"
  helper s := "[" ++ s ++ "]"

/-- A list of operands after a name. -/
def operandsText : List ValueId → String
  | [] => ""
  | vs => " " ++ ", ".intercalate (vs.map valueName)

/-- The text of an instruction without its result. -/
def Instr.bodyText? (style : Style) (i : Instr) : Option String :=
  match i.op with
  | .constInt =>
    let n := i.constant.toInt
    some (i.op.name ++ s!" {n}")
  | .loadField | .storeField => some (i.op.name ++ " " ++ i.field.name ++ operandsText i.args)
  | .call => i.helper.map fun h => i.op.name ++ " " ++ style.helper h.name ++ operandsText i.args
  | _ => some (i.op.name ++ operandsText i.args)

def Instr.text? (style : Style) (i : Instr) : Option String :=
  (i.bodyText? style).map fun s => if i.result = 0 then s else valueName i.result ++ " = " ++ s

def Term.text : Term → String
  | .br target => s!"br b{target}"
  | .condBr v taken notTaken => s!"condbr v{v}, b{taken}, b{notTaken}"
  | .ret v => s!"ret v{v}"
  | .trap t =>
    "trap " ++ Text.quote t.reason.name ++ " opcode 0x" ++ Text.hexByte t.opcode ++
      s!" offset {t.offset}"
  | t => t.name

def Block.text? (style : Style) (i : Nat) (b : Block) : Option String := do
  let lines ← b.instrs.toList.mapM (Instr.text? style)
  let label := style.label (s!"b{i} " ++ b.name ++ ":") ++ "\n"
  pure (String.join (label :: (lines ++ [b.term.text]).map fun s => "\t" ++ s ++ "\n"))

def blocksText? (style : Style) : Nat → List Block → Option (List String)
  | _, [] => some []
  | i, b :: bs => do
    let s ← b.text? style i
    pure (s :: (← blocksText? style (i + 1) bs))

/-- The text of a function; there is none if a call lacks a helper. -/
def Function.text? (style : Style) (f : Function) : Option String := do
  let blocks ← blocksText? style 0 f.blocks.toList
  pure ("func " ++ f.name ++ "(v1 locals, v2 stack, v3 ctx) \x7b\n" ++ String.join blocks ++ "\x7d\n")

end MethodJit.IR
