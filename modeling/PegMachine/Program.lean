import PegMachine.Instr
import PegMachine.Pattern

/-!
# Programs

* `Program`: the code of a whole pattern with the constants it refers to.
* `Program.constant?`: the constant of a number.
-/

namespace PegMachine

/-- Data that instructions refer to by number. -/
inductive Constant where
  | value (value : Value)
  | name (name : String)
  | template (format : Bytes)
  | query (table : QueryTable)
  | fold (f : FoldFunction)
  | function (f : ValueFunction)
  | matchTime (f : MatchTimeFunction)
  | matcher (f : Matcher)

instance : Inhabited Constant := ⟨.value .nil⟩

/-- The code of a whole pattern and its constants. -/
structure Program where
  code : Array Instr
  constants : Array Constant

namespace Program

/-- The constant of a number, counted from one. -/
def constant? (program : Program) : (index : Nat) → Option Constant
  | 0 => none
  | index + 1 => program.constants[index]?

/-- The number of instructions. -/
def size (program : Program) : Nat := program.code.size

end Program

end PegMachine
