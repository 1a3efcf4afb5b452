import PegMachine.Program

/-!
# Listings of programs

* `Program.dump`: the instructions up to the end of a match, as names and numbers.
* `Program.listing`: one line for each instruction, with the addresses that jumps lead to.
* `Program.details`: one line for each instruction, with all that it is made of.
-/

namespace PegMachine

namespace Instr

/-- The name of an instruction. -/
def mnemonic : Instr → String
  | .any .. => "any"
  | .char .. => "char"
  | .set .. => "set"
  | .span _ => "span"
  | .ret => "ret"
  | .done => "end"
  | .choice .. => "choice"
  | .jump _ => "jmp"
  | .call _ => "call"
  | .openCall _ => "open_call"
  | .commit _ => "commit"
  | .partialCommit _ => "partial_commit"
  | .backCommit _ => "back_commit"
  | .failTwice => "failtwice"
  | .fail => "fail"
  | .giveUp => "giveup"
  | .matcher _ => "func"
  | .fullCapture .. => "fullcapture"
  | .emptyCapture .. => "emptycapture"
  | .emptyCaptureConst .. => "emptycaptureidx"
  | .openCapture .. => "opencapture"
  | .closeCapture => "closecapture"
  | .closeMatchTime => "closeruntime"

/-- The number that a dump shows for a capture: its kind in the low four bits, its length or
distance above them. -/
def captureNumber (kind : CaptureKind) (back : Nat) : Nat :=
  kind.number + 16 * back

/-- The two numbers that a dump shows for an instruction. -/
def operands : Instr → Nat × Int
  | .any n off => (n, off)
  | .char b off => (b.toNat, off)
  | .set _ off => (0, off)
  | .choice off back => (back, off)
  | .jump off | .call off | .commit off | .partialCommit off | .backCommit off => (0, off)
  | .openCall rule => (0, rule)
  | .matcher index => (0, index)
  | .fullCapture kind length index => (captureNumber kind length, index)
  | .emptyCapture kind index | .emptyCaptureConst kind index => (captureNumber kind 0, index)
  | .openCapture kind back index => (captureNumber kind back, index)
  | .span _ | .ret | .done | .failTwice | .fail | .giveUp | .closeCapture | .closeMatchTime =>
    (0, 0)

/-- The address that a jump leads to, as text. -/
def showTarget (address : Nat) (off : Int) : String :=
  " -> " ++ toString ((address : Int) + off)

/-- Where a check or test goes when it does not hold, as text. -/
def showRefusal (address : Nat) (off : Int) : String :=
  if off = 0 then " -> FAIL" else showTarget address off

/-- A capture and its constant, as text. -/
def showCapture (kind : CaptureKind) (index : Nat) : String :=
  s!" {kind.name}(idx = {index})"

/-- What a listing shows of an instruction behind its name. -/
def showOperands (address : Nat) : Instr → String
  | .any n off => s!" * {n}" ++ showRefusal address off
  | .char b off => " '" ++ String.ofList (Text.escapeByte b) ++ "'" ++ showRefusal address off
  | .set bytes off => " " ++ bytes.render ++ showRefusal address off
  | .span bytes => " " ++ bytes.render
  | .choice off back => showTarget address off ++ s!" ({back})"
  | .jump off | .call off | .commit off | .partialCommit off | .backCommit off =>
    showTarget address off
  | .openCall rule => s!" {rule}"
  | .matcher index => s!" (idx = {index})"
  | .fullCapture kind length index => showCapture kind index ++ s!" (off = {length})"
  | .emptyCapture kind index | .emptyCaptureConst kind index => showCapture kind index
  | .openCapture kind back index => showCapture kind index ++ s!" (off = {back})"
  | .ret | .done | .failTwice | .fail | .giveUp | .closeCapture | .closeMatchTime => ""

/-- Fields between braces, as text. -/
def record (name fields : String) : String :=
  name ++ " \x7b " ++ fields ++ " \x7d"

/-- The kind of a capture among the fields of a record. -/
def kindField (kind : CaptureKind) : String := "kind: " ++ kind.name

/-- An instruction with all that it is made of. -/
def detail : Instr → String
  | .any n off => record "Any" s!"n: {n}, fail: {off}"
  | .char b off => record "Char" s!"byte: {b.toNat}, fail: {off}"
  | .set bytes off => record "Set" ("set: " ++ bytes.render ++ s!", fail: {off}")
  | .span bytes => "Span(" ++ bytes.render ++ ")"
  | .ret => "Return"
  | .done => "End"
  | .choice off back => record "Choice" s!"to: {off}, back: {back}"
  | .jump off => s!"Jump({off})"
  | .call off => s!"Call({off})"
  | .openCall rule => s!"OpenCall({rule})"
  | .commit off => s!"Commit({off})"
  | .partialCommit off => s!"PartialCommit({off})"
  | .backCommit off => s!"BackCommit({off})"
  | .failTwice => "FailTwice"
  | .fail => "Fail"
  | .giveUp => "Giveup"
  | .matcher index => s!"Func({index})"
  | .fullCapture kind length index =>
    record "FullCapture" (kindField kind ++ s!", len: {length}, idx: {index}")
  | .emptyCapture kind index => record "EmptyCapture" (kindField kind ++ s!", idx: {index}")
  | .emptyCaptureConst kind index =>
    record "EmptyCaptureIdx" (kindField kind ++ s!", idx: {index}")
  | .openCapture kind back index =>
    record "OpenCapture" (kindField kind ++ s!", off: {back}, idx: {index}")
  | .closeCapture => "CloseCapture"
  | .closeMatchTime => "CloseRuntime"

end Instr

namespace Program

/-- The instructions up to the end of a match, each by its name and its two numbers. -/
def dump (program : Program) : List (String × Nat × Int) :=
  let code := program.code.toList
  let shown := match code.idxOf? .done with
    | some last => code.take (last + 1)
    | none => code
  shown.map fun instr => (instr.mnemonic, instr.operands)

/-- An address with at least two digits. -/
def showAddress (address : Nat) : String :=
  if address < 10 then s!"0{address}" else toString address

/-- One line for each instruction. -/
def listing (program : Program) : List String :=
  program.code.toList.zipIdx.map fun (instr, address) =>
    showAddress address ++ ": " ++ instr.mnemonic ++ instr.showOperands address

/-- One line for each instruction, with all that it is made of. -/
def details (program : Program) : List String :=
  program.code.toList.zipIdx.map fun (instr, address) => s!"{address}: " ++ instr.detail ++ " "

end Program

end PegMachine
