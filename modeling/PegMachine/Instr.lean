import PegMachine.ByteSet

/-!
# Instructions

* `Instr`: the instructions of the matching machine. Jumps are relative to their own address.
* `Instr.isCheck`, `Instr.step`: the instructions that test and consume bytes.
* `Instr.offset?`, `Instr.withOffset`: reading and changing the jump of an instruction.
-/

namespace PegMachine

/-- The kinds of capture entries. -/
inductive CaptureKind where
  | position | const | backref | argument | simple | table | function | query | template | subst
  | fold | matchTime | group
deriving DecidableEq

namespace CaptureKind

/-- The number of a kind in dumps. Zero is left for closing instructions. -/
def number : CaptureKind → Nat
  | .position => 1
  | .const => 2
  | .backref => 3
  | .argument => 4
  | .simple => 5
  | .table => 6
  | .function => 7
  | .query => 8
  | .template => 9
  | .subst => 10
  | .fold => 11
  | .matchTime => 12
  | .group => 13

/-- The name of a kind in listings. -/
def name : CaptureKind → String
  | .position => "Position"
  | .const => "Const"
  | .backref => "Backref"
  | .argument => "Arg"
  | .simple => "Simple"
  | .table => "Table"
  | .function => "Function"
  | .query => "Query"
  | .template => "String"
  | .subst => "Subst"
  | .fold => "Fold"
  | .matchTime => "Runtime"
  | .group => "Group"

end CaptureKind

/-- An instruction of the matching machine.

The first three test the bytes at the current position and consume them. With a zero offset they
fail when the test does, and are called *checks*; with another one they jump by it without consuming
anything. -/
inductive Instr where
  | any (n : Nat) (onFail : Int)
  | char (byte : UInt8) (onFail : Int)
  | set (bytes : ByteSet) (onFail : Int)
  /-- Consumes the longest run of members. -/
  | span (bytes : ByteSet)
  /-- Returns from a call. -/
  | ret
  /-- Ends with a match. -/
  | done
  /-- Pushes a choice to jump, and to go on from `back` bytes before the current position. -/
  | choice (offset : Int) (back : Nat)
  | jump (offset : Int)
  | call (offset : Int)
  /-- A call of the rule at a place of the grammar, until the grammar is linked. -/
  | openCall (rule : Nat)
  /-- Drops the choice on top and jumps. -/
  | commit (offset : Int)
  /-- Moves the choice on top to the current position and jumps. -/
  | partialCommit (offset : Int)
  /-- Drops the choice on top, goes back to its position and jumps. -/
  | backCommit (offset : Int)
  /-- Drops the choice on top and fails. -/
  | failTwice
  | fail
  /-- Ends without a match. -/
  | giveUp
  /-- Runs the matcher that is constant `index`. -/
  | matcher (index : Nat)
  /-- Records a capture of the last `length` bytes. -/
  | fullCapture (kind : CaptureKind) (length : Nat) (index : Nat)
  /-- Records an empty capture; `index` is the number of an argument or nothing. -/
  | emptyCapture (kind : CaptureKind) (index : Nat)
  /-- Records an empty capture; `index` is a constant. -/
  | emptyCaptureConst (kind : CaptureKind) (index : Nat)
  /-- Records the start of a capture `back` bytes before the current position. -/
  | openCapture (kind : CaptureKind) (back : Nat) (index : Nat)
  /-- Records the end of a capture. -/
  | closeCapture
  /-- Ends a match-time capture and runs its function. -/
  | closeMatchTime
deriving DecidableEq

namespace Instr

instance : Inhabited Instr := ⟨.fail⟩

/-! ## Checks -/

/-- Whether the instruction is a check: it tests bytes and fails when the test does. -/
def isCheck : Instr → Bool
  | .any _ offset | .char _ offset | .set _ offset => offset == 0
  | _ => false

/-- The number of bytes that a check consumes. -/
def step : Instr → Nat
  | .any n _ => n
  | .char _ _ | .set _ _ => 1
  | _ => 0

/-- Whether the instruction is a check of the number of bytes only. -/
def isSkip : Instr → Bool
  | .any _ offset => offset == 0
  | _ => false

/-- Turns a check into a test that jumps when it fails. -/
def withTest (offset : Int) : Instr → Instr
  | .any n _ => .any n offset
  | .char b _ => .char b offset
  | .set s _ => .set s offset
  | instr => instr

/-- The bytes that the subject has to go on with for the test to hold. -/
def firstSet? : Instr → Option ByteSet
  | .any _ _ => some .full
  | .char b _ => some (.ofList [b])
  | .set s _ => some s
  | _ => none

/-- Whether the instruction never fails nor jumps. -/
def cannotFail : Instr → Bool
  | .span _ | .fullCapture .. | .emptyCapture .. | .emptyCaptureConst .. | .openCapture ..
  | .closeCapture => true
  | _ => false

/-! ## Jumps -/

/-- The relative jump of the instruction, if it has one. -/
def offset? : Instr → Option Int
  | .any _ off | .char _ off | .set _ off => if off = 0 then none else some off
  | .choice off _ | .jump off | .call off | .commit off | .partialCommit off | .backCommit off =>
    some off
  | _ => none

/-- The instruction with another jump, if it has one. -/
def withOffset (offset : Int) : Instr → Instr
  | .any n off => .any n (if off = 0 then 0 else offset)
  | .char b off => .char b (if off = 0 then 0 else offset)
  | .set s off => .set s (if off = 0 then 0 else offset)
  | .choice _ back => .choice offset back
  | .jump _ => .jump offset
  | .call _ => .call offset
  | .commit _ => .commit offset
  | .partialCommit _ => .partialCommit offset
  | .backCommit _ => .backCommit offset
  | instr => instr

end Instr

end PegMachine
