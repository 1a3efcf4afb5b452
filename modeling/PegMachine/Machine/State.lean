import PegMachine.Capture.Resolve
import PegMachine.Machine.Event
import PegMachine.Machine.Stack

/-!
# States of the matching machine

* `State`: instruction, position, pending frames and recorded captures.
* `Setting`: what a match is run on. None of it changes during the match.
* `Outcome`: how a run ends.
* `State.backtrack`: the recovery from a failure.
-/

namespace PegMachine

/-- Limits of a single match. -/
structure Limits where
  /-- The number of pending choices and calls that must not be exceeded. -/
  maxStack : Option Nat := some 262144

/-- A successful match: where it ended and what it captured. -/
structure Match where
  stop : Nat
  captures : List Value
deriving DecidableEq

/-- The outcome of a run. -/
inductive Outcome where
  | matched (result : Match)
  | unmatched
  | faulted (fault : Fault)
  /-- The run was cut off before it came to an end. -/
  | unfinished
deriving DecidableEq

/-- The state of the machine between two instructions. -/
structure State where
  address : Nat
  pos : Nat
  stack : Stack
  captures : Array Entry

/-- What a match is run on. -/
structure Setting where
  program : Program
  limits : Limits
  subject : Bytes
  arguments : List Value

/-- What an instruction leads to, and what is worth noting about it. -/
inductive Step where
  | next (state : State) (event : Option Event)
  | halt (outcome : Outcome) (event : Option Event)

/-- Ends the run with a fault. -/
def Step.crash (fault : Fault) : Step := .halt (.faulted fault) none

namespace State

/-- The address that a relative jump leads to. -/
def target (s : State) (offset : Int) : Nat :=
  (s.address + offset).toNat

/-- Goes on with the next instruction at another position. -/
def proceedAt (s : State) (pos : Nat) : State :=
  { s with address := s.address + 1, pos := pos }

/-- Jumps. -/
def jump (s : State) (offset : Int) : State :=
  { s with address := s.target offset }

/-- Records a capture and goes on with the next instruction. -/
def record (s : State) (entry : Entry) : State :=
  { s with address := s.address + 1, captures := s.captures.push entry }

/-- Goes back to the latest choice. Without one there is no match. -/
def backtrack (s : State) (event : Option Event) : Step :=
  match s.stack.unwind? with
  | some (point, stack) =>
    .next
      { address := point.address
        pos := point.pos
        stack := stack
        captures := s.captures.shrink point.captures }
      event
  | none => .halt .unmatched event

/-- What follows when a check or test does not hold. -/
def refuse (s : State) (offset : Int) : Step :=
  if offset = 0 then s.backtrack none else .next (s.jump offset) none

/-- Takes the choice on top off the stack. -/
def popChoice (s : State) (use : ChoicePoint → State → Step) : Step :=
  match s.stack.pop? with
  | some (.choice point, stack) => use point { s with stack := stack }
  | _ => .crash (.invalidStack s.address)

end State

end PegMachine
