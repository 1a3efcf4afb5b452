import PegMachine.Compile
import PegMachine.Machine.Step

/-!
# Runs and matches

* `Setting.run`: the steps up to an outcome.
* `Program.parseAt`: a match of a compiled pattern.
* `Pattern.parse`: a match of a pattern.
-/

namespace PegMachine

namespace Setting

/-- Adds an event to a log. -/
def note (log : Array Event) : Option Event → Array Event
  | some event => log.push event
  | none => log

/-- Makes `fuel` steps at most. Gives the outcome and the events on the way. -/
def run (m : Setting) : (fuel : Nat) → State → (log : Array Event) → Outcome × Array Event
  | 0, _, log => (.unfinished, log)
  | fuel + 1, s, log =>
    match m.step s with
    | .next s event => m.run fuel s (note log event)
    | .halt outcome event => (outcome, note log event)

end Setting

/-! ## Matches -/

/-- More steps than any run gets to make. -/
def stepBudget : Nat := 4611686018427387904

namespace Program

/-- A match of a program on the subject from `start`, or from the end of the subject if that comes
first, and the events on the way. The arguments are what argument captures stand for. -/
def traceAt (program : Program) (limits : Limits) (subject : Bytes) (start : Nat)
    (arguments : List Value) : Outcome × List Event :=
  let m : Setting := ⟨program, limits, subject, arguments⟩
  let pos := min start subject.size
  let (outcome, log) := m.run stepBudget (m.initial pos) #[.matchStarted pos subject.size]
  (outcome, log.toList)

/-- The outcome of a match. -/
def parseAt (program : Program) (limits : Limits) (subject : Bytes) (start : Nat)
    (arguments : List Value) : Outcome :=
  (program.traceAt limits subject start arguments).1

/-- The outcome of a match of the subject from its start. -/
def parse (program : Program) (subject : Bytes) : Outcome :=
  program.parseAt {} subject 0 []

/-- What is worth noting about the compilation of a program. -/
def compiled (program : Program) : Event :=
  .compiled program.size program.constants.size

end Program

/-- Compiles a pattern and matches the subject from its start. -/
def Pattern.parse (p : Pattern) (subject : Bytes) : Outcome :=
  match p.compile with
  | .ok program => program.parse subject
  | .error fault => .faulted fault

end PegMachine
