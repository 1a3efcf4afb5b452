/-!
# Events

* `Event`: what is worth noting about a compilation or a match.
* `Event.line`: its written form, with how much it matters in front.
-/

namespace PegMachine

/-- Something worth noting. -/
inductive Event where
  /-- A pattern was compiled. -/
  | compiled (instructions constants : Nat)
  | matchStarted (pos length : Nat)
  /-- The end of a match was reached; its captures are still to be resolved. -/
  | matchEnded (pos : Nat)
  | matchFailed
  | stackFull (limit : Nat)
  /-- A matcher gave a position outside of the rest of the subject. -/
  | matcherStrayed (next pos length : Nat)
  /-- A match-time capture gave a position outside of the subject from its start on. -/
  | captureStrayed (next start length : Nat)
deriving DecidableEq

namespace Event

/-- The written form of an event. -/
def line : Event → String
  | .compiled instructions constants =>
    s!"DEBUG Compiled pattern into {instructions} operations and {constants} constants"
  | .matchStarted pos length => s!"TRACE Match start at {pos}, subject length {length}"
  | .matchEnded pos => s!"TRACE Match end at {pos}"
  | .matchFailed => "TRACE Match failed"
  | .stackFull limit => s!"DEBUG Match aborted, stack limit of {limit} entries reached"
  | .matcherStrayed next pos length =>
    s!"DEBUG Function returned position {next} outside {pos}..={length}"
  | .captureStrayed next start length =>
    s!"DEBUG Match time capture returned position {next} outside {start}..={length}"

end Event

end PegMachine
