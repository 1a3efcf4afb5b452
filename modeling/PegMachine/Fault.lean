import PegMachine.RuleKey
import PegMachine.Text.Escape

/-!
# Faults

* `Fault`: the ways in which building, compiling or running a pattern can go wrong. A pattern that
  does not match is no fault.
* `Fault.message`: the wording of each.
-/

namespace PegMachine

/-- What went wrong. -/
inductive Fault where
  /-- The pairs of a byte range have an odd number of bytes. -/
  | oddRange (length : Nat)
  /-- The number of an argument capture is zero or too large. -/
  | argumentIndex (n : Nat)
  /-- A rule is referred to outside of every grammar. -/
  | outsideGrammar (key : RuleKey)
  /-- A rule is referred to that its grammar does not define. -/
  | undefinedRule (key : RuleKey)
  /-- Two rules of a grammar have the same key. -/
  | duplicateRule (key : RuleKey)
  /-- A grammar has no rules. -/
  | emptyGrammar
  /-- The start rule of a grammar is not defined. -/
  | missingStart (key : RuleKey)
  /-- A rule can reach itself before anything is consumed. -/
  | leftRecursion (key : RuleKey)
  /-- A repetition outside of every grammar may go round without consuming anything. -/
  | emptyLoop
  /-- A repetition in a rule may go round without consuming anything. -/
  | infiniteLoop (key : RuleKey)
  /-- A program would need a jump that is too long. -/
  | patternTooBig
  /-- A call that was never linked to its rule was run. -/
  | unresolvedCall (address : Nat)
  /-- An instruction did not find what it needs on the stack or in the program. -/
  | invalidStack (address : Nat)
  /-- Too many choices and calls were pending. -/
  | stackOverflow
  /-- A back reference found no group of its name. -/
  | backReference (name : String)
  /-- An argument capture asked for an argument that was not given. -/
  | missingArgument (n : Nat)
  /-- A fold capture had no first value. -/
  | emptyFold
  /-- A template refers to a piece that there is none of. -/
  | captureIndex (n : Nat)
  /-- A template refers to a capture without values. -/
  | noCaptureValue (n : Nat)
  /-- A value was put into a text that has no text itself. -/
  | invalidReplacement
  /-- The recorded captures are not well bracketed. -/
  | malformedCaptures
deriving DecidableEq

namespace Fault

/-- The wording of a fault. -/
def message : Fault → String
  | .oddRange length => s!"Range string must have an even length, got {length}"
  | .argumentIndex n => s!"Invalid argument index {n}"
  | .outsideGrammar key => "Rule " ++ key.render ++ " referenced outside a grammar"
  | .undefinedRule key => "Rule " ++ key.render ++ " is not defined"
  | .duplicateRule key => "Rule " ++ key.render ++ " is defined more than once"
  | .emptyGrammar => "Grammar has no rules"
  | .missingStart key => "Start rule " ++ key.render ++ " is not defined"
  | .leftRecursion key => "Rule " ++ key.render ++ " is left recursive"
  | .emptyLoop => "Loop body may accept empty string"
  | .infiniteLoop key => "Rule " ++ key.render ++ " contains a loop that may accept empty string"
  | .patternTooBig => "Pattern is too big"
  | .unresolvedCall address => s!"Unresolved call to rule at {address}"
  | .invalidStack address => s!"Invalid stack entry at {address}"
  | .stackOverflow => "Too many pending calls or choices"
  | .backReference name => "Back reference " ++ Text.quoteName name ++ " not found"
  | .missingArgument n => s!"No argument {n} given"
  | .emptyFold => "No initial value for fold capture"
  | .captureIndex n => s!"Invalid capture index %{n}"
  | .noCaptureValue n => s!"No value for capture %{n}"
  | .invalidReplacement => "Capture value cannot be used as replacement text"
  | .malformedCaptures => "Malformed capture list"

end Fault

end PegMachine
