/-!
# Rule keys

* `RuleKey`: what identifies a rule of a grammar, its position or its name.
-/

namespace PegMachine

/-- The key of a rule: positional rules are known by their index, the others by name. -/
inductive RuleKey where
  | index (i : Nat)
  | name (s : String)
deriving DecidableEq, Inhabited

namespace RuleKey

/-- The key as text, a name without quotes. -/
def render : RuleKey → String
  | .index i => toString i
  | .name s => s

end RuleKey

end PegMachine
