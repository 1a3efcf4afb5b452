import PegMachine.Pattern

/-!
# Written forms of patterns

* `Pattern.render`: a pattern as text. User functions and query tables are not shown.
* `Grammar.render`: a grammar as text, the same as that of the pattern it builds.
-/

namespace PegMachine

/-- The name of a capture in the written form of a pattern. -/
def Wrapping.render : Wrapping → String
  | .simple => "capture"
  | .table => "table"
  | .subst => "subst"
  | .group => "group"
  | .named name => "group " ++ Text.quoteName name
  | .fold _ => "fold"
  | .function _ => "map"
  | .query _ => "query"
  | .template format => "template " ++ Text.quoteBytes format
  | .matchTime _ => "match_time"

namespace Pattern

/-- The mark of a repetition: a star, a plus or a question mark where they say it all. -/
def renderCount (n : Int) : String :=
  if n = 0 then "*" else if n = 1 then "+" else if n = -1 then "?" else "^" ++ toString n

mutual

/-- The written form of a pattern. -/
def render : Pattern → String
  | .any n => if n = 1 then "." else "any(" ++ toString n ++ ")"
  | .literal bytes => Text.quoteBytes bytes
  | .set bytes => bytes.render
  | .fail => "fail"
  | .succeed => "''"
  | .seq a b => "(" ++ render a ++ " " ++ render b ++ ")"
  | .choice a b => "(" ++ render a ++ " / " ++ render b ++ ")"
  | .not a => "!(" ++ render a ++ ")"
  | .and a => "&(" ++ render a ++ ")"
  | .rep a n => "(" ++ render a ++ ")" ++ renderCount n
  | .diff a b => "(" ++ render a ++ " - " ++ render b ++ ")"
  | .capture wrapping a => wrapping.render ++ "(" ++ render a ++ ")"
  | .position => "position()"
  | .const values => "constant(" ++ (Value.list values).render ++ ")"
  | .argument n => "arg(" ++ toString n ++ ")"
  | .backref name => "backref(" ++ Text.quoteName name ++ ")"
  | .matcher _ => "func"
  | .rule key => "<" ++ key.render ++ ">"
  | .grammar start rules => "grammar(start: " ++ start.render ++ renderRules rules ++ ")"

/-- The written form of the rules of a grammar, each after a semicolon. -/
def renderRules : List (RuleKey × Pattern) → String
  | [] => ""
  | (key, body) :: rest => "; " ++ key.render ++ " <- " ++ render body ++ renderRules rest

end

/-- The written form of a pattern, marked as one. -/
def renderTagged (p : Pattern) : String := "Pattern(" ++ p.render ++ ")"

end Pattern

/-- The written form of a grammar. -/
def Grammar.render (g : Grammar) : String := g.build.render

end PegMachine
