import PegMachine.ByteSet
import PegMachine.Fault
import PegMachine.Value

/-!
# Patterns

* `Pattern`: parsing expressions with captures.
* `Wrapping`: the captures that enclose a pattern.
* `Pattern.range?`, `Pattern.argument?`: the two constructions that can be refused.
* `Grammar`: rules collected one after another, built into a pattern by `Grammar.build`.
-/

namespace PegMachine

/-! ## User functions -/

/-- A matcher given as a function: from the subject and a position to the position to go on from. -/
abbrev Matcher := Bytes → Nat → Option Nat

/-- The function of a match-time capture: from the subject, the position and the nested values to
the position to go on from and the values that take their place. -/
abbrev MatchTimeFunction := Bytes → Nat → List Value → Option (Nat × List Value)

/-- The function of a fold capture: from the value so far and the next values to the new value. -/
abbrev FoldFunction := Value → List Value → Value

/-- The function of a function capture. -/
abbrev ValueFunction := List Value → List Value

/-- The table of a query capture. A later entry takes precedence over an earlier one of its key. -/
abbrev QueryTable := List (Bytes × Value)

/-- The value that a query table has for a key. -/
def QueryTable.find? (table : QueryTable) (key : Bytes) : Option Value :=
  (table.reverse.find? fun entry => entry.1 == key).map Prod.snd

/-- **The value found is that of the last entry of the key.** -/
theorem QueryTable.find?_eq_some_iff {table : QueryTable} {key : Bytes} {value : Value} :
    QueryTable.find? table key = some value ↔ ∃ before after : QueryTable,
      table = before ++ (key, value) :: after ∧ ∀ entry ∈ after, entry.1 ≠ key := by
  have hlast : QueryTable.find? table key = some value ↔
      table.reverse.find? (fun entry => entry.1 == key) = some (key, value) := by
    rw [QueryTable.find?, Option.map_eq_some_iff]
    constructor
    · rintro ⟨⟨key', value'⟩, hfound, rfl⟩
      have hkey : key' = key := by simpa using List.find?_some hfound
      rw [hfound, hkey]
    · exact fun hfound => ⟨_, hfound, rfl⟩
  rw [hlast, List.find?_eq_some_iff_append]
  constructor
  · rintro ⟨-, after, before, hsplit, hnone⟩
    refine ⟨before.reverse, after.reverse, ?_, fun entry hmem => ?_⟩
    · simpa using congrArg List.reverse hsplit
    · simpa using hnone entry (List.mem_reverse.1 hmem)
  · rintro ⟨before, after, rfl, hnone⟩
    refine ⟨by simp, after.reverse, before.reverse, by simp, fun entry hmem => ?_⟩
    simpa using hnone entry (List.mem_reverse.1 hmem)

theorem QueryTable.find?_eq_none_iff {table : QueryTable} {key : Bytes} :
    QueryTable.find? table key = none ↔ ∀ entry ∈ table, entry.1 ≠ key := by
  rw [QueryTable.find?, Option.map_eq_none_iff, List.find?_eq_none]
  simp

/-! ## Patterns -/

/-- A capture that encloses a pattern. -/
inductive Wrapping where
  /-- The matched text, then the nested values. -/
  | simple
  /-- One list of the nested values. -/
  | table
  /-- The matched text with the nested captures replaced. -/
  | subst
  /-- The nested values as a unit. -/
  | group
  /-- The nested values, to be fetched by a back reference. -/
  | named (name : String)
  /-- The nested captures combined from left to right. -/
  | fold (f : FoldFunction)
  /-- The nested values passed through a function. -/
  | function (f : ValueFunction)
  /-- The entry of a table for the first nested value. -/
  | query (table : QueryTable)
  /-- A text in which `%0` to `%9` stand for pieces of the match. -/
  | template (format : Bytes)
  /-- The nested values passed to a function while matching goes on. -/
  | matchTime (f : MatchTimeFunction)

/-- A parsing expression. -/
inductive Pattern where
  /-- Exactly `n` bytes or, when `n` is negative, fewer than `-n` bytes up to the end. -/
  | any (n : Int)
  | literal (bytes : Bytes)
  | set (bytes : ByteSet)
  | fail
  | succeed
  | seq (first second : Pattern)
  | choice (first second : Pattern)
  /-- The negative lookahead. -/
  | not (body : Pattern)
  /-- The positive lookahead. -/
  | and (body : Pattern)
  /-- At least `n` repetitions or, when `n` is negative, at most `-n`. -/
  | rep (body : Pattern) (n : Int)
  /-- The first pattern where the second one does not match. -/
  | diff (first second : Pattern)
  | capture (wrapping : Wrapping) (body : Pattern)
  /-- The current position as a value. -/
  | position
  /-- The given values. -/
  | const (values : List Value)
  /-- The `n`th argument of the match, counted from one. -/
  | argument (n : Nat)
  /-- The values of the latest group of a name. -/
  | backref (name : String)
  | matcher (f : Matcher)
  /-- A rule of the innermost grammar around. -/
  | rule (key : RuleKey)
  | grammar (start : RuleKey) (rules : List (RuleKey × Pattern))

namespace Pattern

instance : Inhabited Pattern := ⟨.fail⟩

/-- The largest number of an argument capture. -/
def maxArgument : Nat := 32767

/-- The union of the ranges given by pairs of bytes. -/
def pairsUnion : List UInt8 → ByteSet
  | lo :: hi :: rest => (ByteSet.range lo hi).union (pairsUnion rest)
  | _ => .empty

/-- One byte of one of the ranges given as pairs of first and last byte. -/
def range? (pairs : Bytes) : Except Fault Pattern :=
  if pairs.size % 2 = 0 then .ok (.set (pairsUnion pairs.toList)) else .error (.oddRange pairs.size)

/-- One byte out of the given ones. -/
def oneOf (bytes : Bytes) : Pattern :=
  .set (ByteSet.ofList bytes.toList)

/-- The `n`th argument of the match. -/
def argument? (n : Nat) : Except Fault Pattern :=
  if n = 0 ∨ maxArgument < n then .error (.argumentIndex n) else .ok (.argument n)

end Pattern

/-! ## Grammars -/

/-- Rules of a grammar, in the order in which they were added, and the rule to start from. -/
structure Grammar where
  rules : List (RuleKey × Pattern)
  start : RuleKey

namespace Grammar

/-- The grammar without rules. It starts from the first positional rule. -/
def empty : Grammar := ⟨[], .index 0⟩

/-- The number of positional rules. -/
def positionalCount (g : Grammar) : Nat :=
  g.rules.countP fun rule => match rule.1 with
    | .index _ => true
    | .name _ => false

/-- Adds a rule that is known by its position among the positional rules. -/
def addPositional (g : Grammar) (body : Pattern) : Grammar :=
  { g with rules := g.rules ++ [(.index g.positionalCount, body)] }

/-- Adds a rule that is known by name. -/
def addNamed (g : Grammar) (name : String) (body : Pattern) : Grammar :=
  { g with rules := g.rules ++ [(.name name, body)] }

/-- Changes the rule to start from. -/
def startAt (g : Grammar) (key : RuleKey) : Grammar :=
  { g with start := key }

/-- The number of rules. -/
def size (g : Grammar) : Nat := g.rules.length

/-- Whether the grammar has no rules. -/
def isEmpty (g : Grammar) : Bool := g.rules.isEmpty

/-- The grammar as a pattern. -/
def build (g : Grammar) : Pattern := .grammar g.start g.rules

/-- The grammar of positional rules. -/
def ofList (bodies : List Pattern) : Grammar :=
  bodies.foldl addPositional empty

end Grammar

end PegMachine
