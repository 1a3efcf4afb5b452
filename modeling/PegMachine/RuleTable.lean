import PegMachine.CallGraph
import PegMachine.Pattern

/-!
# Rule tables

The checks that a grammar has to pass before it is compiled, and what they find out.

* `nullable`: whether a pattern may succeed without consuming anything.
* `firstCalls`: the rules that a pattern may call before it consumes anything.
* `RuleTable.ofRules`: the keys of a grammar and its nullable rules, unless a key is defined twice
  or missing or a rule is left recursive.
* `checkLoop`: refuses a repetition whose body is nullable.
-/

namespace PegMachine

/-! ## Tables -/

/-- What is known about the rules of a grammar that passed its checks. -/
structure RuleTable where
  /-- The keys in the order of the rules. -/
  keys : List RuleKey
  /-- The keys of the nullable rules. -/
  nullable : List RuleKey
  /-- The key of the start rule. -/
  start : RuleKey

/-- The first key that occurred before. -/
def firstRepeated? (seen : List RuleKey) : List RuleKey → Option RuleKey
  | [] => none
  | key :: rest => if seen.contains key then some key else firstRepeated? (key :: seen) rest

/-- The first reference of a pattern to a rule that is not among the given ones. What stands inside
a grammar of its own is not looked at. -/
def undefinedRule? (keys : List RuleKey) : Pattern → Option RuleKey
  | .rule key => if keys.contains key then none else some key
  | .seq a b | .choice a b | .diff a b => (undefinedRule? keys a).or (undefinedRule? keys b)
  | .not a | .and a | .rep a _ | .capture _ a => undefinedRule? keys a
  | _ => none

/-- The table of a grammar, given the passes that collect its nullable rules and its calls. -/
def RuleTable.assemble (start : RuleKey) (rules : List (RuleKey × Pattern))
    (addNullable : List RuleKey → List RuleKey) (callGraph : List RuleKey → CallGraph) :
    Except Fault RuleTable :=
  let keys := rules.map Prod.fst
  if keys.isEmpty then .error .emptyGrammar
  else match firstRepeated? [] keys with
  | some key => .error (.duplicateRule key)
  | none =>
    if !keys.contains start then .error (.missingStart start)
    else match rules.findSome? fun rule => undefinedRule? keys rule.2 with
    | some key => .error (.undefinedRule key)
    | none =>
      let nullable := saturate addNullable (keys.length + 1) []
      match (callGraph nullable).leftRecursive? with
      | some key => .error (.leftRecursion key)
      | none => .ok ⟨keys, nullable, start⟩

/-! ## Nullable patterns and first calls -/

mutual

/-- Whether a pattern may succeed without consuming anything, given the nullable rules of the
grammar around it. What a user function does with the position is not known, so it counts as
nullable. A grammar that fails its checks does not. -/
def nullable (known : List RuleKey) : Pattern → Bool
  | .any n => n ≤ 0
  | .literal bytes => bytes.isEmpty
  | .set _ | .fail => false
  | .succeed => true
  | .seq a b => nullable known a && nullable known b
  | .choice a b => nullable known a || nullable known b
  | .not _ | .and _ => true
  | .rep a n => n ≤ 0 || nullable known a
  | .diff a _ => nullable known a
  | .capture (.matchTime _) _ => true
  | .capture _ a => nullable known a
  | .position | .const _ | .argument _ | .backref _ | .matcher _ => true
  | .rule key => known.contains key
  | .grammar start rules =>
    match RuleTable.assemble start rules (fun known => addNullable known rules)
      (fun known => callGraph known rules) with
    | .ok table => table.nullable.contains table.start
    | .error _ => false
termination_by structural p => p

/-- The rules that a pattern may call before it consumes anything, given the nullable rules. -/
def firstCalls (known : List RuleKey) : Pattern → List RuleKey
  | .rule key => [key]
  | .seq a b => firstCalls known a ++ if nullable known a then firstCalls known b else []
  | .choice a b | .diff a b => firstCalls known a ++ firstCalls known b
  | .not a | .and a | .rep a _ | .capture _ a => firstCalls known a
  | _ => []
termination_by structural p => p

/-- One pass over the rules: adds those that are nullable given the ones known so far. -/
def addNullable (known : List RuleKey) : List (RuleKey × Pattern) → List RuleKey
  | [] => known
  | (key, body) :: rest =>
    addNullable (if !known.contains key && nullable known body then key :: known else known) rest
termination_by structural rules => rules

/-- The first calls of each rule. -/
def callGraph (known : List RuleKey) : List (RuleKey × Pattern) → CallGraph
  | [] => []
  | (key, body) :: rest => (key, firstCalls known body) :: callGraph known rest
termination_by structural rules => rules

end

namespace RuleTable

/-- The table of a grammar that passes its checks. -/
def ofRules (start : RuleKey) (rules : List (RuleKey × Pattern)) : Except Fault RuleTable :=
  assemble start rules (fun known => addNullable known rules) (fun known => callGraph known rules)

/-- The place of a rule in the grammar. -/
def index? (table : RuleTable) (key : RuleKey) : Option Nat :=
  table.keys.idxOf? key

/-- The place of the start rule in the grammar. -/
def startIndex (table : RuleTable) : Nat :=
  table.keys.idxOf table.start

end RuleTable

/-! ## Repetitions -/

/-- Where a pattern stands: in which rule of which grammar. -/
structure Scope where
  table : RuleTable
  key : RuleKey

/-- The nullable rules around a pattern; none outside of a grammar. -/
def Scope.nullableRules : Option Scope → List RuleKey
  | some scope => scope.table.nullable
  | none => []

/-- Refuses a repetition whose body may succeed without consuming anything. -/
def checkLoop (scope : Option Scope) (body : Pattern) : Except Fault Unit :=
  if nullable (Scope.nullableRules scope) body then
    match scope with
    | some scope => .error (.infiniteLoop scope.key)
    | none => .error .emptyLoop
  else .ok ()

end PegMachine
