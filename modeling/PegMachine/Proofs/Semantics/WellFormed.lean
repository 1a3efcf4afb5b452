import Mathlib.Logic.Relation
import PegMachine.Proofs.Semantics.Derives

/-!
# Well-formed patterns

What a pattern has to satisfy to be compiled, apart from how it is checked.

* `CanBeEmpty`: the patterns that may succeed without consuming anything.
* `FirstCall`: the rules that a pattern may call before it consumes anything.
* `ValidGrammar`: the grammars with distinct keys, a start rule and no left recursion.
* `Pattern.WellFormed`: the patterns in which every reference has a rule, every grammar is valid and
  no repetition can go round for ever.
-/

namespace PegMachine

/-! ## Patterns that can be empty -/

/-- The patterns that may succeed without consuming anything, given the rules around them. User
functions may go on from where they started, so a matcher and a match-time capture are among them.

A grammar is among them by its start rule alone. A well-formed pattern has no other grammars than
valid ones, so nothing is said here of those that are not. -/
inductive CanBeEmpty : Rules → Pattern → Prop where
  | any {rules : Rules} {n : Int} (hn : n ≤ 0) : CanBeEmpty rules (.any n)
  | literal {rules : Rules} {bytes : Bytes} (h : bytes.isEmpty = true) :
      CanBeEmpty rules (.literal bytes)
  | succeed {rules : Rules} : CanBeEmpty rules .succeed
  | seq {rules : Rules} {a b : Pattern} (ha : CanBeEmpty rules a) (hb : CanBeEmpty rules b) :
      CanBeEmpty rules (.seq a b)
  | choiceFirst {rules : Rules} {a b : Pattern} (ha : CanBeEmpty rules a) :
      CanBeEmpty rules (.choice a b)
  | choiceSecond {rules : Rules} {a b : Pattern} (hb : CanBeEmpty rules b) :
      CanBeEmpty rules (.choice a b)
  | not {rules : Rules} {a : Pattern} : CanBeEmpty rules (.not a)
  | and {rules : Rules} {a : Pattern} : CanBeEmpty rules (.and a)
  | repNone {rules : Rules} {a : Pattern} {n : Int} (hn : n ≤ 0) : CanBeEmpty rules (.rep a n)
  | rep {rules : Rules} {a : Pattern} {n : Int} (ha : CanBeEmpty rules a) :
      CanBeEmpty rules (.rep a n)
  | diff {rules : Rules} {a b : Pattern} (ha : CanBeEmpty rules a) : CanBeEmpty rules (.diff a b)
  | matchTime {rules : Rules} {f : MatchTimeFunction} {a : Pattern} :
      CanBeEmpty rules (.capture (.matchTime f) a)
  | capture {rules : Rules} {wrapping : Wrapping} {a : Pattern} (ha : CanBeEmpty rules a) :
      CanBeEmpty rules (.capture wrapping a)
  | position {rules : Rules} : CanBeEmpty rules .position
  | const {rules : Rules} {values : List Value} : CanBeEmpty rules (.const values)
  | argument {rules : Rules} {n : Nat} : CanBeEmpty rules (.argument n)
  | backref {rules : Rules} {name : String} : CanBeEmpty rules (.backref name)
  | matcher {rules : Rules} {f : Matcher} : CanBeEmpty rules (.matcher f)
  | rule {rules : Rules} {key : RuleKey} {body : Pattern} (hkey : rules.lookup key = some body)
      (hbody : CanBeEmpty rules body) : CanBeEmpty rules (.rule key)
  | grammar {rules inner : Rules} {start : RuleKey} {body : Pattern}
      (hkey : inner.lookup start = some body) (hbody : CanBeEmpty inner body) :
      CanBeEmpty rules (.grammar start inner)

/-! ## First calls -/

/-- The rules of the grammar around a pattern that it may call before it consumes anything. A
grammar inside calls its own rules only. -/
inductive FirstCall (rules : Rules) : Pattern → RuleKey → Prop where
  | rule {key : RuleKey} : FirstCall rules (.rule key) key
  | seqFirst {a b : Pattern} {key : RuleKey} (ha : FirstCall rules a key) :
      FirstCall rules (.seq a b) key
  | seqSecond {a b : Pattern} {key : RuleKey} (ha : CanBeEmpty rules a)
      (hb : FirstCall rules b key) : FirstCall rules (.seq a b) key
  | choiceFirst {a b : Pattern} {key : RuleKey} (ha : FirstCall rules a key) :
      FirstCall rules (.choice a b) key
  | choiceSecond {a b : Pattern} {key : RuleKey} (hb : FirstCall rules b key) :
      FirstCall rules (.choice a b) key
  | diffFirst {a b : Pattern} {key : RuleKey} (ha : FirstCall rules a key) :
      FirstCall rules (.diff a b) key
  | diffSecond {a b : Pattern} {key : RuleKey} (hb : FirstCall rules b key) :
      FirstCall rules (.diff a b) key
  | not {a : Pattern} {key : RuleKey} (ha : FirstCall rules a key) : FirstCall rules (.not a) key
  | and {a : Pattern} {key : RuleKey} (ha : FirstCall rules a key) : FirstCall rules (.and a) key
  | rep {a : Pattern} {n : Int} {key : RuleKey} (ha : FirstCall rules a key) :
      FirstCall rules (.rep a n) key
  | capture {wrapping : Wrapping} {a : Pattern} {key : RuleKey} (ha : FirstCall rules a key) :
      FirstCall rules (.capture wrapping a) key

/-- One rule may call another one before it consumes anything. -/
def Rules.Calls (rules : Rules) (caller callee : RuleKey) : Prop :=
  ∃ body, rules.lookup caller = some body ∧ FirstCall rules body callee

/-! ## Well-formed patterns -/

/-- The grammars with rules of different keys, the start rule among them, none of which can reach
itself before anything is consumed. -/
structure ValidGrammar (start : RuleKey) (rules : Rules) : Prop where
  nonempty : rules ≠ []
  nodup : (rules.map Prod.fst).Nodup
  start_mem : start ∈ rules.map Prod.fst
  acyclic : ∀ key, ¬ Relation.TransGen rules.Calls key key

mutual

/-- The patterns that may stand among the given rules, or outside of every grammar. -/
def Pattern.WellFormedIn (around : Option Rules) : Pattern → Prop
  | .seq a b | .choice a b | .diff a b => WellFormedIn around a ∧ WellFormedIn around b
  | .not a | .and a | .capture _ a => WellFormedIn around a
  | .rep a n => (0 ≤ n → ¬ CanBeEmpty (around.getD []) a) ∧ WellFormedIn around a
  | .rule key => ∃ rules, around = some rules ∧ key ∈ rules.map Prod.fst
  | .grammar start rules => ValidGrammar start rules ∧ RulesWellFormedIn (some rules) rules
  | _ => True
termination_by structural p => p

/-- The rules whose bodies may stand among the given rules. -/
def Pattern.RulesWellFormedIn (around : Option Rules) : List (RuleKey × Pattern) → Prop
  | [] => True
  | (_, body) :: rest => WellFormedIn around body ∧ RulesWellFormedIn around rest
termination_by structural rules => rules

end

/-- The patterns in which every reference has a rule, every grammar is valid and no repetition can
go round for ever. -/
def Pattern.WellFormed (p : Pattern) : Prop :=
  p.WellFormedIn none

theorem Pattern.rulesWellFormedIn_iff {around : Option Rules} {rules : Rules} :
    RulesWellFormedIn around rules ↔ ∀ rule ∈ rules, rule.2.WellFormedIn around := by
  induction rules with
  | nil => simp [RulesWellFormedIn]
  | cons rule rest ih => simp [RulesWellFormedIn, ih]

end PegMachine
