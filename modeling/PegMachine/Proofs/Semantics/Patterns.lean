import PegMachine.Compile

/-!
# Induction on patterns

* `Pattern.induction`: a property that passes from the parts of a pattern to the pattern holds of
  all patterns. The parts of a grammar are the bodies of its rules.
* `Pattern.parts`, `Pattern.rules`, `Pattern.induction_parts`: the same with one case for all patterns.
* `Pattern.matchTimeFree`: the patterns without match-time captures.
-/

namespace PegMachine

/-- A property that passes from the parts of a pattern to the pattern holds of all patterns. -/
@[elab_as_elim]
theorem Pattern.induction {motive : Pattern → Prop}
    (any : ∀ n, motive (.any n)) (literal : ∀ bytes, motive (.literal bytes))
    (set : ∀ bytes, motive (.set bytes)) (fail : motive .fail) (succeed : motive .succeed)
    (seq : ∀ a b, motive a → motive b → motive (.seq a b))
    (choice : ∀ a b, motive a → motive b → motive (.choice a b))
    (not : ∀ a, motive a → motive (.not a)) (and : ∀ a, motive a → motive (.and a))
    (rep : ∀ a n, motive a → motive (.rep a n))
    (diff : ∀ a b, motive a → motive b → motive (.diff a b))
    (capture : ∀ wrapping a, motive a → motive (.capture wrapping a))
    (position : motive .position) (const : ∀ values, motive (.const values))
    (argument : ∀ n, motive (.argument n)) (backref : ∀ name, motive (.backref name))
    (matcher : ∀ f, motive (.matcher f)) (rule : ∀ key, motive (.rule key))
    (grammar : ∀ start rules, (∀ rule ∈ rules, motive rule.2) → motive (.grammar start rules))
    (p : Pattern) : motive p :=
  @Pattern.rec motive (fun rules => ∀ rule ∈ rules, motive rule.2) (fun rule => motive rule.2)
    any literal set fail succeed seq choice not and rep
    diff capture position const argument backref matcher rule grammar (by simp)
    (fun _ _ head tail => List.forall_mem_cons.2 ⟨head, tail⟩) (fun _ _ body => body) p

/-- The patterns that a pattern is put together from. A grammar is not put together from its
rules. -/
def Pattern.parts : Pattern → List Pattern
  | .seq a b | .choice a b | .diff a b => [a, b]
  | .not a | .and a | .rep a _ | .capture _ a => [a]
  | _ => []

/-- The rules of a grammar. -/
def Pattern.rules : Pattern → List (RuleKey × Pattern)
  | .grammar _ rules => rules
  | _ => []

@[elab_as_elim]
theorem Pattern.induction_parts {motive : Pattern → Prop}
    (step : ∀ p : Pattern, (∀ a ∈ p.parts, motive a) → (∀ rule ∈ p.rules, motive rule.2) → motive p)
    (p : Pattern) : motive p := by
  induction p using Pattern.induction with
  | seq a b iha ihb | choice a b iha ihb | diff a b iha ihb =>
    exact step _ (List.forall_mem_cons.2 ⟨iha, List.forall_mem_singleton.2 ihb⟩) nofun
  | not a iha | and a iha | rep a n iha | capture wrapping a iha =>
    exact step _ (List.forall_mem_singleton.2 iha) nofun
  | grammar start rules ih => exact step _ nofun ih
  | _ => exact step _ nofun nofun

mutual

/-- Whether a pattern has no match-time captures. -/
def Pattern.matchTimeFree : Pattern → Bool
  | .capture wrapping a => wrapping.kind != .matchTime && matchTimeFree a
  | .seq a b | .choice a b | .diff a b => matchTimeFree a && matchTimeFree b
  | .not a | .and a | .rep a _ => matchTimeFree a
  | .grammar _ rules => rulesMatchTimeFree rules
  | _ => true
termination_by structural p => p

/-- Whether rules have no match-time captures. -/
def Pattern.rulesMatchTimeFree : List (RuleKey × Pattern) → Bool
  | [] => true
  | (_, body) :: rest => matchTimeFree body && rulesMatchTimeFree rest
termination_by structural rules => rules

end

theorem Pattern.rulesMatchTimeFree_iff {rules : List (RuleKey × Pattern)} :
    rulesMatchTimeFree rules = true ↔ ∀ rule ∈ rules, rule.2.matchTimeFree = true := by
  induction rules with
  | nil => simp [rulesMatchTimeFree]
  | cons rule rest ih => simp [rulesMatchTimeFree, ih]

end PegMachine
