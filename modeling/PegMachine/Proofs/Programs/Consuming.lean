import PegMachine.Proofs.Programs.Acceptance
import PegMachine.Proofs.Programs.Ends
import PegMachine.Proofs.Semantics.Parses

/-!
# Matches that consume nothing

The check of repetitions relies on patterns that are not taken as nullable to consume something. This
is so wherever they stand, whatever the functions of matchers and match-time captures do.

* `Pattern.StandsIn`: a pattern stands in another one, with a grammar around it.
* `Pattern.exists_lower_of_standsIn`: whatever stands in a pattern that compiles has code, by the
  table of the grammar around it.
* `Pattern.nullable_of_parses`: **a match that consumes nothing is one of a pattern that is taken as
  nullable, by the table of the grammar around it.**
-/

namespace PegMachine

/-! ## Patterns with a grammar around them -/

/-- The rules around a pattern, none outside of a grammar. -/
def Grammar.rulesAround : Option Grammar → Rules
  | some g => g.rules
  | none => []

/-- The nullable rules around a pattern by the table of the grammar, none outside of a grammar. -/
def Grammar.nullableAround : Option Grammar → Except Fault (List RuleKey)
  | some g => RuleTable.nullable <$> RuleTable.ofRules g.start g.rules
  | none => .ok []

namespace Pattern

/-- A pattern stands in another one, with the innermost grammar around it if there is one. -/
inductive StandsIn (whole : Pattern) : Option Grammar → Pattern → Prop where
  | whole : StandsIn whole none whole
  | part {around : Option Grammar} {p a : Pattern} (h : StandsIn whole around p)
      (ha : a ∈ p.parts) : StandsIn whole around a
  | rule {around : Option Grammar} {start : RuleKey} {rules : Rules} {rule : RuleKey × Pattern}
      (h : StandsIn whole around (.grammar start rules)) (hrule : rule ∈ rules) :
      StandsIn whole (some ⟨rules, start⟩) rule.2

section

variable {whole p : Pattern} {around : Option Grammar} {scope : Option Scope}
  {s s' : Array Constant} {code : Block} {program : Program}

theorem exists_lower_parts (h : lower scope p s = .ok (code, s')) :
    ∀ a ∈ p.parts, ∃ mid mid' codeA, lower scope a mid = .ok (codeA, mid') := by
  cases p with
  | seq first second =>
    obtain ⟨codeA, mid, codeB, hfirst, hsecond, -⟩ := lower_seq.1 h
    exact List.forall_mem_cons.2 ⟨⟨_, _, _, hfirst⟩, List.forall_mem_singleton.2 ⟨_, _, _, hsecond⟩⟩
  | choice first second =>
    obtain ⟨codeA, mid, codeB, hfirst, hsecond, -⟩ := lower_choice.1 h
    exact List.forall_mem_cons.2 ⟨⟨_, _, _, hfirst⟩, List.forall_mem_singleton.2 ⟨_, _, _, hsecond⟩⟩
  | diff first second =>
    obtain ⟨codeA, mid, codeB, hfirst, hsecond, -⟩ := lower_diff.1 h
    exact List.forall_mem_cons.2 ⟨⟨_, _, _, hfirst⟩, List.forall_mem_singleton.2 ⟨_, _, _, hsecond⟩⟩
  | not body =>
    obtain ⟨codeA, hbody, -⟩ := lower_not.1 h
    exact List.forall_mem_singleton.2 ⟨_, _, _, hbody⟩
  | and body =>
    obtain ⟨codeA, hbody, -⟩ := lower_and.1 h
    exact List.forall_mem_singleton.2 ⟨_, _, _, hbody⟩
  | rep body n =>
    obtain ⟨-, codeA, hbody, -⟩ := lower_rep.1 h
    exact List.forall_mem_singleton.2 ⟨_, _, _, hbody⟩
  | capture wrapping body =>
    obtain ⟨codeA, mid, index, hbody, -, -⟩ := lower_capture.1 h
    exact List.forall_mem_singleton.2 ⟨_, _, _, hbody⟩
  | _ => exact nofun

/-- Whatever stands in a pattern that compiles has code, by the table of the grammar around it. -/
theorem exists_lower_of_standsIn (hp : whole.compile = .ok program)
    (h : StandsIn whole around p) :
    ∃ scope s code s', lower scope p s = .ok (code, s') ∧
      Scope.Among scope (around.map Grammar.rules) ∧
      Grammar.nullableAround around = .ok (Scope.nullableRules scope) := by
  induction h with
  | whole =>
    obtain ⟨block, constants, hlower, -⟩ := compile_ok.1 hp
    exact ⟨none, _, _, _, hlower, .outside, rfl⟩
  | part _ ha ih =>
    obtain ⟨scope, s, code, s', hlower, hrest⟩ := ih
    obtain ⟨mid, mid', codeA, hpart⟩ := exists_lower_parts hlower _ ha
    exact ⟨scope, mid, codeA, mid', hpart, hrest⟩
  | @rule _ start rules rule _ hrule ih =>
    obtain ⟨scope, s, code, s', hlower, -⟩ := ih
    obtain ⟨table, codes, htable, hcodes, -⟩ := lower_grammar.1 hlower
    obtain ⟨mid, mid', body, hbody⟩ := rule_of_lowerRules hcodes rule hrule
    have htabled := rulesTabled_iff.1 (tabled_of_lower hlower).2
    refine ⟨some ⟨table, rule.1⟩, mid, body, mid', hbody,
      .inside (RuleTable.accepts_of_ofRules htable) htabled, ?_⟩
    rw [Grammar.nullableAround, htable]
    rfl

end

/-! ## Matches of what stands in a pattern -/

/-- **A match that consumes nothing is one of a pattern that is taken as nullable**, by the table of
the grammar around it, and a match of any other pattern ends behind its start. The pattern stands
anywhere in one that compiles, and the functions of matchers and match-time captures may be any. -/
theorem nullable_of_parses {whole p : Pattern} {program : Program} {around : Option Grammar}
    {subject : Bytes} {arguments : List Value} {bindings : Bindings} {pos stop : Nat}
    {captures : List Capture} (hp : whole.compile = .ok program)
    (hstands : StandsIn whole around p)
    (h : Parses subject arguments (Grammar.rulesAround around) bindings p pos
      (some (stop, captures))) :
    ∃ known, Grammar.nullableAround around = .ok known ∧
      (stop = pos → nullable known p = true) ∧ (nullable known p = false → pos < stop) := by
  obtain ⟨scope, s, code, s', hlower, hamong, hknown⟩ := exists_lower_of_standsIn hp hstands
  have hrules : Grammar.rulesAround around = (around.map Grammar.rules).getD [] := by
    cases around <;> rfl
  rw [hrules] at h
  have hnullable : stop = pos → nullable (Scope.nullableRules scope) p = true := fun hempty =>
    (hamong.findsEmpty.nullable_iff (tabled_of_lower hlower)).2 (h.canBeEmpty rfl hempty)
  refine ⟨_, hknown, hnullable, fun hfalse => ?_⟩
  -- A match that is not longer than nothing would contradict the check.
  have hle : pos ≤ stop := h.le_stop rfl
  refine Nat.lt_of_le_of_ne hle fun heq => ?_
  rw [hnullable heq.symm] at hfalse
  cases hfalse

/-- The capture that sends the match back to its start matches without consuming anything. -/
theorem rewinding_capture_nullable : ∃ known,
    Grammar.nullableAround (some ⟨rewinding.rules, .index 0⟩) = .ok known ∧
      nullable known (.capture (.matchTime stepBack) (.literal #[97])) = true := by
  have hbody : Parses #[97] [] rewinding.rules [] (.literal #[97]) 0 (some (1, [])) :=
    .literal (by decide)
  have hparse : Parses #[97] [] rewinding.rules [] (.capture (.matchTime stepBack) (.literal #[97]))
      0 (some (0, Capture.ofResults 0 0 [])) :=
    .matchTime hbody rfl rfl (Nat.le_refl 0) (Nat.zero_le 1)
  have hstands : StandsIn rewinding (some ⟨rewinding.rules, .index 0⟩)
      (.capture (.matchTime stepBack) (.literal #[97])) :=
    .part (.part (.rule .whole (.head _)) (.head _)) (.head _)
  obtain ⟨known, hknown, hempty, -⟩ := nullable_of_parses compile_rewinding hstands hparse
  exact ⟨known, hknown, hempty rfl⟩

end Pattern

end PegMachine
