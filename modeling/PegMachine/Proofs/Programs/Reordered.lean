import PegMachine.Proofs.Lowering.Reordered
import PegMachine.Proofs.Programs.Acceptance
import PegMachine.Proofs.Programs.Outcomes

/-!
# Grammars compiled in another order

* `Setting.exists_ends_of_inStep`: programs of blocks that are in step match alike.
* `Pattern.exists_compile_of_perm`: a grammar that compiles does so with its rules in every order.
* `Pattern.compile_grammar_perm`: **the order of the rules of a grammar makes no difference**,
  neither to whether it compiles nor to what its matches come to.
-/

namespace PegMachine

open Block

/-! ## Matches -/

namespace Setting

variable {m m' : Setting} {p p' : Pattern} {block block' code code' : Block}
  {faces faces' : Nat → Nat → Prop} {pos : Nat}

theorem SameInput.outcomeOf_eq {r r' : Answer} (hinput : m.SameInput m')
    (h : r.Alike m.program m'.program r') : m'.outcomeOf r' = m.outcomeOf r := by
  cases h with
  | matched hcaptures =>
    have halike : (m.resolver _).Alike (m'.resolver _) :=
      ⟨hinput.subject, hinput.arguments, hcaptures⟩
    rw [outcomeOf, outcomeOf, halike.resolve_eq]
  | failed | crashed => rfl

theorem onConfigs_start (hentry : faces 0 0) :
    (alike m.program m'.program faces).OnConfigs ⟨0, pos, [], #[]⟩ ⟨0, pos, [], #[]⟩ :=
  ⟨hentry, rfl, .nil, .nil⟩

/-- **Programs of blocks that are in step match alike.** -/
theorem exists_ends_of_inStep (hp : p.Compiled m.program block code)
    (hp' : p'.Compiled m'.program block' code') (hinput : m.SameInput m')
    (hlimits : m'.limits = m.limits) (hstep : InStep m m' faces block block')
    (hback : InStep m' m faces' block' block) (hentry : faces 0 0) (hentry' : faces' 0 0)
    (hpos : pos ≤ m.subject.size) : ∃ outcome, m.Ends pos outcome ∧ m'.Ends pos outcome := by
  obtain ⟨r, room, hrun, -⟩ :=
    Pattern.runs_lower (fun _ _ _ => none) #[] hp.lowered (.refl _) id hpos
  obtain ⟨r', room', hrun', -⟩ :=
    Pattern.runs_lower (fun _ _ _ => none) #[] hp'.lowered (.refl _) id (hinput.subject ▸ hpos)
  obtain ⟨n, hrises, hrun⟩ := Run.exists_rises hrun
  obtain ⟨n', hrises', hrun'⟩ := Run.exists_rises hrun'
  have hanswer := hstep.answer hrun hrun' (onConfigs_start hentry)
  have hle : n ≤ n' := (hstep.rises hrises (onConfigs_start hentry)).le_room hrun'
  have hge : n' ≤ n := (hback.rises hrises' (onConfigs_start hentry')).le_room hrun
  obtain rfl := Nat.le_antisymm hle hge
  exact exists_ends_of_outcome hp hp' hlimits hrun hrun' hrises hrises' (hinput.outcomeOf_eq hanswer)

end Setting

/-! ## Grammars -/

namespace Pattern

open RuleTable

variable {start : RuleKey} {rules rules' : Rules} {s s' : Array Constant} {code code' : Block}

theorem reorders_of_ofRules {table table' : RuleTable}
    (hperm : rules.Perm rules') (htable : RuleTable.ofRules start rules = .ok table)
    (htable' : RuleTable.ofRules start rules' = .ok table') :
    Reorders start rules rules' table table' where
  perm := hperm
  accepts := accepts_of_ofRules htable
  accepts' := accepts_of_ofRules htable'

/-- A grammar that compiles does so with its rules in every order. -/
theorem exists_compile_of_perm (hperm : rules.Perm rules')
    (h : ∃ program, (grammar start rules).compile = .ok program) :
    ∃ program, (grammar start rules').compile = .ok program := by
  obtain ⟨program, h⟩ := h
  have hwell := wellFormed_of_perm hperm (wellFormed_of_compile h)
  obtain ⟨block, constants, hlower, hblock⟩ := compile_ok.1 h
  obtain ⟨table, codes, htable, hcodes, hlink⟩ := lower_grammar.1 hlower
  obtain ⟨table', htable'⟩ := (tabled_of_wellFormedIn hwell).1
  have hreorders := reorders_of_ofRules hperm htable htable'
  obtain ⟨codes', constants', hcodes'⟩ := exists_lowerRules hreorders hcodes #[]
  have hsize : 2 + (ruleBlocks codes').length + 2 ≤ maxOffset := by
    rw [length_ruleBlocks_reordered hreorders hcodes hcodes', ← length_link hlink]
    exact (Program.exists_ofBlock (contained_lower hlower)).1 ⟨program, hblock⟩
  have hstart := ruleAddress_le codes' table'.startIndex
  have hlink' := link_ok.2 ⟨Nat.le_trans hstart (by omega), by omega, rfl⟩
  have hlower' : lower none (grammar start rules') #[] = .ok (_, constants') :=
    lower_grammar.2 ⟨table', codes', htable', hcodes', hlink'⟩
  obtain ⟨program', hprogram'⟩ : ∃ program', Program.ofBlock _ constants' = .ok program' :=
    (Program.exists_ofBlock (contained_lower hlower')).2 (by rwa [length_link hlink'])
  exact ⟨program', compile_ok.2 ⟨_, constants', hlower', hprogram'⟩⟩

theorem exists_inStep_of_perm {m m' : Setting} (hperm : rules.Perm rules')
    (hinput : m.SameInput m')
    (h : lower none (grammar start rules) #[] = .ok (code, m.program.constants))
    (h' : lower none (grammar start rules') #[] = .ok (code', m'.program.constants)) :
    ∃ faces, InStep m m' faces code code' ∧ faces 0 0 := by
  obtain ⟨table, codes, htable, hcodes, hlink⟩ := lower_grammar.1 h
  obtain ⟨table', codes', htable', hcodes', hlink'⟩ := lower_grammar.1 h'
  have hreorders := reorders_of_ofRules hperm htable htable'
  have hstart : table.startIndex < codes.length := by
    obtain ⟨body, hrule, -⟩ := hreorders.accepts.index_lookup hreorders.accepts.index_start
    rw [length_lowerRules hcodes]
    exact (List.getElem?_eq_some_iff.1 hrule).1
  exact ⟨_, (rearranged_lowerRules hreorders hcodes hcodes').inStep hinput hstart hlink
    (hreorders.start_placeIn ▸ hlink'), .entry⟩

/-- **The order of the rules of a grammar makes no difference.** With its rules in another order, a
grammar compiles if and only if it does so in the one at hand, and then both programs end with the
same outcome, whatever the subject, the start, the arguments and the limits are. -/
theorem compile_grammar_perm (start : RuleKey) (hperm : rules.Perm rules') :
    ((∃ program, (grammar start rules).compile = .ok program) ↔
      ∃ program, (grammar start rules').compile = .ok program) ∧
    ∀ program program' : Program, (grammar start rules).compile = .ok program →
      (grammar start rules').compile = .ok program' →
      ∀ (limits : Limits) (subject : Bytes) (arguments : List Value) (pos : Nat), ∃ outcome,
        (⟨program, limits, subject, arguments⟩ : Setting).Ends (min pos subject.size) outcome ∧
        (⟨program', limits, subject, arguments⟩ : Setting).Ends (min pos subject.size) outcome := by
  refine ⟨⟨exists_compile_of_perm hperm, exists_compile_of_perm hperm.symm⟩, ?_⟩
  intro program program' h h' limits subject arguments pos
  let m : Setting := ⟨program, limits, subject, arguments⟩
  let m' : Setting := ⟨program', limits, subject, arguments⟩
  have hinput : m.SameInput m' := ⟨rfl, rfl⟩
  obtain ⟨block, code, hcompiled⟩ := compiled_exists h
  obtain ⟨block', code', hcompiled'⟩ := compiled_exists h'
  obtain ⟨faces, hstep, hentry⟩ :=
    exists_inStep_of_perm hperm hinput hcompiled.lowered hcompiled'.lowered
  obtain ⟨faces', hback, hentry'⟩ :=
    exists_inStep_of_perm hperm.symm hinput.symm hcompiled'.lowered hcompiled.lowered
  have hlimits : m'.limits = m.limits := rfl
  exact Setting.exists_ends_of_inStep hcompiled hcompiled' hinput hlimits hstep hback hentry hentry'
    (Nat.min_le_right pos subject.size)

end Pattern

/-- Rules that call each other in turn. -/
def turnTaking : Rules :=
  [(.name "left", .choice
      (.seq (.capture (.named "a") (.literal #[97])) (.rule (.name "right")))
      .succeed),
    (.name "right", .seq (.capture (.named "b") (.literal #[98])) (.rule (.name "left")))]

/-- The program of the rules. -/
def turnTakingProgram : Program where
  code := #[.call 2, .jump 11, .char 97 5, .choice 4 1, .fullCapture .group 1 1, .call 3,
    .commit 1, .ret, .char 98 0, .fullCapture .group 1 2, .jump (-8), .ret, .done, .giveUp]
  constants := #[.name "a", .name "b"]

/-- The program of the rules in the other order. -/
def turnTakingReversed : Program where
  code := #[.call 6, .jump 11, .char 98 0, .fullCapture .group 1 1, .jump 2, .ret, .char 97 5,
    .choice 4 1, .fullCapture .group 1 2, .call (-7), .commit 1, .ret, .done, .giveUp]
  constants := #[.name "b", .name "a"]

theorem turnTaking_reversed :
    (∃ program, (Pattern.grammar (.name "left") turnTaking.reverse).compile = .ok program) ∧
    ∃ outcome,
      (⟨turnTakingProgram, ⟨some 2⟩, #[97, 98, 97, 98], []⟩ : Setting).Ends 0 outcome ∧
      (⟨turnTakingReversed, ⟨some 2⟩, #[97, 98, 97, 98], []⟩ : Setting).Ends 0 outcome := by
  have h := Pattern.compile_grammar_perm (.name "left") (List.reverse_perm turnTaking).symm
  exact ⟨h.1.1 ⟨turnTakingProgram, rfl⟩,
    h.2 turnTakingProgram turnTakingReversed rfl rfl ⟨some 2⟩ #[97, 98, 97, 98] [] 0⟩

end PegMachine
