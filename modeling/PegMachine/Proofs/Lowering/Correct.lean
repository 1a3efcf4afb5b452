import PegMachine.Proofs.Grammars.Tables
import PegMachine.Proofs.Lowering.Parts

/-!
# The code of a pattern

* `Pattern.rule_induction`: **what holds of the answer of each rule if it does of the answers to its
  calls.** By induction on what is left of the subject, and at one position along the first calls,
  which no rule reaches itself by.
* `Pattern.implemented`: **from every position, the code of a pattern comes to an answer in line
  with the pattern.**
-/

namespace PegMachine

open Block

/-! ## Answers with a property -/

open Classical in
/-- The calls answered by something that has a property. -/
noncomputable def Answers.among (P : Nat → Nat → Array Entry → Answer × Nat → Prop) : Answers :=
  fun place pos captures =>
    if h : ∃ found, P place pos captures found then some h.choose else none

section

variable {P : Nat → Nat → Array Entry → Answer × Nat → Prop} {place pos : Nat} {captures : Array Entry}

theorem Answers.among_eq_some {found : Answer × Nat}
    (h : Answers.among P place pos captures = some found) : P place pos captures found := by
  rw [Answers.among] at h
  split at h
  · next hexists =>
    cases h
    exact hexists.choose_spec
  · cases h

theorem Answers.exists_among (h : ∃ found, P place pos captures found) :
    ∃ found, Answers.among P place pos captures = some found ∧ P place pos captures found := by
  have hsome : Answers.among P place pos captures = some h.choose := dif_pos h
  exact ⟨_, hsome, Answers.among_eq_some hsome⟩

end

namespace Pattern

variable {m : Setting} {free : Prop}

/-! ## Rules -/

section

variable {start : RuleKey} {rules : Rules} {table : RuleTable} {codes : List Block}
  {s s' : Array Constant} {P : Nat → Nat → Array Entry → Answer × Nat → Prop}

/-- **What holds of the answer of each rule if it does of the answers to its calls.** A rule makes
its calls behind where it starts, or there to rules that it calls first. -/
theorem rule_induction (haccepts : RuleTable.Accepts start rules table)
    (hcodes : lowerRules table rules s = .ok (codes, s'))
    (hgrow : ConstantsGrow s' m.program.constants)
    (hbodies : ∀ rule ∈ rules, rule.2.Implemented m free)
    (hfree : free → ∀ rule ∈ rules, rule.2.matchTimeFree = true)
    (step : ∀ {known : Answers} {place pos : Nat} {captures : Array Entry} {body : Block}
      {r : Answer} {k : Nat}, codes[place]? = some body →
      (∀ callee pos' captures' found, known callee pos' captures' = some found →
        P callee pos' captures' found ∧
          (pos < pos' ∨ pos' = pos ∧ table.CallsFirst rules place callee)) →
      Runs m known k body pos captures r → P place pos captures (r, k))
    {key : RuleKey} {place pos : Nat} (captures : Array Entry)
    (hkey : table.index? key = some place) (hpos : pos ≤ m.subject.size) :
    ∃ found, P place pos captures found ∧ ∀ key, table.index? key = some place →
      found.1.InLine m free rules table.nullable (.rule key) pos captures (found.2 + 1) := by
  -- on what is left of the subject, and at one position on the rules that are called first, of
  -- which a table has no cycle
  induction hleft : m.subject.size - pos using Nat.strongRecOn
    generalizing key place pos captures with
  | ind left ihPos =>
    subst hleft
    induction key using haccepts.firstCalls_wellFounded.induction generalizing place captures with
    | h key ihKey =>
      obtain ⟨body, hrule, hlookup⟩ := haccepts.index_lookup hkey
      have hmem := List.mem_of_getElem? hrule
      obtain ⟨bodyCode, mid, mid', hcode, hlower, hgrow'⟩ := lowerRules_getElem? hcodes hrule
      let Later := fun callee pos' captures' (found : Answer × Nat) =>
        (P callee pos' captures' found ∧ ∀ key, table.index? key = some callee →
          found.1.InLine m free rules table.nullable (.rule key) pos' captures' (found.2 + 1)) ∧
        (pos < pos' ∨ pos' = pos ∧ table.CallsFirst rules place callee)
      let known := Answers.among Later
      have hserved : Served m free known rules (some ⟨table, key⟩)
          (firstCalls table.nullable body) pos := by
        constructor
        · intro callee hcallee captures around place' he hplace'
          cases he
          obtain ⟨found, hfound⟩ := ihKey callee ⟨body, hlookup, hcallee⟩ captures hplace'
          obtain ⟨⟨r, k⟩, hanswer, ⟨-, hline⟩, -⟩ := Answers.exists_among (P := Later)
            ⟨found, hfound, .inr ⟨rfl, key, body, callee, hkey, hlookup, hcallee, hplace'⟩⟩
          exact ⟨r, k, hanswer, hline callee hplace'⟩
        · intro callee pos' captures hlt hle around place' he hplace'
          cases he
          obtain ⟨found, hfound⟩ :=
            ihPos (m.subject.size - pos') (by omega) captures hplace' hle rfl
          obtain ⟨⟨r, k⟩, hanswer, ⟨-, hline⟩, -⟩ := Answers.exists_among (P := Later)
            ⟨found, hfound, .inl hlt⟩
          exact ⟨r, k, hanswer, hline callee hplace'⟩
      obtain ⟨r, k, hrun, hline⟩ := hbodies _ hmem captures hlower (hgrow'.trans hgrow)
        (fun hf => hfree hf _ hmem) hpos hserved
      refine ⟨(r, k), step hcode (fun callee pos' captures' found hanswer => ?_) hrun,
        fun key' hkey' => ?_⟩
      · obtain ⟨⟨hfound, -⟩, hlater⟩ := Answers.among_eq_some hanswer
        exact ⟨hfound, hlater⟩
      · obtain ⟨body', hrule', -⟩ := haccepts.index_lookup hkey'
        rw [hrule] at hrule'
        cases hrule'
        refine hline.imp (fun hnull => ?_) fun _ found => .rule hlookup
        rw [nullable, List.contains_iff_mem]
        exact haccepts.nullable_closed _ hmem hnull

end

theorem implemented_grammar (start : RuleKey) {rules : Rules}
    (hbodies : ∀ rule ∈ rules, rule.2.Implemented m free) :
    (grammar start rules).Implemented m free := by
  intro scope around answers s s' code pos captures hcode hgrow hfree hpos _
  obtain ⟨table, codes, htable, hcodes, hlink⟩ := lower_grammar.1 hcode
  have haccepts := RuleTable.accepts_of_ofRules htable
  have hfree' : free → ∀ rule ∈ rules, rule.2.matchTimeFree = true :=
    fun hf => rulesMatchTimeFree_iff.1 (hfree hf)
  obtain ⟨⟨r, k⟩, hanswers, hline⟩ := rule_induction
    (P := fun place pos captures found =>
      AnswersAt m answers code (ruleAddress codes place) pos captures found.1 found.2)
    haccepts hcodes hgrow hbodies hfree' (fun hbody hknown hrun =>
      hrun.answersAt (ruleAt_link hlink hbody)
        (contained_lowerRules hcodes _ (List.mem_of_getElem? hbody))
        fun callee pos captures r k hanswer => (hknown callee pos captures _ hanswer).1)
    captures haccepts.index_start hpos
  refine ⟨r, k + 1, runs_link hlink hpos hanswers fun pos' captures' he => ?_, ?_⟩
  · subst he
    obtain ⟨hle, hsize, -, entries, hrecords, -⟩ := hline start haccepts.index_start
    exact ⟨hle, hsize, hrecords.extends⟩
  · refine (hline start haccepts.index_start).imp (fun hnull => ?_) fun _ found hfound => ?_
    · rw [RuleTable.ofRules] at htable
      rw [nullable, htable]
      simpa [nullable, haccepts.start_eq] using hnull
    · cases hfound with
      | rule hkey hbody => exact .grammar hkey hbody

/-! ## Patterns -/

/-- **From every position, the code of a pattern comes to an answer in line with the pattern.** -/
theorem implemented (m : Setting) (free : Prop) (p : Pattern) : p.Implemented m free := by
  induction p using Pattern.induction with
  | any n => exact implemented_any n
  | literal bytes => exact implemented_literal bytes
  | set bytes => exact implemented_set bytes
  | fail => exact implemented_fail
  | succeed => exact implemented_succeed
  | seq a b iha ihb => exact implemented_seq iha ihb
  | choice a b iha ihb => exact implemented_choice iha ihb
  | not a iha => exact implemented_not iha
  | and a iha => exact implemented_and iha
  | rep a n iha => exact implemented_rep iha n
  | diff a b iha ihb => exact implemented_diff iha ihb
  | capture wrapping a iha => exact implemented_capture iha wrapping
  | position => exact implemented_position
  | const values => exact implemented_const values
  | argument n => exact implemented_argument n
  | backref name => exact implemented_backref name
  | matcher f => exact implemented_matcher f
  | rule key => exact implemented_rule key
  | grammar start rules ih => exact implemented_grammar start ih

theorem runs_lower {p : Pattern} {s' : Array Constant} {code : Block} {pos : Nat}
    (answers : Answers) (captures : Array Entry) (hcode : p.lower none #[] = .ok (code, s'))
    (hgrow : ConstantsGrow s' m.program.constants) (hfree : free → p.matchTimeFree = true)
    (hpos : pos ≤ m.subject.size) :
    ∃ r k, Runs m answers k code pos captures r ∧ r.InLine m free [] [] p pos captures k :=
  p.implemented m free captures hcode hgrow hfree hpos ⟨nofun, nofun⟩

end Pattern

end PegMachine
