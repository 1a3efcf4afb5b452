import PegMachine.Proofs.Blocks.Branching
import PegMachine.Proofs.Lowering.Reentry

/-!
# Tests in the code of a pattern branch

In linked code a chain of jumps may lead from one rule to another, where calls were put behind a test
that does not hold and in front of a return.

* `RuleAt.leads_cases`: where a chain of jumps goes that starts in a rule.
* `Pattern.GrammarAt.callsFirst_of_test`: a call that a chain leads to from a test at the start of a
  rule is one that the rule makes first, since at the end of the subject the test does not hold.
* `Pattern.branching_lower`: **the tests in the code of a pattern branch.**
-/

namespace PegMachine

open Block

section

variable {m : Setting} {answers : Answers} {outline code body : Block} {o : Origin}
  {starts : Nat → Nat} {address n k stop pos : Nat} {frames : List Pending}
  {captures : Array Entry} {r : Answer} {instr : Instr} {off : Int}

/-- A chain of jumps that starts in a rule stays there, or it leads to a call and on from the rule
that is called. -/
theorem RuleAt.leads_cases (h : RuleAt code starts address body) (hcont : Contained body)
    (hk : k ≤ body.length) (hleads : Leads code (address + k) stop) :
    (∃ j, stop = address + j ∧ Leads body k j) ∨
      ∃ j callee, Leads body k j ∧ body[j]? = some (.openCall callee) ∧
        Leads code (starts callee) stop := by
  generalize hfrom : address + k = first at hleads
  induction hleads generalizing k with
  | refl => exact .inl ⟨k, hfrom.symm, .refl k⟩
  | @jump first mid stop off hjump hmid hrest ih =>
    rw [← hfrom] at hjump hmid
    rcases Nat.lt_or_eq_of_le hk with hlt | rfl
    · have hinstr : body[k]? = some body[k] := List.getElem?_eq_getElem hlt
      by_cases hcall : ∃ callee, body[k] = .openCall callee
      · obtain ⟨callee, hcallee⟩ := hcall
        rw [hcallee] at hinstr
        refine .inr ⟨k, callee, .refl k, hinstr, ?_⟩
        cases h.links k callee hinstr with
        | call hcode =>
          rw [hjump] at hcode
          cases hcode
        | tail hcode hn =>
          rw [hjump] at hcode
          cases hcode
          rwa [show starts callee = mid by omega]
      · have hkeep := h.keeps k _ hinstr fun callee he => hcall ⟨callee, he⟩
        rw [hjump] at hkeep
        rw [← Option.some.inj hkeep] at hinstr
        have hin := hcont k _ off hinstr rfl
        obtain ⟨t, ht⟩ := Int.eq_ofNat_of_zero_le (show 0 ≤ (k : Int) + off by omega)
        rcases ih (k := t) (by omega) (by omega) with ⟨j, hstop, hleads⟩ | ⟨j, callee, hleads, hrest⟩
        · exact .inl ⟨j, hstop, .jump hinstr ht hleads⟩
        · exact .inr ⟨j, callee, .jump hinstr ht hleads, hrest⟩
    · rw [h.returns] at hjump
      cases hjump

/-- A test at a place of linked code stands there in the rule: calls do not become tests. -/
theorem RuleAt.getElem?_of_test (h : RuleAt code starts address body) (hk : k < body.length)
    (hinstr : code[address + k]? = some instr) (hoff : instr.testOffset? = some off) :
    body[k]? = some instr := by
  have hsome : body[k]? = some body[k] := List.getElem?_eq_getElem hk
  by_cases hcall : ∃ callee, body[k] = .openCall callee
  · obtain ⟨callee, hcallee⟩ := hcall
    cases h.links k callee (hcallee ▸ hsome) with
    | call hcode | tail hcode =>
      rw [hinstr] at hcode
      cases hcode
      cases hoff
  · rw [hsome, ← hinstr, h.keeps k _ hsome fun callee he => hcall ⟨callee, he⟩]

theorem Run.along (h : Run m answers outline code o ⟨n, pos, frames, captures⟩ r)
    (hleads : Leads code n stop) : Run m answers outline code o ⟨stop, pos, frames, captures⟩ r := by
  induction hleads with
  | refl => exact h
  | jump hjump hmid _ ih =>
    refine ih (h.tail hjump ?_)
    simp [Setting.move, Config.perform, Config.target, hmid]

theorem Setting.holds_at_end (hany : ∀ n off, instr = .any n off → 0 < n)
    (hoff : instr.testOffset? = some off) :
    m.move answers m.subject.size captures instr = .jump off := by
  cases instr with
  | any n d =>
    rw [Instr.testOffset?] at hoff
    split at hoff
    · cases hoff
    · next hd =>
      cases hoff
      have := hany n off rfl
      simp [move, holds, Move.refuse, hd]
      omega
  | char b d | set s d =>
    rw [Instr.testOffset?] at hoff
    split at hoff
    · cases hoff
    · next hd =>
      cases hoff
      simp [move, holds, Move.refuse, hd]
  | _ => cases hoff

end

namespace Pattern

variable {m : Setting} {scope : Option Scope} {p : Pattern} {s s' : Array Constant}
  {code body : Block} {rules : Rules} {table : RuleTable} {codes : List Block} {start key : RuleKey}
  {n place callee j k stop : Nat} {instr : Instr} {off : Int}

theorem GrammarAt.callsFirst_of_test (hat : GrammarAt m.program code n rules table codes)
    (hkey : table.index? key = some place) (hbody : codes[place]? = some body)
    (hbranching : Branching body) (htest : body[0]? = some instr)
    (hoff : instr.testOffset? = some off) (hk : off = k) (hleads : Leads body k j)
    (hcall : body[j]? = some (.openCall callee)) : table.CallsFirst rules place callee := by
  obtain ⟨-, hfirst⟩ := hat.rule_induction
    (P := fun rule pos _ _ => rule = place → pos = m.subject.size →
      table.CallsFirst rules place callee)
    (fun {known rule pos captures body' r _} hbody' hknown hrun hrule hpos => by
      subst hrule hpos hk
      rw [hbody] at hbody'
      cases hbody'
      have hany : ∀ n off, instr = .any n off → 0 < n := fun n off he =>
        hbranching.any_pos n off (he ▸ List.mem_of_getElem? htest)
      have hmove : m.move known m.subject.size captures instr = .jump k :=
        Setting.holds_at_end hany hoff
      have hstep : (⟨0, m.subject.size, [], captures⟩ : Config).perform
          (m.move known m.subject.size captures instr) =
            .next ⟨k, m.subject.size, [], captures⟩ := by
        rw [hmove]
        simp [Config.perform, Config.target]
      have hjumped := hrun.tail htest hstep
      obtain ⟨found, hanswer⟩ := (hjumped.along hleads).answered hcall
      rcases (hknown callee _ _ found hanswer).2 with hlt | ⟨-, hfirst⟩
      · exact absurd hlt (Nat.lt_irrefl _)
      · exact hfirst)
    #[] hkey (Nat.le_refl _)
  exact hfirst rfl rfl

/-- A test in a rule of linked code branches. A chain of jumps from there back to it would be one of
rules that call each other first. -/
theorem branches_link (htable : RuleTable.ofRules start rules = .ok table)
    (hcodes : lowerRules table rules s = .ok (codes, s'))
    (hlink : link table.startIndex codes = .ok code)
    (hbodies : ∀ body ∈ codes, Branching body) {rule : Nat} (hbody : codes[rule]? = some body)
    (hj : j < body.length) (hk : code[ruleAddress codes rule + j]? = some instr)
    (hoff : instr.testOffset? = some off) :
    ∃ n : Nat, ((ruleAddress codes rule + j : Nat) : Int) + off = n ∧
      ruleAddress codes rule + j < n ∧ ¬ Leads code n (ruleAddress codes rule + j) := by
  have hcont := contained_lowerRules hcodes
  let m : Setting := ⟨⟨#[], s'⟩, {}, #[], []⟩
  have hat : GrammarAt m.program code 0 rules table codes :=
    grammarAt_link htable hcodes (.refl s') hlink
  have hmem := List.mem_of_getElem? hbody
  have hrule : RuleAt code (ruleAddress codes) (ruleAddress codes rule) body :=
    ruleAt_link hlink hbody
  obtain ⟨_, _, mid, mid', hlower, hgrow⟩ := lowerRules_mem hcodes hmem
  have hgrown : ConstantsGrow mid' m.program.constants := hgrow
  have hproper := proper_lower hlower hgrown
  have hinstr := hrule.getElem?_of_test hj hk hoff
  obtain ⟨t, ht, hjt, hnot⟩ := (hbodies body hmem).branches j instr off hinstr hoff
  have hin := hcont body hmem j instr off hinstr (Instr.offset?_of_testOffset? hoff)
  refine ⟨ruleAddress codes rule + t, by push_cast; omega, by omega, fun hleads => ?_⟩
  rcases hrule.leads_cases (hcont body hmem) (by omega) hleads with
    ⟨j', heq, hback⟩ | ⟨j', callee, hto, hcall, hon⟩
  · exact hnot ((show j' = j by omega) ▸ hback)
  · rcases hproper _ (List.mem_of_getElem? hcall) with hno | ⟨_, key, _, he, hkey, hcallee⟩
    · cases hno
    · cases he
      cases hcallee
      rw [← Nat.zero_add (ruleAddress codes callee)] at hon
      obtain ⟨key', place', hkey', heq, hreach⟩ := hat.leads hkey hon
      obtain ⟨body', hbody'⟩ := hat.exists_body hkey'
      obtain ⟨rfl, rfl⟩ :=
        ruleAddress_inj (j := 0) hbody hbody' (Nat.le_of_lt hj) (Nat.zero_le _) (by omega)
      have hfirst := hat.callsFirst_of_test hkey' hbody (hbodies body hmem) hinstr hoff (by omega)
        hto hcall
      exact hat.accepts.not_transGen_callsFirst (.head' hfirst hreach)

/-- **The tests in the code of a grammar branch.** -/
theorem branching_link (htable : RuleTable.ofRules start rules = .ok table)
    (hcodes : lowerRules table rules s = .ok (codes, s'))
    (hlink : link table.startIndex codes = .ok code)
    (hbodies : ∀ body ∈ codes, Branching body) : Branching code := by
  have hlinked := linkedCode_of_link hlink fun body hbody => (hbodies body hbody).toOnward
  have hcont := contained_link hlink (contained_lowerRules hcodes)
  refine ⟨onward_of_not_mem hcont fun rule => not_mem_link hlink, fun n off hmem => ?_,
    fun k instr off hk hoff => ?_⟩
  · rcases mem_link hlink hmem with ⟨_, h⟩ | ⟨_, h⟩ | h | ⟨⟨body, hbody, hmem⟩, -⟩
    · cases h
    · cases h
    · cases h
    · exact (hbodies body hbody).any_pos n off hmem
  · rcases hlinked.cases (List.getElem?_eq_some_iff.1 hk).1 with
      rfl | rfl | ⟨rule, j, body, hbody, hj, rfl⟩
    · rw [hlinked.entry] at hk
      cases hk
      cases hoff
    · rw [hlinked.exit] at hk
      cases hk
      cases hoff
    · rcases Nat.lt_or_eq_of_le hj with hlt | rfl
      · exact branches_link htable hcodes hlink hbodies hbody hlt hk hoff
      · rw [(ruleAt_link hlink hbody).returns] at hk
        cases hk
        cases hoff

theorem compositional_branching : Compositional Branching where
  nil := branching_nil
  fail := branching_single rfl rfl
  emptyCapture _ _ := branching_single rfl rfl
  emptyCaptureConst _ _ := branching_single rfl rfl
  matcher _ := branching_single rfl rfl
  openCall := branching_openCall
  ofBytes := branching_ofBytes
  ofSet := branching_ofSet
  append := branching_append
  enclose _ _ _ hbody := branching_enclose _ _ hbody
  any := branching_any
  sequence := branching_sequence
  choice := branching_choice
  difference := branching_difference
  lookahead := branching_lookahead
  repetition hlower hcode hbody := branching_repetition hcode hbody (contained_lower hlower)
  link := branching_link

/-- **The tests in the code of a pattern branch.** -/
theorem branching_lower (h : lower scope p s = .ok (code, s')) : Branching code :=
  compositional_branching.lower h

end Pattern

end PegMachine
