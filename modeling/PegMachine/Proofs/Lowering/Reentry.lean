import PegMachine.Proofs.Blocks.Meets
import PegMachine.Proofs.Lowering.Correct
import PegMachine.Proofs.Lowering.Grammars

/-!
# Rules are not reentered where they started

* `Pattern.GrammarAt.callsFirst_of_head`: a rule whose code starts with a call calls first.
* `Pattern.GrammarAt.leads`: where a chain of jumps goes that starts at a rule.
* `CallsAgain`: a call that leads to an address, at a position or before it.
* `Pattern.RuleAvoids`, `Pattern.GrammarAt.ruleAvoids`: the step of the induction along the calls of
  rules.
* `Pattern.GrammarAt.avoids`: **a rule that was called comes by no such call to itself before it
  returns.**
* `Pattern.avoids_lower`: **no call in the code of a pattern does.**
-/

namespace PegMachine

open Block

/-- A call that leads, along jumps if need be, to an address, at a given position or before it. -/
structure CallsAgain (code : Block) (stop pos : Nat) (c : Config) : Prop where
  calls : ∃ (off : Int) (target : Nat), code[c.address]? = some (.call off) ∧
    (c.address : Int) + off = target ∧ Leads code target stop
  pos_le : c.pos ≤ pos

theorem Run.answered {m : Setting} {answers : Answers} {outline code : Block} {o : Origin}
    {c : Config} {r : Answer} {rule : Nat} (h : Run m answers outline code o c r)
    (hinstr : code[c.address]? = some (.openCall rule)) :
    ∃ found, answers rule c.pos c.captures = some found := by
  cases hanswer : answers rule c.pos c.captures with
  | some found => exact ⟨found, rfl⟩
  | none =>
    have hstuck : c.perform (m.move answers c.pos c.captures (.openCall rule)) = .stuck := by
      rw [Setting.move, hanswer]
      rfl
    cases h with
    | exit haddr => simp [haddr] at hinstr
    | next hinstr' _ _ hstep | failed hinstr' _ _ hstep | crashed hinstr' _ _ hstep =>
      rw [hinstr] at hinstr'
      cases hinstr'
      rw [hstuck] at hstep
      cases hstep

namespace CallsAgain

variable {code : Block} {stop pos : Nat} {c : Config}

theorem call (h : CallsAgain code stop pos c) : ∃ off, code[c.address]? = some (.call off) := by
  obtain ⟨off, target, hcall, -⟩ := h.calls
  exact ⟨off, hcall⟩

theorem ne_ret (h : CallsAgain code stop pos c) : code[c.address]? ≠ some .ret := by
  obtain ⟨off, hcall⟩ := h.call
  rw [hcall]
  nofun

theorem ne_jump (off : Int) (h : CallsAgain code stop pos c) :
    code[c.address]? ≠ some (.jump off) := by
  obtain ⟨off, hcall⟩ := h.call
  rw [hcall]
  nofun

end CallsAgain

namespace Pattern

variable {m : Setting} {program : Program} {code : Block} {n : Nat} {rules : Rules}
  {table : RuleTable} {codes : List Block} {key : RuleKey} {place callee pos stop : Nat}
  {body : Block}

/-! ## First calls -/

/-- The induction over the rules of a grammar that stands in code. -/
theorem GrammarAt.rule_induction {P : Nat → Nat → Array Entry → Answer × Nat → Prop}
    (hat : GrammarAt m.program code n rules table codes)
    (step : ∀ {known : Answers} {place pos : Nat} {captures : Array Entry} {body : Block}
      {r : Answer} {k : Nat}, codes[place]? = some body →
      (∀ callee pos' captures' found, known callee pos' captures' = some found →
        P callee pos' captures' found ∧
          (pos < pos' ∨ pos' = pos ∧ table.CallsFirst rules place callee)) →
      Runs m known k body pos captures r → P place pos captures (r, k))
    (captures : Array Entry) (hkey : table.index? key = some place)
    (hpos : pos ≤ m.subject.size) : ∃ found, P place pos captures found := by
  obtain ⟨s, s', hcodes, hgrow⟩ := hat.lowered
  have hbodies : ∀ rule ∈ rules, rule.2.Implemented m False := fun rule _ => implemented m False rule.2
  obtain ⟨found, hfound, -⟩ := Pattern.rule_induction hat.accepts hcodes hgrow hbodies
    False.elim step captures hkey hpos
  exact ⟨found, hfound⟩

theorem GrammarAt.callsFirst_of_head
    (hat : GrammarAt m.program code n rules table codes) (hkey : table.index? key = some place)
    (hbody : codes[place]? = some body) (hhead : body[0]? = some (.openCall callee)) :
    table.CallsFirst rules place callee := by
  have hfound := hat.rule_induction
    (P := fun place _ _ _ => ∀ body callee, codes[place]? = some body →
      body[0]? = some (.openCall callee) → table.CallsFirst rules place callee)
    (fun hbody hknown hrun body' callee hbody' hhead => by
      rw [hbody] at hbody'
      cases hbody'
      obtain ⟨found, hanswer⟩ := Run.answered hrun hhead
      rcases (hknown callee _ _ found hanswer).2 with hlt | ⟨-, hfirst⟩
      · exact absurd hlt (Nat.lt_irrefl _)
      · exact hfirst)
    #[] hkey (Nat.zero_le _)
  obtain ⟨-, hfirst⟩ := hfound
  exact hfirst body callee hbody hhead

/-- A chain of jumps that starts at a rule goes along first calls, from rule to rule. -/
theorem GrammarAt.leads (hat : GrammarAt m.program code n rules table codes)
    (hkey : table.index? key = some place)
    (hleads : Leads code (n + ruleAddress codes place) stop) :
    ∃ key' place', table.index? key' = some place' ∧ stop = n + ruleAddress codes place' ∧
      Relation.ReflTransGen (table.CallsFirst rules) place place' := by
  generalize hstart : n + ruleAddress codes place = start at hleads
  induction hleads generalizing key place with
  | refl => exact ⟨key, place, hkey, hstart.symm, .refl⟩
  | @jump start mid stop off hinstr hmid _ ih =>
    obtain ⟨body, hbody⟩ := hat.exists_body hkey
    obtain ⟨scope, a, s, s', hlower, -⟩ := hat.exists_lower hbody
    have hrule := hat.rule place body hbody
    rw [← hstart] at hinstr
    cases body with
    | nil =>
      have hret := hrule.returns
      rw [List.length_nil, Nat.add_zero, hinstr] at hret
      cases hret
    | cons head rest =>
      by_cases hcall : ∃ callee, head = .openCall callee
      · obtain ⟨callee, rfl⟩ := hcall
        have hfirst := hat.callsFirst_of_head hkey hbody rfl
        obtain ⟨_, _, key', -, -, -, hkey'⟩ := id hfirst
        have hlinks := hrule.links 0 callee rfl
        rw [Nat.add_zero] at hlinks
        cases hlinks with
        | call hcode =>
          rw [hinstr] at hcode
          cases hcode
        | tail hcode hn =>
          rw [hinstr] at hcode
          cases hcode
          obtain ⟨key'', place', hkey'', hstop, hreach⟩ := ih hkey' (by omega)
          exact ⟨key'', place', hkey'', hstop, .head hfirst hreach⟩
      · have hkeep := hrule.keeps 0 head rfl fun callee he => hcall ⟨callee, he⟩
        rw [Nat.add_zero, hinstr] at hkeep
        exact absurd hkeep.symm (head_ne_jump_lower hlower off)

/-! ## Calls to the start of a rule -/

/-- No rule that the rule at a place calls first, or a chain of such calls, leads to an address. -/
def LeadsElsewhere (code : Block) (n : Nat) (rules : Rules) (table : RuleTable)
    (codes : List Block) (stop place : Nat) : Prop :=
  ∀ callee, Relation.TransGen (table.CallsFirst rules) place callee →
    ¬ Leads code (n + ruleAddress codes callee) stop

theorem GrammarAt.leadsElsewhere (hat : GrammarAt m.program code n rules table codes)
    (hkey : table.index? key = some place) :
    LeadsElsewhere code n rules table codes (n + ruleAddress codes place) place := by
  intro callee hfirst hleads
  obtain ⟨key', hkey'⟩ : ∃ key', table.index? key' = some callee := by
    cases hfirst with
    | single h | tail _ h =>
      obtain ⟨_, _, key', -, -, -, hkey'⟩ := h
      exact ⟨key', hkey'⟩
  obtain ⟨key'', place', hkey'', heq, hreach⟩ := hat.leads hkey' hleads
  obtain ⟨body, hbody⟩ := hat.exists_body hkey
  obtain ⟨body', hbody'⟩ := hat.exists_body hkey''
  obtain ⟨rfl, -⟩ := ruleAddress_inj hbody hbody' (Nat.zero_le _) (Nat.zero_le _)
    (Nat.add_left_cancel heq)
  exact hat.accepts.not_transGen_callsFirst (hfirst.trans_left hreach)

/-- The calls of grammars inside a rule lead to rules of these, and not to one around them. -/
theorem GrammarAt.not_leads_of_nested (hat : GrammarAt m.program code n rules table codes)
    (hkey : table.index? key = some place) {rule k target : Nat} {off : Int}
    (hbody : codes[rule]? = some body) (hk : body[k]? = some (.call off))
    (htarget : ((n + ruleAddress codes rule + k : Nat) : Int) + off = target) :
    ¬ Leads code target (n + ruleAddress codes place) := by
  intro hleads
  obtain ⟨scope, a, s, s', hlower, hgrow⟩ := hat.exists_lower hbody
  obtain ⟨inner, hinner, n', rules', table', codes', key', place', hat', hkey', rfl⟩ :=
    callsRule_lower hlower hgrow hk
  obtain rfl : target = n + ruleAddress codes rule + n' + ruleAddress codes' place' := by omega
  have hmoved := hat'.of_linkedAt (hat.rule rule body hbody).linkedAt (head_ne_jump_lower hlower)
  obtain ⟨key'', place'', hkey'', hstop, -⟩ := hmoved.leads hkey' hleads
  obtain ⟨body', hbody'⟩ := hat'.exists_body hkey''
  obtain ⟨outer, houter⟩ := hat.exists_body hkey
  -- The rule of the inner grammar, and the return behind it, lie inside the outer rule.
  have hlt := (List.getElem?_eq_some_iff.1 (hat'.rule place'' body' hbody').returns).1
  have htwo := two_le_ruleAddress hbody'
  obtain ⟨-, hzero⟩ := ruleAddress_inj (i := n' + ruleAddress codes' place'') (j := 0) hbody houter
    (by omega) (Nat.zero_le _) (by omega)
  omega

/-- Behind a position, or there where no first calls lead to an address, the code of a rule comes by no
call to that address at the position while `N` frames are pending, if there is none after its
answer. -/
def RuleAvoids (m : Setting) (code : Block) (n : Nat) (rules : Rules) (table : RuleTable)
    (codes : List Block) (N stop start rule pos : Nat) (captures : Array Entry)
    (found : Answer × Nat) : Prop :=
  start ≤ pos → (pos = start → LeadsElsewhere code n rules table codes stop rule) →
    ∀ o, (Aim.avoids m (fun _ _ _ => none) code N (CallsAgain code stop start)).AnswersAt m code o
      (n + ruleAddress codes rule) pos captures found.1 found.2

/-- **The code of a rule avoids a call that the rules which it calls avoid.** -/
theorem GrammarAt.ruleAvoids {N k rule start : Nat} {known : Answers} {captures : Array Entry}
    {r : Answer} (hat : GrammarAt m.program code n rules table codes)
    (hkey : table.index? key = some place) (hbody : codes[rule]? = some body)
    (hknown : ∀ callee pos' captures' found, known callee pos' captures' = some found →
      RuleAvoids m code n rules table codes N (n + ruleAddress codes place) start callee pos'
        captures' found ∧ (pos < pos' ∨ pos' = pos ∧ table.CallsFirst rules rule callee))
    (hrun : Runs m known k body pos captures r) :
    RuleAvoids m code n rules table codes N (n + ruleAddress codes place) start rule pos captures
      (r, k) := by
  intro hle helse o
  have hrule := hat.rule rule body hbody
  obtain ⟨scope, a, s, s', hlower, -⟩ := hat.exists_lower hbody
  refine hrule.answersAt Aim.takenBack_avoids (contained_lower hlower) hrun
    (fun c instr frames hinstr hne _ hagain => ?_) fun j callee hj => ?_
  · -- A call in the code of the rule is one of a grammar inside.
    obtain ⟨off, target, hcall, htarget, hleads⟩ := hagain.calls
    rw [show (c.embed (n + ruleAddress codes rule) frames).address =
      n + ruleAddress codes rule + c.address from rfl] at hcall htarget
    rw [hrule.keeps _ _ hinstr hne] at hcall
    cases hcall
    exact hat.not_leads_of_nested hkey hbody hinstr htarget hleads
  · have hlinks := hrule.links j callee hj
    refine hlinks.callsThrough Aim.takenBack_avoids (Aim.passesReturns_avoids fun _ h => h.ne_ret)
      (fun c r k haddr _ hanswer hagain => ?_) (fun c hc hagain => hagain.ne_ret hc)
      fun pos' captures' r k hanswer => ?_
    · -- A call of a rule is made later, or it is a first call.
      obtain ⟨off, target, hcall, htarget, hleads⟩ := hagain.calls
      have hpos := hagain.pos_le
      obtain ⟨-, hlt | ⟨heq, hfirst⟩⟩ := hknown callee _ _ _ hanswer
      · omega
      · rw [haddr] at hcall htarget
        cases hlinks with
        | call hcode hn =>
          rw [hcall] at hcode
          cases hcode
          obtain rfl : target = n + ruleAddress codes callee := by omega
          exact helse (by omega) callee (.single hfirst) hleads
        | tail hcode =>
          rw [hcall] at hcode
          cases hcode
    · obtain ⟨havoids, hlt | ⟨rfl, hfirst⟩⟩ := hknown callee _ _ _ hanswer
      · exact havoids (by omega) (fun heq => absurd heq (by omega)) o
      · exact havoids hle (fun heq callee' hfirst' => helse heq callee' (.head hfirst hfirst')) o

/-- **A rule that was called comes by no call to itself at the same position before it returns.** -/
theorem GrammarAt.avoids (hat : GrammarAt m.program code n rules table codes)
    (hkey : table.index? key = some place) (hpos : pos ≤ m.subject.size) {address owner : Nat}
    {frames : List Pending} {captures : Array Entry} (hlevels : LevelsBelow frames captures.size) :
    (Aim.avoids m (fun _ _ _ => none) code (frames.length + 1)
      (CallsAgain code (n + ruleAddress codes place) pos)).holds
      ⟨n + ruleAddress codes place, pos, ⟨.ret address, owner⟩ :: frames, captures⟩ := by
  obtain ⟨⟨r, k⟩, havoids⟩ := hat.rule_induction (P := RuleAvoids m code n rules table codes
    (frames.length + 1) (n + ruleAddress codes place) pos)
    (fun hbody hknown hrun => hat.ruleAvoids hkey hbody hknown hrun) captures hkey hpos
  exact havoids (Nat.le_refl _) (fun _ => hat.leadsElsewhere hkey)
    ⟨pos, captures, frames.length + 1 + k⟩ _ (Nat.le_refl _) (.refl _)
    (levelsBelow_cons_ret.2 hlevels) (Nat.le_refl _)
    (Aim.returnsTo_avoids (fun _ h => h.ne_ret) r)

/-- **No call in the code of a pattern is made again at the same position before it has returned.** -/
theorem avoids_lower {scope : Option Scope} {p : Pattern} {s s' : Array Constant} {k target : Nat}
    {off : Int} {frames : List Pending} {captures : Array Entry}
    (h : lower scope p s = .ok (code, s')) (hgrow : ConstantsGrow s' m.program.constants)
    (hk : code[k]? = some (.call off)) (htarget : (k : Int) + off = target)
    (hleads : Leads code target stop) (hpos : pos ≤ m.subject.size)
    (hlevels : LevelsBelow frames captures.size) :
    (Aim.avoids m (fun _ _ _ => none) code (frames.length + 1) (CallsAgain code stop pos)).holds
      ⟨target, pos, ⟨.ret (k + 1), k⟩ :: frames, captures⟩ := by
  obtain ⟨target', htarget', n, rules, table, codes, key, place, hat, hkey, rfl⟩ :=
    callsRule_lower h hgrow hk
  obtain rfl : target = n + ruleAddress codes place := by omega
  obtain ⟨key', place', hkey', rfl, -⟩ := hat.leads hkey hleads
  exact Aim.avoids_of_leads hleads (fun _ off hagain => hagain.ne_jump off)
    (hat.avoids hkey' hpos hlevels)

end Pattern

end PegMachine
