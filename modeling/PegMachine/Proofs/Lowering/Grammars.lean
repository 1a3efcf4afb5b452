import PegMachine.Proofs.Grammars.Tables
import PegMachine.Proofs.Lowering.Pieces
import PegMachine.Proofs.Lowering.Reordered

/-!
# Grammars in the code of a pattern

* `Block.LinkedAt`: a block stands in code, but for its calls, that may be linked, and for its head.
* `RuleAt.of_linkedAt`: the rules of a grammar are where the code of the grammar is.
* `Pattern.GrammarAt`: a linked grammar stands in code.
* `Pattern.callsRule_lower`: **every call in the code of a pattern leads to a rule of such a
  grammar.**
-/

namespace PegMachine

open Block

/-! ## Linked code in larger code -/

/-- `part` stands in `code` at `n`, but for its open calls, and for what its head became if that is
glue. -/
def Block.LinkedAt (code : Block) (n : Nat) (part : Block) : Prop :=
  ∀ (k : Nat) (instr : Instr), part[k]? = some instr → (k = 0 → instr.isGlue = false) →
    (∀ rule, instr ≠ .openCall rule) → code[n + k]? = some instr

section

variable {code part body : Block} {starts : Nat → Nat} {n address target : Nat}

theorem Block.CopiedAt.linkedAt (h : CopiedAt code n part) : LinkedAt code n part :=
  fun k instr hk hhead _ => h k instr hk hhead

theorem RuleAt.linkedAt (h : RuleAt code starts n body) : LinkedAt code n body :=
  fun k instr hk _ => h.keeps k instr hk

theorem Block.LinkedAt.jump (h : LinkedAt code n part)
    (hhead : ∀ off, part.head? ≠ some (.jump off)) {off : Int}
    (hinstr : part[address]? = some (.jump off)) : code[n + address]? = some (.jump off) := by
  refine h _ _ hinstr (fun hzero => ?_) (by simp)
  rw [hzero, ← List.head?_eq_getElem?] at hinstr
  exact absurd hinstr (hhead off)

theorem ReturnsAt.of_linkedAt (hret : ReturnsAt part address) (h : LinkedAt code n part)
    (hhead : ∀ off, part.head? ≠ some (.jump off)) : ReturnsAt code (n + address) := by
  induction hret with
  | ret hinstr => exact .ret (h _ _ hinstr (fun _ => rfl) (by simp))
  | jump hinstr hn _ ih => exact .jump (h.jump hhead hinstr) (by push_cast; omega) ih

theorem LinksTo.of_linkedAt (hlinks : LinksTo part address target) (h : LinkedAt code n part)
    (hhead : ∀ off, part.head? ≠ some (.jump off)) : LinksTo code (n + address) (n + target) := by
  cases hlinks with
  | call hcode hn => exact .call (h _ _ hcode (fun _ => rfl) (by simp)) (by push_cast; omega)
  | tail hcode hn hret =>
    exact .tail (h.jump hhead hcode) (by push_cast; omega) (hret.of_linkedAt h hhead)

theorem RuleAt.of_linkedAt (hat : RuleAt part starts address body) (h : LinkedAt code n part)
    (hhead : ∀ off, part.head? ≠ some (.jump off)) (hpos : 0 < address) :
    RuleAt code (n + starts ·) (n + address) body where
  keeps k instr hk hne := by
    rw [Nat.add_assoc]
    exact h _ _ (hat.keeps k instr hk hne) (by omega) hne
  links k rule hk := by
    rw [Nat.add_assoc]
    exact (hat.links k rule hk).of_linkedAt h hhead
  returns := by
    rw [Nat.add_assoc]
    exact h _ _ hat.returns (fun _ => rfl) (by simp)

end

/-! ## Grammars -/

namespace Pattern

/-- A linked grammar stands in code from address `n` on. -/
structure GrammarAt (program : Program) (code : Block) (n : Nat)
    (rules : List (RuleKey × Pattern)) (table : RuleTable) (codes : List Block) : Prop where
  accepts : RuleTable.Accepts table.start rules table
  lowered : ∃ s s', lowerRules table rules s = .ok (codes, s') ∧
    ConstantsGrow s' program.constants
  rule : ∀ place body, codes[place]? = some body →
    RuleAt code (n + ruleAddress codes ·) (n + ruleAddress codes place) body

variable {program : Program} {scope : Option Scope} {s s' : Array Constant} {code part : Block}
  {p : Pattern} {rules : List (RuleKey × Pattern)} {table : RuleTable} {codes : List Block}
  {n n' k : Nat}

theorem GrammarAt.of_linkedAt (hat : GrammarAt program part n' rules table codes)
    (h : LinkedAt code n part) (hhead : ∀ off, part.head? ≠ some (.jump off)) :
    GrammarAt program code (n + n') rules table codes := by
  refine ⟨hat.accepts, hat.lowered, fun place body hbody => ?_⟩
  have htwo := two_le_ruleAddress hbody
  simpa only [Nat.add_assoc] using (hat.rule place body hbody).of_linkedAt h hhead (by omega)

theorem grammarAt_link {start : RuleKey} (htable : RuleTable.ofRules start rules = .ok table)
    (hcodes : lowerRules table rules s = .ok (codes, s')) (hgrow : ConstantsGrow s' program.constants)
    (hlink : link table.startIndex codes = .ok code) :
    GrammarAt program code 0 rules table codes := by
  have haccepts := RuleTable.accepts_of_ofRules htable
  refine ⟨?_, ⟨s, s', hcodes, hgrow⟩, fun place body hbody => ?_⟩
  · rw [haccepts.start_eq]
    exact haccepts
  · simpa only [Nat.zero_add] using ruleAt_link hlink hbody

theorem GrammarAt.exists_body {key : RuleKey} {place : Nat}
    (hat : GrammarAt program code n rules table codes) (hkey : table.index? key = some place) :
    ∃ body, codes[place]? = some body := by
  obtain ⟨s, s', hcodes, -⟩ := hat.lowered
  obtain ⟨_, hrule, -⟩ := hat.accepts.index_lookup hkey
  obtain ⟨body, -, -, hbody, -⟩ := lowerRules_getElem? hcodes hrule
  exact ⟨body, hbody⟩

theorem GrammarAt.exists_lower {place : Nat} {body : Block}
    (hat : GrammarAt program code n rules table codes) (hbody : codes[place]? = some body) :
    ∃ scope a mid mid', lower scope a mid = .ok (body, mid') ∧
      ConstantsGrow mid' program.constants := by
  obtain ⟨s, s', hcodes, hgrow⟩ := hat.lowered
  obtain ⟨rule, -, mid, mid', hlower, hgrow'⟩ := lowerRules_mem hcodes (List.mem_of_getElem? hbody)
  exact ⟨_, rule.2, mid, mid', hlower, hgrow'.trans hgrow⟩

/-- The code of a rule of a grammar that stands in the code starts at an address. -/
def RuleStart (program : Program) (code : Block) (address : Nat) : Prop :=
  ∃ n rules table codes key place, GrammarAt program code n rules table codes ∧
    table.index? key = some place ∧ address = n + ruleAddress codes place

/-- A call leads to the code of a rule. -/
def CallsRule (program : Program) (code : Block) (k : Nat) (off : Int) : Prop :=
  ∃ target : Nat, (k : Int) + off = target ∧ RuleStart program code target

theorem CallsRule.of_linkedAt {off : Int} (hcalls : CallsRule program part k off)
    (h : LinkedAt code n part) (hhead : ∀ off, part.head? ≠ some (.jump off)) :
    CallsRule program code (n + k) off := by
  obtain ⟨target, htarget, n', rules, table, codes, key, place, hat, hkey, rfl⟩ := hcalls
  exact ⟨n + (n' + ruleAddress codes place), by push_cast at htarget ⊢; omega, n + n', rules, table,
    codes, key, place, hat.of_linkedAt h hhead, hkey, by omega⟩

/-- The calls of a linked grammar lead to rules, if those in the code of its rules do. -/
theorem callsRule_link {start : RuleKey} {off : Int}
    (htable : RuleTable.ofRules start rules = .ok table)
    (hcodes : lowerRules table rules s = .ok (codes, s')) (hgrow : ConstantsGrow s' program.constants)
    (hlink : link table.startIndex codes = .ok code)
    (hrules : ∀ body ∈ codes, ∀ (j : Nat) (off : Int), body[j]? = some (.call off) →
      CallsRule program body j off)
    (hk : code[k]? = some (.call off)) : CallsRule program code k off := by
  have hat : GrammarAt program code 0 rules table codes := grammarAt_link htable hcodes hgrow hlink
  have haccepts := RuleTable.accepts_of_ofRules htable
  have hlinked := linkedCode_of_link hlink fun body hbody => by
    obtain ⟨_, _, _, _, hlower, -⟩ := lowerRules_mem hcodes hbody
    exact onward_lower hlower
  rcases hlinked.cases (List.getElem?_eq_some_iff.1 hk).1 with
    rfl | rfl | ⟨rule, j, body, hbody, hj, rfl⟩
  · rw [hlinked.entry] at hk
    cases hk
    exact ⟨_, Int.zero_add _, 0, rules, table, codes, start, _, hat, haccepts.index_start,
      (Nat.zero_add _).symm⟩
  · rw [hlinked.exit] at hk
    cases hk
  · obtain ⟨_, _, mid, mid', hlower, hgrow'⟩ := lowerRules_mem hcodes (List.mem_of_getElem? hbody)
    have hrule : RuleAt code (ruleAddress codes) (ruleAddress codes rule) body :=
      ruleAt_link hlink hbody
    rcases Nat.lt_or_eq_of_le hj with hlt | rfl
    · have hinstr : body[j]? = some body[j] := List.getElem?_eq_getElem hlt
      rcases proper_lower hlower (hgrow'.trans hgrow) _ (List.getElem_mem hlt) with
        hproper | ⟨_, key, callee, he, hkey, hcall⟩
      · have hkeep := hrule.keeps j _ hinstr fun rule hcall => by
          rw [hcall] at hproper
          exact hproper
        rw [hk] at hkeep
        exact (hrules body (List.mem_of_getElem? hbody) j off (hinstr.trans hkeep.symm)).of_linkedAt
          hrule.linkedAt (head_ne_jump_lower hlower)
      · cases he
        rw [hcall] at hinstr
        cases hrule.links j callee hinstr with
        | call hcode hn =>
          rw [hk] at hcode
          cases hcode
          exact ⟨_, hn, 0, rules, table, codes, key, callee, hat, hkey, (Nat.zero_add _).symm⟩
        | tail hcode =>
          rw [hk] at hcode
          cases hcode
    · -- behind the body there is a return
      rw [hrule.returns] at hk
      cases hk

/-- **Every call in the code of a pattern leads to a rule of a grammar that stands there.** -/
theorem callsRule_lower {off : Int} (h : lower scope p s = .ok (code, s'))
    (hgrow : ConstantsGrow s' program.constants) (hk : code[k]? = some (.call off)) :
    CallsRule program code k off := by
  induction p using Pattern.induction_parts generalizing scope s code s' k off with
  | step p ihParts ihRules =>
    obtain ⟨pieces, hmade, hpieces⟩ := madeOf_lower h hgrow
    obtain ⟨piece, hpiece, n, j, rfl, hj, hcopied⟩ := hmade.copied hk rfl
    have hlinked := hcopied.linkedAt
    cases hpieces piece hpiece with
    | part ha hlower hgrow =>
      exact (ihParts _ ha hlower hgrow hj).of_linkedAt hlinked (head_ne_jump_lower hlower)
    | own hadds =>
      obtain rfl := List.mem_singleton.1 (List.mem_of_getElem? hj)
      cases hadds.records
    | rule => cases List.mem_singleton.1 (List.mem_of_getElem? hj)
    | grammar htable hcodes hgrow hlink =>
      refine (callsRule_link htable hcodes hgrow hlink (fun body hbody j off hcall => ?_) hj).of_linkedAt
        hlinked ?_
      · obtain ⟨rule, hrule, mid, mid', hlower, hgrow'⟩ := lowerRules_mem hcodes hbody
        exact ihRules rule hrule hlower (hgrow'.trans hgrow) hcall
      · rw [List.head?_eq_getElem?, head_link hlink]
        nofun

end Pattern

end PegMachine
