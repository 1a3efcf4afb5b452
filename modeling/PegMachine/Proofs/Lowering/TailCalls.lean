import PegMachine.Proofs.Lowering.Pieces
import PegMachine.Proofs.Lowering.Reordered

/-!
# Rules that call at their ends only

* `Pattern.isCallFree`, `Pattern.isTail`: patterns that call no rule, or one at the end only.
* `Pattern.not_calls_lower`, `Pattern.callsLast_lower`: where their code calls.
* `Block.LinkedCode.call_eq_zero`: **where all rules call at their ends only, linking leaves no call
  but that of the start rule.**
-/

namespace PegMachine

open Block

/-! ## Calls -/

/-- Whether an instruction calls a rule. -/
def Instr.calls : Instr → Bool
  | .call _ | .openCall _ => true
  | _ => false

theorem Instr.calls_of_isGlue {instr : Instr} (h : instr.isGlue = true) : instr.calls = false := by
  cases instr <;> first | rfl | cases h

theorem Instr.calls_of_records {instr : Instr} (h : instr.records = true) :
    instr.calls = false := by
  cases instr <;> first | rfl | cases h

theorem Instr.isGlue_of_calls {instr : Instr} (h : instr.calls = true) :
    instr.isGlue = false := by
  cases instr <;> first | rfl | cases h

namespace Pattern

/-- Whether a pattern refers to no rule and has no grammar in it. -/
def isCallFree : Pattern → Bool
  | .rule _ | .grammar .. => false
  | .seq a b | .choice a b | .diff a b => isCallFree a && isCallFree b
  | .not a | .and a | .rep a _ | .capture _ a => isCallFree a
  | _ => true

/-- Whether a pattern has no grammar in it and refers to a rule at its end only, if at all: it is a
reference, or a sequence or a choice of which only the second part refers to a rule, in the same
way. -/
def isTail : Pattern → Bool
  | .rule _ => true
  | .seq a b | .choice a b => isCallFree a && isTail b
  | p => isCallFree p

theorem isCallFree_parts {p a : Pattern} (h : p.isCallFree = true) (ha : a ∈ p.parts) :
    a.isCallFree = true := by
  cases p with
  | seq | choice | diff =>
    rw [isCallFree, Bool.and_eq_true] at h
    rcases List.mem_pair.1 ha with rfl | rfl
    · exact h.1
    · exact h.2
  | not | and | rep | capture =>
    obtain rfl := List.mem_singleton.1 ha
    exact h
  | _ => cases ha

/-! ## Code -/

variable {scope : Option Scope} {s s' : Array Constant} {p : Pattern} {code : Block}

theorem not_calls_lower (h : lower scope p s = .ok (code, s')) (hfree : p.isCallFree = true) :
    ∀ instr ∈ code, instr.calls = false := by
  induction p using Pattern.induction_parts generalizing scope s code s' with
  | step p ih _ =>
    obtain ⟨pieces, hmade, hpieces⟩ : ∃ pieces, MadeOf pieces code ∧
        ∀ piece ∈ pieces, Piece ⟨#[], s'⟩ scope p piece := madeOf_lower h (.refl s')
    refine hmade.forall_mem (fun instr => Instr.calls_of_isGlue) fun piece hpiece => ?_
    cases hpieces piece hpiece with
    | part ha hlower _ => exact ih _ ha hlower (isCallFree_parts hfree ha)
    | own hadds _ => exact List.forall_mem_singleton.2 (Instr.calls_of_records hadds.records)
    | rule | grammar => cases hfree

/-- Code that calls with its last instruction only, and with an open call there. -/
def CallsLast (code : Block) : Prop :=
  ∀ (k : Nat) (instr : Instr), code[k]? = some instr → instr.calls = true →
    k + 1 = code.length ∧ ∃ rule, instr = .openCall rule

theorem callsLast_of_not_calls (h : ∀ instr ∈ code, instr.calls = false) : CallsLast code := by
  intro k instr hk hcalls
  rw [h instr (List.mem_of_getElem? hk)] at hcalls
  cases hcalls

theorem callsLast_of_madeOf_nil (h : MadeOf [] code) : CallsLast code :=
  callsLast_of_not_calls (h.forall_mem (fun _ => Instr.calls_of_isGlue) nofun)

/-- Code that does not call in front of code that calls at its end. -/
theorem CallsLast.append {a b : Block} (hb : CallsLast b) (ha : ∀ instr ∈ a, instr.calls = false) :
    CallsLast (a ++ b) := by
  intro k instr hk hcalls
  rcases Nat.lt_or_ge k a.length with hlt | hge
  · rw [List.getElem?_append_left hlt] at hk
    rw [ha instr (List.mem_of_getElem? hk)] at hcalls
    cases hcalls
  · rw [List.getElem?_append_right hge] at hk
    obtain ⟨hlast, hopen⟩ := hb _ instr hk hcalls
    rw [List.length_append]
    exact ⟨by omega, hopen⟩

theorem CallsLast.cons {instr : Instr} (h : CallsLast code) (hinstr : instr.calls = false) :
    CallsLast (instr :: code) :=
  h.append (a := [instr]) (List.forall_mem_singleton.2 hinstr)

theorem CallsLast.hoistCheck {off : Int} {back : Nat} (h : CallsLast code) :
    CallsLast (hoistCheck (.choice off back :: code)) := by
  intro k instr hk hcalls
  obtain ⟨j, rfl, hj⟩ := getElem?_of_hoistCheck hk (Instr.isGlue_of_calls hcalls)
  obtain ⟨hlast, hopen⟩ := h j instr hj hcalls
  rw [length_hoistCheck, List.length_cons]
  exact ⟨by omega, hopen⟩

/-- **The code of a pattern that refers to a rule at its end calls there.** -/
theorem callsLast_lower (h : lower scope p s = .ok (code, s')) (htail : p.isTail = true) :
    CallsLast code := by
  induction p using Pattern.induction generalizing scope s code s' with
  | seq a b _ ihb =>
    rw [isTail, Bool.and_eq_true] at htail
    obtain ⟨codeA, mid, codeB, ha, hb, hcode⟩ := lower_seq.1 h
    have hnone := not_calls_lower ha htail.1
    cases sequence_form hcode with
    | first => exact callsLast_of_not_calls hnone
    | second => exact ihb hb htail.2
    | skips => exact callsLast_of_madeOf_nil (madeOf_skip _)
    | append => exact (ihb hb htail.2).append hnone
  | choice a b _ ihb =>
    rw [isTail, Bool.and_eq_true] at htail
    obtain ⟨codeA, mid, codeB, ha, hb, hcode⟩ := lower_choice.1 h
    have hnone := not_calls_lower ha htail.1
    cases choice_form hcode with
    | second => exact ihb hb htail.2
    | first => exact callsLast_of_not_calls hnone
    | union => exact callsLast_of_madeOf_nil (madeOf_ofSet _)
    | tested =>
      have hmade : MadeOf [codeA] (withHeadTest (codeA.length + 1 : Nat) codeA) :=
        .tested _ (.piece (.head _))
      refine CallsLast.append (CallsLast.cons (ihb hb htail.2) rfl) ?_
      exact hmade.forall_mem (fun _ => Instr.calls_of_isGlue) (List.forall_mem_singleton.2 hnone)
    | chosen => exact CallsLast.hoistCheck (CallsLast.append (CallsLast.cons (ihb hb htail.2) rfl) hnone)
  | rule key =>
    obtain ⟨around, place, -, -, rfl, -⟩ := lower_rule.1 h
    intro k instr hk hcalls
    cases k with
    | zero =>
      cases hk
      exact ⟨rfl, place, rfl⟩
    | succ k => cases hk
  | _ => exact callsLast_of_not_calls (not_calls_lower h htail)

end Pattern

/-! ## Linked code -/

/-- **Where all rules call at their ends only, linking leaves no call but that of the start rule.** -/
theorem Block.LinkedCode.call_eq_zero {startRule k : Nat} {bodies : List Block} {code : Block}
    {off : Int} (h : LinkedCode startRule bodies code)
    (hlast : ∀ body ∈ bodies, Pattern.CallsLast body) (hk : code[k]? = some (.call off)) : k = 0 := by
  have hlt := (List.getElem?_eq_some_iff.1 hk).1
  rcases h.cases hlt with rfl | rfl | ⟨rule, j, body, hbody, hj, rfl⟩
  · rfl
  · rw [h.exit] at hk
    cases hk
  · rcases Nat.lt_or_eq_of_le hj with hj | rfl
    · have hinstr : body[j]? = some body[j] := List.getElem?_eq_getElem hj
      rw [h.getElem?_of_lt hbody hinstr] at hk
      generalize body[j] = instr at hinstr hk
      obtain ⟨hend, callee, rfl⟩ :=
        hlast body (List.mem_of_getElem? hbody) j instr hinstr (by
          cases instr <;> first | rfl | cases hk)
      -- A return follows, so the call became a jump.
      obtain ⟨n, hn⟩ := Nat.exists_eq_succ_of_ne_zero (Nat.ne_of_gt (Nat.zero_lt_of_lt hlt))
      have hreturns : returnsAt (body ++ [Instr.ret]).toArray code.length (j + 1 : Nat) = true := by
        rw [hn, returnsAt, if_neg (by omega), Int.toNat_natCast, hend, List.getElem?_toArray,
          List.getElem?_concat_length]
      rw [hreturns] at hk
      cases hk
    · rw [h.getElem?_ret hbody] at hk
      cases hk

end PegMachine
