import PegMachine.Proofs.Lowering.Pieces

/-!
# Patterns that do not look at their place

* `Pattern.placeFree`: the patterns without matchers, match-time captures and positions.
* `Instr.placeFree`: the instructions that do not tell where in the subject they run.
* `Pattern.placeFree_lower`: **the code of such a pattern has such instructions only.**
-/

namespace PegMachine

mutual

/-- Whether a pattern has no matchers, no match-time captures and no positions, so that nothing in it
can tell where in the subject it stands. -/
def Pattern.placeFree : Pattern → Bool
  | .matcher _ | .position => false
  | .capture wrapping a => wrapping.kind != .matchTime && placeFree a
  | .seq a b | .choice a b | .diff a b => placeFree a && placeFree b
  | .not a | .and a | .rep a _ => placeFree a
  | .grammar _ rules => rulesPlaceFree rules
  | _ => true
termination_by structural p => p

/-- Whether rules have no matchers, no match-time captures and no positions. -/
def Pattern.rulesPlaceFree : List (RuleKey × Pattern) → Bool
  | [] => true
  | (_, body) :: rest => placeFree body && rulesPlaceFree rest
termination_by structural rules => rules

end

/-- Whether an instruction runs no function on the subject and records no position. -/
def Instr.placeFree : Instr → Bool
  | .matcher _ | .closeMatchTime => false
  | .fullCapture kind _ _ | .emptyCapture kind _ | .emptyCaptureConst kind _
  | .openCapture kind _ _ => kind != .position
  | _ => true

theorem Instr.placeFree_of_isGlue {instr : Instr} (h : instr.isGlue = true) :
    instr.placeFree = true := by
  cases instr <;> first | rfl | cases h

theorem Instr.placeFree_withOffset (instr : Instr) (off : Int) :
    (instr.withOffset off).placeFree = instr.placeFree := by
  cases instr <;> rfl

theorem Wrapping.kind_ne_position (wrapping : Wrapping) :
    (wrapping.kind != .position) = true := by
  cases wrapping <;> rfl

namespace Pattern

open Block

variable {p : Pattern} {scope : Option Scope} {s s' : Array Constant} {code : Block}
  {instr : Instr}

theorem placeFree_of_rulesPlaceFree {rules : List (RuleKey × Pattern)}
    (h : rulesPlaceFree rules = true) : ∀ rule ∈ rules, rule.2.placeFree = true := by
  induction rules with
  | nil => exact nofun
  | cons rule rest ih =>
    rw [rulesPlaceFree, Bool.and_eq_true] at h
    exact List.forall_mem_cons.2 ⟨h.1, ih h.2⟩

theorem placeFree_parts (h : p.placeFree = true) : ∀ a ∈ p.parts, a.placeFree = true := by
  cases p with
  | seq first second | choice first second | diff first second =>
    rw [placeFree, Bool.and_eq_true] at h
    exact List.forall_mem_cons.2 ⟨h.1, List.forall_mem_singleton.2 h.2⟩
  | not body | and body | rep body => exact List.forall_mem_singleton.2 h
  | capture wrapping body =>
    rw [placeFree, Bool.and_eq_true] at h
    exact List.forall_mem_singleton.2 h.2
  | _ => exact nofun

theorem placeFree_rules (h : p.placeFree = true) : ∀ rule ∈ p.rules, rule.2.placeFree = true := by
  cases p with
  | grammar start rules => exact placeFree_of_rulesPlaceFree h
  | _ => exact nofun

theorem Adds.placeFree (h : p.Adds instr) (hfree : p.placeFree = true) :
    instr.placeFree = true := by
  cases h with
  | @capture wrapping _ _ _ h =>
    rw [Pattern.placeFree, Bool.and_eq_true, bne_iff_ne] at hfree
    cases h with
    | full | opened => exact wrapping.kind_ne_position
    | closed => rfl
    | closedMatchTime hkind => exact absurd hkind hfree.1
  | const | argument | backref => rfl
  | position | matcher => cases hfree

/-- **The code of a pattern that does not look at its place does not either.** -/
theorem placeFree_lower (h : lower scope p s = .ok (code, s')) (hfree : p.placeFree = true) :
    ∀ instr ∈ code, instr.placeFree = true := by
  induction p using Pattern.induction_parts generalizing scope s code s' with
  | step p ihParts ihRules =>
    obtain ⟨pieces, hmade, hpieces⟩ : ∃ pieces, MadeOf pieces code ∧
        ∀ piece ∈ pieces, Piece ⟨#[], s'⟩ scope p piece := madeOf_lower h (.refl s')
    refine hmade.forall_mem (fun instr => Instr.placeFree_of_isGlue) fun piece hpiece => ?_
    cases hpieces piece hpiece with
    | part ha hlower => exact ihParts _ ha hlower (placeFree_parts hfree _ ha)
    | own hadds => exact List.forall_mem_singleton.2 (hadds.placeFree hfree)
    | rule => exact List.forall_mem_singleton.2 rfl
    | grammar _ hcodes _ hlink =>
      intro instr hmem
      rcases mem_link hlink hmem with ⟨_, rfl⟩ | ⟨_, rfl⟩ | rfl | ⟨⟨body, hbody, hinstr⟩, -⟩
      · rfl
      · rfl
      · rfl
      · obtain ⟨rule, hrule, _, _, hlower, -⟩ := lowerRules_mem hcodes hbody
        exact ihRules rule hrule hlower (placeFree_rules hfree rule hrule) instr hinstr

end Pattern

end PegMachine
