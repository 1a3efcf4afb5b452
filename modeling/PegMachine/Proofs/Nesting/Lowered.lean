import PegMachine.Proofs.Grammars.Tables
import PegMachine.Proofs.Lowering.Shape
import PegMachine.Proofs.Nesting.Blocks
import PegMachine.Proofs.Nesting.Linked

/-!
# Nested patterns

* `Wrapping.starts`: the start of an enclosing capture refers to its constant.
* `Pattern.nested_lower`: **the code of every pattern that compiles is nested.**
-/

namespace PegMachine

open Block

/-- The number of rules that open calls may refer to. -/
def Scope.ruleCount : Option Scope → Nat
  | some scope => scope.table.keys.length
  | none => 0

variable {program : Program} {scope : Option Scope} {s s' : Array Constant} {code : Block}
  {p : Pattern}

theorem Wrapping.starts {wrapping : Wrapping} {index : Nat}
    (h : Lowering.addConstant? wrapping.constant? s = .ok (index, s'))
    (hgrow : ConstantsGrow s' program.constants) : Starts program wrapping.kind index := by
  rcases Lowering.addConstant?_ok h with ⟨hnone, rfl, rfl⟩ | ⟨c, hsome, rfl, rfl⟩
  · cases wrapping with
    | simple => exact .wraps nofun .simple rfl
    | table => exact .wraps nofun .table rfl
    | subst => exact .wraps nofun .subst rfl
    | group => exact .wraps nofun .group rfl
    | _ => cases hnone
  · have hconstant := Program.constant?_of_constantsGrow hgrow
    cases wrapping with
    | simple | table | subst | group => cases hsome
    | named name =>
      cases hsome
      exact .wraps nofun (.named hconstant) rfl
    | fold f =>
      cases hsome
      exact .wraps nofun (.fold hconstant) rfl
    | function f =>
      cases hsome
      exact .wraps nofun (.function hconstant) rfl
    | query table =>
      cases hsome
      exact .wraps nofun (.query hconstant) rfl
    | template format =>
      cases hsome
      exact .wraps nofun (.template hconstant) rfl
    | matchTime f =>
      cases hsome
      exact .matchTime rfl hconstant

namespace Pattern

theorem nested_constCaptures {values : List Value} {rules : Nat}
    (h : (values.mapM Lowering.constCapture : Lowering Block) s = .ok (code, s'))
    (hgrow : ConstantsGrow s' program.constants) : Nested program rules code := by
  induction values generalizing s code with
  | nil =>
    obtain ⟨rfl, -⟩ := Lowering.constCaptures_nil.1 h
    exact nested_nil
  | cons value rest ih =>
    obtain ⟨more, hmore, rfl⟩ := Lowering.constCaptures_cons.1 h
    have hconstant := Program.constant?_of_constantsGrow
      ((constantsGrow_constCaptures hmore).trans hgrow)
    have hfirst : Nested program rules [.emptyCaptureConst .const (s.size + 1)] :=
      nested_single fun _ => ⟨Place.Below.rfl.toKeeps, rfl, _, .const hconstant⟩
    exact nested_append hfirst (ih hmore) (contained_single rfl)
      (compositional_contained.constCaptures hmore)

theorem index?_lt {table : RuleTable} {key : RuleKey} {place : Nat}
    (h : table.index? key = some place) : place < table.keys.length := by
  rw [RuleTable.index?, List.idxOf?_eq_some_iff] at h
  exact h.1

/-- **The code of a pattern is nested**, where its constants are those of the program. -/
theorem nested_lower (h : lower scope p s = .ok (code, s'))
    (hgrow : ConstantsGrow s' program.constants) :
    Nested program (Scope.ruleCount scope) code := by
  induction p using Pattern.induction generalizing scope s code s' with
  | any n => exact nested_any (lower_any.1 h).1
  | literal bytes =>
    obtain ⟨rfl, -⟩ := lower_literal.1 h
    exact nested_of_checks (all_isCheck_ofBytes _)
  | set bytes =>
    obtain ⟨rfl, -⟩ := lower_set.1 h
    exact nested_ofSet bytes
  | fail =>
    obtain ⟨rfl, -⟩ := lower_fail.1 h
    exact nested_fail
  | succeed =>
    obtain ⟨rfl, -⟩ := lower_succeed.1 h
    exact nested_nil
  | seq a b iha ihb =>
    obtain ⟨codeA, mid, codeB, ha, hb, hcode⟩ := lower_seq.1 h
    exact nested_sequence hcode (iha ha ((constants_lower hb).trans hgrow)) (ihb hb hgrow)
      (contained_lower ha) (contained_lower hb)
  | choice a b iha ihb =>
    obtain ⟨codeA, mid, codeB, ha, hb, hcode⟩ := lower_choice.1 h
    exact nested_choice hcode (iha ha ((constants_lower hb).trans hgrow)) (ihb hb hgrow)
      (contained_lower ha) (contained_lower hb)
  | diff a b iha ihb =>
    obtain ⟨codeA, mid, codeB, ha, hb, hcode⟩ := lower_diff.1 h
    exact nested_difference hcode (iha ha ((constants_lower hb).trans hgrow)) (ihb hb hgrow)
      (contained_lower ha) (contained_lower hb)
  | not a iha =>
    obtain ⟨codeA, ha, hcode⟩ := lower_not.1 h
    exact nested_difference hcode nested_nil (iha ha hgrow) contained_nil (contained_lower ha)
  | and a iha =>
    obtain ⟨codeA, ha, hcode⟩ := lower_and.1 h
    exact nested_lookahead hcode (iha ha hgrow) (contained_lower ha)
  | rep a n iha =>
    obtain ⟨-, codeA, ha, hcode⟩ := lower_rep.1 h
    exact nested_repetition hcode (iha ha hgrow) (contained_lower ha)
  | capture wrapping a iha =>
    obtain ⟨body, mid, index, ha, hindex, rfl⟩ := lower_capture.1 h
    have hmid := Lowering.constantsGrow_addConstant? hindex
    exact nested_enclose (iha ha (hmid.trans hgrow)) (contained_lower ha)
      (Wrapping.starts hindex hgrow)
  | position =>
    obtain ⟨rfl, -⟩ := lower_position.1 h
    exact nested_single fun _ => ⟨Place.Below.rfl.toKeeps, rfl, _, .position⟩
  | const values => exact nested_constCaptures (lower_const.1 h) hgrow
  | argument n =>
    obtain ⟨rfl, -⟩ := lower_argument.1 h
    exact nested_single fun _ => ⟨Place.Below.rfl.toKeeps, rfl, _, .argument⟩
  | backref name =>
    obtain ⟨rfl, rfl⟩ := lower_backref.1 h
    have hconstant := Program.constant?_of_constantsGrow hgrow
    exact nested_single fun _ => ⟨Place.Below.rfl.toKeeps, rfl, _, .backref hconstant⟩
  | matcher f =>
    obtain ⟨rfl, -⟩ := lower_matcher.1 h
    exact nested_single fun _ => ⟨Place.Below.rfl.toKeeps, rfl⟩
  | rule key =>
    obtain ⟨around, place, rfl, hplace, rfl, -⟩ := lower_rule.1 h
    exact nested_single fun _ => ⟨Place.Below.rfl.toKeeps, rfl, index?_lt hplace⟩
  | grammar start rules ih =>
    obtain ⟨table, codes, htable, hcodes, hlink⟩ := lower_grammar.1 h
    have haccepts := RuleTable.accepts_of_ofRules htable
    have hlength : codes.length = table.keys.length := by
      rw [haccepts.keys_eq, List.length_map, length_lowerRules hcodes]
    refine nested_link hlink ?_ (fun body hbody => ?_) fun body hbody => ?_
    · rw [hlength]
      exact index?_lt haccepts.index_start
    · obtain ⟨rule, hrule, mid, mid', hlower, hgrow'⟩ := lowerRules_mem hcodes hbody
      rw [hlength]
      exact ih rule hrule hlower (hgrow'.trans hgrow)
    · obtain ⟨rule, -, mid, mid', hlower, -⟩ := lowerRules_mem hcodes hbody
      exact contained_lower hlower

end Pattern

end PegMachine
