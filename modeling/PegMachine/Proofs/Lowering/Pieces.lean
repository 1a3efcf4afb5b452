import PegMachine.Proofs.Blocks.Pieces
import PegMachine.Proofs.Lowering.Shape

/-!
# The pieces of lowered code

* `Instr.Proper`: an instruction whose constants are there and of the kind that it needs.
* `Pattern.Adds`: the instructions that lowering a pattern adds to the code of its parts.
* `Pattern.Piece`: the code of a part of a pattern, or what lowering the pattern adds of its own.
* `Pattern.madeOf_lower`: **the code of a pattern is made of its pieces.**
* `Pattern.proper_lower`: the instructions of the code of a pattern find their constants.
* `Pattern.head_ne_jump_lower`: no code of a pattern starts with a jump.
-/

namespace PegMachine

open Block

/-! ## Constants -/

/-- The constant that captures of a kind refer to by a number is there. Groups without a name have
the number zero. -/
def CaptureKind.Supplied (program : Program) (index : Nat) : CaptureKind → Prop
  | .position | .argument | .simple | .table | .subst => True
  | .const => ∃ value, program.constant? index = some (.value value)
  | .backref => ∃ name, program.constant? index = some (.name name)
  | .group => index = 0 ∨ ∃ name, program.constant? index = some (.name name)
  | .function => ∃ f, program.constant? index = some (.function f)
  | .query => ∃ table, program.constant? index = some (.query table)
  | .template => ∃ format, program.constant? index = some (.template format)
  | .fold => ∃ f, program.constant? index = some (.fold f)
  | .matchTime => ∃ f, program.constant? index = some (.matchTime f)

/-- An instruction that may stand before the end of a program: its constant is there and of the kind
that it needs, and a capture reaches back only so far. -/
def Instr.Proper (program : Program) : Instr → Prop
  | .done | .giveUp | .openCall _ => False
  | .matcher index => ∃ f, program.constant? index = some (.matcher f)
  | .fullCapture kind back index | .openCapture kind back index =>
    back ≤ maxCaptureBack ∧ kind.Supplied program index
  | .emptyCapture kind index | .emptyCaptureConst kind index => kind.Supplied program index
  | _ => True

/-- Whether an instruction records a capture or runs a matcher. -/
def Instr.records : Instr → Bool
  | .matcher _ | .fullCapture .. | .emptyCapture .. | .emptyCaptureConst .. | .openCapture ..
  | .closeCapture | .closeMatchTime => true
  | _ => false

theorem Instr.proper_of_isGlue {program : Program} {instr : Instr} (h : instr.isGlue = true) :
    instr.Proper program := by
  cases instr <;> trivial

theorem Instr.proper_withOffset {program : Program} {instr : Instr} {off : Int} :
    (instr.withOffset off).Proper program ↔ instr.Proper program := by
  cases instr <;> rfl

section

variable {program : Program} {wrapping : Wrapping} {s s' : Array Constant} {index : Nat}

theorem Wrapping.supplied (h : Lowering.addConstant? wrapping.constant? s = .ok (index, s'))
    (hgrow : ConstantsGrow s' program.constants) : wrapping.kind.Supplied program index := by
  obtain ⟨hconstant, hnone⟩ := Lowering.constant?_of_addConstant? h hgrow
  cases wrapping with
  | simple | table | subst => trivial
  | group => exact .inl (hnone rfl)
  | named name => exact .inr ⟨name, hconstant⟩
  | fold f | function f | query f | template f | matchTime f => exact ⟨f, hconstant⟩

end

/-! ## Captures around blocks -/

namespace Block

/-- The instructions that a capture puts around a block or behind it. -/
inductive Encloses (kind : CaptureKind) (index : Nat) : Instr → Prop where
  | full {length : Nat} (hle : length ≤ maxCaptureBack) :
      Encloses kind index (.fullCapture kind length index)
  | opened : Encloses kind index (.openCapture kind 0 index)
  | closed : Encloses kind index .closeCapture
  | closedMatchTime (hkind : kind = .matchTime) : Encloses kind index .closeMatchTime

theorem madeOf_enclose (kind : CaptureKind) (index : Nat) (body : Block) :
    ∃ around : List Instr, (∀ instr ∈ around, Encloses kind index instr) ∧
      MadeOf (body :: around.map fun instr => [instr]) (enclose kind index body) := by
  have between : ∀ first last : Instr, MadeOf (body :: [first, last].map fun instr => [instr])
      (first :: (body ++ [last])) := fun first last =>
    .append (a := [first]) (.piece (by simp)) (.append (.piece (by simp)) (.piece (by simp)))
  rw [enclose]
  split
  · next hkind =>
    exact ⟨_, List.forall_mem_cons.2
      ⟨.opened, List.forall_mem_singleton.2 (.closedMatchTime hkind)⟩, between _ _⟩
  · split
    · next length hlength =>
      rw [fixedLength?] at hlength
      split at hlength
      · next hchecks =>
        cases hlength
        rw [Bool.and_eq_true, decide_eq_true_eq] at hchecks
        exact ⟨[.fullCapture kind (width body) index],
          List.forall_mem_singleton.2 (.full hchecks.2),
          .append (.piece (by simp)) (.piece (by simp))⟩
      · cases hlength
    · exact ⟨_, List.forall_mem_cons.2 ⟨.opened, List.forall_mem_singleton.2 .closed⟩,
        between _ _⟩

end Block

/-! ## Pieces -/

namespace Pattern

/-- The instructions, other than glue, that lowering a pattern adds to the code of its parts. All of
them record captures or run matchers. -/
inductive Adds : Pattern → Instr → Prop where
  | capture {wrapping : Wrapping} {a : Pattern} {index : Nat} {instr : Instr}
      (h : Block.Encloses wrapping.kind index instr) : Adds (.capture wrapping a) instr
  | position : Adds .position (.emptyCapture .position 0)
  | const {values : List Value} {index : Nat} :
      Adds (.const values) (.emptyCaptureConst .const index)
  | argument {n : Nat} : Adds (.argument n) (.emptyCapture .argument n)
  | backref {name : String} {index : Nat} :
      Adds (.backref name) (.emptyCaptureConst .backref index)
  | matcher {f : Matcher} {index : Nat} : Adds (.matcher f) (.matcher index)

theorem Adds.records {p : Pattern} {instr : Instr} (h : p.Adds instr) : instr.records = true := by
  cases h with
  | capture h => cases h <;> rfl
  | _ => rfl

/-- The code of a part of a pattern, or what lowering the pattern in a scope adds of its own: an
instruction that records, the call of a rule, or the code of a grammar. The constants are those of
a program. -/
inductive Piece (program : Program) (scope : Option Scope) : Pattern → Block → Prop where
  | part {p a : Pattern} {s s' : Array Constant} {code : Block} (h : a ∈ p.parts)
      (hlower : lower scope a s = .ok (code, s')) (hgrow : ConstantsGrow s' program.constants) :
      Piece program scope p code
  | own {p : Pattern} {instr : Instr} (hadds : p.Adds instr) (hproper : instr.Proper program) :
      Piece program scope p [instr]
  | rule {key : RuleKey} {around : Scope} {place : Nat} (hscope : scope = some around)
      (hplace : around.table.index? key = some place) :
      Piece program scope (.rule key) [.openCall place]
  | grammar {start : RuleKey} {rules : List (RuleKey × Pattern)} {table : RuleTable}
      {s s' : Array Constant} {codes : List Block} {code : Block}
      (htable : RuleTable.ofRules start rules = .ok table)
      (hcodes : lowerRules table rules s = .ok (codes, s'))
      (hgrow : ConstantsGrow s' program.constants) (hlink : link table.startIndex codes = .ok code) :
      Piece program scope (.grammar start rules) code

variable {program : Program} {scope : Option Scope} {s s' : Array Constant} {code : Block}
  {p : Pattern}

theorem proper_constCaptures {values : List Value}
    (h : (values.mapM Lowering.constCapture : Lowering Block) s = .ok (code, s'))
    (hgrow : ConstantsGrow s' program.constants) :
    ∀ instr ∈ code, (∃ index, instr = .emptyCaptureConst .const index) ∧ instr.Proper program := by
  induction values generalizing s code with
  | nil =>
    obtain ⟨rfl, -⟩ := Lowering.constCaptures_nil.1 h
    exact nofun
  | cons value rest ih =>
    obtain ⟨more, hmore, rfl⟩ := Lowering.constCaptures_cons.1 h
    have hconstant := Program.constant?_of_constantsGrow
      ((constantsGrow_constCaptures hmore).trans hgrow)
    exact List.forall_mem_cons.2 ⟨⟨⟨_, rfl⟩, value, hconstant⟩, ih hmore⟩

theorem madeOf_own (h : ∀ instr ∈ code, p.Adds instr ∧ instr.Proper program) :
    ∃ pieces, MadeOf pieces code ∧ ∀ piece ∈ pieces, Piece program scope p piece := by
  refine ⟨code.map fun instr => [instr], ?_, fun piece hpiece => ?_⟩
  · have hflat : MadeOf (code.map fun instr => [instr])
        (code.map fun instr => [instr]).flatten := .flatten fun block hblock => .piece hblock
    simpa [← List.flatMap_def] using hflat
  · obtain ⟨instr, hmem, rfl⟩ := List.mem_map.1 hpiece
    exact .own (h instr hmem).1 (h instr hmem).2

/-- **The code of a pattern is made of its pieces.** -/
theorem madeOf_lower (h : lower scope p s = .ok (code, s'))
    (hgrow : ConstantsGrow s' program.constants) :
    ∃ pieces, MadeOf pieces code ∧ ∀ piece ∈ pieces, Piece program scope p piece := by
  cases p with
  | any n => exact ⟨[], madeOf_any (lower_any.1 h).1, nofun⟩
  | literal bytes =>
    obtain ⟨rfl, -⟩ := lower_literal.1 h
    exact ⟨[], .of_checks (all_isCheck_ofBytes _), nofun⟩
  | set bytes =>
    obtain ⟨rfl, -⟩ := lower_set.1 h
    exact ⟨[], madeOf_ofSet bytes, nofun⟩
  | fail =>
    obtain ⟨rfl, -⟩ := lower_fail.1 h
    exact ⟨[], .glue rfl rfl, nofun⟩
  | succeed =>
    obtain ⟨rfl, -⟩ := lower_succeed.1 h
    exact ⟨[], .nil, nofun⟩
  | seq a b =>
    obtain ⟨codeA, mid, codeB, ha, hb, hcode⟩ := lower_seq.1 h
    exact ⟨_, madeOf_sequence hcode, List.forall_mem_cons.2
      ⟨.part (.head _) ha ((constants_lower hb).trans hgrow),
        List.forall_mem_singleton.2 (.part (.tail _ (.head _)) hb hgrow)⟩⟩
  | choice a b =>
    obtain ⟨codeA, mid, codeB, ha, hb, hcode⟩ := lower_choice.1 h
    exact ⟨_, madeOf_choice hcode, List.forall_mem_cons.2
      ⟨.part (.head _) ha ((constants_lower hb).trans hgrow),
        List.forall_mem_singleton.2 (.part (.tail _ (.head _)) hb hgrow)⟩⟩
  | diff a b =>
    obtain ⟨codeA, mid, codeB, ha, hb, hcode⟩ := lower_diff.1 h
    exact ⟨_, madeOf_difference hcode, List.forall_mem_cons.2
      ⟨.part (.head _) ha ((constants_lower hb).trans hgrow),
        List.forall_mem_singleton.2 (.part (.tail _ (.head _)) hb hgrow)⟩⟩
  | not a =>
    obtain ⟨codeA, ha, hcode⟩ := lower_not.1 h
    refine ⟨[codeA], (madeOf_difference hcode).bind ?_,
      List.forall_mem_singleton.2 (.part (.head _) ha hgrow)⟩
    exact List.forall_mem_cons.2 ⟨.nil, List.forall_mem_singleton.2 (.piece (.head _))⟩
  | and a =>
    obtain ⟨codeA, ha, hcode⟩ := lower_and.1 h
    exact ⟨_, madeOf_lookahead hcode,
      List.forall_mem_singleton.2 (.part (.head _) ha hgrow)⟩
  | rep a n =>
    obtain ⟨-, codeA, ha, hcode⟩ := lower_rep.1 h
    exact ⟨_, madeOf_repetition hcode,
      List.forall_mem_singleton.2 (.part (.head _) ha hgrow)⟩
  | capture wrapping a =>
    obtain ⟨body, mid, index, ha, hindex, rfl⟩ := lower_capture.1 h
    have hmid := Lowering.constantsGrow_addConstant? hindex
    have hsupplied := Wrapping.supplied hindex hgrow
    obtain ⟨around, hencloses, hmade⟩ := madeOf_enclose wrapping.kind index body
    refine ⟨_, hmade, List.forall_mem_cons.2 ⟨.part (.head _) ha (hmid.trans hgrow), ?_⟩⟩
    intro piece hpiece
    obtain ⟨instr, hmem, rfl⟩ := List.mem_map.1 hpiece
    refine .own (.capture (hencloses instr hmem)) ?_
    cases hencloses instr hmem with
    | full hle => exact ⟨hle, hsupplied⟩
    | opened => exact ⟨Nat.zero_le _, hsupplied⟩
    | closed | closedMatchTime => trivial
  | position =>
    obtain ⟨rfl, -⟩ := lower_position.1 h
    exact madeOf_own (List.forall_mem_singleton.2 ⟨.position, trivial⟩)
  | const values =>
    refine madeOf_own fun instr hmem => ?_
    obtain ⟨⟨index, rfl⟩, hproper⟩ := proper_constCaptures (lower_const.1 h) hgrow instr hmem
    exact ⟨.const, hproper⟩
  | argument n =>
    obtain ⟨rfl, -⟩ := lower_argument.1 h
    exact madeOf_own (List.forall_mem_singleton.2 ⟨.argument, trivial⟩)
  | backref name =>
    obtain ⟨rfl, rfl⟩ := lower_backref.1 h
    exact madeOf_own (List.forall_mem_singleton.2
      ⟨.backref, name, Program.constant?_of_constantsGrow hgrow⟩)
  | matcher f =>
    obtain ⟨rfl, rfl⟩ := lower_matcher.1 h
    exact madeOf_own (List.forall_mem_singleton.2
      ⟨.matcher, f, Program.constant?_of_constantsGrow hgrow⟩)
  | rule key =>
    obtain ⟨around, place, hscope, hplace, rfl, -⟩ := lower_rule.1 h
    exact ⟨_, .piece (.head _), List.forall_mem_singleton.2 (.rule hscope hplace)⟩
  | grammar start rules =>
    obtain ⟨table, codes, htable, hcodes, hlink⟩ := lower_grammar.1 h
    exact ⟨_, .piece (.head _),
      List.forall_mem_singleton.2 (.grammar htable hcodes hgrow hlink)⟩

/-! ## Instructions -/

/-- **The instructions of the code of a pattern find their constants**, apart from the open calls of
the rules around it. -/
theorem proper_lower (h : lower scope p s = .ok (code, s'))
    (hgrow : ConstantsGrow s' program.constants) : ∀ instr ∈ code, instr.Proper program ∨
      ∃ around key place, scope = some around ∧ around.table.index? key = some place ∧
        instr = .openCall place := by
  induction p using Pattern.induction_parts generalizing scope s code s' with
  | step p ihParts ihRules =>
    obtain ⟨pieces, hmade, hpieces⟩ := madeOf_lower h hgrow
    refine hmade.forall_mem (fun instr hglue => .inl (Instr.proper_of_isGlue hglue))
      fun piece hpiece => ?_
    cases hpieces piece hpiece with
    | part hpart hlower hgrow => exact ihParts _ hpart hlower hgrow
    | own _ hproper => exact List.forall_mem_singleton.2 (.inl hproper)
    | rule hscope hplace =>
      exact List.forall_mem_singleton.2 (.inr ⟨_, _, _, hscope, hplace, rfl⟩)
    | grammar htable hcodes hgrow hlink =>
      intro instr hmem
      rcases mem_link hlink hmem with ⟨_, rfl⟩ | ⟨_, rfl⟩ | rfl | ⟨⟨body, hbody, hinstr⟩, hclosed⟩
      · exact .inl trivial
      · exact .inl trivial
      · exact .inl trivial
      · obtain ⟨rule, hrule, mid, mid', hlower, hgrow'⟩ := lowerRules_mem hcodes hbody
        rcases ihRules rule hrule hlower (hgrow'.trans hgrow) instr hinstr with
          hproper | ⟨_, _, place, -, -, rfl⟩
        · exact .inl hproper
        · exact absurd rfl (hclosed place)

theorem head_ne_jump_lower (h : lower scope p s = .ok (code, s')) (off : Int) :
    code.head? ≠ some (.jump off) := by
  induction p using Pattern.induction_parts generalizing scope s code s' off with
  | step p ih _ =>
    obtain ⟨pieces, hmade, hpieces⟩ : ∃ pieces, MadeOf pieces code ∧
        ∀ piece ∈ pieces, Piece ⟨#[], s'⟩ scope p piece := madeOf_lower h (.refl s')
    refine hmade.head_ne_jump (fun piece hpiece off hhead => ?_) off
    cases hpieces piece hpiece with
    | part ha hlower _ => exact ih _ ha hlower off hhead
    | own hadds =>
      cases hhead
      cases hadds.records
    | rule => cases hhead
    | grammar _ _ _ hlink =>
      rw [List.head?_eq_getElem?, head_link hlink] at hhead
      cases hhead

end Pattern

end PegMachine
