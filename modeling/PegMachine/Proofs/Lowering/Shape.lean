import PegMachine.Proofs.Blocks.Captures
import PegMachine.Proofs.Blocks.Linking
import PegMachine.Proofs.Blocks.Repetitions
import PegMachine.Proofs.Lowering.Forms
import PegMachine.Proofs.Semantics.Patterns

/-!
# The shape of lowered code

* `Pattern.constants_lower`: lowering only adds constants behind those that are there.
* `Pattern.lowerRules_getElem?`: each rule of a grammar is lowered in the scope of its key.
* `Pattern.Compositional`: the properties of code that pass from the parts of a pattern to the
  pattern. `Pattern.Compositional.lower`: **the code of every pattern has them.**
* `Pattern.contained_lower`: **no jump of the code of a pattern leads out of it.**
-/

namespace PegMachine

/-- The earlier constants keep their numbers. -/
def ConstantsGrow (earlier later : Array Constant) : Prop := earlier.toList <+: later.toList

section

variable {s s' s'' : Array Constant}

theorem ConstantsGrow.refl (s : Array Constant) : ConstantsGrow s s := List.prefix_rfl

theorem ConstantsGrow.trans (h : ConstantsGrow s s') (h' : ConstantsGrow s' s'') :
    ConstantsGrow s s'' :=
  List.IsPrefix.trans h h'

theorem constantsGrow_push (s : Array Constant) (constant : Constant) :
    ConstantsGrow s (s.push constant) := by
  simp [ConstantsGrow]

theorem Program.constant?_of_constantsGrow {program : Program} {constant : Constant}
    (h : ConstantsGrow (s.push constant) program.constants) :
    program.constant? (s.size + 1) = some constant := by
  obtain ⟨rest, hrest⟩ := h
  show program.constants[s.size]? = some constant
  rw [← Array.getElem?_toList, ← hrest]
  simp

theorem Lowering.addConstant?_ok {constant : Option Constant} {index : Nat}
    (h : Lowering.addConstant? constant s = .ok (index, s')) :
    (constant = none ∧ index = 0 ∧ s' = s) ∨
      ∃ c, constant = some c ∧ index = s.size + 1 ∧ s' = s.push c := by
  cases constant with
  | none =>
    obtain ⟨hindex, hs⟩ := Lowering.pure_ok.1 h
    exact .inl ⟨rfl, hindex, hs⟩
  | some c =>
    obtain ⟨hindex, hs⟩ := Lowering.addConstant_ok.1 h
    exact .inr ⟨c, rfl, hindex, hs⟩

theorem Lowering.constantsGrow_addConstant? {constant : Option Constant} {index : Nat}
    (h : addConstant? constant s = .ok (index, s')) : ConstantsGrow s s' := by
  rcases addConstant?_ok h with ⟨-, -, rfl⟩ | ⟨c, -, -, rfl⟩
  · exact .refl s'
  · exact constantsGrow_push s c

theorem Lowering.constant?_of_addConstant? {program : Program} {constant : Option Constant}
    {index : Nat} (h : addConstant? constant s = .ok (index, s'))
    (hgrow : ConstantsGrow s' program.constants) :
    program.constant? index = constant ∧ (constant = none → index = 0) := by
  rcases addConstant?_ok h with ⟨rfl, rfl, rfl⟩ | ⟨found, rfl, rfl, rfl⟩
  · exact ⟨rfl, fun _ => rfl⟩
  · exact ⟨Program.constant?_of_constantsGrow hgrow, by simp⟩

theorem Lowering.constCapture_ok {value : Value} {instr : Instr} :
    Lowering.constCapture value s = .ok (instr, s') ↔
      instr = .emptyCaptureConst .const (s.size + 1) ∧ s' = s.push (.value value) := by
  simp only [Lowering.constCapture, Lowering.bind_ok, Lowering.addConstant_ok, Lowering.pure_ok]
  constructor
  · rintro ⟨_, _, ⟨rfl, rfl⟩, rfl, rfl⟩
    exact ⟨rfl, rfl⟩
  · rintro ⟨rfl, rfl⟩
    exact ⟨_, _, ⟨rfl, rfl⟩, rfl, rfl⟩

theorem Lowering.constCaptures_cons {value : Value} {rest : List Value} {code : Block} :
    ((value :: rest).mapM constCapture : Lowering Block) s = .ok (code, s') ↔
    ∃ more, (rest.mapM constCapture : Lowering Block) (s.push (.value value)) = .ok (more, s') ∧
      code = .emptyCaptureConst .const (s.size + 1) :: more := by
  simp only [List.mapM_cons, bind_ok, constCapture_ok, pure_ok]
  constructor
  · rintro ⟨_, _, ⟨rfl, rfl⟩, more, _, hmore, rfl, rfl⟩
    exact ⟨more, hmore, rfl⟩
  · rintro ⟨more, hmore, rfl⟩
    exact ⟨_, _, ⟨rfl, rfl⟩, more, s', hmore, rfl, rfl⟩

theorem Lowering.constCaptures_nil {code : Block} :
    (([] : List Value).mapM constCapture : Lowering Block) s = .ok (code, s') ↔
      code = [] ∧ s' = s :=
  pure_ok

end

namespace Pattern

variable {scope : Option Scope} {s s' : Array Constant} {code : Block} {p : Pattern}

/-! ## Constants -/

theorem constantsGrow_constCaptures {values : List Value}
    (h : (values.mapM Lowering.constCapture : Lowering Block) s = .ok (code, s')) :
    ConstantsGrow s s' := by
  induction values generalizing s code with
  | nil =>
    obtain ⟨rfl, rfl⟩ := Lowering.constCaptures_nil.1 h
    exact .refl s'
  | cons value rest ih =>
    obtain ⟨more, hmore, rfl⟩ := Lowering.constCaptures_cons.1 h
    exact (constantsGrow_push s _).trans (ih hmore)

theorem constantsGrow_lowerRules {table : RuleTable} {rules : List (RuleKey × Pattern)}
    {codes : List Block}
    (hrules : ∀ rule ∈ rules, ∀ {scope s code s'}, lower scope rule.2 s = .ok (code, s') →
      ConstantsGrow s s')
    (h : lowerRules table rules s = .ok (codes, s')) : ConstantsGrow s s' := by
  induction rules generalizing s codes with
  | nil =>
    obtain ⟨rfl, rfl⟩ := lowerRules_nil.1 h
    exact .refl s'
  | cons rule rest ih =>
    rw [List.forall_mem_cons] at hrules
    obtain ⟨code, mid, more, hcode, hmore, rfl⟩ := lowerRules_cons.1 h
    exact (hrules.1 hcode).trans (ih hrules.2 hmore)

/-- Lowering only adds constants behind those that are there. -/
theorem constants_lower (h : lower scope p s = .ok (code, s')) : ConstantsGrow s s' := by
  induction p using Pattern.induction generalizing scope s code s' with
  | any => exact (lower_any.1 h).2 ▸ .refl s
  | literal => exact (lower_literal.1 h).2 ▸ .refl s
  | set => exact (lower_set.1 h).2 ▸ .refl s
  | fail => exact (lower_fail.1 h).2 ▸ .refl s
  | succeed => exact (lower_succeed.1 h).2 ▸ .refl s
  | position => exact (lower_position.1 h).2 ▸ .refl s
  | argument => exact (lower_argument.1 h).2 ▸ .refl s
  | seq a b iha ihb | choice a b iha ihb | diff a b iha ihb =>
    obtain ⟨codeA, mid, codeB, ha, hb, -⟩ := (lower_both _).1 h
    exact (iha ha).trans (ihb hb)
  | not a iha | and a iha =>
    obtain ⟨codeA, ha, -⟩ := (lower_one _).1 h
    exact iha ha
  | rep a n iha =>
    obtain ⟨-, codeA, ha, -⟩ := lower_rep.1 h
    exact iha ha
  | capture wrapping a iha =>
    obtain ⟨body, mid, index, ha, hindex, -⟩ := lower_capture.1 h
    exact (iha ha).trans (Lowering.constantsGrow_addConstant? hindex)
  | const values => exact constantsGrow_constCaptures (lower_const.1 h)
  | backref name =>
    obtain ⟨-, rfl⟩ := lower_backref.1 h
    exact constantsGrow_push s _
  | matcher f =>
    obtain ⟨-, rfl⟩ := lower_matcher.1 h
    exact constantsGrow_push s _
  | rule key =>
    obtain ⟨around, place, -, -, -, rfl⟩ := lower_rule.1 h
    exact .refl s'
  | grammar start rules ih =>
    obtain ⟨table, codes, -, hcodes, -⟩ := lower_grammar.1 h
    exact constantsGrow_lowerRules (fun rule hrule => ih rule hrule) hcodes

/-! ## Rules -/

/-- Each rule of a grammar is lowered in the scope of its key. -/
theorem lowerRules_getElem? {table : RuleTable} {rules : List (RuleKey × Pattern)}
    {codes : List Block} {place : Nat} {rule : RuleKey × Pattern}
    (h : lowerRules table rules s = .ok (codes, s')) (hrule : rules[place]? = some rule) :
    ∃ code mid mid', codes[place]? = some code ∧
      lower (some ⟨table, rule.1⟩) rule.2 mid = .ok (code, mid') ∧ ConstantsGrow mid' s' := by
  induction rules generalizing s codes place with
  | nil => simp at hrule
  | cons first rest ih =>
    obtain ⟨code, mid, more, hcode, hmore, rfl⟩ := lowerRules_cons.1 h
    cases place with
    | zero =>
      cases hrule
      refine ⟨code, s, mid, rfl, hcode, ?_⟩
      exact constantsGrow_lowerRules (fun _ _ => constants_lower) hmore
    | succ place =>
      rw [List.getElem?_cons_succ] at hrule
      obtain ⟨body, start, stop, hbody, found⟩ := ih hmore hrule
      exact ⟨body, start, stop, by simpa using hbody, found⟩

theorem lowerRules_mem {table : RuleTable} {rules : List (RuleKey × Pattern)} {codes : List Block}
    (h : lowerRules table rules s = .ok (codes, s')) (hcode : code ∈ codes) :
    ∃ rule ∈ rules, ∃ mid mid', lower (some ⟨table, rule.1⟩) rule.2 mid = .ok (code, mid') ∧
      ConstantsGrow mid' s' := by
  induction rules generalizing s codes with
  | nil =>
    obtain ⟨rfl, -⟩ := lowerRules_nil.1 h
    simp at hcode
  | cons first rest ih =>
    obtain ⟨head, mid, more, hhead, hmore, rfl⟩ := lowerRules_cons.1 h
    rcases List.mem_cons.1 hcode with rfl | hmem
    · exact ⟨first, by simp, s, mid, hhead,
        constantsGrow_lowerRules (fun _ _ => constants_lower) hmore⟩
    · obtain ⟨rule, hrule, found⟩ := ih hmore hmem
      exact ⟨rule, by simp [hrule], found⟩

theorem length_lowerRules {table : RuleTable} {rules : List (RuleKey × Pattern)}
    {codes : List Block} (h : lowerRules table rules s = .ok (codes, s')) :
    codes.length = rules.length := by
  induction rules generalizing s codes with
  | nil =>
    obtain ⟨rfl, -⟩ := lowerRules_nil.1 h
    rfl
  | cons first rest ih =>
    obtain ⟨head, mid, more, -, hmore, rfl⟩ := lowerRules_cons.1 h
    exact congrArg (· + 1) (ih hmore)

/-! ## What passes from the parts to the whole -/

open Block

/-- A property of blocks is compositional if the code of a pattern has it where the code of its
parts does. The body of a repetition and the rules of a grammar are known to be lowered patterns
themselves. -/
structure Compositional (P : Block → Prop) : Prop where
  nil : P []
  fail : P [.fail]
  emptyCapture : ∀ kind index, P [.emptyCapture kind index]
  emptyCaptureConst : ∀ kind index, P [.emptyCaptureConst kind index]
  matcher : ∀ index, P [.matcher index]
  openCall : ∀ rule, P [.openCall rule]
  ofBytes : ∀ bytes, P (Block.ofBytes bytes)
  ofSet : ∀ bytes, P (Block.ofSet bytes)
  append : ∀ {a b}, P a → P b → P (a ++ b)
  enclose : ∀ kind index {body}, P body → P (Block.enclose kind index body)
  any : ∀ {n code}, Block.any n = .ok code → P code
  sequence : ∀ {a b code}, Block.sequence a b = .ok code → P a → P b → P code
  choice : ∀ {a b code}, Block.choice a b = .ok code → P a → P b → P code
  difference : ∀ {a b code}, Block.difference a b = .ok code → P a → P b → P code
  lookahead : ∀ {a code}, Block.lookahead a = .ok code → P a → P code
  repetition : ∀ {scope p s s' body n code}, lower scope p s = .ok (body, s') →
    Block.repetition body n = .ok code → P body → P code
  link : ∀ {start rules table s s' codes code}, RuleTable.ofRules start rules = .ok table →
    lowerRules table rules s = .ok (codes, s') → link table.startIndex codes = .ok code →
    (∀ body ∈ codes, P body) → P code

namespace Compositional

variable {P : Block → Prop} (hP : Compositional P)

include hP

theorem constCaptures {values : List Value}
    (h : (values.mapM Lowering.constCapture : Lowering Block) s = .ok (code, s')) : P code := by
  induction values generalizing s code with
  | nil =>
    obtain ⟨rfl, -⟩ := Lowering.constCaptures_nil.1 h
    exact hP.nil
  | cons value rest ih =>
    obtain ⟨more, hmore, rfl⟩ := Lowering.constCaptures_cons.1 h
    exact hP.append (hP.emptyCaptureConst _ _) (ih hmore)

/-- **The code of every pattern has a property that is compositional.** -/
theorem lower (h : lower scope p s = .ok (code, s')) : P code := by
  induction p using Pattern.induction generalizing scope s code s' with
  | any n => exact hP.any (lower_any.1 h).1
  | literal bytes =>
    obtain ⟨rfl, -⟩ := lower_literal.1 h
    exact hP.ofBytes _
  | set bytes =>
    obtain ⟨rfl, -⟩ := lower_set.1 h
    exact hP.ofSet bytes
  | fail =>
    obtain ⟨rfl, -⟩ := lower_fail.1 h
    exact hP.fail
  | succeed =>
    obtain ⟨rfl, -⟩ := lower_succeed.1 h
    exact hP.nil
  | seq a b iha ihb =>
    obtain ⟨codeA, mid, codeB, ha, hb, hcode⟩ := lower_seq.1 h
    exact hP.sequence hcode (iha ha) (ihb hb)
  | choice a b iha ihb =>
    obtain ⟨codeA, mid, codeB, ha, hb, hcode⟩ := lower_choice.1 h
    exact hP.choice hcode (iha ha) (ihb hb)
  | diff a b iha ihb =>
    obtain ⟨codeA, mid, codeB, ha, hb, hcode⟩ := lower_diff.1 h
    exact hP.difference hcode (iha ha) (ihb hb)
  | not a iha =>
    -- a negative lookahead is what is left of the empty block
    obtain ⟨codeA, ha, hcode⟩ := lower_not.1 h
    exact hP.difference hcode hP.nil (iha ha)
  | and a iha =>
    obtain ⟨codeA, ha, hcode⟩ := lower_and.1 h
    exact hP.lookahead hcode (iha ha)
  | rep a n iha =>
    obtain ⟨-, codeA, ha, hcode⟩ := lower_rep.1 h
    exact hP.repetition ha hcode (iha ha)
  | capture wrapping a iha =>
    obtain ⟨body, mid, index, ha, -, rfl⟩ := lower_capture.1 h
    exact hP.enclose _ _ (iha ha)
  | position =>
    obtain ⟨rfl, -⟩ := lower_position.1 h
    exact hP.emptyCapture _ _
  | const values => exact hP.constCaptures (lower_const.1 h)
  | argument n =>
    obtain ⟨rfl, -⟩ := lower_argument.1 h
    exact hP.emptyCapture _ _
  | backref name =>
    obtain ⟨rfl, -⟩ := lower_backref.1 h
    exact hP.emptyCaptureConst _ _
  | matcher f =>
    obtain ⟨rfl, -⟩ := lower_matcher.1 h
    exact hP.matcher _
  | rule key =>
    obtain ⟨around, place, -, -, rfl, -⟩ := lower_rule.1 h
    exact hP.openCall place
  | grammar start rules ih =>
    obtain ⟨table, codes, htable, hcodes, hlink⟩ := lower_grammar.1 h
    refine hP.link htable hcodes hlink fun body hbody => ?_
    obtain ⟨rule, hrule, mid, mid', hlower, -⟩ := lowerRules_mem hcodes hbody
    exact ih rule hrule hlower

end Compositional

/-! ## Jumps -/

theorem contained_single {instr : Instr} (h : instr.offset? = none) : Contained [instr] :=
  contained_of_offset?_eq_none (by simp [h])

theorem compositional_contained : Compositional Contained where
  nil := contained_nil
  fail := contained_fail
  emptyCapture _ _ := contained_single rfl
  emptyCaptureConst _ _ := contained_single rfl
  matcher _ := contained_single rfl
  openCall _ := contained_single rfl
  ofBytes _ := contained_of_checks (all_isCheck_ofBytes _)
  ofSet := contained_ofSet
  append := contained_append
  enclose _ _ _ hbody := contained_enclose _ _ hbody
  any := contained_any
  sequence := contained_sequence
  choice := contained_choice
  difference := contained_difference
  lookahead := contained_lookahead
  repetition _ := contained_repetition
  link _ _ := contained_link

/-- **No jump of the code of a pattern leads out of it.** -/
theorem contained_lower (h : lower scope p s = .ok (code, s')) : Contained code :=
  compositional_contained.lower h

theorem contained_lowerRules {table : RuleTable} {rules : List (RuleKey × Pattern)}
    {codes : List Block} (h : lowerRules table rules s = .ok (codes, s')) :
    ∀ body ∈ codes, Contained body := by
  intro body hbody
  obtain ⟨_, _, _, _, hlower, -⟩ := lowerRules_mem h hbody
  exact contained_lower hlower

end Pattern

end PegMachine
