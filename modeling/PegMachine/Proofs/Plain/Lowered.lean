import PegMachine.Proofs.Lowering.Shape
import PegMachine.Proofs.Plain.Code

/-!
# Plain code of patterns

* `PlainCode`: the plain code of a pattern, from that of its parts.
* `Pattern.hasPlainCode`: **every pattern that can be lowered has plain code.** It needs the same
  constants.
* `Pattern.exists_plain`: so every pattern that compiles has a plain program.
-/

namespace PegMachine

open Block

/-- The plain code of a pattern that stands in a rule of a grammar with the given table or outside of
every grammar. What it refers to are constants of the program. -/
inductive PlainCode (program : Program) : Option RuleTable → Pattern → Block → Prop where
  | any {table : Option RuleTable} (n : Int) : PlainCode program table (.any n) (plainAny n)
  | literal {table : Option RuleTable} (bytes : Bytes) :
      PlainCode program table (.literal bytes) (ofBytes bytes.toList)
  | set {table : Option RuleTable} (bytes : ByteSet) :
      PlainCode program table (.set bytes) (ofSet bytes)
  | fail {table : Option RuleTable} : PlainCode program table .fail [.fail]
  | succeed {table : Option RuleTable} : PlainCode program table .succeed []
  | seq {table : Option RuleTable} {a b : Pattern} {codeA codeB : Block}
      (ha : PlainCode program table a codeA) (hb : PlainCode program table b codeB) :
      PlainCode program table (.seq a b) (codeA ++ codeB)
  | choice {table : Option RuleTable} {a b : Pattern} {codeA codeB : Block}
      (ha : PlainCode program table a codeA) (hb : PlainCode program table b codeB) :
      PlainCode program table (.choice a b) (plainChoice codeA codeB)
  | not {table : Option RuleTable} {a : Pattern} {codeA : Block}
      (ha : PlainCode program table a codeA) :
      PlainCode program table (.not a) (plainDifference [] codeA)
  | and {table : Option RuleTable} {a : Pattern} {codeA : Block}
      (ha : PlainCode program table a codeA) :
      PlainCode program table (.and a) (plainLookahead codeA)
  | rep {table : Option RuleTable} {a : Pattern} {codeA : Block} (n : Int)
      (ha : PlainCode program table a codeA) :
      PlainCode program table (.rep a n) (plainRepetition codeA n)
  | diff {table : Option RuleTable} {a b : Pattern} {codeA codeB : Block}
      (ha : PlainCode program table a codeA) (hb : PlainCode program table b codeB) :
      PlainCode program table (.diff a b) (plainDifference codeA codeB)
  | capture {table : Option RuleTable} {wrapping : Wrapping} {a : Pattern} {body : Block}
      {index : Nat} (ha : PlainCode program table a body)
      (hindex : program.constant? index = wrapping.constant?)
      (hnone : wrapping.constant? = none → index = 0) :
      PlainCode program table (.capture wrapping a) (plainEnclose wrapping.kind index body)
  | position {table : Option RuleTable} :
      PlainCode program table .position [.emptyCapture .position 0]
  | constNil {table : Option RuleTable} : PlainCode program table (.const []) []
  | constCons {table : Option RuleTable} {value : Value} {rest : List Value} {code : Block}
      {index : Nat} (hindex : program.constant? index = some (.value value))
      (hrest : PlainCode program table (.const rest) code) :
      PlainCode program table (.const (value :: rest)) (.emptyCaptureConst .const index :: code)
  | argument {table : Option RuleTable} (n : Nat) :
      PlainCode program table (.argument n) [.emptyCapture .argument n]
  | backref {table : Option RuleTable} {name : String} {index : Nat}
      (hindex : program.constant? index = some (.name name)) :
      PlainCode program table (.backref name) [.emptyCaptureConst .backref index]
  | matcher {table : Option RuleTable} {f : Matcher} {index : Nat}
      (hindex : program.constant? index = some (.matcher f)) :
      PlainCode program table (.matcher f) [.matcher index]
  | rule {table : RuleTable} {key : RuleKey} {place : Nat} (hplace : table.index? key = some place) :
      PlainCode program (some table) (.rule key) [.openCall place]
  /-- The rules of a grammar stand in the scope of its own table. -/
  | grammar {around : Option RuleTable} {start : RuleKey} {rules : List (RuleKey × Pattern)}
      {table : RuleTable} {codes : List Block} (htable : RuleTable.ofRules start rules = .ok table)
      (hlength : codes.length = rules.length)
      (hcodes : ∀ (place : Nat) (rule : RuleKey × Pattern) (code : Block),
        rules[place]? = some rule → codes[place]? = some code →
        PlainCode program (some table) rule.2 code) :
      PlainCode program around (.grammar start rules) (plainLink table.startIndex codes)

namespace Pattern

variable {program : Program} {scope : Option Scope} {s s' : Array Constant} {code : Block}

open Lowering

theorem plainCode_constCaptures {table : Option RuleTable} {values : List Value}
    (h : (values.mapM Lowering.constCapture : Lowering Block) s = .ok (code, s'))
    (hgrow : ConstantsGrow s' program.constants) : PlainCode program table (.const values) code := by
  induction values generalizing s code with
  | nil =>
    obtain ⟨rfl, -⟩ := constCaptures_nil.1 h
    exact .constNil
  | cons value rest ih =>
    obtain ⟨more, hmore, rfl⟩ := constCaptures_cons.1 h
    have hgrow' := (constantsGrow_constCaptures hmore).trans hgrow
    exact .constCons (Program.constant?_of_constantsGrow hgrow') (ih hmore)

/-- Wherever a pattern can be lowered, it has plain code. -/
def HasPlainCode (p : Pattern) : Prop :=
  ∀ {scope : Option Scope} {s s' : Array Constant} {code : Block},
    lower scope p s = .ok (code, s') →
    ∃ plain, lowerPlain scope p s = .ok (plain, s') ∧
      ∀ program : Program, ConstantsGrow s' program.constants →
        PlainCode program (scope.map Scope.table) p plain

theorem HasPlainCode.both {a b : Pattern} {codeA codeB : Block} {mid : Array Constant}
    (hplainA : a.HasPlainCode) (hplainB : b.HasPlainCode)
    (ha : lower scope a s = .ok (codeA, mid)) (hb : lower scope b mid = .ok (codeB, s')) :
    ∃ plainA plainB, (∀ combine : Block → Block → Block, (do
        let plainA ← lowerPlain scope a
        let plainB ← lowerPlain scope b
        return combine plainA plainB : Lowering Block) s = .ok (combine plainA plainB, s')) ∧
      ∀ program : Program, ConstantsGrow s' program.constants →
        PlainCode program (scope.map Scope.table) a plainA ∧
          PlainCode program (scope.map Scope.table) b plainB := by
  obtain ⟨plainA, hlowerA, hA⟩ := hplainA ha
  obtain ⟨plainB, hlowerB, hB⟩ := hplainB hb
  refine ⟨plainA, plainB, fun combine => ?_, fun _ hgrow => ?_⟩
  · exact bind_ok.2 ⟨_, _, hlowerA, bind_ok.2 ⟨_, _, hlowerB, pure_ok.2 ⟨rfl, rfl⟩⟩⟩
  · exact ⟨hA _ ((constants_lower hb).trans hgrow), hB _ hgrow⟩

theorem HasPlainCode.one {a : Pattern} {codeA : Block} (hplain : a.HasPlainCode)
    (ha : lower scope a s = .ok (codeA, s')) :
    ∃ plain, (∀ combine : Block → Block, (do
        return combine (← lowerPlain scope a) : Lowering Block) s = .ok (combine plain, s')) ∧
      ∀ program : Program, ConstantsGrow s' program.constants →
        PlainCode program (scope.map Scope.table) a plain := by
  obtain ⟨plain, hlower, hA⟩ := hplain ha
  exact ⟨plain, fun combine => bind_ok.2 ⟨_, _, hlower, pure_ok.2 ⟨rfl, rfl⟩⟩, hA⟩

theorem HasPlainCode.rules {table : RuleTable} {rules : List (RuleKey × Pattern)}
    {codes : List Block} (hrules : ∀ rule ∈ rules, rule.2.HasPlainCode)
    (h : lowerRules table rules s = .ok (codes, s')) :
    ∃ plains, lowerPlainRules table rules s = .ok (plains, s') ∧ plains.length = rules.length ∧
      ∀ program : Program, ConstantsGrow s' program.constants →
        ∀ (place : Nat) (rule : RuleKey × Pattern) (plain : Block), rules[place]? = some rule →
          plains[place]? = some plain → PlainCode program (some table) rule.2 plain := by
  induction rules generalizing s codes with
  | nil =>
    obtain ⟨rfl, rfl⟩ := lowerRules_nil.1 h
    exact ⟨[], rfl, rfl, fun _ _ => by simp⟩
  | cons first rest ih =>
    rw [List.forall_mem_cons] at hrules
    obtain ⟨code, mid, more, hcode, hmore, rfl⟩ := lowerRules_cons.1 h
    obtain ⟨plain, hplain, hfirst⟩ := hrules.1 hcode
    obtain ⟨plains, hplains, hlength, hrest⟩ := ih hrules.2 hmore
    refine ⟨plain :: plains, ?_, congrArg (· + 1) hlength, fun _ hgrow place rule plain' => ?_⟩
    · exact bind_ok.2 ⟨plain, mid, hplain, bind_ok.2 ⟨plains, s', hplains, pure_ok.2 ⟨rfl, rfl⟩⟩⟩
    · cases place with
      | zero =>
        intro hrule hplain'
        cases hrule
        cases hplain'
        exact hfirst _ ((constantsGrow_lowerRules (fun _ _ => constants_lower) hmore).trans hgrow)
      | succ place =>
        rw [List.getElem?_cons_succ, List.getElem?_cons_succ]
        exact hrest _ hgrow place rule plain'

/-- **Every pattern that can be lowered has plain code.** -/
theorem hasPlainCode (p : Pattern) : p.HasPlainCode := by
  intro scope s s' code h
  induction p using Pattern.induction generalizing scope s code s' with
  | any n => exact ⟨_, pure_ok.2 ⟨rfl, (lower_any.1 h).2⟩, fun _ _ => .any n⟩
  | literal bytes => exact ⟨_, pure_ok.2 ⟨rfl, (lower_literal.1 h).2⟩, fun _ _ => .literal bytes⟩
  | set bytes => exact ⟨_, pure_ok.2 ⟨rfl, (lower_set.1 h).2⟩, fun _ _ => .set bytes⟩
  | fail => exact ⟨_, pure_ok.2 ⟨rfl, (lower_fail.1 h).2⟩, fun _ _ => .fail⟩
  | succeed => exact ⟨_, pure_ok.2 ⟨rfl, (lower_succeed.1 h).2⟩, fun _ _ => .succeed⟩
  | position => exact ⟨_, pure_ok.2 ⟨rfl, (lower_position.1 h).2⟩, fun _ _ => .position⟩
  | argument n => exact ⟨_, pure_ok.2 ⟨rfl, (lower_argument.1 h).2⟩, fun _ _ => .argument n⟩
  | seq a b iha ihb =>
    obtain ⟨codeA, mid, codeB, ha, hb, -⟩ := lower_seq.1 h
    obtain ⟨plainA, plainB, hlower, hparts⟩ := HasPlainCode.both iha ihb ha hb
    exact ⟨_, hlower (· ++ ·), fun _ hgrow => .seq (hparts _ hgrow).1 (hparts _ hgrow).2⟩
  | choice a b iha ihb =>
    obtain ⟨codeA, mid, codeB, ha, hb, -⟩ := lower_choice.1 h
    obtain ⟨plainA, plainB, hlower, hparts⟩ := HasPlainCode.both iha ihb ha hb
    exact ⟨_, hlower plainChoice, fun _ hgrow => .choice (hparts _ hgrow).1 (hparts _ hgrow).2⟩
  | diff a b iha ihb =>
    obtain ⟨codeA, mid, codeB, ha, hb, -⟩ := lower_diff.1 h
    obtain ⟨plainA, plainB, hlower, hparts⟩ := HasPlainCode.both iha ihb ha hb
    exact ⟨_, hlower plainDifference, fun _ hgrow => .diff (hparts _ hgrow).1 (hparts _ hgrow).2⟩
  | not a iha =>
    obtain ⟨codeA, ha, -⟩ := lower_not.1 h
    obtain ⟨plain, hlower, hplain⟩ := HasPlainCode.one iha ha
    exact ⟨_, hlower (plainDifference []), fun _ hgrow => .not (hplain _ hgrow)⟩
  | and a iha =>
    obtain ⟨codeA, ha, -⟩ := lower_and.1 h
    obtain ⟨plain, hlower, hplain⟩ := HasPlainCode.one iha ha
    exact ⟨_, hlower plainLookahead, fun _ hgrow => .and (hplain _ hgrow)⟩
  | rep a n iha =>
    obtain ⟨-, codeA, ha, -⟩ := lower_rep.1 h
    obtain ⟨plain, hlower, hplain⟩ := HasPlainCode.one iha ha
    exact ⟨_, hlower (plainRepetition · n), fun _ hgrow => .rep n (hplain _ hgrow)⟩
  | capture wrapping a iha =>
    obtain ⟨body, mid, index, ha, hindex, -⟩ := lower_capture.1 h
    obtain ⟨plain, hplain, hA⟩ := iha ha
    refine ⟨plainEnclose wrapping.kind index plain, ?_, fun _ hgrow => ?_⟩
    · exact bind_ok.2 ⟨_, _, hplain, bind_ok.2 ⟨_, _, hindex, pure_ok.2 ⟨rfl, rfl⟩⟩⟩
    · obtain ⟨hconstant, hnone⟩ := constant?_of_addConstant? hindex hgrow
      exact .capture (hA _ ((constantsGrow_addConstant? hindex).trans hgrow)) hconstant hnone
  | const values =>
    exact ⟨code, lower_const.1 h, fun _ hgrow => plainCode_constCaptures (lower_const.1 h) hgrow⟩
  | backref name =>
    obtain ⟨-, rfl⟩ := lower_backref.1 h
    refine ⟨[.emptyCaptureConst .backref (s.size + 1)], ?_, fun _ hgrow => ?_⟩
    · exact bind_ok.2 ⟨_, _, addConstant_ok.2 ⟨rfl, rfl⟩, pure_ok.2 ⟨rfl, rfl⟩⟩
    · exact .backref (Program.constant?_of_constantsGrow hgrow)
  | matcher f =>
    obtain ⟨-, rfl⟩ := lower_matcher.1 h
    refine ⟨[.matcher (s.size + 1)], ?_, fun _ hgrow => ?_⟩
    · exact bind_ok.2 ⟨_, _, addConstant_ok.2 ⟨rfl, rfl⟩, pure_ok.2 ⟨rfl, rfl⟩⟩
    · exact .matcher (Program.constant?_of_constantsGrow hgrow)
  | rule key =>
    obtain ⟨around, place, rfl, hplace, rfl, rfl⟩ := lower_rule.1 h
    refine ⟨[.openCall place], ?_, fun _ _ => .rule hplace⟩
    rw [lowerPlain, hplace]
    rfl
  | grammar start rules ih =>
    obtain ⟨table, codes, htable, hcodes, -⟩ := lower_grammar.1 h
    obtain ⟨plains, hplains, hlength, hplain⟩ :=
      HasPlainCode.rules (fun rule hrule _ _ _ _ => ih rule hrule) hcodes
    refine ⟨plainLink table.startIndex plains, ?_, fun _ hgrow => ?_⟩
    · exact bind_ok.2 ⟨table, s, lift_ok.2 ⟨htable, rfl⟩,
        bind_ok.2 ⟨plains, s', hplains, pure_ok.2 ⟨rfl, rfl⟩⟩⟩
    · exact .grammar htable hlength (hplain _ hgrow)

/-- **Every pattern that compiles has a plain program**, with the same constants. -/
theorem exists_plain {p : Pattern} (h : p.lower none #[] = .ok (code, s')) :
    ∃ block, p.plain = .ok ⟨(block ++ [Instr.done, Instr.giveUp]).toArray, s'⟩ ∧
      ∀ program : Program, program.constants = s' → PlainCode program none p block := by
  obtain ⟨block, hblock, hplain⟩ := p.hasPlainCode h
  refine ⟨block, ?_, fun _ hconstants => hplain _ (hconstants ▸ .refl _)⟩
  show (p.lowerPlain none #[] >>= fun found =>
    Except.ok (⟨(found.1 ++ [Instr.done, Instr.giveUp]).toArray, found.2⟩ : Program)) = _
  rw [hblock]
  rfl

end Pattern

end PegMachine
