import PegMachine.Compile

/-!
# What lowering is made of

* `Lowering.bind_ok`, `Lowering.lift_ok`, `Lowering.pure_ok`: a successful lowering, taken apart.
* `Pattern.lower_seq` and so on: the parts of the code of a pattern and how they are combined.
* `Pattern.compile_ok`: a program and the block that it was made of.
-/

namespace PegMachine

namespace Lowering

variable {α β : Type} {s s' : Array Constant}

theorem bind_ok {x : Lowering α} {f : α → Lowering β} {b : β} :
    (x >>= f) s = .ok (b, s') ↔ ∃ a mid, x s = .ok (a, mid) ∧ f a mid = .ok (b, s') := by
  show (StateT.bind x f) s = _ ↔ _
  simp only [StateT.bind, bind, Except.bind]
  cases x s with
  | error fault => simp
  | ok found =>
    refine ⟨fun h => ⟨found.1, found.2, rfl, h⟩, ?_⟩
    rintro ⟨a, mid, hx, h⟩
    cases hx
    exact h

theorem lift_ok {x : Except Fault α} {a : α} :
    (liftM x : Lowering α) s = .ok (a, s') ↔ x = .ok a ∧ s' = s := by
  cases x with
  | error fault => simp [liftM, monadLift, MonadLift.monadLift, StateT.lift, bind, Except.bind]
  | ok found =>
    simp [liftM, monadLift, MonadLift.monadLift, StateT.lift, bind, Except.bind, pure, Except.pure,
      eq_comm]

theorem pure_ok {a b : α} : (pure a : Lowering α) s = .ok (b, s') ↔ b = a ∧ s' = s := by
  show (Except.ok (a, s) : Except Fault _) = .ok (b, s') ↔ _
  simp [eq_comm]

theorem addConstant_ok {constant : Constant} {index : Nat} :
    addConstant constant s = .ok (index, s') ↔ index = s.size + 1 ∧ s' = s.push constant := by
  simp [addConstant, eq_comm]

end Lowering

namespace Pattern

variable {scope : Option Scope} {s s' : Array Constant} {a b : Pattern} {code : Block}

open Lowering

/-! ## Patterns without parts -/

theorem lower_any {n : Int} :
    lower scope (.any n) s = .ok (code, s') ↔ Block.any n = .ok code ∧ s' = s :=
  lift_ok (x := Block.any n)

theorem lower_literal {bytes : Bytes} :
    lower scope (.literal bytes) s = .ok (code, s') ↔
      code = Block.ofBytes bytes.toList ∧ s' = s :=
  pure_ok (a := Block.ofBytes bytes.toList)

theorem lower_set {bytes : ByteSet} :
    lower scope (.set bytes) s = .ok (code, s') ↔ code = Block.ofSet bytes ∧ s' = s :=
  pure_ok (a := Block.ofSet bytes)

theorem lower_fail : lower scope .fail s = .ok (code, s') ↔ code = [.fail] ∧ s' = s :=
  pure_ok (a := [Instr.fail])

theorem lower_succeed : lower scope .succeed s = .ok (code, s') ↔ code = [] ∧ s' = s :=
  pure_ok (a := ([] : Block))

theorem lower_position :
    lower scope .position s = .ok (code, s') ↔ code = [.emptyCapture .position 0] ∧ s' = s :=
  pure_ok (a := [Instr.emptyCapture .position 0])

theorem lower_const {values : List Value} : lower scope (.const values) s = .ok (code, s') ↔
    (values.mapM Lowering.constCapture : Lowering Block) s = .ok (code, s') :=
  Iff.rfl

theorem lower_argument {n : Nat} : lower scope (.argument n) s = .ok (code, s') ↔
    code = [.emptyCapture .argument n] ∧ s' = s :=
  pure_ok (a := [Instr.emptyCapture .argument n])

theorem lower_backref {name : String} : lower scope (.backref name) s = .ok (code, s') ↔
    code = [.emptyCaptureConst .backref (s.size + 1)] ∧ s' = s.push (.name name) :=
  pure_ok (a := [Instr.emptyCaptureConst .backref (s.size + 1)]) (s := s.push (.name name))

theorem lower_matcher {f : Matcher} : lower scope (.matcher f) s = .ok (code, s') ↔
    code = [.matcher (s.size + 1)] ∧ s' = s.push (.matcher f) :=
  pure_ok (a := [Instr.matcher (s.size + 1)]) (s := s.push (.matcher f))

theorem lower_rule {key : RuleKey} : lower scope (.rule key) s = .ok (code, s') ↔
    ∃ around place, scope = some around ∧ around.table.index? key = some place ∧
      code = [.openCall place] ∧ s' = s := by
  cases scope with
  | none => exact ⟨nofun, nofun⟩
  | some around =>
    unfold lower
    dsimp only
    cases hplace : around.table.index? key with
    | none =>
      refine ⟨nofun, ?_⟩
      rintro ⟨_, place, ⟨⟩, hfound, -⟩
      rw [hplace] at hfound
      cases hfound
    | some place =>
      refine pure_ok.trans ⟨fun ⟨hcode, hs⟩ => ⟨around, place, rfl, hplace, hcode, hs⟩, ?_⟩
      rintro ⟨_, found, ⟨⟩, hfound, hcode, hs⟩
      rw [hplace] at hfound
      cases hfound
      exact ⟨hcode, hs⟩

/-! ## Patterns with parts -/

theorem lower_both (combine : Block → Block → Except Fault Block) :
    (do
      let codeA ← lower scope a
      let codeB ← lower scope b
      combine codeA codeB : Lowering Block) s = .ok (code, s') ↔
    ∃ codeA mid codeB, lower scope a s = .ok (codeA, mid) ∧
      lower scope b mid = .ok (codeB, s') ∧ combine codeA codeB = .ok code := by
  simp only [bind_ok, lift_ok]
  constructor
  · rintro ⟨codeA, mid, ha, codeB, mid', hb, hcode, rfl⟩
    exact ⟨codeA, mid, codeB, ha, hb, hcode⟩
  · rintro ⟨codeA, mid, codeB, ha, hb, hcode⟩
    exact ⟨codeA, mid, ha, codeB, s', hb, hcode, rfl⟩

theorem lower_one (combine : Block → Except Fault Block) :
    (do combine (← lower scope a) : Lowering Block) s = .ok (code, s') ↔
    ∃ codeA, lower scope a s = .ok (codeA, s') ∧ combine codeA = .ok code := by
  simp only [bind_ok, lift_ok]
  constructor
  · rintro ⟨codeA, mid, ha, hcode, rfl⟩
    exact ⟨codeA, ha, hcode⟩
  · rintro ⟨codeA, ha, hcode⟩
    exact ⟨codeA, s', ha, hcode, rfl⟩

theorem lower_seq : lower scope (.seq a b) s = .ok (code, s') ↔
    ∃ codeA mid codeB, lower scope a s = .ok (codeA, mid) ∧
      lower scope b mid = .ok (codeB, s') ∧ Block.sequence codeA codeB = .ok code :=
  lower_both Block.sequence

theorem lower_choice : lower scope (.choice a b) s = .ok (code, s') ↔
    ∃ codeA mid codeB, lower scope a s = .ok (codeA, mid) ∧
      lower scope b mid = .ok (codeB, s') ∧ Block.choice codeA codeB = .ok code :=
  lower_both Block.choice

theorem lower_diff : lower scope (.diff a b) s = .ok (code, s') ↔
    ∃ codeA mid codeB, lower scope a s = .ok (codeA, mid) ∧
      lower scope b mid = .ok (codeB, s') ∧ Block.difference codeA codeB = .ok code :=
  lower_both Block.difference

theorem lower_not : lower scope (.not a) s = .ok (code, s') ↔
    ∃ codeA, lower scope a s = .ok (codeA, s') ∧ Block.difference [] codeA = .ok code :=
  lower_one (Block.difference [])

theorem lower_and : lower scope (.and a) s = .ok (code, s') ↔
    ∃ codeA, lower scope a s = .ok (codeA, s') ∧ Block.lookahead codeA = .ok code :=
  lower_one Block.lookahead

theorem checkLoop_ok :
    checkLoop scope a = .ok () ↔ nullable (Scope.nullableRules scope) a = false := by
  simp only [checkLoop]
  split
  · split <;> simp_all
  · simp_all

theorem lower_rep {n : Int} : lower scope (.rep a n) s = .ok (code, s') ↔
    (0 ≤ n → nullable (Scope.nullableRules scope) a = false) ∧
      ∃ codeA, lower scope a s = .ok (codeA, s') ∧ Block.repetition codeA n = .ok code := by
  change (do
    if 0 ≤ n then
      checkLoop scope a
    Block.repetition (← lower scope a) n : Lowering Block) s = _ ↔ _
  by_cases hn : 0 ≤ n
  · rw [if_pos hn, bind_ok]
    constructor
    · rintro ⟨⟨⟩, mid, hcheck, h⟩
      obtain ⟨hloop, rfl⟩ := lift_ok.1 hcheck
      exact ⟨fun _ => checkLoop_ok.1 hloop, (lower_one _).1 h⟩
    · rintro ⟨hloop, h⟩
      exact ⟨(), s, lift_ok.2 ⟨checkLoop_ok.2 (hloop hn), rfl⟩, (lower_one _).2 h⟩
  · rw [if_neg hn]
    exact (lower_one _).trans ⟨fun h => ⟨fun hn' => absurd hn' hn, h⟩, fun h => h.2⟩

theorem lower_capture {wrapping : Wrapping} : lower scope (.capture wrapping a) s = .ok (code, s') ↔
    ∃ body mid index, lower scope a s = .ok (body, mid) ∧
      addConstant? wrapping.constant? mid = .ok (index, s') ∧
      code = Block.enclose wrapping.kind index body := by
  change (do
    let body ← lower scope a
    let index ← addConstant? wrapping.constant?
    return Block.enclose wrapping.kind index body : Lowering Block) s = _ ↔ _
  simp only [bind_ok, pure_ok]
  constructor
  · rintro ⟨body, mid, ha, index, mid', hindex, rfl, rfl⟩
    exact ⟨body, mid, index, ha, hindex, rfl⟩
  · rintro ⟨body, mid, index, ha, hindex, rfl⟩
    exact ⟨body, mid, ha, index, s', hindex, rfl, rfl⟩

/-! ## Grammars -/

theorem lower_grammar {start : RuleKey} {rules : List (RuleKey × Pattern)} :
    lower scope (.grammar start rules) s = .ok (code, s') ↔
    ∃ table codes, RuleTable.ofRules start rules = .ok table ∧
      lowerRules table rules s = .ok (codes, s') ∧ link table.startIndex codes = .ok code := by
  change (do
    let table ← RuleTable.ofRules start rules
    link table.startIndex (← lowerRules table rules) : Lowering Block) s = _ ↔ _
  simp only [bind_ok, lift_ok]
  constructor
  · rintro ⟨table, _, ⟨htable, rfl⟩, codes, mid, hcodes, hlink, rfl⟩
    exact ⟨table, codes, htable, hcodes, hlink⟩
  · rintro ⟨table, codes, htable, hcodes, hlink⟩
    exact ⟨table, s, ⟨htable, rfl⟩, codes, s', hcodes, hlink, rfl⟩

theorem lowerRules_nil {table : RuleTable} {codes : List Block} :
    lowerRules table [] s = .ok (codes, s') ↔ codes = [] ∧ s' = s :=
  pure_ok (a := ([] : List Block))

theorem lowerRules_cons {table : RuleTable} {rule : RuleKey × Pattern}
    {rest : List (RuleKey × Pattern)} {codes : List Block} :
    lowerRules table (rule :: rest) s = .ok (codes, s') ↔
    ∃ code mid more, lower (some ⟨table, rule.1⟩) rule.2 s = .ok (code, mid) ∧
      lowerRules table rest mid = .ok (more, s') ∧ codes = code :: more := by
  obtain ⟨key, body⟩ := rule
  change (do
    let code ← lower (some ⟨table, key⟩) body
    let more ← lowerRules table rest
    return code :: more : Lowering (List Block)) s = _ ↔ _
  simp only [bind_ok, pure_ok]
  constructor
  · rintro ⟨code, mid, hcode, more, mid', hmore, rfl, rfl⟩
    exact ⟨code, mid, more, hcode, hmore, rfl⟩
  · rintro ⟨code, mid, more, hcode, hmore, rfl⟩
    exact ⟨code, mid, hcode, more, s', hmore, rfl, rfl⟩

/-! ## Programs -/

theorem compile_ok {p : Pattern} {program : Program} : p.compile = .ok program ↔
    ∃ block constants, lower none p #[] = .ok (block, constants) ∧
      Program.ofBlock block constants = .ok program := by
  change (lower none p #[] >>= fun found => Program.ofBlock found.1 found.2) = _ ↔ _
  cases lower none p #[] with
  | error fault => exact ⟨nofun, nofun⟩
  | ok found =>
    refine ⟨fun h => ⟨found.1, found.2, rfl, h⟩, ?_⟩
    rintro ⟨block, constants, hfound, h⟩
    cases hfound
    exact h

end Pattern

end PegMachine
