import PegMachine.Proofs.Grammars.Nullable
import PegMachine.Proofs.Lowering.Shape

/-!
# The patterns that compile

* `Pattern.tabled_of_lower`, `Pattern.wellFormedIn_of_lower`: what has code is well formed.
* `OnlyTooBig`: a computation that nothing but a jump that is too long can stop.
* `Pattern.onlyTooBig_lower`: a well-formed pattern has code unless a jump gets too long.
* **`Pattern.compile_iff_wellFormed`**: the patterns that compile are the well-formed ones, except
  for those that are too big.
-/

namespace PegMachine

/-! ## What has code is well formed -/

/-- A scope and the rules that it stands for. -/
inductive Scope.Among : Option Scope → Option Rules → Prop where
  | outside : Among none none
  | inside {start key : RuleKey} {rules : Rules} {table : RuleTable}
      (haccepts : RuleTable.Accepts start rules table)
      (htabled : ∀ rule ∈ rules, rule.2.Tabled) : Among (some ⟨table, key⟩) (some rules)

theorem Scope.Among.findsEmpty {scope : Option Scope} {around : Option Rules}
    (h : Among scope around) : FindsEmpty (around.getD []) (nullableRules scope) := by
  cases h with
  | outside => exact .nil
  | inside haccepts htabled => exact haccepts.findsEmpty htabled

namespace Pattern

variable {scope : Option Scope} {around : Option Rules} {s s' : Array Constant} {code : Block}

theorem rule_of_lowerRules {table : RuleTable} {rules : Rules} {codes : List Block}
    (h : lowerRules table rules s = .ok (codes, s')) :
    ∀ rule ∈ rules, ∃ mid mid' code, lower (some ⟨table, rule.1⟩) rule.2 mid = .ok (code, mid') := by
  intro rule hrule
  obtain ⟨place, hplace⟩ := List.getElem?_of_mem hrule
  obtain ⟨code, mid, mid', -, hcode, -⟩ := lowerRules_getElem? h hplace
  exact ⟨mid, mid', code, hcode⟩

theorem tabled_of_lower {p : Pattern} (h : lower scope p s = .ok (code, s')) : p.Tabled := by
  induction p using Pattern.induction generalizing scope s s' code with
  | seq a b iha ihb =>
    obtain ⟨codeA, mid, codeB, ha, hb, -⟩ := lower_seq.1 h
    exact ⟨iha ha, ihb hb⟩
  | choice a b iha ihb =>
    obtain ⟨codeA, mid, codeB, ha, hb, -⟩ := lower_choice.1 h
    exact ⟨iha ha, ihb hb⟩
  | diff a b iha ihb =>
    obtain ⟨codeA, mid, codeB, ha, hb, -⟩ := lower_diff.1 h
    exact ⟨iha ha, ihb hb⟩
  | not a ih =>
    obtain ⟨codeA, ha, -⟩ := lower_not.1 h
    exact ih ha
  | and a ih =>
    obtain ⟨codeA, ha, -⟩ := lower_and.1 h
    exact ih ha
  | rep a n ih =>
    obtain ⟨-, codeA, ha, -⟩ := lower_rep.1 h
    exact ih ha
  | capture wrapping a ih =>
    obtain ⟨body, mid, index, ha, -, -⟩ := lower_capture.1 h
    exact ih ha
  | grammar start rules ih =>
    obtain ⟨table, codes, htable, hcodes, -⟩ := lower_grammar.1 h
    refine ⟨⟨table, htable⟩, rulesTabled_iff.2 fun rule hrule => ?_⟩
    obtain ⟨mid, mid', body, hbody⟩ := rule_of_lowerRules hcodes rule hrule
    exact ih rule hrule hbody
  | any | literal | set | fail | succeed | position | const | argument | backref | matcher
  | rule => trivial

theorem wellFormedIn_of_lower {p : Pattern} (hscope : Scope.Among scope around)
    (h : lower scope p s = .ok (code, s')) : p.WellFormedIn around := by
  induction p using Pattern.induction generalizing scope around s s' code with
  | seq a b iha ihb =>
    obtain ⟨codeA, mid, codeB, ha, hb, -⟩ := lower_seq.1 h
    exact ⟨iha hscope ha, ihb hscope hb⟩
  | choice a b iha ihb =>
    obtain ⟨codeA, mid, codeB, ha, hb, -⟩ := lower_choice.1 h
    exact ⟨iha hscope ha, ihb hscope hb⟩
  | diff a b iha ihb =>
    obtain ⟨codeA, mid, codeB, ha, hb, -⟩ := lower_diff.1 h
    exact ⟨iha hscope ha, ihb hscope hb⟩
  | not a ih =>
    obtain ⟨codeA, ha, -⟩ := lower_not.1 h
    exact ih hscope ha
  | and a ih =>
    obtain ⟨codeA, ha, -⟩ := lower_and.1 h
    exact ih hscope ha
  | rep a n ih =>
    obtain ⟨hloop, codeA, ha, -⟩ := lower_rep.1 h
    refine ⟨fun hn hempty => ?_, ih hscope ha⟩
    have hnullable := (hscope.findsEmpty.nullable_iff (tabled_of_lower ha)).2 hempty
    rw [hloop hn] at hnullable
    cases hnullable
  | capture wrapping a ih =>
    obtain ⟨body, mid, index, ha, -, -⟩ := lower_capture.1 h
    exact ih hscope ha
  | rule key =>
    obtain ⟨_, place, rfl, hplace, -, -⟩ := lower_rule.1 h
    cases hscope with
    | inside haccepts =>
      obtain ⟨body, -, hbody⟩ := haccepts.index_lookup hplace
      exact ⟨_, rfl, List.mem_map_of_mem (mem_of_lookup hbody)⟩
  | grammar start rules ih =>
    obtain ⟨table, codes, htable, hcodes, -⟩ := lower_grammar.1 h
    have haccepts := RuleTable.accepts_of_ofRules htable
    have hrules := rule_of_lowerRules hcodes
    have htabled : ∀ rule ∈ rules, rule.2.Tabled := fun rule hrule => by
      obtain ⟨mid, mid', body, hbody⟩ := hrules rule hrule
      exact tabled_of_lower hbody
    refine ⟨haccepts.valid htabled, rulesWellFormedIn_iff.2 fun rule hrule => ?_⟩
    obtain ⟨mid, mid', body, hbody⟩ := hrules rule hrule
    exact ih rule hrule (.inside haccepts htabled) hbody
  | any | literal | set | fail | succeed | position | const | argument | backref | matcher =>
    trivial

/-! ## What is well formed passes the checks -/

/-- No reference of a pattern that may stand among some rules is without a rule. -/
theorem undefinedRule?_eq_none {p : Pattern} {rules : Rules} (h : p.WellFormedIn (some rules)) :
    undefinedRule? (rules.map Prod.fst) p = none := by
  induction p using Pattern.induction with
  | seq a b iha ihb | choice a b iha ihb | diff a b iha ihb =>
    rw [undefinedRule?, iha h.1, ihb h.2, Option.or_none]
  | not a ih | and a ih | capture wrapping a ih => exact ih h
  | rep a n ih => exact ih h.2
  | rule key =>
    obtain ⟨_, ⟨⟩, hkey⟩ := h
    rw [undefinedRule?, if_pos (by simpa using hkey)]
  | any | literal | set | fail | succeed | position | const | argument | backref | matcher
  | grammar => rfl

theorem tabled_of_wellFormedIn {p : Pattern} (h : p.WellFormedIn around) : p.Tabled := by
  induction p using Pattern.induction generalizing around with
  | seq a b iha ihb | choice a b iha ihb | diff a b iha ihb => exact ⟨iha h.1, ihb h.2⟩
  | not a ih | and a ih | capture wrapping a ih => exact ih h
  | rep a n ih => exact ih h.2
  | grammar start rules ih =>
    obtain ⟨hvalid, hrules⟩ := h
    rw [rulesWellFormedIn_iff] at hrules
    have htabled : ∀ rule ∈ rules, rule.2.Tabled := fun rule hrule => ih rule hrule (hrules rule hrule)
    exact ⟨RuleTable.exists_ofRules hvalid htabled fun rule hrule =>
      undefinedRule?_eq_none (hrules rule hrule), rulesTabled_iff.2 htabled⟩
  | any | literal | set | fail | succeed | position | const | argument | backref | matcher
  | rule => trivial

end Pattern

/-! ## What passes the checks has code -/

/-- A computation that nothing but a jump that is too long can stop. -/
def OnlyTooBig {α : Type} (x : Except Fault α) : Prop :=
  ∀ fault, x = .error fault → fault = .patternTooBig

section

variable {α β : Type}

theorem onlyTooBig_ok (a : α) : OnlyTooBig (.ok a) := nofun

theorem OnlyTooBig.bind {x : Except Fault α} {f : α → Except Fault β} (hx : OnlyTooBig x)
    (hf : ∀ a, x = .ok a → OnlyTooBig (f a)) : OnlyTooBig (x >>= f) := by
  cases x with
  | error fault =>
    rintro _ ⟨⟩
    exact hx fault rfl
  | ok a => exact hf a rfl

theorem onlyTooBig_checkedOffset (n : Nat) : OnlyTooBig (checkedOffset n) := by
  rw [checkedOffset]
  split
  · exact onlyTooBig_ok _
  · rintro _ ⟨⟩
    rfl

theorem OnlyTooBig.cases {x : Except Fault α} (h : OnlyTooBig x) :
    (∃ a, x = .ok a) ∨ x = .error .patternTooBig := by
  cases x with
  | error fault => exact .inr (by rw [h fault rfl])
  | ok a => exact .inl ⟨a, rfl⟩

end

theorem onlyTooBig_offset {α : Type} {n : Nat} {f : Int → Except Fault α}
    (hf : ∀ offset, OnlyTooBig (f offset)) : OnlyTooBig (checkedOffset n >>= f) :=
  (onlyTooBig_checkedOffset n).bind fun offset _ => hf offset

namespace Block

theorem onlyTooBig_difference (a b : Block) : OnlyTooBig (difference a b) := by
  rw [difference]
  split
  · exact onlyTooBig_ok _
  · split
    · exact onlyTooBig_ok _
    · split
      · exact onlyTooBig_ok _
      · split <;> exact onlyTooBig_offset fun _ => onlyTooBig_ok _

theorem onlyTooBig_choice (a b : Block) : OnlyTooBig (choice a b) := by
  rw [choice]
  split
  · exact onlyTooBig_ok _
  · split
    · exact onlyTooBig_ok _
    · split
      · exact onlyTooBig_ok _
      · split <;> exact onlyTooBig_offset fun _ => onlyTooBig_offset fun _ => onlyTooBig_ok _

theorem onlyTooBig_lookahead (a : Block) : OnlyTooBig (lookahead a) := by
  rw [lookahead]
  split
  · exact onlyTooBig_ok _
  · exact onlyTooBig_offset fun _ => onlyTooBig_ok _

theorem onlyTooBig_any (n : Int) : OnlyTooBig (any n) := by
  refine onlyTooBig_offset fun _ => ?_
  split
  · exact onlyTooBig_ok _
  · split
    · exact onlyTooBig_ok _
    · exact onlyTooBig_difference _ _

theorem onlyTooBig_sequence (a b : Block) : OnlyTooBig (sequence a b) := by
  rw [sequence]
  split
  · exact onlyTooBig_ok _
  · split
    · exact onlyTooBig_ok _
    · split
      · exact onlyTooBig_any _
      · exact onlyTooBig_ok _

theorem onlyTooBig_repetition (body : Block) (n : Int) : OnlyTooBig (repetition body n) :=
  onlyTooBig_offset fun _ => onlyTooBig_ok _

end Block

theorem onlyTooBig_link (start : Nat) (bodies : List Block) : OnlyTooBig (link start bodies) :=
  onlyTooBig_offset fun _ => onlyTooBig_offset fun _ => onlyTooBig_ok _

theorem onlyTooBig_ofBlock (block : Block) (constants : Array Constant) :
    OnlyTooBig (Program.ofBlock block constants) :=
  onlyTooBig_offset fun _ => onlyTooBig_ok _

namespace Lowering

variable {α β : Type}

/-- A lowering that nothing but a jump that is too long can stop. -/
def OnlyTooBig (x : Lowering α) : Prop :=
  ∀ constants, PegMachine.OnlyTooBig (x constants)

theorem onlyTooBig_pure (a : α) : OnlyTooBig (pure a) := fun _ => onlyTooBig_ok _

theorem onlyTooBig_lift {x : Except Fault α} (h : PegMachine.OnlyTooBig x) :
    OnlyTooBig (liftM x) := by
  intro constants
  cases x with
  | error fault =>
    rintro _ ⟨⟩
    exact h fault rfl
  | ok a => exact onlyTooBig_ok _

theorem OnlyTooBig.bind {x : Lowering α} {f : α → Lowering β} (hx : OnlyTooBig x)
    (hf : ∀ a, OnlyTooBig (f a)) : OnlyTooBig (x >>= f) :=
  fun constants => (hx constants).bind fun found _ => hf found.1 found.2

theorem onlyTooBig_addConstant (constant : Constant) : OnlyTooBig (addConstant constant) :=
  fun _ => onlyTooBig_ok _

theorem onlyTooBig_addConstant? (constant? : Option Constant) :
    OnlyTooBig (addConstant? constant?) := by
  cases constant? with
  | none => exact onlyTooBig_pure 0
  | some constant => exact onlyTooBig_addConstant constant

theorem onlyTooBig_mapM {γ : Type} {f : γ → Lowering α} (hf : ∀ c, OnlyTooBig (f c))
    (l : List γ) : OnlyTooBig (l.mapM f) := by
  induction l with
  | nil => exact onlyTooBig_pure []
  | cons c rest ih =>
    rw [List.mapM_cons]
    exact (hf c).bind fun _ => ih.bind fun _ => onlyTooBig_pure _

end Lowering

namespace Pattern

open Lowering (onlyTooBig_pure onlyTooBig_lift onlyTooBig_addConstant)

theorem onlyTooBig_lowerRules {table : RuleTable} {rules : Rules}
    (h : ∀ rule ∈ rules, Lowering.OnlyTooBig (lower (some ⟨table, rule.1⟩) rule.2)) :
    Lowering.OnlyTooBig (lowerRules table rules) := by
  induction rules with
  | nil => exact onlyTooBig_pure []
  | cons rule rest ih =>
    obtain ⟨hrule, hrest⟩ := List.forall_mem_cons.1 h
    exact hrule.bind fun _ => (ih hrest).bind fun _ => onlyTooBig_pure _

/-- A well-formed pattern has code unless a jump gets too long. -/
theorem onlyTooBig_lower {scope : Option Scope} {around : Option Rules} {p : Pattern}
    (hscope : Scope.Among scope around) (h : p.WellFormedIn around) :
    Lowering.OnlyTooBig (lower scope p) := by
  induction p using Pattern.induction generalizing scope around with
  | any n => exact onlyTooBig_lift (Block.onlyTooBig_any n)
  | literal | set | fail | succeed | position | argument => exact onlyTooBig_pure _
  | seq a b iha ihb =>
    exact (iha hscope h.1).bind fun _ => (ihb hscope h.2).bind fun _ =>
      onlyTooBig_lift (Block.onlyTooBig_sequence _ _)
  | choice a b iha ihb =>
    exact (iha hscope h.1).bind fun _ => (ihb hscope h.2).bind fun _ =>
      onlyTooBig_lift (Block.onlyTooBig_choice _ _)
  | diff a b iha ihb =>
    exact (iha hscope h.1).bind fun _ => (ihb hscope h.2).bind fun _ =>
      onlyTooBig_lift (Block.onlyTooBig_difference _ _)
  | not a ih =>
    exact (ih hscope h).bind fun _ => onlyTooBig_lift (Block.onlyTooBig_difference _ _)
  | and a ih => exact (ih hscope h).bind fun _ => onlyTooBig_lift (Block.onlyTooBig_lookahead _)
  | rep a n ih =>
    have hcode : Lowering.OnlyTooBig (do Block.repetition (← lower scope a) n : Lowering Block) :=
      (ih hscope h.2).bind fun _ => onlyTooBig_lift (Block.onlyTooBig_repetition _ n)
    rw [lower]
    split
    · next hn =>
      have hcheck : checkLoop scope a = .ok () := by
        rw [checkLoop_ok, ← Bool.not_eq_true,
          hscope.findsEmpty.nullable_iff (tabled_of_wellFormedIn h.2)]
        exact h.1 hn
      rw [hcheck]
      exact hcode
    · exact hcode
  | capture wrapping a ih =>
    exact (ih hscope h).bind fun _ => (Lowering.onlyTooBig_addConstant? _).bind fun _ =>
      onlyTooBig_pure _
  | const values =>
    exact Lowering.onlyTooBig_mapM (fun _ => (onlyTooBig_addConstant _).bind fun _ =>
      onlyTooBig_pure _) values
  | backref name => exact (onlyTooBig_addConstant _).bind fun _ => onlyTooBig_pure _
  | matcher f => exact (onlyTooBig_addConstant _).bind fun _ => onlyTooBig_pure _
  | rule key =>
    obtain ⟨rules, rfl, hkey⟩ := h
    cases hscope with
    | inside haccepts =>
      have hplace := RuleTable.idxOf?_eq_idxOf (haccepts.keys_eq.symm ▸ hkey)
      rw [lower]
      simp only [RuleTable.index?, hplace]
      exact onlyTooBig_pure _
  | grammar start rules ih =>
    obtain ⟨table, htable⟩ := (tabled_of_wellFormedIn h).1
    have hrules := rulesWellFormedIn_iff.1 h.2
    have hamong : ∀ key, Scope.Among (some ⟨table, key⟩) (some rules) := fun _ =>
      .inside (RuleTable.accepts_of_ofRules htable) fun rule hrule =>
        tabled_of_wellFormedIn (hrules rule hrule)
    have hcodes : Lowering.OnlyTooBig (lowerRules table rules) :=
      onlyTooBig_lowerRules fun rule hrule => ih rule hrule (hamong _) (hrules rule hrule)
    rw [lower, htable]
    exact hcodes.bind fun codes => onlyTooBig_lift (onlyTooBig_link table.startIndex codes)

/-! ## The patterns that compile -/

theorem wellFormed_of_compile {p : Pattern} {program : Program} (h : p.compile = .ok program) :
    p.WellFormed := by
  obtain ⟨block, constants, hlower, -⟩ := compile_ok.1 h
  exact wellFormedIn_of_lower .outside hlower

theorem onlyTooBig_compile {p : Pattern} (h : p.WellFormed) : OnlyTooBig p.compile :=
  (onlyTooBig_lower .outside h #[]).bind fun _ _ => onlyTooBig_ofBlock _ _

/-- **A pattern that compiles is well formed, and a well-formed pattern compiles unless it is too
big.** What the check of repetitions takes as nullable in it is what can be empty. -/
theorem compile_iff_wellFormed (p : Pattern) :
    ((∃ program, p.compile = .ok program) → p.WellFormed) ∧
      (p.WellFormed → ((∃ program, p.compile = .ok program) ∨ p.compile = .error .patternTooBig) ∧
        (nullable [] p = true ↔ CanBeEmpty [] p)) := by
  refine ⟨fun ⟨_, h⟩ => wellFormed_of_compile h, fun h => ⟨(onlyTooBig_compile h).cases, ?_⟩⟩
  exact FindsEmpty.nil.nullable_iff (tabled_of_wellFormedIn h)

end Pattern

end PegMachine
