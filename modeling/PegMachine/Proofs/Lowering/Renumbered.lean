import PegMachine.Proofs.Blocks.Renamed
import PegMachine.Proofs.Grammars.Reordered
import PegMachine.Proofs.Lowering.Shape

/-!
# Patterns lowered elsewhere

* `Renumbers`: the numbers of constants where more or fewer constants were added before them.
* `Scope.Renames`: the rules of one grammar have other places in another one.
* `Pattern.lower_rename`: **a pattern that is lowered in the other grammar, behind other constants,
  gets the same code**, up to the numbers of constants and rules.
-/

namespace PegMachine

open Block

/-- The constants that `n` additions behind `s` others give get the numbers that they have behind `t`
others. Zero stays the number of none. -/
structure Renumbers (σ : Nat → Nat) (s t n : Nat) : Prop where
  zero : σ 0 = 0
  added : ∀ k < n, σ (s + k + 1) = t + k + 1

section

variable {σ : Nat → Nat} {s t n k : Nat}

theorem Renumbers.left (h : Renumbers σ s t (n + k)) : Renumbers σ s t n :=
  ⟨h.zero, fun j hj => h.added j (by omega)⟩

theorem Renumbers.right (h : Renumbers σ s t (n + k)) : Renumbers σ (s + n) (t + n) k :=
  ⟨h.zero, fun j hj => by rw [Nat.add_assoc s, Nat.add_assoc t]; exact h.added (n + j) (by omega)⟩

theorem Renumbers.first (h : Renumbers σ s t (1 + n)) : σ (s + 1) = t + 1 :=
  h.added 0 (by omega)

theorem Renumbers.last (h : Renumbers σ s t (n + 1)) : σ (s + n + 1) = t + n + 1 :=
  h.added n (by omega)

end

/-- The rules of one grammar have other places in another one, and the same of them are nullable. -/
structure Scope.Renames (ρ : Nat → Nat) (scope scope' : Scope) : Prop where
  nullable : ∀ key, key ∈ scope'.table.nullable ↔ key ∈ scope.table.nullable
  index : ∀ key place, scope.table.index? key = some place →
    scope'.table.index? key = some (ρ place)

theorem Scope.Renames.refl (scope : Scope) : Scope.Renames id scope scope :=
  ⟨fun _ => Iff.rfl, fun _ _ h => h⟩

/-- Behind other constants, and in another grammar, the same constants are added and the code is the
same up to the numbers of constants and rules. -/
def LowersAlike (ρ : Nat → Nat) (x y : Lowering Block) : Prop :=
  ∀ s code s', x s = .ok (code, s') → ∃ added, s' = s ++ added ∧
    ∀ t σ, Renumbers σ s.size t.size added.size → y t = .ok (code.map (Instr.rename σ ρ), t ++ added)

namespace Pattern

variable {ρ : Nat → Nat} {scope scope' : Scope} {s s' : Array Constant} {code : Block}
  {p a b : Pattern}

/-! ## Patterns without parts -/

theorem lowersAlike_of_fixed {x y : Lowering Block} {code : Block}
    (hcode : ∀ σ : Nat → Nat, σ 0 = 0 → code.map (Instr.rename σ ρ) = code)
    (hx : ∀ {s s' found}, x s = .ok (found, s') ↔ found = code ∧ s' = s)
    (hy : ∀ {s s' found}, y s = .ok (found, s') ↔ found = code ∧ s' = s) :
    LowersAlike ρ x y := by
  intro s found s' h
  obtain ⟨rfl, rfl⟩ := hx.1 h
  exact ⟨#[], by simp, fun t σ hσ => hy.2 ⟨hcode σ hσ.zero, by simp⟩⟩

theorem lowersAlike_constCaptures (values : List Value) :
    LowersAlike ρ (values.mapM Lowering.constCapture) (values.mapM Lowering.constCapture) := by
  intro s code s' h
  induction values generalizing s code with
  | nil =>
    obtain ⟨rfl, rfl⟩ := Lowering.constCaptures_nil.1 h
    exact ⟨#[], by simp, fun t σ _ => Lowering.constCaptures_nil.2 ⟨rfl, by simp⟩⟩
  | cons value rest ih =>
    obtain ⟨more, hmore, rfl⟩ := Lowering.constCaptures_cons.1 h
    obtain ⟨added, rfl, hother⟩ := ih _ _ hmore
    refine ⟨#[.value value] ++ added, by simp, fun t σ hσ => Lowering.constCaptures_cons.2 ?_⟩
    rw [Array.size_append] at hσ
    refine ⟨more.map (Instr.rename σ ρ), ?_, ?_⟩
    · rw [hother (t.push (.value value)) σ (by simpa using hσ.right)]
      simp
    · have hindex : CaptureKind.const.renumber σ (s.size + 1) = t.size + 1 := hσ.first
      rw [List.map_cons, Instr.rename, hindex]

/-! ## Patterns with parts -/

theorem lowersAlike_both {combine : Block → Block → Except Fault Block}
    (hcombine : ∀ σ a b, combine (a.map (Instr.rename σ ρ)) (b.map (Instr.rename σ ρ)) =
      List.map (Instr.rename σ ρ) <$> combine a b)
    (ha : LowersAlike ρ (lower (some scope) a) (lower (some scope') a))
    (hb : LowersAlike ρ (lower (some scope) b) (lower (some scope') b)) :
    LowersAlike ρ
      (do
        let codeA ← lower (some scope) a
        let codeB ← lower (some scope) b
        combine codeA codeB : Lowering Block)
      (do
        let codeA ← lower (some scope') a
        let codeB ← lower (some scope') b
        combine codeA codeB : Lowering Block) := by
  intro s code s' h
  obtain ⟨codeA, mid, codeB, hcodeA, hcodeB, hcode⟩ := (lower_both combine).1 h
  obtain ⟨addedA, rfl, hotherA⟩ := ha _ _ _ hcodeA
  obtain ⟨addedB, rfl, hotherB⟩ := hb _ _ _ hcodeB
  refine ⟨addedA ++ addedB, by simp, fun t σ hσ => (lower_both combine).2 ?_⟩
  rw [Array.size_append] at hσ
  have hotherB' := hotherB (t ++ addedA) σ (by simpa using hσ.right)
  rw [Array.append_assoc] at hotherB'
  refine ⟨_, _, _, hotherA t σ hσ.left, hotherB', ?_⟩
  rw [hcombine, hcode]
  rfl

theorem lowersAlike_one {combine : Block → Except Fault Block}
    (hcombine : ∀ σ a, combine (a.map (Instr.rename σ ρ)) =
      List.map (Instr.rename σ ρ) <$> combine a)
    (ha : LowersAlike ρ (lower (some scope) a) (lower (some scope') a)) :
    LowersAlike ρ (do combine (← lower (some scope) a) : Lowering Block)
      (do combine (← lower (some scope') a) : Lowering Block) := by
  intro s code s' h
  obtain ⟨codeA, hcodeA, hcode⟩ := (lower_one combine).1 h
  obtain ⟨added, rfl, hother⟩ := ha _ _ _ hcodeA
  refine ⟨added, rfl, fun t σ hσ => (lower_one combine).2 ⟨_, hother t σ hσ, ?_⟩⟩
  rw [hcombine, hcode]
  rfl

theorem lowersAlike_rep {n : Int} (hscope : scope.Renames ρ scope')
    (ha : LowersAlike ρ (lower (some scope) a) (lower (some scope') a)) :
    LowersAlike ρ (lower (some scope) (.rep a n)) (lower (some scope') (.rep a n)) := by
  intro s code s' h
  obtain ⟨hloop, h⟩ := lower_rep.1 h
  obtain ⟨added, hadded, hother⟩ := lowersAlike_one (fun σ code => repetition_rename σ ρ code n) ha
    s code s' ((lower_one fun code => Block.repetition code n).2 h)
  refine ⟨added, hadded, fun t σ hσ => lower_rep.2 ⟨fun hn => ?_, (lower_one _).1 (hother t σ hσ)⟩⟩
  exact (nullable_congr hscope.nullable a).trans (hloop hn)

theorem lowersAlike_capture (wrapping : Wrapping)
    (ha : LowersAlike ρ (lower (some scope) a) (lower (some scope') a)) :
    LowersAlike ρ (lower (some scope) (.capture wrapping a))
      (lower (some scope') (.capture wrapping a)) := by
  intro s code s' h
  have hkind : wrapping.kind ≠ .argument := by cases wrapping <;> simp [Wrapping.kind]
  obtain ⟨body, mid, index, hbody, hindex, rfl⟩ := lower_capture.1 h
  obtain ⟨added, rfl, hother⟩ := ha _ _ _ hbody
  rcases Lowering.addConstant?_ok hindex with ⟨hnone, rfl, rfl⟩ | ⟨constant, hsome, rfl, rfl⟩
  · refine ⟨added, rfl, fun t σ hσ => lower_capture.2 ⟨_, _, 0, hother t σ hσ, ?_, ?_⟩⟩
    · rw [hnone]
      exact Lowering.pure_ok.2 ⟨rfl, rfl⟩
    · rw [← enclose_rename _ _ _ hkind, hσ.zero]
  · refine ⟨added.push constant, by simp, fun t σ hσ => ?_⟩
    rw [Array.size_push] at hσ
    refine lower_capture.2 ⟨_, _, (t ++ added).size + 1, hother t σ hσ.left, ?_, ?_⟩
    · rw [hsome]
      exact Lowering.addConstant_ok.2 ⟨rfl, by simp⟩
    · rw [← enclose_rename _ _ _ hkind, Array.size_append, Array.size_append, hσ.last]

theorem lowersAlike_addConstant {x y : Lowering Block} (constant : Constant) (make : Nat → Instr)
    (hmake : ∀ σ index, (make index).rename σ ρ = make (σ index))
    (hx : ∀ s, x s = .ok ([make (s.size + 1)], s.push constant))
    (hy : ∀ s, y s = .ok ([make (s.size + 1)], s.push constant)) : LowersAlike ρ x y := by
  intro s code s' h
  rw [hx] at h
  cases h
  refine ⟨#[constant], by simp, fun t σ hσ => (hy t).trans ?_⟩
  have hone : Renumbers σ s.size t.size (1 + 0) := hσ
  rw [List.map_singleton, hmake, hone.first]
  rfl

/-! ## Grammars -/

theorem lowerRules_rename {table : RuleTable} {rules : List (RuleKey × Pattern)}
    {codes : List Block}
    (hrules : ∀ rule ∈ rules, ∀ scope, LowersAlike id (lower (some scope) rule.2)
      (lower (some scope) rule.2))
    (h : lowerRules table rules s = .ok (codes, s')) :
    ∃ added, s' = s ++ added ∧ ∀ t σ, Renumbers σ s.size t.size added.size →
      lowerRules table rules t = .ok (codes.map (List.map (Instr.rename σ id)), t ++ added) := by
  induction rules generalizing s codes with
  | nil =>
    obtain ⟨rfl, rfl⟩ := lowerRules_nil.1 h
    exact ⟨#[], by simp, fun t σ _ => lowerRules_nil.2 ⟨rfl, by simp⟩⟩
  | cons rule rest ih =>
    rw [List.forall_mem_cons] at hrules
    obtain ⟨code, mid, more, hcode, hmore, rfl⟩ := lowerRules_cons.1 h
    obtain ⟨added, rfl, hother⟩ := hrules.1 _ _ _ _ hcode
    obtain ⟨added', rfl, hother'⟩ := ih hrules.2 hmore
    refine ⟨added ++ added', by simp, fun t σ hσ => ?_⟩
    rw [Array.size_append] at hσ
    have hmore' := hother' (t ++ added) σ (by simpa using hσ.right)
    rw [Array.append_assoc] at hmore'
    exact lowerRules_cons.2 ⟨_, _, _, hother t σ hσ.left, hmore', rfl⟩

theorem lowersAlike_grammar {start : RuleKey} {rules : List (RuleKey × Pattern)}
    (hrules : ∀ rule ∈ rules, ∀ scope, LowersAlike id (lower (some scope) rule.2)
      (lower (some scope) rule.2)) :
    LowersAlike ρ (lower (some scope) (.grammar start rules))
      (lower (some scope') (.grammar start rules)) := by
  intro s code s' h
  obtain ⟨table, codes, htable, hcodes, hlink⟩ := lower_grammar.1 h
  obtain ⟨added, rfl, hother⟩ := lowerRules_rename hrules hcodes
  refine ⟨added, rfl, fun t σ hσ => lower_grammar.2 ⟨table, _, htable, hother t σ hσ, ?_⟩⟩
  rw [link_rename _ _ hlink, rename_of_not_mem _ ρ fun rule => not_mem_link hlink]

/-- **A pattern that is lowered in another grammar, behind other constants, gets the same code**, up
to the numbers of constants and rules. -/
theorem lower_rename (hscope : scope.Renames ρ scope') (p : Pattern) :
    LowersAlike ρ (lower (some scope) p) (lower (some scope') p) := by
  induction p using Pattern.induction generalizing ρ scope scope' with
  | seq a b iha ihb => exact lowersAlike_both (sequence_rename · ρ) (iha hscope) (ihb hscope)
  | choice a b iha ihb => exact lowersAlike_both (choice_rename · ρ) (iha hscope) (ihb hscope)
  | diff a b iha ihb => exact lowersAlike_both (difference_rename · ρ) (iha hscope) (ihb hscope)
  | not a iha => exact lowersAlike_one (fun σ => difference_rename σ ρ []) (iha hscope)
  | and a iha => exact lowersAlike_one (lookahead_rename · ρ) (iha hscope)
  | rep a n iha => exact lowersAlike_rep hscope (iha hscope)
  | capture wrapping a iha => exact lowersAlike_capture wrapping (iha hscope)
  | const values => exact lowersAlike_constCaptures values
  | backref name =>
    exact lowersAlike_addConstant (.name name) (.emptyCaptureConst .backref) (fun _ _ => rfl)
      (fun s => lower_backref.2 ⟨rfl, rfl⟩) fun s => lower_backref.2 ⟨rfl, rfl⟩
  | matcher f =>
    exact lowersAlike_addConstant (.matcher f) .matcher (fun _ _ => rfl)
      (fun s => lower_matcher.2 ⟨rfl, rfl⟩) fun s => lower_matcher.2 ⟨rfl, rfl⟩
  | rule key =>
    intro s code s' h
    obtain ⟨_, place, ⟨⟩, hplace, rfl, rfl⟩ := lower_rule.1 h
    exact ⟨#[], by simp, fun t σ _ => lower_rule.2
      ⟨scope', ρ place, rfl, hscope.index key place hplace, rfl, by simp⟩⟩
  | grammar start rules ih =>
    exact lowersAlike_grammar fun rule hrule scope => ih rule hrule (.refl scope)
  | any n =>
    intro s code s' h
    obtain ⟨hcode, rfl⟩ := lower_any.1 h
    refine ⟨#[], by simp, fun t σ _ => lower_any.2 ⟨?_, by simp⟩⟩
    rw [← any_rename σ ρ, hcode]
    rfl
  | literal bytes =>
    exact lowersAlike_of_fixed (fun _ _ => by simp [ofBytes, Instr.rename]) lower_literal lower_literal
  | set bytes => exact lowersAlike_of_fixed (fun σ _ => ofSet_rename σ ρ bytes) lower_set lower_set
  | fail => exact lowersAlike_of_fixed (fun _ _ => rfl) lower_fail lower_fail
  | succeed => exact lowersAlike_of_fixed (fun _ _ => rfl) lower_succeed lower_succeed
  | position =>
    refine lowersAlike_of_fixed (fun σ hzero => ?_) lower_position lower_position
    have hindex : CaptureKind.position.renumber σ 0 = 0 := hzero
    rw [List.map_singleton, Instr.rename, hindex]
  | argument n => exact lowersAlike_of_fixed (fun _ _ => rfl) lower_argument lower_argument

/-- The constants that the code of a pattern refers to were added for it. -/
theorem constantIndex_of_lower (h : lower (some scope) p s = .ok (code, s')) {instr : Instr}
    (hinstr : instr ∈ code) :
    instr.constantIndex = 0 ∨ s.size < instr.constantIndex ∧ instr.constantIndex ≤ s'.size := by
  obtain ⟨added, rfl, hother⟩ := lower_rename (.refl scope) p s code s' h
  -- Whatever number another constant gets, the code is the same.
  let σ := fun index => if s.size < index ∧ index ≤ (s ++ added).size then index else 0
  have hσ : Renumbers σ s.size s.size added.size :=
    ⟨by simp [σ], fun k hk => if_pos (by rw [Array.size_append]; omega)⟩
  have hsame := hother s σ hσ
  rw [h] at hsame
  have hcode : code = code.map (Instr.rename σ id) := (Prod.mk.inj (Except.ok.inj hsame)).1
  obtain ⟨k, hk⟩ := List.getElem?_of_mem hinstr
  have hrename : instr = instr.rename σ id := by
    have hk' := hk
    rw [hcode, List.getElem?_map, hk] at hk'
    exact (Option.some.inj hk').symm
  have hindex : instr.constantIndex = σ instr.constantIndex :=
    (congrArg Instr.constantIndex hrename).trans (Instr.constantIndex_rename σ id instr hσ.zero)
  by_cases hrange : s.size < instr.constantIndex ∧ instr.constantIndex ≤ (s ++ added).size
  · exact .inr hrange
  · exact .inl (hindex.trans (if_neg hrange))

end Pattern

end PegMachine
