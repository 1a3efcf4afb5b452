import PegMachine.Proofs.Grammars.Nullable

/-!
# The nullable rules as a least solution

* `nullable_mono`: what is taken as nullable stays so when more rules are known.
* `Justified`: a rule that is nullable for a finite reason.
* `mem_nullableRules_iff`, `nullableRules_subset`: the rules found nullable are the justified ones,
  and the fewest that have every rule whose body is nullable.
* **`nullableRules_least`**: the least solution of the equations of the rules, after as many passes
  as there are rules and one more, at most, and in whatever order they are listed.
-/

namespace PegMachine

variable {rules rules' : Rules} {known known' : List RuleKey} {key : RuleKey}

theorem nullable_mono {p : Pattern} (h : ∀ key ∈ known, key ∈ known')
    (hp : nullable known p = true) : nullable known' p = true := by
  induction p using Pattern.induction with
  | seq a b iha ihb =>
    rw [nullable, Bool.and_eq_true] at hp ⊢
    exact ⟨iha hp.1, ihb hp.2⟩
  | choice a b iha ihb =>
    rw [nullable, Bool.or_eq_true] at hp ⊢
    exact hp.imp iha ihb
  | rep a n ih =>
    rw [nullable, Bool.or_eq_true] at hp ⊢
    exact hp.imp_right ih
  | diff a b iha =>
    rw [nullable] at hp ⊢
    exact iha hp
  | capture wrapping a ih =>
    cases wrapping with
    | matchTime => simp [nullable]
    | simple | table | subst | group | named | fold | function | query | template =>
      simp only [nullable] at hp ⊢
      exact ih hp
  | rule key =>
    rw [nullable, List.contains_iff_mem] at hp ⊢
    exact h key hp
  | any | literal | set | fail | grammar => simpa only [nullable] using hp
  | succeed | not | and | position | const | argument | backref | matcher => simp only [nullable]

/-- Keys among which is that of each rule whose body is nullable by them. -/
def NullableClosed (rules : Rules) (known : List RuleKey) : Prop :=
  ∀ rule ∈ rules, nullable known rule.2 = true → rule.1 ∈ known

/-- A rule whose body is nullable by finitely many rules that are justified. -/
inductive Justified (rules : Rules) : RuleKey → Prop
  | intro {key : RuleKey} {body : Pattern} (support : List RuleKey)
      (hbody : rules.lookup key = some body) (hsupport : ∀ other ∈ support, Justified rules other)
      (hnullable : nullable support body = true) : Justified rules key

theorem justified_addNullable {part : Rules} (hnodup : (rules.map Prod.fst).Nodup)
    (hpart : ∀ rule ∈ part, rule ∈ rules) (h : ∀ key ∈ known, Justified rules key) :
    ∀ key ∈ addNullable known part, Justified rules key := by
  induction part generalizing known with
  | nil => exact h
  | cons rule rest ih =>
    obtain ⟨hrule, hrest⟩ := List.forall_mem_cons.1 hpart
    rw [addNullable_cons]
    refine ih hrest ?_
    split
    · next hnew =>
      rw [Bool.and_eq_true] at hnew
      exact List.forall_mem_cons.2 ⟨.intro known (lookup_of_mem hnodup hrule) h hnew.2, h⟩
    · exact h

theorem Justified.mem_of_closed (h : Justified rules key) (hclosed : NullableClosed rules known) :
    key ∈ known := by
  induction h with
  | intro support hbody _ hnullable ih =>
    exact hclosed _ (mem_of_lookup hbody) (nullable_mono ih hnullable)

theorem nullableClosed_nullableRules (rules : Rules) :
    NullableClosed rules (nullableRules rules) :=
  mem_of_addNullable (addNullable_nullableRules rules)

/-- The rules found nullable are the justified ones. -/
theorem mem_nullableRules_iff (hnodup : (rules.map Prod.fst).Nodup) :
    key ∈ nullableRules rules ↔ Justified rules key := by
  refine ⟨fun h => ?_, fun h => h.mem_of_closed (nullableClosed_nullableRules rules)⟩
  exact saturate_induction (motive := fun known => ∀ key ∈ known, Justified rules key)
    (fun _ => justified_addNullable hnodup fun _ => id) _ (by simp) key h

theorem nullableRules_subset (hnodup : (rules.map Prod.fst).Nodup)
    (hclosed : NullableClosed rules known) : ∀ key ∈ nullableRules rules, key ∈ known :=
  fun _ hkey => ((mem_nullableRules_iff hnodup).1 hkey).mem_of_closed hclosed

/-- They solve the equations of the rules. -/
theorem mem_nullableRules_iff_nullable (hnodup : (rules.map Prod.fst).Nodup) :
    ∀ rule ∈ rules, rule.1 ∈ nullableRules rules ↔
      nullable (nullableRules rules) rule.2 = true := by
  intro rule hrule
  refine ⟨fun hkey => ?_, nullableClosed_nullableRules rules rule hrule⟩
  obtain ⟨support, hbody, hsupport, hnullable⟩ := (mem_nullableRules_iff hnodup).1 hkey
  rw [lookup_of_mem hnodup hrule, Option.some_inj] at hbody
  rw [hbody]
  exact nullable_mono (fun other hother => (mem_nullableRules_iff hnodup).2 (hsupport other hother))
    hnullable

theorem mem_nullableRules_of_perm (hperm : rules.Perm rules')
    (hnodup : (rules.map Prod.fst).Nodup) :
    key ∈ nullableRules rules' ↔ key ∈ nullableRules rules := by
  have hnodup' : (rules'.map Prod.fst).Nodup := (hperm.map Prod.fst).nodup_iff.1 hnodup
  constructor
  · exact nullableRules_subset hnodup' (fun rule hrule =>
      nullableClosed_nullableRules rules rule (hperm.mem_iff.2 hrule)) key
  · exact nullableRules_subset hnodup (fun rule hrule =>
      nullableClosed_nullableRules rules' rule (hperm.mem_iff.1 hrule)) key

/-- They are found by as many passes as there are rules, at most, each of which adds a rule. -/
theorem exists_passes (rules : Rules) :
    ∃ n ≤ rules.length, nullableRules rules = (fun known => addNullable known rules)^[n] [] ∧
      ∀ k < n, ((fun known => addNullable known rules)^[k] []).length <
        ((fun known => addNullable known rules)^[k + 1] []).length := by
  have hadds := addsKeys_addNullable rules
  obtain ⟨n, hpasses, hlength, hgrow⟩ := saturate_eq_iterate hadds
    ((rules.map Prod.fst).length + 1) []
  have hle := (KeysAmong.nil.saturate hadds ((rules.map Prod.fst).length + 1)).length_le
  rw [hpasses, List.length_map] at hle
  exact ⟨n, by omega, hpasses, hgrow⟩

/-- **The rules found nullable are the least solution of the equations of the rules.** They are found
by as many passes as there are rules, at most, each of which adds a rule, and one more that adds none.
A rule is among them exactly if its body is nullable by them, exactly if it is justified, and, where
every grammar inside has a table, exactly if its body can be empty. They are among any keys with
every rule whose body is nullable by those, and the same in whatever order the rules are listed. -/
theorem nullableRules_least (hnodup : (rules.map Prod.fst).Nodup) :
    (∃ n ≤ rules.length, nullableRules rules = (fun known => addNullable known rules)^[n] [] ∧
      (∀ k < n, ((fun known => addNullable known rules)^[k] []).length <
        ((fun known => addNullable known rules)^[k + 1] []).length) ∧
      addNullable (nullableRules rules) rules = nullableRules rules) ∧
    (∀ rule ∈ rules, rule.1 ∈ nullableRules rules ↔
      nullable (nullableRules rules) rule.2 = true) ∧
    (∀ key, key ∈ nullableRules rules ↔ Justified rules key) ∧
    ((∀ rule ∈ rules, rule.2.Tabled) → ∀ key, key ∈ nullableRules rules ↔
      ∃ body, rules.lookup key = some body ∧ CanBeEmpty rules body) ∧
    (∀ known, NullableClosed rules known → ∀ key ∈ nullableRules rules, key ∈ known) ∧
    ∀ rules', rules.Perm rules' → ∀ key, key ∈ nullableRules rules' ↔ key ∈ nullableRules rules := by
  obtain ⟨n, hn, hpasses, hgrow⟩ := exists_passes rules
  exact ⟨⟨n, hn, hpasses, hgrow, addNullable_nullableRules rules⟩,
    mem_nullableRules_iff_nullable hnodup, fun _ => mem_nullableRules_iff hnodup,
    fun htabled _ => (findsEmpty_nullableRules hnodup htabled).mem_iff,
    fun _ => nullableRules_subset hnodup, fun _ hperm _ => mem_nullableRules_of_perm hperm hnodup⟩

/-- Rules that refer to each other: the last is nullable at once, and those before it one pass later,
the second by a grammar of its own. -/
def cascading : Rules :=
  [(.index 0, .seq (.rule (.index 1)) (.rule (.index 2))),
    (.index 1, .choice (.seq (.rule (.index 0)) (.literal #[97]))
      (.seq (.grammar (.index 0) [(.index 0, .succeed)]) (.rule (.index 2)))),
    (.index 2, .choice (.literal #[97]) .succeed)]

theorem cascading_least :
    (cascading.map Prod.fst).Nodup ∧
      nullableRules cascading = [.index 0, .index 1, .index 2] ∧
      (∀ key ∈ nullableRules cascading, Justified cascading key) ∧
      ∀ key, key ∈ nullableRules cascading.reverse ↔ key ∈ nullableRules cascading := by
  have hnodup : (cascading.map Prod.fst).Nodup := by decide
  obtain ⟨-, -, hjustified, -, -, hperm⟩ := nullableRules_least hnodup
  exact ⟨hnodup, by rfl, fun key => (hjustified key).1, hperm _ (List.reverse_perm _).symm⟩

end PegMachine
