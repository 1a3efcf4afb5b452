import PegMachine.Proofs.Grammars.Tables
import PegMachine.Proofs.Semantics.WellFormed

/-!
# Nullable patterns and first calls

What the tables of grammars say, against what they stand for.

* `Pattern.Tabled`: the patterns of which every grammar has a table.
* `FindsEmpty.nullable_iff`, `FindsEmpty.mem_firstCalls_iff`: within an accepted grammar, a pattern
  is taken as nullable exactly if it can be empty, and the calls collected are the first calls.
* `RuleTable.Accepts.valid`, `RuleTable.exists_ofRules`: the grammars that have a table are the valid
  ones whose references all have a rule.
-/

namespace PegMachine

/-! ## Patterns whose grammars have tables -/

mutual

/-- The patterns of which every grammar, at any depth, passes the checks of a grammar. -/
def Pattern.Tabled : Pattern → Prop
  | .seq a b | .choice a b | .diff a b => Tabled a ∧ Tabled b
  | .not a | .and a | .rep a _ | .capture _ a => Tabled a
  | .grammar start rules => (∃ table, RuleTable.ofRules start rules = .ok table) ∧ RulesTabled rules
  | _ => True
termination_by structural p => p

/-- The rules of whose bodies every grammar passes the checks of a grammar. -/
def Pattern.RulesTabled : List (RuleKey × Pattern) → Prop
  | [] => True
  | (_, body) :: rest => Tabled body ∧ RulesTabled rest
termination_by structural rules => rules

end

theorem Pattern.rulesTabled_iff {rules : Rules} :
    RulesTabled rules ↔ ∀ rule ∈ rules, rule.2.Tabled := by
  induction rules with
  | nil => simp [RulesTabled]
  | cons rule rest ih => simp [RulesTabled, ih]

/-! ## Keys and bodies -/

section

variable {β : Type} {entries : List (RuleKey × β)} {key : RuleKey} {found : β}

theorem mem_of_lookup (h : entries.lookup key = some found) : (key, found) ∈ entries := by
  obtain ⟨before, behind, rfl, -⟩ := List.lookup_eq_some_iff.1 h
  simp

theorem lookup_of_mem (hnodup : (entries.map Prod.fst).Nodup) (h : (key, found) ∈ entries) :
    entries.lookup key = some found := by
  induction entries with
  | nil => cases h
  | cons entry rest ih =>
    rw [List.map_cons, List.nodup_cons] at hnodup
    rcases List.mem_cons.1 h with rfl | hrest
    · simp
    · have hne : key ≠ entry.1 := by
        rintro rfl
        exact hnodup.1 (List.mem_map.2 ⟨_, hrest, rfl⟩)
      rw [List.lookup_cons, beq_eq_false_iff_ne.2 hne]
      exact ih hnodup.2 hrest

end

/-! ## Nullable rules -/

/-- Each of the keys is that of a rule that can be empty. -/
def EmptyRules (rules : Rules) (known : List RuleKey) : Prop :=
  ∀ key ∈ known, ∃ body, rules.lookup key = some body ∧ CanBeEmpty rules body

section

variable {rules : Rules} {known : List RuleKey}

theorem EmptyRules.addNullable {part : List (RuleKey × Pattern)}
    (hnodup : (rules.map Prod.fst).Nodup) (hpart : ∀ rule ∈ part, rule ∈ rules)
    (hsound : ∀ rule ∈ part, ∀ known, EmptyRules rules known → nullable known rule.2 = true →
      CanBeEmpty rules rule.2)
    (h : EmptyRules rules known) : EmptyRules rules (addNullable known part) := by
  induction part generalizing known with
  | nil => exact h
  | cons rule rest ih =>
    rw [List.forall_mem_cons] at hpart hsound
    rw [addNullable_cons]
    refine ih hpart.2 hsound.2 ?_
    split
    · next hnew =>
      rw [Bool.and_eq_true] at hnew
      refine List.forall_mem_cons.2 ⟨⟨rule.2, lookup_of_mem hnodup hpart.1, ?_⟩, h⟩
      exact hsound.1 known h hnew.2
    · exact h

theorem emptyRules_saturate (hnodup : (rules.map Prod.fst).Nodup)
    (hsound : ∀ rule ∈ rules, ∀ known, EmptyRules rules known → nullable known rule.2 = true →
      CanBeEmpty rules rule.2) (n : Nat) :
    EmptyRules rules (saturate (fun known => addNullable known rules) n []) :=
  saturate_induction (fun _ => EmptyRules.addNullable hnodup (fun _ => id) hsound) n (by
    simp [EmptyRules])

theorem nullable_grammar {start : RuleKey} {inner : Rules} :
    nullable known (.grammar start inner) = true ↔
      ∃ table, RuleTable.ofRules start inner = .ok table ∧ start ∈ table.nullable := by
  cases htable : RuleTable.ofRules start inner with
  | error fault =>
    rw [RuleTable.ofRules] at htable
    simp [nullable, htable]
  | ok table =>
    have hstart := (RuleTable.accepts_of_ofRules htable).start_eq
    rw [RuleTable.ofRules] at htable
    simp [nullable, htable, hstart]

theorem canBeEmpty_of_nullable {p : Pattern} (hknown : EmptyRules rules known)
    (h : nullable known p = true) : CanBeEmpty rules p := by
  induction p using Pattern.induction generalizing rules known with
  | any n => exact .any (by simpa [nullable] using h)
  | literal bytes => exact .literal (by simpa [nullable] using h)
  | set | fail => simp [nullable] at h
  | succeed => exact .succeed
  | seq a b iha ihb =>
    rw [nullable, Bool.and_eq_true] at h
    exact .seq (iha hknown h.1) (ihb hknown h.2)
  | choice a b iha ihb =>
    rw [nullable, Bool.or_eq_true] at h
    exact h.elim (fun ha => .choiceFirst (iha hknown ha)) fun hb => .choiceSecond (ihb hknown hb)
  | not => exact .not
  | and => exact .and
  | rep a n iha =>
    rw [nullable, Bool.or_eq_true, decide_eq_true_eq] at h
    exact h.elim .repNone fun ha => .rep (iha hknown ha)
  | diff a b iha =>
    rw [nullable] at h
    exact .diff (iha hknown h)
  | capture wrapping a iha =>
    cases wrapping with
    | matchTime => exact .matchTime
    | simple | table | subst | group | named | fold | function | query | template =>
      rw [nullable] at h
      · exact .capture (iha hknown h)
      · nofun
  | position => exact .position
  | const => exact .const
  | argument => exact .argument
  | backref => exact .backref
  | matcher => exact .matcher
  | rule key =>
    obtain ⟨body, hkey, hbody⟩ := hknown key (by simpa [nullable] using h)
    exact .rule hkey hbody
  | grammar start inner ih =>
    -- inside the grammar those rules are known that its own table has found nullable
    obtain ⟨table, htable, hstart⟩ := nullable_grammar.1 h
    have haccepts := RuleTable.accepts_of_ofRules htable
    rw [haccepts.nullable_eq] at hstart
    obtain ⟨body, hkey, hbody⟩ := emptyRules_saturate (haccepts.keys_eq ▸ haccepts.nodup)
      (fun rule hrule known hknown => ih rule hrule hknown) _ start hstart
    exact .grammar hkey hbody

/-- What can be empty is taken as nullable, if every grammar has a table and each rule whose body is
taken as nullable is known. -/
theorem nullable_of_canBeEmpty {p : Pattern} (h : CanBeEmpty rules p) (hp : p.Tabled)
    (hrules : ∀ rule ∈ rules, rule.2.Tabled)
    (hclosed : ∀ rule ∈ rules, nullable known rule.2 = true → rule.1 ∈ known) :
    nullable known p = true := by
  induction h generalizing known with
  | any hn | literal hn | repNone hn => simp [nullable, hn]
  | succeed | not | and | matchTime | position | const | argument | backref | matcher =>
    simp [nullable]
  | seq _ _ iha ihb =>
    rw [Pattern.Tabled] at hp
    simp [nullable, iha hp.1 hrules hclosed, ihb hp.2 hrules hclosed]
  | choiceFirst _ ih | diff _ ih =>
    rw [Pattern.Tabled] at hp
    simp [nullable, ih hp.1 hrules hclosed]
  | choiceSecond _ ih =>
    rw [Pattern.Tabled] at hp
    simp [nullable, ih hp.2 hrules hclosed]
  | rep _ ih =>
    rw [Pattern.Tabled] at hp
    simp [nullable, ih hp hrules hclosed]
  | @capture _ wrapping _ _ ih =>
    rw [Pattern.Tabled] at hp
    cases wrapping <;> simp [nullable, ih hp hrules hclosed]
  | rule hkey _ ih =>
    have hmem := mem_of_lookup hkey
    simpa [nullable] using hclosed _ hmem (ih (hrules _ hmem) hrules hclosed)
  | grammar hkey _ ih =>
    rw [Pattern.Tabled, Pattern.rulesTabled_iff] at hp
    obtain ⟨⟨table, htable⟩, hinner⟩ := hp
    have haccepts := RuleTable.accepts_of_ofRules htable
    have hmem := mem_of_lookup hkey
    have hbody := ih (hinner _ hmem) hinner haccepts.nullable_closed
    exact nullable_grammar.2 ⟨table, htable, haccepts.nullable_closed _ hmem hbody⟩

/-- The rules known are those found nullable, and no body is nullable besides. -/
structure FindsEmpty (rules : Rules) (known : List RuleKey) : Prop where
  tabled : ∀ rule ∈ rules, rule.2.Tabled
  sound : EmptyRules rules known
  closed : ∀ rule ∈ rules, nullable known rule.2 = true → rule.1 ∈ known

theorem FindsEmpty.nil : FindsEmpty [] [] := ⟨nofun, nofun, nofun⟩

theorem findsEmpty_nullableRules (hnodup : (rules.map Prod.fst).Nodup)
    (htabled : ∀ rule ∈ rules, rule.2.Tabled) : FindsEmpty rules (nullableRules rules) :=
  ⟨htabled, emptyRules_saturate hnodup (fun _ _ _ => canBeEmpty_of_nullable) _,
    mem_of_addNullable (addNullable_nullableRules rules)⟩

/-- A pattern is taken as nullable exactly if it can be empty. -/
theorem FindsEmpty.nullable_iff (h : FindsEmpty rules known) {p : Pattern} (hp : p.Tabled) :
    nullable known p = true ↔ CanBeEmpty rules p :=
  ⟨canBeEmpty_of_nullable h.sound, fun hempty => nullable_of_canBeEmpty hempty hp h.tabled h.closed⟩

theorem FindsEmpty.mem_iff (h : FindsEmpty rules known) {key : RuleKey} :
    key ∈ known ↔ ∃ body, rules.lookup key = some body ∧ CanBeEmpty rules body := by
  refine ⟨h.sound key, fun ⟨body, hbody, hempty⟩ => ?_⟩
  have hmem := mem_of_lookup hbody
  exact h.closed _ hmem ((h.nullable_iff (h.tabled _ hmem)).2 hempty)

/-! ## First calls -/

theorem FindsEmpty.mem_firstCalls_iff (h : FindsEmpty rules known) {p : Pattern} {key : RuleKey}
    (hp : p.Tabled) : key ∈ firstCalls known p ↔ FirstCall rules p key := by
  induction p using Pattern.induction with
  | seq a b iha ihb =>
    rw [Pattern.Tabled] at hp
    rw [firstCalls, List.mem_append, iha hp.1]
    have hempty := h.nullable_iff hp.1
    constructor
    · rintro (ha | hb)
      · exact .seqFirst ha
      · split at hb
        · next ha => exact .seqSecond (hempty.1 ha) ((ihb hp.2).1 hb)
        · cases hb
    · rintro (_ | ha | ⟨ha, hb⟩)
      · exact .inl ha
      · rw [if_pos (hempty.2 ha)]
        exact .inr ((ihb hp.2).2 hb)
  | choice a b iha ihb =>
    rw [Pattern.Tabled] at hp
    rw [firstCalls, List.mem_append, iha hp.1, ihb hp.2]
    constructor
    · exact fun hcall => hcall.elim .choiceFirst .choiceSecond
    · rintro (_ | _ | _ | ha | hb)
      · exact .inl ha
      · exact .inr hb
  | diff a b iha ihb =>
    rw [Pattern.Tabled] at hp
    rw [firstCalls, List.mem_append, iha hp.1, ihb hp.2]
    constructor
    · exact fun hcall => hcall.elim .diffFirst .diffSecond
    · rintro (_ | _ | _ | _ | _ | ha | hb)
      · exact .inl ha
      · exact .inr hb
  | not a ih =>
    rw [Pattern.Tabled] at hp
    rw [firstCalls, ih hp]
    exact ⟨.not, fun hcall => by cases hcall; assumption⟩
  | and a ih =>
    rw [Pattern.Tabled] at hp
    rw [firstCalls, ih hp]
    exact ⟨.and, fun hcall => by cases hcall; assumption⟩
  | rep a n ih =>
    rw [Pattern.Tabled] at hp
    rw [firstCalls, ih hp]
    exact ⟨.rep, fun hcall => by cases hcall; assumption⟩
  | capture wrapping a ih =>
    rw [Pattern.Tabled] at hp
    rw [firstCalls, ih hp]
    exact ⟨.capture, fun hcall => by cases hcall; assumption⟩
  | rule called =>
    rw [firstCalls, List.mem_singleton]
    constructor
    · rintro rfl
      exact .rule
    · rintro ⟨⟩
      rfl
  | any | literal | set | fail | succeed | position | const | argument | backref | matcher
  | grammar =>
    simp only [firstCalls]
    constructor <;> rintro ⟨⟩

theorem FindsEmpty.calls_eq (h : FindsEmpty rules known) :
    (callGraph known rules).Calls = rules.Calls := by
  ext caller callee
  rw [calls_callGraph, Rules.Calls]
  refine exists_congr fun body => and_congr_right fun hbody => ?_
  exact h.mem_firstCalls_iff (h.tabled _ (mem_of_lookup hbody))

end

/-! ## Grammars with tables -/

namespace RuleTable

variable {start : RuleKey} {rules : Rules} {table : RuleTable}

/-- The nullable rules of an accepted grammar are those that can be empty. -/
theorem Accepts.findsEmpty (h : Accepts start rules table)
    (htabled : ∀ rule ∈ rules, rule.2.Tabled) : FindsEmpty rules table.nullable := by
  rw [h.nullable_eq]
  exact findsEmpty_nullableRules (h.keys_eq ▸ h.nodup) htabled

theorem Accepts.valid (h : Accepts start rules table) (htabled : ∀ rule ∈ rules, rule.2.Tabled) :
    ValidGrammar start rules where
  nonempty := by
    rintro rfl
    simpa [h.keys_eq] using h.start_mem
  nodup := h.keys_eq ▸ h.nodup
  start_mem := h.keys_eq ▸ h.start_mem
  acyclic := by
    rw [← (h.findsEmpty htabled).calls_eq]
    exact CallGraph.leftRecursive?_eq_none_iff.1 h.acyclic

/-- **A valid grammar whose references all have a rule has a table.** -/
theorem exists_ofRules (h : ValidGrammar start rules) (htabled : ∀ rule ∈ rules, rule.2.Tabled)
    (hdefined : ∀ rule ∈ rules, undefinedRule? (rules.map Prod.fst) rule.2 = none) :
    ∃ table, ofRules start rules = .ok table := by
  have hfinds := findsEmpty_nullableRules h.nodup htabled
  have hacyclic := CallGraph.leftRecursive?_eq_none_iff.2 (hfinds.calls_eq ▸ h.acyclic)
  rw [ofRules_eq ⟨h.nonempty, h.nodup, h.start_mem, hdefined⟩, hacyclic]
  exact ⟨_, rfl⟩

end RuleTable

end PegMachine
