import PegMachine.Proofs.Grammars.LeastNullable

/-!
# Rules in another order

What the checks of a grammar find out does not depend on the order of its rules.

* `lookup_of_perm`: rules in another order find the same bodies.
* `Pattern.wellFormed_of_perm`: a grammar stays well formed.
* `nullable_congr`: which patterns are taken as nullable depends on the members of the nullable rules
  only.
* `RuleTable.mem_nullable_of_perm`: the tables of both orders have the same nullable rules.
-/

namespace PegMachine

variable {rules rules' : Rules} {start key : RuleKey}

theorem lookup_of_perm (hperm : rules.Perm rules') (hnodup : (rules.map Prod.fst).Nodup)
    (key : RuleKey) : rules'.lookup key = rules.lookup key := by
  have hnodup' : (rules'.map Prod.fst).Nodup := (hperm.map Prod.fst).nodup_iff.1 hnodup
  cases hbody : rules.lookup key with
  | some body => exact lookup_of_mem hnodup' (hperm.mem_iff.1 (mem_of_lookup hbody))
  | none =>
    cases hbody' : rules'.lookup key with
    | none => rfl
    | some body =>
      rw [lookup_of_mem hnodup (hperm.mem_iff.2 (mem_of_lookup hbody'))] at hbody
      cases hbody

/-! ## What the rules mean -/

section

variable {p : Pattern} (hlookup : ∀ key, rules'.lookup key = rules.lookup key)

include hlookup

theorem CanBeEmpty.of_lookup (h : CanBeEmpty rules p) : CanBeEmpty rules' p := by
  induction h with
  | any hn => exact .any hn
  | literal h => exact .literal h
  | succeed => exact .succeed
  | seq _ _ iha ihb => exact .seq (iha hlookup) (ihb hlookup)
  | choiceFirst _ ih => exact .choiceFirst (ih hlookup)
  | choiceSecond _ ih => exact .choiceSecond (ih hlookup)
  | not => exact .not
  | and => exact .and
  | repNone hn => exact .repNone hn
  | rep _ ih => exact .rep (ih hlookup)
  | diff _ ih => exact .diff (ih hlookup)
  | matchTime => exact .matchTime
  | capture _ ih => exact .capture (ih hlookup)
  | position => exact .position
  | const => exact .const
  | argument => exact .argument
  | backref => exact .backref
  | matcher => exact .matcher
  | @rule _ key _ hkey _ ih => exact .rule ((hlookup key).trans hkey) (ih hlookup)
  | grammar hkey hbody => exact .grammar hkey hbody

theorem FirstCall.of_lookup (h : FirstCall rules p key) : FirstCall rules' p key := by
  induction h with
  | rule => exact .rule
  | seqFirst _ ih => exact .seqFirst ih
  | seqSecond ha _ ih => exact .seqSecond (ha.of_lookup hlookup) ih
  | choiceFirst _ ih => exact .choiceFirst ih
  | choiceSecond _ ih => exact .choiceSecond ih
  | diffFirst _ ih => exact .diffFirst ih
  | diffSecond _ ih => exact .diffSecond ih
  | not _ ih => exact .not ih
  | and _ ih => exact .and ih
  | rep _ ih => exact .rep ih
  | capture _ ih => exact .capture ih

end

/-! ## Well-formed grammars -/

theorem ValidGrammar.of_perm (hperm : rules.Perm rules') (h : ValidGrammar start rules) :
    ValidGrammar start rules' where
  nonempty := fun hnil => h.nonempty (hnil ▸ hperm).eq_nil
  nodup := (hperm.map Prod.fst).nodup_iff.1 h.nodup
  start_mem := (hperm.map Prod.fst).mem_iff.1 h.start_mem
  acyclic := by
    have hlookup := lookup_of_perm hperm h.nodup
    have hcalls : ∀ caller callee, rules'.Calls caller callee → rules.Calls caller callee := by
      rintro caller callee ⟨body, hbody, hcall⟩
      exact ⟨body, (hlookup caller).symm.trans hbody,
        hcall.of_lookup fun key => (hlookup key).symm⟩
    exact fun key hcycle => h.acyclic key (Relation.TransGen.mono hcalls _ _ hcycle)

/-- What may stand among rules may stand among the same rules in another order. -/
theorem Pattern.wellFormedIn_of_perm {p : Pattern} (hperm : rules.Perm rules')
    (hnodup : (rules.map Prod.fst).Nodup) (h : p.WellFormedIn (some rules)) :
    p.WellFormedIn (some rules') := by
  induction p using Pattern.induction with
  | seq a b iha ihb | choice a b iha ihb | diff a b iha ihb => exact ⟨iha h.1, ihb h.2⟩
  | not a ih | and a ih | capture wrapping a ih => exact ih h
  | rep a n ih =>
    refine ⟨fun hn hempty => h.1 hn ?_, ih h.2⟩
    exact CanBeEmpty.of_lookup (fun key => (lookup_of_perm hperm hnodup key).symm) hempty
  | rule key =>
    obtain ⟨_, ⟨⟩, hkey⟩ := h
    exact ⟨rules', rfl, (hperm.map Prod.fst).mem_iff.1 hkey⟩
  | grammar | any | literal | set | fail | succeed | position | const | argument | backref
  | matcher => exact h

/-- **A grammar stays well formed when its rules are put into another order.** -/
theorem Pattern.wellFormed_of_perm (hperm : rules.Perm rules')
    (h : (Pattern.grammar start rules).WellFormed) : (Pattern.grammar start rules').WellFormed := by
  obtain ⟨hvalid, hrules⟩ := h
  refine ⟨hvalid.of_perm hperm, rulesWellFormedIn_iff.2 fun rule hrule => ?_⟩
  exact wellFormedIn_of_perm hperm hvalid.nodup
    (rulesWellFormedIn_iff.1 hrules rule (hperm.mem_iff.2 hrule))

/-! ## Nullable rules -/

/-- Which patterns are taken as nullable depends on the members of the nullable rules only. -/
theorem nullable_congr {known known' : List RuleKey} (h : ∀ key, key ∈ known' ↔ key ∈ known)
    (p : Pattern) : nullable known' p = nullable known p := by
  rw [Bool.eq_iff_iff]
  exact ⟨nullable_mono fun key => (h key).1, nullable_mono fun key => (h key).2⟩

theorem RuleTable.mem_nullable_of_perm {table table' : RuleTable} (hperm : rules.Perm rules')
    (h : Accepts start rules table) (h' : Accepts start rules' table') :
    ∀ key, key ∈ table'.nullable ↔ key ∈ table.nullable := by
  intro key
  rw [h.nullable_eq, h'.nullable_eq]
  exact mem_nullableRules_of_perm hperm (h.keys_eq ▸ h.nodup)

end PegMachine
