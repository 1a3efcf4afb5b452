import Mathlib.Order.WellFounded
import PegMachine.Proofs.Grammars.CallGraphs
import PegMachine.Proofs.Semantics.Patterns

/-!
# Tables of accepted grammars

* `RuleTable.Accepts`: what holds of a table that passed the checks.
* `RuleTable.Accepts.nullable_closed`: every rule whose body is nullable is among the nullable
  rules.
* **`RuleTable.Accepts.firstCalls_wellFounded`**: rules that call each other before anything is
  consumed do not go on for ever.
* `RuleTable.CallsFirst`, `RuleTable.Accepts.not_transGen_callsFirst`: the same of the places of
  rules.
* `RuleTable.Accepts.index_lookup`: the place of a rule and its body.
-/

namespace PegMachine

variable {keys known : List RuleKey} {rules : List (RuleKey × Pattern)}

/-! ## First calls -/

theorem map_fst_callGraph (known : List RuleKey) (rules : List (RuleKey × Pattern)) :
    (callGraph known rules).map Prod.fst = rules.map Prod.fst := by
  induction rules with
  | nil => simp [callGraph]
  | cons rule rest ih => simp [callGraph, ih]

theorem lookup_callGraph (known : List RuleKey) (rules : List (RuleKey × Pattern)) (key : RuleKey) :
    (callGraph known rules).lookup key = (rules.lookup key).map (firstCalls known) := by
  induction rules with
  | nil => simp [callGraph]
  | cons rule rest ih =>
    obtain ⟨other, body⟩ := rule
    rw [callGraph, List.lookup_cons, List.lookup_cons, ih]
    cases key == other <;> rfl

theorem calls_callGraph {caller callee : RuleKey} :
    (callGraph known rules).Calls caller callee ↔
      ∃ body, rules.lookup caller = some body ∧ callee ∈ firstCalls known body := by
  rw [CallGraph.Calls, CallGraph.calls, lookup_callGraph]
  cases rules.lookup caller <;> simp

/-! ## Nullable rules -/

theorem addNullable_cons (rule : RuleKey × Pattern) (rest : List (RuleKey × Pattern)) :
    addNullable known (rule :: rest) =
      addNullable (if !known.contains rule.1 && nullable known rule.2 then rule.1 :: known
        else known) rest := by
  obtain ⟨key, body⟩ := rule
  rw [addNullable]

theorem suffix_addNullable (known : List RuleKey) (rules : List (RuleKey × Pattern)) :
    known <:+ addNullable known rules := by
  induction rules generalizing known with
  | nil => exact List.suffix_rfl
  | cons rule rest ih =>
    rw [addNullable_cons]
    refine List.IsSuffix.trans ?_ (ih _)
    split
    · exact List.suffix_cons _ _
    · exact List.suffix_rfl

theorem keysAmong_addNullable (h : ∀ rule ∈ rules, rule.1 ∈ keys) (hknown : KeysAmong keys known) :
    KeysAmong keys (addNullable known rules) := by
  induction rules generalizing known with
  | nil => exact hknown
  | cons rule rest ih =>
    obtain ⟨hrule, hrest⟩ := List.forall_mem_cons.1 h
    rw [addNullable_cons]
    refine ih hrest ?_
    split
    · next hnew =>
      rw [Bool.and_eq_true] at hnew
      exact hknown.cons hrule (by simpa using hnew.1)
    · exact hknown

theorem addsKeys_addNullable (rules : List (RuleKey × Pattern)) :
    AddsKeys (rules.map Prod.fst) fun known => addNullable known rules where
  among _ := keysAmong_addNullable fun _ hrule => List.mem_map_of_mem hrule
  suffix known := suffix_addNullable known rules

theorem mem_of_addNullable (h : addNullable known rules = known) :
    ∀ rule ∈ rules, nullable known rule.2 = true → rule.1 ∈ known := by
  induction rules with
  | nil => simp
  | cons rule rest ih =>
    rw [addNullable_cons] at h
    split at h
    · have hle := (suffix_addNullable (rule.1 :: known) rest).length_le
      rw [h, List.length_cons] at hle
      omega
    · next hold =>
      refine List.forall_mem_cons.2 ⟨fun hnullable => ?_, ih h⟩
      simpa [hnullable] using hold

/-- The rules found nullable: passes over the rules until one adds nothing. -/
def nullableRules (rules : List (RuleKey × Pattern)) : List RuleKey :=
  saturate (fun known => addNullable known rules) ((rules.map Prod.fst).length + 1) []

theorem addNullable_nullableRules (rules : List (RuleKey × Pattern)) :
    addNullable (nullableRules rules) rules = nullableRules rules :=
  saturate_fixed .nil (addsKeys_addNullable rules) _ (by simp)

/-! ## Accepted grammars -/

theorem nodup_of_firstRepeated? {seen : List RuleKey} (h : firstRepeated? seen keys = none) :
    keys.Nodup ∧ ∀ key ∈ keys, key ∉ seen := by
  induction keys generalizing seen with
  | nil => simp
  | cons key rest ih =>
    rw [firstRepeated?] at h
    split at h
    · cases h
    · next hnew =>
      obtain ⟨hnodup, hrest⟩ := ih h
      refine ⟨List.nodup_cons.2 ⟨fun hmem => hrest key hmem (by simp), hnodup⟩, ?_⟩
      refine List.forall_mem_cons.2 ⟨by simpa using hnew, fun other hother hseen => ?_⟩
      exact hrest other hother (by simp [hseen])

theorem firstRepeated?_eq_none {seen keys : List RuleKey} (hnodup : keys.Nodup)
    (hseen : ∀ key ∈ keys, key ∉ seen) : firstRepeated? seen keys = none := by
  induction keys generalizing seen with
  | nil => rfl
  | cons key rest ih =>
    rw [List.forall_mem_cons] at hseen
    rw [List.nodup_cons] at hnodup
    rw [firstRepeated?, if_neg (by simpa using hseen.1)]
    refine ih hnodup.2 fun other hother hmem => ?_
    rcases List.mem_cons.1 hmem with rfl | hmem
    · exact hnodup.1 hother
    · exact hseen.2 other hother hmem

namespace RuleTable

/-- Rules with different keys, among them the start, and a rule for each reference. -/
structure Defined (start : RuleKey) (rules : List (RuleKey × Pattern)) : Prop where
  nonempty : rules ≠ []
  nodup : (rules.map Prod.fst).Nodup
  start_mem : start ∈ rules.map Prod.fst
  defined : ∀ rule ∈ rules, undefinedRule? (rules.map Prod.fst) rule.2 = none

/-- Whether such rules have a table depends on their calls only. -/
theorem ofRules_eq {start : RuleKey} (h : Defined start rules) :
    ofRules start rules = match (callGraph (nullableRules rules) rules).leftRecursive? with
      | some key => .error (.leftRecursion key)
      | none => .ok ⟨rules.map Prod.fst, nullableRules rules, start⟩ := by
  rw [ofRules, assemble]
  simp only
  rw [if_neg (by simpa using h.nonempty), firstRepeated?_eq_none h.nodup (by simp)]
  simp only
  rw [if_neg (by simpa using h.start_mem), List.findSome?_eq_none_iff.2 h.defined]
  rfl

/-- What holds of the table of a grammar that passed the checks. -/
structure Accepts (start : RuleKey) (rules : List (RuleKey × Pattern)) (table : RuleTable) :
    Prop where
  keys_eq : table.keys = rules.map Prod.fst
  start_eq : table.start = start
  nodup : table.keys.Nodup
  start_mem : start ∈ table.keys
  defined : ∀ rule ∈ rules, undefinedRule? table.keys rule.2 = none
  nullable_eq : table.nullable = nullableRules rules
  acyclic : (callGraph table.nullable rules).leftRecursive? = none

theorem accepts_of_ofRules {start : RuleKey} {table : RuleTable}
    (h : ofRules start rules = .ok table) : Accepts start rules table := by
  rw [ofRules, assemble] at h
  simp only at h
  split at h
  · cases h
  · split at h
    · cases h
    · next hrepeated =>
      split at h
      · cases h
      · next hstart =>
        split at h
        · cases h
        · next hdefined =>
          split at h
          · cases h
          · next hacyclic =>
            cases h
            rw [List.findSome?_eq_none_iff] at hdefined
            exact ⟨rfl, rfl, (nodup_of_firstRepeated? hrepeated).1, by simpa using hstart, hdefined,
              rfl, hacyclic⟩

/-- The rule at a place may call another one before it has consumed anything. -/
def CallsFirst (table : RuleTable) (rules : List (RuleKey × Pattern)) (place callee : Nat) : Prop :=
  ∃ key body key', table.index? key = some place ∧ rules.lookup key = some body ∧
    key' ∈ firstCalls table.nullable body ∧ table.index? key' = some callee

section

variable {start key : RuleKey} {table : RuleTable} {body : Pattern} {place : Nat}

theorem Accepts.nullable_closed (h : Accepts start rules table) :
    ∀ rule ∈ rules, PegMachine.nullable table.nullable rule.2 = true →
      rule.1 ∈ table.nullable := by
  refine mem_of_addNullable ?_
  rw [h.nullable_eq]
  exact addNullable_nullableRules rules

/-- **Rules that call each other before anything is consumed do not go on for ever.** -/
theorem Accepts.firstCalls_wellFounded (h : Accepts start rules table) :
    WellFounded fun callee caller =>
      ∃ body, rules.lookup caller = some body ∧ callee ∈ firstCalls table.nullable body := by
  simpa only [calls_callGraph] using CallGraph.callsWellFounded h.acyclic

theorem lookup_of_idxOf? (h : (rules.map Prod.fst).idxOf? key = some place) :
    ∃ body, rules[place]? = some (key, body) ∧ rules.lookup key = some body := by
  induction rules generalizing place with
  | nil => simp at h
  | cons rule rest ih =>
    obtain ⟨other, body⟩ := rule
    rw [List.map_cons, List.idxOf?_cons] at h
    by_cases heq : other = key
    · subst heq
      rw [if_pos (beq_self_eq_true _)] at h
      cases h
      exact ⟨body, rfl, by simp⟩
    · rw [if_neg (by simpa using heq)] at h
      obtain ⟨place', hplace, rfl⟩ := Option.map_eq_some_iff.1 h
      obtain ⟨found, hfound, hlookup⟩ := ih hplace
      refine ⟨found, hfound, ?_⟩
      rw [List.lookup_cons, beq_eq_false_iff_ne.2 (Ne.symm heq)]
      exact hlookup

theorem Accepts.index_lookup (h : Accepts start rules table) (hkey : table.index? key = some place) :
    ∃ body, rules[place]? = some (key, body) ∧ rules.lookup key = some body := by
  rw [index?, h.keys_eq] at hkey
  exact lookup_of_idxOf? hkey

theorem idxOf?_eq_idxOf (h : key ∈ keys) : keys.idxOf? key = some (keys.idxOf key) := by
  induction keys with
  | nil => cases h
  | cons other rest ih =>
    rw [List.idxOf?_cons, List.idxOf_cons]
    by_cases heq : other = key
    · simp [heq]
    · have hrest : key ∈ rest := by
        rcases List.mem_cons.1 h with rfl | hrest
        · exact absurd rfl heq
        · exact hrest
      simp [ih hrest, beq_eq_false_iff_ne.2 heq]

/-- Places of rules that call each other before anything is consumed. -/
theorem Accepts.callsFirst_wellFounded (h : Accepts start rules table) :
    WellFounded fun callee caller => table.CallsFirst rules caller callee := by
  have hkeys : ∀ key place, table.index? key = some place →
      Acc (fun callee caller => table.CallsFirst rules caller callee) place := by
    intro key
    induction key using h.firstCalls_wellFounded.induction with
    | h key ih =>
      intro place hplace
      refine .intro place ?_
      rintro callee ⟨key', body, key'', hplace', hlookup, hcall, hcallee⟩
      obtain ⟨_, hrule, -⟩ := h.index_lookup hplace
      obtain ⟨_, hrule', -⟩ := h.index_lookup hplace'
      rw [hrule] at hrule'
      cases hrule'
      exact ih key'' ⟨body, hlookup, hcall⟩ callee hcallee
  refine ⟨fun place => .intro place ?_⟩
  rintro callee ⟨key, body, key', hplace, hlookup, hcall, hcallee⟩
  exact hkeys key' callee hcallee

/-- No rule comes back to itself before anything is consumed. -/
theorem Accepts.not_transGen_callsFirst (h : Accepts start rules table) :
    ¬ Relation.TransGen (table.CallsFirst rules) place place := by
  intro hcycle
  rw [← Relation.transGen_swap] at hcycle
  exact h.callsFirst_wellFounded.transGen.irrefl.irrefl place hcycle

theorem Accepts.index_start (h : Accepts start rules table) :
    table.index? start = some table.startIndex := by
  rw [index?, startIndex, h.start_eq]
  exact idxOf?_eq_idxOf h.start_mem

end

end RuleTable

end PegMachine
