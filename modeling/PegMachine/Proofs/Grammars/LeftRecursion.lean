import PegMachine.Proofs.Grammars.Tables
import PegMachine.Proofs.Semantics.Derives

/-!
# Left recursion

* `RuleTable.Collects`: the calls collected from the body of a rule.
* `RuleTable.OnCycle`: a rule that calls lead back to.
* **`RuleTable.leftRecursion_iff`**: a grammar is refused for left recursion exactly if a rule is on
  a cycle of collected calls, and the first such rule is named.
-/

namespace PegMachine.RuleTable

/-- A rule is among the first calls of the body of another one, under the nullability found. -/
def Collects (rules : Rules) (caller callee : RuleKey) : Prop :=
  ∃ body, rules.lookup caller = some body ∧ callee ∈ firstCalls (nullableRules rules) body

/-- Calls collected from the bodies of rules lead from a rule back to itself. -/
def OnCycle (rules : Rules) (key : RuleKey) : Prop :=
  Relation.TransGen (Collects rules) key key

variable {rules : Rules} {start key : RuleKey}

theorem calls_eq_collects : (callGraph (nullableRules rules) rules).Calls = Collects rules := by
  ext caller callee
  exact calls_callGraph

theorem OnCycle.exists_rule (h : OnCycle rules key) : ∃ rule ∈ rules, rule.1 = key := by
  rw [OnCycle, ← calls_eq_collects] at h
  have hmem := CallGraph.mem_of_transGen h
  rw [map_fst_callGraph] at hmem
  exact List.mem_map.1 hmem

theorem map_fst_eq_append_iff {before behind : List RuleKey} :
    rules.map Prod.fst = before ++ key :: behind ↔ ∃ front body back,
      rules = front ++ (key, body) :: back ∧ front.map Prod.fst = before ∧
        back.map Prod.fst = behind := by
  rw [List.map_eq_append_iff]
  constructor
  · rintro ⟨front, rest, rfl, rfl, hrest⟩
    obtain ⟨⟨_, body⟩, back, rfl, rfl, rfl⟩ := List.map_eq_cons_iff.1 hrest
    exact ⟨front, body, back, rfl, rfl, rfl⟩
  · rintro ⟨front, body, back, rfl, rfl, rfl⟩
    exact ⟨front, _, rfl, rfl, rfl⟩

/-- The first rule on a cycle is named. -/
theorem ofRules_eq_error_iff (h : Defined start rules) :
    ofRules start rules = .error (.leftRecursion key) ↔
      ∃ before body behind, rules = before ++ (key, body) :: behind ∧ OnCycle rules key ∧
        ∀ rule ∈ before, ¬ OnCycle rules rule.1 := by
  have hfirst : ofRules start rules = .error (.leftRecursion key) ↔
      (callGraph (nullableRules rules) rules).leftRecursive? = some key := by
    rw [ofRules_eq h]
    split <;> simp_all
  rw [hfirst, CallGraph.leftRecursive?_eq_some_iff, calls_eq_collects, map_fst_callGraph]
  simp only [map_fst_eq_append_iff]
  constructor
  · rintro ⟨_, _, ⟨before, body, behind, hrules, rfl, rfl⟩, hcycle, hbefore⟩
    exact ⟨before, body, behind, hrules, hcycle, fun rule hrule =>
      hbefore rule.1 (List.mem_map_of_mem hrule)⟩
  · rintro ⟨before, body, behind, hrules, hcycle, hbefore⟩
    refine ⟨_, _, ⟨before, body, behind, hrules, rfl, rfl⟩, hcycle, fun other hother => ?_⟩
    obtain ⟨rule, hrule, rfl⟩ := List.mem_map.1 hother
    exact hbefore rule hrule

theorem exists_ofRules_iff (h : Defined start rules) :
    (∃ table, ofRules start rules = .ok table) ↔ ∀ rule ∈ rules, ¬ OnCycle rules rule.1 := by
  have hnone : (∃ table, ofRules start rules = .ok table) ↔
      (callGraph (nullableRules rules) rules).leftRecursive? = none := by
    rw [ofRules_eq h]
    split <;> simp_all
  rw [hnone, CallGraph.leftRecursive?_eq_none_iff, calls_eq_collects]
  constructor
  · exact fun hacyclic rule _ => hacyclic rule.1
  · intro hacyclic key hcycle
    obtain ⟨rule, hrule, rfl⟩ := OnCycle.exists_rule hcycle
    exact hacyclic rule hrule hcycle

theorem exists_leftRecursion_iff (h : Defined start rules) :
    (∃ key, ofRules start rules = .error (.leftRecursion key)) ↔
      ∃ rule ∈ rules, OnCycle rules rule.1 := by
  have hnot : (∃ key, ofRules start rules = .error (.leftRecursion key)) ↔
      ¬ ∃ table, ofRules start rules = .ok table := by
    rw [ofRules_eq h]
    split <;> simp
  rw [hnot, exists_ofRules_iff h]
  simp only [not_forall, not_not, exists_prop]

/-- **Left recursion is found exactly.** Rules with different keys, among them the start, and a rule
for each reference are refused for a rule exactly if it is the first one on a cycle of the calls
collected from their bodies; there is such a rule if any rule is on a cycle, and else they have a
table. The search behind it ends on every graph, and finds what calls lead back to and no more. -/
theorem leftRecursion_iff (h : Defined start rules) :
    (∀ key, ofRules start rules = .error (.leftRecursion key) ↔
      ∃ before body behind, rules = before ++ (key, body) :: behind ∧ OnCycle rules key ∧
        ∀ rule ∈ before, ¬ OnCycle rules rule.1) ∧
    ((∃ key, ofRules start rules = .error (.leftRecursion key)) ↔
      ∃ rule ∈ rules, OnCycle rules rule.1) ∧
    ((∃ table, ofRules start rules = .ok table) ↔ ∀ rule ∈ rules, ¬ OnCycle rules rule.1) ∧
    ∀ (graph : CallGraph) (key : RuleKey), ∃ found, graph.reachesItself? key = some found ∧
      (found = true ↔ Relation.TransGen graph.Calls key key) :=
  ⟨fun _ => ofRules_eq_error_iff h, exists_leftRecursion_iff h, exists_ofRules_iff h,
    CallGraph.reachesItself?_eq⟩

/-- Rules of which the first leads to a cycle that it is not on, through a prefix that may be
empty. -/
def circling : Rules :=
  [(.index 0, .choice (.rule (.index 1)) (.literal #[97])),
    (.index 1, .seq (.rep (.literal #[97]) 0) (.rule (.index 2))),
    (.index 2, .choice (.literal #[98]) (.rule (.index 1)))]

theorem circling_leftRecursion :
    Defined (.index 0) circling ∧
      ofRules (.index 0) circling = .error (.leftRecursion (.index 1)) ∧
      ∃ before body behind, circling = before ++ (.index 1, body) :: behind ∧
        OnCycle circling (.index 1) ∧ ∀ rule ∈ before, ¬ OnCycle circling rule.1 := by
  have hdefined : Defined (.index 0) circling :=
    ⟨nofun, by decide, by decide, by simp [circling, undefinedRule?]⟩
  have hrefused : ofRules (.index 0) circling = .error (.leftRecursion (.index 1)) := by rfl
  exact ⟨hdefined, hrefused, ((leftRecursion_iff hdefined).1 _).1 hrefused⟩

end PegMachine.RuleTable
