import Mathlib.Order.WellFoundedSet
import PegMachine.CallGraph

/-!
# Saturation and left recursion

* `KeysAmong`: the lists that saturation goes through.
* `saturate_fixed`, `saturate_eq_iterate`: a pass leaves the saturated list as it is, and each pass
  before it adds a key.
* `CallGraph.Calls`: a rule calls another one.
* `CallGraph.exists_search`: the search ends.
* **`CallGraph.reachesItself?_eq`**: it finds a rule exactly if calls lead from it back to itself.
* `CallGraph.leftRecursive?_eq_none_iff`, `CallGraph.leftRecursive?_eq_some_iff`: left recursion is
  a cycle of calls, and the first rule on one is named.
* `CallGraph.callsWellFounded`: where no rule can reach itself, calls do not go on for ever.
-/

namespace PegMachine

/-- A list of different keys out of the given ones. -/
structure KeysAmong (keys known : List RuleKey) : Prop where
  nodup : known.Nodup
  subset : ∀ key ∈ known, key ∈ keys

/-- A pass that only adds keys, out of the given ones, in front. -/
structure AddsKeys (keys : List RuleKey) (pass : List RuleKey → List RuleKey) : Prop where
  among : ∀ known, KeysAmong keys known → KeysAmong keys (pass known)
  suffix : ∀ known, known <:+ pass known

section

variable {keys known : List RuleKey} {pass : List RuleKey → List RuleKey}

theorem KeysAmong.length_le (h : KeysAmong keys known) : known.length ≤ keys.length :=
  h.nodup.length_le_of_subset h.subset

theorem KeysAmong.nil : KeysAmong keys [] := ⟨.nil, by simp⟩

theorem KeysAmong.cons {key : RuleKey} (h : KeysAmong keys known) (hkey : key ∈ keys)
    (hnew : key ∉ known) : KeysAmong keys (key :: known) :=
  ⟨List.nodup_cons.2 ⟨hnew, h.nodup⟩, List.forall_mem_cons.2 ⟨hkey, h.subset⟩⟩

theorem saturate_induction {motive : List RuleKey → Prop}
    (hpass : ∀ known, motive known → motive (pass known)) (n : Nat) (h : motive known) :
    motive (saturate pass n known) := by
  induction n generalizing known with
  | zero => exact h
  | succ n ih =>
    rw [saturate]
    split
    · exact h
    · exact ih (hpass known h)

theorem KeysAmong.saturate (h : KeysAmong keys known) (hpass : AddsKeys keys pass) (n : Nat) :
    KeysAmong keys (saturate pass n known) :=
  saturate_induction hpass.among n h

/-- **With enough passes, the last one adds nothing.** -/
theorem saturate_fixed (h : KeysAmong keys known) (hpass : AddsKeys keys pass) (n : Nat)
    (hn : keys.length < known.length + n) :
    pass (saturate pass n known) = saturate pass n known := by
  induction n generalizing known with
  | zero =>
    have := h.length_le
    omega
  | succ n ih =>
    rw [saturate]
    split
    · next hsame => exact ((hpass.suffix known).eq_of_length hsame.symm).symm
    · next hgrown =>
      have hle := (hpass.suffix known).length_le
      exact ih (hpass.among known h) (by omega)

/-- Saturation is a number of passes, each of which adds a key. -/
theorem saturate_eq_iterate (hpass : AddsKeys keys pass) (n : Nat) (known : List RuleKey) :
    ∃ m, saturate pass n known = pass^[m] known ∧ known.length + m ≤ (pass^[m] known).length ∧
      ∀ k < m, (pass^[k] known).length < (pass^[k + 1] known).length := by
  induction n generalizing known with
  | zero => exact ⟨0, rfl, Nat.le_refl _, nofun⟩
  | succ n ih =>
    rw [saturate]
    split
    · exact ⟨0, rfl, Nat.le_refl _, nofun⟩
    · next hgrown =>
      have hle := (hpass.suffix known).length_le
      obtain ⟨m, hsaturate, hlength, hadds⟩ := ih (pass known)
      refine ⟨m + 1, hsaturate, by rw [Function.iterate_succ_apply]; omega, fun k hk => ?_⟩
      cases k with
      | zero => rw [Function.iterate_zero_apply, Function.iterate_one]; omega
      | succ k => exact hadds k (by omega)

end

/-! ## Calls -/

namespace CallGraph

variable {graph : CallGraph} {keys visited pending : List RuleKey} {key wanted : RuleKey} {n : Nat}

/-- A rule calls another one. -/
def Calls (graph : CallGraph) (caller callee : RuleKey) : Prop :=
  callee ∈ graph.calls caller

theorem Calls.exists_entry {caller : RuleKey} (h : graph.Calls caller key) :
    ∃ keys, (caller, keys) ∈ graph ∧ key ∈ keys := by
  rw [Calls, calls] at h
  cases hlookup : graph.lookup caller with
  | none => simp [hlookup] at h
  | some keys =>
    rw [hlookup] at h
    obtain ⟨before, behind, rfl, -⟩ := List.lookup_eq_some_iff.1 hlookup
    exact ⟨keys, by simp, h⟩

theorem calls_cons (entry : RuleKey × List RuleKey) (rest : CallGraph) (key : RuleKey) :
    calls (entry :: rest) key = if entry.1 = key then entry.2 else calls rest key := by
  obtain ⟨other, keys⟩ := entry
  by_cases heq : other = key
  · simp [calls, heq]
  · simp [calls, List.lookup_cons, heq, beq_eq_false_iff_ne.2 (Ne.symm heq)]

theorem mem_of_transGen {caller : RuleKey} (h : Relation.TransGen graph.Calls caller key) :
    caller ∈ graph.map Prod.fst := by
  obtain ⟨callee, hcall, -⟩ := Relation.TransGen.head'_iff.1 h
  obtain ⟨keys, hentry, -⟩ := hcall.exists_entry
  exact List.mem_map_of_mem hentry

/-! ## The search ends -/

/-- The number of calls to follow from the rules that were not visited. -/
def unvisited (graph : CallGraph) (visited : List RuleKey) : Nat :=
  ((graph.filter fun entry => !visited.contains entry.1).flatMap fun entry => entry.2).length

theorem unvisited_cons (entry : RuleKey × List RuleKey) (rest : CallGraph)
    (visited : List RuleKey) :
    unvisited (entry :: rest) visited =
      (if entry.1 ∈ visited then 0 else entry.2.length) + rest.unvisited visited := by
  by_cases h : entry.1 ∈ visited <;> simp [unvisited, h]

theorem unvisited_nil (graph : CallGraph) :
    graph.unvisited [] = (graph.flatMap fun entry => entry.2).length := by
  induction graph with
  | nil => rfl
  | cons entry rest ih => simp [unvisited_cons, ih]

theorem unvisited_visit_le (graph : CallGraph) (visited : List RuleKey) (key : RuleKey) :
    graph.unvisited (key :: visited) ≤ graph.unvisited visited := by
  induction graph with
  | nil => exact Nat.le_refl _
  | cons entry rest ih =>
    rw [unvisited_cons, unvisited_cons]
    refine Nat.add_le_add ?_ ih
    by_cases h : entry.1 ∈ visited <;> simp [h]
    split <;> omega

theorem unvisited_visit (graph : CallGraph) (h : key ∉ visited) :
    graph.unvisited (key :: visited) + (graph.calls key).length ≤ graph.unvisited visited := by
  induction graph with
  | nil => simp [unvisited, calls]
  | cons entry rest ih =>
    rw [unvisited_cons, unvisited_cons]
    rw [calls_cons]
    by_cases heq : entry.1 = key
    · have hle := unvisited_visit_le rest visited key
      rw [if_pos heq, if_pos (by simp [heq]), if_neg (heq ▸ h)]
      omega
    · rw [if_neg heq]
      simp only [List.mem_cons, heq, false_or]
      omega

/-- **The search ends.** -/
theorem exists_search (hn : pending.length + graph.unvisited visited ≤ n) :
    ∃ found, graph.search wanted n visited pending = some found := by
  induction n generalizing visited pending with
  | zero =>
    have hnil : pending = [] := List.length_eq_zero_iff.1 (by omega)
    exact ⟨false, by rw [hnil, search]⟩
  | succ n ih =>
    cases pending with
    | nil => exact ⟨false, by rw [search]⟩
    | cons next rest =>
      rw [List.length_cons] at hn
      rw [search]
      split
      · exact ⟨true, rfl⟩
      · split
        · exact ih (by omega)
        · next hnew =>
          have hvisit := graph.unvisited_visit (show next ∉ _ by simpa using hnew)
          refine ih ?_
          rw [List.length_append, List.length_reverse]
          omega

/-! ## What the search finds -/

theorem reaches_of_search (h : graph.search wanted n visited pending = some true) :
    ∃ key ∈ pending, Relation.ReflTransGen graph.Calls key wanted := by
  induction n generalizing visited pending with
  | zero => cases pending <;> simp [search] at h
  | succ n ih =>
    cases pending with
    | nil => simp [search] at h
    | cons next rest =>
      rw [search] at h
      split at h
      · next hnext => exact ⟨next, by simp, hnext ▸ .refl⟩
      · split at h
        · obtain ⟨key, hkey, hreach⟩ := ih h
          exact ⟨key, List.mem_cons_of_mem _ hkey, hreach⟩
        · obtain ⟨key, hkey, hreach⟩ := ih h
          rw [List.mem_append, List.mem_reverse] at hkey
          rcases hkey with hcall | hrest
          · exact ⟨next, by simp, .head hcall hreach⟩
          · exact ⟨key, List.mem_cons_of_mem _ hrest, hreach⟩

/-- A search in vain leaves rules that call each other only, without the wanted one: all that were
visited and all that were pending. -/
theorem closed_of_search (h : graph.search wanted n visited pending = some false)
    (hwanted : wanted ∉ visited)
    (hcalls : ∀ caller ∈ visited, ∀ callee, graph.Calls caller callee →
      callee ∈ visited ∨ callee ∈ pending) :
    ∃ known : List RuleKey, wanted ∉ known ∧ (∀ key ∈ pending, key ∈ known) ∧
      (∀ key ∈ visited, key ∈ known) ∧
      ∀ caller ∈ known, ∀ callee, graph.Calls caller callee → callee ∈ known := by
  induction n generalizing visited pending with
  | zero =>
    cases pending with
    | nil => exact ⟨visited, hwanted, by simp, fun _ => id, by simpa using hcalls⟩
    | cons next rest => simp [search] at h
  | succ n ih =>
    cases pending with
    | nil => exact ⟨visited, hwanted, by simp, fun _ => id, by simpa using hcalls⟩
    | cons next rest =>
      rw [search] at h
      split at h
      · cases h
      · next hnext =>
        split at h
        · next hold =>
          obtain ⟨known, hknown, hpending, hvisited, hclosed⟩ := ih h hwanted (by grind)
          refine ⟨known, hknown, List.forall_mem_cons.2 ⟨?_, hpending⟩, hvisited, hclosed⟩
          exact hvisited next (by simpa using hold)
        · obtain ⟨known, hknown, hpending, hvisited, hclosed⟩ := ih h (by grind) (by grind [Calls])
          exact ⟨known, hknown, by grind, by grind, hclosed⟩

/-- What a rule leads to is among keys with its calls and the calls of each other. -/
theorem mem_of_closed {known : List RuleKey} {caller : RuleKey}
    (hclosed : ∀ caller ∈ known, ∀ callee, graph.Calls caller callee → callee ∈ known)
    (hcalls : ∀ callee, graph.Calls caller callee → callee ∈ known)
    (h : Relation.TransGen graph.Calls caller key) : key ∈ known := by
  induction h with
  | single hcall => exact hcalls _ hcall
  | tail _ hcall ih => exact hclosed _ ih _ hcall

/-- **The search ends, and finds a rule exactly if calls lead from it back to itself.** -/
theorem reachesItself?_eq (graph : CallGraph) (key : RuleKey) :
    ∃ found, graph.reachesItself? key = some found ∧
      (found = true ↔ Relation.TransGen graph.Calls key key) := by
  have hsteps : (graph.calls key).reverse.length + graph.unvisited [] ≤ graph.steps key := by
    rw [steps, List.length_reverse, unvisited_nil]
  obtain ⟨found, hfound⟩ : ∃ found, graph.reachesItself? key = some found := exists_search hsteps
  refine ⟨found, hfound, ?_⟩
  constructor
  · rintro rfl
    obtain ⟨callee, hcall, hreach⟩ := reaches_of_search hfound
    exact .head' (List.mem_reverse.1 hcall) hreach
  · intro hcycle
    cases found with
    | true => rfl
    | false =>
      obtain ⟨known, hkey, hpending, -, hclosed⟩ := closed_of_search hfound (by simp) (by simp)
      have hcalls : ∀ callee, graph.Calls key callee → callee ∈ known := fun callee hcall =>
        hpending callee (List.mem_reverse.2 hcall)
      exact absurd (mem_of_closed hclosed hcalls hcycle) hkey

/-! ## Left recursion -/

theorem reachesItself?_iff :
    graph.reachesItself? key = some true ↔ Relation.TransGen graph.Calls key key := by
  obtain ⟨found, hfound, hiff⟩ := graph.reachesItself?_eq key
  rw [hfound, Option.some_inj, hiff]

/-- The first rule on a cycle of calls is named. -/
theorem leftRecursive?_eq_some_iff :
    graph.leftRecursive? = some key ↔ ∃ before behind,
      graph.map Prod.fst = before ++ key :: behind ∧ Relation.TransGen graph.Calls key key ∧
        ∀ other ∈ before, ¬ Relation.TransGen graph.Calls other other := by
  rw [leftRecursive?, List.find?_eq_some_iff_append]
  simp only [beq_iff_eq, reachesItself?_iff, Bool.not_eq_true', beq_eq_false_iff_ne, ne_eq]
  grind

theorem leftRecursive?_eq_none_iff :
    graph.leftRecursive? = none ↔ ∀ key, ¬ Relation.TransGen graph.Calls key key := by
  rw [leftRecursive?, List.find?_eq_none]
  simp only [beq_iff_eq, reachesItself?_iff]
  exact ⟨fun h key hcycle => h key (mem_of_transGen hcycle) hcycle, fun h key _ => h key⟩

/-- **Where no rule can reach itself, calls do not go on for ever.** -/
theorem callsWellFounded (h : graph.leftRecursive? = none) :
    WellFounded fun callee caller => graph.Calls caller callee := by
  have : IsStrictOrder RuleKey fun callee caller => Relation.TransGen graph.Calls caller callee :=
    { irrefl := leftRecursive?_eq_none_iff.1 h
      trans := fun _ _ _ hab hbc => hbc.trans hab }
  have hentries := (List.finite_toSet (graph.map Prod.fst)).wellFoundedOn
    (r := fun callee caller => Relation.TransGen graph.Calls caller callee)
  rw [Set.wellFoundedOn_iff] at hentries
  refine ⟨fun key => ?_⟩
  induction key using hentries.induction with
  | h key ih =>
    refine .intro key fun callee hcall => ?_
    have hkey := mem_of_transGen (.single hcall)
    by_cases hcallee : callee ∈ graph.map Prod.fst
    · exact ih callee ⟨.single hcall, hcallee, hkey⟩
    · -- a rule without an entry calls nothing
      exact .intro callee fun _ hcall' => absurd (mem_of_transGen (.single hcall')) hcallee

end CallGraph

end PegMachine
