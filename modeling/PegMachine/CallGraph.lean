import PegMachine.RuleKey

/-!
# Call graphs

* `saturate`: repeats a pass that adds keys until it adds none.
* `CallGraph.search`: a search for a rule among those that can be reached.
* `CallGraph.leftRecursive?`: the first rule that can reach itself.
-/

namespace PegMachine

/-- Repeats a pass that adds keys until it adds none, `n` times at most. -/
def saturate (pass : List RuleKey → List RuleKey) : (n : Nat) → List RuleKey → List RuleKey
  | 0, known => known
  | n + 1, known =>
    let next := pass known
    if next.length = known.length then known else saturate pass n next

/-! ## Calls -/

/-- The rules that each rule may call before it consumes anything. -/
abbrev CallGraph := List (RuleKey × List RuleKey)

namespace CallGraph

/-- The calls of a rule. -/
def calls (graph : CallGraph) (key : RuleKey) : List RuleKey :=
  (graph.lookup key).getD []

/-- Searches depth first for a rule among the pending ones and those they can reach, `n` steps at
most. What is called last is looked at first, and what was looked at before is passed over. -/
def search (graph : CallGraph) (wanted : RuleKey) :
    (n : Nat) → (visited pending : List RuleKey) → Option Bool
  | _, _, [] => some false
  | 0, _, _ :: _ => none
  | n + 1, visited, next :: rest =>
    if next = wanted then some true
    else if visited.contains next then search graph wanted n visited rest
    else search graph wanted n (next :: visited) ((graph.calls next).reverse ++ rest)

/-- As many steps as there are calls to follow from a rule. -/
def steps (graph : CallGraph) (key : RuleKey) : Nat :=
  (graph.calls key).length + (graph.flatMap fun entry => entry.2).length

/-- Whether a rule can reach itself, as the search finds out. -/
def reachesItself? (graph : CallGraph) (key : RuleKey) : Option Bool :=
  graph.search key (graph.steps key) [] (graph.calls key).reverse

/-- The first rule that can reach itself. -/
def leftRecursive? (graph : CallGraph) : Option RuleKey :=
  (graph.map Prod.fst).find? fun key => graph.reachesItself? key == some true

end CallGraph

end PegMachine
