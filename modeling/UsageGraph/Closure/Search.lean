/-! Searches that remember where they have been.

A search comes to an end because each node is new to it only once. How many of some nodes
have not been visited is counted by `unvisited`.
-/

set_option autoImplicit false
namespace UsageGraph.Search

variable {α : Type} [DecidableEq α]

/-- The nodes that have not been visited, each once and in their order. -/
def fresh (visited : List α) : List α → List α
  | [] => []
  | node :: rest => if node ∈ visited then fresh visited rest else node :: fresh (visited ++ [node]) rest

def unvisited (nodes visited : List α) : Nat := nodes.countP fun node => node ∉ visited

theorem unvisited_append_singleton {visited : List α} {node : α} (new : node ∉ visited) (nodes : List α) :
    unvisited nodes (visited ++ [node]) + (if node ∈ nodes then 1 else 0) ≤ unvisited nodes visited := by
  unfold unvisited
  induction nodes with
  | nil => simp
  | cons first rest ih =>
    by_cases same : first = node
    · have fewer : rest.countP (fun other => other ∉ visited ++ [node]) ≤ rest.countP (fun other => other ∉ visited) :=
        List.countP_mono_left fun other _ => by simpa using fun absent _ => absent
      simpa [same, new, List.countP_cons] using fewer
    · have other : ¬ node = first := fun equal => same equal.symm
      by_cases known : first ∈ visited <;> simp [known, same, other] at ih ⊢ <;> omega

theorem unvisited_append_fresh (nodes visited found : List α) :
    unvisited nodes (visited ++ fresh visited found) + (fresh visited found).countP (fun node => node ∈ nodes) ≤
      unvisited nodes visited := by
  induction found generalizing visited with
  | nil => simp [fresh]
  | cons first rest ih =>
    unfold fresh
    split
    · exact ih visited
    next new =>
      have visitedOne := unvisited_append_singleton new nodes
      have visitedRest := ih (visited ++ [first])
      simp only [List.append_assoc, List.singleton_append] at visitedRest
      rw [List.countP_cons]
      by_cases counted : first ∈ nodes <;> simp [counted] at visitedOne ⊢ <;> omega

end UsageGraph.Search
