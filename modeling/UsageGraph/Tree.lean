/-! Finite trees with ordered children: a reference with its generic arguments, a type with its nested types. -/

set_option autoImplicit false
namespace UsageGraph

inductive Tree (α : Type) where
  | node (label : α) (children : List (Tree α))

namespace Tree

variable {α : Type}

def label : Tree α → α
  | .node label _ => label

def children : Tree α → List (Tree α)
  | .node _ children => children

def leaf (label : α) : Tree α := .node label []

mutual

def subtrees : Tree α → List (Tree α)
  | .node label children => .node label children :: forestSubtrees children

def forestSubtrees : List (Tree α) → List (Tree α)
  | [] => []
  | tree :: rest => tree.subtrees ++ forestSubtrees rest

end

/-- The labels of a tree, each before those of its children. -/
def preorder (tree : Tree α) : List α := tree.subtrees.map label

mutual

def decEq [DecidableEq α] : (first second : Tree α) → Decidable (first = second)
  | .node label children, .node label' children' =>
    if sameLabel : label = label' then
      match decEqForest children children' with
      | isTrue sameChildren => isTrue (by rw [sameLabel, sameChildren])
      | isFalse differ => isFalse fun same => differ (by injection same)
    else isFalse fun same => sameLabel (by injection same)

def decEqForest [DecidableEq α] : (first second : List (Tree α)) → Decidable (first = second)
  | [], [] => isTrue rfl
  | [], _ :: _ => isFalse nofun
  | _ :: _, [] => isFalse nofun
  | tree :: rest, tree' :: rest' =>
    match decEq tree tree', decEqForest rest rest' with
    | isTrue sameTree, isTrue sameRest => isTrue (by rw [sameTree, sameRest])
    | isFalse differ, _ => isFalse fun same => differ (by injection same)
    | _, isFalse differ => isFalse fun same => differ (by injection same)

end

instance [DecidableEq α] : DecidableEq (Tree α) := decEq

theorem forestSubtrees_eq_flatMap (forest : List (Tree α)) :
    forestSubtrees forest = forest.flatMap subtrees := by
  induction forest with
  | nil => simp [forestSubtrees]
  | cons tree rest ih => simp [forestSubtrees, ih]

theorem preorder_node (label : α) (children : List (Tree α)) :
    (Tree.node label children).preorder = label :: children.flatMap preorder := by
  simp only [preorder, subtrees, forestSubtrees_eq_flatMap, List.map_cons, List.map_flatMap, Tree.label]
  rfl

end Tree

end UsageGraph
