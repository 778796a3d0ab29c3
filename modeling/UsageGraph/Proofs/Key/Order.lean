import UsageGraph.Key.Order

/-! Keys are ordered linearly, and first of all by their owners.

Two keys compare as equal only if they are the same. Keys of different owners compare as the
owners do, so in an ascending list the keys of each owner stand together: the members of one
type, the types of one namespace, the namespaces of one assembly.
-/

set_option autoImplicit false
namespace UsageGraph

open Std (OrientedCmp OrientedOrd TransCmp TransOrd LawfulEqOrd)

variable {κ ο : Type} [Ord κ] [Ord ο]

def Ascends (keys : List κ) : Prop := keys.Pairwise fun first second => (compare first second).isLE

/-- Of two different keys one comes before the other, and every list of keys can be put in order. -/
structure OrderedLinearly (κ : Type) [DecidableEq κ] [Ord κ] : Prop where
  total : ∀ first second : κ, (compare first second).isLE ∨ (compare second first).isLE
  trans : ∀ {first second third : κ},
    (compare first second).isLE → (compare second third).isLE → (compare first third).isLE
  antisymm : ∀ {first second : κ}, (compare first second).isLE → (compare second first).isLE → first = second
  swap : ∀ first second : κ, compare first second = (compare second first).swap
  equal_iff : ∀ {first second : κ}, compare first second = .eq ↔ first = second
  sorted : ∀ keys : List κ, Ascends (sortedDistinct keys) ∧ ∀ key, key ∈ sortedDistinct keys ↔ key ∈ keys

theorem isLE_or_isLE [OrientedOrd κ] (first second : κ) :
    (compare first second).isLE ∨ (compare second first).isLE := by
  rw [OrientedOrd.eq_swap (a := first) (b := second)]
  cases compare second first <;> simp

theorem ascends_sortedDistinct [DecidableEq κ] [TransOrd κ] (keys : List κ) : Ascends (sortedDistinct keys) :=
  List.pairwise_mergeSort (fun _ _ _ => TransCmp.isLE_trans)
    (fun first second => by simpa using isLE_or_isLE first second) keys.eraseDups

theorem mem_sortedDistinct [DecidableEq κ] {keys : List κ} {key : κ} : key ∈ sortedDistinct keys ↔ key ∈ keys := by
  rw [sortedDistinct, List.mem_mergeSort, List.mem_eraseDups]

theorem OrderedLinearly.of_lawful [DecidableEq κ] [TransOrd κ] [LawfulEqOrd κ] : OrderedLinearly κ where
  total := isLE_or_isLE
  trans := TransCmp.isLE_trans
  antisymm lower higher := LawfulEqOrd.eq_of_compare (OrientedCmp.isLE_antisymm lower higher)
  swap _ _ := OrientedOrd.eq_swap
  equal_iff := LawfulEqOrd.compare_eq_iff_eq
  sorted keys := ⟨ascends_sortedDistinct keys, fun _ => mem_sortedDistinct⟩

/-- Keys of different owners compare as their owners do, and in a list in order no key of another owner stands between
two keys of one. -/
structure OrderedByOwner [DecidableEq ο] (owner : κ → ο) : Prop where
  compares : ∀ first second, owner first ≠ owner second →
    compare first second = compare (owner first) (owner second)
  together : ∀ (keys : List κ) (one : ο), Ascends keys → (keys.filter fun key => owner key = one) <:+: keys

section Grouping

variable [TransOrd ο] [LawfulEqOrd ο] [DecidableEq ο] {owner : κ → ο}
    (rises : ∀ {first second}, (compare first second).isLE → (compare (owner first) (owner second)).isLE)
include rises

theorem filter_prefix_of_ascends {keys : List κ} (ascends : Ascends keys) {one : ο}
    (least : ∀ key ∈ keys, (compare one (owner key)).isLE) : (keys.filter fun key => owner key = one) <+: keys := by
  induction keys with
  | nil => exact List.prefix_rfl
  | cons key rest ih =>
    obtain ⟨before, ascends⟩ := List.pairwise_cons.mp ascends
    by_cases own : owner key = one
    · rw [List.filter_cons_of_pos (by simpa using own)]
      exact (List.prefix_cons_inj key).mpr (ih ascends fun other member => least other (List.mem_cons_of_mem _ member))
    · -- the owner of the first key comes after the given one, and so do the owners of all others
      have none : (key :: rest).filter (fun key => owner key = one) = [] := by
        rw [List.filter_eq_nil_iff]
        intro other member same
        obtain rfl : owner other = one := by simpa using same
        rcases List.mem_cons.mp member with rfl | member
        · exact own rfl
        · exact own (LawfulEqOrd.eq_of_compare
            (OrientedCmp.isLE_antisymm (rises (before other member)) (least key List.mem_cons_self)))
      exact none ▸ List.nil_prefix

/-- In a list in order the keys of one owner stand together. -/
theorem filter_infix_of_ascends {keys : List κ} (ascends : Ascends keys) (one : ο) :
    (keys.filter fun key => owner key = one) <:+: keys := by
  induction keys with
  | nil => exact List.infix_rfl
  | cons key rest ih =>
    obtain ⟨before, ascends⟩ := List.pairwise_cons.mp ascends
    by_cases own : owner key = one
    · subst own
      have least : ∀ other ∈ rest, (compare (owner key) (owner other)).isLE := fun other member =>
        rises (before other member)
      rw [List.filter_cons_of_pos (by simp)]
      exact ((List.prefix_cons_inj key).mpr (filter_prefix_of_ascends rises ascends least)).isInfix
    · rw [List.filter_cons_of_neg (by simpa using own)]
      exact List.infix_cons (ih ascends)

end Grouping

theorem OrderedByOwner.of_compareLex [TransOrd ο] [LawfulEqOrd ο] [DecidableEq ο] {owner : κ → ο}
    {rest : κ → κ → Ordering}
    (lex : ∀ first second : κ, compare first second = compareLex (compareOn owner) rest first second) :
    OrderedByOwner owner := by
  have compares : ∀ first second, owner first ≠ owner second →
      compare first second = compare (owner first) (owner second) := by
    intro first second other
    have differ : compare (owner first) (owner second) ≠ .eq := fun same =>
      other (LawfulEqOrd.eq_of_compare same)
    rw [lex, compareLex, compareOn]
    cases told : compare (owner first) (owner second) with
    | lt => rfl
    | gt => rfl
    | eq => exact absurd told differ
  have rises : ∀ {first second : κ}, (compare first second).isLE → (compare (owner first) (owner second)).isLE := by
    intro first second lower
    by_cases same : owner first = owner second
    · rw [same, LawfulEqOrd.compare_eq_iff_eq.mpr rfl]
      rfl
    · exact compares first second same ▸ lower
  exact ⟨compares, fun keys one ascends => filter_infix_of_ascends rises ascends one⟩

/-- The order of keys is linear, tells all different keys apart and puts the keys of one owner together, on all levels. -/
theorem keys_ordered_by_owners :
    (OrderedLinearly AssemblyKey ∧ OrderedLinearly NamespaceKey ∧ OrderedLinearly TypeKey ∧
      OrderedLinearly MemberKey) ∧
    OrderedByOwner NamespaceKey.assembly ∧ OrderedByOwner TypeKey.space ∧ OrderedByOwner MemberKey.owner :=
  ⟨⟨.of_lawful, .of_lawful, .of_lawful, .of_lawful⟩,
    .of_compareLex fun _ _ => rfl, .of_compareLex fun _ _ => rfl, .of_compareLex fun _ _ => rfl⟩

-- The assemblies of parameters and the generic arities count, also where the texts of the keys are the same.
example :
    let write (assembly : String) (typeArity arity : Nat) : MemberKey :=
      ⟨⟨⟨⟨"app"⟩, ""⟩, "Console", 0⟩, "Write", some ⟨[⟨⟨⟨assembly⟩, "Core"⟩, "Text", typeArity⟩], arity⟩⟩
    (write "core" 0 0).text = (write "text" 0 0).text ∧ compare (write "core" 0 0) (write "text" 0 0) = .lt ∧
      compare (write "core" 1 0) (write "core" 0 2) = .gt ∧ compare (write "core" 0 2) (write "core" 0 0) = .gt := by
  decide

end UsageGraph
