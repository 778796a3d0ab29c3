import UsageGraph.Key

/-! The order of keys: owners first, then names, then what tells equal names apart.

Strings compare by code points. A member without a signature comes before every
member of that name with one, and parameter lists compare lexicographically.
-/

set_option autoImplicit false
namespace UsageGraph

open Std (TransCmp TransOrd LawfulEqOrd)

instance : Ord AssemblyKey := ⟨compareOn AssemblyKey.name⟩

instance : Ord NamespaceKey :=
  ⟨compareLex (compareOn NamespaceKey.assembly) (compareOn NamespaceKey.name)⟩

instance : Ord TypeKey :=
  ⟨compareLex (compareOn TypeKey.space) (compareLex (compareOn TypeKey.name) (compareOn TypeKey.arity))⟩

instance : Ord Signature :=
  ⟨compareLex (compareOn Signature.parameters) (compareOn Signature.arity)⟩

instance : Ord MemberKey :=
  ⟨compareLex (compareOn MemberKey.owner)
    (compareLex (compareOn MemberKey.name) (compareOn MemberKey.signature))⟩

instance : TransOrd AssemblyKey := inferInstanceAs (TransCmp (compareOn AssemblyKey.name))

instance : TransOrd NamespaceKey :=
  inferInstanceAs (TransCmp (compareLex (compareOn NamespaceKey.assembly) (compareOn NamespaceKey.name)))

instance : TransOrd TypeKey :=
  inferInstanceAs (TransCmp (compareLex (compareOn TypeKey.space)
    (compareLex (compareOn TypeKey.name) (compareOn TypeKey.arity))))

instance : TransOrd Signature :=
  inferInstanceAs (TransCmp (compareLex (compareOn Signature.parameters) (compareOn Signature.arity)))

instance : TransOrd MemberKey :=
  inferInstanceAs (TransCmp (compareLex (compareOn MemberKey.owner)
    (compareLex (compareOn MemberKey.name) (compareOn MemberKey.signature))))

instance : LawfulEqOrd AssemblyKey where
  eq_of_compare {first second} equal := by
    have name : compare first.name second.name = .eq := equal
    have name := LawfulEqOrd.eq_of_compare name
    cases first
    cases second
    simp_all

instance : LawfulEqOrd NamespaceKey where
  eq_of_compare {first second} equal := by
    obtain ⟨assembly, name⟩ := compareLex_eq_eq.mp equal
    have assembly := LawfulEqOrd.eq_of_compare (show compare first.assembly second.assembly = .eq from assembly)
    have name := LawfulEqOrd.eq_of_compare (show compare first.name second.name = .eq from name)
    cases first
    cases second
    simp_all

instance : LawfulEqOrd TypeKey where
  eq_of_compare {first second} equal := by
    obtain ⟨space, rest⟩ := compareLex_eq_eq.mp equal
    obtain ⟨name, arity⟩ := compareLex_eq_eq.mp rest
    have space := LawfulEqOrd.eq_of_compare (show compare first.space second.space = .eq from space)
    have name := LawfulEqOrd.eq_of_compare (show compare first.name second.name = .eq from name)
    have arity := LawfulEqOrd.eq_of_compare (show compare first.arity second.arity = .eq from arity)
    cases first
    cases second
    simp_all

instance : LawfulEqOrd Signature where
  eq_of_compare {first second} equal := by
    obtain ⟨parameters, arity⟩ := compareLex_eq_eq.mp equal
    have parameters := LawfulEqOrd.eq_of_compare (show compare first.parameters second.parameters = .eq from parameters)
    have arity := LawfulEqOrd.eq_of_compare (show compare first.arity second.arity = .eq from arity)
    cases first
    cases second
    simp_all

instance : LawfulEqOrd MemberKey where
  eq_of_compare {first second} equal := by
    obtain ⟨owner, rest⟩ := compareLex_eq_eq.mp equal
    obtain ⟨name, signature⟩ := compareLex_eq_eq.mp rest
    have owner := LawfulEqOrd.eq_of_compare (show compare first.owner second.owner = .eq from owner)
    have name := LawfulEqOrd.eq_of_compare (show compare first.name second.name = .eq from name)
    have signature := LawfulEqOrd.eq_of_compare (show compare first.signature second.signature = .eq from signature)
    cases first
    cases second
    simp_all

/-- The keys in order, each once. -/
def sortedDistinct {κ : Type} [DecidableEq κ] [Ord κ] (keys : List κ) : List κ :=
  keys.eraseDups.mergeSort fun first second => (compare first second).isLE

end UsageGraph
