import Mathlib.Tactic.Common
import UsageGraph.Key

/-! Types and their full names.

A full name is read by cutting it at its last dot, so what follows the cut has no dot. A
type without generic parameters is found again from its full name unless its own name has
a dot. A text is found again from the type that it is read as, unless it is a dot before
a simple name: it is read as a type of the global namespace, and these are written without
a dot.
-/

set_option autoImplicit false
namespace UsageGraph.TypeKey

theorem splitAtLastDot_of_dotless {text : List Char} (dotless : '.' ∉ text) : splitAtLastDot text = none := by
  induction text with
  | nil => rfl
  | cons first rest ih =>
    rw [List.mem_cons, not_or] at dotless
    simp [splitAtLastDot, ih dotless.2, Ne.symm dotless.1]

theorem splitAtLastDot_append (before : List Char) {after : List Char} (dotless : '.' ∉ after) :
    splitAtLastDot (before ++ '.' :: after) = some (before, after) := by
  induction before with
  | nil => simp [splitAtLastDot, splitAtLastDot_of_dotless dotless]
  | cons first rest ih => simp [splitAtLastDot, ih]

theorem dotless_or_cut (text : String) :
    '.' ∉ text.toList ∨ ∃ before after : String, text = before ++ "." ++ after ∧ '.' ∉ after.toList := by
  by_cases dotted : '.' ∈ text.toList
  · -- the last dot is the first one from behind
    obtain ⟨behind, front, cut, dotless⟩ := List.eq_append_cons_of_mem (List.mem_reverse.mpr dotted)
    refine .inr ⟨String.ofList front.reverse, String.ofList behind.reverse, String.toList_inj.mp ?_,
      by simpa using dotless⟩
    rw [← List.reverse_reverse text.toList, cut]
    simp
  · exact .inl dotted

section Reading

variable (assembly : AssemblyKey)

theorem ofFullName_of_dotless {name : String} (dotless : '.' ∉ name.toList) :
    ofFullName assembly name = ⟨⟨assembly, ""⟩, name, 0⟩ := by
  rw [ofFullName, splitAtLastDot_of_dotless dotless]

theorem ofFullName_of_cut (before : String) {after : String} (dotless : '.' ∉ after.toList) :
    ofFullName assembly (before ++ "." ++ after) = ⟨⟨assembly, before⟩, after, 0⟩ := by
  have cut : (before ++ "." ++ after).toList = before.toList ++ '.' :: after.toList := by simp
  simp [ofFullName, cut, splitAtLastDot_append _ dotless]

theorem dotless_name_ofFullName (name : String) : '.' ∉ (ofFullName assembly name).name.toList := by
  rcases dotless_or_cut name with dotless | ⟨before, after, rfl, dotless⟩
  · rwa [ofFullName_of_dotless assembly dotless]
  · rwa [ofFullName_of_cut assembly before dotless]

end Reading

theorem fullName_of_global (assembly : AssemblyKey) (name : String) :
    fullName ⟨⟨assembly, ""⟩, name, 0⟩ = name := by
  simp [fullName, NamespaceKey.isGlobal, arityMark]

theorem fullName_of_named (assembly : AssemblyKey) {space : String} (named : space ≠ "") (name : String) :
    fullName ⟨⟨assembly, space⟩, name, 0⟩ = space ++ "." ++ name := by
  simp [fullName, NamespaceKey.isGlobal, arityMark, named]

/-- A dot before a simple name is lost. -/
theorem fullName_ofFullName_of_leadingDot (assembly : AssemblyKey) {simple : String} (dotless : '.' ∉ simple.toList) :
    (ofFullName assembly ("." ++ simple)).fullName = simple := by
  have read := ofFullName_of_cut assembly "" dotless
  rw [String.empty_append] at read
  rw [read, fullName_of_global]

theorem fullName_ofFullName_iff (assembly : AssemblyKey) (name : String) :
    (ofFullName assembly name).fullName = name ↔ ¬ ∃ simple : String, name = "." ++ simple ∧ '.' ∉ simple.toList := by
  constructor
  · rintro same ⟨simple, rfl, dotless⟩
    rw [fullName_ofFullName_of_leadingDot assembly dotless] at same
    simpa using congrArg String.length same
  · intro otherwise
    rcases dotless_or_cut name with dotless | ⟨before, after, rfl, dotless⟩
    · rw [ofFullName_of_dotless assembly dotless, fullName_of_global]
    · have named : before ≠ "" := by
        rintro rfl
        exact otherwise ⟨after, by rw [String.empty_append], dotless⟩
      rw [ofFullName_of_cut assembly before dotless, fullName_of_named assembly named]

theorem ofFullName_fullName_iff {key : TypeKey} (plain : key.arity = 0) :
    ofFullName key.assembly key.fullName = key ↔ '.' ∉ key.name.toList := by
  constructor
  · intro same
    rw [← same]
    exact dotless_name_ofFullName key.assembly key.fullName
  · intro dotless
    obtain ⟨⟨assembly, space⟩, name, arity⟩ := key
    subst plain
    by_cases isGlobal : space = ""
    · subst isGlobal
      rw [fullName_of_global]
      exact ofFullName_of_dotless assembly dotless
    · rw [fullName_of_named assembly isGlobal]
      exact ofFullName_of_cut assembly space dotless

/-- Which texts are found again from the types that they are read as, what becomes of the others, and which types are
found again from their full names. -/
theorem fullName_roundTrips :
    (∀ (assembly : AssemblyKey) (name : String), (ofFullName assembly name).fullName = name ↔
      ¬ ∃ simple : String, name = "." ++ simple ∧ '.' ∉ simple.toList) ∧
    (∀ (assembly : AssemblyKey) (simple : String), '.' ∉ simple.toList →
      (ofFullName assembly ("." ++ simple)).fullName = simple) ∧
    ∀ key : TypeKey, key.arity = 0 →
      (ofFullName key.assembly key.fullName = key ↔ '.' ∉ key.name.toList) :=
  ⟨fullName_ofFullName_iff, fun assembly _ dotless => fullName_ofFullName_of_leadingDot assembly dotless,
    fun _ plain => ofFullName_fullName_iff plain⟩

example : (ofFullName ⟨"app"⟩ "..Table").fullName = "..Table" ∧ (ofFullName ⟨"app"⟩ ".").fullName = "" := by decide

end UsageGraph.TypeKey
