import UsageGraph.Proofs.Key.FullName

/-! The text of a type tells which type it is.

A text has one reading: its first closing bracket ends the assembly, its last dot ends the
namespace, and the first backtick after that ends the name. Namespaces may have any of these
characters. So different types have different texts, unless an assembly has a closing bracket in its
name or a type a dot or a backtick in its own.
-/

set_option autoImplicit false
namespace UsageGraph.TypeKey

theorem cut_at_first {α : Type} {separator : α} {before before' after after' : List α}
    (first : separator ∉ before) (first' : separator ∉ before')
    (same : before ++ separator :: after = before' ++ separator :: after') : before = before' ∧ after = after' := by
  induction before generalizing before' with
  | nil =>
    cases before' with
    | nil => exact ⟨rfl, (List.cons.inj same).2⟩
    | cons head rest => exact absurd ((List.cons.inj same).1 ▸ List.mem_cons_self) first'
  | cons head rest ih =>
    cases before' with
    | nil => exact absurd ((List.cons.inj same).1 ▸ List.mem_cons_self) first
    | cons head' rest' =>
      obtain ⟨rfl, tails⟩ := List.cons.inj same
      obtain ⟨rfl, later⟩ := ih (fun member => first (List.mem_cons_of_mem _ member))
        (fun member => first' (List.mem_cons_of_mem _ member)) tails
      exact ⟨rfl, later⟩

theorem toList_arityMark (arity : Nat) :
    (arityMark arity).toList = if arity = 0 then [] else '`' :: Nat.toDigits 10 arity := by
  unfold arityMark
  split <;> simp [Nat.toString_eq_repr]

theorem dotless_arityMark (arity : Nat) : '.' ∉ (arityMark arity).toList := by
  rw [toList_arityMark]
  split
  · simp
  · intro dotted
    have inDigits : '.' ∈ Nat.toDigits 10 arity := by simpa using dotted
    exact absurd (Nat.isDigit_of_mem_toDigits (by omega) (by omega) inDigits) (by decide)

def marked (key : TypeKey) : List Char := key.name.toList ++ (arityMark key.arity).toList

theorem dotless_marked {key : TypeKey} (dotless : '.' ∉ key.name.toList) : '.' ∉ key.marked := by
  simp [marked, dotless, dotless_arityMark]

/-- A name that has no backtick ends where the mark begins. -/
theorem marked_inj {first second : TypeKey} (unmarked : '`' ∉ first.name.toList)
    (unmarked' : '`' ∉ second.name.toList) (same : first.marked = second.marked) :
    first.name = second.name ∧ first.arity = second.arity := by
  unfold marked at same
  rw [toList_arityMark, toList_arityMark] at same
  by_cases plain : first.arity = 0 <;> by_cases plain' : second.arity = 0
  · rw [if_pos plain, if_pos plain', List.append_nil, List.append_nil] at same
    exact ⟨String.toList_inj.mp same, plain.trans plain'.symm⟩
  · rw [if_pos plain, if_neg plain', List.append_nil] at same
    exact absurd (same ▸ by simp) unmarked
  · rw [if_neg plain, if_pos plain', List.append_nil] at same
    exact absurd (same ▸ by simp) unmarked'
  · rw [if_neg plain, if_neg plain'] at same
    obtain ⟨name, digits⟩ := cut_at_first unmarked unmarked' same
    have numbers := congrArg (Nat.ofDigitChars 10 · 0) digits
    exact ⟨String.toList_inj.mp name, by simpa using numbers⟩

theorem toList_fullName (key : TypeKey) :
    key.fullName.toList =
      if key.space.name = "" then key.marked else key.space.name.toList ++ '.' :: key.marked := by
  unfold fullName marked NamespaceKey.isGlobal
  by_cases isGlobal : key.space.name = "" <;> simp [isGlobal]

theorem splitAtLastDot_fullName {key : TypeKey} (dotless : '.' ∉ key.name.toList) :
    splitAtLastDot key.fullName.toList =
      if key.space.name = "" then none else some (key.space.name.toList, key.marked) := by
  rw [toList_fullName]
  split
  · exact splitAtLastDot_of_dotless (dotless_marked dotless)
  · exact splitAtLastDot_append _ (dotless_marked dotless)

theorem fullName_inj_of_dotless {first second : TypeKey} (dotless : '.' ∉ first.name.toList)
    (dotless' : '.' ∉ second.name.toList) (same : first.fullName = second.fullName) :
    first.space.name = second.space.name ∧ first.marked = second.marked := by
  have cuts := congrArg (fun name : String => splitAtLastDot name.toList) same
  simp only [splitAtLastDot_fullName dotless, splitAtLastDot_fullName dotless'] at cuts
  by_cases isGlobal : first.space.name = "" <;> by_cases isGlobal' : second.space.name = ""
  · have names := congrArg String.toList same
    rw [toList_fullName, toList_fullName, if_pos isGlobal, if_pos isGlobal'] at names
    exact ⟨isGlobal.trans isGlobal'.symm, names⟩
  · simp [isGlobal, isGlobal'] at cuts
  · simp [isGlobal, isGlobal'] at cuts
  · rw [if_neg isGlobal, if_neg isGlobal', Option.some.injEq, Prod.mk.injEq] at cuts
    exact ⟨String.toList_inj.mp cuts.1, cuts.2⟩

/-- No name can be taken to end earlier than it does: the assembly before its closing bracket, the type before its
mark, the namespace before its last dot. -/
structure Legible (key : TypeKey) : Prop where
  assembly : ']' ∉ key.assembly.name.toList
  dotless : '.' ∉ key.name.toList
  unmarked : '`' ∉ key.name.toList

theorem toList_text (key : TypeKey) :
    key.text.toList = '[' :: (key.assembly.name.toList ++ ']' :: key.fullName.toList) := by
  simp [text, AssemblyKey.text]

/-- Legible types have the same text only if they are the same. -/
theorem text_eq_iff_of_legible {first second : TypeKey} (legible : first.Legible) (legible' : second.Legible) :
    first.text = second.text ↔ first = second := by
  refine ⟨fun same => ?_, congrArg text⟩
  have texts := congrArg String.toList same
  rw [toList_text, toList_text] at texts
  obtain ⟨assembly, names⟩ := cut_at_first legible.assembly legible'.assembly (List.cons.inj texts).2
  obtain ⟨space, locals⟩ := fullName_inj_of_dotless legible.dotless legible'.dotless (String.toList_inj.mp names)
  obtain ⟨name, arity⟩ := marked_inj legible.unmarked legible'.unmarked locals
  obtain ⟨⟨⟨assemblyName⟩, spaceName⟩, typeName, typeArity⟩ := first
  obtain ⟨⟨⟨assemblyName'⟩, spaceName'⟩, typeName', typeArity'⟩ := second
  obtain rfl := String.toList_inj.mp assembly
  obtain rfl : spaceName = spaceName' := space
  obtain rfl : typeName = typeName' := name
  obtain rfl : typeArity = typeArity' := arity
  rfl

/-- The namespace of the first type looks like the second type. -/
theorem text_eq_iff_of_legible_rows :
    let row : TypeKey := ⟨⟨⟨"app"⟩, "Table`1"⟩, "Row", 12⟩
    let table : TypeKey := ⟨⟨⟨"app"⟩, ""⟩, "Table", 1⟩
    row.Legible ∧ table.Legible ∧ row.text ≠ table.text := by
  intro row table
  have legible : row.Legible := ⟨by decide, by decide, by decide⟩
  have legible' : table.Legible := ⟨by decide, by decide, by decide⟩
  exact ⟨legible, legible', fun same => absurd ((text_eq_iff_of_legible legible legible').mp same) (by decide)⟩

-- Without one of the conditions, different types can have the same text.
example : text ⟨⟨⟨"a]b"⟩, ""⟩, "c", 0⟩ = text ⟨⟨⟨"a"⟩, ""⟩, "b]c", 0⟩ ∧
    text ⟨⟨⟨"a"⟩, "b"⟩, "c", 0⟩ = text ⟨⟨⟨"a"⟩, ""⟩, "b.c", 0⟩ ∧
    text ⟨⟨⟨"a"⟩, "b"⟩, "c", 1⟩ = text ⟨⟨⟨"a"⟩, "b"⟩, "c`1", 0⟩ := by decide

end UsageGraph.TypeKey
