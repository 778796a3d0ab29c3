import UsageGraph.Proofs.Reachable
import UsageGraph.Proofs.Traversal.Module

/-! Both traversals build the same model.

They visit the same types, and each type goes through the same phases. Members are visited
in the same order. The phases that say something about the type itself come in different
orders, but interfaces, attributes and usages do not get in each other's way.
-/

set_option autoImplicit false
namespace UsageGraph

namespace TypeChange

def Commutes (first second : TypeChange) : Prop :=
  ∀ facts, second.apply (first.apply facts) = first.apply (second.apply facts)

theorem Commutes.symm {first second : TypeChange} (commutes : first.Commutes second) : second.Commutes first :=
  fun facts => (commutes facts).symm

theorem commutes_use (change : TypeChange) (key : NodeKey) : change.Commutes (.use key) := by
  intro facts
  cases change <;> simp [apply, Set.insert_comm]

theorem interface_commutes_attributed (implemented carried : TypeKey) :
    (interface implemented).Commutes (.attributed carried) :=
  fun _ => rfl

theorem applyAll_append (first second : List TypeChange) (facts : TypeFacts) :
    applyAll (first ++ second) facts = applyAll second (applyAll first facts) :=
  List.foldl_append

theorem applyAll_apply {change : TypeChange} {changes : List TypeChange}
    (commute : ∀ other ∈ changes, change.Commutes other)
    (facts : TypeFacts) : applyAll changes (change.apply facts) = change.apply (applyAll changes facts) := by
  induction changes generalizing facts with
  | nil => rfl
  | cons first rest ih =>
    have later := ih fun other member => commute other (List.mem_cons_of_mem _ member)
    calc applyAll (first :: rest) (change.apply facts)
      _ = applyAll rest (first.apply (change.apply facts)) := rfl
      _ = applyAll rest (change.apply (first.apply facts)) := by rw [commute first List.mem_cons_self]
      _ = change.apply (applyAll rest (first.apply facts)) := later _

theorem applyAll_comm {first second : List TypeChange}
    (commute : ∀ change ∈ first, ∀ other ∈ second, change.Commutes other) (facts : TypeFacts) :
    applyAll second (applyAll first facts) = applyAll first (applyAll second facts) := by
  induction first generalizing facts with
  | nil => rfl
  | cons change rest ih =>
    have later := ih fun earlier member => commute earlier (List.mem_cons_of_mem _ member)
    calc applyAll second (applyAll (change :: rest) facts)
      _ = applyAll rest (applyAll second (change.apply facts)) := later _
      _ = applyAll rest (change.apply (applyAll second facts)) := by
        rw [applyAll_apply (commute change List.mem_cons_self)]

end TypeChange

namespace Definition

variable (options : Options) (definition : Definition)

def phaseChanges (part : Phase) : List TypeChange :=
  Edit.typeChanges definition.key (definition.phaseEdits options part)

theorem change_usesOf {key : TypeKey} {holder : NodeKey} {keys : List TypeKey} {change : TypeChange}
    (made : .onType key change ∈ Edit.usesOf holder keys) : ∃ target, change = .use target := by
  obtain ⟨used, _, made⟩ := List.mem_flatMap.mp made
  cases holder <;> simp_all [Edit.use]

theorem change_interfaces {change : TypeChange} (made : change ∈ definition.phaseChanges options .interfaces) :
    (∃ implemented, change = .interface implemented) ∨ ∃ target, change = .use target := by
  obtain ⟨reference, _, made⟩ := List.mem_flatMap.mp (Edit.mem_typeChanges_iff.mp made)
  rcases List.mem_append.mp made with made | made
  · simp_all
  · exact .inr (change_usesOf made)

theorem change_generics {change : TypeChange} (made : change ∈ definition.phaseChanges options .generics) :
    ∃ target, change = .use target := by
  obtain ⟨parameter, _, made⟩ := List.mem_flatMap.mp (Edit.mem_typeChanges_iff.mp made)
  rcases List.mem_append.mp made with made | made
  · exact change_usesOf made
  · obtain ⟨reference, _, made⟩ := List.mem_flatMap.mp made
    exact change_usesOf made

theorem change_attributes {change : TypeChange} (made : change ∈ definition.phaseChanges options .attributes) :
    (∃ carried, change = .attributed carried) ∨ ∃ target, change = .use target := by
  have made := Edit.mem_typeChanges_iff.mp made
  simp only [phaseEdits, Options.attributeEdits] at made
  split at made
  · obtain ⟨carried, _, made⟩ := List.mem_flatMap.mp made
    have made : change = .attributed carried ∨ change = .use (.type carried) := by
      simpa [Edit.attributed, Edit.use] using made
    exact made.imp (fun same => ⟨_, same⟩) fun same => ⟨_, same⟩
  · cases made

theorem change_base {change : TypeChange} (made : change ∈ definition.phaseChanges options .base) :
    (∃ extended, change = .base extended) ∨ ∃ target, change = .use target := by
  obtain ⟨reference, _, made⟩ := List.mem_flatMap.mp (Edit.mem_typeChanges_iff.mp made)
  rcases List.mem_append.mp made with made | made
  · simp_all
  · exact .inr (change_usesOf made)

variable {options definition} {assembly : AssemblyKey} (fits : definition.Fits assembly options)
include fits

theorem phaseChanges_eq_nil {part : Phase}
    (other : part ∉ [Phase.openType, .interfaces, .generics, .attributes, .base]) :
    definition.phaseChanges options part = [] := by
  cases part with
  | dataMembers => exact (Edit.Within.memberPhaseEdits (.inl rfl) (fits .dataMembers)).typeChanges_eq_nil id
  | methods => exact (Edit.Within.memberPhaseEdits (.inr rfl) (fits .methods)).typeChanges_eq_nil id
  | openType | interfaces | generics | attributes | base => simp at other
  | claim | supertypes | nested | closeType | complete => rfl

theorem typeChanges_edits (order : Order) :
    Edit.typeChanges definition.key (definition.edits options order) =
      (order.filter (· ∈ [Phase.openType, .interfaces, .generics, .attributes, .base])).flatMap
        (definition.phaseChanges options) := by
  induction order with
  | nil => rfl
  | cons part rest ih =>
    have first : Edit.typeChanges definition.key (definition.edits options (part :: rest)) =
        definition.phaseChanges options part ++ Edit.typeChanges definition.key (definition.edits options rest) :=
      Edit.typeChanges_append ..
    rw [first, ih, List.filter_cons]
    split
    next => rfl
    next other => rw [phaseChanges_eq_nil fits (by simpa using other), List.nil_append]

/-- The traversals say the same about a type itself, though not in the same order. -/
theorem typeChanges_agree (facts : TypeFacts) :
    TypeChange.applyAll (Edit.typeChanges definition.key (definition.edits options Traversal.reflection.order)) facts =
      TypeChange.applyAll (Edit.typeChanges definition.key (definition.edits options Traversal.topDown.order))
        facts := by
  let made := definition.phaseChanges options
  have reflection : Edit.typeChanges definition.key (definition.edits options Traversal.reflection.order) =
      made .openType ++ (made .attributes ++ (made .generics ++ (made .interfaces ++ (made .base ++ [])))) :=
    typeChanges_edits fits _
  have topDown : Edit.typeChanges definition.key (definition.edits options Traversal.topDown.order) =
      made .openType ++ (made .interfaces ++ (made .generics ++ (made .attributes ++ (made .base ++ [])))) :=
    typeChanges_edits fits _
  have past_generics : ∀ changes : List TypeChange, ∀ change ∈ changes, ∀ other ∈ made .generics,
      change.Commutes other := by
    intro changes change _ other member
    obtain ⟨target, rfl⟩ := change_generics options definition member
    exact TypeChange.commutes_use change target
  have past_attributes : ∀ change ∈ made .interfaces, ∀ other ∈ made .attributes, change.Commutes other := by
    intro change member other member'
    rcases change_attributes options definition member' with ⟨carried, rfl⟩ | ⟨target, rfl⟩
    · rcases change_interfaces options definition member with ⟨implemented, rfl⟩ | ⟨target, rfl⟩
      · exact TypeChange.interface_commutes_attributed implemented carried
      · exact (TypeChange.commutes_use _ target).symm
    · exact TypeChange.commutes_use change target
  -- attributes move past the generics and the interfaces; the base is written last in both orders
  rw [reflection, topDown]
  simp only [TypeChange.applyAll_append]
  rw [TypeChange.applyAll_comm (past_generics (made .attributes)), ← TypeChange.applyAll_comm past_attributes,
    ← TypeChange.applyAll_comm (past_generics (made .interfaces))]

omit fits

theorem memberChanges_edits (key : MemberKey) (traversal : Traversal) :
    Edit.memberChanges key (definition.edits options traversal.order) =
      Edit.memberChanges key (definition.phaseEdits options .dataMembers) ++
        Edit.memberChanges key (definition.phaseEdits options .methods) := by
  -- the orders differ, but both visit the data members before the methods, and no other phase tells of members
  have split : ∀ order : Order, Edit.memberChanges key (definition.edits options order) =
      order.flatMap fun part => Edit.memberChanges key (definition.phaseEdits options part) :=
    fun order => List.filterMap_flatMap ..
  have silent : ∀ part : Phase, ¬ (part = .dataMembers ∨ part = .methods) →
      Edit.memberChanges key (definition.phaseEdits options part) = [] :=
    fun part other => (Edit.Within.typePhaseEdits definition other).memberChanges_eq_nil nofun
  rw [split]
  cases traversal <;> simp [Traversal.order, silent]

theorem memberChanges_agree (key : MemberKey) :
    Edit.memberChanges key (definition.edits options Traversal.reflection.order) =
      Edit.memberChanges key (definition.edits options Traversal.topDown.order) := by
  rw [memberChanges_edits, memberChanges_edits]

end Definition

namespace ModuleDecl.Yields

variable {module : ModuleDecl} {options : Options} {first second : List Edit}

theorem mem_congr {traversal other : Traversal} (yields : module.Yields options traversal.order first)
    (yields' : module.Yields options other.order second) (edit : Edit) : edit ∈ first ↔ edit ∈ second := by
  have whole : ∀ (traversal : Traversal) (definition : Definition),
      edit ∈ definition.edits options traversal.order ↔ ∃ part, edit ∈ definition.phaseEdits options part := by
    intro traversal definition
    obtain ⟨parts, order, whole⟩ := traversal.whole
    simp only [Definition.edits, List.mem_flatMap, order, whole.all, true_and]
  simp only [yields.mem_edits, yields'.mem_edits, whole]

theorem typeChanges_visited {order : Order} (yields : module.Yields options order first) {type : TypeDecl}
    (visited : module.Visited options type) :
    Edit.typeChanges type.label.key first = Edit.typeChanges type.label.key (type.label.edits options order) := by
  rw [← Edit.typeChanges_about, yields.about_visited visited, Edit.typeChanges_about]

theorem memberChanges_visited {order : Order} (yields : module.Yields options order first) {type : TypeDecl}
    (visited : module.Visited options type) {key : MemberKey} (owned : key.owner = type.label.key) :
    Edit.memberChanges key first = Edit.memberChanges key (type.label.edits options order) := by
  rw [← Edit.memberChanges_about, owned, yields.about_visited visited, ← owned, Edit.memberChanges_about]

theorem typeChanges_agree (yields : module.Yields options Traversal.reflection.order first)
    (yields' : module.Yields options Traversal.topDown.order second)
    (fits : ∀ type, module.Visited options type → type.label.Fits module.key options) (key : TypeKey)
    (facts : TypeFacts) :
    TypeChange.applyAll (Edit.typeChanges key first) facts =
      TypeChange.applyAll (Edit.typeChanges key second) facts := by
  by_cases visited : ∃ type, module.Visited options type ∧ type.label.key = key
  · obtain ⟨type, visited, rfl⟩ := visited
    rw [yields.typeChanges_visited visited, yields'.typeChanges_visited visited]
    exact Definition.typeChanges_agree (fits type visited) facts
  · have other : ∀ type, module.Visited options type → type.label.key ≠ key :=
      fun type led same => visited ⟨type, led, same⟩
    rw [← Edit.typeChanges_about key first, ← Edit.typeChanges_about key second, yields.about_other other,
      yields'.about_other other]

theorem memberChanges_agree (yields : module.Yields options Traversal.reflection.order first)
    (yields' : module.Yields options Traversal.topDown.order second) (key : MemberKey) :
    Edit.memberChanges key first = Edit.memberChanges key second := by
  by_cases visited : ∃ type, module.Visited options type ∧ type.label.key = key.owner
  · obtain ⟨type, visited, owned⟩ := visited
    rw [yields.memberChanges_visited visited owned.symm, yields'.memberChanges_visited visited owned.symm]
    exact Definition.memberChanges_agree key
  · have other : ∀ type, module.Visited options type → type.label.key ≠ key.owner :=
      fun type led same => visited ⟨type, led, same⟩
    rw [← Edit.memberChanges_about key first, ← Edit.memberChanges_about key second, yields.about_other other,
      yields'.about_other other]

end ModuleDecl.Yields

namespace Builder

theorem visit_ok_of_other {builder : Builder} (good : builder.Good) {module : ModuleDecl} {options : Options}
    (distinct : module.HasDistinctTypes) (bounded : module.declaredTypes.length ≤ options.maxDepth)
    {traversal : Traversal} (other : Traversal)
    (ok : (builder.visit module options traversal .references).result = .ok ()) :
    (builder.visit module options other .references).result = .ok () := by
  obtain ⟨free, fits, edits, yields, admits, _⟩ := yields_of_visit_ok good distinct ok
  -- whether edits are admitted depends on which there are, not on their order
  apply visit_ok good distinct bounded other free fits
  intro edits' yields'
  exact (View.admits_congr (yields.mem_congr yields')).mp admits

/-- Both traversals succeed on the same modules and lead to models that agree in all keys and in all that is
said by key. -/
theorem reflection_agrees_with_topDown {builder : Builder} (reachable : builder.Reachable) (module : ModuleDecl)
    (options : Options) (distinct : module.HasDistinctTypes)
    (bounded : module.declaredTypes.length ≤ options.maxDepth) :
    ((builder.visit module options .reflection .references).result = .ok () ↔
      (builder.visit module options .topDown .references).result = .ok ()) ∧
    ((builder.visit module options .reflection .references).result = .ok () →
      (builder.visit module options .reflection .references).builder.model.view =
        (builder.visit module options .topDown .references).builder.model.view) := by
  have good := reachable.good
  have either : ∀ traversal other : Traversal, (builder.visit module options traversal .references).result = .ok () →
      (builder.visit module options other .references).result = .ok () :=
    fun traversal other ok => visit_ok_of_other good distinct bounded other ok
  refine ⟨⟨either .reflection .topDown, either .topDown .reflection⟩, fun ok => ?_⟩
  obtain ⟨_, fits, edits, yields, admits, becomes⟩ := yields_of_visit_ok good distinct ok
  obtain ⟨_, _, edits', yields', _, becomes'⟩ := yields_of_visit_ok good distinct (either .reflection .topDown ok)
  rw [becomes.view, becomes'.view]
  apply View.applyAll_congr admits (yields.mem_congr yields')
  · exact yields.typeChanges_agree yields' fits
  · exact yields.memberChanges_agree yields'

def sketch : Builder :=
  let plane : NamespaceKey := ⟨⟨"shapes"⟩, "plane"⟩
  replay [.startSpace plane, .startType { space := plane, name := "Shape" } true, .close .type, .close .space]

/-- The traversals create the types of the module in different orders. -/
theorem reflection_agrees_with_topDown_shapes :
    (sketch.visit .shapes .forPrimary .reflection .references).result = .ok () ∧
      (sketch.visit .shapes .forPrimary .topDown .references).result = .ok () ∧
      (sketch.visit .shapes .forPrimary .reflection .references).builder.model.view =
        (sketch.visit .shapes .forPrimary .topDown .references).builder.model.view ∧
      (sketch.visit .shapes .forPrimary .reflection .references).builder.model ≠
        (sketch.visit .shapes .forPrimary .topDown .references).builder.model := by
  have reachable : sketch.Reachable := reachable_replay _
  have agrees := reflection_agrees_with_topDown reachable .shapes .forPrimary (by decide +kernel) (by decide +kernel)
  have ok : (sketch.visit .shapes .forPrimary .reflection .references).result = .ok () := by decide +kernel
  exact ⟨ok, agrees.1.mp ok, agrees.2 ok, by decide +kernel⟩

end Builder

end UsageGraph
