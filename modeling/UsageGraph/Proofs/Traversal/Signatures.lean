import UsageGraph.Proofs.Traversal.Agreement
import UsageGraph.Proofs.View.Subsumption

/-! What a secondary visit says of a type.

A secondary visit leaves out attributes, data members and bodies, and opens what it visits
for its signature only. All that it sets and lists, it sets and lists in the same order as
a primary visit does. The data members come before the methods, so that where both set
something of an accessor, the methods have the last word in either visit.
-/

set_option autoImplicit false
namespace UsageGraph

theorem Outdoes.append {first second first' second' : List Bool} (outdoes : Outdoes first second)
    (outdoes' : Outdoes first' second') : Outdoes (first ++ first') (second ++ second') := by
  intro signatureOnly member
  rcases List.mem_append.mp member with member | member
  · obtain ⟨opening, member, weaker⟩ := outdoes signatureOnly member
    exact ⟨opening, List.mem_append_left _ member, weaker⟩
  · obtain ⟨opening, member, weaker⟩ := outdoes' signatureOnly member
    exact ⟨opening, List.mem_append_right _ member, weaker⟩

namespace TypeChange

/-- The second changes set and list what the first do, attach no attributes, and open and use no more. -/
structure Sketches (first second : List TypeChange) : Prop where
  opened : Outdoes (first.filterMap opened?) (second.filterMap opened?)
  settings : second.filter sets = first.filter sets
  interfaces : second.filterMap interface? = first.filterMap interface?
  attributes : second.filterMap attribute? = []
  uses : second.filterMap use? ⊆ first.filterMap use?

namespace Sketches

variable {first second first' second' : List TypeChange}

theorem append (begun : Sketches first second) (continued : Sketches first' second') :
    Sketches (first ++ first') (second ++ second') where
  opened := by
    simp only [List.filterMap_append]
    exact begun.opened.append continued.opened
  settings := by rw [List.filter_append, List.filter_append, begun.settings, continued.settings]
  interfaces := by rw [List.filterMap_append, List.filterMap_append, begun.interfaces, continued.interfaces]
  attributes := by rw [List.filterMap_append, begun.attributes, continued.attributes, List.nil_append]
  uses := by
    simp only [List.filterMap_append]
    exact List.append_subset.mpr ⟨List.subset_append_of_subset_left _ begun.uses,
      List.subset_append_of_subset_right _ continued.uses⟩

theorem same (plain : ∀ change ∈ first, change.attribute? = none) : Sketches first first where
  opened := .refl _
  settings := rfl
  interfaces := rfl
  attributes := List.filterMap_eq_nil_iff.mpr plain
  uses := List.Subset.refl _

theorem nil : Sketches [] [] := same (by simp)

theorem dropped (light : ∀ change ∈ first, change.attribute?.isSome ∨ change.use?.isSome) : Sketches first [] where
  opened := by simp [Outdoes]
  settings := by
    refine (List.filter_eq_nil_iff.mpr fun change member => ?_).symm
    have added := light change member
    cases change <;> simp_all [attribute?, use?, sets, flags?, base?]
  interfaces := by
    refine (List.filterMap_eq_nil_iff.mpr fun change member => ?_).symm
    have added := light change member
    cases change <;> simp_all [attribute?, use?, interface?]
  attributes := rfl
  uses := List.nil_subset _

theorem opening (signatureOnly : Bool) : Sketches [.opened signatureOnly] [.opened true] where
  opened := by simp [Outdoes, opened?]
  settings := rfl
  interfaces := rfl
  attributes := rfl
  uses := List.nil_subset _

theorem subsumes (sketches : Sketches first second) : Subsumes first second where
  opened := sketches.opened
  settings := by rw [sketches.settings]
  interfaces := by rw [sketches.interfaces]
  attributes := by
    rw [sketches.attributes]
    exact List.nil_prefix
  uses := sketches.uses

end Sketches

end TypeChange

namespace MemberChange

structure Sketches (first second : List MemberChange) : Prop where
  opened : Outdoes (first.filterMap opened?) (second.filterMap opened?)
  settings : second.filter sets = first.filter sets
  attributes : second.filterMap attribute? = []
  uses : second.filterMap use? ⊆ first.filterMap use?

namespace Sketches

variable {first second first' second' : List MemberChange}

theorem append (begun : Sketches first second) (continued : Sketches first' second') :
    Sketches (first ++ first') (second ++ second') where
  opened := by
    simp only [List.filterMap_append]
    exact begun.opened.append continued.opened
  settings := by rw [List.filter_append, List.filter_append, begun.settings, continued.settings]
  attributes := by rw [List.filterMap_append, begun.attributes, continued.attributes, List.nil_append]
  uses := by
    simp only [List.filterMap_append]
    exact List.append_subset.mpr ⟨List.subset_append_of_subset_left _ begun.uses,
      List.subset_append_of_subset_right _ continued.uses⟩

theorem same (plain : ∀ change ∈ first, change.attribute? = none) : Sketches first first where
  opened := .refl _
  settings := rfl
  attributes := List.filterMap_eq_nil_iff.mpr plain
  uses := List.Subset.refl _

theorem nil : Sketches [] [] := same (by simp)

theorem dropped (light : ∀ change ∈ first, change.attribute?.isSome ∨ change.use?.isSome) : Sketches first [] where
  opened := by simp [Outdoes]
  settings := by
    refine (List.filter_eq_nil_iff.mpr fun change member => ?_).symm
    have added := light change member
    cases change <;> simp_all [attribute?, use?, sets]
  attributes := rfl
  uses := List.nil_subset _

theorem opening (signatureOnly : Bool) : Sketches [.opened signatureOnly] [.opened true] where
  opened := by simp [Outdoes, opened?]
  settings := rfl
  attributes := rfl
  uses := List.nil_subset _

/-- A sketch of the last changes is subsumed by all of them, since the last setting counts. -/
theorem subsumes (earlier : List MemberChange) (sketches : Sketches first second) :
    Subsumes (earlier ++ first) second where
  opened := by
    intro signatureOnly member
    obtain ⟨opening, member, weaker⟩ := sketches.opened signatureOnly member
    rw [List.filterMap_append]
    exact ⟨opening, List.mem_append_right _ member, weaker⟩
  settings := by
    rw [List.filter_append, sketches.settings]
    exact List.suffix_append _ _
  attributes := by
    rw [sketches.attributes]
    exact List.nil_prefix
  uses := by
    rw [List.filterMap_append]
    exact List.subset_append_of_subset_right _ sketches.uses

end Sketches

end MemberChange

namespace Edit

theorem mem_memberChanges_iff {key : MemberKey} {edits : List Edit} {change : MemberChange} :
    change ∈ memberChanges key edits ↔ .onMember key change ∈ edits := by
  unfold memberChanges
  rw [List.mem_filterMap]
  constructor
  · rintro ⟨edit, member, changed⟩
    cases edit with
    | onMember other made =>
      obtain ⟨rfl, rfl⟩ : other = key ∧ made = change := by simpa [memberChange?] using changed
      exact member
    | ensureAssembly | ensureSpace | ensureType | ensureMember | openAssembly | onType => cases changed
  · exact fun member => ⟨_, member, if_pos rfl⟩

def attaches : Edit → Bool
  | .onType _ change => change.attribute?.isSome
  | .onMember _ change => change.attribute?.isSome
  | _ => false

/-- An edit adds something that nothing else depends on: a key, an attribute or a usage. -/
def adds : Edit → Bool
  | .onType _ change => change.attribute?.isSome || change.use?.isSome
  | .onMember _ change => change.attribute?.isSome || change.use?.isSome
  | .openAssembly .. => false
  | _ => true

/-- The second edits leave out attributes and additions of the first, and open for signatures only. -/
structure Sketches (first second : List Edit) : Prop where
  mem : ∀ edit ∈ second, edit.place? = none → edit ∈ first
  types : ∀ key, TypeChange.Sketches (typeChanges key first) (typeChanges key second)
  members : ∀ key, MemberChange.Sketches (memberChanges key first) (memberChanges key second)

namespace Sketches

variable {first second first' second' : List Edit}

theorem append (begun : Sketches first second) (continued : Sketches first' second') :
    Sketches (first ++ first') (second ++ second') where
  mem edit member free := by
    rcases List.mem_append.mp member with member | member
    · exact List.mem_append_left _ (begun.mem edit member free)
    · exact List.mem_append_right _ (continued.mem edit member free)
  types key := by
    rw [typeChanges_append, typeChanges_append]
    exact (begun.types key).append (continued.types key)
  members key := by
    rw [memberChanges_append, memberChanges_append]
    exact (begun.members key).append (continued.members key)

theorem same (plain : ∀ edit ∈ first, edit.attaches = false) : Sketches first first where
  mem _ member _ := member
  types key := .same fun change member => by
    simpa [attaches] using plain _ (mem_typeChanges_iff.mp member)
  members key := .same fun change member => by
    simpa [attaches] using plain _ (mem_memberChanges_iff.mp member)

theorem dropped (light : ∀ edit ∈ first, edit.adds = true) : Sketches first [] where
  mem _ member _ := by cases member
  types key := .dropped fun change member => by
    simpa [adds] using light _ (mem_typeChanges_iff.mp member)
  members key := .dropped fun change member => by
    simpa [adds] using light _ (mem_memberChanges_iff.mp member)

theorem flatMap {α : Type} {items : List α} {edits edits' : α → List Edit}
    (each : ∀ item ∈ items, Sketches (edits item) (edits' item)) :
    Sketches (items.flatMap edits) (items.flatMap edits') := by
  induction items with
  | nil => exact same (by simp)
  | cons item rest ih =>
    rw [List.flatMap_cons, List.flatMap_cons]
    exact (each item (by simp)).append (ih fun item member => each item (by simp [member]))

theorem openType (key : TypeKey) (signatureOnly : Bool) :
    Sketches [.onType key (.opened signatureOnly)] [.onType key (.opened true)] where
  mem edit member free := by
    rw [List.mem_singleton.mp member] at free
    cases free
  types other := by
    by_cases here : key = other
    · simpa [typeChanges, typeChange?, here] using TypeChange.Sketches.opening signatureOnly
    · simpa [typeChanges, typeChange?, here] using TypeChange.Sketches.nil
  members other := .nil

theorem openMember (key : MemberKey) (signatureOnly : Bool) :
    Sketches [.onMember key (.opened signatureOnly)] [.onMember key (.opened true)] where
  mem edit member free := by
    rw [List.mem_singleton.mp member] at free
    cases free
  types other := .nil
  members other := by
    by_cases here : key = other
    · simpa [memberChanges, memberChange?, here] using MemberChange.Sketches.opening signatureOnly
    · simpa [memberChanges, memberChange?, here] using MemberChange.Sketches.nil

end Sketches

end Edit

/-! ## Declarations -/

section Declarations

variable {options : Options}

theorem Edit.attaches_use (holder target : NodeKey) : (Edit.use holder target).attaches = false := by
  cases holder <;> rfl

theorem Edit.adds_use (holder target : NodeKey) : (Edit.use holder target).adds = true := by
  cases holder <;> rfl

theorem Edit.adds_attributed (holder : NodeKey) (type : TypeKey) : (Edit.attributed holder type).adds = true := by
  cases holder <;> rfl

theorem Edit.adds_ensureNode (key : NodeKey) : (Edit.ensureNode key).adds = true := by
  cases key <;> rfl

theorem Edit.plain_usesOf {holder : NodeKey} {keys : List TypeKey} :
    ∀ edit ∈ Edit.usesOf holder keys, edit.attaches = false := by
  intro edit member
  obtain ⟨key, _, made⟩ := List.mem_flatMap.mp member
  simp only [List.mem_cons, List.not_mem_nil, or_false] at made
  rcases made with rfl | rfl
  · rfl
  · exact attaches_use holder _

theorem Edit.plain_usesOfRefs {holder : NodeKey} {references : List TypeRef} :
    ∀ edit ∈ Edit.usesOfRefs holder references, edit.attaches = false := by
  intro edit member
  obtain ⟨reference, _, made⟩ := List.mem_flatMap.mp member
  exact plain_usesOf edit made

theorem Edit.sketches_attributeEdits (options : Options) (holder : NodeKey) (keys : List TypeKey) :
    Edit.Sketches (options.attributeEdits holder keys) [] := by
  apply Edit.Sketches.dropped
  intro edit member
  unfold Options.attributeEdits at member
  split at member
  · obtain ⟨key, _, made⟩ := List.mem_flatMap.mp member
    simp only [List.mem_cons, List.not_mem_nil, or_false] at made
    rcases made with rfl | rfl | rfl | rfl
    · rfl
    · exact adds_attributed holder key
    · rfl
    · exact adds_use holder _
  · cases member

theorem MethodDecl.sketches_bodyEdits (options : Options) (method : MethodDecl) :
    Edit.Sketches (method.bodyEdits options) [] := by
  apply Edit.Sketches.dropped
  intro edit member
  unfold bodyEdits at member
  split at member
  · obtain ⟨body, _, member⟩ := List.mem_flatMap.mp member
    obtain ⟨target, _, made⟩ := List.mem_flatMap.mp member
    simp only [List.mem_cons, List.not_mem_nil, or_false] at made
    rcases made with rfl | rfl
    · exact Edit.adds_ensureNode target
    · exact Edit.adds_use _ target
  · cases member

theorem MethodDecl.sketches_ownEdits (options : Options) (method : MethodDecl) :
    Edit.Sketches (method.ownEdits options) (method.ownEdits options.toSecondary) := by
  have opening : Edit.Sketches
      ([.ensureMember .method method.key] ++ [.onMember method.key (.opened (!options.scansBodies))])
      ([.ensureMember .method method.key] ++ [.onMember method.key (.opened true)]) :=
    (Edit.Sketches.same (by simp [Edit.attaches])).append (.openMember method.key _)
  have kept : ∀ edits : List Edit, (∀ edit ∈ edits, edit.attaches = false) → Edit.Sketches edits edits :=
    fun edits plain => .same plain
  refine opening.append (.append (kept _ ?_) (.append (kept _ ?_) (.append (kept _ ?_) (.append (kept _ ?_)
    (.append (Edit.sketches_attributeEdits options _ _) (method.sketches_bodyEdits options))))))
  · simp only [List.mem_append, List.mem_map, List.mem_singleton]
    rintro edit ((⟨key, _, rfl⟩ | ⟨key, _, rfl⟩) | rfl) <;> rfl
  · simp [Edit.attaches, MemberChange.attribute?]
  · exact Edit.plain_usesOfRefs
  · exact Edit.plain_usesOfRefs

variable (everyMethod : options.methods = none)
include everyMethod

theorem MethodDecl.sketches_edits (method : MethodDecl) :
    Edit.Sketches (method.edits options) (method.edits options.toSecondary) := by
  have visited := Options.visitsMethod_of_none everyMethod method.key
  have visited' : options.toSecondary.visitsMethod method.key = true := rfl
  unfold edits
  rw [if_pos visited, if_pos visited']
  exact method.sketches_ownEdits options

namespace Definition

/-- Every phase but that of the data members is sketched. -/
theorem sketches_phaseEdits (definition : Definition) {part : Phase} (other : part ≠ .dataMembers) :
    Edit.Sketches (definition.phaseEdits options part) (definition.phaseEdits options.toSecondary part) := by
  cases part with
  | dataMembers => exact absurd rfl other
  | openType =>
    have ensured : Edit.Sketches [.ensureSpace definition.key.space, .ensureType definition.key]
        [.ensureSpace definition.key.space, .ensureType definition.key] := .same (by simp [Edit.attaches])
    have flags : Edit.Sketches [.onType definition.key (.flags definition.isInterface definition.isAbstract)]
        [.onType definition.key (.flags definition.isInterface definition.isAbstract)] :=
      .same (by simp [Edit.attaches, TypeChange.attribute?])
    -- the type is opened for its signature only, and said to be what it is otherwise
    exact ensured.append ((Edit.Sketches.openType definition.key (!options.primary)).append flags)
  | interfaces =>
    refine .flatMap fun implemented _ => .append (.same ?_) (.same Edit.plain_usesOf)
    simp [Edit.attaches, TypeChange.attribute?]
  | generics => exact .flatMap fun parameter _ => .append (.same Edit.plain_usesOf) (.same Edit.plain_usesOfRefs)
  | attributes => exact Edit.sketches_attributeEdits options _ _
  | base =>
    refine .flatMap fun extended _ => .append (.same ?_) (.same Edit.plain_usesOf)
    simp [Edit.attaches, TypeChange.attribute?]
  | methods =>
    exact .append (.flatMap fun method _ => method.asConstructor.sketches_edits everyMethod)
      (.flatMap fun method _ => method.sketches_edits everyMethod)
  | claim | supertypes | nested | closeType | complete => exact .same (by simp [phaseEdits])

theorem typeChanges_sketch {definition : Definition} {assembly : AssemblyKey} (fits : definition.Fits assembly options)
    (order : Order) (key : TypeKey) :
    TypeChange.Sketches (Edit.typeChanges key (definition.edits options order))
      (Edit.typeChanges key (definition.edits options.toSecondary order)) := by
  induction order with
  | nil => exact .nil
  | cons part rest ih =>
    have first : ∀ options : Options, Edit.typeChanges key (definition.edits options (part :: rest)) =
        Edit.typeChanges key (definition.phaseEdits options part) ++
          Edit.typeChanges key (definition.edits options rest) :=
      fun options => Edit.typeChanges_append ..
    rw [first, first]
    by_cases data : part = .dataMembers
    · subst data
      -- data members say nothing about the type itself
      rw [(Edit.Within.memberPhaseEdits (.inl rfl) (fits .dataMembers)).typeChanges_eq_nil id]
      exact ih
    · exact ((definition.sketches_phaseEdits everyMethod data).types key).append ih

theorem memberChanges_subsume (definition : Definition) (traversal : Traversal) (key : MemberKey) :
    MemberChange.Subsumes (Edit.memberChanges key (definition.edits options traversal.order))
      (Edit.memberChanges key (definition.edits options.toSecondary traversal.order)) := by
  have methods := definition.sketches_phaseEdits everyMethod (by simp : Phase.methods ≠ .dataMembers)
  rw [memberChanges_edits, memberChanges_edits]
  exact (methods.members key).subsumes _

theorem mem_edits_of_secondary {definition : Definition} {order : Order} {edit : Edit}
    (made : edit ∈ definition.edits options.toSecondary order) (free : edit.place? = none) :
    edit ∈ definition.edits options order := by
  obtain ⟨part, member, made⟩ := List.mem_flatMap.mp made
  by_cases data : part = .dataMembers
  · subst data
    cases made
  · exact List.mem_flatMap.mpr ⟨part, member, (definition.sketches_phaseEdits everyMethod data).mem edit made free⟩

end Definition

end Declarations

end UsageGraph
