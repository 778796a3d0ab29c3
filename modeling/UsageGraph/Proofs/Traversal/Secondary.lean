import UsageGraph.Proofs.Traversal.Repetition
import UsageGraph.Proofs.Traversal.Signatures

/-! Primary and secondary visits of one module.

Without allow lists, a secondary visit goes the way of the primary one: it claims the same
types, and is as deep in them and in their references. So it says of each type a part of
what the primary visit says, and it makes no difference whether it comes before or after.
-/

set_option autoImplicit false
namespace UsageGraph

namespace Visit

variable {module : ModuleDecl} {options : Options} {order : Order}

theorem phaseFits_toSecondary (everyMethod : options.methods = none) {assembly : AssemblyKey} {definition : Definition}
    {part : Phase} (fits : definition.PhaseFits assembly options part) :
    definition.PhaseFits assembly options.toSecondary part := by
  have visited := Options.visitsMethod_of_none everyMethod
  cases part with
  | openType | interfaces | generics | base => exact fits
  | dataMembers =>
    intro primary
    cases primary
  | methods =>
    constructor
    · exact fun method member _ => fits.1 method member (visited _)
    · exact fun method member _ => fits.2 method member (visited _)
  | claim | supertypes | attributes | nested | closeType | complete => trivial

/-- Visits of some types under the given options and under the secondary ones come to the same types. -/
def CoversAlike (module : ModuleDecl) (options : Options) (order : Order) (before : Walk) (starts : List TypeDecl)
    (after : Walk) (edits edits' : List Edit) : Prop :=
  ∃ visited, Covers module options order before starts after visited edits ∧
    Covers module options.toSecondary order before starts after visited edits'

def GoesAlong (module : ModuleDecl) (options : Options) (order : Order) (visit visit' : TypeDecl → Visit Unit) : Prop :=
  ∀ {type : TypeDecl} {walk : Walk} {stack : Stack} {course : Course Unit}, walk.Ready options →
    stack.Houses module.key → (visit type).outline walk stack = some course →
    course.stack = stack ∧ ∃ edits', (visit' type).outline walk stack = some ⟨(), course.walk, edits', stack⟩ ∧
      CoversAlike module options order walk [type] course.walk course.edits edits'

theorem forM_goesAlong {visit visit' : TypeDecl → Visit Unit} (along : GoesAlong module options order visit visit')
    {types : List TypeDecl} {walk : Walk} {stack : Stack} {course : Course Unit} (ready : walk.Ready options)
    (houses : stack.Houses module.key) (came : (types.forM visit).outline walk stack = some course) :
    course.stack = stack ∧
      ∃ edits', (types.forM visit').outline walk stack = some ⟨(), course.walk, edits', stack⟩ ∧
        CoversAlike module options order walk types course.walk course.edits edits' := by
  induction types generalizing walk course with
  | nil =>
    cases came
    exact ⟨rfl, [], rfl, [], .none walk (by simp), .none walk (by simp)⟩
  | cons type rest ih =>
    have split : (visit type >>= fun _ => rest.forM visit).outline walk stack = some course := came
    rw [outline_bind] at split
    obtain ⟨first, began, split⟩ := Option.bind_eq_some_iff.mp split
    obtain ⟨second, went_on, rfl⟩ := Option.map_eq_some_iff.mp split
    obtain ⟨same, edits, began', visited, covers, covers'⟩ := along ready houses began
    rw [same] at went_on
    obtain ⟨same', more, went_on', further, goes, goes'⟩ := ih (Ready.of_references ready covers.references) went_on
    refine ⟨same', edits ++ more, ?_, visited ++ further, covers.append goes, covers'.append goes'⟩
    show (visit' type >>= fun _ => rest.forM visit').outline walk stack = _
    rw [outline_bind, began', Option.bind_some, went_on']
    rfl

theorem outline_phases_of {visit : TypeDecl → Visit Unit} {type : TypeDecl} {first : Phase} {rest : List Phase}
    {walk middle : Walk} {stack left : Stack} {edits : List Edit} {later : Course Unit}
    (began : (phase module options visit type first).outline walk stack = some ⟨true, middle, edits, left⟩)
    (went_on : (phases module options visit type rest).outline middle left = some later) :
    (phases module options visit type (first :: rest)).outline walk stack = some (later.after edits) := by
  rw [outline_phases, began, Option.bind_some, if_pos rfl, went_on]
  rfl

/-- What the phases of a type in progress come to under both options. -/
structure FinishesAlike (module : ModuleDecl) (options : Options) (order : Order) (visit' : TypeDecl → Visit Unit)
    (type : TypeDecl) (parts : List Phase) (walk : Walk) (stack outer : Stack) (course : Course Unit) : Prop where
  left : course.stack = outer
  alike : ∃ inner edits', Finishes module options order type parts walk course.walk inner course.edits ∧
    Finishes module options.toSecondary order type parts walk course.walk inner edits' ∧
    (phases module options.toSecondary visit' type parts).outline walk stack = some ⟨(), course.walk, edits', outer⟩

theorem FinishesAlike.own (everyMethod : options.methods = none) {visit' : TypeDecl → Visit Unit}
    {type : TypeDecl} {part : Phase} {parts : List Phase} {walk : Walk} {stack middle outer : Stack}
    {later : Course Unit}
    (finishes : FinishesAlike module options order visit' type parts walk middle outer later)
    (fits : type.label.PhaseFits module.key options part) (apart : part ≠ .supertypes ∧ part ≠ .nested)
    (traces : (phase module options.toSecondary visit' type part).Traces walk stack middle
      (type.label.PhaseFits module.key options.toSecondary part) true
      (type.label.phaseEdits options.toSecondary part)) :
    FinishesAlike module options order visit' type (part :: parts) walk stack outer
      (later.after (type.label.phaseEdits options part)) := by
  obtain ⟨left, inner, edits', ends, ends', outlined⟩ := finishes
  have fits' := phaseFits_toSecondary everyMethod fits
  exact ⟨left, inner, _, ends.own fits apart, ends'.own fits' apart, outline_phases_of (traces.comes fits') outlined⟩

theorem phases_along_of_visits {visit visit' : TypeDecl → Visit Unit} (along : GoesAlong module options order visit visit')
    {type : TypeDecl} {part : Phase} {parts : List Phase} {walk : Walk} {stack outer : Stack} {course : Course Unit}
    {starts : List TypeDecl} (ready : walk.Ready options) (houses : stack.Houses module.key)
    (active : type.label.key ∈ walk.definitions.stack)
    (leads : part = .supertypes ∧ starts = module.supertypesOf type.label ∨ part = .nested ∧ starts = type.children)
    (visits : ∀ options visit, (phase module options visit type part).outline walk stack =
      ((starts.forM visit).outline walk stack).map fun course => { course with answer := true })
    (rest : ∀ {middle : Walk} {later : Course Unit}, middle.Ready options →
      type.label.key ∈ middle.definitions.stack →
      (phases module options visit type parts).outline middle stack = some later →
      FinishesAlike module options order visit' type parts middle stack outer later)
    (came : (phases module options visit type (part :: parts)).outline walk stack = some course) :
    FinishesAlike module options order visit' type (part :: parts) walk stack outer course := by
  rw [outline_phases, visits] at came
  obtain ⟨begun, began, came⟩ := Option.bind_eq_some_iff.mp came
  obtain ⟨inside, visited, rfl⟩ := Option.map_eq_some_iff.mp began
  obtain ⟨later, went_on, rfl⟩ := Option.map_eq_some_iff.mp came
  obtain ⟨same, more, visited', found, covers, covers'⟩ := forM_goesAlong along ready houses visited
  rw [same] at went_on
  obtain ⟨left, inner, edits', ends, ends', outlined⟩ :=
    rest (Ready.of_references ready covers.references) (covers.definitions ▸ active) went_on
  refine ⟨left, found ++ inner, more ++ edits', ends.visits covers active leads, ends'.visits covers' active leads, ?_⟩
  have began' : (phase module options.toSecondary visit' type part).outline walk stack =
      some ⟨true, inside.walk, more, stack⟩ := by
    rw [visits, visited']
    rfl
  exact outline_phases_of began' outlined

theorem phases_goAlong (everyMethod : options.methods = none) {visit visit' : TypeDecl → Visit Unit}
    (along : GoesAlong module options order visit visit') {inside : Bool} {parts : List Phase}
    (shaped : Phase.Shaped inside parts) {type : TypeDecl} {outer : Stack} {walk : Walk} {course : Course Unit}
    (ready : walk.Ready options) (houses : outer.Houses module.key) (active : type.label.key ∈ walk.definitions.stack)
    (came : (phases module options visit type parts).outline walk (Stack.at inside type.label.key outer) =
      some course) :
    FinishesAlike module options order visit' type parts walk (Stack.at inside type.label.key outer) outer course := by
  have ready' : ∀ {walk : Walk}, walk.Ready options → walk.Ready options.toSecondary :=
    fun ready => ⟨ready.idle, ready.limit⟩
  induction shaped generalizing walk course with
  | complete =>
    rw [outline_phases, outline_complete] at came
    cases came
    exact ⟨rfl, [], [], .complete type walk, .complete type walk, rfl⟩
  | supertypes shaped ih =>
    exact phases_along_of_visits along ready houses active (.inl ⟨rfl, rfl⟩)
      (fun options visit => outline_supertypes module options visit type walk outer) ih came
  | nested shaped ih =>
    exact phases_along_of_visits along ready (houses.inside type.label.key) active (.inr ⟨rfl, rfl⟩)
      (fun options visit => outline_nested module options visit type walk _) ih came
  | openType shaped ih =>
    obtain ⟨fits, later, went_on, rfl⟩ := phases_of_traces (openType_traces module visit type houses) came
    exact (ih ready active went_on).own everyMethod fits ⟨nofun, nofun⟩ (openType_traces module visit' type houses)
  | fill fills shaped ih =>
    obtain ⟨fits, later, went_on, rfl⟩ := phases_of_traces (fill_traces module visit type ready _ fills) came
    exact (ih ready active went_on).own everyMethod fits (Phase.apart_of_fills fills)
      (fill_traces module visit' type (ready' ready) _ fills)
  | closeType shaped ih =>
    obtain ⟨_, later, went_on, rfl⟩ := phases_of_traces (closeType_traces module visit type _ _ outer) came
    exact (ih ready active went_on).own everyMethod trivial ⟨nofun, nofun⟩
      (closeType_traces module visit' type _ _ outer)

variable (everyType : options.types = none) (everyMethod : options.methods = none)
include everyType everyMethod

theorem type_goesAlong {parts : List Phase} (whole : Phase.Whole parts) (depth : Nat) :
    GoesAlong module options (.claim :: parts) (type module options (.claim :: parts) depth)
      (type module options.toSecondary (.claim :: parts) depth) := by
  have allowed := Options.visitsType_of_none everyType
  induction depth with
  | zero =>
    intro declared walk stack course _ _ came
    rw [type, outline_throw] at came
    cases came
  | succ depth ih =>
    intro declared walk stack course ready houses came
    rw [type, outline_phases] at came
    rw [type, outline_phases]
    by_cases idle : declared.label.key ∈ walk.completed ∨ declared.label.key ∈ walk.definitions.stack
    · -- both visits look at the same walk, so both pass over the type
      rw [claim_passes module options _ declared walk stack fun _ => idle] at came
      cases came
      rw [claim_passes module options.toSecondary _ declared walk stack fun _ => idle]
      exact ⟨rfl, [], rfl, [], .none walk (by simpa using fun _ => idle), .none walk (by simpa using fun _ => idle)⟩
    · have fresh := not_or.mp idle
      rw [claim_begins module options _ declared walk stack (allowed _) fresh] at came
      rw [claim_begins module options.toSecondary _ declared walk stack rfl fresh]
      split at came
      next room =>
        obtain ⟨later, went_on, rfl⟩ := Option.map_eq_some_iff.mp came
        have ready' : (walk.begin declared.label.key).Ready options := ⟨ready.idle, ready.limit⟩
        obtain ⟨left, inner, edits', ends, ends', outlined⟩ :=
          phases_goAlong everyMethod ih whole.shaped ready' houses (walk.mem_begin _) went_on
        refine ⟨left, edits', ?_, _, ends.covers whole.all (allowed _) fresh, ends'.covers whole.all rfl fresh⟩
        have outlined : (phases module options.toSecondary _ declared parts).outline
            (walk.begin declared.label.key) stack = _ := outlined
        rw [if_pos room, Option.bind_some, if_pos rfl, outlined]
        rfl
      next => cases came

theorem module_goesAlong {parts : List Phase} (whole : Phase.Whole parts) {course : Course Unit}
    (came : (Visit.module module options (.claim :: parts)).outline (.start options.maxDepth) [] = some course) :
    ∃ course' after edits edits', (Visit.module module options.toSecondary (.claim :: parts)).outline
        (.start options.toSecondary.maxDepth) [] = some course' ∧
      course.edits = module.openingEdits options ++ edits ∧
      course'.edits = module.openingEdits options.toSecondary ++ edits' ∧
      CoversAlike module options (.claim :: parts) (.start options.maxDepth) module.types after edits edits' := by
  obtain ⟨_, begun, _, began, _⟩ := outline_of_module came
  obtain ⟨left, edits', began', alike⟩ := forM_goesAlong (type_goesAlong everyType everyMethod whole _) ⟨rfl, rfl⟩
    (Stack.houses_assembly module.key) began
  rw [outline_module began left] at came
  cases came
  exact ⟨_, begun.walk, begun.edits, edits', outline_module began' rfl, rfl, rfl, alike⟩

end Visit

/-! ## No difference -/

theorem Covers.about_eq_nil {module : ModuleDecl} {options : Options} {order : Order} {before after : Walk}
    {starts visited : List TypeDecl} {edits : List Edit}
    (covers : Covers module options order before starts after visited edits) {key : TypeKey}
    (absent : ∀ type ∈ visited, type.label.key ≠ key) : Edit.about key edits = [] := by
  rw [covers.about]
  exact about_others covers.fits absent

namespace Visit.CoversAlike

/-- What both visits say of a key is what one and the same type says, or nothing. -/
theorem about_cases {module : ModuleDecl} {options : Options} {order : Order} {before after : Walk}
    {starts : List TypeDecl} {edits edits' : List Edit}
    (alike : CoversAlike module options order before starts after edits edits') (key : TypeKey) :
    (∃ type : TypeDecl, type.label.Fits module.key options ∧
      Edit.about key edits = Edit.about key (type.label.edits options order) ∧
      Edit.about key edits' = Edit.about key (type.label.edits options.toSecondary order)) ∨
    Edit.about key edits = [] ∧ Edit.about key edits' = [] := by
  obtain ⟨visited, covers, covers'⟩ := alike
  by_cases found : ∃ type ∈ visited, type.label.key = key
  · obtain ⟨type, member, rfl⟩ := found
    exact .inl ⟨type, covers.fits type member, covers.about_of_mem member, covers'.about_of_mem member⟩
  · have absent : ∀ type ∈ visited, type.label.key ≠ key := fun type member same => found ⟨type, member, same⟩
    exact .inr ⟨covers.about_eq_nil absent, covers'.about_eq_nil absent⟩

theorem subsumes {module : ModuleDecl} {options : Options} (everyMethod : options.methods = none)
    {traversal : Traversal} {before after : Walk} {starts : List TypeDecl} {edits edits' : List Edit}
    (alike : CoversAlike module options traversal.order before starts after edits edits') :
    Edit.Subsumes (module.openingEdits options ++ edits) (module.openingEdits options.toSecondary ++ edits') := by
  -- what changes no node is said by the primary visit as well
  have said : ∀ edit ∈ edits', edit.place? = none → edit ∈ edits := by
    obtain ⟨visited, covers, covers'⟩ := alike
    intro edit member free
    obtain ⟨type, found, made⟩ := (covers'.mem_edits edit).mp member
    exact (covers.mem_edits edit).mpr ⟨type, found, Definition.mem_edits_of_secondary everyMethod made free⟩
  constructor
  · intro edit member ensures
    rcases List.mem_append.mp member with member | member
    · simp only [ModuleDecl.openingEdits, List.mem_cons, List.not_mem_nil, or_false] at member
      rcases member with rfl | rfl
      · simp [ModuleDecl.openingEdits]
      · cases ensures
    · refine List.mem_append_right _ (said edit member ?_)
      cases edit with
      | ensureAssembly | ensureSpace | ensureType | ensureMember | openAssembly => rfl
      | onType | onMember => cases ensures
  · intro key member
    rcases List.mem_append.mp member with member | member
    · -- a secondary visit opens the assembly as a dependency
      simp [ModuleDecl.openingEdits, Options.toSecondary, Options.forSecondary] at member
    · exact List.mem_append_right _ (said _ member rfl)
  · intro key
    show TypeChange.Subsumes (Edit.typeChanges key edits) (Edit.typeChanges key edits')
    rw [← Edit.typeChanges_about key edits, ← Edit.typeChanges_about key edits']
    -- a key is told of by one visited type, the same in both visits, or by none
    rcases alike.about_cases key with ⟨type, fits, here, here'⟩ | ⟨nothing, nothing'⟩
    · rw [here, here', Edit.typeChanges_about, Edit.typeChanges_about]
      exact (Definition.typeChanges_sketch everyMethod fits _ _).subsumes
    · rw [nothing, nothing']
      exact .refl _
  · intro key
    show MemberChange.Subsumes (Edit.memberChanges key edits) (Edit.memberChanges key edits')
    rw [← Edit.memberChanges_about key edits, ← Edit.memberChanges_about key edits']
    rcases alike.about_cases key.owner with ⟨type, _, here, here'⟩ | ⟨nothing, nothing'⟩
    · rw [here, here', Edit.memberChanges_about, Edit.memberChanges_about]
      exact Definition.memberChanges_subsume everyMethod type.label traversal key
    · rw [nothing, nothing']
      exact .refl _

end Visit.CoversAlike

/-- Where a visit without allow lists has an outline, so has the secondary one, and it says nothing new. -/
theorem Visit.outline_toSecondary {module : ModuleDecl} {options : Options} {traversal : Traversal}
    (everyType : options.types = none) (everyMethod : options.methods = none) {course : Course Unit}
    (outlined : (Visit.module module options traversal.order).outline (.start options.maxDepth) [] = some course) :
    ∃ course', (Visit.module module options.toSecondary traversal.order).outline
      (.start options.toSecondary.maxDepth) [] = some course' ∧ Edit.Subsumes course.edits course'.edits := by
  obtain ⟨parts, order, whole⟩ := traversal.whole
  rw [order] at outlined
  obtain ⟨course', after, edits, edits', outlined', same, same', alike⟩ :=
    module_goesAlong everyType everyMethod whole outlined
  rw [← order] at outlined' alike
  refine ⟨course', outlined', ?_⟩
  rw [same, same']
  exact alike.subsumes everyMethod

namespace Builder

/-- A visit with no allow lists and the secondary visit of the same module: after the first, the second succeeds and
changes nothing; the other way round, both succeed and lead to a model with the same view as the first alone. -/
theorem visit_absorbs_secondary {builder : Builder} (reachable : builder.Reachable) (module : ModuleDecl)
    (options : Options) (traversal : Traversal) (everyType : options.types = none) (everyMethod : options.methods = none)
    (ok : (builder.visit module options traversal .references).result = .ok ()) :
    let first := (builder.visit module options traversal .references).builder
    let sketched := (builder.visit module options.toSecondary traversal .references).builder
    ((first.visit module options.toSecondary traversal .references).result = .ok () ∧
      (first.visit module options.toSecondary traversal .references).builder = first) ∧
    (builder.visit module options.toSecondary traversal .references).result = .ok () ∧
    (sketched.visit module options traversal .references).result = .ok () ∧
    (sketched.visit module options traversal .references).builder.model.view = first.model.view := by
  intro first sketched
  obtain ⟨free, course, outlined, admits⟩ := outline_of_visitInOrder_ok reachable.good ok
  obtain ⟨course', outlined', subsumes⟩ := Visit.outline_toSecondary everyType everyMethod outlined
  obtain ⟨after, before⟩ := View.admits_of_subsumes subsumes admits
  obtain ⟨nothing, same⟩ := View.applyAll_of_subsumes subsumes admits
  rw [View.admits_append] at after before
  rw [View.applyAll_append] at nothing same
  have good : ∀ options, (builder.visit module options traversal .references).builder.Good :=
    fun options => (reachable.visit module options traversal.order Scanner.references_honest).good
  obtain ⟨_, left, becomes⟩ := visitInOrder_of_outline reachable.good free outlined admits
  obtain ⟨ok', left', becomes'⟩ := visitInOrder_of_outline reachable.good free outlined' before.1
  constructor
  · rw [← becomes.view] at after nothing
    exact visitInOrder_eq_self (good options) left outlined' after.2 nothing
  · rw [← becomes'.view] at before same
    obtain ⟨ok'', _, becomes''⟩ := visitInOrder_of_outline (good options.toSecondary) left' outlined before.2
    exact ⟨ok', ok'', becomes''.view.trans (same.trans becomes.view.symm)⟩

/-- A property is among the drafts, so that the secondary visit makes the members in another order. -/
theorem visit_absorbs_secondary_drafts :
    (survey.visit .drafts .forPrimary .reflection .references).result = .ok () ∧
      ((survey.visit .drafts .forPrimary .reflection .references).builder.visit .drafts Options.forPrimary.toSecondary
        .reflection .references).builder = (survey.visit .drafts .forPrimary .reflection .references).builder ∧
      ((survey.visit .drafts Options.forPrimary.toSecondary .reflection .references).builder.visit .drafts .forPrimary
        .reflection .references).builder.model.view =
          (survey.visit .drafts .forPrimary .reflection .references).builder.model.view := by
  have coherent : ModuleDecl.drafts.Coherent .forPrimary survey.model := by decide
  have ok := survey_visits coherent .reflection
  have absorbs := visit_absorbs_secondary survey_reachable .drafts .forPrimary .reflection rfl rfl ok
  exact ⟨ok, absorbs.1.2, absorbs.2.2.2⟩

end Builder

end UsageGraph
