import Mathlib.Data.List.Perm.Subperm
import UsageGraph.Proofs.Traversal.Coverage

/-! Traversals cover what they lead to.

A type is claimed, goes through its phases and is completed. A visit that has an outline
covers the types that it leads to. It has an outline if these types fit and there are no
more types than the limit of the guard, since each type in progress is another one.
-/

set_option autoImplicit false
namespace UsageGraph

/-- Phases that follow a claim, from outside or from inside the open type, and end with its completion. -/
inductive Phase.Shaped : Bool → List Phase → Prop
  | complete : Shaped false [.complete]
  | supertypes {rest : List Phase} (shaped : Shaped false rest) : Shaped false (.supertypes :: rest)
  | openType {rest : List Phase} (shaped : Shaped true rest) : Shaped false (.openType :: rest)
  | fill {part : Phase} {rest : List Phase} (fills : part.fills = true) (shaped : Shaped true rest) :
    Shaped true (part :: rest)
  | nested {rest : List Phase} (shaped : Shaped true rest) : Shaped true (.nested :: rest)
  | closeType {rest : List Phase} (shaped : Shaped false rest) : Shaped true (.closeType :: rest)

/-- An order that claims a type first and then goes through all phases. -/
structure Phase.Whole (parts : List Phase) : Prop where
  shaped : Shaped false parts
  all : ∀ part, part ∈ Phase.claim :: parts

theorem Traversal.whole (traversal : Traversal) : ∃ parts, traversal.order = .claim :: parts ∧ Phase.Whole parts := by
  cases traversal with
  | reflection =>
    refine ⟨_, rfl, ⟨?_, fun part => by cases part <;> decide⟩⟩
    exact .openType (.fill rfl (.fill rfl (.nested (.fill rfl (.fill rfl (.fill rfl (.fill rfl
      (.closeType (.supertypes .complete)))))))))
  | topDown =>
    refine ⟨_, rfl, ⟨?_, fun part => by cases part <;> decide⟩⟩
    exact .supertypes (.openType (.fill rfl (.fill rfl (.fill rfl (.fill rfl (.fill rfl (.fill rfl (.nested
      (.closeType .complete)))))))))

def Stack.at (inside : Bool) (key : TypeKey) (outer : Stack) : Stack :=
  if inside then .type key :: .space key.space :: outer else outer

namespace Visit

section Outlines

variable (module : ModuleDecl) (options : Options) (visit : TypeDecl → Visit Unit) (type : TypeDecl) (walk : Walk)
    (stack : Stack)

theorem outline_claim (key : TypeKey) :
    (claim options key).outline walk stack =
      if walk.completed.contains key || !options.visitsType key then some ⟨false, walk, [], stack⟩
      else match walk.definitions.enter key with
        | .ok (begun, definitions) => some ⟨begun, { walk with definitions }, [], stack⟩
        | .error _ => none := by
  have begins : (get : Visit Walk).outline walk stack = some ⟨walk, walk, [], stack⟩ := rfl
  unfold claim
  rw [outline_bind, begins]
  simp only [Option.bind_some]
  by_cases passed : (walk.completed.contains key || !options.visitsType key) = true
  · rw [if_pos passed, if_pos passed]
    rfl
  · rw [if_neg passed, if_neg passed, outline_bind]
    cases walk.definitions.enter key with
    | error fault => rfl
    | ok entered => rfl

theorem claim_passes (idle : options.visitsType type.label.key = true →
    type.label.key ∈ walk.completed ∨ type.label.key ∈ walk.definitions.stack) :
    (phase module options visit type .claim).outline walk stack = some ⟨false, walk, [], stack⟩ := by
  unfold phase
  rw [outline_bind, outline_claim]
  by_cases passed : (walk.completed.contains type.label.key || !options.visitsType type.label.key) = true
  · rw [if_pos passed]
    rfl
  · have allowed : options.visitsType type.label.key = true := by simp_all
    rw [if_neg passed, Guard.enter_of_mem ((idle allowed).resolve_left (by simp_all))]
    rfl

theorem claim_begins (allowed : options.visitsType type.label.key = true)
    (fresh : type.label.key ∉ walk.completed ∧ type.label.key ∉ walk.definitions.stack) :
    (phase module options visit type .claim).outline walk stack =
      if walk.definitions.depth < walk.definitions.limit then some ⟨true, walk.begin type.label.key, [], stack⟩
      else none := by
  have granted : ¬ (walk.completed.contains type.label.key || !options.visitsType type.label.key) = true := by
    simp [allowed, fresh.1]
  unfold phase
  rw [outline_bind, outline_claim, if_neg granted, Guard.enter_of_fresh fresh.2]
  by_cases room : walk.definitions.depth < walk.definitions.limit
  · rw [if_pos room, if_pos room]
    rfl
  · rw [if_neg room, if_neg room]
    rfl

theorem outline_supertypes :
    (phase module options visit type .supertypes).outline walk stack =
      (((module.supertypesOf type.label).forM visit).outline walk stack).map fun course =>
        { course with answer := true } := by
  unfold phase
  rw [outline_bind, outline_note]
  simp only [Option.bind_some]
  rw [outline_bind]
  cases ((module.supertypesOf type.label).forM visit).outline walk stack <;> simp [Course.after]

theorem outline_nested :
    (phase module options visit type .nested).outline walk stack =
      ((type.children.forM visit).outline walk stack).map fun course => { course with answer := true } := by
  unfold phase
  rw [outline_bind]
  cases (type.children.forM visit).outline walk stack <;> simp [Course.after]

theorem outline_complete :
    (phase module options visit type .complete).outline walk stack =
      some ⟨true,
        { walk with definitions := walk.definitions.leave, completed := walk.completed.insert type.label.key },
        [], stack⟩ := rfl

theorem outline_phases (first : Phase) (rest : List Phase) :
    (phases module options visit type (first :: rest)).outline walk stack =
      ((phase module options visit type first).outline walk stack).bind fun course =>
        if course.answer then
          ((phases module options visit type rest).outline course.walk course.stack).map (Course.after course.edits)
        else some { course with answer := () } := by
  show (phase module options visit type first >>= fun more =>
    if more then phases module options visit type rest else pure ()).outline walk stack = _
  rw [outline_bind]
  congr 1
  funext course
  cases course.answer with
  | true => rfl
  | false => simp [Course.after]

end Outlines

section Sound

variable {module : ModuleDecl} {options : Options} {order : Order}

/-- Whenever a visit of a type has an outline, it covers the type and comes back to the scopes where it began. -/
def CoversWhatItVisits (module : ModuleDecl) (options : Options) (order : Order) (visit : TypeDecl → Visit Unit) :
    Prop :=
  ∀ {type : TypeDecl} {walk : Walk} {stack : Stack} {course : Course Unit}, walk.Ready options →
    stack.Houses module.key →
    (visit type).outline walk stack = some course →
    course.stack = stack ∧ ∃ visited, Covers module options order walk [type] course.walk visited course.edits

theorem Ready.of_references {walk later : Walk} (ready : walk.Ready options)
    (same : later.references = walk.references) :
    later.Ready options := by
  constructor
  · rw [same]
    exact ready.idle
  · rw [same]
    exact ready.limit

theorem forM_covers {visit : TypeDecl → Visit Unit} (sound : CoversWhatItVisits module options order visit)
    {types : List TypeDecl} {walk : Walk} {stack : Stack} {course : Course Unit} (ready : walk.Ready options)
    (houses : stack.Houses module.key) (came : (types.forM visit).outline walk stack = some course) :
    course.stack = stack ∧ ∃ visited, Covers module options order walk types course.walk visited course.edits := by
  induction types generalizing walk course with
  | nil =>
    cases came
    exact ⟨rfl, [], .none walk (by simp)⟩
  | cons type rest ih =>
    have split : (visit type >>= fun _ => rest.forM visit).outline walk stack = some course := came
    rw [outline_bind] at split
    obtain ⟨first, began, split⟩ := Option.bind_eq_some_iff.mp split
    obtain ⟨second, went_on, rfl⟩ := Option.map_eq_some_iff.mp split
    obtain ⟨same, visited, covers⟩ := sound ready houses began
    rw [same] at went_on
    obtain ⟨same', further, covers'⟩ := ih (Ready.of_references ready covers.references) went_on
    exact ⟨same', visited ++ further, covers.append covers'⟩

theorem phases_of_traces {visit : TypeDecl → Visit Unit} {type : TypeDecl} {first : Phase} {rest : List Phase}
    {walk : Walk}
    {stack left : Stack} {fits : Prop} {edits : List Edit} {course : Course Unit}
    (traces : (phase module options visit type first).Traces walk stack left fits true edits)
    (came : (phases module options visit type (first :: rest)).outline walk stack = some course) :
    fits ∧ ∃ later,
      (phases module options visit type rest).outline walk left = some later ∧ later.after edits = course := by
  rw [outline_phases] at came
  by_cases holds : fits
  · rw [traces.comes holds] at came
    exact ⟨holds, Option.map_eq_some_iff.mp came⟩
  · rw [traces.stops holds] at came
    cases came

theorem phases_of_visits {visit : TypeDecl → Visit Unit} (sound : CoversWhatItVisits module options order visit)
    {type : TypeDecl} {first : Phase} {rest : List Phase} {walk : Walk} {stack : Stack} {course : Course Unit}
    {starts : List TypeDecl} (ready : walk.Ready options) (houses : stack.Houses module.key)
    (visits : (phase module options visit type first).outline walk stack =
      ((starts.forM visit).outline walk stack).map fun course => { course with answer := true })
    (came : (phases module options visit type (first :: rest)).outline walk stack = some course) :
    ∃ middle visited edits later, Covers module options order walk starts middle visited edits ∧
      (phases module options visit type rest).outline middle stack = some later ∧ later.after edits = course := by
  rw [outline_phases, visits] at came
  obtain ⟨begun, began, came⟩ := Option.bind_eq_some_iff.mp came
  obtain ⟨inner, visited, rfl⟩ := Option.map_eq_some_iff.mp began
  obtain ⟨same, types, covers⟩ := forM_covers sound ready houses visited
  obtain ⟨later, went_on, same'⟩ := Option.map_eq_some_iff.mp came
  rw [same] at went_on
  exact ⟨_, _, _, later, covers, went_on, same'⟩

theorem phases_finish {visit : TypeDecl → Visit Unit} (sound : CoversWhatItVisits module options order visit)
    {inside : Bool}
    {parts : List Phase} (shaped : Phase.Shaped inside parts) {type : TypeDecl} {outer : Stack} {walk : Walk}
    {course : Course Unit}
    (ready : walk.Ready options) (houses : outer.Houses module.key) (active : type.label.key ∈ walk.definitions.stack)
    (came : (phases module options visit type parts).outline walk (Stack.at inside type.label.key outer) =
      some course) :
    course.stack = outer ∧ ∃ inner, Finishes module options order type parts walk course.walk inner course.edits := by
  -- a phase visits other types, from around or from inside the type, or it is the type's own
  induction shaped generalizing walk course with
  | complete =>
    rw [outline_phases, outline_complete] at came
    cases came
    exact ⟨rfl, [], .complete type walk⟩
  | supertypes shaped ih =>
    obtain ⟨middle, visited, edits, later, covers, went_on, rfl⟩ :=
      phases_of_visits sound ready houses (outline_supertypes module options visit type walk outer) came
    obtain ⟨same, inner, finishes⟩ :=
      ih (Ready.of_references ready covers.references) (covers.definitions ▸ active) went_on
    exact ⟨same, _, finishes.visits covers active (.inl ⟨rfl, rfl⟩)⟩
  | nested shaped ih =>
    obtain ⟨middle, visited, edits, later, covers, went_on, rfl⟩ :=
      phases_of_visits sound ready (houses.inside type.label.key) (outline_nested module options visit type walk _) came
    obtain ⟨same, inner, finishes⟩ :=
      ih (Ready.of_references ready covers.references) (covers.definitions ▸ active) went_on
    exact ⟨same, _, finishes.visits covers active (.inr ⟨rfl, rfl⟩)⟩
  | openType shaped ih =>
    obtain ⟨fits, later, went_on, rfl⟩ := phases_of_traces (openType_traces module visit type houses) came
    obtain ⟨same, inner, finishes⟩ := ih ready active went_on
    exact ⟨same, inner, finishes.own fits ⟨nofun, nofun⟩⟩
  | fill fills shaped ih =>
    obtain ⟨fits, later, went_on, rfl⟩ := phases_of_traces (fill_traces module visit type ready _ fills) came
    obtain ⟨same, inner, finishes⟩ := ih ready active went_on
    exact ⟨same, inner, finishes.own fits (Phase.apart_of_fills fills)⟩
  | closeType shaped ih =>
    obtain ⟨_, later, went_on, rfl⟩ := phases_of_traces (closeType_traces module visit type _ _ outer) came
    obtain ⟨same, inner, finishes⟩ := ih ready active went_on
    exact ⟨same, inner, finishes.own trivial ⟨nofun, nofun⟩⟩

theorem type_covers {parts : List Phase} (whole : Phase.Whole parts) (depth : Nat) :
    CoversWhatItVisits module options (.claim :: parts) (type module options (.claim :: parts) depth) := by
  induction depth with
  | zero =>
    intro declared walk stack course _ _ came
    rw [type, outline_throw] at came
    cases came
  | succ depth ih =>
    intro declared walk stack course ready houses came
    rw [type, outline_phases] at came
    -- a type is passed over, or it is claimed and goes through its phases
    by_cases idle : options.visitsType declared.label.key = true →
        declared.label.key ∈ walk.completed ∨ declared.label.key ∈ walk.definitions.stack
    · rw [claim_passes module options _ declared walk stack idle] at came
      cases came
      exact ⟨rfl, [], .none walk (by simpa using idle)⟩
    · simp only [Classical.not_imp, not_or] at idle
      obtain ⟨allowed, fresh⟩ := idle
      rw [claim_begins module options _ declared walk stack allowed fresh] at came
      split at came
      · obtain ⟨later, went_on, rfl⟩ := Option.map_eq_some_iff.mp came
        have ready' : (walk.begin declared.label.key).Ready options := ⟨ready.idle, ready.limit⟩
        obtain ⟨same, inner, finishes⟩ := phases_finish ih whole.shaped ready' houses (walk.mem_begin _) went_on
        exact ⟨same, _, finishes.covers whole.all allowed fresh⟩
      · cases came

end Sound

end Visit

/-! ## Types that fit have an outline -/

namespace Tree

variable {α : Type}

theorem mem_subtrees_self (tree : Tree α) : tree ∈ tree.subtrees := by
  cases tree with
  | node label children => simp [subtrees]

theorem mem_forestSubtrees_iff (forest : List (Tree α)) (found : Tree α) :
    found ∈ forestSubtrees forest ↔ ∃ tree ∈ forest, found ∈ tree.subtrees := by
  rw [forestSubtrees_eq_flatMap, List.mem_flatMap]

mutual

theorem mem_subtrees_of_child : (tree : Tree α) → {found child : Tree α} → found ∈ tree.subtrees →
    child ∈ found.children → child ∈ tree.subtrees
  | .node label children, found, child, member, below => by
    rw [subtrees] at member ⊢
    refine List.mem_cons_of_mem _ ?_
    rcases List.mem_cons.mp member with rfl | member
    · exact (mem_forestSubtrees_iff children child).mpr ⟨child, below, mem_subtrees_self child⟩
    · exact mem_forestSubtrees_of_child children member below

theorem mem_forestSubtrees_of_child : (forest : List (Tree α)) → {found child : Tree α} →
    found ∈ forestSubtrees forest →
    child ∈ found.children → child ∈ forestSubtrees forest
  | [], _, _, member, _ => by simp [forestSubtrees] at member
  | tree :: rest, found, child, member, below => by
    rw [forestSubtrees] at member ⊢
    rcases List.mem_append.mp member with member | member
    · exact List.mem_append_left _ (mem_subtrees_of_child tree member below)
    · exact List.mem_append_right _ (mem_forestSubtrees_of_child rest member below)

end

end Tree

namespace ModuleDecl

variable {module : ModuleDecl} {options : Options}

theorem mem_declaredTypes_of_successor {type later : TypeDecl} (declared : type ∈ module.declaredTypes)
    (next : later ∈ module.successors type) : later ∈ module.declaredTypes := by
  rcases List.mem_append.mp next with next | next
  · obtain ⟨reference, _, found⟩ := List.mem_filterMap.mp next
    exact List.mem_reverse.mp (List.mem_of_find?_eq_some found)
  · exact Tree.mem_forestSubtrees_of_child module.types declared next

theorem mem_declaredTypes_of_mem_types {type : TypeDecl} (member : type ∈ module.types) : type ∈ module.declaredTypes :=
  (Tree.mem_forestSubtrees_iff module.types type).mpr ⟨type, member, Tree.mem_subtrees_self type⟩

theorem LeadsTo.declared {starts : List TypeDecl} {type : TypeDecl} (led : module.LeadsTo options starts type)
    (within : ∀ start ∈ starts, start ∈ module.declaredTypes) : type ∈ module.declaredTypes := by
  induction led with
  | start member _ => exact within _ member
  | next _ member _ ih => exact mem_declaredTypes_of_successor ih member

end ModuleDecl

/-- A walk under the limit of the options, in which the types in progress are different types of the module. -/
structure Walk.Steady (module : ModuleDecl) (options : Options) (walk : Walk) : Prop where
  ready : walk.Ready options
  limit : walk.definitions.limit = options.maxDepth
  distinct : walk.definitions.stack.Nodup
  known : walk.definitions.stack ⊆ module.declaredTypes.map fun type => type.label.key

namespace Walk.Steady

variable {module : ModuleDecl} {options : Options} {walk : Walk}

theorem start : (Walk.start options.maxDepth).Steady module options :=
  ⟨⟨rfl, rfl⟩, rfl, .nil, List.nil_subset _⟩

theorem depth_le (steady : walk.Steady module options) : walk.definitions.depth ≤ module.declaredTypes.length := by
  have fewer := (steady.distinct.subperm steady.known).length_le
  rwa [List.length_map] at fewer

theorem begin (steady : walk.Steady module options) {type : TypeDecl} (declared : type ∈ module.declaredTypes)
    (fresh : type.label.key ∉ walk.definitions.stack) : (walk.begin type.label.key).Steady module options := by
  refine ⟨⟨steady.ready.idle, steady.ready.limit⟩, steady.limit, (walk.begin _).definitions.agree.distinct, ?_⟩
  rw [Walk.stack_begin fresh]
  exact List.cons_subset.mpr ⟨List.mem_map_of_mem declared, steady.known⟩

end Walk.Steady

namespace Visit

section Complete

variable {module : ModuleDecl} {options : Options} {order : Order}

def GoesOn (module : ModuleDecl) (walk : Walk) (visit : Visit Unit) : Prop :=
  ∀ later : Walk, later.definitions = walk.definitions → later.references = walk.references →
    ∀ stack : Stack, stack.Houses module.key → ∃ course, visit.outline later stack = some course

theorem forM_goesOn {visit : TypeDecl → Visit Unit} (sound : CoversWhatItVisits module options order visit)
    {walk : Walk} (ready : walk.Ready options) {types : List TypeDecl}
    (each : ∀ type ∈ types, GoesOn module walk (visit type)) :
    GoesOn module walk (types.forM visit) := by
  induction types with
  | nil => exact fun later _ _ stack _ => ⟨_, rfl⟩
  | cons type rest ih =>
    intro later definitions references stack houses
    obtain ⟨first, began⟩ := each type (by simp) later definitions references stack houses
    -- a visit puts both guards back, so the rest starts with the same types in progress
    obtain ⟨same, visited, covers⟩ := sound (Ready.of_references ready references) houses began
    obtain ⟨second, went_on⟩ := ih (fun type member => each type (by simp [member])) first.walk
      (covers.definitions.trans definitions) (covers.references.trans references) stack houses
    refine ⟨second.after first.edits, ?_⟩
    show (visit type >>= fun _ => rest.forM visit).outline later stack = _
    rw [outline_bind, began]
    simp only [Option.bind_some, same]
    rw [went_on]
    rfl

theorem phases_goOn_of_traces {visit : TypeDecl → Visit Unit} {type : TypeDecl} {first : Phase} {rest : List Phase}
    {walk : Walk} {stack left : Stack} {fits : Prop} {edits : List Edit}
    (traces : (phase module options visit type first).Traces walk stack left fits true edits) (holds : fits)
    (rest_on : ∃ later, (phases module options visit type rest).outline walk left = some later) :
    ∃ course, (phases module options visit type (first :: rest)).outline walk stack = some course := by
  obtain ⟨later, went_on⟩ := rest_on
  rw [outline_phases, traces.comes holds]
  exact ⟨later.after edits, by simp [went_on]⟩

theorem phases_goOn_of_visits {visit : TypeDecl → Visit Unit} (sound : CoversWhatItVisits module options order visit)
    {type : TypeDecl} {first : Phase} {rest : List Phase} {walk later : Walk} {stack : Stack} {starts : List TypeDecl}
    (ready : walk.Ready options) (houses : stack.Houses module.key) (definitions : later.definitions = walk.definitions)
    (references : later.references = walk.references)
    (visits : (phase module options visit type first).outline later stack =
      ((starts.forM visit).outline later stack).map fun course => { course with answer := true })
    (each : ∀ start ∈ starts, GoesOn module walk (visit start))
    (rest_on : ∀ middle : Walk, middle.definitions = walk.definitions → middle.references = walk.references →
      ∃ course, (phases module options visit type rest).outline middle stack = some course) :
    ∃ course, (phases module options visit type (first :: rest)).outline later stack = some course := by
  obtain ⟨begun, began⟩ := forM_goesOn sound ready each later definitions references stack houses
  obtain ⟨same, visited, covers⟩ := forM_covers sound (Ready.of_references ready references) houses began
  obtain ⟨course, went_on⟩ := rest_on begun.walk (covers.definitions.trans definitions)
    (covers.references.trans references)
  rw [outline_phases, visits, began]
  exact ⟨course.after begun.edits, by simp [same, went_on]⟩

theorem phases_goOn {visit : TypeDecl → Visit Unit} (sound : CoversWhatItVisits module options order visit)
    {type : TypeDecl} {walk : Walk} (ready : walk.Ready options)
    (each : ∀ later ∈ module.successors type, GoesOn module walk (visit later))
    (fits : type.label.Fits module.key options) {inside : Bool} {parts : List Phase}
    (shaped : Phase.Shaped inside parts) {outer : Stack} (houses : outer.Houses module.key) (later : Walk)
    (definitions : later.definitions = walk.definitions) (references : later.references = walk.references) :
    ∃ course, (phases module options visit type parts).outline later (Stack.at inside type.label.key outer) =
      some course := by
  -- visits put the guards back, so that every phase starts with the types in progress that the first had
  induction shaped generalizing later with
  | complete => exact ⟨_, rfl⟩
  | supertypes shaped ih =>
    refine phases_goOn_of_visits sound ready houses definitions references
      (outline_supertypes module options visit type later outer) ?_ ih
    exact fun start member => each start (List.mem_append_left _ member)
  | nested shaped ih =>
    refine phases_goOn_of_visits sound ready (houses.inside type.label.key) definitions references
      (outline_nested module options visit type later _) ?_ ih
    exact fun start member => each start (List.mem_append_right _ member)
  | openType shaped ih =>
    exact phases_goOn_of_traces (openType_traces module visit type houses) (fits .openType)
      (ih later definitions references)
  | fill fills shaped ih =>
    have ready' := Ready.of_references ready references
    exact phases_goOn_of_traces (fill_traces module visit type ready' _ fills) (fits _)
      (ih later definitions references)
  | closeType shaped ih =>
    exact phases_goOn_of_traces (closeType_traces module visit type _ _ outer) trivial (ih later definitions references)

/-- A visit of a type goes on if all types that it leads to fit. Each type in progress is another one of the module,
so the guard leaves room, and the depth falls with the number of types that are left. -/
theorem type_goesOn {parts : List Phase} (whole : Phase.Whole parts)
    (bounded : module.declaredTypes.length ≤ options.maxDepth)
    (depth : Nat) {declared : TypeDecl} (member : declared ∈ module.declaredTypes) {walk : Walk}
    (steady : walk.Steady module options)
    (fits : ∀ type, module.LeadsTo options [declared] type → type.label.Fits module.key options)
    (deep : module.declaredTypes.length < depth + walk.definitions.depth) :
    GoesOn module walk (type module options (.claim :: parts) depth declared) := by
  induction depth generalizing declared walk with
  | zero =>
    -- without depth, more types would be in progress than the module declares
    have few := steady.depth_le
    omega
  | succ depth ih =>
    intro later definitions references stack houses
    rw [type, outline_phases]
    by_cases idle : options.visitsType declared.label.key = true →
        declared.label.key ∈ later.completed ∨ declared.label.key ∈ later.definitions.stack
    · rw [claim_passes module options _ declared later stack idle]
      exact ⟨_, rfl⟩
    simp only [Classical.not_imp, not_or] at idle
    obtain ⟨allowed, fresh⟩ := idle
    have steady' := steady.begin member (definitions ▸ fresh.2)
    have deeper : (walk.begin declared.label.key).definitions.depth = walk.definitions.depth + 1 :=
      Walk.depth_begin (definitions ▸ fresh.2)
    have more := steady'.depth_le
    have room : later.definitions.depth < later.definitions.limit := by
      rw [definitions, steady.limit]
      omega
    rw [claim_begins module options _ declared later stack allowed fresh, if_pos room]
    -- every type that this one leads to finds one more type in progress, and one less depth
    have begun : module.LeadsTo options [declared] declared := .start List.mem_cons_self allowed
    have each : ∀ next ∈ module.successors declared,
        GoesOn module (walk.begin declared.label.key) (type module options (.claim :: parts) depth next) := by
      intro next after
      apply ih (ModuleDecl.mem_declaredTypes_of_successor member after) steady'
      · intro type led
        have led' := led.mono (List.cons_subset.mpr ⟨after, List.nil_subset _⟩)
        exact fits type (led'.of_successors begun)
      · omega
    have same : (later.begin declared.label.key).definitions = (walk.begin declared.label.key).definitions := by
      rw [Walk.begin, Walk.begin, definitions]
    obtain ⟨course, went_on⟩ := phases_goOn (type_covers whole depth) steady'.ready each
      (fits declared begun) whole.shaped houses _ same references
    exact ⟨course.after [], Option.map_eq_some_iff.mpr ⟨course, went_on, rfl⟩⟩

end Complete

end Visit

end UsageGraph
