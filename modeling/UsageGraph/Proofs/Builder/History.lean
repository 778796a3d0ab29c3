import Mathlib.Data.List.Induction
import UsageGraph.Proofs.Builder.Failure
import UsageGraph.Proofs.View.Subsumption

/-! What the history of a model tells of its nodes.

A model is made by requests and building steps, through one builder after the other. What
a node says of how it was visited can be told from the steps that opened it, as far as
they succeeded: steps that failed, steps that fill nodes in and all other requests do not
matter, except that a type is external as long as it was said to be and never opened.
-/

set_option autoImplicit false
namespace UsageGraph

inductive Deed where
  /-- A new builder takes over the model. -/
  | renew
  | request (asked : Request)
  | step (op : Op)

/-- A builder together with what was done on the way to it. -/
structure History where
  builder : Builder := {}
  /-- The steps that succeeded. -/
  taken : List Op := []
  asked : List Request := []

def History.next (history : History) : Deed → History
  | .renew => { history with builder := { model := history.builder.model } }
  | .request asked =>
    { history with
      builder := { history.builder with model := asked.grant history.builder.model }
      asked := history.asked ++ [asked] }
  | .step op =>
    match op.perform history.builder with
    | (.ok _, after) => { history with builder := after, taken := history.taken ++ [op] }
    | (.error _, after) => { history with builder := after }

def History.of (deeds : List Deed) : History := deeds.foldl History.next {}

def Request.external? : Request → Option TypeKey
  | .external key => some key
  | .system provided => some provided.key
  | _ => none

def Op.startedMember? : Op → Option (MemberKind × MemberKey)
  | .startMethod key _ => some (.method, key)
  | .startField key => some (.field, key)
  | .startProperty key => some (.property, key)
  | .startEvent key => some (.event, key)
  | _ => none

/-- The opening of a node, as far as its facts depend on it. -/
inductive Start where
  | assembly (key : AssemblyKey) (isDependency : Bool)
  | type (key : TypeKey) (signatureOnly : Bool)
  | member (key : MemberKey) (signatureOnly : Bool)

def Start.ofType? (key : TypeKey) : Start → Option Bool
  | .type opened signatureOnly => if opened = key then some signatureOnly else none
  | _ => none

def Start.ofMember? (key : MemberKey) : Start → Option Bool
  | .member opened signatureOnly => if opened = key then some signatureOnly else none
  | _ => none

def Op.start? : Op → Option Start
  | .startAssembly key isDependency => some (.assembly key isDependency)
  | .startType key signatureOnly => some (.type key signatureOnly)
  | .startMethod key signatureOnly => some (.member key signatureOnly)
  | .startField key | .startProperty key | .startEvent key => some (.member key false)
  | _ => none

def Edit.start? : Edit → Option Start
  | .openAssembly key isDependency => some (.assembly key isDependency)
  | .onType key change => change.opened?.map (.type key)
  | .onMember key change => change.opened?.map (.member key)
  | _ => none

def Edit.starts (edits : List Edit) : List Start := edits.filterMap start?

namespace Edit

@[simp] theorem start?_use (holder target : NodeKey) : (Edit.use holder target).start? = none := by
  cases holder <;> rfl

@[simp] theorem start?_attributed (holder : NodeKey) (type : TypeKey) : (Edit.attributed holder type).start? = none := by
  cases holder <;> rfl

@[simp] theorem start?_ensureType (key : TypeKey) : (Edit.ensureType key).start? = none := rfl

@[simp] theorem start?_ensureNode (key : NodeKey) : (Edit.ensureNode key).start? = none := by
  cases key <;> rfl

theorem starts_map_ensureType (keys : List TypeKey) : starts (keys.map ensureType) = [] := by
  induction keys with
  | nil => rfl
  | cons key rest ih => exact ih

theorem starts_append (first second : List Edit) : starts (first ++ second) = starts first ++ starts second :=
  List.filterMap_append

theorem opened_typeChanges (key : TypeKey) (edits : List Edit) :
    (typeChanges key edits).filterMap TypeChange.opened? = (starts edits).filterMap (Start.ofType? key) := by
  rw [typeChanges, starts, List.filterMap_filterMap, List.filterMap_filterMap]
  congr 1
  funext edit
  cases edit with
  | onType changed change =>
    by_cases here : changed = key
    · cases opened : change.opened? <;> simp [typeChange?, start?, Start.ofType?, here, opened]
    · cases opened : change.opened? <;> simp [typeChange?, start?, Start.ofType?, here, opened]
  | onMember changed change => cases opened : change.opened? <;> simp [typeChange?, start?, Start.ofType?, opened]
  | ensureAssembly | ensureSpace | ensureType | ensureMember | openAssembly => rfl

theorem opened_memberChanges (key : MemberKey) (edits : List Edit) :
    (memberChanges key edits).filterMap MemberChange.opened? = (starts edits).filterMap (Start.ofMember? key) := by
  rw [memberChanges, starts, List.filterMap_filterMap, List.filterMap_filterMap]
  congr 1
  funext edit
  cases edit with
  | onMember changed change =>
    by_cases here : changed = key
    · cases opened : change.opened? <;> simp [memberChange?, start?, Start.ofMember?, here, opened]
    · cases opened : change.opened? <;> simp [memberChange?, start?, Start.ofMember?, here, opened]
  | onType changed change => cases opened : change.opened? <;> simp [memberChange?, start?, Start.ofMember?, opened]
  | ensureAssembly | ensureSpace | ensureType | ensureMember | openAssembly => rfl

theorem mem_starts_assembly {key : AssemblyKey} {isDependency : Bool} {edits : List Edit} :
    .assembly key isDependency ∈ starts edits ↔ .openAssembly key isDependency ∈ edits := by
  rw [starts, List.mem_filterMap]
  constructor
  · rintro ⟨edit, member, opens⟩
    cases edit with
    | openAssembly => cases opens; exact member
    | onType changed change => cases change <;> simp [start?, TypeChange.opened?] at opens
    | onMember changed change => cases change <;> simp [start?, MemberChange.opened?] at opens
    | ensureAssembly | ensureSpace | ensureType | ensureMember => cases opens
  · exact fun member => ⟨_, member, rfl⟩

end Edit

theorem Op.starts_track {op : Op} {stack left : Stack} {edits : List Edit}
    (tracked : op.track stack = .ok (edits, left)) : Edit.starts edits = op.start?.toList := by
  cases op with
  | setAccessor slot owner accessor =>
    cases tracked
    rfl
  | startAssembly | startSpace | startType | startMethod | startField | startProperty | startEvent | close
  | setTypeFlags | setBaseType | addInterface | setMethodFlags | setFieldType | setPropertyType | setEventType =>
    obtain ⟨_, _, same⟩ := exists_of_map_ok tracked
    cases same
    rfl
  | setPrototype returns parameters =>
    obtain ⟨key, _, same⟩ := exists_of_map_ok tracked
    cases same
    rw [Edit.starts_append, Edit.starts_append, Edit.starts_map_ensureType, Edit.starts_map_ensureType]
    rfl
  | useType | useNode | addAttribute =>
    obtain ⟨holder, _, same⟩ := exists_of_map_ok tracked
    cases same
    simp [Edit.starts, Op.start?]

theorem Op.ensured_of_started {op : Op} {stack left : Stack} {edits : List Edit}
    (tracked : op.track stack = .ok (edits, left)) {kind : MemberKind} {key : MemberKey}
    (started : op.startedMember? = some (kind, key)) : .ensureMember kind key ∈ edits := by
  cases op with
  | startMethod | startField | startProperty | startEvent =>
    cases started
    obtain ⟨_, _, same⟩ := exists_of_map_ok tracked
    cases same
    simp
  | startAssembly | startSpace | startType | close | setTypeFlags | setBaseType | addInterface | setPrototype
  | setMethodFlags | setFieldType | setPropertyType | setEventType | setAccessor | useType | useNode | addAttribute =>
    cases started

/-! ## Facts that stay -/

def TypeFacts.marked (facts : TypeFacts) : TypeFacts :=
  { facts with isExternal := facts.isExternal || facts.visitation = .placeholder }

namespace Model

structure KeepsFacts (before after : Model) : Prop where
  assembly : after.view.assembly = before.view.assembly
  type : after.view.type = before.view.type
  member : after.view.member = before.view.member

theorem KeepsFacts.refl (model : Model) : model.KeepsFacts model := ⟨rfl, rfl, rfl⟩

theorem Becomes.keepsFacts {before after : Model} {edit : Edit} (becomes : before.Becomes after [edit])
    (ensures : edit.place? = none) (unopened : ∀ key isDependency, edit ≠ .openAssembly key isDependency) :
    before.KeepsFacts after := by
  have same : after.view = before.view.apply edit := becomes.view
  cases edit with
  | ensureAssembly | ensureSpace | ensureType | ensureMember => exact ⟨by rw [same]; rfl, by rw [same]; rfl, by rw [same]; rfl⟩
  | openAssembly key isDependency => exact absurd rfl (unopened key isDependency)
  | onType | onMember => cases ensures

/-- What is known after a request: at most, one type has been marked as external. -/
structure Marks (before after : Model) (external : Option TypeKey) : Prop where
  isDependency : ∀ key, (after.view.assembly key).isDependency = (before.view.assembly key).isDependency
  type : ∀ key, after.view.type key =
    if external = some key then (before.view.type key).marked else before.view.type key
  member : after.view.member = before.view.member

section Requests

variable {model : Model} (formed : model.WellFormed)
include formed

theorem ensureMember_keepsFacts (key : MemberKey) (kind : NodeKind) :
    model.KeepsFacts (model.ensureMember key kind).2 := by
  cases kind with
  | member kind =>
    rcases ensureMember_becomes formed kind key with ⟨_, id, node, _, _, _, _, becomes⟩ | ⟨_, found, failed⟩
    · exact becomes.keepsFacts rfl (by simp)
    · rw [failed]
      exact .refl model
  | type =>
    rw [ensureMember_eq formed]
    cases model.findMember? key with
    | some node => exact .refl model
    | none => exact (ensureType_becomes formed key.owner).1.keepsFacts rfl (by simp)

omit formed in
theorem KeepsFacts.marks {after : Model} (keeps : model.KeepsFacts after) : model.Marks after none where
  isDependency key := by rw [keeps.assembly]
  type key := by simp [keeps.type]
  member := keeps.member

theorem ensureExternal_marks (key : TypeKey) : model.Marks (model.ensureExternal key).2 (some key) := by
  obtain ⟨becomes, node, held, named⟩ := ensureType_becomes formed key
  obtain ⟨assembly, type, member⟩ := becomes.keepsFacts rfl (by simp)
  have keeps : ∀ node : TypeNode, KeepsType node { node with isExternal := node.isExternal || node.isPlaceholder } :=
    fun _ => ⟨rfl, rfl, rfl, rfl⟩
  have backed : (model.ensureType key).2.BacksType { node with isExternal := node.isExternal || node.isPlaceholder } := by
    obtain ⟨base, interfaces, attributes, usages⟩ := becomes.formed.type_backed held
    exact ⟨base, interfaces, attributes, usages⟩
  have viewed : (model.ensureExternal key).2.view =
      { (model.ensureType key).2.view with
        type := Function.update (model.ensureType key).2.view.type node.key
          ((model.ensureType key).2.view.type node.key).marked } :=
    view_modifyType becomes.formed keeps held backed rfl
  rw [type, named] at viewed
  refine ⟨fun other => by rw [viewed, assembly], fun other => ?_, by rw [viewed, member]⟩
  by_cases here : key = other
  · subst here
    simp [viewed]
  · simp [viewed, here, Function.update_of_ne (Ne.symm here)]

theorem view_recordDecodeError (key : AssemblyKey) (reason : String) :
    (model.recordDecodeError key reason).view =
      { model.view.ensureAssembly key with
        assembly := Function.update model.view.assembly key
          { model.view.assembly key with decodeError := some reason } } := by
  obtain ⟨becomes, node, held, named⟩ := ensureAssembly_becomes formed key
  have keeps : ∀ node : AssemblyNode, KeepsAssembly node { node with decodeError := some reason } :=
    fun _ => ⟨rfl, rfl, rfl⟩
  have viewed : (model.recordDecodeError key reason).view = _ :=
    view_modifyAssembly becomes.formed keeps held (fun facts => { facts with decodeError := some reason }) rfl
  rw [viewed, becomes.view, named]
  rfl

theorem recordDecodeError_marks (key : AssemblyKey) (reason : String) :
    model.Marks (model.recordDecodeError key reason) none := by
  have viewed := view_recordDecodeError formed key reason
  refine ⟨fun other => ?_, fun other => by simp [viewed, View.ensureAssembly], by rw [viewed]; rfl⟩
  by_cases here : other = key
  · subst here
    simp [viewed]
  · simp [viewed, Function.update_of_ne here]

end Requests

end Model

theorem Request.grant_marks {model : Model} (formed : model.WellFormed) (request : Request) :
    model.Marks (request.grant model) request.external? := by
  cases request with
  | assembly key => exact ((Model.ensureAssembly_becomes formed key).1.keepsFacts rfl (by simp)).marks
  | space key => exact ((Model.ensureSpace_becomes formed key).1.keepsFacts rfl (by simp)).marks
  | type key => exact ((Model.ensureType_becomes formed key).1.keepsFacts rfl (by simp)).marks
  | member key kind => exact (Model.ensureMember_keepsFacts formed key kind).marks
  | node key =>
    cases key with
    | type key => exact ((Model.ensureType_becomes formed key).1.keepsFacts rfl (by simp)).marks
    | member kind key => exact (Model.ensureMember_keepsFacts formed key (.member kind)).marks
  | external key => exact Model.ensureExternal_marks formed key
  | system provided => exact Model.ensureExternal_marks formed provided.key
  | giveUp key reason => exact Model.recordDecodeError_marks formed key reason

/-- A step that fails may have ensured a member, but of what is known of any node nothing has changed. -/
theorem Builder.keepsFacts_of_failed {builder after : Builder} {op : Op} {fault : Fault} (good : builder.Good)
    (failed : op.perform builder = (.error fault, after)) : builder.model.KeepsFacts after.model := by
  rcases perform_failed failed with rfl | ⟨slot, owner, accessor, _, rfl⟩
  · exact .refl after.model
  · exact Model.ensureMember_keepsFacts good.formed owner (.member slot.ownerKind)

/-- How far a node is known after some openings. -/
def Visitation.reached (openings : List Bool) : Visitation :=
  openings.foldl (fun visitation signatureOnly => visitation.opened signatureOnly) .placeholder

theorem Visitation.reached_eq_placeholder_iff {openings : List Bool} :
    reached openings = .placeholder ↔ openings = [] := by
  rw [reached, foldl_opened]
  grind

theorem Visitation.reached_eq_signatureOnly_iff {openings : List Bool} :
    reached openings = .signatureOnly ↔ true ∈ openings ∧ false ∉ openings := by
  have any : openings ≠ [] ↔ true ∈ openings ∨ false ∈ openings := by
    cases openings with
    | nil => simp
    | cons signatureOnly rest => cases signatureOnly <;> simp
  rw [reached, foldl_opened]
  grind

namespace View

variable (view : View) (edits : List Edit)

theorem visitation_type_applyAll (key : TypeKey) :
    ((view.applyAll edits).type key).visitation =
      ((Edit.starts edits).filterMap (Start.ofType? key)).foldl
        (fun visitation signatureOnly => visitation.opened signatureOnly) (view.type key).visitation := by
  rw [type_applyAll, ← Edit.opened_typeChanges]
  exact foldl_field _ TypeFacts.visitation (fun _ change => by cases change <;> rfl) _ _

theorem isExternal_applyAll (key : TypeKey) :
    ((view.applyAll edits).type key).isExternal = true ↔
      (view.type key).isExternal = true ∧ (Edit.starts edits).filterMap (Start.ofType? key) = [] := by
  have field : ((view.applyAll edits).type key).isExternal =
      ((Edit.starts edits).filterMap (Start.ofType? key)).foldl (fun _ _ => false) (view.type key).isExternal := by
    rw [type_applyAll, ← Edit.opened_typeChanges]
    exact foldl_field _ TypeFacts.isExternal (fun _ change => by cases change <;> rfl) _ _
  rw [field]
  generalize (Edit.starts edits).filterMap (Start.ofType? key) = openings
  cases openings with
  | nil => simp
  | cons first rest =>
    have stays : rest.foldl (fun _ _ => false) false = false := by
      induction rest with
      | nil => rfl
      | cons _ _ ih => exact ih
    simp [stays]

theorem visitation_member_applyAll (key : MemberKey) :
    ((view.applyAll edits).member key).visitation =
      ((Edit.starts edits).filterMap (Start.ofMember? key)).foldl
        (fun visitation signatureOnly => visitation.opened signatureOnly) (view.member key).visitation := by
  rw [member_applyAll, ← Edit.opened_memberChanges]
  exact foldl_field _ MemberFacts.visitation (fun _ change => by cases change <;> rfl) _ _

end View

namespace Model

/-- What is known of the nodes by key is what some openings come to, and what was said to be external. -/
structure Follows (model : Model) (starts : List Start) (externals : List TypeKey) : Prop where
  type : ∀ key, (model.view.type key).visitation = .reached (starts.filterMap (Start.ofType? key))
  external : ∀ key, (model.view.type key).isExternal = true ↔
    starts.filterMap (Start.ofType? key) = [] ∧ key ∈ externals
  member : ∀ key, (model.view.member key).visitation = .reached (starts.filterMap (Start.ofMember? key))
  assembly : ∀ key, (model.view.assembly key).isDependency = false ↔ .assembly key false ∈ starts

variable {before after : Model} {starts : List Start} {externals : List TypeKey}

theorem Follows.empty : Follows {} [] [] where
  type _ := rfl
  external key := by
    have blank : ((view {}).type key).isExternal = false := rfl
    simp [blank]
  member _ := rfl
  assembly key := by
    have blank : ((view {}).assembly key).isDependency = true := rfl
    simp [blank]

theorem Follows.marked (follows : before.Follows starts externals) {external : Option TypeKey}
    (marks : before.Marks after external) : after.Follows starts (externals ++ external.toList) where
  type key := by
    rw [marks.type, ← follows.type key]
    split <;> rfl
  external key := by
    have unopened : (before.view.type key).visitation = .placeholder ↔ starts.filterMap (Start.ofType? key) = [] := by
      rw [follows.type key, Visitation.reached_eq_placeholder_iff]
    have before_marking := follows.external key
    rw [marks.type]
    split
    next here =>
      -- the mark only takes while the type is unopened
      rw [here]
      simp only [TypeFacts.marked, Bool.or_eq_true, decide_eq_true_eq, before_marking, unopened, Option.toList_some,
        List.mem_append, List.mem_singleton, or_true, and_true]
      exact or_iff_right_of_imp And.left
    next other => simp [before_marking, other]
  member key := by rw [marks.member, follows.member key]
  assembly key := by rw [marks.isDependency, follows.assembly key]

theorem Follows.opened (follows : before.Follows starts externals) {edits : List Edit}
    (becomes : before.Becomes after edits) : after.Follows (starts ++ Edit.starts edits) externals where
  type key := by
    rw [becomes.view, View.visitation_type_applyAll, follows.type key, List.filterMap_append, Visitation.reached,
      Visitation.reached, List.foldl_append]
  external key := by
    rw [becomes.view, View.isExternal_applyAll, follows.external key, List.filterMap_append, List.append_eq_nil_iff]
    exact and_right_comm
  member key := by
    rw [becomes.view, View.visitation_member_applyAll, follows.member key, List.filterMap_append, Visitation.reached,
      Visitation.reached, List.foldl_append]
  assembly key := by
    rw [becomes.view, View.isDependency_applyAll, follows.assembly key, List.mem_append, Edit.mem_starts_assembly]

end Model

namespace History

def starts (history : History) : List Start := history.taken.filterMap Op.start?

def externals (history : History) : List TypeKey := history.asked.filterMap Request.external?

structure Agrees (history : History) : Prop where
  good : history.builder.Good
  follows : history.builder.model.Follows history.starts history.externals
  /-- Members are of the kinds that they were opened as. -/
  kind : ∀ op ∈ history.taken, ∀ kind key, op.startedMember? = some (kind, key) →
    history.builder.model.view.kinds key = some kind

variable {history : History}

theorem Agrees.kind_later (agrees : history.Agrees) {model : Model} (formed : model.WellFormed)
    (grows : history.builder.model.Grows model) {op : Op} (taken : op ∈ history.taken) {kind : MemberKind}
    {key : MemberKey} (started : op.startedMember? = some (kind, key)) : model.view.kinds key = some kind := by
  have known := agrees.kind op taken kind key started
  rw [agrees.good.formed.view_kinds_eq_some_iff] at known
  obtain ⟨id, node, held, named, kinded⟩ := known
  obtain ⟨later, held', _, same, _, sameKind⟩ := grows.member held
  exact (formed.view_kinds_eq_some_iff key kind).mpr ⟨id, later, held', same.trans named, sameKind.trans kinded⟩

theorem Agrees.request (agrees : history.Agrees) (asked : Request) : (history.next (.request asked)).Agrees := by
  have enlarges := asked.grant_enlarges agrees.good.formed
  refine ⟨agrees.good.grow enlarges.formed enlarges.grows, ?_, ?_⟩
  · have externals : (history.next (.request asked)).externals = history.externals ++ asked.external?.toList := by
      cases named : asked.external? <;> simp [History.externals, next, named]
    rw [externals]
    exact agrees.follows.marked (asked.grant_marks agrees.good.formed)
  · exact fun op taken kind key started => agrees.kind_later enlarges.formed enlarges.grows taken started

theorem Agrees.failed (agrees : history.Agrees) {op : Op} {fault : Fault} {after : Builder}
    (ends : op.perform history.builder = (.error fault, after)) : Agrees { history with builder := after } := by
  have keeps := Builder.perform_keeps agrees.good op
  rw [ends] at keeps
  have follows := agrees.follows.marked (Builder.keepsFacts_of_failed agrees.good ends).marks
  rw [Option.toList_none, List.append_nil] at follows
  exact ⟨keeps.1, follows, fun op taken kind key started => agrees.kind_later keeps.1.formed keeps.2 taken started⟩

theorem Agrees.taken (agrees : history.Agrees) {op : Op} {answer : Reply} {after : Builder}
    (ends : op.perform history.builder = (.ok answer, after)) :
    Agrees { history with builder := after, taken := history.taken ++ [op] } := by
  have performs := Builder.perform_performs agrees.good op
  rw [ends] at performs
  cases tracked : op.track history.builder.stack with
  | error cause =>
    -- a step that breaks the rules of nesting does not succeed
    rw [tracked] at performs
    cases performs
  | ok track =>
    rw [tracked] at performs
    cases performs with
    | done _ _ good left admits becomes =>
      refine ⟨good, ?_, ?_⟩
      · have starts : History.starts { history with builder := after, taken := history.taken ++ [op] } =
            history.starts ++ op.start?.toList := by
          cases started : op.start? <;> simp [History.starts, started]
        rw [starts, ← Op.starts_track tracked]
        exact agrees.follows.opened becomes
      · intro other taken kind key started
        rcases List.mem_append.mp taken with earlier | now
        · exact agrees.kind_later good.formed becomes.grows earlier started
        · obtain rfl := List.mem_singleton.mp now
          show after.model.view.kinds key = some kind
          rw [becomes.view, View.kinds_applyAll admits]
          exact .inr (Op.ensured_of_started tracked started)

theorem Agrees.next (agrees : history.Agrees) (deed : Deed) : (history.next deed).Agrees := by
  cases deed with
  | renew => exact ⟨⟨agrees.good.formed, by simp [History.next]⟩, agrees.follows, agrees.kind⟩
  | request asked => exact agrees.request asked
  | step op =>
    simp only [History.next]
    split
    next answer after ends => exact agrees.taken ends
    next fault after ends => exact agrees.failed ends

theorem agrees_of (deeds : List Deed) : (of deeds).Agrees := by
  induction deeds using List.reverseRecOn with
  | nil => exact ⟨.empty, .empty, by simp [of]⟩
  | append_singleton deeds deed agrees =>
    rw [of, List.foldl_append]
    exact agrees.next deed

/-! ## Openings of one node -/

theorem mem_ofType_starts {key : TypeKey} {signatureOnly : Bool} :
    signatureOnly ∈ history.starts.filterMap (Start.ofType? key) ↔ .startType key signatureOnly ∈ history.taken := by
  simp only [starts, List.filterMap_filterMap, List.mem_filterMap]
  constructor
  · rintro ⟨op, taken, opens⟩
    cases op <;> simp [Op.start?, Start.ofType?] at opens
    obtain ⟨rfl, rfl⟩ := opens
    exact taken
  · exact fun taken => ⟨_, taken, by simp [Op.start?, Start.ofType?]⟩

theorem ofType_starts_eq_nil_iff {key : TypeKey} :
    history.starts.filterMap (Start.ofType? key) = [] ↔ ∀ signatureOnly, .startType key signatureOnly ∉ history.taken := by
  simp only [List.eq_nil_iff_forall_not_mem, mem_ofType_starts]

theorem ofMember_starts_eq_nil_iff {key : MemberKey} :
    history.starts.filterMap (Start.ofMember? key) = [] ↔
      ∀ op ∈ history.taken, ∀ kind, op.startedMember? ≠ some (kind, key) := by
  simp only [starts, List.filterMap_filterMap, List.filterMap_eq_nil_iff]
  refine forall₂_congr fun op taken => ?_
  cases op <;> simp [Op.start?, Start.ofMember?, Op.startedMember?]

theorem Agrees.mem_ofMember_starts (agrees : history.Agrees) {key : MemberKey}
    (isMethod : history.builder.model.view.kinds key = some .method) {signatureOnly : Bool} :
    signatureOnly ∈ history.starts.filterMap (Start.ofMember? key) ↔
      .startMethod key signatureOnly ∈ history.taken := by
  -- the member is a method, so no step can have opened it as anything else
  simp only [starts, List.filterMap_filterMap, List.mem_filterMap]
  constructor
  · rintro ⟨op, taken, opens⟩
    have kind := agrees.kind op taken
    cases op <;> simp [Op.start?, Start.ofMember?] at opens <;> obtain ⟨rfl, rfl⟩ := opens
    case startMethod => exact taken
    -- any other opening would have given the member another kind
    all_goals cases isMethod.symm.trans (kind _ _ rfl)
  · exact fun taken => ⟨_, taken, by simp [Op.start?, Start.ofMember?]⟩

theorem mem_starts_assembly {key : AssemblyKey} {isDependency : Bool} :
    .assembly key isDependency ∈ history.starts ↔ .startAssembly key isDependency ∈ history.taken := by
  simp only [starts, List.mem_filterMap]
  constructor
  · rintro ⟨op, taken, opens⟩
    cases op <;> simp [Op.start?] at opens
    obtain ⟨rfl, rfl⟩ := opens
    exact taken
  · exact fun taken => ⟨_, taken, rfl⟩

section Nodes

variable (agrees : history.Agrees)
include agrees

theorem Agrees.visitation_type {id : TypeId} {node : TypeNode} (held : history.builder.model.type? id = some node) :
    node.visitation = .reached (history.starts.filterMap (Start.ofType? node.key)) := by
  rw [← agrees.follows.type, agrees.good.formed.view_type held]
  rfl

theorem Agrees.visitation_member {id : MemberId} {node : MemberNode}
    (held : history.builder.model.member? id = some node) :
    node.visitation = .reached (history.starts.filterMap (Start.ofMember? node.key)) := by
  rw [← agrees.follows.member, agrees.good.formed.view_member held]
  rfl

theorem Agrees.isExternal_iff {id : TypeId} {node : TypeNode} (held : history.builder.model.type? id = some node) :
    node.isExternal = true ↔
      history.starts.filterMap (Start.ofType? node.key) = [] ∧ node.key ∈ history.externals := by
  have told := agrees.follows.external node.key
  rw [agrees.good.formed.view_type held] at told
  exact told

theorem Agrees.isDependency_iff {id : AssemblyId} {node : AssemblyNode}
    (held : history.builder.model.assembly? id = some node) :
    node.isDependency = false ↔ .assembly node.key false ∈ history.starts := by
  rw [← agrees.follows.assembly node.key]
  simp [Model.view, agrees.good.formed.find_assembly held, Model.assemblyFacts]

end Nodes

/-- How nodes were visited, as the steps that succeeded and the requests tell it. -/
structure Tells (history : History) : Prop where
  placeholder : ∀ {id node}, history.builder.model.type? id = some node →
    (node.isPlaceholder = true ↔ ∀ signatureOnly, .startType node.key signatureOnly ∉ history.taken)
  signatureOnly : ∀ {id node}, history.builder.model.type? id = some node →
    (node.visitation = .signatureOnly ↔
      .startType node.key true ∈ history.taken ∧ .startType node.key false ∉ history.taken)
  external : ∀ {id node}, history.builder.model.type? id = some node →
    (node.isExternal = true ↔
      (∀ signatureOnly, .startType node.key signatureOnly ∉ history.taken) ∧ node.key ∈ history.externals)
  member : ∀ {id node}, history.builder.model.member? id = some node →
    (node.isPlaceholder = true ↔ ∀ op ∈ history.taken, ∀ kind, op.startedMember? ≠ some (kind, node.key))
  method : ∀ {id node}, history.builder.model.member? id = some node → node.isMethod = true →
    (node.visitation = .signatureOnly ↔
      .startMethod node.key true ∈ history.taken ∧ .startMethod node.key false ∉ history.taken)
  assembly : ∀ {id node}, history.builder.model.assembly? id = some node →
    (node.isDependency = true ↔ .startAssembly node.key false ∉ history.taken)

theorem visitation_told_by_history (deeds : List Deed) : (History.of deeds).Tells := by
  have agrees := agrees_of deeds
  constructor
  case placeholder =>
    intro id node held
    rw [TypeNode.isPlaceholder, decide_eq_true_iff, agrees.visitation_type held,
      Visitation.reached_eq_placeholder_iff, ofType_starts_eq_nil_iff]
  case signatureOnly =>
    intro id node held
    rw [agrees.visitation_type held, Visitation.reached_eq_signatureOnly_iff, mem_ofType_starts, mem_ofType_starts]
  case external =>
    intro id node held
    rw [agrees.isExternal_iff held, ofType_starts_eq_nil_iff]
  case member =>
    intro id node held
    rw [MemberNode.isPlaceholder, decide_eq_true_iff, agrees.visitation_member held,
      Visitation.reached_eq_placeholder_iff, ofMember_starts_eq_nil_iff]
  case method =>
    intro id node held isMethod
    -- a member of that kind can only have been opened as a method
    have kind : (History.of deeds).builder.model.view.kinds node.key = some .method :=
      (agrees.good.formed.view_kinds_eq_some_iff _ _).mpr ⟨id, node, held, rfl, of_decide_eq_true isMethod⟩
    rw [agrees.visitation_member held, Visitation.reached_eq_signatureOnly_iff, agrees.mem_ofMember_starts kind,
      agrees.mem_ofMember_starts kind]
  case assembly =>
    intro id node held
    rw [← mem_starts_assembly, ← agrees.isDependency_iff held, Bool.not_eq_false]

/-- The first attempt to open the pen fails, so that it is known for its signature only. -/
example :
    let plane : NamespaceKey := ⟨⟨"shapes"⟩, "plane"⟩
    let pen : TypeKey := { space := plane, name := "Pen" }
    let history := History.of [.request (.external pen), .step (.startType pen false), .step (.startSpace plane),
      .step (.startType pen true), .request (.external pen)]
    history.taken = [.startSpace plane, .startType pen true] ∧
      (history.builder.model.type? ⟨0⟩).map (fun node => (node.visitation, node.isExternal)) =
        some (.signatureOnly, false) := by
  decide

end History

/-- Every builder that comes up has a history, since a visit is a run of steps. -/
theorem Builder.Reachable.exists_history {builder : Builder} (reached : builder.Reachable) :
    ∃ deeds, (History.of deeds).builder = builder := by
  have goes_on : ∀ deeds deed, History.of (deeds ++ [deed]) = (History.of deeds).next deed := by
    intro deeds deed
    rw [History.of, List.foldl_append]
    rfl
  refine @always (fun builder => ∃ deeds, (History.of deeds).builder = builder) ?_ ?_ ?_ ?_ builder reached
  · exact ⟨[], rfl⟩
  · rintro _ ⟨deeds, rfl⟩
    exact ⟨deeds ++ [.renew], by rw [goes_on]; rfl⟩
  · rintro _ _ ⟨deeds, rfl⟩ asked
    exact ⟨deeds ++ [.request asked], by rw [goes_on]; rfl⟩
  · rintro _ _ ⟨deeds, rfl⟩ op
    refine ⟨deeds ++ [.step op], ?_⟩
    rw [goes_on]
    simp only [History.next]
    split
    next ends => rw [ends]
    next ends => rw [ends]

end UsageGraph
