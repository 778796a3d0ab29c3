import UsageGraph.Proofs.Traversal.Edits
import UsageGraph.Proofs.Traversal.Outline

/-! The outlines of the parts of a type.

A part that fits comes to its edits and leaves the walk as it was; a part that does not
fit has no outline. Generic references are finite, so following one never comes back to a
reference in progress, and only their nesting can be too deep.
-/

set_option autoImplicit false
namespace UsageGraph

variable {α β : Type}

namespace Visit

/-- A visit comes to some edits exactly where it fits, and leaves the walk as it is. -/
structure Traces (visit : Visit α) (walk : Walk) (stack left : Stack) (fits : Prop) (answer : α)
    (edits : List Edit) : Prop where
  comes : fits → visit.outline walk stack = some ⟨answer, walk, edits, left⟩
  stops : ¬ fits → visit.outline walk stack = none

namespace Traces

variable {walk : Walk} {stack middle left : Stack} {fits fits' : Prop} {edits edits' : List Edit} {answer : α}
    {answer' : β}

theorem bind {visit : Visit α} {next : α → Visit β} (first : visit.Traces walk stack middle fits answer edits)
    (second : (next answer).Traces walk middle left fits' answer' edits') :
    (visit >>= next).Traces walk stack left (fits ∧ fits') answer' (edits ++ edits') where
  comes both := by
    rw [outline_bind, first.comes both.1]
    simp [second.comes both.2, Course.after]
  stops neither := by
    rw [outline_bind]
    by_cases begun : fits
    · rw [first.comes begun]
      simp [second.stops fun rest => neither ⟨begun, rest⟩]
    · rw [first.stops begun]
      rfl

theorem pure (answer : α) (walk : Walk) (stack : Stack) :
    (pure answer : Visit α).Traces walk stack stack True answer [] :=
  ⟨fun _ => rfl, fun never => absurd trivial never⟩

theorem congr {visit : Visit α} (traces : visit.Traces walk stack left fits answer edits) (same : fits ↔ fits') :
    visit.Traces walk stack left fits' answer edits :=
  ⟨fun holds => traces.comes (same.mpr holds), fun fails => traces.stops fun holds => fails (same.mp holds)⟩

theorem congr_edits {visit : Visit α} (traces : visit.Traces walk stack left fits answer edits) (same : fits ↔ fits')
    (equal : edits = edits') : visit.Traces walk stack left fits' answer edits' :=
  equal ▸ traces.congr same

theorem forM {items : List α} {visit : α → Visit Unit} (fits : α → Prop) {edits : α → List Edit}
    (each : ∀ item ∈ items, (visit item).Traces walk stack stack (fits item) () (edits item)) :
    (items.forM visit).Traces walk stack stack (∀ item ∈ items, fits item) () (items.flatMap edits) := by
  induction items with
  | nil => exact (pure () walk stack).congr (by simp)
  | cons item rest ih =>
    have first := each item (by simp)
    have second := ih fun item member => each item (by simp [member])
    show (visit item >>= fun _ => rest.forM visit).Traces walk stack stack _ () _
    exact (first.bind second).congr (by simp)

end Traces

section Steps

variable (walk : Walk) {stack left : Stack} {edits : List Edit}

theorem step_traces {op : Op} (tracked : op.track stack = .ok (edits, left)) :
    (step op).Traces walk stack left True () edits where
  comes _ := by
    unfold step
    rw [outline_emit]
    simp [Action.ops, Op.trackAll, tracked]
  stops never := absurd trivial never

theorem step_traces_if {op : Op} {fits : Prop} (allowed : fits → op.track stack = .ok (edits, left))
    (refused : ¬ fits → ∃ cause, op.track stack = .error cause) : (step op).Traces walk stack left fits () edits where
  comes holds := (step_traces walk (allowed holds)).comes trivial
  stops fails := by
    obtain ⟨cause, failed⟩ := refused fails
    unfold step
    rw [outline_emit]
    simp [Action.ops, Op.trackAll, failed]

end Steps

end Visit

namespace Visit

theorem outline_enterReference (reference : TypeRef) (walk : Walk) (stack : Stack) :
    (enterReference reference).outline walk stack =
      match walk.references.enter reference with
      | .ok (begun, references) => some ⟨begun, { walk with references }, [], stack⟩
      | .error _ => none := by
  unfold enterReference
  rw [outline_bind]
  show (((ofExcept (walk.references.enter reference) >>= _) : Visit Bool).outline walk stack).map _ = _
  rw [outline_bind]
  cases walk.references.enter reference with
  | error fault => rfl
  | ok entered => rfl

theorem outline_leavingReference (visit : Visit α) (walk : Walk) (stack : Stack) :
    (leavingReference visit).outline walk stack = (visit.outline walk stack).map fun course =>
      { course with walk := { course.walk with references := course.walk.references.leave } } := by
  unfold outline leavingReference
  rw [Script.answer_bind, Script.ops_bind]
  cases Script.answer (visit walk : Script (Except Fault α × Walk)) with
  | mk result left =>
    cases result with
    | error fault => rfl
    | ok answer =>
      rw [Option.map_map, Op.trackAll_append]
      cases Op.trackAll (Script.ops (visit walk : Script (Except Fault α × Walk))) stack with
      | none => rfl
      | some done =>
        show some _ = some _
        simp

def follow (walk : Walk) (reference : TypeRef) : Walk :=
  { walk with references := walk.references.hold reference }

theorem leave_follow {walk : Walk} {reference : TypeRef} (fresh : reference ∉ walk.references.stack) :
    { follow walk reference with references := (follow walk reference).references.leave } = walk := by
  have left : (follow walk reference).references.leave = walk.references := Guard.leave_hold fresh
  rw [left]
  rfl

theorem following_traces {walk : Walk} {stack : Stack} {reference : TypeRef} {visit : Visit Unit} {fits : Prop}
    {edits : List Edit} (fresh : reference ∉ walk.references.stack)
    (inner : walk.references.depth < walk.references.limit →
      visit.Traces (follow walk reference) stack stack fits () edits) :
    (do if ← enterReference reference then leavingReference visit).Traces walk stack stack
      (walk.references.depth < walk.references.limit ∧ fits) () edits := by
  -- the guard is not full just where the reference fits
  have entered (room : walk.references.depth < walk.references.limit) :
      walk.references.enter reference = .ok (true, (follow walk reference).references) := by
    rw [Guard.enter_of_fresh fresh, if_pos room]
    rfl
  constructor
  · rintro ⟨room, holds⟩
    rw [outline_bind, outline_enterReference, entered room]
    simp only [Option.bind_some, if_true]
    rw [outline_leavingReference]
    show (((visit.outline (follow walk reference) stack).map _).map _) = _
    rw [(inner room).comes holds]
    exact congrArg (fun walk => some (⟨(), walk, edits, stack⟩ : Course Unit)) (leave_follow fresh)
  · intro fails
    rw [outline_bind, outline_enterReference]
    by_cases room : walk.references.depth < walk.references.limit
    · rw [entered room]
      simp only [Option.bind_some, if_true]
      rw [outline_leavingReference]
      show (((visit.outline (follow walk reference) stack).map _).map _) = _
      rw [(inner room).stops fun holds => fails ⟨room, holds⟩]
      rfl
    · rw [Guard.enter_of_fresh fresh, if_neg room]
      rfl

end Visit

def Stack.HeldBy (stack : Stack) (holder : NodeKey) : Prop := stack.head?.bind Opening.holder? = some holder

theorem Stack.HeldBy.holder {stack : Stack} {key : NodeKey} (held : stack.HeldBy key) (filling : Filling) :
    stack.holder filling = .ok key := by
  unfold HeldBy at held
  simp [Stack.holder, held]

theorem Edit.usesOfRef_node (holder : NodeKey) (key : TypeKey) (arguments : List TypeRef) :
    usesOfRef holder (.node key arguments) = usesOf holder [key] ++ usesOfRefs holder arguments := by
  unfold usesOfRef usesOfRefs usesOf
  rw [Tree.preorder_node, List.flatMap_cons, List.flatMap_assoc]
  rfl

namespace Visit

section Held

variable (walk : Walk) {stack : Stack} {holder : NodeKey} (held : stack.HeldBy holder)
include held

theorem useType_traces (key : TypeKey) :
    (step (.useType key)).Traces walk stack stack True () (Edit.usesOf holder [key]) :=
  step_traces walk (by simp [Op.track, held.holder, Edit.usesOf, Except.map])

/-- Whether a reference can be followed from where a walk is. -/
def Room (walk : Walk) (reference : TypeRef) : Prop :=
  walk.references.depth + reference.nesting ≤ walk.references.limit

theorem attributes_traces (options : Options) (keys : List TypeKey) :
    (attributes options keys).Traces walk stack stack True () (options.attributeEdits holder keys) := by
  unfold attributes Options.attributeEdits
  by_cases primary : options.primary
  · simp only [primary, if_true]
    refine (Traces.forM (fun _ => True) fun key _ => ?_).congr (by simp)
    have added : (step (.addAttribute key)).Traces walk stack stack True () [.ensureType key, .attributed holder key] :=
      step_traces walk (by simp [Op.track, held.holder, Except.map])
    exact (added.bind (useType_traces walk held key)).congr (by simp)
  · simp only [primary]
    exact Traces.pure () walk stack

end Held

theorem depth_follow {walk : Walk} {reference : TypeRef} (fresh : reference ∉ walk.references.stack) :
    (follow walk reference).references.depth = walk.references.depth + 1 := Guard.depth_hold fresh

theorem room_node_iff {walk : Walk} {key : TypeKey} {arguments : List TypeRef} (applied : arguments.isEmpty = false)
    (fresh : Tree.node key arguments ∉ walk.references.stack) :
    Room walk (.node key arguments) ↔ walk.references.depth < walk.references.limit ∧
      ∀ argument ∈ arguments, Room (follow walk (.node key arguments)) argument := by
  have deeper : ∀ argument, Room (follow walk (.node key arguments)) argument ↔
      walk.references.depth + 1 + argument.nesting ≤ walk.references.limit := by
    intro argument
    rw [Room, depth_follow fresh]
    rfl
  simp only [deeper]
  unfold Room
  rw [Tree.nesting, applied]
  constructor
  · intro room
    simp only [Bool.false_eq_true, if_false] at room
    have bound := (Tree.forestNesting_le_iff arguments _).mp (Nat.le_refl _)
    refine ⟨by omega, fun argument member => ?_⟩
    have := bound argument member
    omega
  · rintro ⟨room, rooms⟩
    have bound : Tree.forestNesting arguments ≤ walk.references.limit - walk.references.depth - 1 := by
      refine (Tree.forestNesting_le_iff arguments _).mpr fun argument member => ?_
      have := rooms argument member
      omega
    simp only [Bool.false_eq_true, if_false]
    omega

theorem larger_of_follow {walk : Walk} {key : TypeKey} {arguments : List TypeRef}
    (larger : ∀ outer ∈ walk.references.stack, sizeOf (Tree.node key arguments) < sizeOf outer) :
    ∀ outer ∈ (follow walk (.node key arguments)).references.stack, ∀ argument ∈ arguments,
      sizeOf argument < sizeOf outer := by
  -- arguments are smaller than the reference that is followed to them, and so than all references in progress
  intro outer active argument member
  have smaller : sizeOf argument < sizeOf (Tree.node key arguments) := by
    have := List.sizeOf_lt_of_mem member
    simp only [Tree.node.sizeOf_spec]
    omega
  rcases Guard.mem_hold.mp active with rfl | active
  · exact smaller
  · exact Nat.lt_trans smaller (larger outer active)

mutual

/-- The references in progress are larger than what is left to follow, so none is met again. -/
theorem useRef_traces {stack : Stack} {holder : NodeKey} (held : stack.HeldBy holder) :
    (reference : TypeRef) → (walk : Walk) → walk.references.depth ≤ walk.references.limit →
    (∀ outer ∈ walk.references.stack, sizeOf reference < sizeOf outer) →
    (useRef reference).Traces walk stack stack (Room walk reference) () (Edit.usesOfRef holder reference)
  | .node key arguments, walk, bounded, larger => by
    unfold useRef
    rw [Edit.usesOfRef_node]
    cases applied : arguments.isEmpty with
    | true =>
      have none : arguments = [] := List.isEmpty_iff.mp applied
      subst none
      refine ((useType_traces walk held key).bind (Traces.pure () walk stack)).congr ?_
      simp [Room, Tree.nesting, bounded]
    | false =>
      have fresh : Tree.node key arguments ∉ walk.references.stack := fun active => Nat.lt_irrefl _ (larger _ active)
      have inner := fun room : walk.references.depth < walk.references.limit =>
        useRefs_traces held arguments (follow walk (.node key arguments)) ((depth_follow fresh).trans_le room)
          (larger_of_follow larger)
      refine ((useType_traces walk held key).bind (following_traces fresh inner)).congr ?_
      rw [room_node_iff applied fresh, true_and]

theorem useRefs_traces {stack : Stack} {holder : NodeKey} (held : stack.HeldBy holder) :
    (references : List TypeRef) → (walk : Walk) → walk.references.depth ≤ walk.references.limit →
    (∀ outer ∈ walk.references.stack, ∀ reference ∈ references, sizeOf reference < sizeOf outer) →
    (useRefs references).Traces walk stack stack (∀ reference ∈ references, Room walk reference) ()
      (Edit.usesOfRefs holder references)
  | [], walk, _, _ => (Traces.pure () walk stack).congr (by simp)
  | reference :: rest, walk, bounded, larger => by
    have first := useRef_traces held reference walk bounded fun outer member => larger outer member reference (by simp)
    have second := useRefs_traces held rest walk bounded
      fun outer member other named => larger outer member other (by simp [named])
    unfold useRefs
    exact (first.bind second).congr (by simp)

end

end Visit

/-- A walk that follows no reference, under the limit of the options. -/
structure Walk.Ready (options : Options) (walk : Walk) : Prop where
  idle : walk.references.stack = []
  limit : walk.references.limit = options.maxDepth

namespace Walk.Ready

open Visit

variable {options : Options} {walk : Walk} (ready : walk.Ready options)
include ready

theorem room_iff (reference : TypeRef) : Room walk reference ↔ reference.nesting ≤ options.maxDepth := by
  simp [Room, Progress.depth, ready.idle, ready.limit]

theorem useRef_traces {stack : Stack} {holder : NodeKey} (held : stack.HeldBy holder) (reference : TypeRef) :
    (useRef reference).Traces walk stack stack (reference.nesting ≤ options.maxDepth) ()
      (Edit.usesOfRef holder reference) := by
  refine (Visit.useRef_traces held reference walk ?_ ?_).congr (ready.room_iff reference)
  · simp [Progress.depth, ready.idle]
  · simp [ready.idle]

theorem useRefs_traces {stack : Stack} {holder : NodeKey} (held : stack.HeldBy holder) (references : List TypeRef) :
    (useRefs references).Traces walk stack stack (∀ reference ∈ references, reference.nesting ≤ options.maxDepth) ()
      (Edit.usesOfRefs holder references) := by
  refine (Visit.useRefs_traces held references walk ?_ ?_).congr (by simp only [ready.room_iff])
  · simp [Progress.depth, ready.idle]
  · simp [ready.idle]

end Walk.Ready

/-! ## Members -/

namespace Visit

variable {options : Options} {walk : Walk} {stack : Stack}

theorem trackAll_useNode {holder : NodeKey} (held : stack.HeldBy holder) (body : Body) :
    Op.trackAll (body.map .useNode) stack =
      some (body.flatMap fun target => [.ensureNode target, .use holder target], stack) := by
  induction body with
  | nil => rfl
  | cons target rest ih => simp [Op.trackAll, Op.track, held.holder, Except.map, ih]

theorem body_traces (method : MethodDecl) (held : stack.HeldBy (.member .method method.key)) :
    (body options method).Traces walk stack stack True () (method.bodyEdits options) := by
  unfold body MethodDecl.bodyEdits
  cases options.scansBodies with
  | false => exact Traces.pure () walk stack
  | true =>
    refine (Traces.forM (fun _ => True) fun body _ => ?_).congr (by simp)
    refine ⟨fun _ => ?_, fun never => absurd trivial never⟩
    rw [outline_emit]
    simp only [Action.ops, trackAll_useNode held]
    rfl

def Hosts (stack : Stack) (kind : MemberKind) (owner : TypeKey) : Prop :=
  ∀ key, Scopes.memberPlace kind key stack.scopes = .ok owner

theorem startMember_traces (op : Op) {kind : MemberKind} {owner : TypeKey} (hosts : Hosts stack kind owner)
    {key : MemberKey}
    {signatureOnly : Bool} (tracked : op.track stack = Op.trackMember kind key signatureOnly stack) :
    (step op).Traces walk stack (.member kind key :: stack) (key.owner = owner) ()
      [.ensureMember kind key, .onMember key (.opened signatureOnly)] := by
  refine step_traces_if walk ?_ ?_
  · intro owned
    rw [tracked]
    simp [Op.trackMember, Scopes.admitMember, hosts key, owned, Except.map]
  · intro foreign
    rw [tracked]
    simp [Op.trackMember, Scopes.admitMember, hosts key, Ne.symm foreign, Except.map]

theorem close_traces (opening : Opening) :
    (step (.close opening.kind)).Traces walk (opening :: stack) stack True () [] := by
  refine step_traces walk ?_
  cases opening <;> simp [Op.track, Scopes.close, Stack.scopes, Opening.scope, Opening.kind, Scope.kind, Except.map]

theorem method_traces (ready : walk.Ready options) {owner : TypeKey} (hosts : Hosts stack .method owner)
    (declared : MethodDecl) :
    (method options declared).Traces walk stack stack (declared.Fits options owner) (options.visitsMethod declared.key)
      (declared.edits options) := by
  unfold method MethodDecl.edits MethodDecl.Fits
  cases options.visitsMethod declared.key with
  | false => exact (Traces.pure false walk stack).congr (by simp)
  | true =>
    have held : Stack.HeldBy (.member .method declared.key :: stack) (.member .method declared.key) := rfl
    have opened : Stack.openMember? .method (.member .method declared.key :: stack) = some declared.key := by
      simp [Stack.openMember?]
    have started : (step (.startMethod declared.key (!options.scansBodies))).Traces walk _ _ _ _ _ :=
      startMember_traces _ hosts rfl
    have shaped : (step (.setPrototype (declared.returns.map Tree.label) (declared.parameters.map Tree.label))).Traces
        walk (.member .method declared.key :: stack) _ _ _ _ :=
      step_traces walk (by simp only [Op.track, Stack.memberToFill, opened]; rfl)
    have flagged : (step (.setMethodFlags declared.flags)).Traces walk
      (.member .method declared.key :: stack) _ _ _ _ :=
      step_traces walk (by simp only [Op.track, Stack.memberToFill, opened]; rfl)
    have closed : (step (.close (.member .method))).Traces walk (.member .method declared.key :: stack) stack _ _ _ :=
      close_traces (.member .method declared.key)
    -- each step is taken in the scope of the method, from opening it to closing it
    refine (started.bind (shaped.bind
      (flagged.bind ((ready.useRefs_traces held _).bind ((ready.useRefs_traces held _).bind
      ((attributes_traces walk held options _).bind ((body_traces declared held).bind
      (closed.bind (Traces.pure true walk stack))))))))).congr_edits ?_ ?_
    · simp
    · simp [MethodDecl.ownEdits]

theorem accessor_traces (ready : walk.Ready options) {owner : TypeKey} (hosts : Hosts stack .method owner)
    (member : MemberKey)
    (slot : Slot) (declared : MethodDecl) :
    (accessor options member slot declared).Traces walk stack stack (declared.Fits options owner) ()
      (declared.accessorEdits options member slot) := by
  have visited := method_traces ready hosts declared
  unfold accessor MethodDecl.accessorEdits
  unfold MethodDecl.edits at visited
  cases allowed : options.visitsMethod declared.key with
  | false =>
    rw [allowed] at visited
    exact (visited.bind (Traces.pure () walk stack)).congr_edits (by simp) (by simp)
  | true =>
    rw [allowed] at visited
    have linked : (step (.setAccessor slot member declared.key)).Traces walk stack stack _ _ _ := step_traces walk rfl
    exact (visited.bind linked).congr_edits (by simp) (by simp)

theorem hosts_type (kind : MemberKind) (owner : TypeKey) (stack : Stack) : Hosts (.type owner :: stack) kind owner :=
  fun _ => rfl

/-- The part that fields, properties and events have in common, followed by the rest. -/
theorem data_traces (ready : walk.Ready options) {kind : MemberKind} {owner : TypeKey} {outer left : Stack}
    {start fill : Op}
    {key : MemberKey} {type : TypeRef} {keys : List TypeKey} {rest : Visit Unit} {fits : Prop} {edits : List Edit}
    (starts : ∀ stack, start.track stack = Op.trackMember kind key false stack)
    (fills : ∀ stack, fill.track stack = Op.trackDeclaredType kind type.label stack)
    (inner : rest.Traces walk (.member kind key :: .type owner :: outer) left fits () edits) :
    (do step start; step fill; useRef type; attributes options keys; rest).Traces walk (.type owner :: outer) left
      (DataFits options owner key type ∧ fits) () (dataEdits options kind key type keys ++ edits) := by
  have held : Stack.HeldBy (.member kind key :: .type owner :: outer) (.member kind key) := rfl
  have opened : Stack.openMember? kind (.member kind key :: .type owner :: outer) =
    some key := by simp [Stack.openMember?]
  have started : (step start).Traces walk (.type owner :: outer) _ _ _ _ :=
    startMember_traces start (hosts_type kind owner outer) (starts _)
  have filled : (step fill).Traces walk (.member kind key :: .type owner :: outer) _ _ _ _ :=
    step_traces walk (by rw [fills]; simp only [Op.trackDeclaredType, Stack.memberToFill, opened]; rfl)
  refine (started.bind (filled.bind ((ready.useRef_traces held type).bind
    ((attributes_traces walk held options keys).bind inner)))).congr_edits ?_ ?_
  · simp [DataFits, and_assoc]
  · simp [dataEdits]

theorem field_traces (ready : walk.Ready options) (owner : TypeKey) (outer : Stack) (declared : FieldDecl) :
    (field options declared).Traces walk (.type owner :: outer) (.type owner :: outer) (declared.Fits options owner) ()
      (declared.edits options) := by
  have closed : (step (.close (.member .field))).Traces walk
    (.member .field declared.key :: .type owner :: outer) _ _ _ _ :=
    close_traces (.member .field declared.key)
  refine (data_traces ready (fun _ => rfl) (fun _ => rfl) closed).congr_edits ?_ ?_
  · simp [FieldDecl.Fits]
  · simp [FieldDecl.edits]

theorem accessors_traces (ready : walk.Ready options) {kind : MemberKind} {owner : TypeKey} {outer : Stack}
    {key : MemberKey}
    (hosts : Hosts (.member kind key :: .type owner :: outer) .method owner) (first second : Slot)
    (one two : Option MethodDecl) :
    (do one.toList.forM (accessor options key first); two.toList.forM (accessor options key second);
        step (.close (.member kind))).Traces walk
      (.member kind key :: .type owner :: outer) (.type owner :: outer)
      ((∀ method ∈ one.toList, method.Fits options owner) ∧ ∀ method ∈ two.toList, method.Fits options owner) ()
      (one.toList.flatMap (MethodDecl.accessorEdits options key first) ++
        two.toList.flatMap (MethodDecl.accessorEdits options key second)) := by
  have closed : (step (.close (.member kind))).Traces walk (.member kind key :: .type owner :: outer) _ _ _ _ :=
    close_traces (.member kind key)
  refine ((Traces.forM (fun method => method.Fits options owner) fun method _ =>
    accessor_traces ready hosts key first method).bind
      ((Traces.forM (fun method => method.Fits options owner) fun method _ =>
    accessor_traces ready hosts key second method).bind closed)).congr_edits ?_ ?_
  · simp
  · simp

theorem property_traces (ready : walk.Ready options) (owner : TypeKey) (outer : Stack) (declared : PropertyDecl) :
    (property options declared).Traces walk (.type owner :: outer) (.type owner :: outer)
    (declared.Fits options owner) ()
      (declared.edits options) := by
  have hosts : Hosts (.member .property declared.key :: .type owner :: outer) .method owner := fun _ => rfl
  exact data_traces ready (fun _ => rfl) (fun _ => rfl)
    (accessors_traces ready hosts .getter .setter declared.getter declared.setter)

theorem event_traces (ready : walk.Ready options) (owner : TypeKey) (outer : Stack) (declared : EventDecl) :
    (event options declared).Traces walk (.type owner :: outer) (.type owner :: outer) (declared.Fits options owner) ()
      (declared.edits options) := by
  have hosts : Hosts (.member .event declared.key :: .type owner :: outer) .method owner := fun _ => rfl
  exact data_traces ready (fun _ => rfl) (fun _ => rfl)
    (accessors_traces ready hosts .adder .remover declared.adder declared.remover)

theorem dataMembers_traces (ready : walk.Ready options) (definition : Definition) (outer : Stack)
    (assembly : AssemblyKey) :
    (dataMembers options definition).Traces walk (.type definition.key :: outer) (.type definition.key :: outer)
      (definition.PhaseFits assembly options .dataMembers) () (definition.phaseEdits options .dataMembers) := by
  unfold dataMembers Definition.PhaseFits Definition.phaseEdits
  cases options.primary with
  | false => exact (Traces.pure () walk _).congr (by simp)
  | true =>
    have properties := Traces.forM (fun declared => declared.Fits options definition.key) fun declared
      (_ : declared ∈ definition.properties) => property_traces ready definition.key outer declared
    have fields := Traces.forM (fun declared => declared.Fits options definition.key) fun declared
      (_ : declared ∈ definition.fields) => field_traces ready definition.key outer declared
    have events := Traces.forM (fun declared => declared.Fits options definition.key) fun declared
      (_ : declared ∈ definition.events) => event_traces ready definition.key outer declared
    exact (properties.bind (fields.bind events)).congr (by simp)

theorem methods_traces (ready : walk.Ready options) (definition : Definition) (outer : Stack) (assembly : AssemblyKey) :
    (methods options definition).Traces walk (.type definition.key :: outer) (.type definition.key :: outer)
      (definition.PhaseFits assembly options .methods) () (definition.phaseEdits options .methods) := by
  have visited : ∀ declared : MethodDecl, (discard (method options declared)).Traces walk
    (.type definition.key :: outer)
      (.type definition.key :: outer) (declared.Fits options definition.key) () (declared.edits options) := by
    intro declared
    exact ((method_traces ready (hosts_type .method definition.key outer) declared).bind
      (Traces.pure () walk _)).congr_edits (by simp) (by simp)
  have constructors := Traces.forM (fun declared => declared.asConstructor.Fits options definition.key) fun declared
    (_ : declared ∈ definition.constructors) => visited declared.asConstructor
  have methods := Traces.forM (fun declared => declared.Fits options definition.key) fun declared
    (_ : declared ∈ definition.methods) => visited declared
  exact constructors.bind methods

theorem interfaces_traces (ready : walk.Ready options) (definition : Definition) (outer : Stack)
    (assembly : AssemblyKey) :
    (interfaces definition).Traces walk (.type definition.key :: outer) (.type definition.key :: outer)
      (definition.PhaseFits assembly options .interfaces) () (definition.phaseEdits options .interfaces) := by
  have held : Stack.HeldBy (.type definition.key :: outer) (.type definition.key) := rfl
  refine Traces.forM (fun reference : TypeRef => reference.nesting ≤ options.maxDepth) fun reference _ => ?_
  have added : (step (.addInterface reference.label)).Traces walk (.type definition.key :: outer) _ _ _ _ :=
    step_traces walk rfl
  exact (added.bind (ready.useRef_traces held reference)).congr (by simp)

theorem base_traces (ready : walk.Ready options) (definition : Definition) (outer : Stack) (assembly : AssemblyKey) :
    (base definition).Traces walk (.type definition.key :: outer) (.type definition.key :: outer)
      (definition.PhaseFits assembly options .base) () (definition.phaseEdits options .base) := by
  have held : Stack.HeldBy (.type definition.key :: outer) (.type definition.key) := rfl
  refine Traces.forM (fun reference : TypeRef => reference.nesting ≤ options.maxDepth) fun reference _ => ?_
  have set : (step (.setBaseType reference.label)).Traces walk (.type definition.key :: outer) _ _ _ _ :=
    step_traces walk rfl
  exact (set.bind (ready.useRef_traces held reference)).congr (by simp)

theorem generics_traces (ready : walk.Ready options) (definition : Definition) (outer : Stack)
    (assembly : AssemblyKey) :
    (generics definition).Traces walk (.type definition.key :: outer) (.type definition.key :: outer)
      (definition.PhaseFits assembly options .generics) () (definition.phaseEdits options .generics) := by
  have held : Stack.HeldBy (.type definition.key :: outer) (.type definition.key) := rfl
  refine Traces.forM (fun parameter : GenericParameter =>
    ∀ reference ∈ parameter.constraints, reference.nesting ≤ options.maxDepth) fun parameter _ => ?_
  exact ((useType_traces walk held parameter.key).bind (ready.useRefs_traces held parameter.constraints)).congr
    (by simp)

end Visit

/-! ## Phases -/

def Phase.fills : Phase → Bool
  | .interfaces | .generics | .attributes | .base | .dataMembers | .methods => true
  | .claim | .supertypes | .openType | .nested | .closeType | .complete => false

theorem Phase.apart_of_fills {part : Phase} (fills : part.fills = true) : part ≠ .supertypes ∧ part ≠ .nested := by
  constructor
  · rintro rfl
    cases fills
  · rintro rfl
    cases fills

/-- Scopes in which the types of an assembly can be opened. -/
structure Stack.Houses (stack : Stack) (assembly : AssemblyKey) : Prop where
  innermost : Scopes.innermostKind? stack.scopes = some .assembly ∨ Scopes.innermostKind? stack.scopes = some .type
  within : Scopes.openAssembly? stack.scopes = some assembly

theorem Stack.houses_assembly (assembly : AssemblyKey) : Stack.Houses [.assembly assembly] assembly := ⟨.inl rfl, rfl⟩

theorem Stack.Houses.inside {stack : Stack} {assembly : AssemblyKey} (houses : stack.Houses assembly) (key : TypeKey) :
    Stack.Houses (.type key :: .space key.space :: stack) assembly :=
  ⟨.inr rfl, houses.within⟩

theorem Stack.Houses.admitSpace {stack : Stack} {assembly : AssemblyKey} (houses : stack.Houses assembly)
    (key : NamespaceKey) :
    Scopes.admitSpace key stack.scopes =
      if assembly = key.assembly then .ok () else .error (.foreign (.space key) (.assembly assembly)) := by
  unfold Scopes.admitSpace
  rw [houses.within]
  rcases houses.innermost with kind | kind
  · rw [kind]
  · rw [kind]

namespace Visit

variable {options : Options} {walk : Walk} (module : ModuleDecl) (visit : TypeDecl → Visit Unit) (type : TypeDecl)

theorem fill_traces (ready : walk.Ready options) (outer : Stack) {part : Phase} (fills : part.fills = true) :
    (phase module options visit type part).Traces walk (.type type.label.key :: outer) (.type type.label.key :: outer)
      (type.label.PhaseFits module.key options part) true (type.label.phaseEdits options part) := by
  have andGoOn : ∀ {visit : Visit Unit} {fits : Prop} {edits : List Edit},
      visit.Traces walk (.type type.label.key :: outer) (.type type.label.key :: outer) fits () edits →
      (do visit; return true).Traces walk (.type type.label.key :: outer)
        (.type type.label.key :: outer) fits true edits :=
    fun traces => (traces.bind (Traces.pure true walk _)).congr_edits (by simp) (by simp)
  cases part with
  | interfaces => exact andGoOn (interfaces_traces ready type.label outer module.key)
  | generics => exact andGoOn (generics_traces ready type.label outer module.key)
  | attributes =>
    have held : Stack.HeldBy (.type type.label.key :: outer) (.type type.label.key) := rfl
    exact andGoOn (attributes_traces walk held options type.label.attributes)
  | base => exact andGoOn (base_traces ready type.label outer module.key)
  | dataMembers => exact andGoOn (dataMembers_traces ready type.label outer module.key)
  | methods => exact andGoOn (methods_traces ready type.label outer module.key)
  | claim | supertypes | openType | nested | closeType | complete => cases fills

theorem openType_traces {stack : Stack} (houses : stack.Houses module.key) :
    (phase module options visit type .openType).Traces walk stack
      (.type type.label.key :: .space type.label.key.space :: stack)
      (type.label.PhaseFits module.key options .openType) true (type.label.phaseEdits options .openType) := by
  have entered : (step (.startSpace type.label.key.space)).Traces walk stack (.space type.label.key.space :: stack)
      (type.label.key.assembly = module.key) () [.ensureSpace type.label.key.space] := by
    refine step_traces_if walk ?_ ?_
    · intro owned
      simp [Op.track, houses.admitSpace, ← owned, TypeKey.assembly, Except.map]
    · intro foreign
      have differs : module.key ≠ type.label.key.space.assembly := Ne.symm foreign
      simp [Op.track, houses.admitSpace, differs, Except.map]
  have started : (step (.startType type.label.key (!options.primary))).Traces walk
    (.space type.label.key.space :: stack)
      (.type type.label.key :: .space type.label.key.space :: stack) True ()
      [.ensureType type.label.key, .onType type.label.key (.opened (!options.primary))] :=
    step_traces walk (by simp [Op.track, Scopes.admitType, Stack.scopes, Opening.scope, Except.map])
  have flagged : (step (.setTypeFlags type.label.isInterface type.label.isAbstract)).Traces walk
      (.type type.label.key :: .space type.label.key.space :: stack) _ _ _ _ := step_traces walk rfl
  have opened : (openType options type.label).Traces walk stack _ _ _ _ := entered.bind (started.bind flagged)
  exact (opened.bind (Traces.pure true walk _)).congr_edits (by simp [Definition.PhaseFits])
    (by simp [Definition.phaseEdits])

theorem closeType_traces (key : TypeKey) (space : NamespaceKey) (stack : Stack) :
    (phase module options visit type .closeType).Traces walk (.type key :: .space space :: stack) stack
      True true [] := by
  have first : (step (.close .type)).Traces walk (.type key :: .space space :: stack) _ _ _ _ :=
    close_traces (.type key)
  have second : (step (.close .space)).Traces walk (.space space :: stack) _ _ _ _ := close_traces (.space space)
  have closed : closeType.Traces walk (.type key :: .space space :: stack) _ _ _ _ := first.bind second
  exact (closed.bind (Traces.pure true walk stack)).congr_edits (by simp) (by simp)

end Visit

end UsageGraph
