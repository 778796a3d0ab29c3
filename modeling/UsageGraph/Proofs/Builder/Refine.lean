import UsageGraph.Proofs.Builder.Track
import UsageGraph.Proofs.View.Record

/-! Building steps refine their tracks.

In a good builder the model is well formed and the open scopes name its nodes. A step of
a good builder fails if its track does, and otherwise makes the edits of its track, unless
a member of another kind is in the way. Then it has made the first of its edits, at most,
and the open scopes are those before. Whatever it does, the builder stays good.
-/

set_option autoImplicit false
namespace UsageGraph

/-- The id of a scope leads to the node that the scope was opened for. -/
def Scope.Names (model : Model) : Scope → Prop
  | .assembly id key => ∃ node, model.assembly? id = some node ∧ node.key = key
  | .space id key => ∃ node, model.space? id = some node ∧ node.key = key
  | .type id key => ∃ node, model.type? id = some node ∧ node.key = key
  | .member kind id key => ∃ node, model.member? id = some node ∧ node.key = key ∧ node.kind = kind

theorem Scope.Names.mono {before after : Model} (grows : before.Grows after) {scope : Scope}
    (names : scope.Names before) :
    scope.Names after := by
  cases scope with
  | assembly id key =>
    obtain ⟨node, held, named⟩ := names
    obtain ⟨later, held', _, same⟩ := grows.assembly held
    exact ⟨later, held', same.trans named⟩
  | space id key =>
    obtain ⟨node, held, named⟩ := names
    obtain ⟨later, held', _, same, _⟩ := grows.space held
    exact ⟨later, held', same.trans named⟩
  | type id key =>
    obtain ⟨node, held, named⟩ := names
    obtain ⟨later, held', _, same, _⟩ := grows.type held
    exact ⟨later, held', same.trans named⟩
  | member kind id key =>
    obtain ⟨node, held, named, kinded⟩ := names
    obtain ⟨later, held', _, same, _, sameKind⟩ := grows.member held
    exact ⟨later, held', same.trans named, sameKind.trans kinded⟩

namespace Builder

structure Good (builder : Builder) : Prop where
  formed : builder.model.WellFormed
  named : ∀ scope ∈ builder.scopes, scope.Names builder.model

theorem Good.empty : Good {} := ⟨Model.WellFormed.empty, by simp⟩

theorem Good.grow {builder : Builder} (good : builder.Good) {model : Model} (formed : model.WellFormed)
    (grows : builder.model.Grows model) : Good { builder with model } :=
  ⟨formed, fun scope opened => (good.named scope opened).mono grows⟩

def stack (builder : Builder) : Stack := Stack.of builder.scopes

theorem stack_eq_nil_iff (builder : Builder) : builder.stack = [] ↔ builder.scopes = [] := by
  simp [stack, Stack.of]

theorem finish_eq_ok_iff (builder : Builder) : builder.finish = .ok () ↔ builder.stack = [] := by
  unfold finish stack Stack.of
  cases builder.scopes with
  | nil => simp [Scopes.finish, Except.mapError]
  | cons innermost outer => simp [Scopes.finish, Except.mapError]

variable {α β : Type}

/-- A step ends with a fault where a member of another kind is in the way, after the first of its edits. -/
structure Stops (before : Builder) (edits : List Edit) (fault : Fault) (after : Builder) : Prop where
  mismatch : ∃ key found expected, fault = .kindMismatch key found expected
  good : after.Good
  kept : after.scopes = before.scopes
  blocks : ¬ before.model.view.Admits edits
  part : ∃ made, made <+: edits ∧ before.model.view.Admits made ∧ before.model.Becomes after.model made

/-- A part of a step makes edits, if the view admits them, and otherwise stops. -/
inductive Makes (before : Builder) (step : Build α) (edits : List Edit) (post : α → Builder → Prop) : Prop
  | done (answer : α) (after : Builder) (ends : step before = (.ok answer, after)) (good : after.Good)
    (admits : before.model.view.Admits edits) (becomes : before.model.Becomes after.model edits)
    (holds : post answer after)
  | blocked (fault : Fault) (after : Builder) (ends : step before = (.error fault, after))
    (stops : before.Stops edits fault after)

end Builder

theorem View.admits_append (view : View) (first second : List Edit) :
    view.Admits (first ++ second) ↔ view.Admits first ∧ (view.applyAll first).Admits second := by
  induction first generalizing view with
  | nil => simp [View.Admits, View.applyAll]
  | cons edit rest ih =>
    simp only [List.cons_append, View.Admits, ih, and_assoc]
    rfl

theorem View.admits_of_forall {edits : List Edit} (free : ∀ edit ∈ edits, ∀ view : View, view.allows edit)
    (view : View) :
    view.Admits edits := by
  induction edits generalizing view with
  | nil => trivial
  | cons edit rest ih =>
    exact ⟨free edit (by simp) view, ih (fun other member => free other (by simp [member])) _⟩

namespace Builder

variable {α β : Type} {before : Builder}

theorem Stops.grows {edits : List Edit} {fault : Fault} {after : Builder} (stops : before.Stops edits fault after) :
    before.model.Grows after.model := by
  obtain ⟨made, _, _, becomes⟩ := stops.part
  exact becomes.grows

theorem Stops.append {edits : List Edit} {fault : Fault} {after : Builder} (stops : before.Stops edits fault after)
    (more : List Edit) : before.Stops (edits ++ more) fault after where
  mismatch := stops.mismatch
  good := stops.good
  kept := stops.kept
  blocks admits := stops.blocks ((View.admits_append _ _ _).mp admits).1
  part := by
    obtain ⟨made, part, rest⟩ := stops.part
    exact ⟨made, part.trans (List.prefix_append edits more), rest⟩

theorem Stops.prepend {middle after : Builder} {edits edits' : List Edit} {fault : Fault}
    (admits : before.model.view.Admits edits) (becomes : before.model.Becomes middle.model edits)
    (kept : middle.scopes = before.scopes) (stops : middle.Stops edits' fault after) :
    before.Stops (edits ++ edits') fault after where
  mismatch := stops.mismatch
  good := stops.good
  kept := stops.kept.trans kept
  blocks admits' := stops.blocks (becomes.view ▸ ((View.admits_append _ _ _).mp admits').2)
  part := by
    obtain ⟨made, part, admits', becomes'⟩ := stops.part
    refine ⟨edits ++ made, (List.prefix_append_right_inj edits).mpr part, ?_, becomes.trans becomes'⟩
    exact (View.admits_append _ _ _).mpr ⟨admits, becomes.view ▸ admits'⟩

theorem Makes.bind {step : Build α} {next : α → Build β} {edits edits' : List Edit} {post : α → Builder → Prop}
    {post' : β → Builder → Prop} (first : before.Makes step edits post)
    (keeps : ∀ {answer after}, post answer after → after.scopes = before.scopes)
    (second : ∀ answer after, after.Good → before.model.Grows after.model → post answer after →
      after.Makes (next answer) edits' post') :
    before.Makes (step >>= next) (edits ++ edits') post' := by
  have unfolded := bind_apply step next before
  cases first with
  | done answer middle ends good admits becomes holds =>
    simp only [ends] at unfolded
    cases second answer middle good becomes.grows holds with
    | done answer' after ends' good' admits' becomes' holds' =>
      refine .done answer' after (unfolded.trans ends') good' ?_ (becomes.trans becomes') holds'
      exact (View.admits_append _ _ _).mpr ⟨admits, becomes.view ▸ admits'⟩
    | blocked fault after ends' stops =>
      exact .blocked fault after (unfolded.trans ends') (.prepend admits becomes (keeps holds) stops)
  | blocked fault after ends stops =>
    simp only [ends] at unfolded
    exact .blocked fault after unfolded (stops.append edits')

theorem Makes.left {step : Build α} {edits : List Edit} {scopes : List Scope}
    (makes : before.Makes step edits fun _ after => after.scopes = before.scopes) (same : before.scopes = scopes) :
    before.Makes step edits fun _ after => after.stack = Stack.of scopes := by
  cases makes with
  | done answer after ends good admits becomes holds =>
    exact .done answer after ends good admits becomes (by rw [stack, holds, same])
  | blocked fault after ends stops => exact .blocked fault after ends stops

section Elements

variable (good : before.Good)
include good

theorem edit_makes {change : Model → α × Model} {edits : List Edit} (post : α → Model → Prop)
    (free : ∀ edit ∈ edits, ∀ view : View, view.allows edit)
    (becomes : before.model.Becomes (change before.model).2 edits ∧
      post (change before.model).1 (change before.model).2) :
    before.Makes (edit change) edits fun answer after => after.scopes = before.scopes ∧ post answer after.model :=
  .done _ _ rfl (good.grow becomes.1.formed becomes.1.grows) (View.admits_of_forall free _) becomes.1 ⟨rfl, becomes.2⟩

theorem update_makes {change : Model → Model} {changed : Model} {edit : Edit}
    (becomes : before.model.Becomes changed [edit])
    (free : ∀ view : View, view.allows edit) (same : change before.model = changed) :
    before.Makes (update change) [edit] fun _ after => after.scopes = before.scopes := by
  subst same
  exact .done _ _ rfl (good.grow becomes.formed becomes.grows) ⟨free _, trivial⟩ becomes rfl

theorem return_makes (answer : α) : before.Makes (pure answer) [] fun _ after => after.scopes = before.scopes :=
  .done answer before rfl good trivial (.refl good.formed) rfl

theorem enter_makes {scopes : List Scope} {scope : Scope} {opening : Opening} (answer : α)
    (names : scope.Names before.model) (opens : scope.opening = opening) (same : before.scopes = scopes) :
    before.Makes (do enter scope; return answer) [] fun _ after => after.stack = opening :: Stack.of scopes := by
  refine .done answer { before with scopes := scope :: before.scopes } rfl ⟨good.formed, ?_⟩ trivial
    (.refl good.formed) ?_
  · intro opened member
    rcases List.mem_cons.mp member with rfl | member
    · exact names
    · exact good.named opened member
  · simp [stack, Stack.of, opens, same]

theorem Stops.at_once {edits : List Edit} {fault : Fault} (blocks : ¬ before.model.view.Admits edits)
    (mismatch : ∃ key found expected, fault = .kindMismatch key found expected) : before.Stops edits fault before :=
  ⟨mismatch, good, rfl, blocks, [], List.nil_prefix, trivial, .refl good.formed⟩

theorem ensureAssembly_makes (key : AssemblyKey) :
    before.Makes (edit (·.ensureAssembly key)) [.ensureAssembly key] fun id after =>
      after.scopes = before.scopes ∧ Scope.Names after.model (.assembly id key) := by
  refine edit_makes good (fun id model => Scope.Names model (.assembly id key)) ?_
    (Model.ensureAssembly_becomes good.formed key)
  simp [View.allows]

theorem ensureSpace_makes (key : NamespaceKey) :
    before.Makes (edit (·.ensureSpace key)) [.ensureSpace key] fun id after =>
      after.scopes = before.scopes ∧ Scope.Names after.model (.space id key) := by
  refine edit_makes good (fun id model => Scope.Names model (.space id key)) ?_
    (Model.ensureSpace_becomes good.formed key)
  simp [View.allows]

theorem ensureType_makes (key : TypeKey) :
    before.Makes (edit (·.ensureType key)) [.ensureType key] fun id after =>
      after.scopes = before.scopes ∧ Scope.Names after.model (.type id key) := by
  refine edit_makes good (fun id model => Scope.Names model (.type id key)) ?_
    (Model.ensureType_becomes good.formed key)
  simp [View.allows]

theorem ensureMember_makes (kind : MemberKind) (key : MemberKey) :
    before.Makes (attempt (·.ensureMember key (.member kind))) [.ensureMember kind key] fun id after =>
      after.scopes = before.scopes ∧ Scope.Names after.model (.member kind id key) := by
  rcases Model.ensureMember_becomes good.formed kind key with
    ⟨allowed, id, node, answered, held, named, kinded, becomes⟩ | ⟨refused, found, failed⟩
  · refine .done id _ ?_ (good.grow becomes.formed becomes.grows) ⟨allowed, trivial⟩ becomes
      ⟨rfl, node, held, named, kinded⟩
    simp only [attempt, answered]
  · refine .blocked _ before ?_ (.at_once good (fun admits => refused admits.1) ⟨key, found, .member kind, rfl⟩)
    simp only [attempt, failed]

theorem ensureNode_makes (key : NodeKey) :
    before.Makes (attempt (·.ensureNode key)) [.ensureNode key] fun target after =>
      after.scopes = before.scopes ∧ after.model.nodeKey? target = some key := by
  rcases Model.ensureNode_becomes good.formed key with
    ⟨allowed, target, answered, named, becomes⟩ | ⟨refused, member, found, expected, failed⟩
  · refine .done target _ ?_ (good.grow becomes.formed becomes.grows) ⟨allowed, trivial⟩ becomes ⟨rfl, named⟩
    simp only [attempt, answered]
  · refine .blocked _ before ?_ (.at_once good (fun admits => refused admits.1) ⟨member, found, expected, rfl⟩)
    simp only [attempt, failed]

end Elements

/-! ## Steps -/

/-- What a step does when its track is given. -/
inductive Performs (before : Builder) : Tracked → Except Fault α × Builder → Prop
  | refused (cause : Violation) : Performs before (.error cause) (.error (.violation cause), before)
  | done {edits : List Edit} {stack : Stack} (answer : α) (after : Builder) (good : after.Good)
    (left : after.stack = stack)
    (admits : before.model.view.Admits edits) (becomes : before.model.Becomes after.model edits) :
    Performs before (.ok (edits, stack)) (.ok answer, after)
  | blocked {edits : List Edit} {stack : Stack} (fault : Fault) (after : Builder)
    (stops : before.Stops edits fault after) :
    Performs before (.ok (edits, stack)) (.error fault, after)

theorem Makes.performs {step : Build α} {edits : List Edit} {stack : Stack}
    (makes : before.Makes step edits fun _ after => after.stack = stack) :
    before.Performs (.ok (edits, stack)) (step before) := by
  cases makes with
  | done answer after ends good admits becomes holds =>
    rw [ends]
    exact .done answer after good holds admits becomes
  | blocked fault after ends stops =>
    rw [ends]
    exact .blocked fault after stops

theorem map_apply (f : α → β) (step : Build α) (builder : Builder) :
    (f <$> step) builder = ((step builder).1.map f, (step builder).2) := by
  show ExceptT.map f step builder = _
  simp only [ExceptT.map, ExceptT.mk, bind, StateT.bind]
  cases done : step builder with
  | mk result after => cases result <;> rfl

theorem Performs.map (f : α → β) {tracked : Tracked} {step : Build α}
    (performs : before.Performs tracked (step before)) :
    before.Performs tracked ((f <$> step) before) := by
  rw [map_apply]
  cases ends : step before with
  | mk result after =>
    rw [ends] at performs
    cases performs with
    | refused cause => exact .refused cause
    | done answer after good left admits becomes => exact .done _ _ good left admits becomes
    | blocked fault after stops => exact .blocked _ _ stops

theorem performs_of_ask {κ : Type} {question : List Scope → Except Violation α} {next : α → Build β}
    {answer : Except Violation κ} {track : κ → List Edit × Stack} {same : α → κ → Prop}
    (agrees : Stack.Agrees same (question before.scopes) answer)
    (makes : ∀ id key, same id key → before.Makes (next id) (track key).1 fun _ after => after.stack = (track key).2) :
    before.Performs (answer.map track) ((ask question >>= next) before) := by
  rw [bind_apply]
  simp only [ask]
  generalize question before.scopes = found at agrees
  cases agrees with
  | ok related => exact (makes _ _ related).performs
  | error cause => exact .refused cause

section Steps

variable (good : before.Good)
include good

theorem startAssembly_performs (key : AssemblyKey) (isDependency : Bool) :
    before.Performs ((Op.startAssembly key isDependency).track before.stack)
      (startAssembly key isDependency before) := by
  simp only [Op.track, startAssembly, stack, Stack.admitAssembly_of]
  refine performs_of_ask (.refl _) fun _ _ _ => ?_
  refine (ensureAssembly_makes good key).bind And.left fun id middle good' _ ⟨same, names⟩ => ?_
  obtain ⟨node, held, named⟩ := names
  have told := Model.openAssembly_becomes good'.formed isDependency held named
  refine (update_makes good' told (fun _ => trivial) rfl).bind (fun same => same) fun _ after good'' grows same' => ?_
  exact enter_makes good'' id (Scope.Names.mono grows ⟨node, held, named⟩) rfl (same'.trans same)

theorem startSpace_performs (key : NamespaceKey) :
    before.Performs ((Op.startSpace key).track before.stack) (startSpace key before) := by
  simp only [Op.track, startSpace, stack, Stack.admitSpace_of]
  refine performs_of_ask (.refl _) fun _ _ _ => ?_
  refine (ensureSpace_makes good key).bind And.left fun id middle good' _ ⟨same, names⟩ => ?_
  exact enter_makes good' id names rfl same

theorem startType_performs (key : TypeKey) (signatureOnly : Bool) :
    before.Performs ((Op.startType key signatureOnly).track before.stack) (startType key signatureOnly before) := by
  simp only [Op.track, startType, stack, Stack.admitType_of]
  refine performs_of_ask (.refl _) fun _ _ _ => ?_
  refine (ensureType_makes good key).bind And.left fun id middle good' _ ⟨same, names⟩ => ?_
  obtain ⟨node, held, named⟩ := names
  have told := Model.openType_becomes good'.formed signatureOnly held named
  refine (update_makes good' told (fun _ => trivial) rfl).bind (fun same => same) fun _ after good'' grows same' => ?_
  exact enter_makes good'' id (Scope.Names.mono grows ⟨node, held, named⟩) rfl (same'.trans same)

theorem startMember_performs (kind : MemberKind) (key : MemberKey) (signatureOnly : Bool) :
    before.Performs (Op.trackMember kind key signatureOnly before.stack)
      (startMember kind key signatureOnly before) := by
  simp only [Op.trackMember, startMember, stack, Stack.admitMember_of]
  refine performs_of_ask (.refl _) fun _ _ _ => ?_
  refine (ensureMember_makes good kind key).bind And.left fun id middle good' _ ⟨same, names⟩ => ?_
  obtain ⟨node, held, named, kinded⟩ := names
  have told := Model.openMember_becomes good'.formed signatureOnly held named
  refine (update_makes good' told (fun _ => trivial) rfl).bind (fun same => same) fun _ after good'' grows same' => ?_
  exact enter_makes good'' id (Scope.Names.mono grows ⟨node, held, named, kinded⟩) rfl (same'.trans same)

theorem close_performs (kind : ScopeKind) :
    before.Performs ((Op.close kind).track before.stack) (close kind before) := by
  simp only [Op.track, close, stack]
  rw [bind_apply]
  cases opened : before.scopes with
  | nil =>
    simp only [ask, opened]
    exact .refused _
  | cons innermost outer =>
    simp only [ask, opened, Stack.of, Stack.scopes, List.map_cons, Scopes.close, Scope.kind_scope_opening,
      List.tail_cons]
    split
    · refine .done () _ ⟨good.formed, ?_⟩ rfl trivial (.refl good.formed)
      intro scope member
      exact good.named scope (by rw [opened]; exact List.mem_cons_of_mem _ member)
    · exact .refused _

theorem setTypeFlags_performs (isInterface isAbstract : Bool) :
    before.Performs ((Op.setTypeFlags isInterface isAbstract).track before.stack)
      (setTypeFlags isInterface isAbstract before) := by
  simp only [Op.track, setTypeFlags, stack]
  refine performs_of_ask (Stack.typeToFill_of _ _) fun id key opened => ?_
  obtain ⟨node, held, named⟩ := good.named _ opened
  have told := Model.setFlags_becomes good.formed isInterface isAbstract held named
  exact (update_makes good told (fun _ => trivial) rfl).left rfl

theorem setBaseType_performs (base : TypeKey) :
    before.Performs ((Op.setBaseType base).track before.stack) (setBaseType base before) := by
  simp only [Op.track, setBaseType, stack]
  refine performs_of_ask (Stack.typeToFill_of _ _) fun id key opened => ?_
  refine (ensureType_makes good base).bind And.left fun ensured middle good' _ ⟨same, other, at_base, named'⟩ => ?_
  obtain ⟨node, held, named⟩ := good'.named _ (same ▸ opened)
  have told := Model.setBase_becomes good'.formed held named at_base named'
  refine (update_makes good' told (fun _ => trivial) rfl).bind (fun same => same) fun _ after good'' _ same' => ?_
  exact (return_makes good'' ensured).left (same'.trans same)

theorem addInterface_performs (implemented : TypeKey) :
    before.Performs ((Op.addInterface implemented).track before.stack) (addInterface implemented before) := by
  simp only [Op.track, addInterface, stack]
  refine performs_of_ask (Stack.typeToFill_of _ _) fun id key opened => ?_
  refine (ensureType_makes good implemented).bind And.left
    fun ensured middle good' _ ⟨same, other, at_interface, named'⟩ => ?_
  obtain ⟨node, held, named⟩ := good'.named _ (same ▸ opened)
  have told := Model.addInterface_becomes good'.formed held named at_interface named'
  refine (update_makes good' told (fun _ => trivial) rfl).bind (fun same => same) fun _ after good'' _ same' => ?_
  exact (return_makes good'' ensured).left (same'.trans same)

theorem setPrototype_performs (returns : Option TypeKey) (parameters : List TypeKey) :
    before.Performs ((Op.setPrototype returns parameters).track before.stack)
      (setPrototype returns parameters before) := by
  simp only [Op.track, setPrototype, stack]
  refine performs_of_ask (Stack.memberToFill_of _ _ _) fun id key opened => ?_
  have free : ∀ keys : List TypeKey, ∀ edit ∈ keys.map Edit.ensureType, ∀ view : View, view.allows edit := by
    intro keys edit member view
    obtain ⟨type, _, rfl⟩ := List.mem_map.mp member
    trivial
  rw [List.append_assoc]
  refine (edit_makes good (fun returned model => (∀ id ∈ returned, (model.type? id).isSome) ∧
    returned.bind model.typeKey? = returns) (free _) (Model.ensureType?_becomes good.formed returns)).bind And.left ?_
  intro returned middle good' _ ⟨same, at_returned, returnKey⟩
  refine (edit_makes good' (fun taken model => (∀ id ∈ taken, (model.type? id).isSome) ∧
    taken.filterMap model.typeKey? = parameters) (free _) (Model.ensureTypes_becomes good'.formed parameters)).bind
    And.left ?_
  intro taken last good'' grows ⟨same', at_taken, takenKeys⟩
  obtain ⟨node, held, named, isMethod⟩ := good''.named _ (same' ▸ same ▸ opened)
  -- the return type was ensured before the parameters, and it is still there
  have told := Model.setPrototype_becomes good''.formed held named isMethod
    (fun id member => grows.isSome_type (at_returned id member))
    ((grows.bind_typeKey? at_returned).trans returnKey) at_taken takenKeys
  exact (update_makes good'' told (fun _ => trivial) rfl).left (same'.trans same)

theorem setMethodFlags_performs (flags : MethodFlags) :
    before.Performs ((Op.setMethodFlags flags).track before.stack) (setMethodFlags flags before) := by
  simp only [Op.track, setMethodFlags, stack]
  refine performs_of_ask (Stack.memberToFill_of _ _ _) fun id key opened => ?_
  obtain ⟨node, held, named, isMethod⟩ := good.named _ opened
  have told := Model.setMethodFlags_becomes good.formed flags held named isMethod
  exact (update_makes good told (fun _ => trivial) rfl).left rfl

theorem setDeclaredType_performs (kind : MemberKind) (type : TypeKey) :
    before.Performs (Op.trackDeclaredType kind type before.stack) (setDeclaredType kind type before) := by
  simp only [Op.trackDeclaredType, setDeclaredType, stack]
  refine performs_of_ask (Stack.memberToFill_of _ _ _) fun id key opened => ?_
  refine (ensureType_makes good type).bind And.left fun ensured middle good' _ ⟨same, other, at_type, named'⟩ => ?_
  obtain ⟨node, held, named, _⟩ := good'.named _ (same ▸ opened)
  have told := Model.setDeclared_becomes good'.formed held named at_type named'
  refine (update_makes good' told (fun _ => trivial) rfl).bind (fun same => same) fun _ after good'' _ same' => ?_
  exact (return_makes good'' ensured).left (same'.trans same)

theorem setAccessor_performs (slot : Slot) (owner accessor : MemberKey) :
    before.Performs ((Op.setAccessor slot owner accessor).track before.stack)
      (setAccessor slot owner accessor before) := by
  simp only [Op.track, setAccessor]
  refine Makes.performs ?_
  refine (ensureMember_makes good slot.ownerKind owner).bind And.left fun id middle good' _ ⟨same, names⟩ => ?_
  refine (ensureMember_makes good' .method accessor).bind And.left fun method last good'' grows ⟨same', names'⟩ => ?_
  obtain ⟨node, held, named, fits⟩ := names.mono grows
  obtain ⟨other, at_method, named', isMethod⟩ := names'
  have told := Model.setAccessor_becomes good''.formed held named fits at_method named' isMethod
  exact (update_makes good'' told (fun _ => trivial) rfl).left (same'.trans same)

omit good in
theorem nodeKey?_of_holds {builder : Builder} (good : builder.Good) {node : NodeRef} {key : NodeKey}
    (holds : Stack.Holds builder.scopes node key) : builder.model.nodeKey? node = some key := by
  obtain ⟨scope, opened, held, named⟩ := holds
  have names := good.named scope opened
  cases scope with
  | assembly => cases held
  | space => cases held
  | type id key =>
    cases held
    cases named
    obtain ⟨node, held, named⟩ := names
    simp [Model.nodeKey?, held, named]
  | member kind id key =>
    cases held
    cases named
    obtain ⟨node, held, named, kinded⟩ := names
    simp [Model.nodeKey?, held, named, kinded]

theorem useType_performs (type : TypeKey) :
    before.Performs ((Op.useType type).track before.stack) (useType type before) := by
  simp only [Op.track, useType, stack]
  refine performs_of_ask (Stack.holder_of _ _) fun holder key holds => ?_
  refine (ensureType_makes good type).bind And.left fun ensured middle good' _ ⟨same, node, held, named⟩ => ?_
  have target : middle.model.nodeKey? (.type ensured) = some (.type type) := by simp [Model.nodeKey?, held, named]
  have told := Model.recordUsage_becomes good'.formed (nodeKey?_of_holds good' (same ▸ holds)) target
  refine (update_makes good' told ?_ rfl).left same
  cases key <;> exact fun _ => trivial

theorem useNode_performs (target : NodeKey) :
    before.Performs ((Op.useNode target).track before.stack) (useNode target before) := by
  simp only [Op.track, useNode, stack]
  refine performs_of_ask (Stack.holder_of _ _) fun holder key holds => ?_
  refine (ensureNode_makes good target).bind And.left fun ensured middle good' _ ⟨same, named⟩ => ?_
  have told := Model.recordUsage_becomes good'.formed (nodeKey?_of_holds good' (same ▸ holds)) named
  refine (update_makes good' told ?_ rfl).left same
  cases key <;> exact fun _ => trivial

theorem addAttribute_performs (type : TypeKey) :
    before.Performs ((Op.addAttribute type).track before.stack) (addAttribute type before) := by
  simp only [Op.track, addAttribute, stack]
  refine performs_of_ask (Stack.holder_of _ _) fun holder key holds => ?_
  refine (ensureType_makes good type).bind And.left fun ensured middle good' _ ⟨same, node, held, named⟩ => ?_
  have told := Model.recordAttribute_becomes good'.formed (nodeKey?_of_holds good' (same ▸ holds)) held named
  refine (update_makes good' told ?_ rfl).left same
  cases key <;> exact fun _ => trivial

/-- A step of a good builder does what its track says. -/
theorem perform_performs (op : Op) : before.Performs (op.track before.stack) (op.perform before) := by
  cases op with
  | startAssembly key isDependency => exact (startAssembly_performs good key isDependency).map _
  | startSpace key => exact (startSpace_performs good key).map _
  | startType key signatureOnly => exact (startType_performs good key signatureOnly).map _
  | startMethod key signatureOnly => exact (startMember_performs good .method key signatureOnly).map _
  | startField key => exact (startMember_performs good .field key false).map _
  | startProperty key => exact (startMember_performs good .property key false).map _
  | startEvent key => exact (startMember_performs good .event key false).map _
  | close kind => exact (close_performs good kind).map _
  | setTypeFlags isInterface isAbstract => exact (setTypeFlags_performs good isInterface isAbstract).map _
  | setBaseType base => exact (setBaseType_performs good base).map _
  | addInterface implemented => exact (addInterface_performs good implemented).map _
  | setPrototype returns parameters => exact (setPrototype_performs good returns parameters).map _
  | setMethodFlags flags => exact (setMethodFlags_performs good flags).map _
  | setFieldType type => exact (setDeclaredType_performs good .field type).map _
  | setPropertyType type => exact (setDeclaredType_performs good .property type).map _
  | setEventType type => exact (setDeclaredType_performs good .event type).map _
  | setAccessor slot owner accessor => exact (setAccessor_performs good slot owner accessor).map _
  | useType type => exact (useType_performs good type).map _
  | useNode target => exact (useNode_performs good target).map _
  | addAttribute type => exact (addAttribute_performs good type).map _

/-- Whatever a step does, the builder stays good and its model only grows. -/
theorem perform_keeps (op : Op) : (op.perform before).2.Good ∧ before.model.Grows (op.perform before).2.model := by
  have performs := perform_performs good op
  generalize op.track before.stack = tracked at performs
  generalize op.perform before = ended at performs
  cases performs with
  | refused cause => exact ⟨good, .refl _⟩
  | done answer after good' left admits becomes => exact ⟨good', becomes.grows⟩
  | blocked fault after stops => exact ⟨stops.good, stops.grows⟩

end Steps

end Builder

end UsageGraph
