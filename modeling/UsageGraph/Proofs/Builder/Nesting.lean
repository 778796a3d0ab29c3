import UsageGraph.Proofs.Builder.Locality
import UsageGraph.Proofs.Reachable
import UsageGraph.Proofs.View.Edits

/-! The nesting of scopes.

Steps open a scope only in its place, and close only the innermost one. Which place that is
depends on keys alone, so the nesting of the openings is kept by each track; as the scopes
of a good builder name nodes with these keys, their nodes own one another in the same way.
It follows that no step is refused for an accessor without a type, and that no step which
fills in a member meets one of another kind.
-/

set_option autoImplicit false
namespace UsageGraph

/-- Where a scope may be opened, by the keys of the scopes around it. -/
def Opening.Stands (outer : Stack) : Opening → Prop
  | .assembly _ => outer = []
  | .space key => (Scopes.innermostKind? outer.scopes = none ∨ Scopes.innermostKind? outer.scopes = some .assembly ∨
      Scopes.innermostKind? outer.scopes = some .type) ∧
      ∀ assembly, .assembly assembly ∈ outer → key.assembly = assembly
  | .type key => ∃ rest, outer = .space key.space :: rest
  | .member kind key => (∃ rest, outer = .type key.owner :: rest) ∨
      kind = .method ∧ ∃ host hostKey rest, (host = .property ∨ host = .event) ∧ hostKey.owner = key.owner ∧
        outer = .member host hostKey :: .type key.owner :: rest

namespace Stack

def Nested : Stack → Prop
  | [] => True
  | opening :: outer => opening.Stands outer ∧ Nested outer

variable {stack : Stack}

theorem Nested.tail (nested : stack.Nested) : Nested stack.tail := by
  cases stack with
  | nil => trivial
  | cons opening outer => exact nested.2

theorem Nested.openAssembly?_eq (nested : stack.Nested) {assembly : AssemblyKey} (opened : .assembly assembly ∈ stack) :
    Scopes.openAssembly? stack.scopes = some assembly := by
  -- an assembly is outermost, so there is no other
  induction stack with
  | nil => cases opened
  | cons opening outer ih =>
    cases opening with
    | assembly key =>
      obtain ⟨rfl, _⟩ : outer = [] ∧ _ := nested
      rw [Opening.assembly.inj (List.mem_singleton.mp opened)]
      rfl
    | space | type | member =>
      have further := (List.mem_cons.mp opened).resolve_left (by simp)
      exact ih nested.2 further

theorem Nested.stands_space (nested : stack.Nested) {key : NamespaceKey} {answer : Unit}
    (admitted : Scopes.admitSpace key stack.scopes = .ok answer) : (Opening.space key).Stands stack := by
  refine ⟨?_, fun assembly opened => assembly_of_admitSpace (nested.openAssembly?_eq opened) admitted⟩
  unfold Scopes.admitSpace at admitted
  split at admitted
  next none => exact .inl none
  next assembly => exact .inr (.inl assembly)
  next type => exact .inr (.inr type)
  next => cases admitted

theorem stands_type {key : TypeKey} {answer : Unit} (admitted : Scopes.admitType key stack.scopes = .ok answer) :
    (Opening.type key).Stands stack := by
  cases stack with
  | nil => cases admitted
  | cons opening outer =>
    cases opening with
    | space space =>
      simp only [scopes, List.map_cons, Opening.scope, Scopes.admitType] at admitted
      split at admitted
      next same => exact ⟨outer, by rw [same]⟩
      next => cases admitted
    | assembly | type | member => cases admitted

/-- The innermost scope is a type, or it is a property or an event with its type around it. -/
inductive Hosting (kind : MemberKind) (owner : TypeKey) : Stack → Prop
  | type (outer : Stack) : Hosting kind owner (.type owner :: outer)
  | member {host : MemberKind} (data : host = .property ∨ host = .event) {key : MemberKey} (owned : key.owner = owner)
    (outer : Stack) (isMethod : kind = .method) : Hosting kind owner (.member host key :: .type owner :: outer)

theorem Nested.memberPlace (nested : stack.Nested) (kind : MemberKind) (key : MemberKey) :
    (∃ owner, Scopes.memberPlace kind key stack.scopes = .ok owner ∧ stack.Hosting kind owner) ∨
      Scopes.memberPlace kind key stack.scopes =
        .error (.misplaced (.member kind key) (Scopes.innermostKind? stack.scopes)) := by
  -- the type around a property or event is found, so what can be wrong with a place is only that it is no place
  cases stack with
  | nil => exact .inr rfl
  | cons opening outer =>
    cases opening with
    | assembly | space => exact .inr rfl
    | type owner => exact .inl ⟨owner, rfl, .type outer⟩
    | member host hostKey =>
      by_cases data : host = .property ∨ host = .event
      · -- a property or event is no method, so it stands directly in its type
        obtain ⟨rest, rfl⟩ : ∃ rest, outer = .type hostKey.owner :: rest := by
          rcases nested.1 with inType | ⟨isMethod, _⟩
          · exact inType
          · rcases data with rfl | rfl <;> cases isMethod
        by_cases isMethod : kind = .method
        · refine .inl ⟨hostKey.owner, ?_, .member data rfl rest isMethod⟩
          rcases data with rfl | rfl <;>
            simp [scopes, Opening.scope, Scopes.memberPlace, isMethod, Scopes.openType?]
        · refine .inr ?_
          rcases data with rfl | rfl <;>
            simp [scopes, Opening.scope, Scopes.memberPlace, isMethod]
      · refine .inr ?_
        cases host <;> simp_all [scopes, Opening.scope, Scopes.memberPlace]

theorem Nested.stands_member (nested : stack.Nested) {kind : MemberKind} {key : MemberKey} {answer : Unit}
    (admitted : Scopes.admitMember kind key stack.scopes = .ok answer) : (Opening.member kind key).Stands stack := by
  unfold Scopes.admitMember at admitted
  rcases nested.memberPlace kind key with ⟨owner, placed, hosting⟩ | misplaced
  · rw [placed] at admitted
    simp only at admitted
    split at admitted
    next same =>
      subst same
      cases hosting with
      | type outer => exact .inl ⟨outer, rfl⟩
      | member data owned outer isMethod => exact .inr ⟨isMethod, _, _, outer, data, owned, rfl⟩
    next => cases admitted
  · rw [misplaced] at admitted
    cases admitted

theorem Nested.admitMember_ne_strayAccessor (nested : stack.Nested) (kind : MemberKind) (key other : MemberKey) :
    Scopes.admitMember kind key stack.scopes ≠ .error (.strayAccessor other) := by
  unfold Scopes.admitMember
  rcases nested.memberPlace kind key with ⟨owner, placed, _⟩ | misplaced
  · rw [placed]
    grind
  · rw [misplaced]
    simp

end Stack

/-! ## Steps and the stack -/

namespace Op

/-- What a step does to the stack. A member that it opens is marked as opened. -/
inductive Moves (stack : Stack) (edits : List Edit) : Stack → Prop
  | stay : Moves stack edits stack
  | close : Moves stack edits stack.tail
  | opens {opening : Opening} (stands : opening.Stands stack)
    (marked : ∀ {kind key}, opening = .member kind key →
      ∃ signatureOnly, .onMember key (.opened signatureOnly) ∈ edits) :
    Moves stack edits (opening :: stack)

variable {stack after : Stack} {edits : List Edit}

theorem moves_trackMember (nested : stack.Nested) {kind : MemberKind} {key : MemberKey} {signatureOnly : Bool}
    (tracked : trackMember kind key signatureOnly stack = .ok (edits, after)) : Moves stack edits after := by
  obtain ⟨_, admitted, same⟩ := exists_of_map_ok tracked
  cases same
  refine .opens (nested.stands_member admitted) fun same => ?_
  cases same
  exact ⟨signatureOnly, by simp⟩

theorem moves_of_map {κ : Type} {answer : Except Violation κ} {made : κ → List Edit}
    (tracked : (answer.map fun key => (made key, stack)) = .ok (edits, after)) : Moves stack edits after := by
  obtain ⟨key, _, same⟩ := exists_of_map_ok tracked
  cases same
  exact .stay

theorem track_moves (nested : stack.Nested) {op : Op} (tracked : op.track stack = .ok (edits, after)) :
    Moves stack edits after := by
  cases op with
  | startAssembly key isDependency =>
    obtain ⟨_, admitted, same⟩ := exists_of_map_ok tracked
    cases same
    refine .opens ?_ fun same => by cases same
    cases stack with
    | nil => rfl
    | cons => cases admitted
  | startSpace key =>
    obtain ⟨_, admitted, same⟩ := exists_of_map_ok tracked
    cases same
    exact .opens (nested.stands_space admitted) fun same => by cases same
  | startType key signatureOnly =>
    obtain ⟨_, admitted, same⟩ := exists_of_map_ok tracked
    cases same
    exact .opens (Stack.stands_type admitted) fun same => by cases same
  | startMethod key signatureOnly => exact moves_trackMember nested tracked
  | startField key => exact moves_trackMember nested tracked
  | startProperty key => exact moves_trackMember nested tracked
  | startEvent key => exact moves_trackMember nested tracked
  | close kind =>
    obtain ⟨_, _, same⟩ := exists_of_map_ok tracked
    cases same
    exact .close
  | setAccessor slot owner accessor =>
    cases tracked
    exact .stay
  | setTypeFlags | setBaseType | addInterface | setPrototype | setMethodFlags | setFieldType | setPropertyType
  | setEventType | useType | useNode | addAttribute => exact moves_of_map tracked

theorem Moves.nested (moves : Moves stack edits after) (nested : stack.Nested) : after.Nested := by
  cases moves with
  | stay => exact nested
  | close => exact nested.tail
  | opens stands => exact ⟨stands, nested⟩

theorem Moves.opened (moves : Moves stack edits after) {kind : MemberKind} {key : MemberKey}
    (opened : .member kind key ∈ after) :
    .member kind key ∈ stack ∨ ∃ signatureOnly, .onMember key (.opened signatureOnly) ∈ edits := by
  cases moves with
  | stay => exact .inl opened
  | close => exact .inl (List.mem_of_mem_tail opened)
  | opens stands marked =>
    rcases List.mem_cons.mp opened with here | before
    · exact .inr (marked here.symm)
    · exact .inl before

theorem trackAll_nested {ops : List Op} (nested : stack.Nested) (tracked : trackAll ops stack = some (edits, after)) :
    after.Nested := by
  induction ops generalizing stack edits with
  | nil =>
    cases tracked
    exact nested
  | cons op rest ih =>
    unfold trackAll at tracked
    split at tracked
    next made middle ended =>
      obtain ⟨⟨later, _⟩, went_on, same⟩ := Option.map_eq_some_iff.mp tracked
      cases same
      exact ih ((track_moves nested ended).nested nested) went_on
    next => cases tracked

theorem track_ne_strayAccessor (nested : stack.Nested) (op : Op) (key : MemberKey) :
    op.track stack ≠ .error (.strayAccessor key) := by
  intro failed
  -- only where a member is opened is the type around it looked for
  cases op with
  | startMethod | startField | startProperty | startEvent =>
    exact nested.admitMember_ne_strayAccessor _ _ key (error_of_map_error failed)
  | startAssembly =>
    have failed := error_of_map_error failed
    unfold Scopes.admitAssembly at failed
    grind
  | startSpace =>
    have failed := error_of_map_error failed
    unfold Scopes.admitSpace at failed
    grind
  | startType =>
    have failed := error_of_map_error failed
    unfold Scopes.admitType at failed
    grind
  | close =>
    have failed := error_of_map_error failed
    unfold Scopes.close at failed
    grind
  | setTypeFlags | setBaseType | addInterface =>
    have failed := error_of_map_error failed
    unfold Stack.typeToFill at failed
    grind
  | setPrototype | setMethodFlags | setFieldType | setPropertyType | setEventType =>
    have failed := error_of_map_error failed
    unfold Stack.memberToFill at failed
    grind
  | setAccessor => cases failed
  | useType | useNode | addAttribute =>
    have failed := error_of_map_error failed
    unfold Stack.holder at failed
    grind

end Op

namespace Builder

/-- The openings are nested, and members that are open have been marked as opened. -/
structure InOrder (builder : Builder) : Prop where
  nested : builder.stack.Nested
  opened : ∀ {kind key}, .member kind key ∈ builder.stack →
    (builder.model.view.member key).visitation ≠ .placeholder

variable {builder : Builder}

theorem InOrder.perform (good : builder.Good) (inOrder : builder.InOrder) (op : Op) :
    (op.perform builder).2.InOrder := by
  have performs := perform_performs good op
  generalize tracks : op.track builder.stack = tracked at performs
  generalize op.perform builder = ended at performs
  cases performs with
  | refused cause => exact inOrder
  | done answer after _ left _ becomes =>
    subst left
    have moves := Op.track_moves inOrder.nested tracks
    refine ⟨moves.nested inOrder.nested, fun opened => ?_⟩
    rw [becomes.view, View.isOpened_applyAll]
    exact (moves.opened opened).imp_left inOrder.opened
  | blocked fault after stops =>
    -- what has been made before the step stopped takes no mark away
    obtain ⟨made, _, _, becomes⟩ := stops.part
    have same : after.stack = builder.stack := congrArg Stack.of stops.kept
    refine ⟨same ▸ inOrder.nested, fun opened => ?_⟩
    rw [becomes.view, View.isOpened_applyAll]
    exact .inl (inOrder.opened (same ▸ opened))

theorem mem_scopes_of_mem_stack {kind : MemberKind} {key : MemberKey} (opened : .member kind key ∈ builder.stack) :
    ∃ id, .member kind id key ∈ builder.scopes := by
  obtain ⟨scope, opened, same⟩ := List.mem_map.mp opened
  cases scope with
  | member found id named =>
    cases same
    exact ⟨id, opened⟩
  | assembly | space | type => cases same

theorem InOrder.request (good : builder.Good) (inOrder : builder.InOrder) (request : Request) :
    InOrder { builder with model := request.grant builder.model } := by
  refine ⟨inOrder.nested, fun {kind key} opened => ?_⟩
  have before : (builder.model.view.member key).visitation ≠ .placeholder := inOrder.opened opened
  -- the scope leads to its node, and requests leave members as they are
  obtain ⟨id, scope⟩ := mem_scopes_of_mem_stack opened
  obtain ⟨node, held, rfl, _⟩ := good.named _ scope
  have enlarges := request.grant_enlarges good.formed
  rw [good.formed.view_member held] at before
  rw [enlarges.formed.view_member (enlarges.member held)]
  exact before

theorem Reachable.inOrder (reached : builder.Reachable) : builder.InOrder := by
  refine reached.always ⟨trivial, by simp [stack, Stack.of]⟩ ?_ ?_ ?_
  · exact fun _ => ⟨trivial, by simp [stack, Stack.of]⟩
  · exact fun reached inOrder request => inOrder.request reached.good request
  · exact fun reached inOrder op => inOrder.perform reached.good op

end Builder

/-! ## Scopes and the nodes that they are open for -/

namespace Scope

def Serves (model : Model) (outer : List Scope) (kind : MemberKind) (owner : TypeId) : Prop :=
  (∃ key rest, outer = .type owner key :: rest) ∨
    kind = .method ∧ ∃ host hostId hostKey hostNode rest, (host = .property ∨ host = .event) ∧
      outer = .member host hostId hostKey :: rest ∧ model.member? hostId = some hostNode ∧ hostNode.owner = owner

/-- Where a scope stands among those around it, by what the nodes say of one another. -/
def Stands (model : Model) (outer : List Scope) : Scope → Prop
  | .assembly _ _ => outer = []
  | .space id _ => ∃ node, model.space? id = some node ∧
      (Scopes.innermostKind? outer = none ∨ Scopes.innermostKind? outer = some .assembly ∨
        Scopes.innermostKind? outer = some .type) ∧
      ∀ assembly key, .assembly assembly key ∈ outer → node.assembly = assembly
  | .type id _ => ∃ node key rest, model.type? id = some node ∧ outer = .space node.space key :: rest
  | .member kind id _ => ∃ node, model.member? id = some node ∧ node.kind = kind ∧ node.isPlaceholder = false ∧
      Serves model outer kind node.owner

section

variable {model : Model} (formed : model.WellFormed) {outer : List Scope} (around : ∀ scope ∈ outer, scope.Names model)
include formed around

theorem stands_space {id : NamespaceId} {key : NamespaceKey} (names : Names model (.space id key))
    (stands : Opening.Stands (Stack.of outer) (.space key)) : Stands model outer (.space id key) := by
  obtain ⟨node, held, rfl⟩ := names
  refine ⟨node, held, Stack.innermostKind?_of outer ▸ stands.1, fun assembly key opened => ?_⟩
  obtain ⟨other, held', named⟩ := around _ opened
  obtain ⟨owner, at_owner, owned⟩ := formed.space_owner held
  have same : node.key.assembly = key := stands.2 key (List.mem_map.mpr ⟨_, opened, rfl⟩)
  exact formed.assemblies_indexed.unique at_owner held' (owned.trans (same.trans named.symm))

theorem stands_type {id : TypeId} {key : TypeKey} (names : Names model (.type id key))
    (stands : Opening.Stands (Stack.of outer) (.type key)) : Stands model outer (.type id key) := by
  obtain ⟨node, held, rfl⟩ := names
  obtain ⟨rest, same⟩ := stands
  obtain ⟨innermost, more, rfl, opens, _⟩ := List.map_eq_cons_iff.mp same
  cases innermost with
  | space space key =>
    cases opens
    obtain ⟨other, held', named⟩ := around _ List.mem_cons_self
    obtain ⟨owner, at_owner, owned⟩ := formed.type_owner held
    have same := formed.spaces_indexed.unique at_owner held' (owned.trans named.symm)
    exact ⟨node, _, more, held, by rw [same]⟩
  | assembly | type | member => cases opens

theorem stands_member {kind : MemberKind} {id : MemberId} {node : MemberNode} (held : model.member? id = some node)
    (stands : Opening.Stands (Stack.of outer) (.member kind node.key)) : Serves model outer kind node.owner := by
  obtain ⟨owner, at_owner, owned⟩ := formed.member_owner held
  rcases stands with ⟨rest, same⟩ | ⟨isMethod, host, hostKey, rest, data, sameOwner, same⟩
  · obtain ⟨innermost, more, rfl, opens, _⟩ := List.map_eq_cons_iff.mp same
    cases innermost with
    | type type key =>
      cases opens
      obtain ⟨other, held', named⟩ := around _ List.mem_cons_self
      have same := formed.types_indexed.unique at_owner held' (owned.trans named.symm)
      exact .inl ⟨_, more, by rw [same]⟩
    | assembly | space | member => cases opens
  · obtain ⟨innermost, more, rfl, opens, _⟩ := List.map_eq_cons_iff.mp same
    cases innermost with
    | member found hostId key =>
      cases opens
      obtain ⟨hostNode, at_host, rfl, _⟩ := around _ List.mem_cons_self
      obtain ⟨hostOwner, at_hostOwner, owned'⟩ := formed.member_owner at_host
      -- an accessor and its property or event have the same declaring type, of which there is one node
      have same := formed.types_indexed.unique at_hostOwner at_owner (owned'.trans (sameOwner.trans owned.symm))
      exact .inr ⟨isMethod, host, hostId, _, hostNode, more, data, rfl, at_host, same⟩
    | assembly | space | type => cases opens

end

theorem Stands.data_of_member {model : Model} {scope : Scope} {kind : MemberKind} {id : MemberId} {key : MemberKey}
    {outer : List Scope} (stands : scope.Stands model (.member kind id key :: outer)) :
    kind = .property ∨ kind = .event := by
  cases scope with
  | assembly => cases stands
  | space =>
    obtain ⟨_, _, kinds, _⟩ := stands
    simp [Scopes.innermostKind?, Scope.kind] at kinds
  | type =>
    obtain ⟨_, _, _, _, same⟩ := stands
    cases same
  | member =>
    obtain ⟨_, _, _, _, ⟨_, _, same⟩ | ⟨_, _, _, _, _, _, data, same, _⟩⟩ := stands
    · cases same
    · cases same
      exact data

end Scope

theorem Stack.Nested.stands {inner outer : Stack} {opening : Opening} (nested : (inner ++ opening :: outer).Nested) :
    opening.Stands outer := by
  induction inner with
  | nil => exact nested.1
  | cons _ rest ih => exact ih nested.2

namespace Builder

variable {builder : Builder}

theorem stands_of_reachable (reached : builder.Reachable) {inner outer : List Scope} {scope : Scope}
    (split : builder.scopes = inner ++ scope :: outer) : scope.Stands builder.model outer := by
  have good := reached.good
  have openings : builder.stack = Stack.of inner ++ scope.opening :: Stack.of outer := by
    simp [stack, Stack.of, split]
  have stands : scope.opening.Stands (Stack.of outer) := (openings ▸ reached.inOrder.nested).stands
  have names := good.named scope (by simp [split])
  have around : ∀ other ∈ outer, other.Names builder.model :=
    fun other member => good.named other (by simp [split, member])
  cases scope with
  | assembly id key => exact List.map_eq_nil_iff.mp stands
  | space id key => exact Scope.stands_space good.formed around names stands
  | type id key => exact Scope.stands_type good.formed around names stands
  | member kind id key =>
    obtain ⟨node, held, rfl, kinded⟩ := names
    have opened := reached.inOrder.opened (openings ▸ List.mem_append_right _ List.mem_cons_self)
    rw [good.formed.view_member held] at opened
    exact ⟨node, held, kinded, by simpa [MemberNode.isPlaceholder, Model.memberFacts] using opened,
      Scope.stands_member good.formed around held stands⟩

/-- Nothing can be opened inside a field or a method. -/
theorem innermost_of_reachable (reached : builder.Reachable) {inner outer : List Scope} {kind : MemberKind}
    {id : MemberId} {key : MemberKey} (split : builder.scopes = inner ++ .member kind id key :: outer)
    (leaf : kind = .field ∨ kind = .method) : inner = [] := by
  rcases inner.eq_nil_or_concat with none | ⟨front, next, rfl⟩
  · exact none
  · -- the scope directly inside would have to be an accessor's
    have split' : builder.scopes = front ++ next :: .member kind id key :: outer := by simp [split]
    have data := (stands_of_reachable reached split').data_of_member
    rcases leaf with rfl | rfl <;> simp at data

theorem home_of_reachable (reached : builder.Reachable) {assembly : AssemblyId} {assemblyKey : AssemblyKey}
    {space : NamespaceId} {key : NamespaceKey} (opened : .assembly assembly assemblyKey ∈ builder.scopes)
    (opened' : .space space key ∈ builder.scopes) :
    ∃ node, builder.model.space? space = some node ∧ node.assembly = assembly := by
  obtain ⟨inner, outer, split⟩ := List.append_of_mem opened'
  obtain ⟨node, held, _, home⟩ := stands_of_reachable reached split
  refine ⟨node, held, home assembly assemblyKey ?_⟩
  rw [split] at opened
  rcases List.mem_append.mp opened with above | here
  · -- an assembly has nothing around it
    obtain ⟨front, back, rfl⟩ := List.append_of_mem above
    have alone : back ++ .space space key :: outer = [] :=
      stands_of_reachable reached (split.trans (List.append_assoc front _ _))
    simp at alone
  · exact (List.mem_cons.mp here).resolve_left (by simp)

end Builder

namespace Op

structure Task where
  kind : MemberKind
  change : MemberChange
  /-- The member, where it is not the innermost open one of its kind. -/
  named : Option MemberKey := none

def task? : Op → Option Task
  | .startMethod key signatureOnly => some ⟨.method, .opened signatureOnly, some key⟩
  | .startField key => some ⟨.field, .opened false, some key⟩
  | .startProperty key => some ⟨.property, .opened false, some key⟩
  | .startEvent key => some ⟨.event, .opened false, some key⟩
  | .setPrototype returns parameters => some ⟨.method, .prototype returns parameters, none⟩
  | .setMethodFlags flags => some ⟨.method, .flags flags, none⟩
  | .setFieldType type => some ⟨.field, .declaredType type, none⟩
  | .setPropertyType type => some ⟨.property, .declaredType type, none⟩
  | .setEventType type => some ⟨.event, .declaredType type, none⟩
  | .setAccessor slot owner accessor => some ⟨slot.ownerKind, .accessor slot accessor, some owner⟩
  | _ => none

def Task.member? (task : Task) (stack : Stack) : Option MemberKey := task.named.or (stack.openMember? task.kind)

/-- The edits change the member of the task once, and its kind is ensured by them or known from the stack. -/
structure Task.FilledIn (task : Task) (stack : Stack) (edits : List Edit) (key : MemberKey) : Prop where
  found : task.member? stack = some key
  changes : Edit.memberChanges key edits = [task.change]
  kinded : .ensureMember task.kind key ∈ edits ∨ .member task.kind key ∈ stack

variable {stack after : Stack} {edits : List Edit}

theorem memberChanges_last {ensured : List Edit} (quiet : Edit.Within (fun _ => False) ensured) (key : MemberKey)
    (change : MemberChange) : Edit.memberChanges key (ensured ++ [.onMember key change]) = [change] := by
  have none : Edit.memberChanges key ensured = [] := quiet.memberChanges_eq_nil id
  rw [Edit.memberChanges, List.filterMap_append, ← Edit.memberChanges, none]
  exact List.filterMap_cons_some (if_pos rfl)

theorem filledIn_trackMember {kind : MemberKind} {key : MemberKey} {signatureOnly : Bool}
    (tracked : trackMember kind key signatureOnly stack = .ok (edits, after)) :
    Task.FilledIn ⟨kind, .opened signatureOnly, some key⟩ stack edits key := by
  obtain ⟨_, _, same⟩ := exists_of_map_ok tracked
  cases same
  exact ⟨rfl, memberChanges_last (.ensure rfl .nil) key _, by simp⟩

theorem filledIn_openMember {filling : Filling} {kind : MemberKind} {change : MemberChange} (ensured : List Edit)
    (quiet : Edit.Within (fun _ => False) ensured)
    (tracked : ((stack.memberToFill filling kind).map fun key => (ensured ++ [.onMember key change], stack)) =
      .ok (edits, after)) : ∃ key, Task.FilledIn ⟨kind, change, none⟩ stack edits key := by
  obtain ⟨key, filled, same⟩ := exists_of_map_ok tracked
  cases same
  unfold Stack.memberToFill at filled
  split at filled
  next opened =>
    cases filled
    exact ⟨key, opened, memberChanges_last quiet key change, .inr (Stack.mem_of_openMember? opened)⟩
  next => cases filled

theorem filledIn_of_track {op : Op} {task : Task} (tasked : op.task? = some task)
    (tracked : op.track stack = .ok (edits, after)) : ∃ key, task.FilledIn stack edits key := by
  cases op with
  | startMethod | startField | startProperty | startEvent =>
    cases tasked
    exact ⟨_, filledIn_trackMember tracked⟩
  | setPrototype returns parameters =>
    cases tasked
    exact filledIn_openMember _ (.append (.map_ensureType _) (.map_ensureType _)) tracked
  | setMethodFlags flags =>
    cases tasked
    exact filledIn_openMember [] .nil tracked
  | setFieldType type | setPropertyType type | setEventType type =>
    cases tasked
    exact filledIn_openMember [.ensureType type] (.ensure rfl .nil) tracked
  | setAccessor slot owner accessor =>
    cases tasked
    cases tracked
    exact ⟨owner, rfl, memberChanges_last (.ensure rfl (.ensure rfl .nil)) owner _, by simp⟩
  | startAssembly | startSpace | startType | close | setTypeFlags | setBaseType | addInterface | useType | useNode
  | addAttribute => cases tasked

end Op

namespace Builder

variable {builder : Builder}

/-- A step that succeeds has found a member of the right kind for its task, and has changed what is said of it. -/
theorem task_done (reached : builder.Reachable) {op : Op} {reply : Reply} {after : Builder}
    (ends : op.perform builder = (.ok reply, after)) {task : Op.Task} (tasked : op.task? = some task) :
    ∃ key node, task.member? builder.stack = some key ∧ after.model.findMember? key = some node ∧
      node.kind = task.kind ∧ after.model.memberFacts node = task.change.apply (builder.model.view.member key) := by
  have good := reached.good
  have performs := perform_performs good op
  rw [ends] at performs
  generalize tracks : op.track builder.stack = tracked at performs
  cases performs with
  | done _ _ good' left admits becomes =>
    obtain ⟨key, filledIn⟩ := Op.filledIn_of_track tasked tracks
    -- the kind was ensured by the step itself, or the member is open under it
    have kinds : after.model.view.kinds key = some task.kind := by
      rw [becomes.view, View.kinds_applyAll admits]
      refine filledIn.kinded.symm.imp_left fun opened => ?_
      obtain ⟨id, scope⟩ := mem_scopes_of_mem_stack opened
      exact (good.formed.view_kinds_eq_some_iff key task.kind).mpr ⟨id, good.named _ scope⟩
    obtain ⟨id, node, held, rfl, kinded⟩ := (good'.formed.view_kinds_eq_some_iff key task.kind).mp kinds
    refine ⟨node.key, node, filledIn.found, good'.formed.find_member held, kinded, ?_⟩
    rw [← good'.formed.view_member held, becomes.view, View.member_applyAll, filledIn.changes]
    rfl

theorem perform_ne_strayAccessor (reached : builder.Reachable) (op : Op) (key : MemberKey) :
    (op.perform builder).1 ≠ .error (.violation (.strayAccessor key)) := by
  have performs := perform_performs reached.good op
  generalize tracks : op.track builder.stack = tracked at performs
  generalize op.perform builder = ended at performs
  cases performs with
  | refused cause =>
    intro same
    cases same
    exact Op.track_ne_strayAccessor reached.inOrder.nested op key tracks
  | done => simp
  | blocked fault after stops =>
    obtain ⟨member, found, expected, rfl⟩ := stops.mismatch
    simp

/-- The scopes are nested as their nodes own one another, the rule about accessors without a type never applies, and a
step with a task finds a member that it can be done to. -/
structure Orderly (builder : Builder) : Prop where
  stands : ∀ {inner scope outer}, builder.scopes = inner ++ scope :: outer → scope.Stands builder.model outer
  leaf : ∀ {inner kind id key outer}, builder.scopes = inner ++ .member kind id key :: outer →
    kind = .field ∨ kind = .method → inner = []
  home : ∀ {assembly assemblyKey space key}, .assembly assembly assemblyKey ∈ builder.scopes →
    .space space key ∈ builder.scopes → ∃ node, builder.model.space? space = some node ∧ node.assembly = assembly
  noStrayAccessor : ∀ (op : Op) (key : MemberKey), (op.perform builder).1 ≠ .error (.violation (.strayAccessor key))
  tasks : ∀ {op : Op} {reply : Reply} {after : Builder}, op.perform builder = (.ok reply, after) →
    ∀ {task}, op.task? = some task → ∃ key node, task.member? builder.stack = some key ∧
      after.model.findMember? key = some node ∧ node.kind = task.kind ∧
      after.model.memberFacts node = task.change.apply (builder.model.view.member key)

theorem orderly_of_reachable (reached : builder.Reachable) : builder.Orderly where
  stands := stands_of_reachable reached
  leaf := innermost_of_reachable reached
  home := home_of_reachable reached
  noStrayAccessor := perform_ne_strayAccessor reached
  tasks := task_done reached

/-- The getter of a circle's area is open inside the property, where a field could not be opened. -/
def measuring : Builder :=
  let plane : NamespaceKey := ⟨⟨"shapes"⟩, "plane"⟩
  let circle : TypeKey := { space := plane, name := "Circle" }
  replay [.startAssembly plane.assembly false, .startSpace plane, .startType circle false,
    .startProperty ⟨circle, "area", none⟩, .startField ⟨circle, "radius", none⟩,
    .startMethod ⟨circle, "get_area", some {}⟩ true]

theorem orderly_of_reachable_measuring :
    measuring.scopes.map Scope.kind = [.member .method, .member .property, .type, .space, .assembly] ∧
      measuring.Orderly :=
  ⟨by decide +kernel, orderly_of_reachable (reachable_replay _)⟩

end Builder

end UsageGraph
