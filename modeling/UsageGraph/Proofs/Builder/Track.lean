import UsageGraph.Builder.Op
import UsageGraph.Proofs.View

/-! Building steps without a model.

What a step does to the open scopes and which edits it makes is decided by the keys of
the open scopes alone. So a list of steps can be followed before there is a model: it
either breaks the rules of nesting somewhere, or it amounts to a list of edits.
-/

set_option autoImplicit false
namespace UsageGraph

def Scope.opening : Scope → Opening
  | .assembly _ key => .assembly key
  | .space _ key => .space key
  | .type _ key => .type key
  | .member kind _ key => .member kind key

/-- A scope for an opening; the rules of nesting do not look at its id. -/
def Opening.scope : Opening → Scope
  | .assembly key => .assembly ⟨0⟩ key
  | .space key => .space ⟨0⟩ key
  | .type key => .type ⟨0⟩ key
  | .member kind key => .member kind ⟨0⟩ key

def Opening.holder? : Opening → Option NodeKey
  | .type key => some (.type key)
  | .member kind key => some (.member kind key)
  | _ => none

/-- The openings of the open scopes, innermost first. -/
abbrev Stack := List Opening

namespace Stack

def scopes (stack : Stack) : List Scope := stack.map Opening.scope

def openType? (stack : Stack) : Option TypeKey :=
  stack.findSome? fun
    | .type key => some key
    | _ => none

def openMember? (kind : MemberKind) (stack : Stack) : Option MemberKey :=
  stack.findSome? fun
    | .member found key => if found = kind then some key else none
    | _ => none

def typeToFill (filling : Filling) (stack : Stack) : Except Violation TypeKey :=
  match stack.openType? with
  | some key => .ok key
  | none => .error (.noOpenType filling)

def memberToFill (filling : Filling) (kind : MemberKind) (stack : Stack) : Except Violation MemberKey :=
  match stack.openMember? kind with
  | some key => .ok key
  | none => .error (.noOpenMember filling kind)

def holder (filling : Filling) (stack : Stack) : Except Violation NodeKey :=
  match stack.head?.bind Opening.holder? with
  | some key => .ok key
  | none => .error (.noHolder filling (Scopes.innermostKind? stack.scopes))

end Stack

abbrev Tracked := Except Violation (List Edit × Stack)

theorem exists_of_map_ok {ε α β : Type} {f : α → β} {result : Except ε α} {mapped : β}
    (ok : result.map f = .ok mapped) : ∃ value, result = .ok value ∧ f value = mapped := by
  cases result with
  | error => cases ok
  | ok value => exact ⟨value, rfl, Except.ok.inj ok⟩

theorem error_of_map_error {ε α β : Type} {f : α → β} {result : Except ε α} {cause : ε}
    (failed : result.map f = .error cause) : result = .error cause := by
  cases result with
  | ok => cases failed
  | error => exact congrArg Except.error (Except.error.inj failed)

namespace Op

def trackMember (kind : MemberKind) (key : MemberKey) (signatureOnly : Bool) (stack : Stack) : Tracked :=
  (Scopes.admitMember kind key stack.scopes).map fun _ =>
    ([.ensureMember kind key, .onMember key (.opened signatureOnly)], .member kind key :: stack)

def trackDeclaredType (kind : MemberKind) (type : TypeKey) (stack : Stack) : Tracked :=
  (stack.memberToFill (.declaredType kind) kind).map fun key =>
    ([.ensureType type, .onMember key (.declaredType type)], stack)

def track : Op → Stack → Tracked
  | .startAssembly key isDependency, stack => (Scopes.admitAssembly key stack.scopes).map fun _ =>
    ([.ensureAssembly key, .openAssembly key isDependency], .assembly key :: stack)
  | .startSpace key, stack => (Scopes.admitSpace key stack.scopes).map fun _ =>
    ([.ensureSpace key], .space key :: stack)
  | .startType key signatureOnly, stack => (Scopes.admitType key stack.scopes).map fun _ =>
    ([.ensureType key, .onType key (.opened signatureOnly)], .type key :: stack)
  | .startMethod key signatureOnly, stack => trackMember .method key signatureOnly stack
  | .startField key, stack => trackMember .field key false stack
  | .startProperty key, stack => trackMember .property key false stack
  | .startEvent key, stack => trackMember .event key false stack
  | .close kind, stack => (Scopes.close kind stack.scopes).map fun _ => ([], stack.tail)
  | .setTypeFlags isInterface isAbstract, stack => (stack.typeToFill .typeFlags).map fun key =>
    ([.onType key (.flags isInterface isAbstract)], stack)
  | .setBaseType base, stack => (stack.typeToFill .baseType).map fun key =>
    ([.ensureType base, .onType key (.base base)], stack)
  | .addInterface implemented, stack => (stack.typeToFill .implementedInterface).map fun key =>
    ([.ensureType implemented, .onType key (.interface implemented)], stack)
  | .setPrototype returns parameters, stack => (stack.memberToFill .prototype .method).map fun key =>
    (returns.toList.map .ensureType ++ parameters.map .ensureType ++
      [.onMember key (.prototype returns parameters)], stack)
  | .setMethodFlags flags, stack => (stack.memberToFill .methodFlags .method).map fun key =>
    ([.onMember key (.flags flags)], stack)
  | .setFieldType type, stack => trackDeclaredType .field type stack
  | .setPropertyType type, stack => trackDeclaredType .property type stack
  | .setEventType type, stack => trackDeclaredType .event type stack
  | .setAccessor slot owner accessor, stack =>
    .ok ([.ensureMember slot.ownerKind owner, .ensureMember .method accessor,
      .onMember owner (.accessor slot accessor)], stack)
  | .useType type, stack => (stack.holder .usedType).map fun holder =>
    ([.ensureType type, .use holder (.type type)], stack)
  | .useNode target, stack => (stack.holder .usedNode).map fun holder =>
    ([.ensureNode target, .use holder target], stack)
  | .addAttribute type, stack => (stack.holder .attachedAttribute).map fun holder =>
    ([.ensureType type, .attributed holder type], stack)

def trackAll : List Op → Stack → Option (List Edit × Stack)
  | [], stack => some ([], stack)
  | op :: rest, stack =>
    match op.track stack with
    | .ok (edits, stack) => (trackAll rest stack).map fun later => (edits ++ later.1, later.2)
    | .error _ => none

theorem trackAll_append (first second : List Op) (stack : Stack) :
    trackAll (first ++ second) stack = (trackAll first stack).bind fun done =>
      (trackAll second done.2).map fun later => (done.1 ++ later.1, later.2) := by
  induction first generalizing stack with
  | nil => simp [trackAll]
  | cons op rest ih =>
    simp only [List.cons_append, trackAll]
    cases op.track stack with
    | error cause => rfl
    | ok done =>
      simp only [ih, Option.map_bind, Option.bind_map]
      congr 1
      funext later
      simp [Function.comp_def]

end Op

theorem Scope.kind_scope_opening (scope : Scope) : scope.opening.scope.kind = scope.kind := by
  cases scope <;> rfl

namespace Stack

variable (scopes : List Scope)

def of (scopes : List Scope) : Stack := scopes.map Scope.opening

theorem innermostKind?_of : Scopes.innermostKind? (of scopes).scopes = Scopes.innermostKind? scopes := by
  cases scopes with
  | nil => rfl
  | cons innermost outer => simp [Scopes.innermostKind?, of, Stack.scopes, Scope.kind_scope_opening]

theorem openAssembly?_of : Scopes.openAssembly? (of scopes).scopes = Scopes.openAssembly? scopes := by
  induction scopes with
  | nil => rfl
  | cons scope rest ih =>
    cases scope <;> simp_all [Scopes.openAssembly?, of, Stack.scopes, Scope.opening, Opening.scope]

theorem openType?_of : (Scopes.openType? (of scopes).scopes).map Prod.snd = (Scopes.openType? scopes).map Prod.snd := by
  induction scopes with
  | nil => rfl
  | cons scope rest ih => cases scope <;> simp_all [Scopes.openType?, of, Stack.scopes, Scope.opening, Opening.scope]

theorem admitAssembly_of (key : AssemblyKey) :
    Scopes.admitAssembly key (of scopes).scopes = Scopes.admitAssembly key scopes := by
  cases scopes with
  | nil => rfl
  | cons innermost outer => simp [Scopes.admitAssembly, of, Stack.scopes, Scope.kind_scope_opening]

theorem admitSpace_of (key : NamespaceKey) :
    Scopes.admitSpace key (of scopes).scopes = Scopes.admitSpace key scopes := by
  unfold Scopes.admitSpace
  rw [innermostKind?_of, openAssembly?_of]

theorem admitType_of (key : TypeKey) : Scopes.admitType key (of scopes).scopes = Scopes.admitType key scopes := by
  have kind := innermostKind?_of scopes
  cases scopes with
  | nil => rfl
  | cons innermost outer =>
    cases innermost <;> simp_all [Scopes.admitType, of, Stack.scopes, Scope.opening, Opening.scope]

theorem memberPlace_of (kind : MemberKind) (key : MemberKey) :
    Scopes.memberPlace kind key (of scopes).scopes = Scopes.memberPlace kind key scopes := by
  have place := openType?_of scopes
  have innermost := innermostKind?_of scopes
  cases scopes with
  | nil => rfl
  | cons scope outer =>
    cases scope with
    | member found id declared =>
      -- only here does the rule look further than the innermost scope
      cases first : Scopes.openType? (of (.member found id declared :: outer)).scopes <;>
        cases second : Scopes.openType? (.member found id declared :: outer) <;>
        rw [first, second] at place <;>
        cases found <;> simp_all [Scopes.memberPlace, of, Stack.scopes, Scope.opening, Opening.scope]
    | assembly | space | type => simp_all [Scopes.memberPlace, of, Stack.scopes, Scope.opening, Opening.scope]

theorem admitMember_of (kind : MemberKind) (key : MemberKey) :
    Scopes.admitMember kind key (of scopes).scopes = Scopes.admitMember kind key scopes := by
  unfold Scopes.admitMember
  rw [memberPlace_of]

/-- Two answers agree: both name one thing, by id and by key, or both are the same violation. -/
inductive Agrees {α κ : Type} (same : α → κ → Prop) : Except Violation α → Except Violation κ → Prop
  | ok {answer : α} {key : κ} (related : same answer key) : Agrees same (.ok answer) (.ok key)
  | error (cause : Violation) : Agrees same (.error cause) (.error cause)

theorem Agrees.refl {α : Type} (answer : Except Violation α) : Agrees (fun _ _ => True) answer answer := by
  cases answer with
  | ok answer => exact .ok trivial
  | error cause => exact .error cause

theorem typeToFill_of (filling : Filling) :
    Agrees (fun id key => Scope.type id key ∈ scopes) (Scopes.typeToFill filling scopes)
      ((of scopes).typeToFill filling) := by
  unfold Scopes.typeToFill Stack.typeToFill
  induction scopes with
  | nil => exact .error _
  | cons scope rest ih =>
    cases scope with
    | type id key => exact .ok (by simp)
    | assembly | space | member =>
      simp only [Scopes.openType?, openType?, of, List.map_cons, Scope.opening, List.findSome?_cons, List.mem_cons,
        reduceCtorEq, false_or] at ih ⊢
      exact ih

theorem memberToFill_of (filling : Filling) (kind : MemberKind) :
    Agrees (fun id key => Scope.member kind id key ∈ scopes) (Scopes.memberToFill filling kind scopes)
      ((of scopes).memberToFill filling kind) := by
  unfold Scopes.memberToFill Stack.memberToFill
  induction scopes with
  | nil => exact .error _
  | cons scope rest ih =>
    cases scope with
    | member found id key =>
      by_cases same : found = kind
      · simp only [Scopes.openMember?, openMember?, of, List.map_cons, Scope.opening, List.findSome?_cons, same,
          if_true]
        exact .ok (by simp)
      · simp only [Scopes.openMember?, openMember?, of, List.map_cons, Scope.opening, List.findSome?_cons, same,
          if_false,
          List.mem_cons, Scope.member.injEq, Ne.symm same, false_and, false_or] at ih ⊢
        exact ih
    | assembly | space | type =>
      simp only [Scopes.openMember?, openMember?, of, List.map_cons, Scope.opening, List.findSome?_cons, List.mem_cons,
        reduceCtorEq, false_or] at ih ⊢
      exact ih

def Holds (scopes : List Scope) (node : NodeRef) (key : NodeKey) : Prop :=
  ∃ scope ∈ scopes, scope.holder? = some node ∧ scope.opening.holder? = some key

theorem holder_of (filling : Filling) :
    Agrees (Holds scopes) (Scopes.holder filling scopes) ((of scopes).holder filling) := by
  unfold Scopes.holder Stack.holder
  rw [innermostKind?_of]
  cases scopes with
  | nil => exact .error _
  | cons scope rest =>
    cases scope with
    | type id key => exact .ok ⟨_, List.mem_cons_self, rfl, rfl⟩
    | member kind id key => exact .ok ⟨_, List.mem_cons_self, rfl, rfl⟩
    | assembly | space => exact .error _

end Stack

end UsageGraph
