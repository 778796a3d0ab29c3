import UsageGraph.Proofs.Builder.Track

/-! Steps that stay inside an assembly.

While an assembly is open, only its own namespaces can be opened, and so only its own types
and members. Steps fill in what is open, except that an accessor is linked whether or not
its owner is open. So, apart from links with an owner elsewhere, everything that steps
change while an assembly is open belongs to this assembly.
-/

set_option autoImplicit false
namespace UsageGraph

def Opening.home : Opening → AssemblyKey
  | .assembly key => key
  | .space key => key.assembly
  | .type key => key.assembly
  | .member _ key => key.owner.assembly

/-- The assembly of the node whose content is changed is the given one; ensuring changes no content. -/
def Edit.Inside (assembly : AssemblyKey) : Edit → Prop
  | .openAssembly key _ => key = assembly
  | .onType key _ => key.assembly = assembly
  | .onMember key _ => key.owner.assembly = assembly
  | .ensureAssembly _ | .ensureSpace _ | .ensureType _ | .ensureMember .. => True

/-- The assembly is open, and nothing else is but nodes of it. -/
structure Stack.Inside (assembly : AssemblyKey) (stack : Stack) : Prop where
  within : Scopes.openAssembly? stack.scopes = some assembly
  all : ∀ opening ∈ stack, opening.home = assembly

namespace Stack

variable {assembly : AssemblyKey} {stack : Stack}

theorem inside_single (assembly : AssemblyKey) : Inside assembly [.assembly assembly] where
  within := rfl
  all := by simp [Opening.home]

theorem openAssembly?_cons {opening : Opening} (other : opening.kind ≠ .assembly) (outer : Stack) :
    Scopes.openAssembly? (scopes (opening :: outer)) = Scopes.openAssembly? outer.scopes := by
  cases opening with
  | assembly => simp [Opening.kind] at other
  | space | type | member => rfl

theorem Inside.push (inside : stack.Inside assembly) {opening : Opening} (other : opening.kind ≠ .assembly)
    (owned : opening.home = assembly) : Inside assembly (opening :: stack) where
  within := (openAssembly?_cons other stack).trans inside.within
  all := by
    intro found member
    rcases List.mem_cons.mp member with rfl | member
    · exact owned
    · exact inside.all found member

theorem Inside.pop {opening : Opening} {outer : Stack} (inside : Inside assembly (opening :: outer))
    (other : opening.kind ≠ .assembly) : outer.Inside assembly where
  within := (openAssembly?_cons other outer).symm.trans inside.within
  all found member := inside.all found (List.mem_cons_of_mem _ member)

theorem mem_of_openType? {key : TypeKey} (opened : stack.openType? = some key) : .type key ∈ stack := by
  obtain ⟨opening, member, found⟩ := List.exists_of_findSome?_eq_some opened
  cases opening with
  | type => cases found; exact member
  | assembly | space | member => cases found

theorem mem_of_openMember? {kind : MemberKind} {key : MemberKey} (opened : stack.openMember? kind = some key) :
    .member kind key ∈ stack := by
  obtain ⟨opening, member, found⟩ := List.exists_of_findSome?_eq_some opened
  cases opening with
  | member =>
    obtain ⟨rfl, rfl⟩ : _ ∧ _ := by simpa using found
    exact member
  | assembly | space | type => cases found

theorem assembly_of_admitSpace {key : NamespaceKey} {answer : Unit}
    (within : Scopes.openAssembly? stack.scopes = some assembly)
    (admitted : Scopes.admitSpace key stack.scopes = .ok answer) : key.assembly = assembly := by
  have allowed : ∀ violation : Violation,
      (if assembly = key.assembly then .ok () else .error violation) = Except.ok answer → key.assembly = assembly := by
    intro violation ok
    split at ok
    next same => exact same.symm
    next => cases ok
  unfold Scopes.admitSpace at admitted
  rw [within] at admitted
  split at admitted
  · exact allowed _ admitted
  · exact allowed _ admitted
  · exact allowed _ admitted
  · cases admitted

section Fill

variable (inside : stack.Inside assembly) {filling : Filling}
include inside

theorem Inside.typeToFill {key : TypeKey} (filled : stack.typeToFill filling = .ok key) : key.assembly = assembly := by
  unfold Stack.typeToFill at filled
  split at filled
  next opened =>
    cases filled
    exact inside.all _ (mem_of_openType? opened)
  next => cases filled

theorem Inside.memberToFill {kind : MemberKind} {key : MemberKey} (filled : stack.memberToFill filling kind = .ok key) :
    key.owner.assembly = assembly := by
  unfold Stack.memberToFill at filled
  split at filled
  next opened =>
    cases filled
    exact inside.all _ (mem_of_openMember? opened)
  next => cases filled

theorem Inside.holder {key : NodeKey} (held : stack.holder filling = .ok key) : key.typeKey.assembly = assembly := by
  unfold Stack.holder at held
  split at held
  next found =>
    cases held
    obtain ⟨opening, innermost, found⟩ := Option.bind_eq_some_iff.mp found
    have owned := inside.all opening (List.mem_of_mem_head? innermost)
    cases opening with
    | type => cases found; exact owned
    | member => cases found; exact owned
    | assembly | space => cases found
  next => cases held

theorem Inside.admitType {key : TypeKey} {answer : Unit} (admitted : Scopes.admitType key stack.scopes = .ok answer) :
    key.assembly = assembly := by
  cases stack with
  | nil => cases admitted
  | cons opening outer =>
    cases opening with
    | space space =>
      simp only [scopes, List.map_cons, Opening.scope, Scopes.admitType] at admitted
      split at admitted
      next same => exact (congrArg NamespaceKey.assembly same).symm.trans (inside.all _ List.mem_cons_self)
      next => cases admitted
    | assembly | type | member => cases admitted

theorem Inside.memberPlace {kind : MemberKind} {key : MemberKey} {owner : TypeKey}
    (placed : Scopes.memberPlace kind key stack.scopes = .ok owner) : owner.assembly = assembly := by
  have opened : ∀ (outer : Stack) {id : TypeId}, Scopes.openType? outer.scopes = some (id, owner) →
      .type owner ∈ outer := by
    intro outer id found
    obtain ⟨scope, standing, found⟩ := List.exists_of_findSome?_eq_some found
    obtain ⟨opening, listed, rfl⟩ := List.mem_map.mp standing
    cases opening with
    | type => cases found; exact listed
    | assembly | space | member => cases found
  cases stack with
  | nil => cases placed
  | cons opening outer =>
    cases opening with
    | type => cases placed; exact inside.all _ List.mem_cons_self
    | assembly | space => cases placed
    | member host hostKey =>
      -- the open type is further out, around a property or an event
      cases host with
      | method | field => cases placed
      | property | event =>
        simp only [scopes, List.map_cons, Opening.scope, Scopes.memberPlace] at placed
        split at placed
        · split at placed
          next found =>
            cases placed
            exact inside.all _ (opened (.member _ hostKey :: outer) found)
          next => cases placed
        · cases placed

theorem Inside.admitMember {kind : MemberKind} {key : MemberKey} {answer : Unit}
    (admitted : Scopes.admitMember kind key stack.scopes = .ok answer) : key.owner.assembly = assembly := by
  unfold Scopes.admitMember at admitted
  split at admitted
  next owner placed =>
    split at admitted
    next same => exact same ▸ inside.memberPlace placed
    next => cases admitted
  next => cases admitted

end Fill

end Stack

/-! ## Local steps -/

namespace Op

/-- A step that neither opens nor closes an assembly, and links accessors to members of the given one only. -/
def Local (assembly : AssemblyKey) : Op → Prop
  | .startAssembly .. => False
  | .close kind => kind ≠ .assembly
  | .setAccessor _ owner _ => owner.owner.assembly = assembly
  | _ => True

variable {assembly : AssemblyKey} {stack after : Stack} {edits : List Edit}

section Steps

variable (inside : stack.Inside assembly)
include inside

theorem inside_trackMember {kind : MemberKind} {key : MemberKey} {signatureOnly : Bool}
    (tracked : trackMember kind key signatureOnly stack = .ok (edits, after)) :
    (∀ edit ∈ edits, edit.Inside assembly) ∧ after.Inside assembly := by
  obtain ⟨_, admitted, same⟩ := exists_of_map_ok tracked
  cases same
  have owned := inside.admitMember admitted
  exact ⟨by simpa [Edit.Inside] using owned, inside.push (by simp [Opening.kind]) owned⟩

theorem inside_trackDeclaredType {kind : MemberKind} {type : TypeKey}
    (tracked : trackDeclaredType kind type stack = .ok (edits, after)) :
    (∀ edit ∈ edits, edit.Inside assembly) ∧ after.Inside assembly := by
  obtain ⟨key, filled, same⟩ := exists_of_map_ok tracked
  cases same
  exact ⟨by simpa [Edit.Inside] using inside.memberToFill filled, inside⟩

theorem inside_use {holder : NodeKey} {filling : Filling} (held : stack.holder filling = .ok holder)
    (target : NodeKey) : (Edit.use holder target).Inside assembly := by
  cases holder <;> exact inside.holder held

theorem inside_attributed {holder : NodeKey} {filling : Filling} (held : stack.holder filling = .ok holder)
    (type : TypeKey) : (Edit.attributed holder type).Inside assembly := by
  cases holder <;> exact inside.holder held

omit inside in
theorem inside_ensureNode (key : NodeKey) : (Edit.ensureNode key).Inside assembly := by
  cases key <;> trivial

/-- A local step changes nodes of the assembly only, and leaves only such nodes open. -/
theorem Local.track {op : Op} (here : op.Local assembly) (tracked : op.track stack = .ok (edits, after)) :
    (∀ edit ∈ edits, edit.Inside assembly) ∧ after.Inside assembly := by
  cases op with
  | startAssembly => exact here.elim
  | startSpace key =>
    obtain ⟨_, admitted, same⟩ := exists_of_map_ok tracked
    cases same
    have owned := Stack.assembly_of_admitSpace inside.within admitted
    exact ⟨by simp [Edit.Inside], inside.push (by simp [Opening.kind]) owned⟩
  | startType key signatureOnly =>
    obtain ⟨_, admitted, same⟩ := exists_of_map_ok tracked
    cases same
    have owned := inside.admitType admitted
    exact ⟨by simpa [Edit.Inside] using owned, inside.push (by simp [Opening.kind]) owned⟩
  | startMethod key signatureOnly => exact inside_trackMember inside tracked
  | startField key => exact inside_trackMember inside tracked
  | startProperty key => exact inside_trackMember inside tracked
  | startEvent key => exact inside_trackMember inside tracked
  | close kind =>
    obtain ⟨_, closed, same⟩ := exists_of_map_ok tracked
    cases same
    refine ⟨by simp, ?_⟩
    cases stack with
    | nil => cases closed
    | cons opening outer =>
      refine inside.pop fun assembled => ?_
      have closes : opening.scope.kind = kind := by
        simp only [Stack.scopes, List.map_cons, Scopes.close] at closed
        split at closed
        next same => exact same
        next => cases closed
      -- a local step closes no assembly
      apply here
      cases opening <;> simp_all [Opening.kind, Opening.scope, Scope.kind]
  | setTypeFlags isInterface isAbstract =>
    obtain ⟨key, filled, same⟩ := exists_of_map_ok tracked
    cases same
    exact ⟨by simpa [Edit.Inside] using inside.typeToFill filled, inside⟩
  | setBaseType base =>
    obtain ⟨key, filled, same⟩ := exists_of_map_ok tracked
    cases same
    exact ⟨by simpa [Edit.Inside] using inside.typeToFill filled, inside⟩
  | addInterface implemented =>
    obtain ⟨key, filled, same⟩ := exists_of_map_ok tracked
    cases same
    exact ⟨by simpa [Edit.Inside] using inside.typeToFill filled, inside⟩
  | setPrototype returns parameters =>
    obtain ⟨key, filled, same⟩ := exists_of_map_ok tracked
    cases same
    have owned := inside.memberToFill filled
    refine ⟨?_, inside⟩
    intro edit member
    rcases List.mem_append.mp member with member | member
    · -- the types of the prototype are ensured, wherever they belong
      rw [← List.map_append] at member
      obtain ⟨type, _, rfl⟩ := List.mem_map.mp member
      trivial
    · rw [List.mem_singleton.mp member]
      exact owned
  | setMethodFlags flags =>
    obtain ⟨key, filled, same⟩ := exists_of_map_ok tracked
    cases same
    exact ⟨by simpa [Edit.Inside] using inside.memberToFill filled, inside⟩
  | setFieldType type => exact inside_trackDeclaredType inside tracked
  | setPropertyType type => exact inside_trackDeclaredType inside tracked
  | setEventType type => exact inside_trackDeclaredType inside tracked
  | setAccessor slot owner accessor =>
    cases tracked
    exact ⟨by simpa [Edit.Inside, Local] using here, inside⟩
  | useType type =>
    obtain ⟨holder, held, same⟩ := exists_of_map_ok tracked
    cases same
    exact ⟨by simpa [Edit.Inside] using inside_use inside held (.type type), inside⟩
  | useNode target =>
    obtain ⟨holder, held, same⟩ := exists_of_map_ok tracked
    cases same
    exact ⟨by simpa [inside_ensureNode] using inside_use inside held target, inside⟩
  | addAttribute type =>
    obtain ⟨holder, held, same⟩ := exists_of_map_ok tracked
    cases same
    exact ⟨by simpa [Edit.Inside] using inside_attributed inside held type, inside⟩

end Steps

end Op

end UsageGraph
