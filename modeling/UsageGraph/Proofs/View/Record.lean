import UsageGraph.Proofs.View.Ensure

/-! What holders record, as edits of the view.

Ids that stand for different keys are different, so that adding an id once to a list adds
its key once, and a usage that a set takes in adds the key of its target.
-/

set_option autoImplicit false
namespace UsageGraph.Model

variable {model : Model}

section Keys

variable (formed : model.WellFormed)
include formed

theorem typeKey?_injective {first second : TypeId} {key : TypeKey} (named : model.typeKey? first = some key)
    (named' : model.typeKey? second = some key) : first = second := by
  obtain ⟨node, held, rfl⟩ := Option.map_eq_some_iff.mp named
  obtain ⟨other, held', same⟩ := Option.map_eq_some_iff.mp named'
  exact formed.types_indexed.unique held held' same.symm

theorem filterMap_addOnce {id : TypeId} {key : TypeKey} (named : model.typeKey? id = some key) (ids : List TypeId) :
    (addOnce ids id).filterMap model.typeKey? = addKeyOnce (ids.filterMap model.typeKey?) key := by
  unfold addOnce addKeyOnce
  by_cases present : id ∈ ids
  · have present' : key ∈ ids.filterMap model.typeKey? := List.mem_filterMap.mpr ⟨id, present, named⟩
    rw [if_pos present, if_pos present']
  · have absent : key ∉ ids.filterMap model.typeKey? := by
      intro member
      obtain ⟨other, member, named'⟩ := List.mem_filterMap.mp member
      exact present (typeKey?_injective formed named named' ▸ member)
    rw [if_neg present, if_neg absent]
    simp [named]

end Keys

theorem mem_addOnce {ids : List TypeId} {id other : TypeId} : other ∈ addOnce ids id ↔ other ∈ ids ∨ other = id := by
  unfold addOnce
  split
  · next present =>
    constructor
    · exact .inl
    · rintro (member | rfl)
      · exact member
      · exact present
  · simp

theorem target_of_usageOf? {target : NodeRef} {usage : Usage} (recorded : model.usageOf? target = some usage) :
    usage.target = target := by
  cases target with
  | type id => obtain ⟨node, _, rfl⟩ := Option.map_eq_some_iff.mp recorded; rfl
  | member id => obtain ⟨node, _, rfl⟩ := Option.map_eq_some_iff.mp recorded; rfl

theorem usedKeys_insert {target : NodeRef} {usage : Usage} {key : NodeKey}
    (recorded : model.usageOf? target = some usage) (named : model.nodeKey? target = some key) {set : UsageSet}
    (indexed : set.Indexed) : model.usedKeys (set.insert usage) = insert key (model.usedKeys set) := by
  ext other
  simp only [usedKeys, Set.mem_ofPred_eq, Set.mem_insert_iff, indexed.mem_targets_insert,
    target_of_usageOf? recorded]
  constructor
  · rintro ⟨found, member | rfl, named'⟩
    · exact .inr ⟨found, member, named'⟩
    · exact .inl (Option.some.inj (named'.symm.trans named))
  · rintro (rfl | ⟨found, member, named'⟩)
    · exact ⟨target, .inr rfl, named⟩
    · exact ⟨found, .inl member, named'⟩

theorem Backs.insert {set : UsageSet} {target : NodeRef} {usage : Usage} (backed : model.Backs set)
    (recorded : model.usageOf? target = some usage) : model.Backs (set.insert usage) where
  accurate other member := by
    rw [backed.indexed.toList_insert] at member
    split at member
    · exact backed.accurate other member
    · rcases List.mem_append.mp member with member | member
      · exact backed.accurate other member
      · rw [List.mem_singleton.mp member, target_of_usageOf? recorded, recorded]
  distinct := backed.indexed.nodup_insert backed.distinct usage
  indexed := backed.indexed.insert usage

section Content

variable (formed : model.WellFormed)
include formed

theorem modifyType_becomes {id : TypeId} {node : TypeNode} {key : TypeKey} (held : model.type? id = some node)
    (named : node.key = key) {change : TypeNode → TypeNode} (edit : TypeChange)
    (keeps : ∀ node, KeepsType node (change node)) (backed : model.BacksType (change node))
    (edits : model.typeFacts (change node) = edit.apply (model.typeFacts node)) :
    model.Becomes (model.modifyType id change) [.onType key edit] where
  formed := by
    refine formed.modifyType keeps fun before at_before => ?_
    obtain rfl : node = before := Option.some.inj (held.symm.trans at_before)
    exact backed
  grows := Grows.modifyType keeps
  view := by
    subst named
    exact view_modifyType formed keeps held backed edits
  spares := named ▸ .modifyType held change edit

theorem modifyMember_becomes {id : MemberId} {node : MemberNode} {key : MemberKey} (held : model.member? id = some node)
    (named : node.key = key) {change : MemberNode → MemberNode} (edit : MemberChange)
    (keeps : ∀ node, KeepsMember node (change node)) (backed : model.BacksMember (change node))
    (edits : model.memberFacts (change node) = edit.apply (model.memberFacts node)) :
    model.Becomes (model.modifyMember id change) [.onMember key edit] where
  formed := by
    refine formed.modifyMember keeps fun before at_before => ?_
    obtain rfl : node = before := Option.some.inj (held.symm.trans at_before)
    exact backed
  grows := Grows.modifyMember keeps
  view := by
    subst named
    exact view_modifyMember formed keeps held backed edits
  spares := named ▸ .modifyMember held change edit

theorem openAssembly_becomes {id : AssemblyId} {node : AssemblyNode} {key : AssemblyKey} (isDependency : Bool)
    (held : model.assembly? id = some node) (named : node.key = key) :
    model.Becomes (model.modifyAssembly id fun node => { node with isDependency := node.isDependency && isDependency })
      [.openAssembly key isDependency] := by
  subst named
  have keeps : ∀ node : AssemblyNode,
      KeepsAssembly node { node with isDependency := node.isDependency && isDependency } :=
    fun _ => ⟨rfl, rfl, rfl⟩
  refine ⟨formed.modifyAssembly keeps, Grows.modifyAssembly keeps, ?_, .modifyAssembly held _ isDependency⟩
  exact view_modifyAssembly formed keeps held
    (fun facts => { facts with isDependency := facts.isDependency && isDependency }) rfl

theorem openType_becomes {id : TypeId} {node : TypeNode} {key : TypeKey} (signatureOnly : Bool)
    (held : model.type? id = some node) (named : node.key = key) :
    model.Becomes (model.modifyType id fun node =>
        { node with visitation := node.visitation.opened signatureOnly, isExternal := false })
      [.onType key (.opened signatureOnly)] := by
  obtain ⟨base, interfaces, attributes, usages⟩ := formed.type_backed held
  exact modifyType_becomes formed held named _ (fun _ => ⟨rfl, rfl, rfl, rfl⟩)
    ⟨base, interfaces, attributes, usages⟩ rfl

theorem setFlags_becomes {id : TypeId} {node : TypeNode} {key : TypeKey} (isInterface isAbstract : Bool)
    (held : model.type? id = some node) (named : node.key = key) :
    model.Becomes (model.modifyType id fun node => { node with isInterface, isAbstract })
      [.onType key (.flags isInterface isAbstract)] := by
  obtain ⟨base, interfaces, attributes, usages⟩ := formed.type_backed held
  exact modifyType_becomes formed held named _ (fun _ => ⟨rfl, rfl, rfl, rfl⟩)
    ⟨base, interfaces, attributes, usages⟩ rfl

theorem setBase_becomes {id base : TypeId} {node other : TypeNode} {key baseKey : TypeKey}
    (held : model.type? id = some node) (named : node.key = key)
    (at_base : model.type? base = some other) (named' : other.key = baseKey) :
    model.Becomes (model.modifyType id fun node => { node with base := some base }) [.onType key (.base baseKey)] := by
  obtain ⟨_, interfaces, attributes, usages⟩ := formed.type_backed held
  refine modifyType_becomes formed held named _ (fun _ => ⟨rfl, rfl, rfl, rfl⟩) ⟨?_, interfaces, attributes, usages⟩ ?_
  · simp [at_base]
  · simp [typeFacts, TypeChange.apply, typeKey?, at_base, named']

theorem addInterface_becomes {id implemented : TypeId} {node other : TypeNode} {key interfaceKey : TypeKey}
    (held : model.type? id = some node) (named : node.key = key)
    (at_interface : model.type? implemented = some other) (named' : other.key = interfaceKey) :
    model.Becomes (model.modifyType id fun node => { node with interfaces := addOnce node.interfaces implemented })
      [.onType key (.interface interfaceKey)] := by
  obtain ⟨base, interfaces, attributes, usages⟩ := formed.type_backed held
  have keyed : model.typeKey? implemented = some interfaceKey := by simp [typeKey?, at_interface, named']
  refine modifyType_becomes formed held named _ (fun _ => ⟨rfl, rfl, rfl, rfl⟩) ⟨base, ?_, attributes, usages⟩ ?_
  · intro found member
    rcases mem_addOnce.mp member with member | rfl
    · exact interfaces found member
    · simp [at_interface]
  · simp [typeFacts, TypeChange.apply, filterMap_addOnce formed keyed]

theorem openMember_becomes {id : MemberId} {node : MemberNode} {key : MemberKey} (signatureOnly : Bool)
    (held : model.member? id = some node) (named : node.key = key) :
    model.Becomes (model.modifyMember id fun node => { node with visitation := node.visitation.opened signatureOnly })
      [.onMember key (.opened signatureOnly)] := by
  obtain ⟨declared, parameters, accessors, attributes, usages⟩ := formed.member_backed held
  exact modifyMember_becomes formed held named _ (fun _ => ⟨rfl, rfl, rfl, rfl⟩)
    ⟨declared, parameters, accessors, attributes, usages⟩ rfl

theorem setDeclared_becomes {id : MemberId} {node : MemberNode} {key : MemberKey} {declared : TypeId} {type : TypeNode}
    {typeKey : TypeKey} (held : model.member? id = some node) (named : node.key = key)
    (at_type : model.type? declared = some type) (named' : type.key = typeKey) :
    model.Becomes (model.modifyMember id fun node => { node with declaredType := some declared })
      [.onMember key (.declaredType typeKey)] := by
  obtain ⟨_, parameters, accessors, attributes, usages⟩ := formed.member_backed held
  refine modifyMember_becomes formed held named _ (fun _ => ⟨rfl, rfl, rfl, rfl⟩)
    ⟨?_, parameters, accessors, attributes, usages⟩ ?_
  · simp [at_type]
  · simp [memberFacts, MemberChange.apply, typeKey?, at_type, named']

theorem setPrototype_becomes {id : MemberId} {node : MemberNode} {key : MemberKey} {returned : Option TypeId}
    {taken : List TypeId} {returns : Option TypeKey} {parameters : List TypeKey}
    (held : model.member? id = some node) (named : node.key = key) (isMethod : node.kind = .method)
    (at_returned : ∀ id ∈ returned, (model.type? id).isSome) (returnKey : returned.bind model.typeKey? = returns)
    (at_taken : ∀ id ∈ taken, (model.type? id).isSome) (takenKeys : taken.filterMap model.typeKey? = parameters) :
    model.Becomes (model.modifyMember id fun node =>
        { node with declaredType := returned, detail := node.detail.setParameters taken })
      [.onMember key (.prototype returns parameters)] := by
  obtain ⟨_, _, accessors, attributes, usages⟩ := formed.member_backed held
  have detail : node.detail.setParameters taken = .method taken node.detail.flags := by
    rw [MemberDetail.eq_method_of_kind isMethod]
    rfl
  refine modifyMember_becomes formed held named _ (fun _ => ⟨rfl, rfl, rfl, by simp [MemberNode.kind]⟩)
    ⟨at_returned, ?_, ?_, attributes, usages⟩ ?_
  · simpa only [detail, MemberDetail.parameters] using at_taken
  · intro slot
    cases slot <;> simp [detail, MemberDetail.accessor?]
  · simp only [memberFacts, MemberChange.apply, detail, MemberDetail.accessor?_of_method isMethod, returnKey,
      ← takenKeys]
    congr 1
    funext slot
    cases slot <;> rfl

theorem setMethodFlags_becomes {id : MemberId} {node : MemberNode} {key : MemberKey} (flags : MethodFlags)
    (held : model.member? id = some node) (named : node.key = key) (isMethod : node.kind = .method) :
    model.Becomes (model.modifyMember id fun node => { node with detail := node.detail.setFlags flags })
      [.onMember key (.flags flags)] := by
  obtain ⟨declared, parameters, accessors, attributes, usages⟩ := formed.member_backed held
  have detail : node.detail.setFlags flags = .method node.detail.parameters flags := by
    rw [MemberDetail.eq_method_of_kind isMethod]
    rfl
  refine modifyMember_becomes formed held named _ (fun _ => ⟨rfl, rfl, rfl, by simp [MemberNode.kind]⟩)
    ⟨declared, ?_, ?_, attributes, usages⟩ ?_
  · simpa only [detail, MemberDetail.parameters] using parameters
  · intro slot
    cases slot <;> simp [detail, MemberDetail.accessor?]
  · simp only [memberFacts, MemberChange.apply, detail, MemberDetail.accessor?_of_method isMethod]
    congr 1
    funext slot
    cases slot <;> rfl

theorem setAccessor_becomes {id accessor : MemberId} {node method : MemberNode} {key accessorKey : MemberKey}
    {slot : Slot}
    (held : model.member? id = some node) (named : node.key = key) (fits : node.kind = slot.ownerKind)
    (at_method : model.member? accessor = some method) (named' : method.key = accessorKey)
    (isMethod : method.kind = .method) :
    model.Becomes (model.modifyMember id fun node => { node with detail := node.detail.setAccessor slot accessor })
      [.onMember key (.accessor slot accessorKey)] := by
  obtain ⟨declared, parameters, accessors, attributes, usages⟩ := formed.member_backed held
  refine modifyMember_becomes formed held named _ (fun _ => ⟨rfl, rfl, rfl, by simp [MemberNode.kind]⟩)
    ⟨declared, by simpa using parameters, ?_, attributes, usages⟩ ?_
  · intro other found
    rw [MemberDetail.accessor?_setAccessor fits]
    split
    · intro member
      obtain rfl := Option.some.inj member
      exact ⟨method, at_method, by simp [MemberNode.isMethod, isMethod]⟩
    · exact accessors other found
  · simp only [memberFacts, MemberChange.apply, MemberDetail.parameters_setAccessor, MemberDetail.flags_setAccessor,
      MemberDetail.accessor?_setAccessor fits]
    congr 1
    funext other
    rw [Function.update_apply]
    split
    · simp [memberKey?, at_method, named']
    · rfl

theorem recordUsage_becomes {holder target : NodeRef} {holderKey targetKey : NodeKey}
    (holds : model.nodeKey? holder = some holderKey) (named : model.nodeKey? target = some targetKey) :
    model.Becomes (model.recordUsage holder target) [.use holderKey targetKey] := by
  obtain ⟨usage, recorded⟩ : ∃ usage, model.usageOf? target = some usage := by
    cases target with
    | type id => obtain ⟨node, held, _⟩ := Option.map_eq_some_iff.mp named; exact ⟨_, by simp [usageOf?, held]; rfl⟩
    | member id => obtain ⟨node, held, _⟩ := Option.map_eq_some_iff.mp named; exact ⟨_, by simp [usageOf?, held]; rfl⟩
  unfold recordUsage
  simp only [recorded]
  cases holder with
  | type id =>
    obtain ⟨node, held, rfl⟩ := Option.map_eq_some_iff.mp holds
    obtain ⟨base, interfaces, attributes, usages⟩ := formed.type_backed held
    refine modifyType_becomes formed held rfl _ (fun _ => ⟨rfl, rfl, rfl, rfl⟩)
      ⟨base, interfaces, attributes, usages.insert recorded⟩ ?_
    simp [typeFacts, TypeChange.apply, usedKeys_insert recorded named usages.indexed]
  | member id =>
    obtain ⟨node, held, rfl⟩ := Option.map_eq_some_iff.mp holds
    obtain ⟨declared, parameters, accessors, attributes, usages⟩ := formed.member_backed held
    refine modifyMember_becomes formed held rfl _ (fun _ => ⟨rfl, rfl, rfl, rfl⟩)
      ⟨declared, parameters, accessors, attributes, usages.insert recorded⟩ ?_
    simp [memberFacts, MemberChange.apply, usedKeys_insert recorded named usages.indexed]

theorem recordAttribute_becomes {holder : NodeRef} {holderKey : NodeKey} {id : TypeId} {type : TypeNode} {key : TypeKey}
    (holds : model.nodeKey? holder = some holderKey) (at_type : model.type? id = some type) (named : type.key = key) :
    model.Becomes (model.recordAttribute holder id) [.attributed holderKey key] := by
  have keyed : model.typeKey? id = some key := by simp [typeKey?, at_type, named]
  have grown : ∀ {ids : List TypeId}, (∀ id ∈ ids, (model.type? id).isSome) →
      ∀ other ∈ addOnce ids id, (model.type? other).isSome := by
    intro ids present other member
    rcases mem_addOnce.mp member with member | rfl
    · exact present other member
    · simp [at_type]
  unfold recordAttribute
  cases holder with
  | type holder =>
    obtain ⟨node, held, rfl⟩ := Option.map_eq_some_iff.mp holds
    obtain ⟨base, interfaces, attributes, usages⟩ := formed.type_backed held
    refine modifyType_becomes formed held rfl _ (fun _ => ⟨rfl, rfl, rfl, rfl⟩)
      ⟨base, interfaces, grown attributes, usages⟩ ?_
    simp [typeFacts, TypeChange.apply, filterMap_addOnce formed keyed]
  | member holder =>
    obtain ⟨node, held, rfl⟩ := Option.map_eq_some_iff.mp holds
    obtain ⟨declared, parameters, accessors, attributes, usages⟩ := formed.member_backed held
    refine modifyMember_becomes formed held rfl _ (fun _ => ⟨rfl, rfl, rfl, rfl⟩)
      ⟨declared, parameters, accessors, grown attributes, usages⟩ ?_
    simp [memberFacts, MemberChange.apply, filterMap_addOnce formed keyed]

end Content

end UsageGraph.Model
