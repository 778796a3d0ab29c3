import UsageGraph.Builder

/-! The steps of building as data, so that a traversal can list them and a history can be kept of them. -/

set_option autoImplicit false
namespace UsageGraph

inductive Op where
  | startAssembly (key : AssemblyKey) (isDependency : Bool)
  | startSpace (key : NamespaceKey)
  | startType (key : TypeKey) (signatureOnly : Bool)
  | startMethod (key : MemberKey) (signatureOnly : Bool)
  | startField (key : MemberKey)
  | startProperty (key : MemberKey)
  | startEvent (key : MemberKey)
  | close (kind : ScopeKind)
  | setTypeFlags (isInterface isAbstract : Bool)
  | setBaseType (key : TypeKey)
  | addInterface (key : TypeKey)
  | setPrototype (returns : Option TypeKey) (parameters : List TypeKey)
  | setMethodFlags (flags : MethodFlags)
  | setFieldType (key : TypeKey)
  | setPropertyType (key : TypeKey)
  | setEventType (key : TypeKey)
  | setAccessor (slot : Slot) (owner accessor : MemberKey)
  | useType (key : TypeKey)
  | useNode (key : NodeKey)
  | addAttribute (key : TypeKey)
  deriving DecidableEq

/-- What a step answers: the node that it opened or ensured, or nothing. -/
inductive Reply where
  | done
  | assembly (id : AssemblyId)
  | space (id : NamespaceId)
  | type (id : TypeId)
  | member (id : MemberId)
  deriving DecidableEq

def Op.perform : Op → Build Reply
  | .startAssembly key isDependency => .assembly <$> Builder.startAssembly key isDependency
  | .startSpace key => .space <$> Builder.startSpace key
  | .startType key signatureOnly => .type <$> Builder.startType key signatureOnly
  | .startMethod key signatureOnly => .member <$> Builder.startMember .method key signatureOnly
  | .startField key => .member <$> Builder.startMember .field key false
  | .startProperty key => .member <$> Builder.startMember .property key false
  | .startEvent key => .member <$> Builder.startMember .event key false
  | .close kind => (fun _ => .done) <$> Builder.close kind
  | .setTypeFlags isInterface isAbstract => (fun _ => .done) <$> Builder.setTypeFlags isInterface isAbstract
  | .setBaseType key => .type <$> Builder.setBaseType key
  | .addInterface key => .type <$> Builder.addInterface key
  | .setPrototype returns parameters => (fun _ => .done) <$> Builder.setPrototype returns parameters
  | .setMethodFlags flags => (fun _ => .done) <$> Builder.setMethodFlags flags
  | .setFieldType key => .type <$> Builder.setDeclaredType .field key
  | .setPropertyType key => .type <$> Builder.setDeclaredType .property key
  | .setEventType key => .type <$> Builder.setDeclaredType .event key
  | .setAccessor slot owner accessor => (fun _ => .done) <$> Builder.setAccessor slot owner accessor
  | .useType key => (fun _ => .done) <$> Builder.useType key
  | .useNode key => (fun _ => .done) <$> Builder.useNode key
  | .addAttribute key => (fun _ => .done) <$> Builder.addAttribute key

end UsageGraph
