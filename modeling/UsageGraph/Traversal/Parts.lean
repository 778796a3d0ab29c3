import UsageGraph.Traversal.Walk

/-! The parts of a type that a traversal visits, each as the building steps that model it.

Attributes and data members belong to primary visits only, and so do method bodies. A
method that the options do not allow is passed over.
-/

set_option autoImplicit false
namespace UsageGraph.Visit

def openType (options : Options) (definition : Definition) : Visit Unit := do
  step (.startSpace definition.key.space)
  step (.startType definition.key (!options.primary))
  step (.setTypeFlags definition.isInterface definition.isAbstract)

def closeType : Visit Unit := do
  step (.close .type)
  step (.close .space)

def attributes (options : Options) (keys : List TypeKey) : Visit Unit :=
  if options.primary then
    keys.forM fun key => do
      step (.addAttribute key)
      step (.useType key)
  else pure ()

def generics (definition : Definition) : Visit Unit :=
  definition.generics.forM fun parameter => do
    step (.useType parameter.key)
    useRefs parameter.constraints

def interfaces (definition : Definition) : Visit Unit :=
  definition.interfaces.forM fun implemented => do
    step (.addInterface implemented.label)
    useRef implemented

def base (definition : Definition) : Visit Unit :=
  definition.base.toList.forM fun extended => do
    step (.setBaseType extended.label)
    useRef extended

def body (options : Options) (method : MethodDecl) : Visit Unit :=
  if options.scansBodies then method.body.toList.forM fun body => emit (.scan body) else pure ()

/-- Visits a method and tells whether the options allow it. -/
def method (options : Options) (declared : MethodDecl) : Visit Bool :=
  if options.visitsMethod declared.key then do
    step (.startMethod declared.key (!options.scansBodies))
    step (.setPrototype (declared.returns.map Tree.label) (declared.parameters.map Tree.label))
    step (.setMethodFlags declared.flags)
    useRefs declared.returns.toList
    useRefs declared.parameters
    attributes options declared.attributes
    body options declared
    step (.close (.member .method))
    return true
  else return false

/-- Visits an accessor inside its property or event and links the two, if the options allow it. -/
def accessor (options : Options) (owner : MemberKey) (slot : Slot) (declared : MethodDecl) : Visit Unit := do
  if ← method options declared then
    step (.setAccessor slot owner declared.key)

def property (options : Options) (declared : PropertyDecl) : Visit Unit := do
  step (.startProperty declared.key)
  step (.setPropertyType declared.type.label)
  useRef declared.type
  attributes options declared.attributes
  declared.getter.toList.forM (accessor options declared.key .getter)
  declared.setter.toList.forM (accessor options declared.key .setter)
  step (.close (.member .property))

def field (options : Options) (declared : FieldDecl) : Visit Unit := do
  step (.startField declared.key)
  step (.setFieldType declared.type.label)
  useRef declared.type
  attributes options declared.attributes
  step (.close (.member .field))

def event (options : Options) (declared : EventDecl) : Visit Unit := do
  step (.startEvent declared.key)
  step (.setEventType declared.type.label)
  useRef declared.type
  attributes options declared.attributes
  declared.adder.toList.forM (accessor options declared.key .adder)
  declared.remover.toList.forM (accessor options declared.key .remover)
  step (.close (.member .event))

def dataMembers (options : Options) (definition : Definition) : Visit Unit :=
  if options.primary then do
    definition.properties.forM (property options)
    definition.fields.forM (field options)
    definition.events.forM (event options)
  else pure ()

def methods (options : Options) (definition : Definition) : Visit Unit := do
  definition.constructors.forM fun declared => discard (method options declared.asConstructor)
  definition.methods.forM fun declared => discard (method options declared)

end UsageGraph.Visit
