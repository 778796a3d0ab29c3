import UsageGraph.Fault

/-! What a stack of open scopes, innermost first, allows.

Each question is answered by what it asks for, or by the violation that a builder reports.
-/

set_option autoImplicit false
namespace UsageGraph.Scopes

def innermostKind? (scopes : List Scope) : Option ScopeKind := scopes.head?.map Scope.kind

def openAssembly? (scopes : List Scope) : Option AssemblyKey :=
  scopes.findSome? fun
    | .assembly _ key => some key
    | _ => none

def openType? (scopes : List Scope) : Option (TypeId × TypeKey) :=
  scopes.findSome? fun
    | .type id key => some (id, key)
    | _ => none

def openMember? (kind : MemberKind) (scopes : List Scope) : Option MemberId :=
  scopes.findSome? fun
    | .member found id _ => if found = kind then some id else none
    | _ => none

def admitAssembly (key : AssemblyKey) (scopes : List Scope) : Except Violation Unit :=
  match scopes with
  | [] => .ok ()
  | innermost :: _ => .error (.misplaced (.assembly key) innermost.kind)

/-- A namespace is opened outermost, in an assembly, or in a type for the types nested there;
and where an assembly is open, it is the namespace's own. -/
def admitSpace (key : NamespaceKey) (scopes : List Scope) : Except Violation Unit :=
  match innermostKind? scopes with
  | none | some .assembly | some .type =>
    match openAssembly? scopes with
    | some assembly =>
      if assembly = key.assembly then .ok () else .error (.foreign (.space key) (.assembly assembly))
    | none => .ok ()
  | other => .error (.misplaced (.space key) other)

def admitType (key : TypeKey) (scopes : List Scope) : Except Violation Unit :=
  match scopes with
  | .space _ space :: _ =>
    if space = key.space then .ok () else .error (.foreign (.type key) (.space space))
  | _ => .error (.misplaced (.type key) (innermostKind? scopes))

/-- The open type in which a member of a kind can be opened. A method can also be opened
inside the property or event that it serves. -/
def memberPlace (kind : MemberKind) (key : MemberKey) (scopes : List Scope) : Except Violation TypeKey :=
  match scopes with
  | .type _ type :: _ => .ok type
  | .member .property _ _ :: _ | .member .event _ _ :: _ =>
    if kind = .method then
      match openType? scopes with
      | some (_, type) => .ok type
      | none => .error (.strayAccessor key)
    else .error (.misplaced (.member kind key) (innermostKind? scopes))
  | _ => .error (.misplaced (.member kind key) (innermostKind? scopes))

def admitMember (kind : MemberKind) (key : MemberKey) (scopes : List Scope) : Except Violation Unit :=
  match memberPlace kind key scopes with
  | .ok type => if type = key.owner then .ok () else .error (.foreign (.member kind key) (.type type))
  | .error cause => .error cause

/-- The scopes that stay open when the innermost one, which has to be of a kind, is closed. -/
def close (kind : ScopeKind) (scopes : List Scope) : Except Violation (List Scope) :=
  match scopes with
  | innermost :: outer =>
    if innermost.kind = kind then .ok outer else .error (.unmatchedClose kind innermost.kind)
  | [] => .error (.unmatchedClose kind none)

def finish (scopes : List Scope) : Except Violation Unit :=
  match scopes with
  | [] => .ok ()
  | _ :: _ => .error (.leftOpen (scopes.reverse.map Scope.kind))

def typeToFill (filling : Filling) (scopes : List Scope) : Except Violation TypeId :=
  match openType? scopes with
  | some (id, _) => .ok id
  | none => .error (.noOpenType filling)

def memberToFill (filling : Filling) (kind : MemberKind) (scopes : List Scope) : Except Violation MemberId :=
  match openMember? kind scopes with
  | some id => .ok id
  | none => .error (.noOpenMember filling kind)

/-- The node to which usages and attributes are attached: the innermost, if it can hold them. -/
def holder (filling : Filling) (scopes : List Scope) : Except Violation NodeRef :=
  match scopes.head?.bind Scope.holder? with
  | some node => .ok node
  | none => .error (.noHolder filling (innermostKind? scopes))

end UsageGraph.Scopes
