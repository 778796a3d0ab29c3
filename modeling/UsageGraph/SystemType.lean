import UsageGraph.Key

/-! The types that the runtime itself provides. -/

set_option autoImplicit false
namespace UsageGraph

inductive SystemType where
  | void
  | boolean
  | char
  | sbyte
  | byte
  | int16
  | uint16
  | int32
  | uint32
  | int64
  | uint64
  | single
  | double
  | decimal
  | string
  | object
  | intPtr
  | uintPtr
  | typedReference
  deriving DecidableEq

namespace SystemType

def all : List SystemType :=
  [.void, .boolean, .char, .sbyte, .byte, .int16, .uint16, .int32, .uint32, .int64, .uint64, .single,
    .double, .decimal, .string, .object, .intPtr, .uintPtr, .typedReference]

def name : SystemType → String
  | .void => "Void"
  | .boolean => "Boolean"
  | .char => "Char"
  | .sbyte => "SByte"
  | .byte => "Byte"
  | .int16 => "Int16"
  | .uint16 => "UInt16"
  | .int32 => "Int32"
  | .uint32 => "UInt32"
  | .int64 => "Int64"
  | .uint64 => "UInt64"
  | .single => "Single"
  | .double => "Double"
  | .decimal => "Decimal"
  | .string => "String"
  | .object => "Object"
  | .intPtr => "IntPtr"
  | .uintPtr => "UIntPtr"
  | .typedReference => "TypedReference"

def ofName? (name : String) : Option SystemType := all.find? fun type => type.name = name

def assemblyKey : AssemblyKey := ⟨"mscorlib"⟩

def namespaceKey : NamespaceKey := ⟨assemblyKey, "System"⟩

def key (type : SystemType) : TypeKey := ⟨namespaceKey, type.name, 0⟩

end SystemType

end UsageGraph
