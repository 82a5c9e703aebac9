/-!
# CilCodec.Metadata.TableId

The metadata tables (II.22) and their numbers, which are also the table bytes of tokens.

Results:
1. `TableId.mem_all` — the list `TableId.all` is complete;
2. `TableId.ofNumber?_eq_some_iff` — a number names at most one table, and each table's own does.
-/

namespace CilCodec

/-- A metadata table. -/
inductive TableId where
  | module
  | typeRef
  | typeDef
  | fieldPtr
  | field
  | methodPtr
  | methodDef
  | paramPtr
  | param
  | interfaceImpl
  | memberRef
  | constant
  | customAttribute
  | fieldMarshal
  | declSecurity
  | classLayout
  | fieldLayout
  | standAloneSig
  | eventMap
  | eventPtr
  | event
  | propertyMap
  | propertyPtr
  | property
  | methodSemantics
  | methodImpl
  | moduleRef
  | typeSpec
  | implMap
  | fieldRva
  | encLog
  | encMap
  | assembly
  | assemblyProcessor
  | assemblyOs
  | assemblyRef
  | assemblyRefProcessor
  | assemblyRefOs
  | file
  | exportedType
  | manifestResource
  | nestedClass
  | genericParam
  | methodSpec
  | genericParamConstraint
  | document
  | methodDebugInformation
  | localScope
  | localVariable
  | localConstant
  | importScope
  | stateMachineMethod
  | customDebugInformation
deriving DecidableEq, Repr, Inhabited

namespace TableId

/-- The number of a table. -/
def number : TableId → UInt8
  | module => 0x00
  | typeRef => 0x01
  | typeDef => 0x02
  | fieldPtr => 0x03
  | field => 0x04
  | methodPtr => 0x05
  | methodDef => 0x06
  | paramPtr => 0x07
  | param => 0x08
  | interfaceImpl => 0x09
  | memberRef => 0x0a
  | constant => 0x0b
  | customAttribute => 0x0c
  | fieldMarshal => 0x0d
  | declSecurity => 0x0e
  | classLayout => 0x0f
  | fieldLayout => 0x10
  | standAloneSig => 0x11
  | eventMap => 0x12
  | eventPtr => 0x13
  | event => 0x14
  | propertyMap => 0x15
  | propertyPtr => 0x16
  | property => 0x17
  | methodSemantics => 0x18
  | methodImpl => 0x19
  | moduleRef => 0x1a
  | typeSpec => 0x1b
  | implMap => 0x1c
  | fieldRva => 0x1d
  | encLog => 0x1e
  | encMap => 0x1f
  | assembly => 0x20
  | assemblyProcessor => 0x21
  | assemblyOs => 0x22
  | assemblyRef => 0x23
  | assemblyRefProcessor => 0x24
  | assemblyRefOs => 0x25
  | file => 0x26
  | exportedType => 0x27
  | manifestResource => 0x28
  | nestedClass => 0x29
  | genericParam => 0x2a
  | methodSpec => 0x2b
  | genericParamConstraint => 0x2c
  | document => 0x30
  | methodDebugInformation => 0x31
  | localScope => 0x32
  | localVariable => 0x33
  | localConstant => 0x34
  | importScope => 0x35
  | stateMachineMethod => 0x36
  | customDebugInformation => 0x37

/-- The name of a table in the standard. -/
def name : TableId → String
  | module => "Module"
  | typeRef => "TypeRef"
  | typeDef => "TypeDef"
  | fieldPtr => "FieldPtr"
  | field => "Field"
  | methodPtr => "MethodPtr"
  | methodDef => "MethodDef"
  | paramPtr => "ParamPtr"
  | param => "Param"
  | interfaceImpl => "InterfaceImpl"
  | memberRef => "MemberRef"
  | constant => "Constant"
  | customAttribute => "CustomAttribute"
  | fieldMarshal => "FieldMarshal"
  | declSecurity => "DeclSecurity"
  | classLayout => "ClassLayout"
  | fieldLayout => "FieldLayout"
  | standAloneSig => "StandAloneSig"
  | eventMap => "EventMap"
  | eventPtr => "EventPtr"
  | event => "Event"
  | propertyMap => "PropertyMap"
  | propertyPtr => "PropertyPtr"
  | property => "Property"
  | methodSemantics => "MethodSemantics"
  | methodImpl => "MethodImpl"
  | moduleRef => "ModuleRef"
  | typeSpec => "TypeSpec"
  | implMap => "ImplMap"
  | fieldRva => "FieldRVA"
  | encLog => "EncLog"
  | encMap => "EncMap"
  | assembly => "Assembly"
  | assemblyProcessor => "AssemblyProcessor"
  | assemblyOs => "AssemblyOS"
  | assemblyRef => "AssemblyRef"
  | assemblyRefProcessor => "AssemblyRefProcessor"
  | assemblyRefOs => "AssemblyRefOS"
  | file => "File"
  | exportedType => "ExportedType"
  | manifestResource => "ManifestResource"
  | nestedClass => "NestedClass"
  | genericParam => "GenericParam"
  | methodSpec => "MethodSpec"
  | genericParamConstraint => "GenericParamConstraint"
  | document => "Document"
  | methodDebugInformation => "MethodDebugInformation"
  | localScope => "LocalScope"
  | localVariable => "LocalVariable"
  | localConstant => "LocalConstant"
  | importScope => "ImportScope"
  | stateMachineMethod => "StateMachineMethod"
  | customDebugInformation => "CustomDebugInformation"

/-- Every table, by ascending number. -/
def all : List TableId :=
  [.module, .typeRef, .typeDef, .fieldPtr, .field, .methodPtr, .methodDef, .paramPtr, .param,
   .interfaceImpl, .memberRef, .constant, .customAttribute, .fieldMarshal, .declSecurity,
   .classLayout, .fieldLayout, .standAloneSig, .eventMap, .eventPtr, .event, .propertyMap,
   .propertyPtr, .property, .methodSemantics, .methodImpl, .moduleRef, .typeSpec, .implMap,
   .fieldRva, .encLog, .encMap, .assembly, .assemblyProcessor, .assemblyOs, .assemblyRef,
   .assemblyRefProcessor, .assemblyRefOs, .file, .exportedType, .manifestResource, .nestedClass,
   .genericParam, .methodSpec, .genericParamConstraint, .document, .methodDebugInformation,
   .localScope, .localVariable, .localConstant, .importScope, .stateMachineMethod,
   .customDebugInformation]

/-- The table with a given number. -/
def ofNumber? (number : UInt8) : Option TableId :=
  all.find? fun table => table.number == number

theorem mem_all (table : TableId) : table ∈ all := by
  cases table <;> decide

theorem number_injective {a b : TableId} (h : a.number = b.number) : a = b := by
  have distinct : ∀ x ∈ all, ∀ y ∈ all, x.number = y.number → x = y := by decide +kernel
  exact distinct a (mem_all a) b (mem_all b) h

theorem number_of_ofNumber? {number : UInt8} {table : TableId}
    (h : ofNumber? number = some table) : table.number = number := by
  have found : (table.number == number) = true :=
    List.find?_some (p := fun t : TableId => t.number == number) h
  exact eq_of_beq found

theorem ofNumber?_eq_some_iff {number : UInt8} {table : TableId} :
    ofNumber? number = some table ↔ table.number = number := by
  constructor
  · exact number_of_ofNumber?
  · intro h
    cases hfind : ofNumber? number with
    | none =>
      have hne := List.find?_eq_none.mp hfind table (mem_all table)
      simp [h] at hne
    | some other => rw [number_injective ((number_of_ofNumber? hfind).trans h.symm)]

@[simp] theorem ofNumber?_number (table : TableId) : ofNumber? table.number = some table :=
  ofNumber?_eq_some_iff.mpr rfl

/-- Numbers of tables stay below this bound, so a list of that length has a place for each. -/
def numberBound : Nat := 0x38

theorem number_lt (table : TableId) : table.number.toNat < numberBound := by
  cases table <;> decide

end TableId

end CilCodec
