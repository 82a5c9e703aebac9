import CilCodec.Metadata.IndexWidth
import CilCodec.Metadata.TableId

/-!
# CilCodec.Metadata.CodedKind

Coded index kinds (II.24.2.6): columns that refer to a row of one of several tables.

The low bits of a coded index are a tag, the position of the table among the candidates of the kind;
the bits above hold the row. A candidate may be unassigned. `codedIndexWidth` is the width that the
row counts of the candidates ask for.
-/

namespace CilCodec

/-- A kind of coded index. -/
inductive CodedKind where
  | typeDefOrRef
  | hasConstant
  | hasCustomAttribute
  | hasFieldMarshal
  | hasDeclSecurity
  | memberRefParent
  | hasSemantics
  | methodDefOrRef
  | memberForwarded
  | implementation
  | customAttributeType
  | resolutionScope
  | typeOrMethodDef
  | hasCustomDebugInformation
deriving DecidableEq, Repr, Inhabited

/-- Tables that can carry custom attributes, by tag. -/
def hasCustomAttributeTables : List (Option TableId) :=
  [some .methodDef, some .field, some .typeRef, some .typeDef, some .param, some .interfaceImpl,
   some .memberRef, some .module, some .declSecurity, some .property, some .event,
   some .standAloneSig, some .moduleRef, some .typeSpec, some .assembly, some .assemblyRef,
   some .file, some .exportedType, some .manifestResource, some .genericParam,
   some .genericParamConstraint, some .methodSpec]

/-- Tag bits that tell `count` candidates apart. -/
def tagBitsFor (count : Nat) : Nat := bitLength (count - 1)

/-- Bits that hold a row of a table of `rows` rows. An empty table still takes one. -/
def rowBits (rows : UInt32) : Nat := if rows.toNat = 0 then 1 else bitLength rows.toNat

/-- The width of a coded index over `candidates`: narrow if the row of the largest candidate and the
tag fit 16 bits. -/
def codedIndexWidth (candidates : List (Option TableId)) (rowCount : TableId → UInt32) :
    IndexWidth :=
  let bits := candidates.filterMap fun candidate => candidate.map fun t => rowBits (rowCount t)
  IndexWidth.ofBits (bits.max?.getD 1 + tagBitsFor candidates.length)

namespace CodedKind

def name : CodedKind → String
  | typeDefOrRef => "TypeDefOrRef"
  | hasConstant => "HasConstant"
  | hasCustomAttribute => "HasCustomAttribute"
  | hasFieldMarshal => "HasFieldMarshal"
  | hasDeclSecurity => "HasDeclSecurity"
  | memberRefParent => "MemberRefParent"
  | hasSemantics => "HasSemantics"
  | methodDefOrRef => "MethodDefOrRef"
  | memberForwarded => "MemberForwarded"
  | implementation => "Implementation"
  | customAttributeType => "CustomAttributeType"
  | resolutionScope => "ResolutionScope"
  | typeOrMethodDef => "TypeOrMethodDef"
  | hasCustomDebugInformation => "HasCustomDebugInformation"

/-- Every kind, in the order of the standard. -/
def all : List CodedKind :=
  [.typeDefOrRef, .hasConstant, .hasCustomAttribute, .hasFieldMarshal, .hasDeclSecurity,
   .memberRefParent, .hasSemantics, .methodDefOrRef, .memberForwarded, .implementation,
   .customAttributeType, .resolutionScope, .typeOrMethodDef, .hasCustomDebugInformation]

theorem mem_all (kind : CodedKind) : kind ∈ all := by
  cases kind <;> decide

/-- The tables a kind can refer to, by tag. -/
def candidates : CodedKind → List (Option TableId)
  | typeDefOrRef => [some .typeDef, some .typeRef, some .typeSpec]
  | hasConstant => [some .field, some .param, some .property]
  | hasCustomAttribute => hasCustomAttributeTables
  | hasFieldMarshal => [some .field, some .param]
  | hasDeclSecurity => [some .typeDef, some .methodDef, some .assembly]
  | memberRefParent =>
    [some .typeDef, some .typeRef, some .moduleRef, some .methodDef, some .typeSpec]
  | hasSemantics => [some .event, some .property]
  | methodDefOrRef => [some .methodDef, some .memberRef]
  | memberForwarded => [some .field, some .methodDef]
  | implementation => [some .file, some .assemblyRef, some .exportedType]
  | customAttributeType => [none, none, some .methodDef, some .memberRef, none]
  | resolutionScope => [some .module, some .moduleRef, some .assemblyRef, some .typeRef]
  | typeOrMethodDef => [some .typeDef, some .methodDef]
  | hasCustomDebugInformation =>
    hasCustomAttributeTables ++
      [some .document, some .localScope, some .localVariable, some .localConstant,
       some .importScope]

/-- Number of low bits that hold the tag. -/
def tagBits (kind : CodedKind) : Nat := tagBitsFor kind.candidates.length

/-- Number of tags that the tag bits tell apart. -/
def tagBound (kind : CodedKind) : Nat := 1 <<< kind.tagBits

/-- The tag of a table. -/
def tagOf? (kind : CodedKind) (table : TableId) : Option Nat :=
  kind.candidates.findIdx? (· == some table)

/-- The table of a tag. The outer option is empty beyond the candidates, the inner one for an
unassigned tag. -/
def candidate? (kind : CodedKind) (tag : Nat) : Option (Option TableId) := kind.candidates[tag]?

/-- The first assigned table, which null references with an unassigned tag are taken to name. -/
def firstTable? (kind : CodedKind) : Option TableId := kind.candidates.findSome? id

theorem candidates_length_le (kind : CodedKind) : kind.candidates.length ≤ kind.tagBound := by
  cases kind <;> decide

theorem tagBits_pos (kind : CodedKind) : 1 ≤ kind.tagBits := by
  cases kind <;> decide

theorem tagBits_le (kind : CodedKind) : kind.tagBits ≤ 5 := by
  cases kind <;> decide

/-- The tag of a table is the position at which the candidates list it. -/
theorem candidate?_tagOf? {kind : CodedKind} {table : TableId} {tag : Nat}
    (h : kind.tagOf? table = some tag) : kind.candidate? tag = some (some table) := by
  obtain ⟨hlt, heq, _⟩ := List.findIdx?_eq_some_iff_getElem.mp h
  rw [candidate?, List.getElem?_eq_getElem hlt, eq_of_beq heq]

theorem tagOf?_lt {kind : CodedKind} {table : TableId} {tag : Nat}
    (h : kind.tagOf? table = some tag) : tag < kind.tagBound := by
  obtain ⟨hlt, _⟩ := List.findIdx?_eq_some_iff_getElem.mp h
  exact Nat.lt_of_lt_of_le hlt kind.candidates_length_le

/-- No kind lists a table twice, so each assigned tag is the tag of its table. -/
theorem tagOf?_of_candidate? {kind : CodedKind} {table : TableId} {tag : Nat}
    (h : kind.candidate? tag = some (some table)) : kind.tagOf? table = some tag := by
  have distinct : ∀ k ∈ all, ∀ i ∈ List.range k.candidates.length, ∀ t ∈ TableId.all,
      k.candidate? i = some (some t) → k.tagOf? t = some i := by decide +kernel
  obtain ⟨hlt, _⟩ := List.getElem?_eq_some_iff.mp h
  exact distinct kind (mem_all kind) tag (List.mem_range.mpr hlt) table (TableId.mem_all table) h

end CodedKind

end CilCodec
