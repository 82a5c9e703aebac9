import CilCodec.Code.Opcode
import CilCodec.Metadata.CodedKind
import CilCodec.Text.Quoted

/-!
# CilCodec.Error

Why reading or writing failed.

Each error names its cause and the offset at which it was found; `Error.message` is its wording.
Offsets count from the start of the bytes that were handed in.
-/

namespace CilCodec

/-- What is malformed about a header, a section or a table. -/
inductive Malformation where
  /-- The low bits of a method body select no header format. -/
  | headerFormat (first : UInt8)
  /-- A fat header claims fewer bytes than its fields take. -/
  | headerSize (bytes : Nat)
  | tinyCodeSize (bytes : Nat)
  | fatCodeSize (bytes : Nat)
  | codeLimit
  | switchLimit (targets limit : UInt32)
  | sectionSize (bytes : Nat)
  | sectionClauses (bytes clauseBytes : Nat)
  | sectionLimit (clauses : Nat)
  | clauseFlags (flags : UInt32)
deriving DecidableEq, Repr

namespace Malformation

def message : Malformation → String
  | headerFormat first =>
    s!"Method header is neither fat nor tiny - 0x{upperHex 2 first.toNat}"
  | headerSize bytes => s!"Fat method header declares {bytes} bytes"
  | tinyCodeSize bytes => s!"Code size {bytes} does not fit a tiny header"
  | fatCodeSize bytes => s!"Code size {bytes} exceeds the header field"
  | codeLimit => "Code exceeds the 4 GiB limit"
  | switchLimit targets limit =>
    s!"Switch table with {targets.toNat} targets exceeds the limit of {limit.toNat}"
  | sectionSize bytes => s!"Method data section size {bytes} is smaller than its header"
  | sectionClauses bytes clauseBytes =>
    s!"Exception section of {bytes} bytes is not a whole number of {clauseBytes} byte clauses"
  | sectionLimit clauses => s!"{clauses} exception clauses exceed the section size limit"
  | clauseFlags flags => s!"Unknown exception clause flags 0x{upperHex 0 flags.toNat}"

end Malformation

/-- What is wrong with an import. -/
inductive ImportFault where
  | nonAsciiName (offset : Nat)
  | unstorableName (name : String)
  | wideThunk (raw : UInt64)
  | wideRva (rva : Nat)
  | flaggedRva (rva : UInt32)
  | zeroRva
deriving DecidableEq, Repr

namespace ImportFault

def message : ImportFault → String
  | nonAsciiName offset => s!"Import name at 0x{upperHex 0 offset} is not ASCII"
  | unstorableName name => s!"Import name '{asciiEscaped name}' can not be stored"
  | wideThunk raw => s!"0x{upperHex 0 raw.toNat} does not fit a 32-bit thunk"
  | wideRva rva => s!"Hint/name RVA 0x{upperHex 0 rva} exceeds 32 bits"
  | flaggedRva rva => s!"Hint/name RVA 0x{upperHex 8 rva.toNat} has the ordinal flag set"
  | zeroRva => "Hint/name RVA 0 encodes the table terminator"

end ImportFault

/-- What an index out of range indexes. -/
inductive IndexKind where
  | localVariable
  | argument
  | userString
  | coded
  | heap
deriving DecidableEq, Repr

def IndexKind.name : IndexKind → String
  | localVariable => "local"
  | argument => "argument"
  | userString => "user string"
  | coded => "coded"
  | heap => "heap"

/-- Why reading or writing failed. -/
inductive Error where
  | malformed (cause : Malformation) (offset : Nat)
  /-- A read of `needed` bytes at `offset` runs past the end. -/
  | truncated (offset needed : Nat)
  /-- No opcode has this code. -/
  | unknownOpcode (isLong : Bool) (code : UInt8) (offset : Nat)
  /-- An operand does not have the form its opcode asks for. -/
  | operandMismatch (opcode : Opcode) (offset : Nat)
  | indexOutOfRange (kind : IndexKind) (index : UInt32) (offset : Nat)
  | unresolvedMember (token : Token) (offset : Nat)
  | unresolvedString (index : UInt32) (offset : Nat)
  | invalidTag (tag : Nat) (kind : CodedKind)
  | invalidTableId (number : UInt8)
  | unsupportedTable (table : TableId) (kind : CodedKind)
  /-- A branch needs a delta that its operand cannot hold. -/
  | branchOutOfRange (opcode : Opcode) (delta : Int) (offset : Nat)
  /-- A branch goes to no instruction. -/
  | invalidBranchTarget (offset : Nat) (target : Int)
  | invalidMnemonic (name : String)
  | invalidImport (fault : ImportFault)
deriving DecidableEq, Repr

namespace Error

def message : Error → String
  | malformed cause offset => s!"Malformed header at offset {offset}: {cause.message}"
  | truncated offset needed =>
    s!"Truncated stream at offset {offset}, {needed} more byte(s) required"
  | unknownOpcode isLong code offset =>
    let lead := if isLong then longOpcodeMark else 0
    s!"Unknown opcode {upperHex 2 lead.toNat} {upperHex 2 code.toNat} at offset {offset}"
  | operandMismatch opcode offset =>
    s!"Operand of '{opcode.mnemonic}' at offset {offset} does not match the expected " ++
      opcode.operandKind.description
  | indexOutOfRange kind index offset =>
    s!"{kind.name} index {index.toNat} at offset {offset} is out of range"
  | unresolvedMember token offset => s!"Unresolved member {token.text} at offset {offset}"
  | unresolvedString index offset =>
    s!"Unresolved user string 0x{upperHex 6 index.toNat} at offset {offset}"
  | invalidTag tag kind => s!"Invalid tag {tag} for coded index {kind.name}"
  | invalidTableId number => s!"Invalid table id 0x{upperHex 2 number.toNat}"
  | unsupportedTable table kind =>
    s!"Table {table.name} can not be referenced through coded index {kind.name}"
  | branchOutOfRange opcode delta offset =>
    s!"Branch '{opcode.mnemonic}' at offset {offset} needs delta {delta}, " ++
      "which its operand can not hold"
  | invalidBranchTarget offset target =>
    s!"Branch at offset {offset} targets {target}, which is not an instruction boundary"
  | invalidMnemonic name => s!"Invalid mnemonic '{name}'"
  | invalidImport fault => s!"Invalid import: {fault.message}"

end Error

end CilCodec
