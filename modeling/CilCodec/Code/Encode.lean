import CilCodec.Bytes.Buffer
import CilCodec.Code.Basic

/-!
# CilCodec.Code.Encode

Writing code.

The offsets of all instructions follow from their sizes alone, so they are known before the first
byte is written, and a branch is written as the distance from the end of its instruction to its
target. Branches keep their form: a short branch whose target is too far away is an error.

An operand is first mapped to the numbers it stores (`Operand.lower`), then written.
-/

namespace CilCodec

variable {M : OperandModel}

/-! ## Layout -/

/-- The offsets of the instructions, the first standing at `offset`, and the offset of the end. -/
def layoutFrom (offset : Nat) : List (Instruction M) → List Nat
  | [] => [offset]
  | i :: rest => offset :: layoutFrom (offset + i.size) rest

/-- The offsets of the instructions of a code and of its end. -/
def Code.layout (code : Code M) : List Nat := layoutFrom 0 code.instructions

/-- Offsets have to stay below 4 GiB. -/
def checkLayout (offsets : List Nat) : Except Error Unit :=
  match offsets.find? (fun offset => 0xffffffff < offset) with
  | some offset => .error (.malformed .codeLimit offset)
  | none => .ok ()

/-! ## Branches -/

/-- The offset of a label, for the branch at `offset`. -/
def targetOffset (offsets : Array Nat) (offset : Nat) : Label → Except Error Int64
  | .instruction index =>
    match offsets[index]? with
    | some target => .ok (Int64.ofNat target)
    | none => .error (.invalidBranchTarget offset (Int64.ofNat index).toInt)
  | .detached target => .ok target

/-- The distance from `next`, the end of the branch at `offset`, to a label. -/
def branchDelta (offsets : Array Nat) (offset next : Nat) (label : Label) : Except Stop Int64 :=
  match targetOffset offsets offset label with
  | .ok target => subInt64 target (Int64.ofNat next)
  | .error e => .error (.refused e)

/-- Whether a signed byte can hold a delta. -/
def fitsInt8 (delta : Int64) : Bool := -0x80 ≤ delta.toInt && delta.toInt < 0x80

/-- Whether a signed 32-bit word can hold a delta. -/
def fitsInt32 (delta : Int64) : Bool := -0x80000000 ≤ delta.toInt && delta.toInt < 0x80000000

open Writer in
/-- Writes the delta of a branch in one byte. -/
def writeShortDelta (offsets : Array Nat) (opcode : Opcode) (offset next : Nat) (label : Label) :
    Writer Unit := do
  let delta ← ofAnswer (branchDelta offsets offset next label)
  if fitsInt8 delta then word delta.toInt8
  else throw (.refused (.branchOutOfRange opcode delta.toInt offset))

open Writer in
/-- Writes the delta of a branch in four bytes. -/
def writeLongDelta (offsets : Array Nat) (opcode : Opcode) (offset next : Nat) (label : Label) :
    Writer Unit := do
  let delta ← ofAnswer (branchDelta offsets offset next label)
  if fitsInt32 delta then word delta.toInt32
  else throw (.refused (.branchOutOfRange opcode delta.toInt offset))

/-! ## Operands -/

/-- The operand with its values mapped to the numbers stored for them. -/
def Operand.lower (B : Builder M) : Operand M → Except Error (Operand RawModel)
  | .none => .ok .none
  | .immediate value => .ok (.immediate value)
  | .localVariable v => (B.localIndex v).map .localVariable
  | .argument a => (B.argumentIndex a).map .argument
  | .target label => .ok (.target label)
  | .switch labels => .ok (.switch labels)
  | .userString s => (B.userStringOffset s).map .userString
  | .member m => (B.memberToken m).map .member

open Writer in
/-- Writes an index in one byte, which has to hold it. -/
def writeShortIndex (kind : IndexKind) (index : UInt16) (offset : Nat) : Writer Unit :=
  if index.toNat ≤ 0xff then word index.toUInt8
  else throw (.refused (.indexOutOfRange kind index.toUInt32 offset))

open Writer in
/-- Writes a constant. -/
def writeImmediate : Immediate → Writer Unit
  | .int8 value => word value
  | .int32 value => word value
  | .int64 value => word value
  | .float32 value => word value
  | .float64 value => word value

open Writer in
/-- Writes the stored operand of the instruction at `offset`, which ends at `next`. -/
def writeOperand (offsets : Array Nat) (opcode : Opcode) (offset next : Nat) :
    Operand RawModel → Writer Unit
  | .none => pure ()
  | .immediate value => writeImmediate value
  | .localVariable index =>
    if opcode.operandKind = .shortLocal then writeShortIndex .localVariable index offset
    else word index
  | .argument index =>
    if opcode.operandKind = .shortArgument then writeShortIndex .argument index offset
    else word index
  | .target label =>
    if opcode.operandKind = .shortBranch then writeShortDelta offsets opcode offset next label
    else writeLongDelta offsets opcode offset next label
  | .switch labels => do
    word (UInt32.ofNat labels.length)
    each (writeLongDelta offsets opcode offset next) labels
  | .userString index =>
    if index.toNat ≤ Token.maxRow then word (Token.ofUserString index).value
    else throw (.refused (.indexOutOfRange .userString index offset))
  | .member token => word token.value

/-! ## Code -/

open Writer in
/-- Writes an instruction that stands at `offset`. -/
def writeInstruction (offsets : Array Nat) (B : Builder M) (offset : Nat) (i : Instruction M) :
    Writer Unit := do
  unless i.operand.fits i.opcode.operandKind do
    throw (.refused (.operandMismatch i.opcode offset))
  put i.opcode.bytes
  let stored ← ofResult (i.operand.lower B)
  writeOperand offsets i.opcode offset (offset + i.size) stored

/-- Writes the instructions at their offsets. -/
def writeInstructions (offsets : Array Nat) (B : Builder M) :
    List (Instruction M × Nat) → Writer Unit :=
  Writer.each fun (i, offset) => writeInstruction offsets B offset i

namespace Code

/-- Writes code. The offsets that instructions carry are not used. -/
def writer (code : Code M) (B : Builder M) : Writer Unit := do
  Writer.ofResult (checkLayout code.layout)
  writeInstructions code.layout.toArray B (code.instructions.zip code.layout)

/-- The bytes of code. -/
def encode (code : Code M) (B : Builder M) : Except Stop (Array UInt8) := (code.writer B).answer

end Code

end CilCodec
