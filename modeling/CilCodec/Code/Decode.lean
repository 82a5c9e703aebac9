import CilCodec.Bytes.Cursor
import CilCodec.Code.Basic
import CilCodec.Config

/-!
# CilCodec.Code.Decode

Reading code.

An instruction is first read with the numbers it stores (`readInstruction`), then its operand is
resolved (`Operand.resolve`), so what a resolver answers changes neither framing nor offsets. A
branch target is read as a detached label. When all instructions are known, `bindLabels` turns the
targets that are instructions or the end of the code into indices.
-/

namespace CilCodec

/-! ## Instructions as stored -/

/-- The target of a branch with a given delta, in an instruction that ends at `next`. -/
def branchTarget (next : Nat) (delta : Int32) : Label :=
  .detached (Int64.ofInt (next + delta.toInt))

open Reader in
/-- Reads the targets of a switch. The count is checked against the bytes left before it is checked
against the limit. -/
def readSwitch (origin : Nat) (config : Config) : Reader (Operand RawModel) := do
  let start ← position
  let count ← word UInt32
  ensure (4 * count.toNat)
  if config.maxSwitchTargets < count then
    throw (.malformed (.switchLimit count config.maxSwitchTargets) start)
  let next := (← position) + 4 * count.toNat - origin
  let deltas ← repeated count.toNat (word Int32)
  return .switch (deltas.map (branchTarget next))

open Reader in
/-- Reads the operand of an opcode. Code starts at `origin`, the instruction at `start`. -/
def readOperand (origin start : Nat) (opcode : Opcode) (config : Config) :
    Reader (Operand RawModel) := do
  match opcode.operandKind with
  | .none => return .none
  | .int8 => return .immediate (.int8 (← word Int8))
  | .int32 => return .immediate (.int32 (← word Int32))
  | .int64 => return .immediate (.int64 (← word Int64))
  | .float32 => return .immediate (.float32 (← word Binary32))
  | .float64 => return .immediate (.float64 (← word Binary64))
  | .shortLocal => return .localVariable (← word UInt8).toUInt16
  | .longLocal => return .localVariable (← word UInt16)
  | .shortArgument => return .argument (← word UInt8).toUInt16
  | .longArgument => return .argument (← word UInt16)
  | .shortBranch =>
    let delta ← word Int8
    return .target (branchTarget ((← position) - origin) delta.toInt32)
  | .longBranch =>
    let delta ← word Int32
    return .target (branchTarget ((← position) - origin) delta)
  | .switchTable => readSwitch origin config
  | .userString =>
    let token := Token.mk (← word UInt32)
    if token.table ≠ Token.userStringTable then
      note (.untaggedString start token)
    return .userString token.row
  | .member kind =>
    let token := Token.mk (← word UInt32)
    unless kind.accepts token do
      note (.unusualTable opcode start token kind)
    return .member token

open Reader in
/-- Reads an instruction of code that starts at `origin`. -/
def readInstruction (origin : Nat) (config : Config) : Reader (Instruction RawModel) := do
  let start ← position
  let first ← word UInt8
  let isLong := first == longOpcodeMark
  let code ← if isLong then word UInt8 else pure first
  match Opcode.ofCode? isLong code with
  | none => throw (.unknownOpcode isLong code start)
  | some opcode =>
    let operand ← readOperand origin start opcode config
    return ⟨low32 (start - origin), opcode, operand⟩

/-! ## Operands -/

variable {M : OperandModel}

/-- The operand that a stored one stands for. `offset` is where it is stored. -/
def Operand.resolve (R : Resolver M) (locals : List M.LocalVariable) (offset : Nat) :
    Operand RawModel → Except Error (Operand M)
  | .none => .ok .none
  | .immediate value => .ok (.immediate value)
  | .localVariable index =>
    match R.localVariable? index locals with
    | some v => .ok (.localVariable v)
    | .none => .error (.indexOutOfRange .localVariable index.toUInt32 offset)
  | .argument index =>
    match R.argument? index with
    | some a => .ok (.argument a)
    | .none => .error (.indexOutOfRange .argument index.toUInt32 offset)
  | .target label => .ok (.target label)
  | .switch labels => .ok (.switch labels)
  | .userString index =>
    match R.userString? index with
    | some s => .ok (.userString s)
    | .none => .error (.unresolvedString index offset)
  | .member token =>
    match R.member? token with
    | some m => .ok (.member m)
    | .none => .error (.unresolvedMember token offset)

/-- Resolves the operand of an instruction that is stored at `start`. -/
def Instruction.resolve (R : Resolver M) (locals : List M.LocalVariable) (start : Nat)
    (i : Instruction RawModel) : Except Error (Instruction M) :=
  (i.operand.resolve R locals (start + i.opcode.size)).map fun operand =>
    ⟨i.offset, i.opcode, operand⟩

open Reader in
/-- Reads an instruction and resolves its operand. -/
def readResolved (R : Resolver M) (locals : List M.LocalVariable) (config : Config)
    (origin : Nat) : Reader (Instruction M) := do
  let start ← position
  let stored ← readInstruction origin config
  ofResult (stored.resolve R locals start)

/-! ## Labels -/

/-- The label with a detached offset bound to the instruction or the end that stands there. -/
def Label.bind (offsets : Array Nat) (size : Nat) : Label → Label
  | .instruction index => .instruction index
  | .detached target => Code.labelFor offsets size target

/-- The instructions of code of `size` bytes with their labels bound. -/
def bindLabels (size : Nat) (instructions : List (Instruction M)) : List (Instruction M) :=
  let offsets := (instructions.map Instruction.offset).toArray
  instructions.map (Instruction.mapLabels (Label.bind offsets size))

/-- The detached labels of an instruction, each with the offset of the instruction. -/
def Instruction.looseBranches (i : Instruction M) : List (Nat × Int64) :=
  i.labels.filterMap fun label =>
    match label with
    | .instruction _ => none
    | .detached target => some (i.offset, target)

/-- Notices loose branches, or refuses the first. The position reported is the one that the kept 32
bits of the offset lead to, which from 4 GiB on is not that of the instruction. -/
def reportLoose (config : Config) (origin : Nat) : List (Nat × Int64) → Reader Unit
  | [] => pure ()
  | (offset, target) :: rest => do
    if config.strictBranches then
      throw (.invalidBranchTarget (origin + offset) target.toInt)
    Reader.note (.looseBranch offset target.toInt)
    reportLoose config origin rest

/-! ## Code -/

namespace Code

open Reader in
/-- Reads code that goes on to the end of the data. -/
def readToEnd (R : Resolver M) (locals : List M.LocalVariable) (config : Config) :
    Reader (Code M) := do
  let origin ← position
  let instructions ← untilEnd (readResolved R locals config origin)
  let bound := bindLabels ((← position) - origin) instructions
  reportLoose config origin (bound.flatMap Instruction.looseBranches)
  return ofList bound

/-- Reads code of `size` bytes. Nothing behind it is looked at, and on an error the position stays
in front of it. -/
def reader (size : Nat) (R : Resolver M) (locals : List M.LocalVariable) (config : Config) :
    Reader (Code M) := fun c =>
  if c.pos + size ≤ c.data.size then
    match readToEnd R locals config { c with data := c.data.extract 0 (c.pos + size) } with
    | .ok code inner => .ok code { c with pos := c.pos + size, notices := inner.notices }
    | .error e inner => .error e { c with notices := inner.notices }
  else
    .error (.truncated c.pos size) c

end Code

end CilCodec
