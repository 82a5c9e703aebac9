import CilCodec.Code.Model
import CilCodec.Number.Text

/-!
# CilCodec.Code.Instruction

Instructions: an opcode, an operand, and the offset in the code.

Branch targets are labels. `Label.instruction i` is the `i`-th instruction of the code, or its end
if the code has `i` instructions; `Label.detached d` is the offset `d`, whatever lies there.
-/

namespace CilCodec

/-- A constant in an instruction. -/
inductive Immediate where
  | int8 (value : Int8)
  | int32 (value : Int32)
  | int64 (value : Int64)
  | float32 (value : Binary32)
  | float64 (value : Binary64)
deriving DecidableEq, Repr

namespace Immediate

/-- Equality of the numbers, of which there is none with a NaN; the kinds have to agree. -/
def sameValue : Immediate → Immediate → Bool
  | float32 a, float32 b => a.value.sameNumber b.value
  | float64 a, float64 b => a.value.sameNumber b.value
  | a, b => a == b

def text : Immediate → String
  | int8 value => toString value.toInt
  | int32 value => toString value.toInt
  | int64 value => toString value.toInt
  | float32 value => value.text .plain
  | float64 value => value.text .plain

/-- The constant together with its kind. -/
def detail : Immediate → String
  | int8 value => s!"Int8({value.toInt})"
  | int32 value => s!"Int32({value.toInt})"
  | int64 value => s!"Int64({value.toInt})"
  | float32 value => s!"Float32({value.text .detailed})"
  | float64 value => s!"Float64({value.text .detailed})"

end Immediate

/-- A branch target. -/
inductive Label where
  | instruction (index : Nat)
  | detached (offset : Int64)
deriving DecidableEq, Repr

namespace Label

/-- The label with its index changed; detached labels stay. -/
def mapIndex (f : Nat → Nat) : Label → Label
  | instruction index => instruction (f index)
  | detached offset => detached offset

/-- Whether an index is at most `bound`. -/
def isAtMost (bound : Nat) : Label → Bool
  | instruction index => index ≤ bound
  | detached _ => true

def isDetached : Label → Bool
  | instruction _ => false
  | detached _ => true

def detail : Label → String
  | instruction index => s!"Instruction({index})"
  | detached offset => s!"Detached({offset.toInt})"

end Label

/-- An operand. -/
inductive Operand (M : OperandModel) where
  | none
  | immediate (value : Immediate)
  | localVariable (v : M.LocalVariable)
  | argument (a : M.Argument)
  | target (label : Label)
  | switch (labels : List Label)
  | userString (s : M.UserString)
  | member (m : M.Member)

namespace Operand

variable {M : OperandModel}

/-- Whether an operand has the form that an opcode of kind `kind` asks for. -/
def fits : Operand M → OperandKind → Bool
  | none, .none => true
  | immediate (.int8 _), .int8 => true
  | immediate (.int32 _), .int32 => true
  | immediate (.int64 _), .int64 => true
  | immediate (.float32 _), .float32 => true
  | immediate (.float64 _), .float64 => true
  | localVariable _, .shortLocal => true
  | localVariable _, .longLocal => true
  | argument _, .shortArgument => true
  | argument _, .longArgument => true
  | target _, .shortBranch => true
  | target _, .longBranch => true
  | switch _, .switchTable => true
  | userString _, .userString => true
  | member _, .member _ => true
  | _, _ => false

/-- The labels of an operand, in order. -/
def labels : Operand M → List Label
  | target label => [label]
  | switch labels => labels
  | _ => []

/-- Number of targets of a switch operand; other operands have none. -/
def switchLength : Operand M → Nat
  | switch labels => labels.length
  | _ => 0

/-- The operand with every label changed. -/
def mapLabels (f : Label → Label) : Operand M → Operand M
  | target label => target (f label)
  | switch labels => switch (labels.map f)
  | operand => operand

/-- Equality up to the text of numbers: constants are compared as numbers. -/
def sameValue [BEq M.Member] [BEq M.UserString] [BEq M.LocalVariable] [BEq M.Argument] :
    Operand M → Operand M → Bool
  | none, none => true
  | immediate a, immediate b => a.sameValue b
  | localVariable a, localVariable b => a == b
  | argument a, argument b => a == b
  | target a, target b => a == b
  | switch a, switch b => a == b
  | userString a, userString b => a == b
  | member a, member b => a == b
  | _, _ => false

/-- The operand together with its form. -/
def detail (names : OperandText M) : Operand M → String
  | none => "None"
  | immediate value => s!"Immediate({value.detail})"
  | localVariable v => s!"Local({names.localVariable v})"
  | argument a => s!"Argument({names.argument a})"
  | target label => s!"Target({label.detail})"
  | switch labels =>
    let shown := ", ".intercalate (labels.map Label.detail)
    s!"Switch([{shown}])"
  | userString s => s!"String({names.userString s})"
  | member m => s!"Member({names.member m})"

@[simp] theorem labels_mapLabels (f : Label → Label) (operand : Operand M) :
    (operand.mapLabels f).labels = operand.labels.map f := by
  cases operand <;> rfl

@[simp] theorem switchLength_mapLabels (f : Label → Label) (operand : Operand M) :
    (operand.mapLabels f).switchLength = operand.switchLength := by
  cases operand <;> simp [mapLabels, switchLength]

@[simp] theorem fits_mapLabels (f : Label → Label) (operand : Operand M) (kind : OperandKind) :
    (operand.mapLabels f).fits kind = operand.fits kind := by
  cases operand <;> cases kind <;> rfl

end Operand

/-- An instruction, and its offset in the code it belongs to, of which 32 bits are kept. -/
structure Instruction (M : OperandModel) where
  offset : Nat
  opcode : Opcode
  operand : Operand M

namespace Instruction

variable {M : OperandModel}

/-- The instruction with a given mnemonic, not yet placed. -/
def ofMnemonic (mnemonic : String) (operand : Operand M) : Except Error (Instruction M) :=
  match Opcode.ofMnemonic? mnemonic with
  | some opcode => .ok ⟨0, opcode, operand⟩
  | none => .error (.invalidMnemonic mnemonic)

/-- Number of bytes of the operand. A switch has its count and four bytes for each target. -/
def operandSize (i : Instruction M) : Nat :=
  match i.opcode.operandKind.size? with
  | some size => size
  | none => 4 + 4 * i.operand.switchLength

/-- Number of bytes of the instruction. -/
def size (i : Instruction M) : Nat := i.opcode.size + i.operandSize

/-- Whether the opcode branches. -/
def isBranch (i : Instruction M) : Bool := i.opcode.operandKind.isBranch

def labels (i : Instruction M) : List Label := i.operand.labels

/-- The instruction with every label changed. -/
def mapLabels (f : Label → Label) (i : Instruction M) : Instruction M :=
  { i with operand := i.operand.mapLabels f }

/-- Equality up to the text of numbers: constants are compared as numbers. -/
def sameValue [BEq M.Member] [BEq M.UserString] [BEq M.LocalVariable] [BEq M.Argument]
    (a b : Instruction M) : Bool :=
  a.offset == b.offset && a.opcode == b.opcode && a.operand.sameValue b.operand

/-- The instruction with all that is known about it. -/
def detail (names : OperandText M) (i : Instruction M) : String :=
  s!"CilInstruction \x7b offset: {i.offset}, opcode: {i.opcode.detail}, " ++
    s!"operand: {i.operand.detail names} \x7d"

theorem size_pos (i : Instruction M) : 0 < i.size :=
  Nat.lt_of_lt_of_le i.opcode.size_pos (Nat.le_add_right _ _)

@[simp] theorem size_mapLabels (f : Label → Label) (i : Instruction M) :
    (i.mapLabels f).size = i.size := by
  simp [size, operandSize, mapLabels]

@[simp] theorem size_withOffset (i : Instruction M) (offset : Nat) :
    Instruction.size { i with offset := offset } = i.size := rfl

end Instruction

end CilCodec
