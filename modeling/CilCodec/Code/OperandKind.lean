import CilCodec.Metadata.Token

/-!
# CilCodec.Code.OperandKind

What an opcode's operand is, how many bytes it takes, and where control goes after the instruction
(III.1.7).
-/

namespace CilCodec

/-- What a member token in an instruction refers to. -/
inductive MemberKind where
  | field
  | method
  | signature
  | token
  | type
deriving DecidableEq, Repr, Inhabited

namespace MemberKind

def name : MemberKind → String
  | field => "Field"
  | method => "Method"
  | signature => "Signature"
  | token => "Token"
  | type => "Type"

/-- The tables that tokens of this kind usually name. -/
def tables : MemberKind → List TableId
  | field => [.field, .memberRef]
  | method => [.methodDef, .memberRef, .methodSpec]
  | signature => [.standAloneSig]
  | token => [.typeDef, .typeRef, .typeSpec, .field, .methodDef, .memberRef, .methodSpec]
  | type => [.typeDef, .typeRef, .typeSpec]

/-- Whether a token names one of the usual tables. -/
def accepts (kind : MemberKind) (t : Token) : Bool :=
  t.tableId?.any fun table => kind.tables.contains table

end MemberKind

/-- The form of an operand. Short forms take one byte where long forms take two or four. -/
inductive OperandKind where
  | none
  | int8
  | int32
  | int64
  | float32
  | float64
  | shortLocal
  | longLocal
  | shortArgument
  | longArgument
  | shortBranch
  | longBranch
  | switchTable
  | userString
  | member (kind : MemberKind)
deriving DecidableEq, Repr, Inhabited

namespace OperandKind

def name : OperandKind → String
  | none => "None"
  | int8 => "ImmediateI1"
  | int32 => "ImmediateI4"
  | int64 => "ImmediateI8"
  | float32 => "ImmediateR4"
  | float64 => "ImmediateR8"
  | shortLocal => "LocalIndexShort"
  | longLocal => "LocalIndexLong"
  | shortArgument => "ArgumentIndexShort"
  | longArgument => "ArgumentIndexLong"
  | shortBranch => "BranchTargetShort"
  | longBranch => "BranchTargetLong"
  | switchTable => "SwitchTable"
  | userString => "StringToken"
  | member kind => s!"MemberToken({kind.name})"

/-- Every operand kind. -/
def all : List OperandKind :=
  [.none, .int8, .int32, .int64, .float32, .float64, .shortLocal, .longLocal, .shortArgument,
   .longArgument, .shortBranch, .longBranch, .switchTable, .userString, .member .field,
   .member .method, .member .signature, .member .token, .member .type]

theorem mem_all (kind : OperandKind) : kind ∈ all := by
  cases kind with
  | member kind => cases kind <;> decide
  | _ => decide

/-- Number of bytes of the operand. A switch table has no fixed size. -/
def size? : OperandKind → Option Nat
  | none => some 0
  | int8 | shortLocal | shortArgument | shortBranch => some 1
  | longLocal | longArgument => some 2
  | int32 | float32 | longBranch | userString | member _ => some 4
  | int64 | float64 => some 8
  | switchTable => Option.none

/-- The operand as a message names it. -/
def description : OperandKind → String
  | none => "no operand"
  | int8 => "int8 immediate"
  | int32 => "int32 immediate"
  | int64 => "int64 immediate"
  | float32 => "float32 immediate"
  | float64 => "float64 immediate"
  | shortLocal | longLocal => "local variable"
  | shortArgument | longArgument => "argument"
  | shortBranch | longBranch => "branch label"
  | switchTable => "switch label list"
  | userString => "user string"
  | member _ => "member reference"

/-- Whether the operand holds branch targets. -/
def isBranch : OperandKind → Bool
  | shortBranch | longBranch | switchTable => true
  | _ => false

end OperandKind

/-- Where control goes after an instruction. -/
inductive Flow where
  | sequential
  | conditionalBranch
  | unconditionalBranch
  | call
  | returns
  | switch
  | throws
  | endFinally
  | leave
  /-- The instruction modifies the one after it. -/
  | modifier
deriving DecidableEq, Repr, Inhabited

def Flow.name : Flow → String
  | sequential => "Sequential"
  | conditionalBranch => "ConditionalBranch"
  | unconditionalBranch => "UnconditionalBranch"
  | call => "Call"
  | returns => "Return"
  | switch => "Switch"
  | throws => "Throw"
  | endFinally => "EndFinally"
  | leave => "Leave"
  | modifier => "Meta"

end CilCodec
