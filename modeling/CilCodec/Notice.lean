import CilCodec.Error

/-!
# CilCodec.Notice

Remarks made on the way: things worth knowing that do not stop reading or writing.
-/

namespace CilCodec

/-- How much a notice matters. -/
inductive NoticeLevel where
  | debug
  | warning
deriving DecidableEq, Repr

def NoticeLevel.name : NoticeLevel → String
  | debug => "DEBUG"
  | warning => "WARN"

/-- A remark. -/
inductive Notice where
  /-- A user string operand does not carry the table byte of user strings. -/
  | untaggedString (offset : Nat) (token : Token)
  /-- A member operand names none of the usual tables. -/
  | unusualTable (opcode : Opcode) (offset : Nat) (token : Token) (kind : MemberKind)
  /-- A branch goes to no instruction. -/
  | looseBranch (offset : Nat) (target : Int)
  /-- A fat header is larger than its fields. -/
  | headerExtra (bytes : Nat)
  /-- A section is not an exception table. -/
  | foreignSection (flags : UInt8) (bytes : Nat)
  /-- Sections from a malformed one on are left out. -/
  | sectionDropped (clauses : Nat) (cause : Error)
  /-- A row count belongs to no table. -/
  | unknownTable (number : UInt8)
  /-- An import by ordinal has bits set above the ordinal. -/
  | ordinalReservedBits (raw : UInt64)
  /-- A method body is about to be written. -/
  | framing (isFat : Bool) (codeBytes handlers : Nat)
deriving DecidableEq, Repr

namespace Notice

def level : Notice → NoticeLevel
  | sectionDropped .. => .warning
  | _ => .debug

def message : Notice → String
  | untaggedString offset token =>
    s!"ldstr at offset {offset} carries token {token.text} without the user string tag"
  | unusualTable opcode offset token kind =>
    s!"{opcode.mnemonic} at offset {offset} references {token.text} outside the usual " ++
      s!"{kind.name} tables"
  | looseBranch offset target =>
    s!"Branch at code offset {offset} targets {target}, which is not an instruction boundary"
  | headerExtra bytes => s!"Skipping {bytes} extra bytes of fat method header"
  | foreignSection flags bytes =>
    s!"Skipping method data section with flags 0x{upperHex 2 flags.toNat} ({bytes} bytes)"
  | sectionDropped clauses cause =>
    s!"Dropping malformed method data section, keeping {clauses} clause(s): {cause.message}"
  | unknownTable number => s!"Ignoring row count of unknown table 0x{upperHex 2 number.toNat}"
  | ordinalReservedBits raw =>
    s!"Ignoring reserved bits of ordinal thunk 0x{upperHex 0 raw.toNat}"
  | framing isFat codeBytes handlers =>
    let format := if isFat then "fat" else "tiny"
    s!"Framing method body as {format} ({codeBytes} code bytes, {handlers} handler(s))"

/-- The level and the message. -/
def text (n : Notice) : String := n.level.name ++ " " ++ n.message

end Notice

end CilCodec
