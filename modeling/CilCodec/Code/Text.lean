import CilCodec.Code.Basic
import CilCodec.Text.Quoted

/-!
# CilCodec.Code.Text

Code as text: the listing, one line for each instruction, and the dump with every field.
-/

namespace CilCodec

namespace Code

variable {M : OperandModel}

/-- The text of an offset in a listing. -/
def offsetText (offset : Int) : String :=
  if 0 ≤ offset then "IL_" ++ lowerHex 4 offset.toNat else "IL_-" ++ lowerHex 4 (-offset).toNat

/-- The text of a label in a listing of code with given boundaries: the offset it stands for. -/
def labelText (boundaries : Array Nat) (label : Label) : String :=
  match offsetOf? boundaries label with
  | some offset => offsetText offset
  | none => "IL_????"

/-- The text of an operand in a listing, with the blank before it. -/
def operandText (boundaries : Array Nat) (names : OperandText M) : Operand M → String
  | .none => ""
  | .immediate value => " " ++ value.text
  | .localVariable v => " " ++ names.localVariable v
  | .argument a => " " ++ names.argument a
  | .target label => " " ++ labelText boundaries label
  | .switch labels => " (" ++ ", ".intercalate (labels.map (labelText boundaries)) ++ ")"
  | .userString s => " " ++ names.userString s
  | .member m => " " ++ names.member m

/-- One line of a listing. -/
def lineText (boundaries : Array Nat) (names : OperandText M) (i : Instruction M) : String :=
  offsetText i.offset ++ ": " ++ i.opcode.mnemonic ++ operandText boundaries names i.operand ++ "\n"

/-- The listing: one line for each instruction. -/
def text (code : Code M) (names : OperandText M) : String :=
  String.join (code.instructions.map (lineText code.boundaries names))

/-- The dump of the code. -/
def detail (code : Code M) (names : OperandText M) : String :=
  let shown := ", ".intercalate (code.instructions.map (Instruction.detail names))
  s!"CilCode \x7b instructions: [{shown}] \x7d"

end Code

end CilCodec
