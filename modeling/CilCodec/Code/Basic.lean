import CilCodec.Code.Instruction
import CilCodec.Code.Offsets

/-!
# CilCodec.Code.Basic

The code of a method: instructions in order, each with its offset.

Every operation leaves each instruction at the offset that the sizes of those before it add up to,
or, from 4 GiB on, at what a word keeps of it. Labels name instructions by index, so `insertAt?` and
`removeAt?` renumber them: a branch keeps its target, and one to a removed instruction goes to the
instruction behind it.
-/

namespace CilCodec

/-- The instructions with the offsets they have if the first stands at `offset`. The sum is exact,
and each instruction gets what a word keeps of it. -/
def placeFrom {M : OperandModel} (offset : Nat) : List (Instruction M) → List (Instruction M)
  | [] => []
  | i :: rest => { i with offset := low32 offset } :: placeFrom (offset + i.size) rest

/-- Number of bytes of instructions in a row. -/
def totalSize {M : OperandModel} : List (Instruction M) → Nat
  | [] => 0
  | i :: rest => i.size + totalSize rest

/-- The code of a method. -/
structure Code (M : OperandModel) where
  instructions : List (Instruction M)

namespace Code

variable {M : OperandModel}

/-- No instructions. -/
def empty : Code M := ⟨[]⟩

/-- The code of given instructions, whatever offsets they carry. -/
def ofList (instructions : List (Instruction M)) : Code M := ⟨placeFrom 0 instructions⟩

/-- Number of instructions. -/
def length (code : Code M) : Nat := code.instructions.length

/-- Number of bytes. -/
def size (code : Code M) : Nat := totalSize code.instructions

/-- The offsets of the instructions. -/
def offsets (code : Code M) : Array Nat := (code.instructions.map Instruction.offset).toArray

/-- The offsets of the instructions, and that of the end. -/
def boundaries (code : Code M) : Array Nat := code.offsets.push code.size

/-- The labels of every instruction. -/
def labels (code : Code M) : List (List Label) := code.instructions.map Instruction.labels

/-- The instruction at an index. -/
def get? (code : Code M) (index : Nat) : Option (Instruction M) := code.instructions[index]?

/-- Equality up to the text of numbers: constants are compared as numbers. -/
def sameValue [BEq M.Member] [BEq M.UserString] [BEq M.LocalVariable] [BEq M.Argument]
    (a b : Code M) : Bool :=
  a.length == b.length &&
    (a.instructions.zip b.instructions).all fun (x, y) => x.sameValue y

/-! ## Editing -/

/-- The code with its offsets worked out anew. -/
def placed (code : Code M) : Code M := ofList code.instructions

/-- The code with an instruction at its end. Its labels stay as they are. -/
def push (code : Code M) (i : Instruction M) : Code M :=
  ⟨code.instructions ++ [{ i with offset := low32 code.size }]⟩

/-- How indices change when an instruction is inserted at `index`. Indices are numbers without a
bound here, where a machine keeps them in 64 bits: to insert in front of a label that is already
`2 ^ 64 - 1`, which names no instruction of any code that fits, is outside the model. -/
def indexAfterInsert (index t : Nat) : Nat := if index ≤ t then t + 1 else t

/-- How indices change when the instruction at `index` is removed. -/
def indexAfterRemove (index t : Nat) : Nat := if index < t then t - 1 else t

/-- The code with an instruction inserted before the one at `index`, which is at most the length.
Labels of the new instruction stay as they are, those of the others keep their targets. -/
def insertAt? (code : Code M) (index : Nat) (i : Instruction M) : Option (Code M) :=
  if index ≤ code.length then
    let moved := code.instructions.map
      (Instruction.mapLabels (Label.mapIndex (indexAfterInsert index)))
    some (ofList (moved.insertIdx index i))
  else
    none

/-- The instruction at `index`, and the code without it. Labels to it go to the next instruction. -/
def removeAt? (code : Code M) (index : Nat) : Option (Instruction M × Code M) :=
  match code.get? index with
  | none => none
  | some removed =>
    let left := (code.instructions.eraseIdx index).map
      (Instruction.mapLabels (Label.mapIndex (indexAfterRemove index)))
    some (removed, ofList left)

/-- The instruction at `index`, and the code with another in its place. Labels stay. -/
def replaceAt? (code : Code M) (index : Nat) (i : Instruction M) :
    Option (Instruction M × Code M) :=
  match code.get? index with
  | none => none
  | some replaced => some (replaced, ofList (code.instructions.set index i))

/-! ## Labels and offsets -/

/-- The label of the offset `target` in code of `size` bytes with instructions at `offsets`. In code
of more than 4 GiB the offsets do not ascend, and the search may find any place of the target, or
none. -/
def labelFor (offsets : Array Nat) (size : Nat) (target : Int64) : Label :=
  if target.toInt = size then
    .instruction offsets.size
  else if target.toInt < 0 then
    .detached target
  else
    match offsetIndex? offsets target.toInt.toNat with
    | some index => .instruction index
    | none => .detached target

/-- The index of the instruction that starts at an offset. -/
def indexAt? (code : Code M) (offset : Nat) : Option Nat := offsetIndex? code.offsets offset

/-- The label of an offset: an instruction or the end of the code if one is there. -/
def labelAt (code : Code M) (offset : Int64) : Label := labelFor code.offsets code.size offset

/-- The offset of a label in code with given boundaries; an index beyond the end has none. -/
def offsetOf? (boundaries : Array Nat) : Label → Option Int
  | .instruction index => boundaries[index]?.map Int.ofNat
  | .detached offset => some offset.toInt

/-- The offset of a label; an index beyond the end has none. -/
def labelOffset? (code : Code M) (label : Label) : Option Int := offsetOf? code.boundaries label

end Code

end CilCodec
