import CilCodec.Code.Decode
import CilCodec.Proofs.Bytes.Reading

/-!
# CilCodec.Proofs.Code.Format

The stored form of code, as a relation between instructions and bytes that mentions neither reading
nor writing.

`StoredOperand` has one constructor for each form of operand (III.1.2.2), `StoredInstruction` puts
the bytes of the opcode in front, and `StoredCode` puts instructions one behind the other. Branch
targets are still offsets here: a stored delta counts from the end of its instruction.

The relation leaves one byte open. The top byte of the token of a user string, its tag, can be any
byte, and the operand does not keep it. `Code.tagged` sets the tags of all user strings.

Results:
1. `StoredInstruction.length_eq`, `StoredCode.length_eq`: stored bytes are as many as `size` says.
2. `StoredCode.placeFrom_eq`: stored instructions stand at the offsets their sizes add up to.
3. `tagged_eq_iff`: setting the tags changes nothing exactly if they are set.
-/

namespace CilCodec

open LittleEndian

/-! ## Operands -/

/-- `StoredOperand next kind operand bytes`: an operand of form `kind`, in an instruction that ends
at `next`, is stored as `bytes`. -/
inductive StoredOperand (next : Nat) : OperandKind → Operand RawModel → List UInt8 → Prop
  | none : StoredOperand next .none .none []
  | int8 (value : Int8) : StoredOperand next .int8 (.immediate (.int8 value)) (encode value)
  | int32 (value : Int32) : StoredOperand next .int32 (.immediate (.int32 value)) (encode value)
  | int64 (value : Int64) : StoredOperand next .int64 (.immediate (.int64 value)) (encode value)
  | float32 (value : Binary32) :
      StoredOperand next .float32 (.immediate (.float32 value)) (encode value)
  | float64 (value : Binary64) :
      StoredOperand next .float64 (.immediate (.float64 value)) (encode value)
  | shortLocal (index : UInt8) :
      StoredOperand next .shortLocal (.localVariable index.toUInt16) (encode index)
  | longLocal (index : UInt16) :
      StoredOperand next .longLocal (.localVariable index) (encode index)
  | shortArgument (index : UInt8) :
      StoredOperand next .shortArgument (.argument index.toUInt16) (encode index)
  | longArgument (index : UInt16) :
      StoredOperand next .longArgument (.argument index) (encode index)
  | shortBranch (delta : Int8) :
      StoredOperand next .shortBranch (.target (branchTarget next delta.toInt32)) (encode delta)
  | longBranch (delta : Int32) :
      StoredOperand next .longBranch (.target (branchTarget next delta)) (encode delta)
  | switchTable (count : UInt32) (deltas : List Int32) (hcount : deltas.length = count.toNat) :
      StoredOperand next .switchTable (.switch (deltas.map (branchTarget next)))
        (encode count ++ deltas.flatMap encode)
  /- the tag of the token is not part of the operand -/
  | userString (token : Token) :
      StoredOperand next .userString (.userString token.row) (encode token.value)
  | member (kind : MemberKind) (token : Token) :
      StoredOperand next (.member kind) (.member token) (encode token.value)

namespace StoredOperand

variable {next : Nat} {kind : OperandKind} {operand : Operand RawModel} {bytes : List UInt8}

theorem fits (h : StoredOperand next kind operand bytes) : operand.fits kind = true := by
  cases h <;> rfl

theorem length_eq (h : StoredOperand next kind operand bytes) :
    bytes.length = kind.size?.getD (4 + 4 * operand.switchLength) := by
  cases h with
  | switchTable count deltas hcount =>
    simp only [OperandKind.size?, Option.getD_none, Operand.switchLength, List.length_append,
      length_encode, length_flatMap_encode, List.length_map]
    rfl
  | none => rfl
  | _ => exact length_encode _

/-- Targets are stored as offsets. -/
theorem isDetached_of_mem_labels (h : StoredOperand next kind operand bytes) {label : Label}
    (hlabel : label ∈ operand.labels) : ∃ target, label = .detached target := by
  cases h with
  | shortBranch delta => exact ⟨_, List.mem_singleton.mp hlabel⟩
  | longBranch delta => exact ⟨_, List.mem_singleton.mp hlabel⟩
  | switchTable count deltas hcount =>
    obtain ⟨delta, _, hdelta⟩ := List.mem_map.mp hlabel
    exact ⟨_, hdelta.symm⟩
  | _ => cases hlabel

/-- The rows of user strings are stored in 24 bits. -/
theorem userString_le {index : UInt32} (h : StoredOperand next kind (.userString index) bytes) :
    index.toNat ≤ Token.maxRow := by
  cases h with
  | userString token =>
    rw [Token.toNat_row]
    exact Nat.le_of_lt_succ (Nat.mod_lt _ (by decide))

/-- Behind an opcode, the operand makes up the size of the instruction. -/
theorem length_instruction {M : OperandModel} {i : Instruction M}
    (h : StoredOperand next i.opcode.operandKind operand bytes)
    (hlength : operand.switchLength = i.operand.switchLength) :
    (i.opcode.bytes ++ bytes).length = i.size := by
  rw [List.length_append, Opcode.length_bytes, h.length_eq, hlength]
  unfold Instruction.size Instruction.operandSize
  congr 1
  split
  next size hsize => rw [hsize]; rfl
  next hsize => rw [hsize]; rfl

end StoredOperand

/-! ## Instructions and code -/

/-- `StoredInstruction offset i bytes`: the instruction `i` stands at `offset`, of which it keeps 32
bits, and is stored as `bytes`. -/
inductive StoredInstruction (offset : Nat) : Instruction RawModel → List UInt8 → Prop
  | mk {opcode : Opcode} {operand : Operand RawModel} {bytes : List UInt8} :
      StoredOperand (offset + (opcode.bytes ++ bytes).length) opcode.operandKind operand bytes →
      StoredInstruction offset ⟨low32 offset, opcode, operand⟩ (opcode.bytes ++ bytes)

/-- `StoredCode offset instructions bytes`: the instructions, the first of which stands at
`offset`, are stored as `bytes`, one behind the other. -/
inductive StoredCode : Nat → List (Instruction RawModel) → List UInt8 → Prop
  | nil (offset : Nat) : StoredCode offset [] []
  | cons {offset : Nat} {i : Instruction RawModel} {rest : List (Instruction RawModel)}
      {bytes behind : List UInt8} :
      StoredInstruction offset i bytes → StoredCode (offset + bytes.length) rest behind →
      StoredCode offset (i :: rest) (bytes ++ behind)

theorem StoredInstruction.length_eq {offset : Nat} {i : Instruction RawModel} {bytes : List UInt8}
    (h : StoredInstruction offset i bytes) : bytes.length = i.size := by
  obtain @⟨opcode, operand, bytes, hoperand⟩ := h
  exact hoperand.length_instruction (i := ⟨low32 offset, opcode, operand⟩) rfl

theorem StoredInstruction.operand_eq {offset : Nat} {i : Instruction RawModel}
    {bytes : List UInt8} (h : StoredInstruction offset i bytes) :
    ∃ next stored, StoredOperand next i.opcode.operandKind i.operand stored := by
  obtain ⟨hoperand⟩ := h
  exact ⟨_, _, hoperand⟩

theorem StoredInstruction.offset_eq {offset : Nat} {i : Instruction RawModel} {bytes : List UInt8}
    (h : StoredInstruction offset i bytes) : i.offset = low32 offset := by
  obtain ⟨_⟩ := h
  rfl

namespace StoredCode

variable {offset : Nat} {instructions : List (Instruction RawModel)} {bytes : List UInt8}

theorem length_eq (h : StoredCode offset instructions bytes) :
    bytes.length = totalSize instructions := by
  induction h with
  | nil => rfl
  | cons hfirst _ ih => rw [List.length_append, hfirst.length_eq, ih, totalSize]

theorem placeFrom_eq (h : StoredCode offset instructions bytes) :
    placeFrom offset instructions = instructions := by
  induction h with
  | nil => rfl
  | cons hfirst _ ih =>
    rw [hfirst.length_eq] at ih
    rw [placeFrom, ih, ← hfirst.offset_eq]

end StoredCode

/-! ## Tags of user strings -/

variable {M : OperandModel}

/-- Where the tag of a user string operand stands: the last byte of its token. -/
def Instruction.tagOffset? (i : Instruction M) : Option Nat :=
  if i.opcode.operandKind = .userString then some (i.offset + i.opcode.size + 3) else none

/-- The bytes of an instruction, with the tag set if its operand is a user string. -/
def Instruction.tagged (i : Instruction M) (bytes : List UInt8) : List UInt8 :=
  if i.opcode.operandKind = .userString then
    bytes.set (i.opcode.size + 3) Token.userStringTable
  else bytes

/-- The bytes with the tag of user strings at the given offsets. -/
def setTags (offsets : List Nat) (bytes : List UInt8) : List UInt8 :=
  offsets.foldl (fun bytes offset => bytes.set offset Token.userStringTable) bytes

namespace Code

/-- Where the tags of the user strings of a code stand. -/
def tagOffsets (code : Code M) : List Nat := code.instructions.filterMap Instruction.tagOffset?

/-- The bytes of a code with the tags of all its user strings set. -/
def tagged (code : Code M) (bytes : List UInt8) : List UInt8 := setTags code.tagOffsets bytes

/-- Whether the tags of all user strings of a code are set. -/
def IsTagged (code : Code M) (bytes : List UInt8) : Prop :=
  ∀ offset ∈ code.tagOffsets, bytes[offset]? = some Token.userStringTable

end Code

theorem Instruction.tagOffset_lt {i : Instruction M} {tag : Nat} (h : i.tagOffset? = some tag) :
    tag < i.offset + i.size := by
  unfold tagOffset? at h
  split at h
  next hkind =>
    cases h
    unfold Instruction.size Instruction.operandSize
    rw [hkind]
    show _ < i.offset + (i.opcode.size + 4)
    omega
  next => cases h

@[simp] theorem Instruction.length_tagged (i : Instruction M) (bytes : List UInt8) :
    (i.tagged bytes).length = bytes.length := by
  unfold tagged
  split
  · rw [List.length_set]
  · rfl

@[simp] theorem length_setTags (offsets : List Nat) (bytes : List UInt8) :
    (setTags offsets bytes).length = bytes.length := by
  induction offsets generalizing bytes with
  | nil => rfl
  | cons offset offsets ih =>
    show (setTags offsets (bytes.set offset Token.userStringTable)).length = _
    rw [ih, List.length_set]

theorem getElem?_setTags (offsets : List Nat) (bytes : List UInt8) (k : Nat) :
    (setTags offsets bytes)[k]? =
      if k ∈ offsets ∧ k < bytes.length then some Token.userStringTable else bytes[k]? := by
  induction offsets generalizing bytes with
  | nil => simp [setTags]
  | cons offset offsets ih =>
    show (setTags offsets (bytes.set offset Token.userStringTable))[k]? = _
    rw [ih, List.length_set, List.getElem?_set]
    by_cases hk : k < bytes.length
    · by_cases hmem : k ∈ offsets
      · simp [hk, hmem]
      · by_cases heq : offset = k
        · simp [hk, heq]
        · simp [hmem, heq, Ne.symm heq]
    · have hnone : bytes[k]? = none := List.getElem?_eq_none (Nat.not_lt.mp hk)
      by_cases heq : offset = k
      · simp [hk, heq]
      · simp [hk, heq]

/-- The tags of instructions in a row are those of the first, and those of the rest. -/
theorem setTags_cons {i : Instruction M} {instructions : List (Instruction M)}
    {before bytes behind : List UInt8} (hoffset : i.offset = before.length)
    (hlength : bytes.length = i.size) :
    setTags ((i :: instructions).filterMap Instruction.tagOffset?) (before ++ (bytes ++ behind)) =
      setTags (instructions.filterMap Instruction.tagOffset?)
        (before ++ (i.tagged bytes ++ behind)) := by
  unfold Instruction.tagged
  split
  next hkind =>
    have htag : i.tagOffset? = some (i.offset + i.opcode.size + 3) := if_pos hkind
    have hlt := Instruction.tagOffset_lt htag
    rw [List.filterMap_cons_some htag]
    show setTags _ ((before ++ (bytes ++ behind)).set (i.offset + i.opcode.size + 3) _) = _
    rw [List.set_append_right _ _ (by omega), List.set_append_left _ _ (by omega), hoffset,
      Nat.add_assoc, Nat.add_sub_cancel_left]
  next hkind =>
    have htag : i.tagOffset? = none := if_neg hkind
    rw [List.filterMap_cons_none htag]

/-- Setting the tags changes nothing exactly if they are set, provided that they lie inside. -/
theorem tagged_eq_iff {code : Code M} {bytes : List UInt8}
    (hinside : ∀ offset ∈ code.tagOffsets, offset < bytes.length) :
    code.tagged bytes = bytes ↔ code.IsTagged bytes := by
  unfold Code.tagged Code.IsTagged
  constructor
  · intro h offset hmem
    have hat := getElem?_setTags code.tagOffsets bytes offset
    rw [h, if_pos ⟨hmem, hinside offset hmem⟩] at hat
    exact hat
  · intro h
    apply List.ext_getElem?
    intro k
    rw [getElem?_setTags]
    split
    next hk => rw [h k hk.1]
    next => rfl

end CilCodec
