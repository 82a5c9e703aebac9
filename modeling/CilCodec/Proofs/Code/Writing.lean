import Mathlib.Data.List.Forall2
import CilCodec.Proofs.Bytes.Writing
import CilCodec.Proofs.Code.Format
import CilCodec.Proofs.Code.Labels

/-!
# CilCodec.Proofs.Code.Writing

Writing code, against the stored form.

Operands are written with their labels unbound, so `writeOperand offsets` on an operand stands
against the stored form of `operand.mapLabels (Label.unbind offsets)`.

Results:
1. `writeLongDelta_eq_ok`, `writeShortDelta_eq_ok`: a branch is written exactly if the delta that
   leads to its target can be stored.
2. `writeOperand_sound`, `writeOperand_complete`: what is written is a stored form of the operand,
   and each operand with a stored form is written as that form with its tag set.
-/

namespace CilCodec

open Writer LittleEndian

/-! ## Branches -/

theorem branchTarget_eq (next : Nat) (delta : Int32) :
    branchTarget next delta = .detached (delta.toInt64 + Int64.ofNat next) := by
  unfold branchTarget
  rw [Int64.ofInt_add, Int64.ofInt_eq_ofNat, Int64.ofInt_int32ToInt, Int64.add_comm]

/-- Where a branch leads is the sum of two numbers, for an end that is no offset beyond 4 GiB. -/
theorem detached_eq_branchTarget {next : Nat} (hnext : next ≤ 0xffffffff) {target : Int64}
    {delta : Int32} :
    .detached target = branchTarget next delta ↔ delta.toInt = target.toInt - next := by
  have hlow := delta.le_toInt
  have hhigh := delta.toInt_lt
  unfold branchTarget
  rw [Label.detached.injEq, ← Int64.toInt_inj, Int64.toInt_ofInt_of_le (by omega) (by omega)]
  omega

/-- What is worked out for a branch is the exact distance to its target. -/
theorem branchDelta_eq_ok {offsets : Array Nat} {offset next : Nat} (hnext : next ≤ 0xffffffff)
    {label : Label} {delta : Int64} :
    branchDelta offsets offset next label = .ok delta ↔
      ∃ target, label.unbind offsets = .detached target ∧ delta.toInt = target.toInt - next := by
  have hofNat : (Int64.ofNat next).toInt = next :=
    Int64.toInt_ofNat_of_lt (Nat.lt_of_le_of_lt hnext (by decide))
  simp only [← targetOffset_eq_ok offset]
  unfold branchDelta
  cases targetOffset offsets offset label with
  | ok target => simp [subInt64_eq_ok, hofNat]
  | error e => simp

theorem fitsInt8_iff {delta : Int64} : fitsInt8 delta = true ↔ ∃ d : Int8, d.toInt64 = delta := by
  unfold fitsInt8
  rw [Bool.and_eq_true, decide_eq_true_iff, decide_eq_true_iff]
  constructor
  · rintro ⟨hlow, hhigh⟩
    refine ⟨delta.toInt8, Int64.toInt_inj.mp ?_⟩
    rw [Int8.toInt_toInt64, Int64.toInt_toInt8]
    exact Int.bmod_eq_of_le hlow hhigh
  · rintro ⟨d, rfl⟩
    rw [Int8.toInt_toInt64]
    exact ⟨d.le_toInt, d.toInt_lt⟩

theorem fitsInt32_iff {delta : Int64} :
    fitsInt32 delta = true ↔ ∃ d : Int32, d.toInt64 = delta := by
  unfold fitsInt32
  rw [Bool.and_eq_true, decide_eq_true_iff, decide_eq_true_iff]
  constructor
  · rintro ⟨hlow, hhigh⟩
    refine ⟨delta.toInt32, Int64.toInt_inj.mp ?_⟩
    rw [Int32.toInt_toInt64, Int64.toInt_toInt32]
    exact Int.bmod_eq_of_le hlow hhigh
  · rintro ⟨d, rfl⟩
    rw [Int32.toInt_toInt64]
    exact ⟨d.le_toInt, d.toInt_lt⟩

section Branches

variable {offsets : Array Nat} {opcode : Opcode} {offset next : Nat} {b b' : Buffer} {u : Unit}

theorem branchDelta_toInt64_eq_ok (offset : Nat) (hnext : next ≤ 0xffffffff) {label : Label}
    {delta : Int32} :
    branchDelta offsets offset next label = .ok delta.toInt64 ↔
      label.unbind offsets = branchTarget next delta := by
  rw [branchDelta_eq_ok hnext, Int32.toInt_toInt64]
  constructor
  · rintro ⟨target, hlabel, hdelta⟩
    rw [hlabel]
    exact (detached_eq_branchTarget hnext).mpr hdelta
  · intro hlabel
    exact ⟨_, hlabel, (detached_eq_branchTarget hnext).mp rfl⟩

theorem writeShortDelta_eq_ok (hnext : next ≤ 0xffffffff) {label : Label} :
    writeShortDelta offsets opcode offset next label b = .ok u b' ↔
      ∃ delta : Int8, label.unbind offsets = branchTarget next delta.toInt32 ∧
        b.append (encode delta) = b' := by
  unfold writeShortDelta
  simp only [bind_eq_ok, ofAnswer_eq_ok, guarded_eq_ok, fitsInt8_iff, word_eq_ok,
    ← branchDelta_toInt64_eq_ok offset hnext, Int8.toInt64_toInt32]
  constructor
  · rintro ⟨_, _, ⟨hdelta, rfl⟩, ⟨delta, rfl⟩, rfl⟩
    exact ⟨delta, hdelta, by rw [Int8.toInt8_toInt64]⟩
  · rintro ⟨delta, hdelta, rfl⟩
    exact ⟨_, b, ⟨hdelta, rfl⟩, ⟨delta, rfl⟩, by rw [Int8.toInt8_toInt64]⟩

theorem writeLongDelta_eq_ok (hnext : next ≤ 0xffffffff) {label : Label} :
    writeLongDelta offsets opcode offset next label b = .ok u b' ↔
      ∃ delta : Int32, label.unbind offsets = branchTarget next delta ∧
        b.append (encode delta) = b' := by
  unfold writeLongDelta
  simp only [bind_eq_ok, ofAnswer_eq_ok, guarded_eq_ok, fitsInt32_iff, word_eq_ok,
    ← branchDelta_toInt64_eq_ok offset hnext]
  constructor
  · rintro ⟨_, _, ⟨hdelta, rfl⟩, ⟨delta, rfl⟩, rfl⟩
    exact ⟨delta, hdelta, by rw [Int32.toInt32_toInt64]⟩
  · rintro ⟨delta, hdelta, rfl⟩
    exact ⟨_, b, ⟨hdelta, rfl⟩, ⟨delta, rfl⟩, by rw [Int32.toInt32_toInt64]⟩

theorem each_writeLongDelta_eq_ok (hnext : next ≤ 0xffffffff) {labels : List Label} :
    each (writeLongDelta offsets opcode offset next) labels b = .ok u b' ↔
      ∃ deltas : List Int32, labels.map (Label.unbind offsets) = deltas.map (branchTarget next) ∧
        b.append (deltas.flatMap encode) = b' := by
  induction labels generalizing b with
  | nil =>
    rw [each, List.map_nil]
    constructor
    · intro h
      cases h
      exact ⟨[], rfl, Buffer.append_nil _⟩
    · rintro ⟨deltas, hlabels, rfl⟩
      cases deltas with
      | nil => rw [List.flatMap_nil, Buffer.append_nil]
      | cons => cases hlabels
  | cons label labels ih =>
    simp only [each_cons_eq_ok, writeLongDelta_eq_ok hnext, ih]
    constructor
    · rintro ⟨_, ⟨delta, hlabel, rfl⟩, deltas, hlabels, rfl⟩
      refine ⟨delta :: deltas, ?_, ?_⟩
      · rw [List.map_cons, List.map_cons, hlabel, hlabels]
      · rw [List.flatMap_cons, Buffer.append_append]
    · rintro ⟨deltas, hlabels, rfl⟩
      cases deltas with
      | nil => cases hlabels
      | cons delta deltas =>
        rw [List.map_cons, List.map_cons, List.cons.injEq] at hlabels
        refine ⟨_, ⟨delta, hlabels.1, rfl⟩, deltas, hlabels.2, ?_⟩
        rw [List.flatMap_cons, Buffer.append_append]

end Branches

/-! ## Operands -/

theorem writeShortIndex_eq_ok {kind : IndexKind} {index : UInt16} {offset : Nat} {b b' : Buffer}
    {u : Unit} :
    writeShortIndex kind index offset b = .ok u b' ↔
      ∃ byte : UInt8, byte.toUInt16 = index ∧ b.append (encode byte) = b' := by
  unfold writeShortIndex
  rw [guarded_eq_ok, word_eq_ok]
  constructor
  · rintro ⟨hle, rfl⟩
    refine ⟨index.toUInt8, UInt16.toNat_inj.mp ?_, rfl⟩
    rw [UInt8.toNat_toUInt16, UInt16.toNat_toUInt8]
    exact Nat.mod_eq_of_lt (Nat.lt_succ_of_le hle)
  · rintro ⟨byte, rfl, rfl⟩
    rw [UInt8.toUInt8_toUInt16, UInt8.toNat_toUInt16]
    exact ⟨Nat.le_of_lt_succ byte.toNat_lt, rfl⟩

/-- The bytes of an operand of form `kind` with the tag of a user string set. -/
def OperandKind.tagged (kind : OperandKind) (bytes : List UInt8) : List UInt8 :=
  if kind = .userString then bytes.set 3 Token.userStringTable else bytes

/-- Setting the tag of a token gives the token of a user string. -/
theorem encode_userString (token : Token) :
    encode (Token.ofUserString token.row).value =
      (encode token.value).set 3 Token.userStringTable := by
  have hvalue := token.value.toNat_lt
  have hrow := Token.toNat_ofParts Token.userStringTable token.row
  rw [Token.toNat_row] at hrow
  change _ = 0x70 * 0x1000000 + _ at hrow
  show leBytes 4 (Token.ofUserString token.row).value.toNat =
    (leBytes 4 token.value.toNat).set 3 (UInt8.ofNat 0x70)
  unfold Token.ofUserString
  simp only [leBytes, List.set_cons_succ, List.set_cons_zero, List.cons.injEq, and_true,
    ← UInt8.toNat_inj, UInt8.toNat_ofNat']
  omega

section Operands

variable {offsets : Array Nat} {opcode : Opcode} {offset next : Nat}

/-! What is written for operands with a short and a long form. -/

theorem writeOperand_shortLocal {index : UInt16} (h : opcode.operandKind = .shortLocal) :
    writeOperand offsets opcode offset next (.localVariable index) =
      writeShortIndex .localVariable index offset :=
  if_pos h

theorem writeOperand_longLocal {index : UInt16} (h : opcode.operandKind = .longLocal) :
    writeOperand offsets opcode offset next (.localVariable index) = word index :=
  if_neg (by rw [h]; decide)

theorem writeOperand_shortArgument {index : UInt16} (h : opcode.operandKind = .shortArgument) :
    writeOperand offsets opcode offset next (.argument index) =
      writeShortIndex .argument index offset :=
  if_pos h

theorem writeOperand_longArgument {index : UInt16} (h : opcode.operandKind = .longArgument) :
    writeOperand offsets opcode offset next (.argument index) = word index :=
  if_neg (by rw [h]; decide)

theorem writeOperand_shortBranch {label : Label} (h : opcode.operandKind = .shortBranch) :
    writeOperand offsets opcode offset next (.target label) =
      writeShortDelta offsets opcode offset next label :=
  if_pos h

theorem writeOperand_longBranch {label : Label} (h : opcode.operandKind = .longBranch) :
    writeOperand offsets opcode offset next (.target label) =
      writeLongDelta offsets opcode offset next label :=
  if_neg (by rw [h]; decide)

/-- The targets of a switch are written behind their number. -/
theorem writeOperand_switch_eq_ok (hnext : next ≤ 0xffffffff) {labels : List Label}
    {b b' : Buffer} {u : Unit} :
    writeOperand offsets opcode offset next (.switch labels) b = .ok u b' ↔
      ∃ deltas : List Int32, labels.map (Label.unbind offsets) = deltas.map (branchTarget next) ∧
        b.append (encode (UInt32.ofNat labels.length) ++ deltas.flatMap encode) = b' := by
  have hopen : writeOperand offsets opcode offset next (.switch labels) b = .ok u b' ↔
      each (writeLongDelta offsets opcode offset next) labels
        (b.append (encode (UInt32.ofNat labels.length))) = .ok u b' := Iff.rfl
  rw [hopen, each_writeLongDelta_eq_ok hnext]
  simp only [Buffer.append_append]

/-- A user string is written as a token, if the token has room for its index. -/
theorem writeOperand_userString_eq_ok {index : UInt32} {b b' : Buffer} {u : Unit} :
    writeOperand offsets opcode offset next (.userString index) b = .ok u b' ↔
      index.toNat ≤ Token.maxRow ∧ b.append (encode (Token.ofUserString index).value) = b' := by
  show (if _ then _ else _ : Writer Unit) b = _ ↔ _
  rw [guarded_eq_ok, word_eq_ok]

theorem writeOperand_sound {operand : Operand RawModel} {b b' : Buffer} {u : Unit}
    (hnext : next ≤ 0xffffffff) (hfits : operand.fits opcode.operandKind = true)
    (hlength : operand.switchLength ≤ 0xffffffff)
    (h : writeOperand offsets opcode offset next operand b = .ok u b') :
    ∃ bytes, StoredOperand next opcode.operandKind (operand.mapLabels (Label.unbind offsets))
      bytes ∧ b.append bytes = b' := by
  generalize hkind : opcode.operandKind = kind at hfits ⊢
  unfold Operand.fits at hfits
  split at hfits
  next =>
    obtain ⟨_, rfl⟩ := pure_eq_ok.mp h
    exact ⟨[], .none, b.append_nil⟩
  next value => exact ⟨_, .int8 value, word_eq_ok.mp h⟩
  next value => exact ⟨_, .int32 value, word_eq_ok.mp h⟩
  next value => exact ⟨_, .int64 value, word_eq_ok.mp h⟩
  next value => exact ⟨_, .float32 value, word_eq_ok.mp h⟩
  next value => exact ⟨_, .float64 value, word_eq_ok.mp h⟩
  next =>
    rw [writeOperand_shortLocal hkind] at h
    obtain ⟨byte, rfl, rfl⟩ := writeShortIndex_eq_ok.mp h
    exact ⟨_, .shortLocal byte, rfl⟩
  next index =>
    rw [writeOperand_longLocal hkind] at h
    exact ⟨_, .longLocal index, word_eq_ok.mp h⟩
  next =>
    rw [writeOperand_shortArgument hkind] at h
    obtain ⟨byte, rfl, rfl⟩ := writeShortIndex_eq_ok.mp h
    exact ⟨_, .shortArgument byte, rfl⟩
  next index =>
    rw [writeOperand_longArgument hkind] at h
    exact ⟨_, .longArgument index, word_eq_ok.mp h⟩
  next =>
    rw [writeOperand_shortBranch hkind] at h
    obtain ⟨delta, hlabel, rfl⟩ := (writeShortDelta_eq_ok hnext).mp h
    rw [Operand.mapLabels, hlabel]
    exact ⟨_, .shortBranch delta, rfl⟩
  next =>
    rw [writeOperand_longBranch hkind] at h
    obtain ⟨delta, hlabel, rfl⟩ := (writeLongDelta_eq_ok hnext).mp h
    rw [Operand.mapLabels, hlabel]
    exact ⟨_, .longBranch delta, rfl⟩
  next labels =>
    obtain ⟨deltas, hlabels, rfl⟩ := (writeOperand_switch_eq_ok hnext).mp h
    -- the number of targets is written modulo 2 ^ 32, and the code would not fit with more
    have hlength : labels.length ≤ 0xffffffff := hlength
    have hcount : deltas.length = (UInt32.ofNat labels.length).toNat := by
      rw [UInt32.toNat_ofNat_of_lt' (Nat.lt_succ_of_le hlength), ← List.length_map,
        ← hlabels, List.length_map]
    rw [Operand.mapLabels, hlabels]
    exact ⟨_, .switchTable _ deltas hcount, rfl⟩
  next index =>
    obtain ⟨hle, rfl⟩ := writeOperand_userString_eq_ok.mp h
    have hstored : StoredOperand next .userString (.userString (Token.ofUserString index).row)
      (encode (Token.ofUserString index).value) := .userString _
    have hrow : (Token.ofUserString index).row = index := Token.row_ofParts hle
    rw [hrow] at hstored
    exact ⟨_, hstored, rfl⟩
  next kind => exact ⟨_, .member kind _, word_eq_ok.mp h⟩
  next => cases hfits

theorem writeOperand_complete {operand : Operand RawModel} {bytes : List UInt8}
    (hnext : next ≤ 0xffffffff)
    (h : StoredOperand next opcode.operandKind (operand.mapLabels (Label.unbind offsets)) bytes) :
    Puts (writeOperand offsets opcode offset next operand)
      (opcode.operandKind.tagged bytes) := by
  have hfits := h.fits
  rw [Operand.fits_mapLabels] at hfits
  generalize hkind : opcode.operandKind = kind at hfits h ⊢
  intro b
  unfold Operand.fits at hfits
  split at hfits
  next =>
    cases h
    exact pure_puts b
  iterate 5
    next =>
      cases h
      exact word_puts _ b
  next =>
    cases h with
    | shortLocal byte =>
      rw [writeOperand_shortLocal hkind]
      exact writeShortIndex_eq_ok.mpr ⟨byte, rfl, rfl⟩
  next =>
    cases h
    rw [writeOperand_longLocal hkind]
    exact word_puts _ b
  next =>
    cases h with
    | shortArgument byte =>
      rw [writeOperand_shortArgument hkind]
      exact writeShortIndex_eq_ok.mpr ⟨byte, rfl, rfl⟩
  next =>
    cases h
    rw [writeOperand_longArgument hkind]
    exact word_puts _ b
  next label =>
    rw [writeOperand_shortBranch hkind]
    -- the label was unbound before it was stored, so only its offset is known
    generalize hlabel : Operand.mapLabels _ _ = unbound at h
    cases h with
    | shortBranch delta =>
      exact (writeShortDelta_eq_ok hnext).mpr ⟨delta, Operand.target.inj hlabel, rfl⟩
  next label =>
    rw [writeOperand_longBranch hkind]
    generalize hlabel : Operand.mapLabels _ _ = unbound at h
    cases h with
    | longBranch delta =>
      exact (writeLongDelta_eq_ok hnext).mpr ⟨delta, Operand.target.inj hlabel, rfl⟩
  next labels =>
    generalize hlabels : Operand.mapLabels _ _ = unbound at h
    cases h with
    | switchTable count deltas hcount =>
      have hmap := Operand.switch.inj hlabels
      have hlength : UInt32.ofNat labels.length = count := by
        rw [← List.length_map (Label.unbind offsets), hmap, List.length_map, hcount,
          UInt32.ofNat_toNat]
      refine (writeOperand_switch_eq_ok hnext).mpr ⟨deltas, hmap, ?_⟩
      rw [hlength]
      rfl
  next index =>
    cases h with
    | userString token =>
      have hle : token.row.toNat ≤ Token.maxRow := by
        rw [Token.toNat_row]
        exact Nat.le_of_lt_succ (Nat.mod_lt _ (by decide))
      have htagged : OperandKind.userString.tagged (encode token.value) =
          encode (Token.ofUserString token.row).value := (encode_userString token).symm
      rw [htagged]
      exact writeOperand_userString_eq_ok.mpr ⟨hle, rfl⟩
  next =>
    cases h
    exact word_puts _ b
  next => cases hfits

end Operands

/-! ## Lowering -/

variable {M : OperandModel} {B : Builder M}

namespace Operand

variable {operand : Operand M} {stored : Operand RawModel}

theorem fits_of_lower (h : operand.lower B = .ok stored) (kind : OperandKind) :
    stored.fits kind = operand.fits kind := by
  cases operand with
  | immediate value =>
    cases h
    cases value <;> cases kind <;> rfl
  | none | target | switch =>
    cases h
    cases kind <;> rfl
  | localVariable | argument | userString | member =>
    obtain ⟨_, _, rfl⟩ := map_eq_ok.mp h
    cases kind <;> rfl

theorem switchLength_of_lower (h : operand.lower B = .ok stored) :
    stored.switchLength = operand.switchLength := by
  cases operand with
  | none | immediate | target | switch =>
    cases h
    rfl
  | localVariable | argument | userString | member =>
    obtain ⟨_, _, rfl⟩ := map_eq_ok.mp h
    rfl

theorem labels_of_lower (h : operand.lower B = .ok stored) : stored.labels = operand.labels := by
  cases operand with
  | none | immediate | target | switch =>
    cases h
    rfl
  | localVariable | argument | userString | member =>
    obtain ⟨_, _, rfl⟩ := map_eq_ok.mp h
    rfl

end Operand

/-- `Lowers B offsets i raw`: what `raw` stores is what `B` answers for the operand of `i`, with the
labels at `offsets` unbound. -/
def Lowers (B : Builder M) (offsets : Array Nat) (i : Instruction M)
    (raw : Instruction RawModel) : Prop :=
  raw.opcode = i.opcode ∧ ∃ stored, i.operand.lower B = .ok stored ∧
    raw.operand = stored.mapLabels (Label.unbind offsets)

theorem Lowers.switchLength_eq {offsets : Array Nat} {i : Instruction M}
    {raw : Instruction RawModel} (h : Lowers B offsets i raw) :
    raw.operand.switchLength = i.operand.switchLength := by
  obtain ⟨_, stored, hlower, hraw⟩ := h
  rw [hraw, Operand.switchLength_mapLabels, Operand.switchLength_of_lower hlower]

theorem Lowers.size_eq {offsets : Array Nat} {i : Instruction M} {raw : Instruction RawModel}
    (h : Lowers B offsets i raw) : raw.size = i.size := by
  unfold Instruction.size Instruction.operandSize
  rw [h.switchLength_eq, h.1]

theorem totalSize_of_lowers {offsets : Array Nat} {instructions : List (Instruction M)}
    {raws : List (Instruction RawModel)}
    (h : List.Forall₂ (Lowers B offsets) instructions raws) :
    totalSize raws = totalSize instructions := by
  induction h with
  | nil => rfl
  | cons hfirst _ ih => rw [totalSize, totalSize, hfirst.size_eq, ih]

/-- The bytes of lowered code are as many as its instructions say. -/
theorem length_of_lowers {offsets : Array Nat} {instructions : List (Instruction M)}
    {raws : List (Instruction RawModel)} {offset : Nat} {bytes : List UInt8}
    (h : List.Forall₂ (Lowers B offsets) instructions raws)
    (hstored : StoredCode offset raws bytes) : bytes.length = totalSize instructions :=
  hstored.length_eq.trans (totalSize_of_lowers h)

theorem switchLength_le_size {i : Instruction M}
    (h : i.operand.fits i.opcode.operandKind = true) : i.operand.switchLength ≤ i.size := by
  unfold Instruction.size Instruction.operandSize
  cases hoperand : i.operand with
  | switch labels =>
    rw [hoperand] at h
    cases hkind : i.opcode.operandKind with
    | switchTable =>
      show labels.length ≤ i.opcode.size + (4 + 4 * labels.length)
      omega
    | _ =>
      rw [hkind] at h
      cases h
  | _ => exact Nat.zero_le _

/-! ## Instructions -/

section Instructions

variable {offsets : Array Nat} {offset : Nat} {i : Instruction M}

theorem writeInstruction_eq_ok {b b' : Buffer} {u : Unit} :
    writeInstruction offsets B offset i b = .ok u b' ↔
      i.operand.fits i.opcode.operandKind = true ∧ ∃ stored, i.operand.lower B = .ok stored ∧
        writeOperand offsets i.opcode offset (offset + i.size) stored (b.append i.opcode.bytes) =
          .ok u b' := by
  unfold writeInstruction
  rw [require_eq_ok]
  simp only [bind_eq_ok, put_eq_ok, ofResult_eq_ok]
  constructor
  · rintro ⟨hfits, _, _, rfl, stored, _, ⟨hlower, rfl⟩, h⟩
    exact ⟨hfits, stored, hlower, h⟩
  · rintro ⟨hfits, stored, hlower, h⟩
    exact ⟨hfits, (), _, rfl, stored, _, ⟨hlower, rfl⟩, h⟩

theorem writeInstruction_sound {b b' : Buffer} {u : Unit} (hend : offset + i.size ≤ 0xffffffff)
    (h : writeInstruction offsets B offset i b = .ok u b') :
    ∃ raw bytes, Lowers B offsets i raw ∧ StoredInstruction offset raw bytes ∧
      b.append bytes = b' := by
  obtain ⟨hfits, stored, hlower, hwrite⟩ := writeInstruction_eq_ok.mp h
  have hlength := Operand.switchLength_of_lower hlower
  have hshort := switchLength_le_size hfits
  obtain ⟨bytes, hstored, rfl⟩ := writeOperand_sound hend
    ((Operand.fits_of_lower hlower _).trans hfits) (by omega) hwrite
  refine ⟨⟨low32 offset, i.opcode, stored.mapLabels (Label.unbind offsets)⟩,
    i.opcode.bytes ++ bytes, ⟨rfl, stored, hlower, rfl⟩, .mk ?_, (Buffer.append_append _ _ _).symm⟩
  rw [hstored.length_instruction ((Operand.switchLength_mapLabels _ _).trans hlength)]
  exact hstored

theorem writeInstruction_complete {raw : Instruction RawModel} {bytes : List UInt8}
    (hend : offset + i.size ≤ 0xffffffff) (hlowers : Lowers B offsets i raw)
    (h : StoredInstruction offset raw bytes) :
    Puts (writeInstruction offsets B offset i) (raw.tagged bytes) := by
  intro b
  have hsize := h.length_eq.trans hlowers.size_eq
  obtain @⟨_, _, bytes, hstored⟩ := h
  obtain ⟨hopcode, stored, hlower, hoperand⟩ := hlowers
  dsimp only at hopcode hoperand
  subst hopcode hoperand
  have hfits : i.operand.fits i.opcode.operandKind = true := by
    rw [← Operand.fits_of_lower hlower, ← Operand.fits_mapLabels (Label.unbind offsets)]
    exact hstored.fits
  have htagged : Instruction.tagged (M := RawModel)
      ⟨low32 offset, i.opcode, stored.mapLabels (Label.unbind offsets)⟩ (i.opcode.bytes ++ bytes) =
        i.opcode.bytes ++ i.opcode.operandKind.tagged bytes := by
    unfold Instruction.tagged OperandKind.tagged
    split
    · rw [List.set_append_right _ _ (by simp), Opcode.length_bytes, Nat.add_sub_cancel_left]
    · rfl
  rw [hsize] at hstored
  rw [htagged, ← Buffer.append_append]
  exact writeInstruction_eq_ok.mpr ⟨hfits, stored, hlower, writeOperand_complete hend hstored _⟩

end Instructions

/-! ## Instructions in a row -/

theorem zip_layoutFrom (offset : Nat) (i : Instruction M) (rest : List (Instruction M)) :
    (i :: rest).zip (layoutFrom offset (i :: rest)) =
      (i, offset) :: rest.zip (layoutFrom (offset + i.size) rest) := rfl

theorem writeInstructions_sound {offsets : Array Nat} {offset : Nat}
    {instructions : List (Instruction M)} {b b' : Buffer} {u : Unit}
    (hsize : offset + totalSize instructions ≤ 0xffffffff)
    (h : writeInstructions offsets B (instructions.zip (layoutFrom offset instructions)) b =
      .ok u b') :
    ∃ raws bytes, List.Forall₂ (Lowers B offsets) instructions raws ∧
      StoredCode offset raws bytes ∧ b.append bytes = b' := by
  induction instructions generalizing offset b with
  | nil =>
    cases h
    exact ⟨[], [], .nil, .nil offset, Buffer.append_nil _⟩
  | cons i rest ih =>
    rw [zip_layoutFrom] at h
    obtain ⟨middle, hfirst, hrest⟩ := each_cons_eq_ok.mp h
    rw [totalSize] at hsize
    obtain ⟨raw, bytes, hlowers, hstored, rfl⟩ := writeInstruction_sound (by omega) hfirst
    obtain ⟨raws, behind, hlowers', hstored', rfl⟩ := ih (by omega) hrest
    rw [← hlowers.size_eq, ← hstored.length_eq] at hstored'
    exact ⟨raw :: raws, bytes ++ behind, .cons hlowers hlowers', .cons hstored hstored',
      (Buffer.append_append _ _ _).symm⟩

theorem writeInstructions_complete {offsets : Array Nat} {offset : Nat}
    {instructions : List (Instruction M)} {raws : List (Instruction RawModel)}
    {bytes : List UInt8} (hsize : offset + totalSize instructions ≤ 0xffffffff)
    (hlowers : List.Forall₂ (Lowers B offsets) instructions raws)
    (h : StoredCode offset raws bytes) :
    ∃ out, Puts (writeInstructions offsets B (instructions.zip (layoutFrom offset instructions)))
        out ∧
      ∀ before : List UInt8, before.length = offset →
        setTags (raws.filterMap Instruction.tagOffset?) (before ++ bytes) = before ++ out := by
  -- tags are set at offsets from the front, so the bytes in front take part in the induction
  induction hlowers generalizing offset bytes with
  | nil =>
    cases h
    exact ⟨[], pure_puts, fun _ _ => rfl⟩
  | @cons i raw instructions raws hfirst _ ih =>
    cases h with
    | @cons _ _ _ bytes behind hstored hstored' =>
      rw [hstored.length_eq, hfirst.size_eq] at hstored'
      rw [totalSize] at hsize
      obtain ⟨out, hputs, htags⟩ := ih (by omega) hstored'
      refine ⟨raw.tagged bytes ++ out, ?_, ?_⟩
      · intro b
        rw [zip_layoutFrom]
        refine each_cons_eq_ok.mpr ⟨_, writeInstruction_complete (by omega) hfirst hstored b, ?_⟩
        rw [← Buffer.append_append]
        exact hputs _
      · intro before hbefore
        have hlength : (before ++ raw.tagged bytes).length = offset + i.size := by
          rw [List.length_append, hbefore, Instruction.length_tagged, hstored.length_eq,
            hfirst.size_eq]
        have hkept : low32 offset = before.length := by
          rw [hbefore, low32_eq_iff]
          omega
        rw [setTags_cons (hstored.offset_eq.trans hkept) hstored.length_eq,
          ← List.append_assoc, htags _ hlength, List.append_assoc]

/-! ## Code -/

theorem checkLayout_eq_ok {offsets : List Nat} :
    checkLayout offsets = .ok () ↔ ∀ offset ∈ offsets, offset ≤ 0xffffffff := by
  unfold checkLayout
  split
  next offset hfind =>
    have hlarge := List.find?_some hfind
    have hmem := List.mem_of_find?_eq_some hfind
    constructor
    · intro h
      cases h
    · intro h
      exact absurd (h offset hmem) (Nat.not_le.mpr (of_decide_eq_true hlarge))
  next hfind =>
    refine ⟨fun _ offset hmem => ?_, fun _ => rfl⟩
    have hsmall := List.find?_eq_none.mp hfind offset hmem
    exact Nat.not_lt.mp (fun hlarge => hsmall (decide_eq_true hlarge))

theorem checkLayout_layoutFrom {offset : Nat} {instructions : List (Instruction M)} :
    checkLayout (layoutFrom offset instructions) = .ok () ↔
      offset + totalSize instructions ≤ 0xffffffff := by
  rw [checkLayout_eq_ok]
  constructor
  · intro h
    exact h _ (end_mem_layoutFrom offset instructions)
  · intro h boundary hmem
    exact Nat.le_trans (bounds_of_mem_layoutFrom hmem).2 h

namespace Code

variable {code : Code M}

theorem writer_eq_ok {b b' : Buffer} {u : Unit} :
    code.writer B b = .ok u b' ↔
      code.size ≤ 0xffffffff ∧
        writeInstructions code.layout.toArray B (code.instructions.zip code.layout) b =
          .ok u b' := by
  unfold writer
  simp only [bind_eq_ok, ofResult_eq_ok]
  have hcheck : checkLayout code.layout = .ok () ↔ code.size ≤ 0xffffffff := by
    unfold layout
    rw [checkLayout_layoutFrom, Nat.zero_add]
    rfl
  rw [← hcheck]
  constructor
  · rintro ⟨_, _, ⟨hlayout, rfl⟩, h⟩
    exact ⟨hlayout, h⟩
  · rintro ⟨hlayout, h⟩
    exact ⟨(), b, ⟨hlayout, rfl⟩, h⟩

theorem writer_sound {b b' : Buffer} {u : Unit} (h : code.writer B b = .ok u b') :
    code.size ≤ 0xffffffff ∧ ∃ raws bytes,
      List.Forall₂ (Lowers B code.layout.toArray) code.instructions raws ∧
        StoredCode 0 raws bytes ∧ b.append bytes = b' := by
  obtain ⟨hsize, hwrite⟩ := writer_eq_ok.mp h
  exact ⟨hsize, writeInstructions_sound ((Nat.zero_add _).symm ▸ hsize) hwrite⟩

theorem writer_complete {raws : List (Instruction RawModel)} {bytes : List UInt8}
    (hsize : code.size ≤ 0xffffffff)
    (hlowers : List.Forall₂ (Lowers B code.layout.toArray) code.instructions raws)
    (h : StoredCode 0 raws bytes) :
    Puts (code.writer B) (setTags (raws.filterMap Instruction.tagOffset?) bytes) := by
  obtain ⟨out, hputs, htags⟩ :=
    writeInstructions_complete ((Nat.zero_add _).symm ▸ hsize) hlowers h
  have hout := htags [] rfl
  rw [List.nil_append, List.nil_append] at hout
  intro b
  rw [hout]
  exact writer_eq_ok.mpr ⟨hsize, hputs b⟩

/-- Encoded code takes as many bytes as its instructions. -/
theorem size_of_encode {bytes : Array UInt8} (h : code.encode B = .ok bytes) :
    bytes.size = code.size := by
  obtain ⟨out, hwrite, rfl⟩ := answer_eq_ok.mp h
  obtain ⟨_, raws, written, hlowers, hstored, rfl⟩ := writer_sound hwrite
  have hlength : written.length = code.size := length_of_lowers hlowers hstored
  rw [← hlength, ← Array.length_toList, Buffer.toList_append]
  rfl

theorem size_le_of_encode {bytes : Array UInt8} (h : code.encode B = .ok bytes) :
    bytes.size ≤ 0xffffffff := by
  obtain ⟨out, hwrite, _⟩ := answer_eq_ok.mp h
  rw [size_of_encode h]
  exact (writer_sound hwrite).1

end Code

end CilCodec
