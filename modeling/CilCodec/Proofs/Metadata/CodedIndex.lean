import CilCodec.Metadata.TableInfo
import CilCodec.Proofs.Bytes.Writing
import CilCodec.Proofs.Method.Handler

/-!
# CilCodec.Proofs.Metadata.CodedIndex

Coded indices that name a row of their table fit the columns that the row counts ask for.

The width of a column and the check made when it is written are worked out apart: the one from the
binary digits of the largest row count, the other from the number that stands for the reference.
`rowBits` is where they meet: a row of a table is below two to the power of its row bits.

Results:
1. `CodedIndex.decode_of_encodable`: the number that stands for a listed reference reads back as it;
2. `CodedIndex.holds_of_encode`: a column of the width of the row counts holds that number;
3. `Writer.index_puts`, `Reader.index_of_stored`: an index is stored in as many bytes as its width
   says, and what they keep of it is read back.
-/

namespace CilCodec

/-! ## Indices in columns -/

/-- The bytes of an index in a column. -/
def IndexWidth.stored : IndexWidth → UInt32 → List UInt8
  | narrow, index => LittleEndian.encode index.toUInt16
  | wide, index => LittleEndian.encode index

/-- What is left of an index in a column: in a narrow one its low 16 bits. -/
def IndexWidth.kept : IndexWidth → UInt32 → UInt32
  | narrow, index => index % 0x10000
  | wide, index => index

@[simp] theorem IndexWidth.length_stored (width : IndexWidth) (index : UInt32) :
    (width.stored index).length = width.bytes := by
  cases width with
  | narrow => exact LittleEndian.length_encode index.toUInt16
  | wide => exact LittleEndian.length_encode index

theorem Writer.index_puts (width : IndexWidth) (index : UInt32) :
    Puts (Writer.index width index) (width.stored index) := by
  cases width with
  | narrow => exact word_puts index.toUInt16
  | wide => exact word_puts index

theorem readAt_of_holds {α : Type} [LittleEndian α] {data : Array UInt8} {pos : Nat} {value : α}
    (h : Holds data pos (LittleEndian.encode value)) :
    readAt α data pos = .ok (value, pos + LittleEndian.size α) := by
  have hslice := sliceAt?_eq_some.mpr ⟨h, LittleEndian.length_encode value⟩
  rw [readAt, hslice]
  simp only [LittleEndian.decode_encode]

theorem Reader.index_of_stored {width : IndexWidth} {index : UInt32} {c : Cursor}
    (h : Holds c.data c.pos (width.stored index)) :
    Reader.index width c = .ok (width.kept index) { c with pos := c.pos + width.bytes } := by
  cases width with
  | narrow =>
    rw [Reader.index, readIndexAt, readAt_of_holds h]
    simp only [Except.map, UInt32.toUInt32_toUInt16]
    rfl
  | wide =>
    rw [Reader.index, readIndexAt, readAt_of_holds h]
    rfl

theorem IndexWidth.kept_of_holds {width : IndexWidth} {index : UInt32} (h : width.holds index) :
    width.kept index = index := by
  cases width with
  | narrow =>
    have hsmall : index.toNat ≤ 0xffff := of_decide_eq_true h
    exact (UInt32.toUInt32_toUInt16 index).symm.trans (toUInt32_toUInt16 hsmall)
  | wide => rfl

/-- An index that fits its column is read back from it. -/
theorem Reader.index_of_holds {width : IndexWidth} {index : UInt32} {c : Cursor}
    (hfits : width.holds index) (h : Holds c.data c.pos (width.stored index)) :
    Reader.index width c = .ok index { c with pos := c.pos + width.bytes } := by
  rw [index_of_stored h, IndexWidth.kept_of_holds hfits]

/-- Numbers that fit a column are told apart by what stands in it. -/
theorem IndexWidth.eq_of_stored_eq {width : IndexWidth} {a b : UInt32} (ha : width.holds a)
    (hb : width.holds b) (h : width.stored a = width.stored b) : a = b := by
  have hstart : Holds (width.stored a).toArray 0 (width.stored a) := by
    simpa using holds_toArray_append (width.stored a) []
  have hread := Reader.index_of_holds (c := .start (width.stored a).toArray) ha hstart
  rw [Reader.index_of_holds hb (h ▸ hstart)] at hread
  exact (EStateM.Result.ok.inj hread).1.symm

/-! ## Rows and tags -/

theorem CodedKind.tagBound_pos (kind : CodedKind) : 0 < kind.tagBound := by
  rw [tagBound, Nat.one_shiftLeft]
  exact Nat.two_pow_pos kind.tagBits

theorem CodedKind.shiftLeft_mul_tagBound (kind : CodedKind) (bits : Nat) :
    (1 <<< bits) * kind.tagBound = 1 <<< (bits + kind.tagBits) := by
  rw [tagBound, Nat.one_shiftLeft, Nat.one_shiftLeft, Nat.one_shiftLeft, ← Nat.pow_add]

/-- A row of so many bits above a tag takes the bits of both. -/
theorem CodedKind.lt_of_row_of_tag {kind : CodedKind} {row tag bits : Nat}
    (hrow : row < 1 <<< bits) (htag : tag < kind.tagBound) :
    row * kind.tagBound + tag < 1 <<< (bits + kind.tagBits) := by
  have hstep : (row + 1) * kind.tagBound ≤ (1 <<< bits) * kind.tagBound :=
    Nat.mul_le_mul_right _ hrow
  rw [Nat.add_mul, Nat.one_mul, kind.shiftLeft_mul_tagBound] at hstep
  omega

/-- A listed table has a tag. -/
theorem CodedKind.exists_tagOf? {kind : CodedKind} {table : TableId}
    (h : some table ∈ kind.candidates) : ∃ tag, kind.tagOf? table = some tag := by
  obtain ⟨tag, htag⟩ := List.mem_iff_getElem?.mp h
  exact ⟨tag, tagOf?_of_candidate? htag⟩

namespace CodedIndex

/-- The greatest row that leaves room for the tag is what is left above the bits of the tag. -/
theorem maxRow_eq_shiftRight (kind : CodedKind) : maxRow kind = 0xffffffff >>> kind.tagBits := by
  rw [maxRow, CodedKind.tagBound, Nat.one_shiftLeft, Nat.shiftRight_eq_div_pow]

/-- What `encode` needs of a reference: its table is listed, and the row leaves room for the tag. -/
structure Encodable (ci : CodedIndex) (kind : CodedKind) : Prop where
  listed : some ci.table ∈ kind.candidates
  row_le : ci.row.toNat ≤ maxRow kind

variable {ci : CodedIndex} {kind : CodedKind}

/-- The number that stands for a reference is the row above the tag, exactly. -/
theorem Encodable.encode_eq (h : ci.Encodable kind) :
    ∃ raw tag, ci.encode kind = .ok raw ∧ kind.tagOf? ci.table = some tag ∧
      raw.toNat = ci.row.toNat * kind.tagBound + tag := by
  obtain ⟨tag, htag⟩ := CodedKind.exists_tagOf? h.listed
  have hlt := CodedKind.tagOf?_lt htag
  refine ⟨UInt32.ofNat (ci.row.toNat * kind.tagBound + tag), tag, ?_, htag, ?_⟩
  · rw [encode, htag]
    exact if_neg (Nat.not_lt.mpr h.row_le)
  · have hbits : 32 - kind.tagBits + kind.tagBits = 32 := by
      have := kind.tagBits_le
      omega
    have hrow : ci.row.toNat < 1 <<< (32 - kind.tagBits) := by
      refine Nat.lt_of_le_of_lt h.row_le ?_
      rw [maxRow, Nat.div_lt_iff_lt_mul kind.tagBound_pos, kind.shiftLeft_mul_tagBound, hbits]
      decide
    have hsmall := CodedKind.lt_of_row_of_tag hrow hlt
    rw [hbits] at hsmall
    rw [UInt32.toNat_ofNat']
    exact Nat.mod_eq_of_lt hsmall

/-- The number that stands for a listed reference reads back as it. -/
theorem decode_of_encodable (h : ci.Encodable kind) {raw : UInt32} (hraw : ci.encode kind = .ok raw) :
    decode raw kind = .ok ci := by
  obtain ⟨raw', tag, hencode, htag, hvalue⟩ := h.encode_eq
  obtain rfl := Except.ok.inj (hraw.symm.trans hencode)
  have hlt := CodedKind.tagOf?_lt htag
  have hmod : raw.toNat % kind.tagBound = tag := by
    rw [hvalue, Nat.mul_comm, Nat.mul_add_mod, Nat.mod_eq_of_lt hlt]
  have hdiv : raw.toNat / kind.tagBound = ci.row.toNat := by
    rw [hvalue, Nat.mul_comm, Nat.mul_add_div kind.tagBound_pos, Nat.div_eq_of_lt hlt,
      Nat.add_zero]
  have htable : tableOfTag? kind tag ci.row.toNat = some ci.table := by
    rw [tableOfTag?, CodedKind.candidate?_tagOf? htag]
  simp only [decode, hmod, hdiv, htable, UInt32.ofNat_toNat]

end CodedIndex

/-! ## The width of a column -/

/-- The row bits of a table are enough for each of its rows. -/
theorem lt_of_le_rowBits {row rows : UInt32} (h : row ≤ rows) :
    row.toNat < 1 <<< rowBits rows := by
  have hle : row.toNat ≤ rows.toNat := UInt32.le_iff_toNat_le.mp h
  unfold rowBits
  split
  next hzero =>
    rw [hzero] at hle
    omega
  next =>
    exact Nat.lt_of_le_of_lt hle (bitLength_le_iff.mp (Nat.le_refl (bitLength rows.toNat)))

/-- The largest number of a list, or one if there is none, is within a bound of them all. -/
theorem max_getD_le {bits : List Nat} {bound : Nat} (hbound : 1 ≤ bound)
    (h : ∀ n ∈ bits, n ≤ bound) : bits.max?.getD 1 ≤ bound := by
  cases hmax : bits.max? with
  | none => exact hbound
  | some n => exact h n (List.max?_mem hmax)

/-- In a narrow column, the rows of each candidate leave room for the tag. -/
theorem rowBits_add_tagBits_le {kind : CodedKind} {rowCount : TableId → UInt32} {table : TableId}
    (hlisted : some table ∈ kind.candidates)
    (hnarrow : codedIndexWidth kind.candidates rowCount = .narrow) :
    rowBits (rowCount table) + kind.tagBits ≤ 16 := by
  unfold codedIndexWidth IndexWidth.ofBits at hnarrow
  dsimp only at hnarrow
  split at hnarrow
  next hle =>
    have hmem : rowBits (rowCount table) ∈ kind.candidates.filterMap
        fun candidate => candidate.map fun t => rowBits (rowCount t) :=
      List.mem_filterMap.mpr ⟨some table, hlisted, rfl⟩
    have hmax := List.le_max?_getD_of_mem (k := 1) hmem
    exact Nat.le_trans (Nat.add_le_add_right hmax _) hle
  next => cases hnarrow

/-- A column holds each reference to a row of a candidate, whatever the row counts are. -/
theorem CodedIndex.holds_of_encode {ci : CodedIndex} {kind : CodedKind}
    {rowCount : TableId → UInt32} (h : ci.Encodable kind) (hrow : ci.row ≤ rowCount ci.table)
    {raw : UInt32} (hraw : ci.encode kind = .ok raw) :
    (codedIndexWidth kind.candidates rowCount).holds raw := by
  cases hwidth : codedIndexWidth kind.candidates rowCount with
  | wide => rfl
  | narrow =>
    obtain ⟨raw', tag, hencode, htag, hvalue⟩ := h.encode_eq
    obtain rfl := Except.ok.inj (hraw.symm.trans hencode)
    have hbits := rowBits_add_tagBits_le h.listed hwidth
    have hlt := CodedKind.tagOf?_lt htag
    have hsmall : raw.toNat < 1 <<< 16 := by
      rw [hvalue]
      refine Nat.lt_of_lt_of_le (CodedKind.lt_of_row_of_tag (lt_of_le_rowBits hrow) hlt) ?_
      rw [Nat.one_shiftLeft, Nat.one_shiftLeft]
      exact Nat.pow_le_pow_right (by decide) hbits
    exact decide_eq_true (Nat.le_of_lt_succ hsmall)

end CilCodec
