import Mathlib.Data.Nat.Bitwise
import CilCodec.Import.HintName
import CilCodec.Import.Thunk
import CilCodec.Proofs.Checked.Bytes
import CilCodec.Proofs.Import.Thunk

/-!
# CilCodec.Proofs.Checked.Import

Reading imports, with every sum and every slice checked.

The name of an import is looked for in the slice from the position to the end of the data, which is
there because no reader moves behind the end. A thunk takes its bytes even if it is the last one, so
a table that does not end runs out of data.

Results: `hintName_matches` and `lookupTable_matches`.
-/

namespace CilCodec.Checked

/-! ## The readers with their arithmetic -/

/-- The number of bytes before the next zero byte. -/
def nameLength : Checked Nat := do
  let c ← get
  let rest ← slice c.data c.pos c.data.size
  match rest.toList.findIdx? (· == 0) with
  | some length => return length
  | none =>
    let needed ← addUsize rest.size 1
    refuse (.truncated c.pos needed)

/-- Whether an entry that began at `start` is followed by padding. -/
def hasPadding (start : Nat) : Checked Bool := do
  let length ← sub (← position) start
  let c ← get
  return length % 2 == 1 && c.data[c.pos]? == some 0

/-- Reads an entry. -/
def hintName : Checked HintName := do
  let start ← position
  let hint ← word UInt16
  let bytes ← take (← nameLength)
  unless bytes.all fun byte => byte.toNat < 0x80 do
    refuse (.invalidImport (.nonAsciiName start))
  advance 1
  if ← hasPadding start then
    advance 1
  return ⟨hint, HintName.nameOfBytes bytes⟩

/-- Reads a thunk. -/
def readThunk : ThunkWidth → Checked UInt64
  | .pe32 => do return (← word UInt32).toUInt64
  | .pe32Plus => word UInt64

/-- The import that a thunk stands for. The bits below the flag are its value. -/
def decodeThunk (raw : UInt64) (width : ThunkWidth) : Checked (Option ImportEntry) :=
  if !width.holds raw then
    refuse (.invalidImport (.wideThunk raw))
  else if raw = 0 then
    return none
  else do
    let mask ← sub width.ordinalFlag 1
    let value := raw.toNat &&& mask
    if raw.toNat &&& width.ordinalFlag ≠ 0 then
      if 0xffff < value then
        note (.ordinalReservedBits raw)
      return some (.ordinal (UInt16.ofNat (value &&& 0xffff)))
    else if value ≤ 0xffffffff then
      return some (.hintName (UInt32.ofNat value))
    else
      refuse (.invalidImport (.wideRva value))

/-- Reads an import, or the zero at the end of a table. -/
def thunk (width : ThunkWidth) : Checked (Option ImportEntry) := do
  decodeThunk (← readThunk width) width

/-- Reads imports up to the zero at the end of the table. -/
def lookupTable (width : ThunkWidth) : Checked (List ImportEntry) := untilNone (thunk width)

/-! ## Names -/

variable {data : Array UInt8} {low : Nat} {c : Cursor}

theorem nameLength_matches : Matches data low nameLength HintName.nameLength := by
  intro c hc
  have hslice : slice c.data c.pos c.data.size = pure (c.data.extract c.pos c.data.size) :=
    slice_eq hc.pos_le (Nat.le_refl _)
  have hrest : (c.data.extract c.pos c.data.size).toList = c.rest := by
    rw [Array.toList_extract, List.extract_eq_take_drop, ← Array.length_toList,
      ← List.length_drop, List.take_length]
    rfl
  have hsize : (c.data.extract c.pos c.data.size).size = c.remaining := by
    rw [Array.size_extract, Nat.min_self]
    rfl
  have hopen : nameLength c =
      (match c.rest.findIdx? (· == 0) with
        | some length => pure length
        | none => do
          let needed ← addUsize c.remaining 1
          refuse (.truncated c.pos needed) : Checked Nat) c := by
    refine (bind_of_ok (get_apply c)).trans ?_
    rw [hslice, pure_bind, hrest, hsize]
  cases hzero : c.rest.findIdx? (· == 0) with
  | some length =>
    refine .answers (a := length) (hopen.trans ?_) ?_ hc
    · rw [hzero]
      rfl
    · rw [HintName.nameLength, hzero]
  | none =>
    have hremaining : c.remaining ≤ Buffer.limit :=
      Nat.le_trans (Nat.sub_le _ _) (hc.data_eq ▸ hc.small)
    have hlimit : Buffer.limit + 1 < usizeBound := by decide
    refine .refuses (e := .truncated c.pos (c.remaining + 1)) (hopen.trans ?_) ?_ hc
    · rw [hzero, addUsize_eq (by omega)]
      rfl
    · rw [HintName.nameLength, hzero]

theorem hasPadding_matches {start : Nat} (hstart : start ≤ low) :
    Matches data low (hasPadding start) (HintName.hasPadding start) := by
  intro c hc
  refine .answers ?_ rfl hc
  show (sub c.pos start >>= _) c = _
  rw [sub_eq (Nat.le_trans hstart hc.low_le), pure_bind]
  rfl

theorem hintName_matches : Matches data low hintName HintName.reader := by
  unfold hintName HintName.reader
  refine Matches.position fun start _ _ => (word_matches UInt16).bind fun hint => ?_
  refine nameLength_matches.bind fun length => (take_matches length).bind fun bytes => ?_
  refine Matches.ite (fun _ => ?_) fun _ => (refuse_matches _).bind fun _ => ?_
  all_goals
    refine (advance_matches 1).bind fun _ =>
      (hasPadding_matches (Nat.le_refl start)).bind fun padded => ?_
    exact Matches.ite (fun _ => (advance_matches 1).bind fun _ => pure_matches _)
      fun _ => pure_matches _

/-! ## Thunks -/

section Thunks

variable {width : ThunkWidth} {raw : UInt64}

theorem ordinalFlag_eq (width : ThunkWidth) : ∃ bits, width.ordinalFlag = 2 ^ bits := by
  cases width with
  | pe32 => exact ⟨31, rfl⟩
  | pe32Plus => exact ⟨63, rfl⟩

/-- A thunk has its flag set exactly if it is at least the flag. -/
theorem and_flag (h : width.holds raw = true) :
    raw.toNat &&& width.ordinalFlag ≠ 0 ↔ width.ordinalFlag ≤ raw.toNat := by
  have hlt : raw.toNat < 2 * width.ordinalFlag := of_decide_eq_true h
  obtain ⟨bits, hflag⟩ := ordinalFlag_eq width
  rw [hflag, ← Nat.pow_succ'] at hlt
  rw [hflag, Nat.and_two_pow]
  rcases Nat.lt_or_ge raw.toNat (2 ^ bits) with hsmall | hlarge
  · rw [Nat.testBit_lt_two_pow hsmall]
    simp [hsmall]
  · rw [Nat.testBit_of_two_pow_le_and_two_pow_add_one_gt hlarge hlt]
    simp [hlarge]

/-- The bits below the flag. -/
theorem and_mask (width : ThunkWidth) (n : Nat) :
    n &&& (width.ordinalFlag - 1) = n % width.ordinalFlag := by
  obtain ⟨bits, hflag⟩ := ordinalFlag_eq width
  rw [hflag]
  exact Nat.and_two_pow_sub_one_eq_mod n bits

theorem ordinalFlag_pos (width : ThunkWidth) : 1 ≤ width.ordinalFlag := by
  cases width <;> decide

/-- The low 16 bits are kept by masking as they are by truncating. -/
theorem ofNat_and_mask (n : Nat) : UInt16.ofNat (n &&& 0xffff) = UInt16.ofNat n := by
  have hmask : n &&& 0xffff = n % 2 ^ 16 := Nat.and_two_pow_sub_one_eq_mod n 16
  rw [hmask, ← UInt16.toNat_inj, UInt16.toNat_ofNat', UInt16.toNat_ofNat', Nat.mod_mod]

/-- The import that a thunk stands for is worked out with sums and comparisons in `decode`, and by
masking here. -/
theorem decodeThunk_matches (raw : UInt64) (width : ThunkWidth) :
    Matches data low (decodeThunk raw width) (do
      if let some n := ImportEntry.notice? raw width then
        Reader.note n
      Reader.ofResult (ImportEntry.decode raw width)) := by
  unfold decodeThunk ImportEntry.decode
  cases hholds : width.holds raw with
  | false =>
    rw [ImportEntry.notice?, hholds]
    exact refuse_matches _
  | true =>
    have hlt : raw.toNat < 2 * width.ordinalFlag := of_decide_eq_true hholds
    simp only [Bool.not_true, Bool.false_eq_true, if_false]
    by_cases hzero : raw = 0
    · rw [if_pos hzero, if_pos hzero, ImportEntry.notice?_eq_none (by rw [hzero]; exact Nat.zero_le _)]
      exact pure_matches _
    rw [if_neg hzero, if_neg hzero, sub_eq (ordinalFlag_pos width), pure_bind, and_mask]
    by_cases hflag : width.ordinalFlag ≤ raw.toNat
    · have hvalue : raw.toNat % width.ordinalFlag = raw.toNat - width.ordinalFlag := by
        rw [Nat.mod_eq_sub_mod hflag, Nat.mod_eq_of_lt (by omega)]
      rw [if_pos ((and_flag hholds).mpr hflag), if_pos hflag, hvalue, ofNat_and_mask]
      by_cases hreserved : 0xffff < raw.toNat - width.ordinalFlag
      · have hnotice : ImportEntry.notice? raw width = some (.ordinalReservedBits raw) := by
          rw [ImportEntry.notice?, hholds, decide_eq_true (by omega)]
          rfl
        rw [if_pos hreserved, hnotice]
        exact (note_matches _).bind fun _ => pure_matches _
      · rw [if_neg hreserved, ImportEntry.notice?_eq_none (by omega)]
        exact pure_matches _
    · rw [if_neg (mt (and_flag hholds).mp hflag), if_neg hflag, ImportEntry.notice?_eq_none (by omega),
        Nat.mod_eq_of_lt (Nat.not_le.mp hflag)]
      by_cases hrva : raw.toNat ≤ 0xffffffff
      · rw [if_pos hrva, if_pos hrva]
        exact pure_matches _
      · rw [if_neg hrva, if_neg hrva]
        exact refuse_matches _

theorem readThunk_matches (width : ThunkWidth) :
    Matches data low (readThunk width) (ImportEntry.readThunk width) := by
  cases width with
  | pe32 =>
    unfold readThunk ImportEntry.readThunk
    dsimp only
    rw [map_eq_pure_bind]
    exact (word_matches UInt32).bind fun value => pure_matches _
  | pe32Plus => exact word_matches UInt64

theorem thunk_matches (width : ThunkWidth) :
    Matches data low (thunk width) (ImportEntry.reader width) :=
  (readThunk_matches width).bind fun raw => decodeThunk_matches raw width

theorem remaining_of_thunk {c c' : Cursor} {answer : Option ImportEntry}
    (h : ImportEntry.reader width c = .ok answer c') : c'.remaining < c.remaining := by
  obtain ⟨raw, hpassed⟩ := ImportEntry.passes_of_reader h
  refine hpassed.remaining_lt ?_
  rw [ThunkWidth.length_stored]
  cases width <;> decide

theorem lookupTable_matches (width : ThunkWidth) :
    Matches data low (lookupTable width) (ImportEntry.tableReader width) :=
  untilNone_matches (thunk_matches width) fun _ _ _ _ h => remaining_of_thunk h

end Thunks

end CilCodec.Checked
