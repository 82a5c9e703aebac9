import Mathlib.Data.List.Basic
import CilCodec.Proofs.Checked.Bytes
import CilCodec.Proofs.Metadata.CodedIndex

/-!
# CilCodec.Proofs.Checked.Metadata

Reading coded indices and the header of the table stream, with their arithmetic checked.

The digits of a number are counted by its leading zeros, of which a word has no more than bits. Row
counts and widths are kept in lists by number, and every table and every kind has its place in them.

Results: `codedIndex_matches` and `tableInfo_eq`.
-/

namespace CilCodec.Checked

/-! ## The readers with their arithmetic -/

/-- The zeros in front of `n` in a word of `bits` bits. -/
def leadingZeros (bits n : Nat) : Nat := bits - bitLength n

/-- One, shifted to the left in a word of 32 bits. -/
def oneShifted (bits : Nat) : Checked Nat :=
  if bits < 32 then pure (1 <<< bits) else fault .overflow

/-- Tag bits that tell `count` candidates apart. -/
def tagBits (count : Nat) : Checked Nat :=
  if count ≤ 1 then
    return 0
  else do
    let last ← sub count 1
    sub 64 (leadingZeros 64 last)

/-- Bits that hold a row of a table of `rows` rows. -/
def rowBits (rows : UInt32) : Checked Nat :=
  if rows.toNat = 0 then return 1 else sub 32 (leadingZeros 32 rows.toNat)

/-- The count of a table in a list of counts by table number. -/
def countIn (rows : Vector UInt32 TableId.numberBound) (table : TableId) : Checked UInt32 :=
  element rows table.number.toNat

/-- The width of a coded index over `candidates`. -/
def codedIndexWidth (candidates : List (Option TableId))
    (rows : Vector UInt32 TableId.numberBound) : Checked IndexWidth := do
  let tag ← tagBits candidates.length
  let bits ← (candidates.filterMap id).mapM fun table => do rowBits (← countIn rows table)
  let sum ← addU32 (bits.max?.getD 1) tag
  return IndexWidth.ofBits sum

/-- The reference that a number stands for. -/
def decodeIndex (raw : UInt32) (kind : CodedKind) : Checked CodedIndex := do
  let bits ← tagBits kind.candidates.length
  let mask ← sub (← oneShifted bits) 1
  let tag := raw.toNat &&& mask
  let row := raw.toNat >>> bits
  match CodedIndex.tableOfTag? kind tag row with
  | some table => return ⟨table, UInt32.ofNat row⟩
  | none => refuse (.invalidTag tag kind)

/-- Reads a coded index at the width the row counts ask for. -/
def codedIndex (kind : CodedKind) (info : TableInfo) : Checked CodedIndex := do
  let width ← element info.codedWidths kind.index.val
  decodeIndex (← index width) kind

/-- Sets one count after the other. -/
def setCounts (counts : List (TableId × UInt32)) (rows : Vector UInt32 TableId.numberBound) :
    Checked (Vector UInt32 TableId.numberBound) :=
  counts.foldlM (fun rows (table, count) => setElement rows table.number.toNat count) rows

/-- Sets the width of one kind after the other. -/
def setWidths (rows : Vector UInt32 TableId.numberBound) (kinds : List CodedKind)
    (widths : Vector IndexWidth 14) : Checked (Vector IndexWidth 14) :=
  kinds.foldlM (fun widths kind => do
    let width ← codedIndexWidth kind.candidates rows
    setElement widths kind.index.val width) widths

/-- Information for given counts. -/
def ofCounts (counts : List (TableId × UInt32)) (heaps : HeapSizes) : Checked TableInfo := do
  let rows ← setCounts counts (Vector.replicate _ 0)
  let codedWidths ← setWidths rows CodedKind.all (Vector.replicate _ .narrow)
  return { rows, codedWidths, heaps }

/-- Reads one count for each table number in turn. -/
def readCounts : List UInt8 → Checked (List (TableId × UInt32))
  | [] => pure []
  | number :: numbers => do
    let count ← word UInt32
    match TableId.ofNumber? number with
    | some table => return (table, count) :: (← readCounts numbers)
    | none =>
      note (.unknownTable number)
      readCounts numbers

/-- Reads the header of the table stream. -/
def tableInfo : Checked TableInfo := do
  advance 6
  let heaps ← word UInt8
  advance 1
  let valid ← word UInt64
  let _sorted ← word UInt64
  let counts ← readCounts (TableInfo.presentTables valid)
  ofCounts counts (HeapSizes.ofBits heaps)

/-! ## Digits -/

/-- A number that a word holds has as many digits as the word has bits but for the zeros. -/
theorem sub_leadingZeros {bits n : Nat} (h : n < 1 <<< bits) :
    sub bits (leadingZeros bits n) = pure (bitLength n) := by
  have hle := bitLength_le_iff.mpr h
  unfold leadingZeros
  rw [sub_eq (Nat.sub_le _ _), Nat.sub_sub_self hle]

theorem tagBits_eq {count : Nat} (h : count ≤ u32Bound) :
    tagBits count = pure (tagBitsFor count) := by
  unfold tagBits tagBitsFor
  by_cases hfew : count ≤ 1
  · have hlast : count - 1 = 0 := by omega
    rw [if_pos hfew, hlast]
    rfl
  · have hword : count - 1 < 1 <<< 64 := by
      unfold u32Bound at h
      rw [show 1 <<< 64 = 18446744073709551616 from rfl]
      omega
    rw [if_neg hfew, sub_eq (by omega), pure_bind, sub_leadingZeros hword]

theorem rowBits_eq (rows : UInt32) : rowBits rows = pure (CilCodec.rowBits rows) := by
  unfold rowBits CilCodec.rowBits
  by_cases hempty : rows.toNat = 0
  · rw [if_pos hempty, if_pos hempty]
  · rw [if_neg hempty, if_neg hempty, sub_leadingZeros rows.toNat_lt]

theorem rowBits_le (rows : UInt32) : CilCodec.rowBits rows ≤ 32 := by
  unfold CilCodec.rowBits
  split
  next => decide
  next => exact bitLength_le_iff.mpr rows.toNat_lt

/-! ## Widths -/

theorem countIn_eq (rows : Vector UInt32 TableId.numberBound) (table : TableId) :
    countIn rows table = pure (TableInfo.countIn rows table) :=
  element_eq table.number_lt

/-- No kind lists so many candidates that a word could not count them. -/
theorem tagBits_candidates (kind : CodedKind) :
    tagBits kind.candidates.length = pure kind.tagBits := by
  refine tagBits_eq ?_
  cases kind <;> decide

/-- The bits of the largest candidate and those of the tag are few. -/
theorem codedIndexWidth_eq (kind : CodedKind) (rows : Vector UInt32 TableId.numberBound) :
    codedIndexWidth kind.candidates rows =
      pure (CilCodec.codedIndexWidth kind.candidates (TableInfo.countIn rows)) := by
  have hbits : (fun table => do rowBits (← countIn rows table) : TableId → Checked Nat) =
      fun table => pure (CilCodec.rowBits (TableInfo.countIn rows table)) := by
    funext table
    rw [countIn_eq, pure_bind, rowBits_eq]
  have hsum : ((kind.candidates.filterMap id).map fun table =>
        CilCodec.rowBits (TableInfo.countIn rows table)).max?.getD 1 +
      kind.tagBits < u32Bound := by
    have htag := kind.tagBits_le
    have hmax : ((kind.candidates.filterMap id).map fun table =>
        CilCodec.rowBits (TableInfo.countIn rows table)).max?.getD 1 ≤ 32 := by
      refine max_getD_le (by decide) fun n hn => ?_
      obtain ⟨table, _, rfl⟩ := List.mem_map.mp hn
      exact rowBits_le _
    unfold u32Bound
    omega
  unfold codedIndexWidth CilCodec.codedIndexWidth
  rw [tagBits_candidates, pure_bind, hbits, List.mapM_pure, pure_bind, addU32_eq hsum, pure_bind,
    List.map_filterMap]
  rfl

/-! ## Coded indices -/

variable {data : Array UInt8} {low : Nat} {c : Cursor}

/-- The tag and the row of a number, by masking and shifting. -/
theorem decodeIndex_eq (raw : UInt32) (kind : CodedKind) :
    decodeIndex raw kind = ofResult (CodedIndex.decode raw kind) := by
  have hshift : oneShifted kind.tagBits = pure kind.tagBound :=
    if_pos (Nat.lt_of_le_of_lt kind.tagBits_le (by decide))
  have hmask : raw.toNat &&& (kind.tagBound - 1) = raw.toNat % kind.tagBound := by
    rw [CodedKind.tagBound, Nat.one_shiftLeft, Nat.and_two_pow_sub_one_eq_mod]
  have hrow : raw.toNat >>> kind.tagBits = raw.toNat / kind.tagBound := by
    rw [CodedKind.tagBound, Nat.one_shiftLeft, Nat.shiftRight_eq_div_pow]
  unfold decodeIndex CodedIndex.decode
  rw [tagBits_candidates, pure_bind, hshift, pure_bind, sub_eq kind.tagBound_pos, pure_bind]
  dsimp only
  rw [hmask, hrow]
  cases CodedIndex.tableOfTag? kind (raw.toNat % kind.tagBound) (raw.toNat / kind.tagBound) <;> rfl

theorem codedIndex_matches (kind : CodedKind) (info : TableInfo) :
    Matches data low (codedIndex kind info) (CodedIndex.reader kind info) := by
  unfold codedIndex CodedIndex.reader
  rw [element_eq kind.index.isLt, pure_bind]
  refine (index_matches _).bind fun raw => ?_
  rw [decodeIndex_eq]
  exact ofResult_matches _

/-! ## The header of the table stream -/

theorem setCounts_eq (counts : List (TableId × UInt32))
    (rows : Vector UInt32 TableId.numberBound) :
    setCounts counts rows = pure
      (counts.foldl (fun rows (table, count) => TableInfo.setCount rows table count) rows) := by
  have hset : (fun rows (entry : TableId × UInt32) =>
        setElement rows entry.1.number.toNat entry.2) =
      fun rows (entry : TableId × UInt32) =>
        (pure (TableInfo.setCount rows entry.1 entry.2) : Checked _) := by
    funext rows entry
    exact setElement_eq entry.1.number_lt entry.2
  unfold setCounts
  exact (congrArg (fun f => counts.foldlM f rows) hset).trans List.foldlM_pure

/-- Every kind has a place of its own. -/
theorem all_getElem_index (kind : CodedKind) : CodedKind.all[kind.index] = kind := by
  cases kind <;> rfl

theorem index_all_getElem : ∀ i : Fin 14, CodedKind.all[i].index = i := by decide

theorem index_ne {kind kind' : CodedKind} (h : kind ≠ kind') :
    kind.index.val ≠ kind'.index.val := by
  intro heq
  refine h ?_
  rw [← all_getElem_index kind, ← all_getElem_index kind', Fin.ext heq]

/-- A width stays as it is set: what is set behind it has another place, or is the same. -/
theorem setWidths_spec (rows : Vector UInt32 TableId.numberBound) (kinds : List CodedKind)
    (widths : Vector IndexWidth 14) :
    ∃ result, setWidths rows kinds widths = pure result ∧
      ∀ kind, (kind ∈ kinds ∨ widths.get kind.index =
          CilCodec.codedIndexWidth kind.candidates (TableInfo.countIn rows)) →
        result.get kind.index =
          CilCodec.codedIndexWidth kind.candidates (TableInfo.countIn rows) := by
  induction kinds generalizing widths with
  | nil => exact ⟨widths, rfl, fun _ h => h.resolve_left List.not_mem_nil⟩
  | cons first rest ih =>
    obtain ⟨result, hrest, hget⟩ := ih (widths.set first.index.val
      (CilCodec.codedIndexWidth first.candidates (TableInfo.countIn rows)) first.index.isLt)
    refine ⟨result, ?_, fun kind h => hget kind ?_⟩
    · unfold setWidths
      rw [List.foldlM_cons, codedIndexWidth_eq, pure_bind, setElement_eq first.index.isLt,
        pure_bind]
      exact hrest
    · by_cases hfirst : kind = first
      · subst hfirst
        exact .inr (Vector.getElem_set_self _)
      · refine h.imp (fun hmem => (List.mem_cons.mp hmem).resolve_left hfirst) fun hkept => ?_
        exact (Vector.getElem_set_ne _ _ (index_ne (Ne.symm hfirst))).trans hkept

theorem setWidths_eq (rows : Vector UInt32 TableId.numberBound) (widths : Vector IndexWidth 14) :
    setWidths rows CodedKind.all widths = pure (Vector.ofFn fun i =>
      CilCodec.codedIndexWidth CodedKind.all[i].candidates (TableInfo.countIn rows)) := by
  obtain ⟨result, hset, hget⟩ := setWidths_spec rows CodedKind.all widths
  rw [hset]
  refine congrArg pure (Vector.ext fun i hi => ?_)
  obtain ⟨kind, hkind⟩ : ∃ kind : CodedKind, kind.index = ⟨i, hi⟩ :=
    ⟨_, index_all_getElem ⟨i, hi⟩⟩
  have hplace := hget kind (.inl (CodedKind.mem_all kind))
  have hfound := all_getElem_index kind
  simp only [hkind] at hplace hfound
  rw [Vector.getElem_ofFn, hfound]
  exact hplace

theorem ofCounts_eq (counts : List (TableId × UInt32)) (heaps : HeapSizes) :
    ofCounts counts heaps = pure (TableInfo.ofCounts counts heaps) := by
  unfold ofCounts
  rw [setCounts_eq, pure_bind, setWidths_eq, pure_bind]
  rfl

theorem readCounts_matches (numbers : List UInt8) :
    Matches data low (readCounts numbers) (TableInfo.readCounts numbers) := by
  induction numbers with
  | nil => exact pure_matches []
  | cons number numbers ih =>
    unfold readCounts TableInfo.readCounts
    refine (word_matches UInt32).bind fun count => ?_
    cases TableId.ofNumber? number with
    | some table => exact ih.bind fun counts => pure_matches _
    | none => exact (note_matches _).bind fun _ => ih

theorem tableInfo_matches : Matches data low tableInfo TableInfo.reader := by
  unfold tableInfo TableInfo.reader
  refine (advance_matches 6).bind fun _ => (word_matches UInt8).bind fun heaps => ?_
  refine (advance_matches 1).bind fun _ => (word_matches UInt64).bind fun valid => ?_
  refine (word_matches UInt64).bind fun _ => (readCounts_matches _).bind fun counts => ?_
  rw [ofCounts_eq]
  exact pure_matches _

/-- Reading the header of the table stream does the same with its arithmetic checked. -/
theorem tableInfo_eq (hsmall : data.size ≤ Buffer.limit) :
    tableInfo.answer data = (TableInfo.read data).mapError .refused :=
  answer_eq (tableInfo_matches _ (.start hsmall)).runs

end CilCodec.Checked
