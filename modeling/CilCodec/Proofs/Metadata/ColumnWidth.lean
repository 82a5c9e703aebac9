import CilCodec.Proofs.Metadata.CodedIndex
import CilCodec.Proofs.Metadata.TableHeader

/-!
# CilCodec.Proofs.Metadata.ColumnWidth

The width of a coded index column, against the numbers that stand in it (II.24.2.6).

The width is worked out from the binary digits of row counts. What it is for is said of numbers: a
narrow column is one in which each row of each candidate, packed with the tag of its table, has
sixteen bits. An empty table takes one bit as well, for its null reference; tags are short enough to
leave it room.

Results:
1. `codedIndexWidth_eq_narrow_iff`: a column is narrow if the row bits of each candidate leave room
   for the tag;
2. `rowBits_add_tagBits_le_iff`: they do if the packed numbers have sixteen bits;
3. `TableInfo.codedWidth_exact`: the width of a column, and what an image keeps of it.
-/

namespace CilCodec

variable {kind : CodedKind} {rowCount : TableId → UInt32}

/-! ## Row counts and widths -/

theorem rowBits_le_iff {rows : UInt32} {bits : Nat} (h : 1 ≤ bits) :
    rowBits rows ≤ bits ↔ rows.toNat < 1 <<< bits := by
  unfold rowBits
  split
  next hzero =>
    have hbound : 0 < 1 <<< bits := by
      rw [Nat.one_shiftLeft]
      exact Nat.two_pow_pos bits
    rw [hzero]
    exact ⟨fun _ => hbound, fun _ => h⟩
  next => exact bitLength_le_iff

theorem codedIndexWidth_eq_narrow_iff :
    codedIndexWidth kind.candidates rowCount = .narrow ↔
      ∀ table, some table ∈ kind.candidates → rowBits (rowCount table) + kind.tagBits ≤ 16 := by
  constructor
  · intro hnarrow table hlisted
    exact rowBits_add_tagBits_le hlisted hnarrow
  · intro h
    have hfew : kind.tagBits ≤ 5 := kind.tagBits_le
    have hmax : (kind.candidates.filterMap
        fun candidate => candidate.map fun t => rowBits (rowCount t)).max?.getD 1 ≤
          16 - kind.tagBits := by
      refine max_getD_le (by omega) fun bits hbits => ?_
      obtain ⟨candidate, hlisted, hcandidate⟩ := List.mem_filterMap.mp hbits
      obtain ⟨table, rfl, rfl⟩ := Option.map_eq_some_iff.mp hcandidate
      exact Nat.le_sub_of_add_le (h table hlisted)
    exact if_pos (Nat.add_le_of_le_sub (by omega) hmax)

/-! ## Packed numbers -/

/-- Each row of a table up to its row count, and the null reference to it, makes a number of sixteen
bits when it is packed with the tag. -/
def CodedKind.PacksNarrow (kind : CodedKind) (rows : UInt32) (tag : Nat) : Prop :=
  ∀ row : Nat, row ≤ rows.toNat → row * (1 <<< kind.tagBits) + tag ≤ 0xffff

theorem rowBits_add_tagBits_le_iff {rows : UInt32} {tag : Nat} (htag : tag < kind.tagBound) :
    rowBits rows + kind.tagBits ≤ 16 ↔ kind.PacksNarrow rows tag := by
  have hfew : kind.tagBits ≤ 5 := kind.tagBits_le
  have hbits : 16 - kind.tagBits + kind.tagBits = 16 := Nat.sub_add_cancel (by omega)
  have hroom : rowBits rows + kind.tagBits ≤ 16 ↔ rows.toNat < 1 <<< (16 - kind.tagBits) := by
    rw [← rowBits_le_iff (by omega), Nat.le_sub_iff_add_le (by omega)]
  rw [hroom]
  constructor
  · intro hrows row hrow
    have hpacked := CodedKind.lt_of_row_of_tag (Nat.lt_of_le_of_lt hrow hrows) htag
    rw [hbits] at hpacked
    exact Nat.le_of_lt_succ hpacked
  · intro hpacks
    -- the last row alone decides: it is below the room if its multiple is below all of it
    have hlast : rows.toNat * kind.tagBound < (1 <<< (16 - kind.tagBits)) * kind.tagBound := by
      rw [kind.shiftLeft_mul_tagBound, hbits]
      exact Nat.lt_succ_of_le (Nat.le_trans (Nat.le_add_right _ tag) (hpacks _ (Nat.le_refl _)))
    exact Nat.lt_of_mul_lt_mul_right hlast

theorem codedIndexWidth_eq_narrow_iff_packs :
    codedIndexWidth kind.candidates rowCount = .narrow ↔
      ∀ table, some table ∈ kind.candidates →
        ∃ tag, kind.tagOf? table = some tag ∧ kind.PacksNarrow (rowCount table) tag := by
  rw [codedIndexWidth_eq_narrow_iff]
  refine forall_congr' fun table => forall_congr' fun hlisted => ?_
  obtain ⟨tag, htag⟩ := CodedKind.exists_tagOf? hlisted
  rw [rowBits_add_tagBits_le_iff (CodedKind.tagOf?_lt htag)]
  constructor
  · intro h
    exact ⟨tag, htag, h⟩
  · rintro ⟨tag', htag', h⟩
    obtain rfl := Option.some.inj (htag.symm.trans htag')
    exact h

theorem IndexWidth.bytes_eq_two_iff {width : IndexWidth} : width.bytes = 2 ↔ width = .narrow := by
  cases width <;> decide

theorem IndexWidth.bytes_eq_four_iff {width : IndexWidth} : width.bytes = 4 ↔ width ≠ .narrow := by
  cases width <;> decide

/-! ## Images -/

namespace TableInfo

/-- What is read from the header of a table stream is built from the counts found in it. -/
theorem exists_ofCounts_of_read {data : Array UInt8} {info : TableInfo}
    (h : TableInfo.read data = .ok info) : ∃ counts heaps, info = ofCounts counts heaps :=
  ⟨_, _, (read_eq_ok.mp h).2.symm⟩

/-- A column of coded indices takes two bytes if every row of every candidate, packed with the tag of
its table, is at most `0xffff`, and four bytes if not. The width that an image keeps for a column is
the one of its row counts, whether the image was built from counts or read. -/
theorem codedWidth_exact (kind : CodedKind) :
    (∀ rowCount : TableId → UInt32,
      let fits := ∀ table, some table ∈ kind.candidates →
        ∃ tag, kind.tagOf? table = some tag ∧
          ∀ row : Nat, row ≤ (rowCount table).toNat → row * (1 <<< kind.tagBits) + tag ≤ 0xffff
      ((codedIndexWidth kind.candidates rowCount).bytes = 2 ↔ fits) ∧
        ((codedIndexWidth kind.candidates rowCount).bytes = 4 ↔ ¬ fits)) ∧
      (∀ (counts : List (TableId × UInt32)) (heaps : HeapSizes),
        (ofCounts counts heaps).codedWidth kind =
          codedIndexWidth kind.candidates (ofCounts counts heaps).rowCount) ∧
      ∀ (data : Array UInt8) (info : TableInfo), TableInfo.read data = .ok info →
        info.codedWidth kind = codedIndexWidth kind.candidates info.rowCount := by
  refine ⟨fun rowCount => ?_, fun counts heaps => codedWidth_ofCounts counts heaps kind, ?_⟩
  · have hnarrow := @codedIndexWidth_eq_narrow_iff_packs kind rowCount
    exact ⟨IndexWidth.bytes_eq_two_iff.trans hnarrow,
      IndexWidth.bytes_eq_four_iff.trans (not_congr hnarrow)⟩
  · intro data info h
    obtain ⟨counts, heaps, rfl⟩ := exists_ofCounts_of_read h
    exact codedWidth_ofCounts counts heaps kind

/-- The header of a table stream with a module, a type reference too many for a narrow column of
`typeDefOrRef`, and 9 rows of a table without a name. -/
def crowdedStream : Array UInt8 :=
  #[0, 0, 0, 0, 2, 0, 5, 1, 3, 0, 0, 0, 0, 0x20, 0, 0, 0, 0, 0, 0, 0, 0, 0, 0,
    1, 0, 0, 0, 0, 0x40, 0, 0, 9, 0, 0, 0]

/-- What the header says. -/
def crowdedImage : TableInfo :=
  ofCounts [(.module, 1), (.typeRef, 0x4000)] ⟨true, false, true⟩

theorem codedWidth_exact_crowded :
    TableInfo.read crowdedStream = .ok crowdedImage ∧
      crowdedImage.codedWidth .typeDefOrRef = .wide ∧
      crowdedImage.codedWidth .typeDefOrRef =
        codedIndexWidth (CodedKind.candidates .typeDefOrRef) crowdedImage.rowCount := by
  have hread : TableInfo.read crowdedStream = .ok crowdedImage := by rfl
  exact ⟨hread, by decide +kernel, (codedWidth_exact .typeDefOrRef).2.2 _ _ hread⟩

end TableInfo

end CilCodec
