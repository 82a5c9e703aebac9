import Mathlib.Data.Nat.Count
import CilCodec.Metadata.TableInfo
import CilCodec.Proofs.Bytes.Extension
import CilCodec.Proofs.Bytes.Failing

/-!
# CilCodec.Proofs.Metadata.TableHeader

The header of the table stream (II.24.2.6), bit by bit and byte by byte.

The header gives a count for each bit that is set, and not for the others, so the place of a count
depends on the bits in front of its own. A reader passes over the counts with a cursor that moves;
here each place is given at once, by the rank of the bit. Bits without a table have ranks as well.

Results:
1. `TableInfo.readCounts_eq_ok`: what a list of numbers is read as, and how many bytes it needs;
2. `TableInfo.idxOf_presentTables`: the place of a count is the rank of its bit;
3. `TableInfo.read_eq_ok`: what the header is read as, and when;
4. `TableInfo.read_by_rank`: the count of each table, and what an unknown table changes.
-/

namespace CilCodec

variable {data : Array UInt8}

/-! ## Ranks -/

/-- Number of bits below a place that are set. -/
def rank (bits place : Nat) : Nat := Nat.count (fun bit => bits.testBit bit = true) place

theorem rank_mono (bits : Nat) {place place' : Nat} (h : place ≤ place') :
    rank bits place ≤ rank bits place' :=
  Nat.count_monotone _ h

/-- The rank of a set bit is below the number of bits set. -/
theorem rank_lt_of_testBit {bits place stop : Nat} (h : bits.testBit place = true)
    (hplace : place < stop) : rank bits place < rank bits stop :=
  Nat.count_strict_mono h hplace

/-- The count of any bit starts within the bytes that hold the counts of all. -/
theorem rank_place_le {bits bit size : Nat} (hroom : 24 + 4 * rank bits 64 ≤ size)
    (hbit : bit < 64) : 24 + 4 * rank bits bit ≤ size := by
  have hrank := rank_mono bits (Nat.le_of_lt hbit)
  omega

/-- One more bit counts for the places behind it. -/
theorem rank_or_two_pow {bits bit : Nat} (h : bits.testBit bit = false) (place : Nat) :
    rank (bits ||| 2 ^ bit) place = rank bits place + if bit < place then 1 else 0 := by
  unfold rank
  induction place with
  | zero => rfl
  | succ place ih =>
    rw [Nat.count_succ, Nat.count_succ, ih, Nat.testBit_or, Nat.testBit_two_pow]
    by_cases heq : bit = place
    · subst heq
      simp [h]
    · have hlt : bit < place + 1 ↔ bit < place := by omega
      simp [heq, hlt]
      omega

theorem range_eq_append {place count : Nat} (h : place < count) :
    ∃ more, List.range count = List.range place ++ place :: more := by
  obtain ⟨behind, rfl⟩ := Nat.exists_eq_add_of_lt h
  rw [Nat.add_assoc, List.range_add, List.range_succ_eq_map, List.map_cons, Nat.add_zero]
  exact ⟨_, rfl⟩

theorem TableId.number_lt_64 (table : TableId) : table.number.toNat < 64 :=
  Nat.lt_trans table.number_lt (by decide)

namespace TableInfo

/-! ## Counts in a row -/

/-- The count at a position. -/
def countAt (data : Array UInt8) (pos : Nat) : UInt32 := UInt32.ofNat (numberAt data pos 4)

theorem toNat_countAt {pos : Nat} (h : pos + 4 ≤ data.size) :
    (countAt data pos).toNat = numberAt data pos 4 := by
  rw [countAt, UInt32.toNat_ofNat']
  exact Nat.mod_eq_of_lt (numberAt_lt h)

/-- The counts from `pos` on, one for each number, without those of unknown tables. -/
def countsAt (data : Array UInt8) (pos : Nat) : List UInt8 → List (TableId × UInt32)
  | [] => []
  | number :: numbers =>
    match TableId.ofNumber? number with
    | some table => (table, countAt data pos) :: countsAt data (pos + 4) numbers
    | none => countsAt data (pos + 4) numbers

theorem readCounts_eq_ok {numbers : List UInt8} {counts : List (TableId × UInt32)} {c : Cursor}
    (hpos : c.pos ≤ c.data.size) :
    (∃ c', readCounts numbers c = .ok counts c') ↔
      c.pos + 4 * numbers.length ≤ c.data.size ∧ countsAt c.data c.pos numbers = counts := by
  induction numbers generalizing c counts with
  | nil =>
    constructor
    · rintro ⟨c', h⟩
      obtain ⟨rfl, _⟩ := pure_eq_ok.mp h
      exact ⟨hpos, rfl⟩
    · rintro ⟨_, rfl⟩
      exact ⟨c, rfl⟩
  | cons number numbers ih =>
    have hlength : c.pos + 4 * (number :: numbers).length = c.pos + 4 + 4 * numbers.length := by
      rw [List.length_cons]
      omega
    rw [readCounts, countsAt, hlength]
    constructor
    · rintro ⟨c', h⟩
      obtain ⟨count, middle, hword, h⟩ := bind_eq_ok.mp h
      obtain ⟨hle, rfl, rfl⟩ := Reader.word_eq_ok_numberAt.mp hword
      cases hnumber : TableId.ofNumber? number with
      | some table =>
        rw [hnumber] at h
        obtain ⟨rest, stop, hrest, h⟩ := bind_eq_ok.mp h
        obtain ⟨rfl, _⟩ := pure_eq_ok.mp h
        obtain ⟨hroom, rfl⟩ := (ih hle).mp ⟨stop, hrest⟩
        exact ⟨hroom, rfl⟩
      | none =>
        rw [hnumber] at h
        obtain ⟨_, noted, hnote, h⟩ := bind_eq_ok.mp h
        obtain rfl := Reader.note_eq_ok.mp hnote
        exact (ih hle).mp ⟨c', h⟩
    · rintro ⟨hroom, rfl⟩
      have hle : c.pos + LittleEndian.size UInt32 ≤ c.data.size :=
        Nat.le_trans (Nat.le_add_right _ _) hroom
      have hword := Reader.word_eq_ok_numberAt.mpr ⟨hle, rfl, rfl⟩
      rw [bind_of_ok hword]
      cases hnumber : TableId.ofNumber? number with
      | some table =>
        let behind : Cursor := { c with pos := c.pos + 4 }
        obtain ⟨c', hrest⟩ := (ih (c := behind) hle).mpr ⟨hroom, rfl⟩
        exact ⟨c', bind_of_ok hrest⟩
      | none =>
        let behind : Cursor :=
          { c with pos := c.pos + 4, notices := c.notices.push (.unknownTable number) }
        exact (ih (c := behind) hle).mpr ⟨hroom, rfl⟩

/-! ## The count of a table -/

theorem countIn_setCount (rows : Vector UInt32 TableId.numberBound) (table other : TableId)
    (count : UInt32) :
    countIn (setCount rows other count) table =
      if table = other then count else countIn rows table := by
  unfold countIn setCount
  by_cases h : table = other
  · subst h
    rw [if_pos rfl, Vector.getElem_set_self]
  · have hne : other.number.toNat ≠ table.number.toNat := fun heq =>
      h (TableId.number_injective (UInt8.toNat_inj.mp heq)).symm
    rw [if_neg h, Vector.getElem_set_ne _ _ hne]

theorem rowCount_ofCounts (counts : List (TableId × UInt32)) (heaps : HeapSizes) (table : TableId) :
    (ofCounts counts heaps).rowCount table =
      counts.foldl (fun count entry => if table = entry.1 then entry.2 else count) 0 := by
  have hfold : ∀ rows : Vector UInt32 TableId.numberBound,
      countIn (counts.foldl (fun rows entry => setCount rows entry.1 entry.2) rows) table =
        counts.foldl (fun count entry => if table = entry.1 then entry.2 else count)
          (countIn rows table) := by
    intro rows
    induction counts generalizing rows with
    | nil => rfl
    | cons entry counts ih => rw [List.foldl_cons, List.foldl_cons, ih, countIn_setCount]
  have hempty : countIn (Vector.replicate _ 0) table = 0 := Vector.getElem_replicate _
  calc (ofCounts counts heaps).rowCount table
      = countIn (counts.foldl (fun rows entry => setCount rows entry.1 entry.2)
          (Vector.replicate _ 0)) table := rfl
    _ = _ := by rw [hfold, hempty]

/-- Of numbers that are all different, the one of a table says where its count is. -/
theorem rowCount_countsAt {numbers : List UInt8} (hnodup : numbers.Nodup) (pos : Nat)
    (heaps : HeapSizes) (table : TableId) :
    (ofCounts (countsAt data pos numbers) heaps).rowCount table =
      if table.number ∈ numbers then countAt data (pos + 4 * numbers.idxOf table.number)
      else 0 := by
  rw [rowCount_ofCounts]
  generalize (0 : UInt32) = start
  induction numbers generalizing pos start with
  | nil => rfl
  | cons number numbers ih =>
    obtain ⟨hfresh, hrest⟩ := List.nodup_cons.mp hnodup
    by_cases hself : table.number = number
    · subst hself
      rw [countsAt, TableId.ofNumber?_number, if_pos List.mem_cons_self, List.idxOf_cons_self]
      simp only [List.foldl_cons]
      rw [ih hrest, if_neg hfresh, if_pos trivial, Nat.mul_zero, Nat.add_zero]
    · have hmem : table.number ∈ number :: numbers ↔ table.number ∈ numbers := by
        rw [List.mem_cons, or_iff_right hself]
      have hplace : pos + 4 * (number :: numbers).idxOf table.number =
          pos + 4 + 4 * numbers.idxOf table.number := by
        rw [List.idxOf_cons_ne _ (Ne.symm hself)]
        omega
      rw [hplace]
      simp only [hmem]
      rw [countsAt]
      cases hnumber : TableId.ofNumber? number with
      | some other =>
        have hother : table ≠ other := by
          rintro rfl
          exact hself (TableId.number_of_ofNumber? hnumber)
        simp only [List.foldl_cons]
        rw [if_neg hother]
        exact ih hrest (pos + 4) start
      | none => exact ih hrest (pos + 4) start

/-! ## The tables present -/

variable {valid : UInt64} {table : TableId}

theorem length_presentTables (valid : UInt64) :
    (presentTables valid).length = rank valid.toNat 64 := by
  rw [presentTables, List.length_map, rank, Nat.count, List.countP_eq_length_filter]
  simp

/-- A place in the vector of tables is kept by the byte for it. -/
theorem toNat_ofNat_of_mem {bit : Nat}
    (h : bit ∈ (List.range 64).filter fun bit => valid.toNat.testBit bit) :
    (UInt8.ofNat bit).toNat = bit := by
  have hlt := List.mem_range.mp (List.mem_of_mem_filter h)
  rw [UInt8.toNat_ofNat']
  exact Nat.mod_eq_of_lt (by omega)

theorem nodup_presentTables (valid : UInt64) : (presentTables valid).Nodup := by
  refine List.Nodup.map_on ?_ (List.nodup_range.filter _)
  intro bit hbit bit' hbit' heq
  rw [← toNat_ofNat_of_mem hbit, ← toNat_ofNat_of_mem hbit', heq]

theorem mem_presentTables :
    table.number ∈ presentTables valid ↔ valid.toNat.testBit table.number.toNat = true := by
  constructor
  · intro h
    obtain ⟨bit, hbit, hnumber⟩ := List.mem_map.mp h
    rw [← hnumber, toNat_ofNat_of_mem hbit]
    exact (List.mem_filter.mp hbit).2
  · intro h
    exact List.mem_map.mpr
      ⟨_, List.mem_filter.mpr ⟨List.mem_range.mpr table.number_lt_64, h⟩, UInt8.ofNat_toNat⟩

theorem idxOf_presentTables (h : valid.toNat.testBit table.number.toNat = true) :
    (presentTables valid).idxOf table.number = rank valid.toNat table.number.toNat := by
  obtain ⟨more, hrange⟩ := range_eq_append table.number_lt_64
  have hsplit : presentTables valid =
      ((List.range table.number.toNat).filter fun bit => valid.toNat.testBit bit).map UInt8.ofNat ++
        table.number :: (more.filter fun bit => valid.toNat.testBit bit).map UInt8.ofNat := by
    rw [presentTables, hrange, List.filter_append, List.filter_cons_of_pos h, List.map_append,
      List.map_cons, UInt8.ofNat_toNat]
  have hnodup := nodup_presentTables valid
  rw [hsplit] at hnodup
  have hfresh : table.number ∉
      ((List.range table.number.toNat).filter fun bit => valid.toNat.testBit bit).map UInt8.ofNat :=
    fun hmem => (List.nodup_append.mp hnodup).2.2 _ hmem _ List.mem_cons_self rfl
  rw [hsplit, List.idxOf_append_of_notMem hfresh, List.idxOf_cons_self, Nat.add_zero,
    List.length_map, rank, Nat.count, List.countP_eq_length_filter]
  simp

/-! ## The header -/

/-- The vector of tables present. -/
def validAt (data : Array UInt8) : UInt64 := UInt64.ofNat (numberAt data 8 8)

theorem toNat_validAt (h : 16 ≤ data.size) : (validAt data).toNat = numberAt data 8 8 := by
  rw [validAt, UInt64.toNat_ofNat']
  exact Nat.mod_eq_of_lt (numberAt_lt h)

/-- The fixed part of the header takes 24 bytes, and what is in it settles how counts are read. -/
theorem reader_eq_ok {info : TableInfo} {c' : Cursor} :
    reader (Cursor.start data) = .ok info c' ↔
      24 ≤ data.size ∧ ∃ counts,
        readCounts (presentTables (validAt data)) ⟨data, 24, #[]⟩ = .ok counts c' ∧
          ofCounts counts (HeapSizes.ofBits (UInt8.ofNat (numberAt data 6 1))) = info := by
  unfold reader
  constructor
  · intro h
    obtain ⟨_, _, hversions, h⟩ := bind_eq_ok.mp h
    obtain ⟨_, rfl⟩ := Reader.advance_eq_ok.mp hversions
    obtain ⟨heaps, _, hheaps, h⟩ := bind_eq_ok.mp h
    obtain ⟨_, rfl, rfl⟩ := Reader.word_eq_ok_numberAt.mp hheaps
    obtain ⟨_, _, hreserved, h⟩ := bind_eq_ok.mp h
    obtain ⟨_, rfl⟩ := Reader.advance_eq_ok.mp hreserved
    obtain ⟨valid, _, hvalid, h⟩ := bind_eq_ok.mp h
    obtain ⟨_, rfl, rfl⟩ := Reader.word_eq_ok_numberAt.mp hvalid
    obtain ⟨sorted, _, hsorted, h⟩ := bind_eq_ok.mp h
    obtain ⟨hfixed, _, rfl⟩ := Reader.word_eq_ok_numberAt.mp hsorted
    obtain ⟨counts, _, hcounts, h⟩ := bind_eq_ok.mp h
    obtain ⟨rfl, rfl⟩ := pure_eq_ok.mp h
    exact ⟨hfixed, counts, hcounts, rfl⟩
  · rintro ⟨hfixed, counts, hcounts, rfl⟩
    have hversions : Reader.advance 6 ⟨data, 0, #[]⟩ = .ok () ⟨data, 6, #[]⟩ :=
      Reader.advance_eq_ok.mpr ⟨by show 6 ≤ data.size; omega, rfl⟩
    have hheaps : Reader.word UInt8 ⟨data, 6, #[]⟩ = .ok _ ⟨data, 7, #[]⟩ :=
      Reader.word_eq_ok_numberAt.mpr ⟨by show 7 ≤ data.size; omega, rfl, rfl⟩
    have hreserved : Reader.advance 1 ⟨data, 7, #[]⟩ = .ok () ⟨data, 8, #[]⟩ :=
      Reader.advance_eq_ok.mpr ⟨by show 8 ≤ data.size; omega, rfl⟩
    have hvalid : Reader.word UInt64 ⟨data, 8, #[]⟩ = .ok _ ⟨data, 16, #[]⟩ :=
      Reader.word_eq_ok_numberAt.mpr ⟨by show 16 ≤ data.size; omega, rfl, rfl⟩
    have hsorted : Reader.word UInt64 ⟨data, 16, #[]⟩ = .ok _ ⟨data, 24, #[]⟩ :=
      Reader.word_eq_ok_numberAt.mpr ⟨hfixed, rfl, rfl⟩
    unfold Cursor.start
    rw [bind_of_ok hversions, bind_of_ok hheaps, bind_of_ok hreserved, bind_of_ok hvalid,
      bind_of_ok hsorted]
    exact bind_of_ok hcounts

theorem read_eq_ok {info : TableInfo} :
    read data = .ok info ↔
      24 + 4 * rank (numberAt data 8 8) 64 ≤ data.size ∧
        ofCounts (countsAt data 24 (presentTables (validAt data)))
          (HeapSizes.ofBits (UInt8.ofNat (numberAt data 6 1))) = info := by
  have hlength (h : 24 ≤ data.size) :
      (presentTables (validAt data)).length = rank (numberAt data 8 8) 64 := by
    rw [length_presentTables, toNat_validAt (by omega)]
  rw [read, Reader.answer_eq_ok]
  constructor
  · rintro ⟨c', h⟩
    obtain ⟨hfixed, counts, hcounts, rfl⟩ := reader_eq_ok.mp h
    obtain ⟨hroom, rfl⟩ := (readCounts_eq_ok (c := ⟨data, 24, #[]⟩) hfixed).mp ⟨c', hcounts⟩
    rw [hlength hfixed] at hroom
    exact ⟨hroom, rfl⟩
  · rintro ⟨hroom, rfl⟩
    have hfixed : 24 ≤ data.size := Nat.le_trans (Nat.le_add_right _ _) hroom
    rw [← hlength hfixed] at hroom
    obtain ⟨c', hcounts⟩ := (readCounts_eq_ok (c := ⟨data, 24, #[]⟩) hfixed).mpr ⟨hroom, rfl⟩
    exact ⟨c', reader_eq_ok.mpr ⟨hfixed, _, hcounts, rfl⟩⟩

theorem readCounts_failsOnly (numbers : List UInt8) :
    Reader.FailsOnly Error.IsTruncated (readCounts numbers) := by
  induction numbers with
  | nil => exact .pure _
  | cons number numbers ih =>
    rw [readCounts]
    refine .bind (.word (fun pos needed => ⟨pos, needed, rfl⟩) UInt32) fun count => ?_
    cases TableId.ofNumber? number with
    | some table => exact .bind ih fun _ => .pure _
    | none => exact .bind (.note _) fun _ => ih

/-- Nothing but want of bytes is wrong with a header. -/
theorem reader_failsOnly : Reader.FailsOnly Error.IsTruncated reader := by
  have hshort : ∀ pos needed, (Error.truncated pos needed).IsTruncated :=
    fun pos needed => ⟨pos, needed, rfl⟩
  exact .bind (.advance hshort 6) fun _ => .bind (.word hshort UInt8) fun _ =>
    .bind (.advance hshort 1) fun _ => .bind (.word hshort UInt64) fun valid =>
    .bind (.word hshort UInt64) fun _ => .bind (readCounts_failsOnly _) fun _ => .pure _

/-! ## Tables without a name -/

/-- The header with other bits, and a count put in at a place. -/
def withCount (data : Array UInt8) (valid place : Nat) (count : UInt32) : Array UInt8 :=
  (data.toList.take 8 ++ (leBytes 8 valid ++ ((data.toList.take place).drop 16 ++
    (LittleEndian.encode count ++ data.toList.drop place)))).toArray

/-- The header with one more bit set, and a count put in at the rank of that bit. -/
def addCount (data : Array UInt8) (bit : Nat) (count : UInt32) : Array UInt8 :=
  let valid := numberAt data 8 8
  withCount data (valid ||| 2 ^ bit) (24 + 4 * rank valid bit) count

section WithCount

variable {valid place : Nat} {count : UInt32}

/-- The bytes from one place up to another stand at the first. -/
theorem holds_drop_take {start stop : Nat} (h : start ≤ stop) (hstop : stop ≤ data.size) :
    Holds data start ((data.toList.take stop).drop start) := by
  have hlength : ((data.toList.take stop).drop start).length = stop - start := by
    rw [List.length_drop, List.length_take, Array.length_toList, Nat.min_eq_left hstop]
  rw [holds_iff, hlength, List.drop_take]
  exact ⟨by omega, rfl⟩

theorem length_middle (hle : place ≤ data.size) :
    ((data.toList.take place).drop 16).length = place - 16 := by
  rw [List.length_drop, List.length_take, Array.length_toList, Nat.min_eq_left hle]

theorem length_front (hle : 8 ≤ data.size) : (data.toList.take 8).length = 8 := by
  rw [List.length_take, Array.length_toList, Nat.min_eq_left hle]

theorem size_withCount (hfixed : 16 ≤ place) (hle : place ≤ data.size) :
    (withCount data valid place count).size = data.size + 4 := by
  rw [withCount, List.size_toArray]
  simp only [List.length_append, length_front (by omega : 8 ≤ data.size), length_middle hle,
    length_leBytes, LittleEndian.length_encode, List.length_drop, Array.length_toList]
  show 8 + (8 + (place - 16 + (4 + (data.size - place)))) = data.size + 4
  omega

/-- The runs of bytes that make up the header. -/
theorem holds_withCount (valid : Nat) (count : UInt32) (hfixed : 16 ≤ place)
    (hle : place ≤ data.size) :
    Holds (withCount data valid place count) 0 (data.toList.take 8) ∧
      Holds (withCount data valid place count) 8 (leBytes 8 valid) ∧
      Holds (withCount data valid place count) 16 ((data.toList.take place).drop 16) ∧
      Holds (withCount data valid place count) (place + 4) (data.toList.drop place) := by
  have hall := holds_toArray_append (data.toList.take 8 ++ (leBytes 8 valid ++
    ((data.toList.take place).drop 16 ++
      (LittleEndian.encode count ++ data.toList.drop place)))) []
  rw [List.append_nil] at hall
  simp only [holds_append, length_front (by omega : 8 ≤ data.size), length_middle hle,
    length_leBytes, LittleEndian.length_encode] at hall
  obtain ⟨hfront, hbits, hmiddle, -, hbehind⟩ := hall
  have hwhere : 0 + 8 + 8 + (place - 16) + 4 = place + 4 := by omega
  exact ⟨hfront, hbits, hmiddle, hwhere ▸ hbehind⟩

/-- Numbers keep their places in front of the bits and in front of the count put in, and move on by
four bytes behind it. -/
theorem numberAt_withCount (hfixed : 16 ≤ place) (hle : place ≤ data.size) {pos n : Nat} :
    (pos + n ≤ 8 → numberAt (withCount data valid place count) pos n = numberAt data pos n) ∧
      (16 ≤ pos → pos + n ≤ place →
        numberAt (withCount data valid place count) pos n = numberAt data pos n) ∧
      (place ≤ pos → pos + n ≤ data.size →
        numberAt (withCount data valid place count) (pos + 4) n = numberAt data pos n) := by
  obtain ⟨hfront, -, hmiddle, hbehind⟩ := holds_withCount valid count hfixed hle
  refine ⟨fun hpos => ?_, fun hpos hend => ?_, fun hpos hend => ?_⟩
  · have hold : Holds data 0 (data.toList.take 8) := holds_drop_take (Nat.zero_le 8) (by omega)
    have h := hfront.numberAt_congr hold (length_front (by omega : 8 ≤ data.size) ▸ hpos)
    rwa [Nat.zero_add] at h
  · obtain ⟨i, rfl⟩ := Nat.exists_eq_add_of_le hpos
    refine hmiddle.numberAt_congr (holds_drop_take hfixed hle) ?_
    rw [length_middle hle]
    omega
  · obtain ⟨i, rfl⟩ := Nat.exists_eq_add_of_le hpos
    have hold : Holds data place (data.toList.drop place) := by
      have h := holds_drop_take hle (Nat.le_refl data.size)
      rwa [List.take_of_length_le (Nat.le_of_eq Array.length_toList)] at h
    rw [Nat.add_right_comm]
    refine hbehind.numberAt_congr hold ?_
    rw [List.length_drop, Array.length_toList]
    omega

end WithCount

/-! ## Counts by rank -/

theorem heaps_of_read {info : TableInfo} (h : read data = .ok info) :
    info.heaps = ⟨(numberAt data 6 1).testBit 0, (numberAt data 6 1).testBit 1,
      (numberAt data 6 1).testBit 2⟩ := by
  obtain ⟨hroom, rfl⟩ := read_eq_ok.mp h
  have hbyte : (UInt8.ofNat (numberAt data 6 1)).toNat = numberAt data 6 1 := by
    rw [UInt8.toNat_ofNat']
    exact Nat.mod_eq_of_lt (numberAt_lt (by omega))
  rw [ofCounts, HeapSizes.ofBits, hbyte]

theorem rowCount_of_read {info : TableInfo} (h : read data = .ok info) (table : TableId) :
    (info.rowCount table).toNat =
      if (numberAt data 8 8).testBit table.number.toNat then
        numberAt data (24 + 4 * rank (numberAt data 8 8) table.number.toNat) 4
      else 0 := by
  obtain ⟨hroom, rfl⟩ := read_eq_ok.mp h
  have hvalid : (validAt data).toNat = numberAt data 8 8 := toNat_validAt (by omega)
  have hpresent : table.number ∈ presentTables (validAt data) ↔
      (numberAt data 8 8).testBit table.number.toNat = true := by
    rw [mem_presentTables, hvalid]
  rw [rowCount_countsAt (nodup_presentTables _)]
  by_cases hset : (numberAt data 8 8).testBit table.number.toNat = true
  · have hlast := rank_lt_of_testBit hset table.number_lt_64
    rw [if_pos (hpresent.mpr hset), if_pos hset, idxOf_presentTables (hvalid ▸ hset), hvalid]
    exact toNat_countAt (by omega)
  · rw [if_neg (mt hpresent.mp hset), if_neg hset]
    rfl

theorem exists_read_iff :
    (∃ info, read data = .ok info) ↔ 24 + 4 * rank (numberAt data 8 8) 64 ≤ data.size := by
  constructor
  · rintro ⟨info, h⟩
    exact (read_eq_ok.mp h).1
  · intro hroom
    exact ⟨_, read_eq_ok.mpr ⟨hroom, rfl⟩⟩

/-- The vector of tables, with the bit put in. -/
theorem numberAt_addCount_valid {bit : Nat}
    (hroom : 24 + 4 * rank (numberAt data 8 8) 64 ≤ data.size) (hbit : bit < 64) (count : UInt32) :
    numberAt (addCount data bit count) 8 8 = numberAt data 8 8 ||| 2 ^ bit := by
  have hsmall : numberAt data 8 8 ||| 2 ^ bit < leBound 8 := by
    have hold : numberAt data 8 8 < 2 ^ 64 := numberAt_lt (by omega)
    exact Nat.or_lt_two_pow hold (Nat.pow_lt_pow_right (by decide) hbit)
  have hplace := rank_place_le hroom hbit
  have hbits := (holds_withCount (numberAt data 8 8 ||| 2 ^ bit) count (by omega) hplace).2.1
  have hnumber : numberAt _ (8 + 0) 8 = _ := hbits.numberAt_eq (by rw [length_leBytes])
  rw [List.drop_zero, List.take_of_length_le (Nat.le_of_eq (length_leBytes _ _)),
    leValue_leBytes hsmall] at hnumber
  exact hnumber

theorem read_addCount {info : TableInfo} (h : read data = .ok info) {bit : Nat} (hbit : bit < 64)
    (hunknown : TableId.ofNumber? (UInt8.ofNat bit) = none)
    (hunset : (numberAt data 8 8).testBit bit = false) (count : UInt32) :
    ∃ info', read (addCount data bit count) = .ok info' ∧ info'.rowCount = info.rowCount ∧
      info'.heaps = info.heaps := by
  have hroom := (read_eq_ok.mp h).1
  have hvalid' := numberAt_addCount_valid hroom hbit count
  have hplace := rank_place_le hroom hbit
  have hfixed : 16 ≤ 24 + 4 * rank (numberAt data 8 8) bit := by omega
  obtain ⟨info', h'⟩ : ∃ info', read (addCount data bit count) = .ok info' := by
    rw [exists_read_iff, hvalid', rank_or_two_pow hunset, if_pos hbit, addCount,
      size_withCount hfixed hplace]
    omega
  refine ⟨info', h', ?_, ?_⟩
  · funext table
    have hother : bit ≠ table.number.toNat := by
      rintro rfl
      rw [UInt8.ofNat_toNat, TableId.ofNumber?_number] at hunknown
      cases hunknown
    have hsame : (numberAt data 8 8 ||| 2 ^ bit).testBit table.number.toNat =
        (numberAt data 8 8).testBit table.number.toNat := by
      rw [Nat.testBit_or, Nat.testBit_two_pow_of_ne hother, Bool.or_false]
    refine UInt32.toNat_inj.mp ?_
    rw [rowCount_of_read h', rowCount_of_read h, hvalid', hsame, rank_or_two_pow hunset]
    by_cases hset : (numberAt data 8 8).testBit table.number.toNat = true
    · rw [if_pos hset, if_pos hset]
      by_cases hbefore : bit < table.number.toNat
      -- the count of the table is behind the one put in, and has moved on with it
      · have hrank := rank_mono (numberAt data 8 8) (Nat.le_of_lt hbefore)
        have hlast := rank_lt_of_testBit hset table.number_lt_64
        rw [if_pos hbefore, Nat.mul_add, ← Nat.add_assoc]
        exact (numberAt_withCount hfixed hplace).2.2 (by omega) (by omega)
      · have hfront := Nat.lt_of_le_of_ne (Nat.not_lt.mp hbefore) hother.symm
        have hrank := rank_lt_of_testBit hset hfront
        rw [if_neg hbefore, Nat.add_zero]
        exact (numberAt_withCount hfixed hplace).2.1 (by omega) (by omega)
    · rw [if_neg hset, if_neg hset]
  · rw [heaps_of_read h', heaps_of_read h, addCount,
      (numberAt_withCount hfixed hplace).1 (by decide)]

/-- The numbers below 64 that no table has. -/
theorem ofNumber?_eq_none_iff {bit : Nat} (hbit : bit < 64) :
    TableId.ofNumber? (UInt8.ofNat bit) = none ↔
      (0x2d ≤ bit ∧ bit ≤ 0x2f) ∨ (0x38 ≤ bit ∧ bit ≤ 0x3f) := by
  have hall : ∀ bit < 64, TableId.ofNumber? (UInt8.ofNat bit) = none ↔
      (0x2d ≤ bit ∧ bit ≤ 0x2f) ∨ (0x38 ≤ bit ∧ bit ≤ 0x3f) := by decide +kernel
  exact hall bit hbit

/-- Any bytes are read as the header of a table stream if they are long enough for a count for each
bit that is set, and nothing but their being too short is ever wrong with them. The count of a table
is the number at the rank of its bit; tables whose bits are not set are empty. The heap flags are
the low three bits of the seventh byte. Bits 0x2d to 0x2f and 0x38 to 0x3f are not those of a table:
each takes a count, and setting one and putting its count in changes the count of no table. -/
theorem read_by_rank (data : Array UInt8) :
    ((∃ info, read data = .ok info) ↔ 24 + 4 * rank (numberAt data 8 8) 64 ≤ data.size) ∧
      (¬ 24 + 4 * rank (numberAt data 8 8) 64 ≤ data.size →
        ∃ offset needed, read data = .error (.truncated offset needed)) ∧
      (∀ info, read data = .ok info →
        (∀ table : TableId, (info.rowCount table).toNat =
          if (numberAt data 8 8).testBit table.number.toNat then
            numberAt data (24 + 4 * rank (numberAt data 8 8) table.number.toNat) 4
          else 0) ∧
        info.heaps = ⟨(numberAt data 6 1).testBit 0, (numberAt data 6 1).testBit 1,
          (numberAt data 6 1).testBit 2⟩ ∧
        ∀ bit < 64, TableId.ofNumber? (UInt8.ofNat bit) = none →
          (numberAt data 8 8).testBit bit = false →
          ∀ count, ∃ info', read (addCount data bit count) = .ok info' ∧
            info'.rowCount = info.rowCount ∧ info'.heaps = info.heaps) ∧
      ∀ bit < 64, TableId.ofNumber? (UInt8.ofNat bit) = none ↔
        (0x2d ≤ bit ∧ bit ≤ 0x2f) ∨ (0x38 ≤ bit ∧ bit ≤ 0x3f) := by
  refine ⟨exists_read_iff, fun hshort => ?_, fun info h => ?_, fun bit => ofNumber?_eq_none_iff⟩
  · cases herror : read data with
    | ok info => exact absurd (exists_read_iff.mp ⟨info, herror⟩) hshort
    | error e =>
      obtain ⟨c', hfail⟩ := Reader.answer_eq_error.mp herror
      obtain ⟨offset, needed, rfl⟩ := reader_failsOnly _ _ _ hfail
      exact ⟨offset, needed, rfl⟩
  · exact ⟨rowCount_of_read h, heaps_of_read h, fun bit hbit => read_addCount h hbit⟩

/-- A header with the counts of type references, of an unknown table and of documents, and with a
flag byte in which bits without a meaning are set as well. -/
def sparseStream : Array UInt8 :=
  #[0, 0, 0, 0, 2, 0, 0xfa, 1, 2, 0, 0, 0, 0, 0x20, 1, 0, 0, 0, 0, 0, 0, 0, 0, 0,
    3, 0, 0, 0, 9, 0, 0, 0, 0x70, 0x11, 1, 0]

theorem read_by_rank_sparse :
    ∃ info, read sparseStream = .ok info ∧ (info.rowCount .typeRef).toNat = 3 ∧
      (info.rowCount .document).toNat = 70000 ∧ (info.rowCount .module).toNat = 0 ∧
      info.heaps = ⟨false, true, false⟩ ∧
      ∃ info', read (addCount sparseStream 0x3f 7) = .ok info' ∧
        info'.rowCount = info.rowCount ∧ info'.heaps = info.heaps := by
  have hrank := read_by_rank sparseStream
  obtain ⟨info, hread⟩ := hrank.1.mpr (by decide +kernel)
  obtain ⟨hcounts, hheaps, hunknown⟩ := hrank.2.2.1 info hread
  exact ⟨info, hread, (hcounts .typeRef).trans (by decide +kernel),
    (hcounts .document).trans (by decide +kernel), (hcounts .module).trans (by decide +kernel),
    hheaps.trans (by decide +kernel), hunknown 0x3f (by decide) (by decide) (by decide +kernel) 7⟩

end TableInfo

end CilCodec
