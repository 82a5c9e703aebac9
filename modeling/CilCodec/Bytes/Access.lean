import CilCodec.Bytes.LittleEndian
import CilCodec.Error
import CilCodec.Metadata.IndexWidth

/-!
# CilCodec.Bytes.Access

Words read and overwritten in place, at an offset into a run of bytes.

A word that does not lie inside the bytes as a whole is neither read nor written.
-/

namespace CilCodec

/-- The `count` bytes at `offset`, if there are so many. -/
def sliceAt? (data : Array UInt8) (offset count : Nat) : Option (List UInt8) :=
  if offset + count ≤ data.size then some (data.extract offset (offset + count)).toList else none

/-- The word at `offset`, and the offset behind it. -/
def readAt (α : Type) [LittleEndian α] (data : Array UInt8) (offset : Nat) :
    Except Error (α × Nat) :=
  let size := LittleEndian.size α
  match sliceAt? data offset size with
  | some bytes => .ok (LittleEndian.decode bytes, offset + size)
  | none => .error (.truncated offset size)

/-- The index at `offset` in a column of width `width`, and the offset behind it. -/
def readIndexAt (width : IndexWidth) (data : Array UInt8) (offset : Nat) :
    Except Error (UInt32 × Nat) :=
  match width with
  | .narrow => (readAt UInt16 data offset).map fun (index, next) => (index.toUInt32, next)
  | .wide => readAt UInt32 data offset

/-- The bytes with the word at `offset` overwritten, and the offset behind it. -/
def writeAt {α : Type} [LittleEndian α] (data : Array UInt8) (offset : Nat) (value : α) :
    Except Error (Array UInt8 × Nat) :=
  let next := offset + LittleEndian.size α
  if next ≤ data.size then
    .ok (data.extract 0 offset ++ (LittleEndian.encode value).toArray ++
      data.extract next data.size, next)
  else
    .error (.truncated offset (LittleEndian.size α))

/-- Overwrites an index; a narrow column keeps its low 16 bits. -/
def writeIndexAt (width : IndexWidth) (data : Array UInt8) (offset : Nat) (index : UInt32) :
    Except Error (Array UInt8 × Nat) :=
  match width with
  | .narrow => writeAt data offset index.toUInt16
  | .wide => writeAt data offset index

theorem length_of_sliceAt? {data : Array UInt8} {offset count : Nat} {bytes : List UInt8}
    (h : sliceAt? data offset count = some bytes) : bytes.length = count := by
  unfold sliceAt? at h
  split at h
  · obtain rfl := Option.some.inj h
    simp
    omega
  · exact nomatch h

/-- A written word is read back. -/
theorem readAt_writeAt {α : Type} [LittleEndian α] {data written : Array UInt8} {offset next : Nat}
    {value : α} (h : writeAt data offset value = .ok (written, next)) :
    readAt α written offset = .ok (value, next) := by
  simp only [writeAt] at h
  split at h
  next hle =>
    cases h
    have hoffset : offset ≤ data.size := by omega
    have hbytes : sliceAt? (data.extract 0 offset ++ (LittleEndian.encode value).toArray ++
        data.extract (offset + LittleEndian.size α) data.size) offset (LittleEndian.size α) =
          some (LittleEndian.encode value) := by
      rw [sliceAt?, if_pos (by simp; omega)]
      simp [List.extract_eq_take_drop, Nat.min_eq_left hoffset,
        List.take_of_length_le (Nat.le_of_eq (LittleEndian.length_encode value))]
    rw [readAt, hbytes]
    simp
  next => exact nomatch h

end CilCodec
