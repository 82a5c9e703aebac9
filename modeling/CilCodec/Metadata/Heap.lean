import CilCodec.Metadata.IndexWidth
import CilCodec.Text.Hex

/-!
# CilCodec.Metadata.Heap

The string, GUID and blob heaps, and the flags that say which of them need wide indices (II.24.2.6).
-/

namespace CilCodec

/-- A metadata heap that columns index. -/
inductive Heap where
  | string
  | guid
  | blob
deriving DecidableEq, Repr, Inhabited

/-- Which heaps have wide indices. -/
structure HeapSizes where
  wideString : Bool
  wideGuid : Bool
  wideBlob : Bool
deriving DecidableEq, Repr, Inhabited

namespace HeapSizes

/-- The flags in the low three bits of a byte; the other bits mean nothing. -/
def ofBits (bits : UInt8) : HeapSizes :=
  ⟨bits.toNat.testBit 0, bits.toNat.testBit 1, bits.toNat.testBit 2⟩

/-- The flag byte. -/
def bits (s : HeapSizes) : UInt8 :=
  UInt8.ofNat (s.wideString.toNat + 2 * s.wideGuid.toNat + 4 * s.wideBlob.toNat)

/-- Width of the indices into a heap. -/
def indexWidth (s : HeapSizes) (heap : Heap) : IndexWidth :=
  let isWide :=
    match heap with
    | .string => s.wideString
    | .guid => s.wideGuid
    | .blob => s.wideBlob
  if isWide then .wide else .narrow

/-- The names of the flags that are set. -/
def detail (s : HeapSizes) : String :=
  let names :=
    (if s.wideString then ["STRING"] else []) ++ (if s.wideGuid then ["GUID"] else []) ++
      (if s.wideBlob then ["BLOB"] else [])
  let shown := if names.isEmpty then "0x0" else " | ".intercalate names
  s!"HeapSizes({shown})"

@[simp] theorem ofBits_bits (s : HeapSizes) : ofBits s.bits = s := by
  obtain ⟨a, b, c⟩ := s
  cases a <;> cases b <;> cases c <;> decide

end HeapSizes

end CilCodec
