import CilCodec.Bytes.Buffer
import CilCodec.Bytes.Cursor

/-!
# CilCodec.Import.HintName

Hint/name entries (II.25.3.1): a hint, a name that ends with a zero byte, and a second zero where
the entry would have an odd number of bytes.

The padding is optional when an entry is read: only a zero byte is taken for it.
-/

namespace CilCodec

/-- A hint for the search in the export table, and the name of the import. -/
structure HintName where
  hint : UInt16
  name : String
deriving DecidableEq, Repr, Inhabited

namespace HintName

/-- Whether a name can be stored: ASCII without a zero. -/
def isStorable (name : String) : Bool :=
  name.toList.all fun c => c.toNat < 0x80 && c.toNat != 0

/-- The bytes of a storable name. -/
def nameBytes (name : String) : List UInt8 := name.toList.map fun c => UInt8.ofNat c.toNat

/-- The name that ASCII bytes spell. -/
def nameOfBytes (bytes : List UInt8) : String :=
  String.ofList (bytes.map fun byte => Char.ofNat byte.toNat)

/-- Bytes of the hint, the name in UTF-8 and the zero behind it. -/
def unpaddedSize (entry : HintName) : Nat :=
  2 + entry.name.toList.foldr (fun c size => c.utf8Size + size) 0 + 1

/-- Number of bytes of an entry, which is even. -/
def size (entry : HintName) : Nat := entry.unpaddedSize + entry.unpaddedSize % 2

open Reader in
/-- The number of bytes before the next zero byte. -/
def nameLength : Reader Nat := fun c =>
  match c.rest.findIdx? (· == 0) with
  | some length => .ok length c
  | none => .error (.truncated c.pos (c.remaining + 1)) c

open Reader in
/-- Whether an entry that began at `start` is followed by padding. -/
def hasPadding (start : Nat) : Reader Bool := fun c =>
  .ok ((c.pos - start) % 2 == 1 && c.data[c.pos]? == some 0) c

open Reader in
/-- Reads an entry. -/
def reader : Reader HintName := do
  let start ← position
  let hint ← word UInt16
  let bytes ← take (← nameLength)
  unless bytes.all fun byte => byte.toNat < 0x80 do
    throw (.invalidImport (.nonAsciiName start))
  advance 1
  if ← hasPadding start then
    advance 1
  return ⟨hint, nameOfBytes bytes⟩

open Writer in
/-- Writes an entry. -/
def writer (entry : HintName) : Writer Unit := do
  unless isStorable entry.name do
    throw (.refused (.invalidImport (.unstorableName entry.name)))
  word entry.hint
  put (nameBytes entry.name)
  put [0]
  if entry.unpaddedSize < entry.size then
    put [0]

end HintName

end CilCodec
