import CilCodec.Bytes.Buffer
import CilCodec.Bytes.Cursor

/-!
# CilCodec.Import.Thunk

Import lookup tables (II.25.3.1): thunks of 32 or 64 bits, ended by a zero.

The highest bit of a thunk tells imports by ordinal from imports by name. An ordinal is the low 16
bits of its thunk, and other bits set there are passed over with a notice.
-/

namespace CilCodec

/-- The width of thunks: 4 bytes in PE32 images and 8 in PE32+ images. -/
inductive ThunkWidth where
  | pe32
  | pe32Plus
deriving DecidableEq, Repr, Inhabited

namespace ThunkWidth

/-- Number of bytes of a thunk. -/
def bytes : ThunkWidth → Nat
  | pe32 => 4
  | pe32Plus => 8

/-- The highest bit of a thunk, set on imports by ordinal. -/
def ordinalFlag : ThunkWidth → Nat
  | pe32 => 0x80000000
  | pe32Plus => 0x8000000000000000

/-- Whether a thunk of this width can hold `raw`. -/
def holds (width : ThunkWidth) (raw : UInt64) : Bool := raw.toNat < 2 * width.ordinalFlag

end ThunkWidth

/-- One import. -/
inductive ImportEntry where
  | ordinal (number : UInt16)
  /-- The address of a hint and a name, relative to the image base. -/
  | hintName (rva : UInt32)
deriving DecidableEq, Repr, Inhabited

namespace ImportEntry

/-- The import that a thunk stands for; a zero stands for none. -/
def decode (raw : UInt64) (width : ThunkWidth) : Except Error (Option ImportEntry) :=
  if !width.holds raw then
    .error (.invalidImport (.wideThunk raw))
  else if raw = 0 then
    .ok none
  else if width.ordinalFlag ≤ raw.toNat then
    .ok (some (.ordinal (UInt16.ofNat (raw.toNat - width.ordinalFlag))))
  else if raw.toNat ≤ 0xffffffff then
    .ok (some (.hintName (UInt32.ofNat raw.toNat)))
  else
    .error (.invalidImport (.wideRva raw.toNat))

/-- The notice that a thunk deserves: one by ordinal with bits set above the ordinal. -/
def notice? (raw : UInt64) (width : ThunkWidth) : Option Notice :=
  if width.holds raw && width.ordinalFlag + 0xffff < raw.toNat then
    some (.ordinalReservedBits raw)
  else
    none

/-- The thunk of an import. Addresses that would read as an ordinal or as the end of the table have
none. -/
def encode (entry : ImportEntry) (width : ThunkWidth) : Except Error UInt64 :=
  match entry with
  | ordinal number => .ok (UInt64.ofNat (width.ordinalFlag + number.toNat))
  | hintName rva =>
    if 0x80000000 ≤ rva.toNat then .error (.invalidImport (.flaggedRva rva))
    else if rva = 0 then .error (.invalidImport .zeroRva)
    else .ok rva.toUInt64

open Reader in
/-- Reads a thunk. -/
def readThunk (width : ThunkWidth) : Reader UInt64 :=
  match width with
  | .pe32 => UInt32.toUInt64 <$> word UInt32
  | .pe32Plus => word UInt64

open Writer in
/-- Writes a thunk. -/
def writeThunk (raw : UInt64) (width : ThunkWidth) : Writer Unit :=
  match width with
  | .pe32 => word raw.toUInt32
  | .pe32Plus => word raw

/-- Reads an import, or the zero at the end of a table. -/
def reader (width : ThunkWidth) : Reader (Option ImportEntry) := do
  let raw ← readThunk width
  if let some n := notice? raw width then
    Reader.note n
  Reader.ofResult (decode raw width)

/-- Writes an import. -/
def writer (width : ThunkWidth) (entry : ImportEntry) : Writer Unit := do
  writeThunk (← Writer.ofResult (entry.encode width)) width

/-- Reads imports up to the zero at the end of the table. -/
def tableReader (width : ThunkWidth) : Reader (List ImportEntry) := Reader.untilNone (reader width)

/-- Writes imports and the zero behind them. -/
def tableWriter (width : ThunkWidth) (entries : List ImportEntry) : Writer Unit := do
  Writer.each (writer width) entries
  writeThunk 0 width

end ImportEntry

end CilCodec
