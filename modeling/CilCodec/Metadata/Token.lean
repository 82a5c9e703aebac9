import CilCodec.Metadata.TableId
import CilCodec.Text.Hex

/-!
# CilCodec.Metadata.Token

Metadata tokens (III.1.9): a table byte above a 24-bit row.

Results:
1. `Token.ofParts_parts` — a token is its table byte and its row;
2. `Token.tableId?_ofRow`, `Token.row_ofRow` — a token built for a row names that row, as far as 24
   bits reach.
-/

namespace CilCodec

/-- A metadata token. -/
@[ext]
structure Token where
  value : UInt32
deriving DecidableEq, Repr, Inhabited

namespace Token

/-- Rows above this one have no token. -/
def maxRow : Nat := 0xffffff

/-- The token with a given table byte and the low 24 bits of `row`. -/
def ofParts (table : UInt8) (row : UInt32) : Token :=
  ⟨UInt32.ofNat (table.toNat * 0x1000000 + row.toNat % 0x1000000)⟩

/-- The token of a row, of which 24 bits are kept. -/
def ofRow (table : TableId) (row : UInt32) : Token := ofParts table.number row

/-- The table byte. -/
def table (t : Token) : UInt8 := UInt8.ofNat (t.value.toNat / 0x1000000)

/-- The row, below `2 ^ 24`. -/
def row (t : Token) : UInt32 := UInt32.ofNat (t.value.toNat % 0x1000000)

/-- A token of row 0 names nothing. -/
def isNull (t : Token) : Bool := t.row == 0

/-- The table named by the table byte. -/
def tableId? (t : Token) : Option TableId := TableId.ofNumber? t.table

/-- The table byte of user strings, which name a heap offset and no table row. -/
def userStringTable : UInt8 := 0x70

/-- The token of a user string. -/
def ofUserString (offset : UInt32) : Token := ofParts userStringTable offset

def text (t : Token) : String := "0x" ++ lowerHex 8 t.value.toNat

/-- The token together with its parts. -/
def detail (t : Token) : String :=
  s!"Token({t.text}, table: 0x{lowerHex 2 t.table.toNat}, row: {t.row.toNat})"

theorem toNat_ofParts (table : UInt8) (row : UInt32) :
    (ofParts table row).value.toNat = table.toNat * 0x1000000 + row.toNat % 0x1000000 := by
  have := table.toNat_lt
  rw [ofParts, UInt32.toNat_ofNat']
  omega

theorem toNat_table (t : Token) : t.table.toNat = t.value.toNat / 0x1000000 := by
  have := t.value.toNat_lt
  rw [table, UInt8.toNat_ofNat']
  omega

theorem toNat_row (t : Token) : t.row.toNat = t.value.toNat % 0x1000000 := by
  rw [row, UInt32.toNat_ofNat']
  omega

@[simp] theorem table_ofParts (table : UInt8) (row : UInt32) :
    (ofParts table row).table = table := by
  apply UInt8.toNat_inj.mp
  rw [toNat_table, toNat_ofParts]
  omega

theorem row_ofParts {table : UInt8} {row : UInt32} (h : row.toNat ≤ maxRow) :
    (ofParts table row).row = row := by
  apply UInt32.toNat_inj.mp
  rw [toNat_row, toNat_ofParts]
  simp only [maxRow] at h
  omega

@[simp] theorem ofParts_parts (t : Token) : ofParts t.table t.row = t := by
  apply Token.ext
  apply UInt32.toNat_inj.mp
  rw [toNat_ofParts, toNat_table, toNat_row]
  omega

@[simp] theorem tableId?_ofRow (table : TableId) (row : UInt32) :
    (ofRow table row).tableId? = some table := by
  rw [tableId?, ofRow, table_ofParts, TableId.ofNumber?_number]

theorem row_ofRow {table : TableId} {row : UInt32} (h : row.toNat ≤ maxRow) :
    (ofRow table row).row = row :=
  row_ofParts h

end Token

end CilCodec
