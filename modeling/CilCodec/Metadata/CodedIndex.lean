import CilCodec.Error

/-!
# CilCodec.Metadata.CodedIndex

References to a row of one of several tables, and the numbers that stand for them (II.24.2.6).

A null reference (row 0) whose tag is unassigned is read as one to the first table of the kind; one
to a table that the kind does not list is written as 0.
-/

namespace CilCodec

/-- A reference to a row; row 0 is none. -/
structure CodedIndex where
  table : TableId
  row : UInt32
deriving DecidableEq, Repr, Inhabited

namespace CodedIndex

def isNull (ci : CodedIndex) : Bool := ci.row == 0

/-- The token of the row, of which 24 bits are kept. -/
def token (ci : CodedIndex) : Token := Token.ofRow ci.table ci.row

/-- The greatest row that leaves room for the tag. -/
def maxRow (kind : CodedKind) : Nat := 0xffffffff / kind.tagBound

/-- The number that stands for a reference: the row above the tag. -/
def encode (ci : CodedIndex) (kind : CodedKind) : Except Error UInt32 :=
  match kind.tagOf? ci.table with
  | some tag =>
    if maxRow kind < ci.row.toNat then .error (.indexOutOfRange .coded ci.row 0)
    else .ok (UInt32.ofNat (ci.row.toNat * kind.tagBound + tag))
  | none =>
    if ci.isNull then .ok 0 else .error (.unsupportedTable ci.table kind)

/-- The table a tag selects for a given row: an unassigned tag will do if the row is null. -/
def tableOfTag? (kind : CodedKind) (tag row : Nat) : Option TableId :=
  match kind.candidate? tag with
  | none => none
  | some (some table) => some table
  | some none => if row = 0 then kind.firstTable? else none

/-- The reference that a number stands for. -/
def decode (raw : UInt32) (kind : CodedKind) : Except Error CodedIndex :=
  let tag := raw.toNat % kind.tagBound
  let row := raw.toNat / kind.tagBound
  match tableOfTag? kind tag row with
  | some table => .ok ⟨table, UInt32.ofNat row⟩
  | none => .error (.invalidTag tag kind)

end CodedIndex

/-- The table and the row of a token. -/
def Token.parts (t : Token) : Except Error (TableId × UInt32) :=
  match t.tableId? with
  | some table => .ok (table, t.row)
  | none => .error (.invalidTableId t.table)

end CilCodec
