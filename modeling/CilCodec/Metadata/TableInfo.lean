import CilCodec.Bytes.Buffer
import CilCodec.Bytes.Cursor
import CilCodec.Metadata.CodedIndex
import CilCodec.Metadata.Heap

/-!
# CilCodec.Metadata.TableInfo

Row counts and heap flags of an image, and the index columns whose widths depend on them
(II.24.2.6).

The widths of coded indices are worked out once, when a `TableInfo` is built; `codedWidth_ofCounts`
says that they are those of the row counts.
-/

namespace CilCodec

/-- Row counts by table number, widths of coded indices by kind, and the heap flags. -/
structure TableInfo where
  rows : Vector UInt32 TableId.numberBound
  codedWidths : Vector IndexWidth 14
  heaps : HeapSizes
deriving DecidableEq, Repr

/-- The place of a kind in `CodedKind.all`. -/
def CodedKind.index : CodedKind → Fin 14
  | typeDefOrRef => 0
  | hasConstant => 1
  | hasCustomAttribute => 2
  | hasFieldMarshal => 3
  | hasDeclSecurity => 4
  | memberRefParent => 5
  | hasSemantics => 6
  | methodDefOrRef => 7
  | memberForwarded => 8
  | implementation => 9
  | customAttributeType => 10
  | resolutionScope => 11
  | typeOrMethodDef => 12
  | hasCustomDebugInformation => 13

namespace TableInfo

/-- The count of a table in a list of counts by table number. -/
def countIn (rows : Vector UInt32 TableId.numberBound) (table : TableId) : UInt32 :=
  have := table.number_lt
  rows[table.number.toNat]

/-- The list of counts with one count changed. -/
def setCount (rows : Vector UInt32 TableId.numberBound) (table : TableId) (count : UInt32) :
    Vector UInt32 TableId.numberBound :=
  have := table.number_lt
  rows.set table.number.toNat count

/-- Information for given counts; tables without one are empty, and of two counts of one table the
last stands. -/
def ofCounts (counts : List (TableId × UInt32)) (heaps : HeapSizes) : TableInfo :=
  let rows := counts.foldl (fun rows (table, count) => setCount rows table count)
    (Vector.replicate _ 0)
  { rows
    codedWidths := Vector.ofFn fun i => codedIndexWidth CodedKind.all[i].candidates (countIn rows)
    heaps }

/-- Number of rows of a table. -/
def rowCount (info : TableInfo) (table : TableId) : UInt32 := countIn info.rows table

/-- Width of a coded index column. -/
def codedWidth (info : TableInfo) (kind : CodedKind) : IndexWidth := info.codedWidths[kind.index]

/-- Width of a plain index into a table. -/
def tableWidth (info : TableInfo) (table : TableId) : IndexWidth :=
  if 0xffff < (info.rowCount table).toNat then .wide else .narrow

/-- Width of an index into a heap. -/
def heapWidth (info : TableInfo) (heap : Heap) : IndexWidth := info.heaps.indexWidth heap

@[simp] theorem codedWidth_ofCounts (counts : List (TableId × UInt32)) (heaps : HeapSizes)
    (kind : CodedKind) :
    (ofCounts counts heaps).codedWidth kind =
      codedIndexWidth kind.candidates (ofCounts counts heaps).rowCount := by
  have place : CodedKind.all[kind.index] = kind := by cases kind <;> rfl
  have built : (ofCounts counts heaps).codedWidth kind =
      codedIndexWidth CodedKind.all[kind.index].candidates (ofCounts counts heaps).rowCount := by
    simp only [codedWidth, ofCounts, Fin.getElem_fin, Vector.getElem_ofFn]
    rfl
  rw [built, place]

/-! ## The header of the table stream -/

open Reader in
/-- Reads one count for each table number in turn. Counts of unknown tables are passed over. -/
def readCounts : List UInt8 → Reader (List (TableId × UInt32))
  | [] => pure []
  | number :: numbers => do
    let count ← word UInt32
    match TableId.ofNumber? number with
    | some table => return (table, count) :: (← readCounts numbers)
    | none =>
      note (.unknownTable number)
      readCounts numbers

/-- The numbers of the tables that the bits of `valid` declare present. -/
def presentTables (valid : UInt64) : List UInt8 :=
  ((List.range 64).filter fun bit => valid.toNat.testBit bit).map UInt8.ofNat

open Reader in
/-- Reads the header of the table stream: versions, heap flags, the tables present, the tables
sorted, and a row count for each table present. -/
def reader : Reader TableInfo := do
  advance 6
  let heaps ← word UInt8
  advance 1
  let valid ← word UInt64
  let _sorted ← word UInt64
  let counts ← readCounts (presentTables valid)
  return ofCounts counts (HeapSizes.ofBits heaps)

/-- The information in the header of a table stream. -/
def read (data : Array UInt8) : Except Error TableInfo := reader.answer data

end TableInfo

/-! ## Index columns -/

/-- Reads an index into a heap. -/
def readHeapIndex (width : IndexWidth) : Reader UInt32 := Reader.index width

open Writer in
/-- Writes an index into a heap, which has to fit the column. -/
def writeHeapIndex (value : UInt32) (width : IndexWidth) : Writer Unit := do
  unless width.holds value do
    throw (.refused (.indexOutOfRange .heap value (← position)))
  index width value

namespace CodedIndex

/-- Reads a coded index at the width the row counts ask for. -/
def reader (kind : CodedKind) (info : TableInfo) : Reader CodedIndex := do
  let raw ← Reader.index (info.codedWidth kind)
  Reader.ofResult (decode raw kind)

open Writer in
/-- Writes a coded index at the width the row counts ask for, which has to hold it. -/
def writer (ci : CodedIndex) (kind : CodedKind) (info : TableInfo) : Writer Unit := do
  let raw ← ofResult (ci.encode kind)
  unless (info.codedWidth kind).holds raw do
    throw (.refused (.indexOutOfRange .coded ci.row (← position)))
  index (info.codedWidth kind) raw

end CodedIndex

end CilCodec
