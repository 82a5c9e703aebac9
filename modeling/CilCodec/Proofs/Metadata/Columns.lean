import Mathlib.Data.List.Forall2
import CilCodec.Proofs.Metadata.CodedIndex

/-!
# CilCodec.Proofs.Metadata.Columns

Rows of metadata tables, as the columns in them whose widths depend on the image (II.24.2.6).

A `Column` is an index into a heap or a coded index, with its value; a `ColumnType` is what a reader
knows of it. `rowWriter` and `rowReader` take the columns of a row in turn. `Column.Fits` is what a
column of an image satisfies; `Column.stored_of_fits` is the step for one column, and
`TableInfo.row_round_trip` the run over a row.
-/

namespace CilCodec

/-- An index column of a row, with its value. -/
inductive Column where
  | heap (source : Heap) (value : UInt32)
  | coded (kind : CodedKind) (index : CodedIndex)
deriving DecidableEq, Repr

/-- What an index column refers to. -/
inductive ColumnType where
  | heap (source : Heap)
  | coded (kind : CodedKind)
deriving DecidableEq, Repr

namespace Column

def columnType : Column → ColumnType
  | .heap source _ => .heap source
  | .coded kind _ => .coded kind

/-- Writes a column at its width. -/
def writer (info : TableInfo) : Column → Writer Unit
  | .heap source value => writeHeapIndex value (info.heapWidth source)
  | .coded kind index => index.writer kind info

/-- What an image promises of a column: a narrow heap has no index above 16 bits, and a coded index
names a row, or none, of a candidate of its kind, with room for the tag. -/
def Fits (info : TableInfo) : Column → Prop
  | .heap source value => info.heapWidth source = .narrow → value.toNat ≤ 0xffff
  | .coded kind index =>
    some index.table ∈ kind.candidates ∧ index.row ≤ info.rowCount index.table ∧
      index.row.toNat ≤ 0xffffffff >>> kind.tagBits

end Column

namespace ColumnType

/-- The width that the image has for a column. -/
def width (info : TableInfo) : ColumnType → IndexWidth
  | .heap source => info.heapWidth source
  | .coded kind => info.codedWidth kind

/-- Reads a column at its width. -/
def reader (info : TableInfo) : ColumnType → Reader Column
  | .heap source => do return .heap source (← readHeapIndex (info.heapWidth source))
  | .coded kind => do return .coded kind (← CodedIndex.reader kind info)

end ColumnType

namespace TableInfo

/-- Writes the columns of a row. -/
def rowWriter (info : TableInfo) (columns : List Column) : Writer Unit :=
  Writer.each (Column.writer info) columns

/-- Reads the columns of a row. -/
def rowReader (info : TableInfo) : List ColumnType → Reader (List Column)
  | [] => pure []
  | type :: types => do
    let column ← type.reader info
    return column :: (← rowReader info types)

end TableInfo

/-! ## One column -/

/-- The column is written as `bytes`, and read back from them. -/
structure Column.StoredAs (info : TableInfo) (column : Column) (bytes : List UInt8) : Prop where
  puts : Writer.Puts (column.writer info) bytes
  length_eq : bytes.length = (column.columnType.width info).bytes
  read : ∀ c : Cursor, Holds c.data c.pos bytes →
    column.columnType.reader info c = .ok column { c with pos := c.pos + bytes.length }

theorem writeHeapIndex_puts {width : IndexWidth} {value : UInt32} (h : width.holds value) :
    Writer.Puts (writeHeapIndex value width) (width.stored value) := by
  intro b
  unfold writeHeapIndex
  rw [if_pos h]
  exact Writer.index_puts width value b

theorem CodedIndex.writer_puts {ci : CodedIndex} {kind : CodedKind} {info : TableInfo}
    {raw : UInt32} (hraw : ci.encode kind = .ok raw) (h : (info.codedWidth kind).holds raw) :
    Writer.Puts (ci.writer kind info) ((info.codedWidth kind).stored raw) := by
  intro b
  unfold CodedIndex.writer
  rw [bind_of_ok (Writer.ofResult_eq_ok.mpr ⟨hraw, rfl⟩), if_pos h]
  exact Writer.index_puts (info.codedWidth kind) raw b

theorem Column.heap_stored {info : TableInfo} {heap : Heap} {value : UInt32}
    (h : (info.heapWidth heap).holds value) :
    (Column.heap heap value).StoredAs info ((info.heapWidth heap).stored value) where
  puts := writeHeapIndex_puts h
  length_eq := IndexWidth.length_stored _ _
  read c hbytes := by
    rw [IndexWidth.length_stored]
    exact bind_of_ok (Reader.index_of_holds h hbytes)

theorem Column.coded_stored {info : TableInfo} {kind : CodedKind} {index : CodedIndex}
    {raw : UInt32} (hindex : index.Encodable kind) (hraw : index.encode kind = .ok raw)
    (h : (info.codedWidth kind).holds raw) :
    (Column.coded kind index).StoredAs info ((info.codedWidth kind).stored raw) where
  puts := CodedIndex.writer_puts hraw h
  length_eq := IndexWidth.length_stored _ _
  read c hbytes := by
    have hdecode := CodedIndex.decode_of_encodable hindex hraw
    have hread : CodedIndex.reader kind info c =
        .ok index { c with pos := c.pos + (info.codedWidth kind).bytes } := by
      unfold CodedIndex.reader
      rw [bind_of_ok (Reader.index_of_holds h hbytes), hdecode]
      rfl
    rw [IndexWidth.length_stored]
    exact bind_of_ok hread

/-- Each column that fits its image is stored, at the width that the image has for it. -/
theorem Column.stored_of_fits {counts : List (TableId × UInt32)} {heaps : HeapSizes}
    {column : Column} (h : column.Fits (TableInfo.ofCounts counts heaps)) :
    ∃ bytes, column.StoredAs (TableInfo.ofCounts counts heaps) bytes := by
  cases column with
  | heap source value =>
    refine ⟨_, heap_stored ?_⟩
    cases hwidth : (TableInfo.ofCounts counts heaps).heapWidth source with
    | narrow => exact decide_eq_true (h hwidth)
    | wide => rfl
  | coded kind index =>
    obtain ⟨hlisted, hrow, hroom⟩ := h
    have hindex : index.Encodable kind := ⟨hlisted, by rwa [CodedIndex.maxRow_eq_shiftRight]⟩
    obtain ⟨raw, _, hraw, _, _⟩ := hindex.encode_eq
    refine ⟨_, coded_stored hindex hraw ?_⟩
    rw [TableInfo.codedWidth_ofCounts]
    exact CodedIndex.holds_of_encode hindex hrow hraw

/-! ## A row -/

theorem Column.exists_stored {counts : List (TableId × UInt32)} {heaps : HeapSizes} :
    ∀ {columns : List Column}, (∀ column ∈ columns, column.Fits (TableInfo.ofCounts counts heaps)) →
      ∃ chunks, List.Forall₂ (Column.StoredAs (TableInfo.ofCounts counts heaps)) columns chunks
  | [], _ => ⟨[], .nil⟩
  | column :: columns, h => by
    obtain ⟨chunk, hchunk⟩ := stored_of_fits (h column List.mem_cons_self)
    obtain ⟨chunks, hchunks⟩ := exists_stored fun other hother => h other (.tail column hother)
    exact ⟨chunk :: chunks, .cons hchunk hchunks⟩

namespace TableInfo

variable {info : TableInfo} {columns : List Column} {chunks : List (List UInt8)}

theorem rowWriter_puts (h : List.Forall₂ (Column.StoredAs info) columns chunks) :
    Writer.Puts (info.rowWriter columns) chunks.flatten := by
  induction h with
  | nil => exact Writer.pure_puts
  | @cons column chunk columns chunks hcolumn _ ih =>
    intro b
    unfold rowWriter
    rw [Writer.each, hcolumn.puts b]
    simp only
    rw [List.flatten_cons, ← Buffer.append_append]
    exact ih (b.append chunk)

theorem rowReader_of_stored (h : List.Forall₂ (Column.StoredAs info) columns chunks) {c : Cursor}
    (hbytes : Holds c.data c.pos chunks.flatten) :
    info.rowReader (columns.map Column.columnType) c =
      .ok columns { c with pos := c.pos + chunks.flatten.length } := by
  induction h generalizing c with
  | nil => rfl
  | @cons column chunk columns chunks hcolumn _ ih =>
    rw [List.flatten_cons, holds_append] at hbytes
    have hfirst := hcolumn.read c hbytes.1
    have hrest := ih (c := { c with pos := c.pos + chunk.length }) hbytes.2
    rw [List.map_cons, rowReader, bind_of_ok hfirst, bind_of_ok hrest, List.flatten_cons,
      List.length_append, ← Nat.add_assoc]
    rfl

/-- Each row of an image is written, each column at the width that the image has for it, and read
back from where it was written, whatever stands in front of it and behind it. -/
theorem row_round_trip (counts : List (TableId × UInt32)) (heaps : HeapSizes)
    (columns : List Column) (h : ∀ column ∈ columns, column.Fits (ofCounts counts heaps))
    (out : Buffer) :
    ∃ chunks : List (List UInt8),
      List.Forall₂ (fun column chunk =>
          Writer.Puts (column.writer (ofCounts counts heaps)) chunk ∧
            chunk.length = (column.columnType.width (ofCounts counts heaps)).bytes)
        columns chunks ∧
      (ofCounts counts heaps).rowWriter columns out = .ok () (out.append chunks.flatten) ∧
      ∀ (behind : List UInt8) (notices : Array Notice),
        let data := (out.append (chunks.flatten ++ behind)).bytes
        (ofCounts counts heaps).rowReader (columns.map Column.columnType)
            ⟨data, out.pos, notices⟩ =
          .ok columns ⟨data, (out.append chunks.flatten).pos, notices⟩ := by
  obtain ⟨chunks, hchunks⟩ := Column.exists_stored h
  refine ⟨chunks, hchunks.imp fun _ _ hstored => ⟨hstored.puts, hstored.length_eq⟩,
    rowWriter_puts hchunks out, ?_⟩
  intro behind notices data
  have hbytes : Holds data out.pos chunks.flatten :=
    ⟨out.bytes.toList, behind, by simp [data], Array.length_toList⟩
  rw [Buffer.pos_append]
  exact rowReader_of_stored hchunks hbytes

/-- An image with as many types as a narrow column can refer to, and one parameter too many for
one. -/
def fullImage : TableInfo :=
  ofCounts [(.typeRef, 0x3fff), (.param, 0x8000)] ⟨false, false, true⟩

/-- The last rows of both, with the greatest index of a narrow heap. -/
def fullRow : List Column :=
  [.heap .string 0xffff, .coded .typeDefOrRef ⟨.typeRef, 0x3fff⟩,
   .coded .hasFieldMarshal ⟨.param, 0x8000⟩]

theorem row_round_trip_full :
    (∀ column ∈ fullRow, column.Fits fullImage) ∧
      ∃ chunks : List (List UInt8),
        List.Forall₂ (fun column chunk =>
            Writer.Puts (column.writer fullImage) chunk ∧
              chunk.length = (column.columnType.width fullImage).bytes)
          fullRow chunks ∧
        fullImage.rowWriter fullRow Buffer.empty = .ok () (Buffer.empty.append chunks.flatten) ∧
        ∀ (behind : List UInt8) (notices : Array Notice),
          let data := (Buffer.empty.append (chunks.flatten ++ behind)).bytes
          fullImage.rowReader (fullRow.map Column.columnType) ⟨data, 0, notices⟩ =
            .ok fullRow ⟨data, (Buffer.empty.append chunks.flatten).pos, notices⟩ := by
  have hfits : ∀ column ∈ fullRow, column.Fits fullImage := by
    simp only [fullRow, List.forall_mem_cons, Column.Fits]
    exact ⟨fun _ => by decide, by decide, by decide, by simp⟩
  exact ⟨hfits, row_round_trip _ _ fullRow hfits Buffer.empty⟩

end TableInfo

end CilCodec
