import CilCodec.Proofs.Checked.Scripts
import CilCodec.Proofs.Metadata.CodedIndex

/-!
# CilCodec.Proofs.Checked.Replaying

Elementary writers in any order, and the readers that take back what they wrote.

A `BufferOperation` is one call of an elementary writer with its arguments; `reading` is the
operation of a cursor that belongs to it, and `answer` what that one has to answer. How many zeros
an alignment writes is told by the position alone, so a cursor that keeps to the positions of the
buffer finds the bytes of each operation where they were written. `ReadsBack` is one operation
written and read again, and `Replayed` a script of them.

Results:
1. `BufferOperation.run_eq`, `BufferOperation.reading_of_holds`: each operation writes the bytes
   `stored`, and from these bytes its answer is read;
2. `BufferOperation.readsBack_of_holds`, `Buffer.exists_replayed`: one operation, and a script from
   any position on;
3. `Buffer.script_replayed`: every script is written to an empty buffer and read back.
-/

namespace CilCodec

/-! ## Operations -/

/-- A call of an elementary writer. Zero has no multiples to align to. -/
inductive BufferOperation where
  | word (type : WordType) (value : type.Value)
  | index (width : IndexWidth) (value : UInt32)
  | put (bytes : List UInt8)
  | align (unit : Nat) (unit_pos : 0 < unit)

namespace BufferOperation

/-- The writer that an operation calls. -/
def run : BufferOperation → Writer Unit
  | word _ value => Writer.word value
  | index width value => Writer.index width value
  | put bytes => Writer.put bytes
  | align unit _ => Writer.align unit

/-- The writer that an operation calls at `pos` on a machine, where an alignment can ask for more
zeros than a buffer holds. -/
def onMachine? (pos : Nat) : BufferOperation → Option (Writer Unit)
  | align unit _ => Writer.align? pos unit
  | operation => some operation.run

/-- The operation of a cursor that takes back what was written. -/
def reading : BufferOperation → CursorOperation
  | word type _ => .word type
  | index width _ => .index width
  | put bytes => .take bytes.length
  | align unit _ => .align unit

/-- What is read back: all that was written, but for an index what its column keeps of it. -/
def answer : (operation : BufferOperation) → operation.reading.Answer
  | word _ value => value
  | index width value => width.kept value
  | put bytes => bytes
  | align _ _ => ()

/-- The bytes that an operation writes at `pos`. -/
def stored (pos : Nat) : BufferOperation → List UInt8
  | word _ value => LittleEndian.encode value
  | index width value => width.stored value
  | put bytes => bytes
  | align unit _ => List.replicate (Reader.gap pos unit) 0

/-- The operation takes the buffer from `b` to `b'`. Its reading takes the cursor from `c` to `c'`,
answers what was written and stops at the position of the buffer. On a machine that can hold the
data of the cursor, both do the same. -/
structure ReadsBack (operation : BufferOperation) (b : Buffer) (c : Cursor) (b' : Buffer)
    (c' : Cursor) : Prop where
  writes : operation.run b = .ok () b'
  answers : operation.reading.run c = .ok operation.answer c'
  pos_eq : c'.pos = b'.pos
  onMachine : c.data.size ≤ Buffer.limit →
    operation.onMachine? b.pos = some operation.run ∧
      operation.reading.onMachine c = .ok operation.answer c'

/-! ## One operation -/

variable {operation : BufferOperation} {b : Buffer} {c : Cursor}

theorem run_eq (operation : BufferOperation) (b : Buffer) :
    operation.run b = .ok () (b.append (operation.stored b.pos)) := by
  cases operation with
  | word type value => rfl
  | index width value => exact Writer.index_puts width value b
  | put bytes => rfl
  | align unit _ =>
    show Writer.put (List.replicate (Writer.gap 0 b.pos unit) 0) b = _
    rw [Writer.gap_zero]
    rfl

theorem reading_defined (operation : BufferOperation) : operation.reading.Defined := by
  cases operation with
  | align unit unit_pos => exact unit_pos
  | word | index | put => trivial

theorem reading_of_holds (h : Holds c.data c.pos (operation.stored c.pos)) :
    operation.reading.run c =
      .ok operation.answer { c with pos := c.pos + (operation.stored c.pos).length } := by
  cases operation with
  | word type value =>
    refine Reader.word_eq_ok.mpr ⟨h, ?_⟩
    rw [stored, LittleEndian.length_encode]
  | index width value =>
    rw [stored, IndexWidth.length_stored]
    exact Reader.index_of_stored h
  | put bytes => exact Reader.take_eq_ok.mpr ⟨h, rfl, rfl⟩
  | align unit _ =>
    have hlength : (List.replicate (Reader.gap c.pos unit) (0 : UInt8)).length =
        Reader.gap c.pos unit := List.length_replicate
    have hadvance := Reader.advance_of_holds h
    rw [stored, hlength] at hadvance ⊢
    exact hadvance

/-- No operation is stopped whose bytes a buffer can hold. -/
theorem onMachine?_of_le (h : b.pos + (operation.stored b.pos).length ≤ Buffer.limit) :
    operation.onMachine? b.pos = some operation.run := by
  cases operation with
  | align unit unit_pos =>
    rw [stored, List.length_replicate, ← Writer.gap_zero] at h
    exact if_neg (not_or.mpr ⟨Nat.ne_of_gt unit_pos, Nat.not_lt.mpr h⟩)
  | word | index | put => rfl

theorem readsBack_of_holds (hpos : c.pos = b.pos)
    (h : Holds c.data c.pos (operation.stored b.pos)) :
    operation.ReadsBack b c (b.append (operation.stored b.pos))
      { c with pos := c.pos + (operation.stored b.pos).length } := by
  obtain ⟨data, pos, notices⟩ := c
  obtain rfl : pos = b.pos := hpos
  have hread := reading_of_holds (c := ⟨data, b.pos, notices⟩) h
  have hinside : b.pos ≤ data.size := Nat.le_of_add_right_le h.le
  refine ⟨run_eq operation b, hread, (Buffer.pos_append b _).symm, fun hsmall => ⟨?_, ?_⟩⟩
  · exact onMachine?_of_le (Nat.le_trans h.le hsmall)
  · have hwithin : Cursor.Within data 0 ⟨data, b.pos, notices⟩ :=
      (Cursor.Within.here hinside hsmall).weaken (Nat.zero_le _)
    rw [(CursorOperation.onMachine_matches operation.reading_defined _ hwithin).runs]
    exact Checked.ofReader_of_ok hread

end BufferOperation

/-! ## Scripts -/

namespace Buffer

/-- The operations of a script are written and read back in turn, each from where the one before it
left the buffer and the cursor. -/
inductive Replayed : List BufferOperation → Buffer → Cursor → Buffer → Cursor → Prop
  | nil (b : Buffer) (c : Cursor) : Replayed [] b c b c
  | cons {operation : BufferOperation} {script : List BufferOperation} {b middle b' : Buffer}
      {c between c' : Cursor} :
      operation.ReadsBack b c middle between → Replayed script middle between b' c' →
      Replayed (operation :: script) b c b' c'

/-- A script writes some bytes behind what is in the buffer. A cursor that stands at such bytes, as
far from the start as the buffer was long, reads them back. -/
theorem exists_replayed (script : List BufferOperation) (b : Buffer) :
    ∃ bytes, Writer.each BufferOperation.run script b = .ok () (b.append bytes) ∧
      ∀ c : Cursor, c.pos = b.pos → Holds c.data c.pos bytes →
        Replayed script b c (b.append bytes) { c with pos := c.pos + bytes.length } := by
  induction script generalizing b with
  | nil =>
    refine ⟨[], ?_, fun c _ _ => ?_⟩
    · rw [append_nil]
      rfl
    · rw [append_nil]
      exact .nil b c
  | cons operation script ih =>
    obtain ⟨bytes, hwrites, hreplayed⟩ := ih (b.append (operation.stored b.pos))
    refine ⟨operation.stored b.pos ++ bytes, ?_, fun c hpos hbytes => ?_⟩
    · rw [← append_append]
      exact Writer.each_cons_eq_ok.mpr ⟨_, operation.run_eq b, hwrites⟩
    · obtain ⟨hfirst, hrest⟩ := holds_append.mp hbytes
      -- reading stops at the position of the buffer, so the rest is padded on both sides alike
      have hstep := BufferOperation.readsBack_of_holds hpos hfirst
      rw [← append_append, List.length_append, ← Nat.add_assoc]
      exact .cons hstep (hreplayed _ hstep.pos_eq hrest)

/-- Every script is written to an empty buffer. On the bytes that it leaves, with any others behind
them, the readings of its operations succeed one after the other, each with the answer that belongs
to its operation and each at the position that the buffer had behind it. The last one stops in front
of the other bytes. -/
theorem script_replayed (script : List BufferOperation) :
    ∃ b, Writer.each BufferOperation.run script Buffer.empty = .ok () b ∧
      ∀ behind : Array UInt8, Replayed script Buffer.empty (Cursor.start (b.bytes ++ behind)) b
        { Cursor.start (b.bytes ++ behind) with pos := b.pos } := by
  obtain ⟨bytes, hwrites, hreplayed⟩ := exists_replayed script Buffer.empty
  refine ⟨_, hwrites, fun behind => ?_⟩
  have hholds : Holds ((Buffer.empty.append bytes).bytes ++ behind) 0 bytes :=
    ⟨[], behind.toList, by simp [Buffer.empty], rfl⟩
  rw [pos_append]
  exact hreplayed (Cursor.start _) rfl hholds

/-- A negative number, an index that loses its seventeenth bit, a byte, zeros up to a multiple of
four, and a NaN. -/
example : Writer.each BufferOperation.run
    [.word .i16 (-2), .index .narrow 0x12345, .put [0xff], .align 4 (by decide),
      .word .f32 ⟨0x7fa00000⟩] Buffer.empty =
    .ok () (.ofBytes #[0xfe, 0xff, 0x45, 0x23, 0xff, 0, 0, 0, 0, 0, 0xa0, 0x7f]) := by
  rfl

end Buffer

end CilCodec
