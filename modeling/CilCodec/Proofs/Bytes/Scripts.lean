import CilCodec.Number.Binary
import CilCodec.Proofs.Bytes.Advancing

/-!
# CilCodec.Proofs.Bytes.Scripts

Elementary readers in any order.

A `CursorOperation` is one call of an elementary reader with its arguments, and a script is a list
of them. Scripts go on behind an operation that failed. What an operation does is told by three
numbers alone: the position, the place up to which it needs bytes (`reach`), and where it leaves the
cursor (`next`); `Reads` says what it answers, by the bytes in between.

Results:
1. `CursorOperation.run_of_reach_le`, `CursorOperation.run_of_lt_reach`: what an operation does if
   the data reaches far enough, and if not;
2. `Cursor.after_inside`: no script leaves the data.
-/

namespace CilCodec

/-! ## Types of words -/

/-- The types of words that can be read and written. -/
inductive WordType where
  | u8
  | i8
  | u16
  | i16
  | u32
  | i32
  | u64
  | i64
  | f32
  | f64
deriving DecidableEq, Repr

namespace WordType

/-- The values of a type. -/
@[reducible]
def Value : WordType → Type
  | u8 => UInt8
  | i8 => Int8
  | u16 => UInt16
  | i16 => Int16
  | u32 => UInt32
  | i32 => Int32
  | u64 => UInt64
  | i64 => Int64
  | f32 => Binary32
  | f64 => Binary64

instance : (type : WordType) → LittleEndian type.Value
  | u8 => inferInstanceAs (LittleEndian UInt8)
  | i8 => inferInstanceAs (LittleEndian Int8)
  | u16 => inferInstanceAs (LittleEndian UInt16)
  | i16 => inferInstanceAs (LittleEndian Int16)
  | u32 => inferInstanceAs (LittleEndian UInt32)
  | i32 => inferInstanceAs (LittleEndian Int32)
  | u64 => inferInstanceAs (LittleEndian UInt64)
  | i64 => inferInstanceAs (LittleEndian Int64)
  | f32 => inferInstanceAs (LittleEndian Binary32)
  | f64 => inferInstanceAs (LittleEndian Binary64)

/-- Number of bytes of a word. -/
def size (type : WordType) : Nat := LittleEndian.size type.Value

end WordType

/-! ## Multiples -/

/-- The least multiple of `unit` from `pos` on. -/
def multipleFrom (pos unit : Nat) : Nat := (pos + (unit - 1)) / unit * unit

theorem multipleFrom_least {unit : Nat} (h : 0 < unit) (pos : Nat) :
    pos ≤ multipleFrom pos unit ∧ unit ∣ multipleFrom pos unit ∧
      ∀ multiple, pos ≤ multiple → unit ∣ multiple → multipleFrom pos unit ≤ multiple := by
  unfold multipleFrom
  refine ⟨?_, Nat.dvd_mul_left _ _, ?_⟩
  · have hlt := Nat.lt_mul_div_succ (pos + (unit - 1)) h
    rw [Nat.mul_succ, Nat.mul_comm] at hlt
    omega
  · rintro _ hle ⟨factor, rfl⟩
    rw [Nat.mul_comm unit factor]
    refine Nat.mul_le_mul_right unit (Nat.le_of_lt_succ (Nat.div_lt_of_lt_mul ?_))
    rw [Nat.mul_succ]
    omega

/-- The gap leads to the next multiple. -/
theorem add_gap {unit : Nat} (h : 0 < unit) (pos : Nat) :
    pos + Reader.gap pos unit = multipleFrom pos unit := by
  have hlt := Nat.mod_lt pos h
  obtain ⟨hle, hdvd, hleast⟩ := multipleFrom_least h pos
  have hgap : unit ∣ pos + Reader.gap pos unit := by
    rw [Nat.dvd_iff_mod_eq_zero, Reader.gap, Nat.add_mod_mod, ← Nat.mod_add_mod,
      Nat.add_sub_cancel' (Nat.le_of_lt hlt), Nat.mod_self]
  have hshort : Reader.gap pos unit < unit := Nat.mod_lt _ h
  -- two multiples less than `unit` apart are one
  have hbelow := hleast _ (Nat.le_add_right _ _) hgap
  have hapart : unit ∣ pos + Reader.gap pos unit - multipleFrom pos unit := Nat.dvd_sub hgap hdvd
  have hzero := Nat.eq_zero_of_dvd_of_lt hapart (by omega)
  omega

/-! ## Operations -/

/-- A call of an elementary reader. -/
inductive CursorOperation where
  | seek (pos : Nat)
  | advance (count : Nat)
  | align (unit : Nat)
  | word (type : WordType)
  | peek (type : WordType)
  | peekByte
  | index (width : IndexWidth)
  | take (count : Nat)
  | ensure (count : Nat)
  | endAfter (count : Nat)
deriving DecidableEq, Repr

namespace CursorOperation

/-- What an operation answers with. -/
@[reducible]
def Answer : CursorOperation → Type
  | seek _ => Unit
  | advance _ => Unit
  | align _ => Unit
  | word type => type.Value
  | peek type => type.Value
  | peekByte => UInt8
  | index _ => UInt32
  | take _ => List UInt8
  | ensure _ => Unit
  | endAfter _ => Nat

/-- The reader that an operation calls. -/
def run : (operation : CursorOperation) → Reader operation.Answer
  | seek pos => Reader.seek pos
  | advance count => Reader.advance count
  | align unit => Reader.align unit
  | word type => Reader.word type.Value
  | peek type => Reader.peek type.Value
  | peekByte => Reader.peekByte
  | index width => Reader.index width
  | take count => Reader.take count
  | ensure count => Reader.ensure count
  | endAfter count => Reader.endAfter count

/-- Zero has no multiples to align to. -/
def Defined : CursorOperation → Prop
  | align unit => 0 < unit
  | _ => True

/-- The place up to which an operation at `pos` needs bytes. -/
def reach (pos : Nat) : CursorOperation → Nat
  | seek target => target
  | align unit => multipleFrom pos unit
  | word type => pos + type.size
  | peek type => pos + type.size
  | peekByte => pos + 1
  | index width => pos + width.bytes
  | advance count => pos + count
  | take count => pos + count
  | ensure count => pos + count
  | endAfter count => pos + count

/-- Whether an operation that succeeds moves to the place it reaches. -/
def moves : CursorOperation → Bool
  | peek _ => false
  | peekByte => false
  | ensure _ => false
  | endAfter _ => false
  | _ => true

/-- Where an operation at `pos` leaves the cursor if it succeeds. -/
def next (pos : Nat) (operation : CursorOperation) : Nat :=
  if operation.moves then operation.reach pos else pos

/-- `operation.Reads data pos a`: the answer `a` is what stands in `data` between `pos` and the
place that is reached. -/
def Reads (data : Array UInt8) (pos : Nat) : (operation : CursorOperation) → operation.Answer → Prop
  | word type, value => value = LittleEndian.ofBits (numberAt data pos type.size)
  | peek type, value => value = LittleEndian.ofBits (numberAt data pos type.size)
  | peekByte, byte => data[pos]? = some byte
  | index width, value => value.toNat = numberAt data pos width.bytes
  | take count, bytes => bytes = (data.extract pos (pos + count)).toList
  | endAfter count, stop => stop = pos + count
  | seek _, _ => True
  | advance _, _ => True
  | align _, _ => True
  | ensure _, _ => True

/-- The number of bytes in the error of an operation at `pos` that is refused: those it needs, or
for a seek those that it would go beyond the end. -/
def asked (data : Array UInt8) (pos : Nat) : CursorOperation → Nat
  | seek target => target - data.size
  | align unit => multipleFrom pos unit - pos
  | word type => type.size
  | peek type => type.size
  | peekByte => 1
  | index width => width.bytes
  | advance count => count
  | take count => count
  | ensure count => count
  | endAfter count => count

end CursorOperation

/-! ## What operations do -/

namespace Reader

variable {α : Type} [LittleEndian α] {c c' : Cursor} {value : α} {e : Error}

theorem word_of_short (h : c.data.size < c.pos + LittleEndian.size α) :
    word α c = .error (.truncated c.pos (LittleEndian.size α)) c := by
  rw [word, readAt, sliceAt?, if_neg (Nat.not_le.mpr h)]

/-- Peeking is reading without moving. -/
theorem peek_of_ok (h : word α c = .ok value c') : peek α c = .ok value c := by
  unfold word at h
  unfold peek
  split at h
  next =>
    cases h
    rfl
  next => cases h

theorem peek_of_error (h : word α c = .error e c') : peek α c = .error e c := by
  unfold word at h
  unfold peek
  split at h
  next => cases h
  next =>
    cases h
    rfl

end Reader

namespace CursorOperation

variable {operation : CursorOperation} {c : Cursor}

/-- If the data reaches far enough, an operation answers what stands there. -/
theorem run_of_reach_le (h : operation.Defined) (hreach : operation.reach c.pos ≤ c.data.size) :
    ∃ a, operation.Reads c.data c.pos a ∧
      operation.run c = .ok a { c with pos := operation.next c.pos } := by
  cases operation with
  | seek target => exact ⟨(), trivial, if_pos hreach⟩
  | advance count => exact ⟨(), trivial, if_pos hreach⟩
  | align unit =>
    have hmultiple := add_gap h c.pos
    refine ⟨(), trivial, ?_⟩
    show Reader.advance (Reader.gap c.pos unit) c = .ok () { c with pos := multipleFrom c.pos unit }
    exact Reader.advance_eq_ok.mpr ⟨hmultiple ▸ hreach, by rw [hmultiple]⟩
  | word type => exact ⟨_, rfl, Reader.word_eq_ok_numberAt.mpr ⟨hreach, rfl, rfl⟩⟩
  | peek type =>
    exact ⟨_, rfl, Reader.peek_of_ok (Reader.word_eq_ok_numberAt.mpr ⟨hreach, rfl, rfl⟩)⟩
  | peekByte =>
    have hbyte : c.data[c.pos]? = some c.data[c.pos] := Array.getElem?_eq_getElem hreach
    refine ⟨c.data[c.pos], hbyte, ?_⟩
    show Reader.peekByte c = .ok c.data[c.pos] c
    rw [Reader.peekByte, hbyte]
  | index width =>
    cases width with
    | narrow =>
      have hword : Reader.word UInt16 c =
          .ok (LittleEndian.ofBits (numberAt c.data c.pos 2)) { c with pos := c.pos + 2 } :=
        Reader.word_eq_ok_numberAt.mpr ⟨hreach, rfl, rfl⟩
      refine ⟨UInt16.toUInt32 (LittleEndian.ofBits (numberAt c.data c.pos 2)), ?_, ?_⟩
      · show (UInt16.toUInt32 _).toNat = _
        rw [UInt16.toNat_toUInt32]
        exact LittleEndian.toBits_ofBits (α := UInt16) _ (numberAt_lt hreach)
      · show Reader.index .narrow c = _
        rw [Reader.index_narrow, bind_of_ok hword]
        rfl
    | wide =>
      refine ⟨LittleEndian.ofBits (numberAt c.data c.pos 4), ?_, ?_⟩
      · exact LittleEndian.toBits_ofBits (α := UInt32) _ (numberAt_lt hreach)
      · show Reader.index .wide c = _
        rw [Reader.index_wide]
        exact Reader.word_eq_ok_numberAt.mpr ⟨hreach, rfl, rfl⟩
  | take count =>
    exact ⟨_, rfl, Reader.take_eq_ok.mpr ⟨holds_extract hreach, size_extract_add hreach, rfl⟩⟩
  | ensure count => exact ⟨(), trivial, if_pos (Nat.le_sub_of_add_le' hreach)⟩
  | endAfter count => exact ⟨_, rfl, if_pos hreach⟩

/-- If the data ends in front of what an operation needs, it fails, and the cursor stays. -/
theorem run_of_lt_reach (h : operation.Defined) (hc : c.pos ≤ c.data.size)
    (hreach : c.data.size < operation.reach c.pos) :
    operation.run c = .error (.truncated c.pos (operation.asked c.data c.pos)) c := by
  have hshort := Nat.not_le.mpr hreach
  cases operation with
  | seek target => exact if_neg hshort
  | advance count => exact if_neg hshort
  | align unit =>
    have hmultiple : multipleFrom c.pos unit = c.pos + Reader.gap c.pos unit :=
      (add_gap h c.pos).symm
    rw [asked, hmultiple, Nat.add_sub_cancel_left]
    exact if_neg (hmultiple ▸ hshort)
  | word type => exact Reader.word_of_short hreach
  | peek type => exact Reader.peek_of_error (Reader.word_of_short hreach)
  | peekByte =>
    have hnone : c.data[c.pos]? = none := Array.getElem?_eq_none (Nat.le_of_lt_succ hreach)
    show Reader.peekByte c = _
    rw [Reader.peekByte, hnone]
    rfl
  | index width =>
    cases width with
    | narrow =>
      show Reader.index .narrow c = _
      rw [Reader.index_narrow]
      exact bind_of_error (Reader.word_of_short hreach)
    | wide =>
      show Reader.index .wide c = _
      rw [Reader.index_wide]
      exact Reader.word_of_short hreach
  | take count =>
    have hnone : sliceAt? c.data c.pos count = none := if_neg hshort
    show Reader.take count c = _
    rw [Reader.take, hnone]
    rfl
  | ensure count =>
    refine if_neg fun hle => hshort ?_
    exact Nat.add_le_of_le_sub' hc hle
  | endAfter count => exact if_neg hshort

theorem next_le (hc : c.pos ≤ c.data.size) (hreach : operation.reach c.pos ≤ c.data.size) :
    operation.next c.pos ≤ c.data.size := by
  unfold next
  split
  next => exact hreach
  next => exact hc

/-- What one operation preserves, whether it succeeds or not. -/
theorem stop_inside (h : operation.Defined) (hc : c.pos ≤ c.data.size) :
    (Reader.stop (operation.run c)).data = c.data ∧
      (Reader.stop (operation.run c)).pos ≤ c.data.size := by
  rcases Nat.lt_or_ge c.data.size (operation.reach c.pos) with hshort | hreach
  · rw [run_of_lt_reach h hc hshort]
    exact ⟨rfl, hc⟩
  · obtain ⟨a, _, hrun⟩ := run_of_reach_le h hreach
    rw [hrun]
    exact ⟨rfl, next_le hc hreach⟩

end CursorOperation

/-! ## Scripts -/

namespace Cursor

/-- Where a script leads from `c`. It goes on behind operations that fail. -/
def after (c : Cursor) : List CursorOperation → Cursor
  | [] => c
  | operation :: rest => after (Reader.stop (operation.run c)) rest

theorem after_inside {c : Cursor} {script : List CursorOperation} (hc : c.pos ≤ c.data.size)
    (h : ∀ operation ∈ script, operation.Defined) :
    (c.after script).data = c.data ∧ (c.after script).pos ≤ c.data.size := by
  induction script generalizing c with
  | nil => exact ⟨rfl, hc⟩
  | cons operation rest ih =>
    obtain ⟨hfirst, hrest⟩ := List.forall_mem_cons.mp h
    obtain ⟨hdata, hinside⟩ := CursorOperation.stop_inside hfirst hc
    rw [after]
    rw [← hdata] at hinside ⊢
    exact ih hinside hrest

end Cursor

end CilCodec
