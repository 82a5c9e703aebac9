import CilCodec.Proofs.Bytes.Scripts
import CilCodec.Proofs.Checked.Bytes

/-!
# CilCodec.Proofs.Checked.Scripts

The operations of a cursor on a machine, in any order.

Where the cursor may go is checked in three ways: by a sum that may have no word (`advance`, `take`,
words), by a difference that stops at zero (`ensure`), and by comparing positions (`seek`,
`peekByte`). All three come to the exact comparison of sums, whatever the arguments are and however
the cursor came to where it is.

Results:
1. `CursorOperation.onMachine_matches`: no operation inside the data overflows;
2. `Cursor.script_keeps_inside`: what holds behind any script, and what an operation does there.
-/

namespace CilCodec

/-! ## Operations on a machine -/

namespace Checked

variable {data : Array UInt8} {low : Nat}

/-- The next word, without moving: it is read at a copy of the position. -/
def peek (α : Type) [LittleEndian α] : Checked α := do
  let pos ← position
  let value ← word α
  moveTo pos
  return value

theorem endAfter_matches (count : Nat) :
    Matches data low (endAfter count) (Reader.endAfter count) := by
  intro c hc
  rcases Nat.lt_or_ge data.size (c.pos + count) with hshort | hroom
  · have hread : Reader.endAfter count c = .error (.truncated c.pos count) c :=
      if_neg (Nat.not_le.mpr (hc.data_eq ▸ hshort))
    exact .refuses (endAfter_of_short hc hshort) hread hc
  · have hread : Reader.endAfter count c = .ok (c.pos + count) c := if_pos (hc.data_eq ▸ hroom)
    exact .answers (endAfter_of_room hc hroom) hread hc

theorem peek_matches (α : Type) [LittleEndian α] : Matches data low (peek α) (Reader.peek α) := by
  intro c hc
  have hpos : position c = .ok c.pos c := rfl
  have hword := (word_matches α c hc).runs
  rcases Nat.lt_or_ge c.data.size (c.pos + LittleEndian.size α) with hshort | hroom
  · have hread : Reader.word α c = _ := Reader.word_of_short hshort
    rw [ofReader_of_error hread] at hword
    exact .refuses ((bind_of_ok hpos).trans (bind_of_error hword)) (Reader.peek_of_error hread) hc
  · have hread : Reader.word α c = _ := Reader.word_eq_ok_numberAt.mpr ⟨hroom, rfl, rfl⟩
    rw [ofReader_of_ok hread] at hword
    exact .answers ((bind_of_ok hpos).trans (bind_of_ok hword)) (Reader.peek_of_ok hread) hc

end Checked

namespace CursorOperation

/-- An operation on a machine. -/
def onMachine : (operation : CursorOperation) → Checked operation.Answer
  | seek pos => Checked.seek pos
  | advance count => Checked.advance count
  | align unit => Checked.align unit
  | word type => Checked.word type.Value
  | peek type => Checked.peek type.Value
  | peekByte => Checked.peekByte
  | index width => Checked.index width
  | take count => Checked.take count
  | ensure count => Checked.ensure count
  | endAfter count => Checked.endAfter count

/-- Inside the data no operation overflows, and each does what it does in exact numbers. -/
theorem onMachine_matches {operation : CursorOperation} (h : operation.Defined)
    {data : Array UInt8} : Checked.Matches data 0 operation.onMachine operation.run := by
  cases operation with
  | seek pos => exact Checked.seek_matches (Nat.zero_le pos)
  | advance count => exact Checked.advance_matches count
  | align unit => exact Checked.align_matches h
  | word type => exact Checked.word_matches type.Value
  | peek type => exact Checked.peek_matches type.Value
  | peekByte => exact Checked.peekByte_matches
  | index width => exact Checked.index_matches width
  | take count => exact Checked.take_matches count
  | ensure count => exact Checked.ensure_matches count
  | endAfter count => exact Checked.endAfter_matches count

end CursorOperation

/-! ## Scripts on a machine -/

namespace Cursor

/-- Where a script leads from `c` on a machine. It goes on behind operations that stop, for whatever
reason. -/
def afterOnMachine (c : Cursor) : List CursorOperation → Cursor
  | [] => c
  | operation :: rest =>
    match operation.onMachine c with
    | .ok _ c' => afterOnMachine c' rest
    | .error _ c' => afterOnMachine c' rest

theorem afterOnMachine_eq {c : Cursor} {script : List CursorOperation} (hc : c.pos ≤ c.data.size)
    (hsmall : c.data.size ≤ Buffer.limit) (h : ∀ operation ∈ script, operation.Defined) :
    c.afterOnMachine script = c.after script := by
  induction script generalizing c with
  | nil => rfl
  | cons operation rest ih =>
    obtain ⟨hfirst, hrest⟩ := List.forall_mem_cons.mp h
    have hruns := (CursorOperation.onMachine_matches hfirst c
      ((Within.here hc hsmall).weaken (Nat.zero_le _))).runs
    obtain ⟨hdata, hinside⟩ := CursorOperation.stop_inside hfirst hc
    rw [afterOnMachine, after, hruns, Checked.ofReader]
    cases hrun : operation.run c <;>
    · rw [hrun, Reader.stop] at hdata hinside
      exact ih (hdata ▸ hinside) (hdata ▸ hsmall) hrest

/-- Behind any script, the cursor stands in the data or at its end. The operation that comes next
succeeds exactly if what it needs ends inside the data, in exact numbers. Then it answers what
stands there and moves over it, unless it only looks; otherwise it fails, and the cursor stays. On a
machine all of this is the same, without overflow. -/
theorem script_keeps_inside (data : Array UInt8) (script : List CursorOperation)
    (hscript : ∀ operation ∈ script, operation.Defined) (c : Cursor)
    (hc : (Cursor.start data).after script = c) :
    c.data = data ∧ c.pos ≤ data.size ∧
      (∀ operation : CursorOperation, operation.Defined →
        (operation.reach c.pos ≤ data.size → ∃ a, operation.Reads data c.pos a ∧
          operation.run c = .ok a { c with pos := operation.next c.pos }) ∧
        (data.size < operation.reach c.pos →
          operation.run c = .error (.truncated c.pos (operation.asked data c.pos)) c)) ∧
      (data.size ≤ Buffer.limit → (Cursor.start data).afterOnMachine script = c ∧
        ∀ operation : CursorOperation, operation.Defined →
          operation.onMachine c = Checked.ofReader operation.run c) := by
  have hstart : (Cursor.start data).pos ≤ (Cursor.start data).data.size := Nat.zero_le _
  obtain ⟨hdata, hinside⟩ := after_inside hstart hscript
  rw [hc] at hdata hinside
  obtain rfl : data = c.data := hdata.symm
  refine ⟨rfl, hinside, fun operation hdefined => ⟨?_, ?_⟩, fun hsmall => ⟨?_, ?_⟩⟩
  · exact CursorOperation.run_of_reach_le hdefined
  · exact CursorOperation.run_of_lt_reach hdefined hinside
  · rw [afterOnMachine_eq hstart hsmall hscript, hc]
  · intro operation hdefined
    exact (CursorOperation.onMachine_matches hdefined c
      ((Within.here hinside hsmall).weaken (Nat.zero_le _))).runs

/-- Behind a word, a seek beyond the end, which fails, and an alignment, one byte is left: no word
fits there, and no run of bytes as long as words can count. -/
theorem script_keeps_inside_last :
    (Cursor.start #[1, 2, 3, 4, 5]).after [.word .u16, .seek 6, .align 4] =
        ⟨#[1, 2, 3, 4, 5], 4, #[]⟩ ∧
      (CursorOperation.word .u16).onMachine ⟨#[1, 2, 3, 4, 5], 4, #[]⟩ =
        .error (.refused (.truncated 4 2)) ⟨#[1, 2, 3, 4, 5], 4, #[]⟩ ∧
      (CursorOperation.take 0xffffffffffffffff).onMachine ⟨#[1, 2, 3, 4, 5], 4, #[]⟩ =
        .error (.refused (.truncated 4 0xffffffffffffffff)) ⟨#[1, 2, 3, 4, 5], 4, #[]⟩ := by
  have hscript : ∀ operation ∈ [CursorOperation.word .u16, .seek 6, .align 4],
      operation.Defined := by
    simp [CursorOperation.Defined]
  have hafter : (Cursor.start #[1, 2, 3, 4, 5]).after [.word .u16, .seek 6, .align 4] =
      ⟨#[1, 2, 3, 4, 5], 4, #[]⟩ := rfl
  obtain ⟨_, _, hnext, hmachine⟩ := script_keeps_inside _ _ hscript _ hafter
  obtain ⟨_, hsame⟩ := hmachine (by decide)
  have hword := (hnext (.word .u16) trivial).2 (by decide)
  have htake := (hnext (.take 0xffffffffffffffff) trivial).2 (by decide)
  refine ⟨hafter, ?_, ?_⟩
  · rw [hsame (.word .u16) trivial]
    exact Checked.ofReader_of_error hword
  · rw [hsame (.take 0xffffffffffffffff) trivial]
    exact Checked.ofReader_of_error htake

end Cursor

end CilCodec
