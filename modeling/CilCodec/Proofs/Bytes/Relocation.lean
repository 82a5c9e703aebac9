import CilCodec.Proofs.Bytes.Failing

/-!
# CilCodec.Proofs.Bytes.Relocation

Reading the same bytes with more of them in front.

A reader that starts behind `before.size` more bytes answers as it would without them. If it fails,
it fails with the same error, at an offset that counts those bytes as well. `Relocates before r r'`
says so of two readers, since a reader that is told where something starts has to be told another
place; nothing is said about notices.

Results:
1. `Relocates.bind` and the lemmas beside it: readers that are put together from others.
2. `Relocates.word` and its siblings: the elementary readers.
3. `Relocates.untilEnd`: a loop to the end, which asks how many bytes are left and not where.
-/

namespace CilCodec

/-- The error with the offset of its bytes moved on. The target of a branch counts from the start of
the code, and stays. -/
def Error.shift (count : Nat) : Error → Error
  | .malformed cause offset => .malformed cause (count + offset)
  | .truncated offset needed => .truncated (count + offset) needed
  | .unknownOpcode isLong code offset => .unknownOpcode isLong code (count + offset)
  | .operandMismatch opcode offset => .operandMismatch opcode (count + offset)
  | .indexOutOfRange kind index offset => .indexOutOfRange kind index (count + offset)
  | .unresolvedMember token offset => .unresolvedMember token (count + offset)
  | .unresolvedString index offset => .unresolvedString index (count + offset)
  | .branchOutOfRange opcode delta offset => .branchOutOfRange opcode delta (count + offset)
  | .invalidBranchTarget offset target => .invalidBranchTarget (count + offset) target
  | .invalidTag tag kind => .invalidTag tag kind
  | .invalidTableId number => .invalidTableId number
  | .unsupportedTable table kind => .unsupportedTable table kind
  | .invalidMnemonic name => .invalidMnemonic name
  | .invalidImport fault => .invalidImport fault

/-- `c.Behind before c'`: `c'` is at the place of `c`, with the bytes `before` in front. -/
structure Cursor.Behind (before : Array UInt8) (c c' : Cursor) : Prop where
  data_eq : c'.data = before ++ c.data
  pos_eq : c'.pos = before.size + c.pos

namespace Cursor.Behind

variable {before : Array UInt8} {c c' : Cursor}

theorem remaining_eq (h : c.Behind before c') : c'.remaining = c.remaining := by
  unfold Cursor.remaining
  rw [h.data_eq, h.pos_eq, Array.size_append, Nat.add_sub_add_left]

theorem hasMore_eq (h : c.Behind before c') : c'.hasMore = c.hasMore := by
  unfold Cursor.hasMore
  rw [h.data_eq, h.pos_eq, Array.size_append, decide_eq_decide]
  exact Nat.add_lt_add_iff_left

/-- Both move over as many bytes. -/
theorem move (h : c.Behind before c') (count : Nat) :
    Cursor.Behind before { c with pos := c.pos + count } { c' with pos := c'.pos + count } :=
  ⟨h.data_eq, by rw [h.pos_eq, Nat.add_assoc]⟩

end Cursor.Behind

theorem sliceAt?_append (before data : Array UInt8) (pos count : Nat) :
    sliceAt? (before ++ data) (before.size + pos) count = sliceAt? data pos count := by
  have hextract : (before ++ data).extract (before.size + pos) (before.size + pos + count) =
      data.extract pos (pos + count) := by
    rw [Array.extract_append, Array.extract_eq_empty_of_le, Array.empty_append, Nat.add_assoc,
      Nat.add_sub_cancel_left, Nat.add_sub_cancel_left]
    exact Nat.le_trans (Nat.min_le_right _ _) (Nat.le_add_right _ _)
  unfold sliceAt?
  rw [hextract, Array.size_append, Nat.add_assoc]
  simp only [Nat.add_le_add_iff_left]

namespace Reader

variable {α β : Type} {before : Array UInt8}

/-- The same answer, or the same error with its offset moved on, and cursors at the same place. -/
inductive Relocated (before : Array UInt8) :
    EStateM.Result Error Cursor α → EStateM.Result Error Cursor α → Prop
  | ok {a : α} {c c' : Cursor} : c.Behind before c' → Relocated before (.ok a c) (.ok a c')
  | error {e : Error} {c c' : Cursor} :
      c.Behind before c' → Relocated before (.error e c) (.error (e.shift before.size) c')

/-- With the bytes `before` in front, `r'` does what `r` does without them. -/
def Relocates (before : Array UInt8) (r r' : Reader α) : Prop :=
  ∀ c c', c.Behind before c' → Relocated before (r c) (r' c')

namespace Relocates

/-! ## Composite readers -/

theorem bind {x x' : Reader α} {f f' : α → Reader β} (hx : Relocates before x x')
    (hf : ∀ a, Relocates before (f a) (f' a)) : Relocates before (x >>= f) (x' >>= f') := by
  intro c c' hc
  show Relocated before (EStateM.bind x f c) (EStateM.bind x' f' c')
  unfold EStateM.bind
  have h := hx c c' hc
  generalize x c = first, x' c' = second at h
  cases h with
  | ok hm => exact hf _ _ _ hm
  | error hm => exact .error hm

theorem ite {p : Prop} [Decidable p] {x x' y y' : Reader α} (hx : Relocates before x x')
    (hy : Relocates before y y') :
    Relocates before (if p then x else y) (if p then x' else y') := by
  by_cases h : p
  · rw [if_pos h, if_pos h]
    exact hx
  · rw [if_neg h, if_neg h]
    exact hy

/-- The position is another, and what follows has to make up for it. -/
theorem position {f f' : Nat → Reader α}
    (h : ∀ pos, Relocates before (f pos) (f' (before.size + pos))) :
    Relocates before (Reader.position >>= f) (Reader.position >>= f') := by
  intro c c' hc
  rw [bind_of_ok (position_eq_ok.mpr ⟨rfl, rfl⟩), bind_of_ok (position_eq_ok.mpr ⟨rfl, rfl⟩),
    hc.pos_eq]
  exact h c.pos c c' hc

theorem times {step step' : Reader α} (h : Relocates before step step') (count : Nat)
    (done : List α) : Relocates before (times step count done) (times step' count done) := by
  induction count generalizing done with
  | zero => exact fun c c' hc => .ok hc
  | succ count ih =>
    intro c c' hc
    have hfirst := h c c' hc
    rw [Reader.times, Reader.times]
    generalize step c = first, step' c' = second at hfirst
    cases hfirst with
    | ok hm => exact ih _ _ _ hm
    | error hm => exact .error hm

theorem repeated {step step' : Reader α} (h : Relocates before step step') (count : Nat) :
    Relocates before (repeated count step) (repeated count step') :=
  h.times count []

theorem collect {step step' : Reader (Option α)} (h : Relocates before step step') (limit : Nat)
    (done : List α) : Relocates before (collect step limit done) (collect step' limit done) := by
  induction limit generalizing done with
  | zero => exact fun c c' hc => .ok hc
  | succ limit ih =>
    intro c c' hc
    have hround := h c c' hc
    rw [Reader.collect, Reader.collect]
    generalize step c = first, step' c' = second at hround
    cases hround with
    | @ok answer _ _ hm =>
      cases answer with
      | none => exact .ok hm
      | some a => exact ih _ _ _ hm
    | error hm => exact .error hm

theorem untilEnd {step step' : Reader α} (h : Relocates before step step') :
    Relocates before (untilEnd step) (untilEnd step') := by
  have hround : Relocates before (roundToEnd step) (roundToEnd step') := by
    intro c c' hc
    unfold roundToEnd
    rw [hc.hasMore_eq]
    split
    next =>
      show Relocated before (EStateM.map some step c) (EStateM.map some step' c')
      unfold EStateM.map
      have hstep := h c c' hc
      generalize step c = first, step' c' = second at hstep
      cases hstep with
      | ok hm => exact .ok hm
      | error hm => exact .error hm
    next => exact .ok hc
  intro c c' hc
  show Relocated before (Reader.collect (roundToEnd step) (c.remaining + 1) [] c)
    (Reader.collect (roundToEnd step') (c'.remaining + 1) [] c')
  rw [hc.remaining_eq]
  exact hround.collect _ _ c c' hc

/-! ## Elementary readers -/

theorem pure (a : α) : Relocates before (Pure.pure a : Reader α) (Pure.pure a) :=
  fun _ _ hc => .ok hc

theorem throw (e : Error) :
    Relocates before (MonadExcept.throw e : Reader α) (MonadExcept.throw (e.shift before.size)) :=
  fun _ _ hc => .error hc

theorem note (n n' : Notice) : Relocates before (note n) (note n') :=
  fun _ _ hc => .ok ⟨hc.data_eq, hc.pos_eq⟩

theorem ofResult (result : Except Error α) :
    Relocates before (ofResult result) (ofResult (result.mapError (Error.shift before.size))) := by
  intro c c' hc
  cases result with
  | ok a => exact .ok hc
  | error e => exact .error hc

theorem ensure (count : Nat) : Relocates before (ensure count) (ensure count) := by
  intro c c' hc
  unfold Reader.ensure
  rw [hc.remaining_eq, hc.pos_eq]
  split
  next => exact .ok hc
  next => exact .error hc

theorem word (α : Type) [LittleEndian α] : Relocates before (word α) (word α) := by
  intro c c' hc
  have hslice : sliceAt? c'.data c'.pos (LittleEndian.size α) =
      sliceAt? c.data c.pos (LittleEndian.size α) := by
    rw [hc.data_eq, hc.pos_eq, sliceAt?_append]
  unfold Reader.word readAt
  dsimp only
  rw [hslice]
  cases sliceAt? c.data c.pos (LittleEndian.size α) with
  | some bytes => exact .ok (hc.move _)
  | none =>
    rw [hc.pos_eq]
    exact .error hc

end Relocates

end Reader

end CilCodec
