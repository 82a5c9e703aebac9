import CilCodec.Proofs.Bytes.Advancing
import CilCodec.Proofs.Bytes.Failing

/-!
# CilCodec.Proofs.Bytes.Locating

Where the errors of reading point to.

An error that blames a byte gives the position of one that is there. One that misses bytes gives the
position they were wanted at, at most the end, and from there they do go beyond it.

`LocatesFrom low r` says this of all that `r` fails with at a place behind `low`. The bound is there
for errors that are found late: a check blames the position where it began to read, and that lies
inside because bytes from there on have been read since.

Results:
1. `LocatesFrom.bind`, `LocatesFrom.bindPosition`, `LocatesFrom.bindFirst`: readers that are put
   together from others. A position can be taken as the bound, and a word moves it on.
2. `LocatesFrom.word` and its siblings: the elementary readers.
-/

namespace CilCodec

/-- `e.LocatedIn limit`: the error is one about the form of bytes that end at `limit`, and its
position is in them. Missing bytes are at least one, and go beyond the end. -/
inductive Error.LocatedIn (limit : Nat) : Error → Prop
  | malformed {cause : Malformation} {offset : Nat} :
      offset < limit → LocatedIn limit (.malformed cause offset)
  | unknownOpcode {isLong : Bool} {code : UInt8} {offset : Nat} :
      offset < limit → LocatedIn limit (.unknownOpcode isLong code offset)
  | invalidBranchTarget {offset : Nat} {target : Int} :
      offset < limit → LocatedIn limit (.invalidBranchTarget offset target)
  | truncated {offset needed : Nat} : offset ≤ limit → 0 < needed → limit < offset + needed →
      LocatedIn limit (.truncated offset needed)

/-- Bytes are missing if fewer are left than needed. -/
theorem Error.LocatedIn.of_short {pos needed limit : Nat} (hpos : pos ≤ limit)
    (hshort : ¬ pos + needed ≤ limit) : (Error.truncated pos needed).LocatedIn limit :=
  .truncated hpos (by omega) (by omega)

namespace Reader

variable {α β : Type}

/-- From every place at `low` or behind it, what the reader fails with is located in the data. -/
def LocatesFrom (low : Nat) (r : Reader α) : Prop :=
  ∀ (c c' : Cursor) (e : Error), low ≤ c.pos → c.pos ≤ c.data.size → r c = .error e c' →
    e.LocatedIn c.data.size

namespace LocatesFrom

variable {low : Nat}

/-! ## Composite readers -/

theorem bind {x : Reader α} {f : α → Reader β} (hmoves : Advances x) (hx : LocatesFrom low x)
    (hf : ∀ a, LocatesFrom low (f a)) : LocatesFrom low (x >>= f) := by
  intro c c' e hlow hpos h
  rcases bind_eq_error.mp h with hfail | ⟨a, middle, hread, hfail⟩
  · exact hx c c' e hlow hpos hfail
  · have hmiddle := hmoves.of_ok hpos hread
    rw [← hmiddle.data_eq]
    exact hf a middle c' e (Nat.le_trans hlow hmiddle.pos_le) hmiddle.inside hfail

theorem map {x : Reader α} (hx : LocatesFrom low x) (f : α → β) :
    LocatesFrom low (do return f (← x)) := by
  intro c c' e hlow hpos h
  rcases bind_eq_error.mp h with hfail | ⟨_, _, _, hpure⟩
  · exact hx c c' e hlow hpos hfail
  · cases hpure

/-- What follows may take the position as the bound. -/
theorem bindPosition {f : Nat → Reader α}
    (hf : ∀ start, low ≤ start → LocatesFrom start (f start)) :
    LocatesFrom low (position >>= f) := by
  intro c c' e hlow hpos h
  rw [bind_of_ok (position_eq_ok.mpr ⟨rfl, rfl⟩)] at h
  exact hf c.pos hlow c c' e (Nat.le_refl _) hpos h

theorem ite {p : Prop} [Decidable p] {x y : Reader α} (hx : LocatesFrom low x)
    (hy : LocatesFrom low y) : LocatesFrom low (if p then x else y) := by
  by_cases h : p
  · rw [if_pos h]
    exact hx
  · rw [if_neg h]
    exact hy

theorem times {step : Reader α} (hmoves : Advances step) (h : LocatesFrom low step) (count : Nat)
    (done : List α) : LocatesFrom low (times step count done) := by
  induction count generalizing done with
  | zero => exact fun _ _ _ _ _ herror => nomatch herror
  | succ count ih =>
    intro c c' e hlow hpos herror
    rw [Reader.times] at herror
    split at herror
    next a middle hstep =>
      have hmiddle := hmoves.of_ok hpos hstep
      rw [← hmiddle.data_eq]
      exact ih (a :: done) middle c' e (Nat.le_trans hlow hmiddle.pos_le) hmiddle.inside herror
    next hstep =>
      cases herror
      exact h c _ _ hlow hpos hstep

theorem repeated {step : Reader α} (hmoves : Advances step) (h : LocatesFrom low step)
    (count : Nat) : LocatesFrom low (repeated count step) :=
  h.times hmoves count []

/-! ## Steps that fail by themselves -/

theorem throw {e : Error} (h : ∀ limit, low ≤ limit → e.LocatedIn limit) :
    LocatesFrom low (MonadExcept.throw e : Reader α) := by
  intro c c' e' hlow hpos herror
  obtain ⟨rfl, _⟩ := throw_eq_error.mp herror
  exact h _ (Nat.le_trans hlow hpos)

/-- A check in front of the steps that need it. -/
theorem refuse {p : Prop} [Decidable p] {e : Error} {f : α → Reader β} {x : Reader β}
    (h : ∀ limit, low ≤ limit → e.LocatedIn limit) (hx : LocatesFrom low x) :
    LocatesFrom low (if p then (MonadExcept.throw e >>= f) else x) := by
  intro c c' e' hlow hpos herror
  rcases refuse_eq_error.mp herror with ⟨_, rfl, _⟩ | ⟨_, hfail⟩
  · exact h _ (Nat.le_trans hlow hpos)
  · exact hx c c' e' hlow hpos hfail

theorem ofResult {result : Except Error α}
    (h : ∀ e, result = .error e → ∀ limit, low ≤ limit → e.LocatedIn limit) :
    LocatesFrom low (ofResult result) := by
  intro c c' e hlow hpos herror
  obtain ⟨hresult, _⟩ := ofResult_eq_error.mp herror
  exact h e hresult _ (Nat.le_trans hlow hpos)

/-! ## Elementary readers -/

theorem pure (a : α) : LocatesFrom low (Pure.pure a : Reader α) :=
  fun _ _ _ _ _ herror => nomatch herror

theorem note (n : Notice) : LocatesFrom low (note n) := fun _ _ _ _ _ herror => nomatch herror

theorem ensure (count : Nat) : LocatesFrom low (ensure count) := by
  intro c c' e _ hpos herror
  unfold Reader.ensure at herror
  split at herror
  next => cases herror
  next hshort =>
    cases herror
    exact .of_short hpos fun hle => hshort (Nat.le_sub_of_add_le' hle)

theorem advance (count : Nat) : LocatesFrom low (advance count) := by
  intro c c' e _ hpos herror
  unfold Reader.advance at herror
  split at herror
  next => cases herror
  next hshort =>
    cases herror
    exact .of_short hpos hshort

theorem align (unit : Nat) : LocatesFrom low (align unit) :=
  fun c => advance (gap c.pos unit) c

theorem peekByte : LocatesFrom low peekByte := by
  intro c c' e _ hpos herror
  unfold Reader.peekByte at herror
  split at herror
  next => cases herror
  next hnone =>
    cases herror
    have hend := Array.getElem?_eq_none_iff.mp hnone
    exact .of_short hpos (Nat.not_le.mpr (Nat.lt_succ_of_le hend))

theorem word (α : Type) [LittleEndian α] : LocatesFrom low (word α) := by
  intro c c' e _ hpos herror
  unfold Reader.word readAt at herror
  dsimp only at herror
  cases hslice : sliceAt? c.data c.pos (LittleEndian.size α) with
  | some bytes =>
    rw [hslice] at herror
    cases herror
  | none =>
    rw [hslice] at herror
    cases herror
    refine .of_short hpos fun hle => ?_
    rw [sliceAt?, if_pos hle] at hslice
    cases hslice

theorem bindWord {α : Type} [LittleEndian α] {f : α → Reader β}
    (hf : ∀ value, LocatesFrom low (f value)) : LocatesFrom low (Reader.word α >>= f) :=
  .bind (word_advances α) (.word α) hf

/-- Behind a word, the bound may move on by a byte. -/
theorem bindFirst {α : Type} [LittleEndian α] {f : α → Reader β}
    (hsize : 0 < LittleEndian.size α) (hf : ∀ value, LocatesFrom (low + 1) (f value)) :
    LocatesFrom low (Reader.word α >>= f) := by
  intro c c' e hlow hpos herror
  rcases bind_eq_error.mp herror with hfail | ⟨value, middle, hread, hfail⟩
  · exact word α c c' e hlow hpos hfail
  · obtain ⟨hholds, rfl⟩ := word_eq_ok.mp hread
    have hpassed := Cursor.Passes.of_word hholds
    exact hf value { c with pos := c.pos + LittleEndian.size α } c' e
      (Nat.add_le_add hlow hsize) hpassed.pos_le hfail

end LocatesFrom

end Reader

end CilCodec
