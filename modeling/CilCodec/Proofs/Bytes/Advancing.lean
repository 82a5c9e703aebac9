import CilCodec.Proofs.Bytes.Reading

/-!
# CilCodec.Proofs.Bytes.Advancing

Where a reader stops, whether it answers or fails.

A reader that fails leaves the cursor where it failed, and reading can go on from there: a malformed
section ends the sections of a body, not the body. `Advances r` says that `r` stops inside the data
and not before the place it began at, in both cases.

Results:
1. `Advances.bind` and the lemmas beside it: readers that are put together from others.
2. `word_advances` and its siblings: the elementary readers.
-/

namespace CilCodec

/-- `c.LeadsTo c'`: `c'` is a place in the same data, at `c` or behind it. -/
structure Cursor.LeadsTo (c c' : Cursor) : Prop where
  data_eq : c'.data = c.data
  pos_le : c.pos ≤ c'.pos
  inside : c'.pos ≤ c'.data.size

namespace Cursor.LeadsTo

variable {c middle c' : Cursor}

/-- Notices do not count. -/
theorem noted (hc : c.pos ≤ c.data.size) (notices : Array Notice) :
    c.LeadsTo { c with notices := notices } :=
  ⟨rfl, Nat.le_refl _, hc⟩

theorem refl (hc : c.pos ≤ c.data.size) : c.LeadsTo c := .noted hc c.notices

theorem trans (h : c.LeadsTo middle) (h' : middle.LeadsTo c') : c.LeadsTo c' where
  data_eq := h'.data_eq.trans h.data_eq
  pos_le := Nat.le_trans h.pos_le h'.pos_le
  inside := h'.inside

theorem of_passes {bytes : List UInt8} (h : c.Passes bytes c') : c.LeadsTo c' where
  data_eq := h.data_eq
  pos_le := h.pos_eq ▸ Nat.le_add_right _ _
  inside := h.pos_le

end Cursor.LeadsTo

namespace Reader

variable {α β : Type}

/-- Where a reader stopped. -/
def stop : EStateM.Result Error Cursor α → Cursor
  | .ok _ c => c
  | .error _ c => c

/-- The reader does not go back and does not leave the data. -/
def Advances (r : Reader α) : Prop := ∀ c : Cursor, c.pos ≤ c.data.size → c.LeadsTo (stop (r c))

/-! ## Composite readers -/

namespace Advances

theorem of_ok {r : Reader α} (h : Advances r) {c c' : Cursor} {a : α} (hc : c.pos ≤ c.data.size)
    (hread : r c = .ok a c') : c.LeadsTo c' := by
  have hstop := h c hc
  rw [hread] at hstop
  exact hstop

theorem of_error {r : Reader α} (h : Advances r) {c c' : Cursor} {e : Error}
    (hc : c.pos ≤ c.data.size) (hread : r c = .error e c') : c.LeadsTo c' := by
  have hstop := h c hc
  rw [hread] at hstop
  exact hstop

theorem bind {x : Reader α} {f : α → Reader β} (hx : Advances x) (hf : ∀ a, Advances (f a)) :
    Advances (x >>= f) := by
  intro c hc
  cases hread : x c with
  | ok a middle =>
    have hfirst := hx.of_ok hc hread
    rw [bind_of_ok hread]
    exact hfirst.trans (hf a middle hfirst.inside)
  | error e stop =>
    rw [bind_of_error hread]
    exact hx.of_error hc hread

theorem ite {p : Prop} [Decidable p] {x y : Reader α} (hx : Advances x) (hy : Advances y) :
    Advances (if p then x else y) := by
  by_cases h : p
  · rw [if_pos h]
    exact hx
  · rw [if_neg h]
    exact hy

theorem times {step : Reader α} (h : Advances step) (count : Nat) (done : List α) :
    Advances (times step count done) := by
  induction count generalizing done with
  | zero => exact fun c hc => .refl hc
  | succ count ih =>
    intro c hc
    rw [Reader.times]
    cases hstep : step c with
    | ok a middle =>
      have hfirst := h.of_ok hc hstep
      exact hfirst.trans (ih (a :: done) middle hfirst.inside)
    | error e stop => exact h.of_error hc hstep

theorem repeated {step : Reader α} (h : Advances step) (count : Nat) :
    Advances (repeated count step) :=
  h.times count []

end Advances

/-! ## Elementary readers -/

theorem pure_advances (a : α) : Advances (pure a : Reader α) := fun _ hc => .refl hc

theorem throw_advances (e : Error) : Advances (throw e : Reader α) := fun _ hc => .refl hc

theorem position_advances : Advances position := fun _ hc => .refl hc

theorem note_advances (n : Notice) : Advances (note n) := fun _ hc => .noted hc _

theorem ofResult_advances (result : Except Error α) : Advances (ofResult result) := by
  intro c hc
  cases result with
  | ok a => exact .refl hc
  | error e => exact .refl hc

theorem ensure_advances (count : Nat) : Advances (ensure count) := by
  intro c hc
  unfold ensure
  split
  next => exact .refl hc
  next => exact .refl hc

theorem advance_advances (count : Nat) : Advances (advance count) := by
  intro c hc
  unfold advance
  split
  next h => exact ⟨rfl, Nat.le_add_right _ _, h⟩
  next => exact .refl hc

theorem align_advances (unit : Nat) : Advances (align unit) :=
  position_advances.bind fun pos => advance_advances (gap pos unit)

theorem word_advances (α : Type) [LittleEndian α] : Advances (word α) := by
  intro c hc
  cases hread : word α c with
  | ok value c' =>
    obtain ⟨hholds, rfl⟩ := word_eq_ok.mp hread
    exact .of_passes (.of_word hholds)
  | error e c' =>
    unfold word at hread
    split at hread
    next => cases hread
    next =>
      cases hread
      exact .refl hc

end Reader

end CilCodec
