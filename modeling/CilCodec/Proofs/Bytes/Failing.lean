import Mathlib.Data.List.Forall2
import CilCodec.Proofs.Bytes.Reading

/-!
# CilCodec.Proofs.Bytes.Failing

How reading fails, and where.

Results:
1. `throw_eq_error`, `refuse_eq_error`, `ofResult_eq_error`: the steps that can fail by themselves,
   as equivalences.
2. `untilEnd_eq_error`: a loop to the end of the data fails at the first round that fails, behind
   rounds that have succeeded.
3. `steps_append`, `steps_forall₂`: runs in two parts, and runs of two steps that answer alike.
4. `FailsOnly`: the errors a reader can end with, put together from those of its steps.
-/

namespace CilCodec

/-! ## Steps that fail -/

section Failure

variable {ε σ α β : Type}

theorem throw_eq_error {e e' : ε} {s t : σ} :
    (throw e : EStateM ε σ α) s = .error e' t ↔ e = e' ∧ s = t := by
  show EStateM.Result.error e s = .error e' t ↔ _
  simp

theorem pure_ne_error {a : α} {e : ε} {s t : σ} :
    ¬ (pure a : EStateM ε σ α) s = .error e t := by
  intro h
  cases h

/-- A check that stops before the steps behind it, or lets them fail. -/
theorem refuse_eq_error {p : Prop} [Decidable p] {e e' : ε} {f : α → EStateM ε σ β}
    {x : EStateM ε σ β} {s t : σ} :
    (if p then (throw e >>= f) else x) s = .error e' t ↔
      (p ∧ e = e' ∧ s = t) ∨ (¬ p ∧ x s = .error e' t) := by
  by_cases h : p
  · rw [if_pos h]
    have hthrow : (throw e >>= f) s = .error e s := rfl
    rw [hthrow]
    simp [h]
  · rw [if_neg h]
    simp [h]

theorem map_eq_error {x : Except ε α} {f : α → β} {e : ε} :
    x.map f = .error e ↔ x = .error e := by
  cases x <;> simp [Except.map]

end Failure

namespace Reader

theorem ofResult_eq_error {α : Type} {result : Except Error α} {c c' : Cursor} {e : Error} :
    ofResult result c = .error e c' ↔ result = .error e ∧ c = c' := by
  cases result <;> simp [ofResult]

theorem answer_eq_error {α : Type} {r : Reader α} {data : Array UInt8} {e : Error} :
    r.answer data = .error e ↔ ∃ c', r (Cursor.start data) = .error e c' := by
  unfold answer report
  cases r (Cursor.start data) <;> simp

/-! ## Runs -/

section Runs

variable {α β : Type} {step : Reader α} {c c' : Cursor}

theorem steps_append {as bs : List α} :
    Steps step c (as ++ bs) c' ↔ ∃ middle, Steps step c as middle ∧ Steps step middle bs c' := by
  induction as generalizing c with
  | nil =>
    constructor
    · intro h
      exact ⟨c, .nil c, h⟩
    · rintro ⟨_, hnil, h⟩
      cases hnil
      exact h
  | cons a as ih =>
    constructor
    · intro h
      cases h with
      | cons hstep hsteps =>
        obtain ⟨middle, hfirst, hsecond⟩ := ih.mp hsteps
        exact ⟨middle, .cons hstep hfirst, hsecond⟩
    · rintro ⟨middle, hfirst, hsecond⟩
      cases hfirst with
      | cons hstep hsteps => exact .cons hstep (ih.mpr ⟨middle, hsteps, hsecond⟩)

/-- A run keeps to its data and does not go back. -/
theorem Steps.moves (hmoves : Moves step) {as : List α} (h : Steps step c as c') :
    c'.data = c.data ∧ c.pos ≤ c'.pos := by
  induction h with
  | nil c => exact ⟨rfl, Nat.le_refl _⟩
  | cons hstep _ ih =>
    obtain ⟨hdata, hlt, _⟩ := hmoves _ _ _ hstep
    exact ⟨ih.1.trans hdata, Nat.le_trans (Nat.le_of_lt hlt) ih.2⟩

theorem Steps.inside (hmoves : Moves step) {as : List α} (h : Steps step c as c')
    (hpos : c.pos ≤ c.data.size) : c'.pos ≤ c'.data.size := by
  induction h with
  | nil c => exact hpos
  | cons hstep _ ih => exact ih (hmoves _ _ _ hstep).2.2

/-- If a step answers what another one answers, up to `Q`, so do their runs. -/
theorem steps_forall₂ {step' : Reader β} {Q : β → α → Prop}
    (hstep : ∀ (c c' : Cursor) (a : α),
      step c = .ok a c' ↔ ∃ b, step' c = .ok b c' ∧ Q b a) {as : List α} :
    Steps step c as c' ↔ ∃ bs, Steps step' c bs c' ∧ List.Forall₂ Q bs as := by
  induction as generalizing c with
  | nil =>
    constructor
    · intro h
      cases h
      exact ⟨[], .nil _, .nil⟩
    · rintro ⟨bs, hsteps, hall⟩
      cases hall
      cases hsteps
      exact .nil _
  | cons a as ih =>
    constructor
    · intro h
      cases h with
      | cons hfirst hsteps =>
        obtain ⟨b, hfirst', hQ⟩ := (hstep _ _ _).mp hfirst
        obtain ⟨bs, hsteps', hall⟩ := ih.mp hsteps
        exact ⟨b :: bs, .cons hfirst' hsteps', .cons hQ hall⟩
    · rintro ⟨_, hsteps, hall⟩
      cases hall with
      | cons hQ hall =>
        cases hsteps with
        | cons hfirst hsteps =>
          exact .cons ((hstep _ _ _).mpr ⟨_, hfirst, hQ⟩) (ih.mpr ⟨_, hsteps, hall⟩)

/-- If a step succeeds where another one does with an answer that has `P`, so do their runs. -/
theorem steps_filter {step' : Reader α} {P : α → Prop}
    (hstep : ∀ (c c' : Cursor) (a : α), step c = .ok a c' ↔ step' c = .ok a c' ∧ P a)
    {as : List α} :
    Steps step c as c' ↔ Steps step' c as c' ∧ ∀ a ∈ as, P a := by
  have hanswer : ∀ (c c' : Cursor) (a : α),
      step c = .ok a c' ↔ ∃ b, step' c = .ok b c' ∧ P b ∧ b = a := by
    intro c c' a
    rw [hstep]
    constructor
    · rintro ⟨h, hP⟩
      exact ⟨a, h, hP, rfl⟩
    · rintro ⟨_, h, hP, rfl⟩
      exact ⟨h, hP⟩
  rw [steps_forall₂ hanswer]
  simp only [List.forall₂_and_left, List.forall₂_eq_eq_eq]
  constructor
  · rintro ⟨_, h, hP, rfl⟩
    exact ⟨h, hP⟩
  · rintro ⟨h, hP⟩
    exact ⟨as, h, hP, rfl⟩

end Runs

/-! ## Loops that fail -/

section Loops

variable {α : Type} {step : Reader α} {c c' : Cursor} {e : Error}

theorem collect_roundToEnd_eq_error (hmoves : Moves step) {limit : Nat} {done : List α}
    (hlimit : c.remaining < limit) :
    collect (roundToEnd step) limit done c = .error e c' ↔
      ∃ as middle, Steps step c as middle ∧ middle.pos < middle.data.size ∧
        step middle = .error e c' := by
  induction limit generalizing done c with
  | zero => exact absurd hlimit (Nat.not_lt_zero _)
  | succ limit ih =>
    by_cases hmore : c.pos < c.data.size
    · cases hstep : step c with
      | ok a next =>
        obtain ⟨hdata, hlt, _⟩ := hmoves _ _ _ hstep
        have hless : next.remaining < c.remaining := by
          unfold Cursor.remaining
          rw [hdata]
          exact Nat.sub_lt_sub_left hmore hlt
        rw [collect_of_some (roundToEnd_of_step hmore hstep),
          ih (Nat.lt_of_lt_of_le hless (Nat.le_of_lt_succ hlimit))]
        constructor
        · rintro ⟨as, middle, hsteps, hfail⟩
          exact ⟨a :: as, middle, .cons hstep hsteps, hfail⟩
        · rintro ⟨as, middle, hsteps, hinside, hfail⟩
          cases hsteps with
          | nil =>
            rw [hstep] at hfail
            cases hfail
          | cons hstep' hsteps =>
            rw [hstep] at hstep'
            cases hstep'
            exact ⟨_, middle, hsteps, hinside, hfail⟩
      | error e' stop =>
        rw [collect_of_error (roundToEnd_of_error hmore hstep)]
        constructor
        · intro h
          cases h
          exact ⟨[], c, .nil c, hmore, hstep⟩
        · rintro ⟨as, middle, hsteps, hinside, hfail⟩
          cases hsteps with
          | nil =>
            rw [hstep] at hfail
            cases hfail
            rfl
          | cons hstep' _ =>
            rw [hstep] at hstep'
            cases hstep'
    · rw [collect_of_none (roundToEnd_of_end (Nat.not_lt.mp hmore))]
      constructor
      · intro h
        cases h
      · rintro ⟨as, middle, hsteps, hinside, _⟩
        -- nothing is left at the end, and a run does not go back
        obtain ⟨hdata, hle⟩ := hsteps.moves hmoves
        rw [hdata] at hinside
        exact absurd (Nat.lt_of_le_of_lt hle hinside) hmore

/-- A loop to the end fails as the first round that fails does, behind rounds that succeed. -/
theorem untilEnd_eq_error (hmoves : Moves step) :
    untilEnd step c = .error e c' ↔
      ∃ as middle, Steps step c as middle ∧ middle.pos < middle.data.size ∧
        step middle = .error e c' :=
  collect_roundToEnd_eq_error hmoves (Nat.lt_succ_self _)

end Loops

/-! ## Kinds of errors -/

/-- Whatever `r` fails with has `P`. -/
def FailsOnly {α : Type} (P : Error → Prop) (r : Reader α) : Prop :=
  ∀ (c c' : Cursor) (e : Error), r c = .error e c' → P e

namespace FailsOnly

variable {α β : Type} {P : Error → Prop}

theorem bind {x : Reader α} {f : α → Reader β} (hx : FailsOnly P x)
    (hf : ∀ a, FailsOnly P (f a)) : FailsOnly P (x >>= f) := by
  intro c c' e h
  rcases bind_eq_error.mp h with h | ⟨a, middle, _, h⟩
  · exact hx c c' e h
  · exact hf a middle c' e h

theorem ite {p : Prop} [Decidable p] {x y : Reader α} (hx : FailsOnly P x)
    (hy : FailsOnly P y) : FailsOnly P (if p then x else y) := by
  by_cases h : p
  · rw [if_pos h]
    exact hx
  · rw [if_neg h]
    exact hy

theorem throw {e : Error} (h : P e) : FailsOnly P (MonadExcept.throw e : Reader α) := by
  intro c c' e' herror
  obtain ⟨rfl, _⟩ := throw_eq_error.mp herror
  exact h

theorem pure (a : α) : FailsOnly P (Pure.pure a : Reader α) :=
  fun _ _ _ h => absurd h pure_ne_error

theorem position : FailsOnly P position := fun _ _ _ h => nomatch h

theorem note (n : Notice) : FailsOnly P (note n) := fun _ _ _ h => nomatch h

theorem ensure (h : ∀ pos needed, P (.truncated pos needed)) (count : Nat) :
    FailsOnly P (ensure count) := by
  intro c c' e herror
  unfold Reader.ensure at herror
  split at herror
  next => cases herror
  next =>
    cases herror
    exact h _ _

theorem advance (h : ∀ pos needed, P (.truncated pos needed)) (count : Nat) :
    FailsOnly P (advance count) := by
  intro c c' e herror
  unfold Reader.advance at herror
  split at herror
  next => cases herror
  next =>
    cases herror
    exact h _ _

theorem word (h : ∀ pos needed, P (.truncated pos needed)) (α : Type) [LittleEndian α] :
    FailsOnly P (word α) := by
  intro c c' e herror
  unfold Reader.word readAt at herror
  dsimp only at herror
  cases hslice : sliceAt? c.data c.pos (LittleEndian.size α) with
  | some bytes =>
    rw [hslice] at herror
    cases herror
  | none =>
    rw [hslice] at herror
    cases herror
    exact h _ _

theorem times {step : Reader α} (h : FailsOnly P step) (count : Nat) (done : List α) :
    FailsOnly P (times step count done) := by
  induction count generalizing done with
  | zero => exact fun _ _ _ herror => nomatch herror
  | succ count ih =>
    intro c c' e herror
    rw [Reader.times] at herror
    split at herror
    next a middle _ => exact ih (a :: done) middle c' e herror
    next e' stop hstep =>
      cases herror
      exact h c _ _ hstep

theorem repeated {step : Reader α} (h : FailsOnly P step) (count : Nat) :
    FailsOnly P (repeated count step) :=
  h.times count []

end FailsOnly

end Reader

end CilCodec
