import CilCodec.Proofs.Bytes.Reading

/-!
# CilCodec.Proofs.Bytes.Extension

Reading the same bytes with more of them behind.

A reader that never looks behind the bytes it needs cannot tell whether there are more. It succeeds
or fails as it would with more bytes behind, unless it fails for want of bytes: then nothing is said.
`SelfDelimiting` is that property, and it holds of a reader whose steps have it.

Results:
1. `SelfDelimiting.bind` and the lemmas beside it: readers that are put together from others.
2. `word_selfDelimiting` and its siblings: the elementary readers. `untilEnd` is none of them.
3. `SelfDelimiting.report_append`: what is read from all of some data is read with more behind it.
-/

namespace CilCodec

/-- Whether an error is that bytes are missing. -/
def Error.IsTruncated (e : Error) : Prop := ∃ offset needed, e = .truncated offset needed

/-- The cursor, with more bytes behind its data. -/
def Cursor.extend (c : Cursor) (behind : Array UInt8) : Cursor :=
  { c with data := c.data ++ behind }

theorem Holds.extend {data : Array UInt8} {pos : Nat} {bytes : List UInt8}
    (h : Holds data pos bytes) (behind : Array UInt8) : Holds (data ++ behind) pos bytes := by
  obtain ⟨before, rest, hdata, rfl⟩ := h
  refine ⟨before, rest ++ behind.toList, ?_, rfl⟩
  rw [Array.toList_append, hdata, List.append_assoc]

theorem Cursor.remaining_le_extend (c : Cursor) (behind : Array UInt8) :
    c.remaining ≤ (c.extend behind).remaining := by
  show c.data.size - c.pos ≤ (c.data ++ behind).size - c.pos
  rw [Array.size_append]
  omega

/-- What has been passed does not depend on what is behind. -/
theorem Cursor.passed_extend {c : Cursor} (h : c.pos ≤ c.data.size) (behind : Array UInt8) :
    (c.extend behind).passed = c.passed := by
  unfold passed extend
  rw [Array.extract_append, Nat.zero_sub, Nat.sub_eq_zero_of_le h, Array.extract_zero,
    Array.append_empty]

namespace Reader

variable {α β : Type}

/-- How `r` ends from `c` is settled by the bytes there are: it answers or fails, and does the same
with `behind` behind them. The third case is that it runs out of bytes. -/
inductive Settled (r : Reader α) (c : Cursor) (behind : Array UInt8) : Prop
  | ok {a : α} {c' : Cursor} :
      r c = .ok a c' → c'.pos ≤ c'.data.size → r (c.extend behind) = .ok a (c'.extend behind) →
      Settled r c behind
  | failed {e : Error} {c' : Cursor} :
      r c = .error e c' → r (c.extend behind) = .error e (c'.extend behind) → Settled r c behind
  | short {e : Error} {c' : Cursor} :
      r c = .error e c' → e.IsTruncated → Settled r c behind

/-- The reader looks at no byte behind those it needs. -/
def SelfDelimiting (r : Reader α) : Prop :=
  ∀ (c : Cursor) (behind : Array UInt8), c.pos ≤ c.data.size → Settled r c behind

/-! ## Composite readers -/

namespace SelfDelimiting

theorem bind {x : Reader α} {f : α → Reader β} (hx : SelfDelimiting x)
    (hf : ∀ a, SelfDelimiting (f a)) : SelfDelimiting (x >>= f) := by
  intro c behind hc
  cases hx c behind hc with
  | @ok a middle hread hinside hmore =>
    cases hf a middle behind hinside with
    | ok hread' hinside' hmore' =>
      exact .ok ((bind_of_ok hread).trans hread') hinside' ((bind_of_ok hmore).trans hmore')
    | failed hread' hmore' =>
      exact .failed ((bind_of_ok hread).trans hread') ((bind_of_ok hmore).trans hmore')
    | short hread' htruncated => exact .short ((bind_of_ok hread).trans hread') htruncated
  | failed hread hmore => exact .failed (bind_of_error hread) (bind_of_error hmore)
  | short hread htruncated => exact .short (bind_of_error hread) htruncated

theorem ite {p : Prop} [Decidable p] {x y : Reader α} (hx : SelfDelimiting x)
    (hy : SelfDelimiting y) : SelfDelimiting (if p then x else y) := by
  by_cases h : p
  · rw [if_pos h]
    exact hx
  · rw [if_neg h]
    exact hy

/-- A check that stops before the steps behind it. -/
theorem refuse {p : Prop} [Decidable p] {e : Error} {f : α → Reader β} {x : Reader β}
    (hx : SelfDelimiting x) : SelfDelimiting (if p then (throw e >>= f) else x) :=
  .ite (fun _ _ _ => .failed rfl rfl) hx

theorem times {step : Reader α} (h : SelfDelimiting step) (count : Nat) (done : List α) :
    SelfDelimiting (times step count done) := by
  induction count generalizing done with
  | zero => exact fun c behind hc => .ok rfl hc rfl
  | succ count ih =>
    have hbind : Reader.times step (count + 1) done =
        step >>= fun a => Reader.times step count (a :: done) := by
      funext c
      rw [Reader.times]
      cases hstep : step c with
      | ok a middle => rw [bind_of_ok hstep]
      | error e middle => rw [bind_of_error hstep]
    rw [hbind]
    exact h.bind fun a => ih (a :: done)

theorem repeated {step : Reader α} (h : SelfDelimiting step) (count : Nat) :
    SelfDelimiting (repeated count step) :=
  h.times count []

end SelfDelimiting

/-! ## Elementary readers -/

theorem pure_selfDelimiting (a : α) : SelfDelimiting (pure a : Reader α) :=
  fun _ _ hc => .ok rfl hc rfl

theorem throw_selfDelimiting (e : Error) : SelfDelimiting (throw e : Reader α) :=
  fun _ _ _ => .failed rfl rfl

theorem position_selfDelimiting : SelfDelimiting position :=
  fun _ _ hc => .ok rfl hc rfl

theorem note_selfDelimiting (n : Notice) : SelfDelimiting (note n) :=
  fun _ _ hc => .ok rfl hc rfl

theorem ofResult_selfDelimiting (result : Except Error α) : SelfDelimiting (ofResult result) := by
  intro c behind hc
  cases result with
  | ok a => exact .ok rfl hc rfl
  | error e => exact .failed rfl rfl

theorem ensure_selfDelimiting (count : Nat) : SelfDelimiting (ensure count) := by
  intro c behind hc
  by_cases h : count ≤ c.remaining
  · refine .ok (if_pos h) hc (if_pos ?_)
    exact Nat.le_trans h (c.remaining_le_extend behind)
  · exact .short (if_neg h) ⟨_, _, rfl⟩

theorem advance_selfDelimiting (count : Nat) : SelfDelimiting (advance count) := by
  intro c behind hc
  by_cases h : c.pos + count ≤ c.data.size
  · refine .ok (if_pos h) h (if_pos ?_)
    show c.pos + count ≤ (c.data ++ behind).size
    rw [Array.size_append]
    exact Nat.le_trans h (Nat.le_add_right _ _)
  · exact .short (if_neg h) ⟨_, _, rfl⟩

theorem align_selfDelimiting (unit : Nat) : SelfDelimiting (align unit) :=
  position_selfDelimiting.bind fun pos => advance_selfDelimiting (gap pos unit)

theorem peekByte_selfDelimiting : SelfDelimiting peekByte := by
  intro c behind hc
  cases hread : peekByte c with
  | ok byte c' =>
    obtain ⟨hholds, rfl⟩ := peekByte_eq_ok.mp hread
    exact .ok hread hc (peekByte_eq_ok.mpr ⟨hholds.extend behind, rfl⟩)
  | error e c' =>
    refine .short hread ?_
    unfold peekByte at hread
    split at hread
    next => cases hread
    next =>
      cases hread
      exact ⟨_, _, rfl⟩

theorem word_selfDelimiting (α : Type) [LittleEndian α] : SelfDelimiting (word α) := by
  intro c behind hc
  cases hread : word α c with
  | ok value c' =>
    obtain ⟨hholds, rfl⟩ := word_eq_ok.mp hread
    refine .ok hread ?_ (word_eq_ok.mpr ⟨hholds.extend behind, rfl⟩)
    have hle := hholds.le
    rw [LittleEndian.length_encode] at hle
    exact hle
  | error e c' =>
    refine .short hread ?_
    unfold word readAt at hread
    dsimp only at hread
    cases hslice : sliceAt? c.data c.pos (LittleEndian.size α) with
    | some bytes =>
      rw [hslice] at hread
      cases hread
    | none =>
      rw [hslice] at hread
      cases hread
      exact ⟨_, _, rfl⟩

/-! ## Whole data -/

section Whole

variable {r : Reader α} {data : Array UInt8}

/-- What is read from data, or the failure to read from it, does not change with more bytes behind,
unless bytes are missing. -/
theorem SelfDelimiting.report_append (h : SelfDelimiting r)
    (hnot : ∀ e, r.answer data = .error e → ¬ e.IsTruncated) (behind : Array UInt8) :
    r.report (data ++ behind) = r.report data := by
  have hextend : Cursor.start (data ++ behind) = (Cursor.start data).extend behind := rfl
  unfold report
  cases h (Cursor.start data) behind (Nat.zero_le _) with
  | ok hread _ hmore =>
    rw [hextend, hmore, hread]
    rfl
  | failed hread hmore =>
    rw [hextend, hmore, hread]
    rfl
  | @short e c' hread htruncated =>
    have hanswer : r.answer data = .error e := by
      unfold answer report
      rw [hread]
    exact absurd htruncated (hnot e hanswer)

/-- What is read from all of some data is read from the front of it as well, or bytes are missing
there. -/
theorem SelfDelimiting.answer_front (h : SelfDelimiting r) {behind : Array UInt8} {a : α}
    (hread : r.answer (data ++ behind) = .ok a) :
    r.answer data = .ok a ∨ ∃ e, r.answer data = .error e ∧ e.IsTruncated := by
  by_cases hshort : ∃ e, r.answer data = .error e ∧ e.IsTruncated
  · exact .inr hshort
  · refine .inl ?_
    have hsame := h.report_append
      (fun e herror htruncated => hshort ⟨e, herror, htruncated⟩) behind
    rw [← hread]
    exact congrArg Prod.fst hsame.symm

end Whole

end Reader

end CilCodec
