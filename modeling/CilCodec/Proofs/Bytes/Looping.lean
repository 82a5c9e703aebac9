import CilCodec.Proofs.Bytes.Reading

/-!
# CilCodec.Proofs.Bytes.Looping

How often loops run.

Readers that repeat a step carry a bound on the number of rounds, which a loop in a program has not.
A `Loop` here is such a loop: a test and a body. `loop.Runs s count r` says that from `s` the body
is run `count` times in all, after which the loop has come to `r`. The relation has no bound in it,
so that there is such a count says that the loop ends, and there is only one.

Results:
1. `Loop.exists_runs`: a loop ends if a number that starts out as `n` decreases with every round,
   and its body is run at most `n` times;
2. `Loop.Runs.eq_of_le`: a bound that this count does not exceed changes nothing;
3. `Loop.Consumes.exists_runs`: a loop whose rounds take `unit` bytes each, except for the last;
4. `Reader.untilEnd_runs`, `Reader.untilNone_runs`: the loops behind the two readers that repeat a
   step for as long as they can.
-/

namespace CilCodec

/-- A loop. Its states are of type `σ`, and what it comes to is of type `ρ`. -/
structure Loop (σ ρ : Type) where
  /-- What the loop comes to in a state in which its body is not run again. -/
  stops : σ → Option ρ
  /-- What one run of the body comes to: the end of the loop or the next state. -/
  body : σ → ρ ⊕ σ

namespace Loop

variable {σ ρ : Type} {loop : Loop σ ρ}

/-- `loop.Runs s count r`: from `s`, the body is run `count` times, and the loop comes to `r`. -/
inductive Runs (loop : Loop σ ρ) : σ → Nat → ρ → Prop
  | stops {s : σ} {r : ρ} : loop.stops s = some r → Runs loop s 0 r
  | leaves {s : σ} {r : ρ} : loop.stops s = none → loop.body s = .inl r → Runs loop s 1 r
  | again {s s' : σ} {count : Nat} {r : ρ} : loop.stops s = none → loop.body s = .inr s' →
      Runs loop s' count r → Runs loop s (count + 1) r

/-- The count and the result follow from the state. -/
theorem Runs.unique {s : σ} {count count' : Nat} {r r' : ρ} (h : loop.Runs s count r)
    (h' : loop.Runs s count' r') : count = count' ∧ r = r' := by
  induction h generalizing count' with
  | stops hstop =>
    cases h' with
    | stops hstop' => exact ⟨rfl, Option.some.inj (hstop.symm.trans hstop')⟩
    | leaves hmore => exact nomatch hstop.symm.trans hmore
    | again hmore => exact nomatch hstop.symm.trans hmore
  | leaves hmore hbody =>
    cases h' with
    | stops hstop => exact nomatch hstop.symm.trans hmore
    | leaves _ hbody' => exact ⟨rfl, Sum.inl.inj (hbody.symm.trans hbody')⟩
    | again _ hbody' => exact nomatch hbody.symm.trans hbody'
  | again hmore hbody _ ih =>
    cases h' with
    | stops hstop => exact nomatch hstop.symm.trans hmore
    | leaves _ hbody' => exact nomatch hbody.symm.trans hbody'
    | again _ hbody' hrest =>
      obtain rfl := Sum.inr.inj (hbody.symm.trans hbody')
      obtain ⟨rfl, rfl⟩ := ih hrest
      exact ⟨rfl, rfl⟩

/-- A loop ends if `left`, which is positive whenever the body is run, decreases with each round
that is followed by another, and its body is run at most `left` times. -/
theorem exists_runs (left : σ → Nat) (hpos : ∀ s, loop.stops s = none → 0 < left s)
    (hless : ∀ s s', loop.stops s = none → loop.body s = .inr s' → left s' < left s) (s : σ) :
    ∃ count r, count ≤ left s ∧ loop.Runs s count r := by
  generalize hleft : left s = bound
  induction bound using Nat.strongRecOn generalizing s with
  | ind bound ih =>
    cases hstop : loop.stops s with
    | some r => exact ⟨0, r, Nat.zero_le _, .stops hstop⟩
    | none =>
      cases hbody : loop.body s with
      | inl r => exact ⟨1, r, hleft ▸ hpos s hstop, .leaves hstop hbody⟩
      | inr s' =>
        have hlt := hless s s' hstop hbody
        rw [hleft] at hlt
        obtain ⟨count, r, hcount, hruns⟩ := ih _ hlt s' rfl
        exact ⟨count + 1, r, Nat.lt_of_le_of_lt hcount hlt, .again hstop hbody hruns⟩

/-- The loop with a bound on its rounds comes to what the loop does, if the bound allows for all of
them. -/
theorem Runs.eq_of_le (bounded : Nat → σ → ρ)
    (hstop : ∀ limit s r, loop.stops s = some r → bounded limit s = r)
    (hleaves : ∀ limit s r, loop.stops s = none → loop.body s = .inl r → bounded (limit + 1) s = r)
    (hagain : ∀ limit s s', loop.stops s = none → loop.body s = .inr s' →
      bounded (limit + 1) s = bounded limit s')
    {s : σ} {count limit : Nat} {r : ρ} (h : loop.Runs s count r) (hlimit : count ≤ limit) :
    bounded limit s = r := by
  induction h generalizing limit with
  | stops hend => exact hstop limit _ _ hend
  | leaves hmore hbody =>
    obtain ⟨limit, rfl⟩ := Nat.exists_eq_add_of_le' hlimit
    exact hleaves limit _ _ hmore hbody
  | again hmore hbody _ ih =>
    obtain ⟨limit, rfl⟩ := Nat.exists_eq_add_of_le' (Nat.le_of_add_left_le hlimit)
    rw [hagain limit _ _ hmore hbody]
    exact ih (Nat.le_of_succ_le_succ hlimit)

/-! ## Loops over bytes -/

section Bytes

variable {α : Type} {loop : Loop (List α × Cursor) ρ} {unit : Nat}

/-- Each round that is followed by another leaves `unit` bytes behind at least, and stays in the
data. -/
def Consumes (loop : Loop (List α × Cursor) ρ) (unit : Nat) : Prop :=
  ∀ s s', loop.stops s = none → loop.body s = .inr s' →
    s'.2.data = s.2.data ∧ s.2.pos + unit ≤ s'.2.pos ∧ s'.2.pos ≤ s'.2.data.size

theorem Consumes.remaining_le (h : loop.Consumes unit) {s s' : List α × Cursor}
    (hstop : loop.stops s = none) (hbody : loop.body s = .inr s') :
    s'.2.remaining + unit ≤ s.2.remaining := by
  obtain ⟨hdata, hpos, hinside⟩ := h s s' hstop hbody
  unfold Cursor.remaining
  rw [← hdata]
  omega

/-- A loop whose rounds take `unit` bytes is run once for each of these that is left, and once
more. -/
theorem Consumes.exists_runs (h : loop.Consumes unit) (hunit : 0 < unit) (s : List α × Cursor) :
    ∃ count r, count ≤ s.2.remaining / unit + 1 ∧ loop.Runs s count r := by
  refine Loop.exists_runs (fun s => s.2.remaining / unit + 1) (fun _ _ => Nat.succ_pos _) ?_ s
  intro s s' hstop hbody
  have hle : (s'.2.remaining + unit) / unit ≤ s.2.remaining / unit :=
    Nat.div_le_div_right (h.remaining_le hstop hbody)
  rw [Nat.add_div_right _ hunit] at hle
  exact Nat.succ_le_succ hle

end Bytes

end Loop

namespace Reader

variable {α : Type}

/-- The loop that runs `step` as long as bytes are left. -/
def whileMore (step : Reader α) :
    Loop (List α × Cursor) (EStateM.Result Error Cursor (List α)) where
  stops s := if s.2.hasMore then none else some (.ok s.1 s.2)
  body s :=
    match step s.2 with
    | .ok a c => .inr (s.1 ++ [a], c)
    | .error e c => .inl (.error e c)

/-- The loop that runs `step` as long as it answers with something. -/
def whileSome (step : Reader (Option α)) :
    Loop (List α × Cursor) (EStateM.Result Error Cursor (List α)) where
  stops _ := none
  body s :=
    match step s.2 with
    | .ok (some a) c => .inr (s.1 ++ [a], c)
    | .ok none c => .inl (.ok s.1 c)
    | .error e c => .inl (.error e c)

section Rounds

variable {step : Reader α} {optional : Reader (Option α)} {s s' : List α × Cursor}
  {r : EStateM.Result Error Cursor (List α)}

theorem whileMore_stops_eq_none : (whileMore step).stops s = none ↔ s.2.pos < s.2.data.size := by
  simp [whileMore, Cursor.hasMore]

theorem whileMore_stops_eq_some :
    (whileMore step).stops s = some r ↔ s.2.data.size ≤ s.2.pos ∧ .ok s.1 s.2 = r := by
  simp [whileMore, Cursor.hasMore]

theorem whileMore_body_eq_again :
    (whileMore step).body s = .inr s' ↔ ∃ a, step s.2 = .ok a s'.2 ∧ s.1 ++ [a] = s'.1 := by
  simp only [whileMore]
  cases step s.2 <;> simp [Prod.ext_iff, and_assoc, and_comm]

theorem whileMore_body_eq_leaves :
    (whileMore step).body s = .inl r ↔ ∃ e c, step s.2 = .error e c ∧ .error e c = r := by
  simp only [whileMore]
  cases step s.2 <;> simp [and_assoc]

theorem whileSome_body_eq_again :
    (whileSome optional).body s = .inr s' ↔
      ∃ a, optional s.2 = .ok (some a) s'.2 ∧ s.1 ++ [a] = s'.1 := by
  simp only [whileSome]
  rcases optional s.2 with ⟨_ | a, c⟩ | ⟨e, c⟩ <;> simp [Prod.ext_iff, and_assoc, and_comm]

theorem whileSome_body_eq_leaves :
    (whileSome optional).body s = .inl r ↔
      (∃ c, optional s.2 = .ok none c ∧ .ok s.1 c = r) ∨
        ∃ e c, optional s.2 = .error e c ∧ .error e c = r := by
  simp only [whileSome]
  rcases optional s.2 with ⟨_ | a, c⟩ | ⟨e, c⟩ <;> simp [and_assoc]

end Rounds

theorem Moves.whileMore_consumes {step : Reader α} (h : Moves step) :
    (whileMore step).Consumes 1 := by
  intro s s' _ hbody
  obtain ⟨a, hstep, _⟩ := whileMore_body_eq_again.mp hbody
  exact h _ _ _ hstep

/-- `untilEnd` comes to what its loop comes to, and there is a round for each byte at most. -/
theorem untilEnd_runs {step : Reader α} (hmoves : Moves step) (c : Cursor) :
    ∃ count, count ≤ c.remaining ∧ (whileMore step).Runs ([], c) count (untilEnd step c) := by
  obtain ⟨count, r, hcount, hruns⟩ := Loop.exists_runs (fun s => s.2.remaining)
    (fun s hmore => Nat.sub_pos_of_lt (whileMore_stops_eq_none.mp hmore))
    (fun s s' hmore hbody => hmoves.whileMore_consumes.remaining_le hmore hbody) ([], c)
  have hbounded : collect (roundToEnd step) (c.remaining + 1) [] c = r := by
    refine hruns.eq_of_le (fun limit s => collect (roundToEnd step) limit s.1.reverse s.2)
      (fun limit s r hstop => ?_) (fun limit s r hmore hbody => ?_)
      (fun limit s s' hmore hbody => ?_) (Nat.le_succ_of_le hcount)
    · obtain ⟨hend, rfl⟩ := whileMore_stops_eq_some.mp hstop
      cases limit with
      | zero => exact congrArg (EStateM.Result.ok · s.2) (List.reverse_reverse s.1)
      | succ limit =>
        rw [collect_of_none (roundToEnd_of_end hend), List.reverse_reverse]
    · obtain ⟨e, middle, hstep, rfl⟩ := whileMore_body_eq_leaves.mp hbody
      exact collect_of_error (roundToEnd_of_error (whileMore_stops_eq_none.mp hmore) hstep)
    · obtain ⟨a, hstep, hdone⟩ := whileMore_body_eq_again.mp hbody
      rw [collect_of_some (roundToEnd_of_step (whileMore_stops_eq_none.mp hmore) hstep), ← hdone,
        List.reverse_concat]
  rw [← hbounded] at hruns
  exact ⟨count, hcount, hruns⟩

/-- `untilNone` comes to what its loop comes to, and there is a round for each `unit` bytes at most,
and one more. -/
theorem untilNone_runs {step : Reader (Option α)} {unit : Nat}
    (hconsumes : (whileSome step).Consumes unit) (hunit : 0 < unit) (c : Cursor) :
    ∃ count, count ≤ c.remaining / unit + 1 ∧
      (whileSome step).Runs ([], c) count (untilNone step c) := by
  obtain ⟨count, r, hcount, hruns⟩ := hconsumes.exists_runs hunit ([], c)
  have hlimit : count ≤ c.remaining + 1 :=
    Nat.le_trans hcount (Nat.succ_le_succ (Nat.div_le_self _ _))
  have hbounded : collect step (c.remaining + 1) [] c = r := by
    refine hruns.eq_of_le (fun limit s => collect step limit s.1.reverse s.2)
      (fun _ _ _ hstop => ?_) (fun limit s r _ hbody => ?_) (fun limit s s' _ hbody => ?_) hlimit
    · cases hstop
    · rcases whileSome_body_eq_leaves.mp hbody with ⟨middle, hstep, rfl⟩ | ⟨e, middle, hstep, rfl⟩
      · rw [collect_of_none hstep, List.reverse_reverse]
      · exact collect_of_error hstep
    · obtain ⟨a, hstep, hdone⟩ := whileSome_body_eq_again.mp hbody
      rw [collect_of_some hstep, ← hdone, List.reverse_concat]
  rw [← hbounded] at hruns
  exact ⟨count, hcount, hruns⟩

end Reader

end CilCodec
