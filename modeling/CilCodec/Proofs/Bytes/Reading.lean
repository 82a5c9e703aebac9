import CilCodec.Bytes.Cursor

/-!
# CilCodec.Proofs.Bytes.Reading

What a successful read says about the bytes, and which bytes make a read succeed.

`Holds data pos bytes` says that `bytes` stand in `data` at `pos`. `Cursor.Passes c bytes c'` says
that `c'` is `c` moved over `bytes`; only the notices of the two may differ otherwise.

Results:
1. `bind_eq_ok` and the lemmas beside it take a successful composite step apart, `bind_eq_error` one
   that failed; `bind_of_ok` and `bind_of_error` run one.
2. `word_eq_ok` and its siblings: each elementary reader, as an equivalence, so that the same lemma
   serves for what was read and for what can be read.
3. `repeated_eq_ok`, `untilEnd_eq_ok`: both loops are a run of `Steps`.
4. `word_eq_ok_numberAt`: a word again, by the number that stands at the position.
-/

namespace CilCodec

/-! ## Steps that succeed -/

section Success

variable {ε σ α β : Type}

theorem bind_eq_ok {x : EStateM ε σ α} {f : α → EStateM ε σ β} {s t : σ} {b : β} :
    (x >>= f) s = .ok b t ↔ ∃ a m, x s = .ok a m ∧ f a m = .ok b t := by
  show EStateM.bind x f s = _ ↔ _
  unfold EStateM.bind
  cases x s with
  | ok a m =>
    constructor
    · intro h
      exact ⟨a, m, rfl, h⟩
    · rintro ⟨_, _, hx, h⟩
      cases hx
      exact h
  | error e m => simp

theorem bind_of_ok {x : EStateM ε σ α} {f : α → EStateM ε σ β} {s m : σ} {a : α}
    (h : x s = .ok a m) : (x >>= f) s = f a m := by
  show EStateM.bind x f s = _
  unfold EStateM.bind
  rw [h]

theorem bind_of_error {x : EStateM ε σ α} {f : α → EStateM ε σ β} {s m : σ} {e : ε}
    (h : x s = .error e m) : (x >>= f) s = .error e m := by
  show EStateM.bind x f s = _
  unfold EStateM.bind
  rw [h]

theorem bind_eq_error {x : EStateM ε σ α} {f : α → EStateM ε σ β} {s t : σ} {e : ε} :
    (x >>= f) s = .error e t ↔
      x s = .error e t ∨ ∃ a m, x s = .ok a m ∧ f a m = .error e t := by
  show EStateM.bind x f s = _ ↔ _
  unfold EStateM.bind
  cases x s with
  | ok a m =>
    constructor
    · intro h
      exact .inr ⟨a, m, rfl, h⟩
    · rintro (hx | ⟨_, _, hx, h⟩)
      · cases hx
      · cases hx
        exact h
  | error e m => simp

theorem pure_eq_ok {s t : σ} {a b : α} :
    (pure a : EStateM ε σ α) s = .ok b t ↔ a = b ∧ s = t := by
  show EStateM.Result.ok a s = .ok b t ↔ _
  simp

theorem throw_ne_ok {e : ε} {s t : σ} {a : α} :
    ¬ (throw e : EStateM ε σ α) s = .ok a t := by
  intro h
  cases h

/-- A check that stops before the steps behind it. -/
theorem refuse_eq_ok {p : Prop} [Decidable p] {e : ε} {f : α → EStateM ε σ β}
    {x : EStateM ε σ β} {s t : σ} {b : β} :
    (if p then (throw e >>= f) else x) s = .ok b t ↔ ¬ p ∧ x s = .ok b t := by
  by_cases h : p
  · rw [if_pos h]
    constructor
    · intro hok
      obtain ⟨_, _, hthrow, _⟩ := bind_eq_ok.mp hok
      exact absurd hthrow throw_ne_ok
    · rintro ⟨hp, _⟩
      exact absurd h hp
  · rw [if_neg h]
    exact ⟨fun hok => ⟨h, hok⟩, fun ⟨_, hok⟩ => hok⟩

/-- One of two steps, and what both go on with. -/
theorem ite_bind_eq_ok {p : Prop} [Decidable p] {x y : EStateM ε σ α} {f : α → EStateM ε σ β}
    {s t : σ} {b : β} :
    (if p then x >>= f else y >>= f) s = .ok b t ↔
      ∃ a m, (if p then x else y) s = .ok a m ∧ f a m = .ok b t := by
  by_cases h : p
  · rw [if_pos h, if_pos h]
    exact bind_eq_ok
  · rw [if_neg h, if_neg h]
    exact bind_eq_ok

theorem map_eq_ok {x : Except ε α} {f : α → β} {b : β} :
    x.map f = .ok b ↔ ∃ a, x = .ok a ∧ f a = b := by
  cases x <;> simp [Except.map]

end Success

/-! ## Bytes at a place -/

/-- The bytes `bytes` stand in `data` at `pos`. -/
def Holds (data : Array UInt8) (pos : Nat) (bytes : List UInt8) : Prop :=
  ∃ before behind, data.toList = before ++ bytes ++ behind ∧ before.length = pos

theorem Holds.le {data : Array UInt8} {pos : Nat} {bytes : List UInt8}
    (h : Holds data pos bytes) : pos + bytes.length ≤ data.size := by
  obtain ⟨before, behind, hdata, rfl⟩ := h
  rw [← Array.length_toList, hdata]
  simp

theorem Holds.eq_slice {data : Array UInt8} {pos : Nat} {bytes : List UInt8}
    (h : Holds data pos bytes) : (data.toList.drop pos).take bytes.length = bytes := by
  obtain ⟨before, behind, hdata, rfl⟩ := h
  rw [hdata, List.append_assoc, List.drop_left, List.take_left]

theorem holds_iff {data : Array UInt8} {pos : Nat} {bytes : List UInt8} :
    Holds data pos bytes ↔
      pos + bytes.length ≤ data.size ∧ (data.toList.drop pos).take bytes.length = bytes := by
  constructor
  · intro h
    exact ⟨h.le, h.eq_slice⟩
  · rintro ⟨hle, hslice⟩
    have hrest := List.take_append_drop bytes.length (data.toList.drop pos)
    rw [hslice] at hrest
    refine ⟨data.toList.take pos, (data.toList.drop pos).drop bytes.length, ?_, ?_⟩
    · rw [List.append_assoc, hrest, List.take_append_drop]
    · rw [List.length_take, Array.length_toList]
      omega

theorem holds_nil_iff {data : Array UInt8} {pos : Nat} : Holds data pos [] ↔ pos ≤ data.size := by
  rw [holds_iff]
  simp

theorem holds_append {data : Array UInt8} {pos : Nat} {first second : List UInt8} :
    Holds data pos (first ++ second) ↔
      Holds data pos first ∧ Holds data (pos + first.length) second := by
  constructor
  · rintro ⟨before, behind, hdata, rfl⟩
    exact ⟨⟨before, second ++ behind, by simp [hdata], rfl⟩,
      ⟨before ++ first, behind, by simp [hdata], by simp⟩⟩
  · rintro ⟨⟨before, behind, hdata, rfl⟩, ⟨before', behind', hdata', hlength⟩⟩
    have hsplit : before ++ first ++ behind = before' ++ (second ++ behind') := by
      rw [← hdata, hdata', List.append_assoc]
    have hbefore : before ++ first = before' :=
      (List.append_inj hsplit (by simp [hlength])).1
    exact ⟨before, behind', by rw [hdata', ← hbefore]; simp, rfl⟩

theorem Holds.unique {data : Array UInt8} {pos : Nat} {first second : List UInt8}
    (h : Holds data pos first) (h' : Holds data pos second)
    (hlength : first.length = second.length) : first = second := by
  rw [← h.eq_slice, ← h'.eq_slice, hlength]

theorem size_extract_add {data : Array UInt8} {pos count : Nat} (h : pos + count ≤ data.size) :
    (data.extract pos (pos + count)).size = count := by
  rw [Array.size_extract, Nat.min_eq_left h, Nat.add_sub_cancel_left]

/-- Bytes at the position are the first of those that are left. -/
theorem Holds.rest_eq {c : Cursor} {bytes : List UInt8} (h : Holds c.data c.pos bytes) :
    ∃ behind, c.rest = bytes ++ behind := by
  obtain ⟨before, behind, hdata, hlength⟩ := h
  refine ⟨behind, ?_⟩
  rw [Cursor.rest, hdata, ← hlength, List.append_assoc, List.drop_left]

theorem Holds.getElem?_eq {data : Array UInt8} {pos : Nat} {byte : UInt8}
    (h : Holds data pos [byte]) : data[pos]? = some byte := by
  obtain ⟨before, behind, hdata, rfl⟩ := h
  rw [← Array.getElem?_toList, hdata]
  simp

/-- The bytes of a range stand where the range begins. -/
theorem holds_extract {data : Array UInt8} {pos count : Nat} (h : pos + count ≤ data.size) :
    Holds data pos (data.extract pos (pos + count)).toList := by
  rw [holds_iff]
  have hslice : (data.extract pos (pos + count)).toList = (data.toList.drop pos).take count := by
    simp [List.extract_eq_take_drop]
  rw [hslice, List.length_take, List.length_drop, Array.length_toList]
  rw [Nat.min_eq_left (by omega)]
  exact ⟨h, rfl⟩

theorem Holds.extract_eq {data : Array UInt8} {pos : Nat} {bytes : List UInt8}
    (h : Holds data pos bytes) : (data.extract pos (pos + bytes.length)).toList = bytes := by
  refine (holds_extract h.le).unique h ?_
  have := h.le
  simp
  omega

/-- What stands in front of a cut stands there before the cut as well. -/
theorem holds_extract_zero {data : Array UInt8} {cut pos : Nat} {bytes : List UInt8}
    (hcut : cut ≤ data.size) :
    Holds (data.extract 0 cut) pos bytes ↔ Holds data pos bytes ∧ pos + bytes.length ≤ cut := by
  have hslice : pos + bytes.length ≤ cut →
      ((data.extract 0 cut).toList.drop pos).take bytes.length =
        (data.toList.drop pos).take bytes.length := by
    intro hle
    have : (data.extract 0 cut).toList = data.toList.take cut := by
      simp [List.extract_eq_take_drop]
    rw [this, List.drop_take, List.take_take, Nat.min_eq_left (by omega)]
  rw [holds_iff, holds_iff, Array.size_extract, Nat.min_eq_left hcut]
  constructor
  · rintro ⟨hle, h⟩
    rw [hslice (by omega)] at h
    exact ⟨⟨by omega, h⟩, by omega⟩
  · rintro ⟨⟨_, h⟩, hle⟩
    rw [hslice hle]
    exact ⟨by omega, h⟩

theorem holds_toArray_append (bytes behind : List UInt8) :
    Holds (bytes ++ behind).toArray 0 bytes :=
  ⟨[], behind, by simp, rfl⟩

theorem sliceAt?_eq_some {data : Array UInt8} {pos count : Nat} {bytes : List UInt8} :
    sliceAt? data pos count = some bytes ↔ Holds data pos bytes ∧ bytes.length = count := by
  constructor
  · intro h
    have hlength := length_of_sliceAt? h
    unfold sliceAt? at h
    split at h
    next hle =>
      obtain rfl := Option.some.inj h
      exact ⟨holds_extract hle, hlength⟩
    next => cases h
  · rintro ⟨h, rfl⟩
    rw [sliceAt?, if_pos h.le, h.extract_eq]

/-! ## Elementary readers -/

namespace Reader

theorem position_eq_ok {c c' : Cursor} {pos : Nat} :
    position c = .ok pos c' ↔ c.pos = pos ∧ c = c' := by
  simp [position]

theorem note_eq_ok {n : Notice} {c c' : Cursor} {u : Unit} :
    note n c = .ok u c' ↔ { c with notices := c.notices.push n } = c' := by
  simp [note]

/-- An answer with a notice on some condition, which changes the notices at most. -/
theorem noted_eq {α : Type} {p : Prop} [Decidable p] (n : Notice) (a : α) (c : Cursor) :
    ∃ notices, (if p then (note n >>= fun _ => pure a) else pure a : Reader α) c =
      .ok a { c with notices := notices } := by
  by_cases h : p
  · rw [if_pos h]
    exact ⟨c.notices.push n, rfl⟩
  · rw [if_neg h]
    exact ⟨c.notices, rfl⟩

theorem ofResult_eq_ok {α : Type} {result : Except Error α} {c c' : Cursor} {a : α} :
    ofResult result c = .ok a c' ↔ result = .ok a ∧ c = c' := by
  cases result <;> simp [ofResult]

theorem ensure_eq_ok {count : Nat} {c c' : Cursor} {u : Unit} :
    ensure count c = .ok u c' ↔ count ≤ c.remaining ∧ c = c' := by
  unfold ensure
  split
  next h => simp [h]
  next h => simp [h]

theorem seek_eq_ok {pos : Nat} {c c' : Cursor} {u : Unit} :
    seek pos c = .ok u c' ↔ pos ≤ c.data.size ∧ { c with pos := pos } = c' := by
  unfold seek
  split
  next h => simp [h]
  next h => simp [h]

theorem advance_eq_ok {count : Nat} {c c' : Cursor} {u : Unit} :
    advance count c = .ok u c' ↔
      c.pos + count ≤ c.data.size ∧ { c with pos := c.pos + count } = c' := by
  unfold advance
  split
  next h => simp [h]
  next h => simp [h]

theorem take_eq_ok {count : Nat} {c c' : Cursor} {bytes : List UInt8} :
    take count c = .ok bytes c' ↔
      Holds c.data c.pos bytes ∧ bytes.length = count ∧ { c with pos := c.pos + count } = c' := by
  rw [← and_assoc, ← sliceAt?_eq_some]
  unfold take
  cases sliceAt? c.data c.pos count <;> simp

theorem peekByte_eq_ok {c c' : Cursor} {byte : UInt8} :
    peekByte c = .ok byte c' ↔ Holds c.data c.pos [byte] ∧ c = c' := by
  have hbyte : c.data[c.pos]? = some byte ↔ Holds c.data c.pos [byte] := by
    rw [holds_iff, ← Array.getElem?_toList, List.length_singleton]
    constructor
    · intro h
      obtain ⟨hlt, hget⟩ := List.getElem?_eq_some_iff.mp h
      rw [Array.length_toList] at hlt
      rw [List.drop_eq_getElem_cons (by simpa using hlt), hget]
      exact ⟨hlt, rfl⟩
    · rintro ⟨hle, hslice⟩
      have hlt : c.pos < c.data.toList.length := by simpa using Nat.lt_of_succ_le hle
      rw [List.drop_eq_getElem_cons hlt] at hslice
      rw [List.getElem?_eq_getElem hlt]
      simpa using hslice
  rw [← hbyte]
  unfold peekByte
  cases c.data[c.pos]? <;> simp

theorem word_eq_ok {α : Type} [LittleEndian α] {c c' : Cursor} {value : α} :
    word α c = .ok value c' ↔
      Holds c.data c.pos (LittleEndian.encode value) ∧
        { c with pos := c.pos + LittleEndian.size α } = c' := by
  unfold word readAt
  dsimp only
  cases hslice : sliceAt? c.data c.pos (LittleEndian.size α) with
  | none =>
    simp only [reduceCtorEq, false_iff, not_and]
    intro hholds
    have hfound := sliceAt?_eq_some.mpr ⟨hholds, LittleEndian.length_encode value⟩
    rw [hslice] at hfound
    cases hfound
  | some bytes =>
    obtain ⟨hholds, hlength⟩ := sliceAt?_eq_some.mp hslice
    simp only [EStateM.Result.ok.injEq]
    constructor
    · rintro ⟨rfl, rfl⟩
      rw [LittleEndian.encode_decode hlength]
      exact ⟨hholds, rfl⟩
    · rintro ⟨hvalue, rfl⟩
      have hbytes := hholds.unique hvalue (by rw [hlength, LittleEndian.length_encode])
      rw [hbytes]
      exact ⟨LittleEndian.decode_encode value, rfl⟩

theorem index_wide : index .wide = word UInt32 := by
  funext c
  unfold index word readIndexAt
  cases readAt UInt32 c.data c.pos <;> rfl

theorem index_narrow : index .narrow = word UInt16 >>= fun value => pure value.toUInt32 := by
  funext c
  cases hread : readAt UInt16 c.data c.pos with
  | ok answer =>
    have hword : word UInt16 c = .ok answer.1 { c with pos := answer.2 } := by
      rw [word, hread]
    rw [bind_of_ok hword, index, readIndexAt, hread]
    rfl
  | error e =>
    have hword : word UInt16 c = .error e c := by rw [word, hread]
    rw [bind_of_error hword, index, readIndexAt, hread]
    rfl

theorem answer_eq_ok {α : Type} {r : Reader α} {data : Array UInt8} {a : α} :
    r.answer data = .ok a ↔ ∃ c', r (Cursor.start data) = .ok a c' := by
  unfold answer report
  cases r (Cursor.start data) <;> simp

/-! ## Repetition -/

/-- `step` run one after the other from `c` to `c'`, with the answers in between. -/
inductive Steps {α : Type} (step : Reader α) : Cursor → List α → Cursor → Prop
  | nil (c : Cursor) : Steps step c [] c
  | cons {c middle c' : Cursor} {a : α} {as : List α} :
      step c = .ok a middle → Steps step middle as c' → Steps step c (a :: as) c'

theorem times_eq_ok {α : Type} {step : Reader α} {count : Nat} {done as : List α}
    {c c' : Cursor} :
    times step count done c = .ok as c' ↔
      ∃ more, as = done.reverse ++ more ∧ more.length = count ∧ Steps step c more c' := by
  induction count generalizing done c with
  | zero =>
    simp only [times, EStateM.Result.ok.injEq, List.length_eq_zero_iff]
    constructor
    · rintro ⟨rfl, rfl⟩
      exact ⟨[], by simp, rfl, .nil c⟩
    · rintro ⟨_, rfl, rfl, hsteps⟩
      cases hsteps
      exact ⟨by simp, rfl⟩
  | succ count ih =>
    unfold times
    constructor
    · intro h
      split at h
      next a middle hstep =>
        obtain ⟨more, rfl, rfl, hsteps⟩ := ih.mp h
        exact ⟨a :: more, by simp, rfl, .cons hstep hsteps⟩
      next => cases h
    · rintro ⟨_, rfl, hlength, hsteps⟩
      cases hsteps with
      | nil => cases hlength
      | @cons _ middle _ a more hstep hsteps =>
        rw [hstep]
        exact ih.mpr ⟨more, by simp, by simpa using hlength, hsteps⟩

theorem repeated_eq_ok {α : Type} {step : Reader α} {count : Nat} {as : List α} {c c' : Cursor} :
    repeated count step c = .ok as c' ↔ as.length = count ∧ Steps step c as c' := by
  unfold repeated
  rw [times_eq_ok]
  simp

section Collect

variable {α : Type} {step : Reader (Option α)} {limit : Nat} {done : List α} {c middle : Cursor}

theorem collect_of_none (h : step c = .ok none middle) :
    collect step (limit + 1) done c = .ok done.reverse middle := by
  rw [collect.eq_def]
  simp only [h]

theorem collect_of_some {a : α} (h : step c = .ok (some a) middle) :
    collect step (limit + 1) done c = collect step limit (a :: done) middle := by
  rw [collect.eq_def]
  simp only [h]

theorem collect_of_error {e : Error} (h : step c = .error e middle) :
    collect step (limit + 1) done c = .error e middle := by
  rw [collect.eq_def]
  simp only [h]

/-- Rounds that answer with something, and a last one that does not, are collected if the limit
allows for all of them. -/
theorem collect_of_steps {as : List α} {c' : Cursor} (h : Steps step c (as.map some) middle)
    (hend : step middle = .ok none c') (hlimit : as.length < limit) :
    collect step limit done c = .ok (done.reverse ++ as) c' := by
  induction as generalizing limit done c with
  | nil =>
    cases h
    obtain ⟨limit, rfl⟩ := Nat.exists_eq_add_of_lt hlimit
    rw [List.append_nil]
    exact collect_of_none hend
  | cons a as ih =>
    cases h with
    | cons hstep hsteps =>
      obtain ⟨limit, rfl⟩ := Nat.exists_eq_succ_of_ne_zero (Nat.ne_zero_of_lt hlimit)
      rw [collect_of_some hstep, ih hsteps (Nat.lt_of_succ_lt_succ hlimit)]
      simp

theorem untilNone_of_steps {as : List α} {c' : Cursor} (h : Steps step c (as.map some) middle)
    (hend : step middle = .ok none c') (hlimit : as.length ≤ c.remaining) :
    untilNone step c = .ok as c' :=
  collect_of_steps h hend (Nat.lt_succ_of_le hlimit)

end Collect

/-- A step that moves on whenever it succeeds, and not beyond the end. -/
def Moves {α : Type} (step : Reader α) : Prop :=
  ∀ (c c' : Cursor) (a : α), step c = .ok a c' →
    c'.data = c.data ∧ c.pos < c'.pos ∧ c'.pos ≤ c'.data.size

/-- One round of `untilEnd`. -/
def roundToEnd {α : Type} (step : Reader α) : Reader (Option α) := fun c =>
  if c.hasMore then (some <$> step) c else .ok none c

theorem roundToEnd_of_step {α : Type} {step : Reader α} {c middle : Cursor} {a : α}
    (hmore : c.pos < c.data.size) (h : step c = .ok a middle) :
    roundToEnd step c = .ok (some a) middle := by
  unfold roundToEnd
  rw [if_pos (by simpa [Cursor.hasMore] using hmore)]
  show EStateM.map some step c = _
  unfold EStateM.map
  rw [h]

theorem roundToEnd_of_error {α : Type} {step : Reader α} {c middle : Cursor} {e : Error}
    (hmore : c.pos < c.data.size) (h : step c = .error e middle) :
    roundToEnd step c = .error e middle := by
  unfold roundToEnd
  rw [if_pos (by simpa [Cursor.hasMore] using hmore)]
  show EStateM.map some step c = _
  unfold EStateM.map
  rw [h]

theorem roundToEnd_of_end {α : Type} {step : Reader α} {c : Cursor} (hend : c.data.size ≤ c.pos) :
    roundToEnd step c = .ok none c := by
  unfold roundToEnd
  rw [if_neg (by simpa [Cursor.hasMore] using hend)]

/-- The bound on the number of rounds is never what ends the loop, since each round takes a byte. -/
theorem collect_roundToEnd {α : Type} {step : Reader α} (hmoves : Moves step) {limit : Nat}
    {done as : List α} {c c' : Cursor} (hlimit : c.remaining < limit) :
    collect (roundToEnd step) limit done c = .ok as c' ↔
      ∃ more, as = done.reverse ++ more ∧ Steps step c more c' ∧ c'.data.size ≤ c'.pos := by
  induction limit generalizing done c with
  | zero => omega
  | succ limit ih =>
    by_cases hmore : c.pos < c.data.size
    · cases hstep : step c with
      | ok a middle =>
        -- fewer bytes are left, so the smaller bound is enough for the rounds to come
        obtain ⟨hdata, hlt, hle⟩ := hmoves _ _ _ hstep
        have hrest : middle.remaining < limit := by
          unfold Cursor.remaining at hlimit ⊢
          rw [hdata]
          omega
        rw [collect_of_some (roundToEnd_of_step hmore hstep), ih hrest]
        constructor
        · rintro ⟨more, rfl, hsteps, hend⟩
          exact ⟨a :: more, by simp, .cons hstep hsteps, hend⟩
        · rintro ⟨more, rfl, hsteps, hend⟩
          cases hsteps with
          | nil => omega
          | cons hstep' hsteps =>
            rw [hstep] at hstep'
            cases hstep'
            exact ⟨_, by simp, hsteps, hend⟩
      | error e middle =>
        rw [collect_of_error (roundToEnd_of_error hmore hstep)]
        constructor
        · intro h
          cases h
        · rintro ⟨more, rfl, hsteps, hend⟩
          cases hsteps with
          | nil => omega
          | cons hstep' _ =>
            rw [hstep] at hstep'
            cases hstep'
    · rw [collect_of_none (roundToEnd_of_end (Nat.not_lt.mp hmore))]
      constructor
      · intro h
        cases h
        exact ⟨[], by simp, .nil _, Nat.not_lt.mp hmore⟩
      · rintro ⟨more, rfl, hsteps, _⟩
        cases hsteps with
        | nil => simp
        -- a step from the end would have to move beyond it
        | cons hstep _ =>
          obtain ⟨hdata, hlt, hle⟩ := hmoves _ _ _ hstep
          rw [hdata] at hle
          omega

theorem untilEnd_eq_ok {α : Type} {step : Reader α} (hmoves : Moves step) {as : List α}
    {c c' : Cursor} :
    untilEnd step c = .ok as c' ↔ Steps step c as c' ∧ c'.data.size ≤ c'.pos := by
  show collect (roundToEnd step) (c.remaining + 1) [] c = _ ↔ _
  rw [collect_roundToEnd hmoves (Nat.lt_succ_self _)]
  simp

end Reader

/-! ## Moving over bytes -/

/-- `c'` is `c` moved over `bytes`, but for the notices. -/
structure Cursor.Passes (c : Cursor) (bytes : List UInt8) (c' : Cursor) : Prop where
  holds : Holds c.data c.pos bytes
  data_eq : c'.data = c.data
  pos_eq : c'.pos = c.pos + bytes.length

namespace Cursor.Passes

theorem trans {c middle c' : Cursor} {first second : List UInt8} (h : c.Passes first middle)
    (h' : middle.Passes second c') : c.Passes (first ++ second) c' where
  holds := by
    refine holds_append.mpr ⟨h.holds, ?_⟩
    rw [← h.data_eq, ← h.pos_eq]
    exact h'.holds
  data_eq := h'.data_eq.trans h.data_eq
  pos_eq := by rw [h'.pos_eq, h.pos_eq, List.length_append, Nat.add_assoc]

theorem of_holds {c : Cursor} {bytes : List UInt8} (h : Holds c.data c.pos bytes) :
    c.Passes bytes { c with pos := c.pos + bytes.length } :=
  ⟨h, rfl, rfl⟩

theorem of_word {α : Type} [LittleEndian α] {c : Cursor} {value : α}
    (h : Holds c.data c.pos (LittleEndian.encode value)) :
    c.Passes (LittleEndian.encode value) { c with pos := c.pos + LittleEndian.size α } :=
  ⟨h, rfl, by rw [LittleEndian.length_encode]⟩

/-- Notices do not count. -/
theorem with_notices {c c' : Cursor} {bytes : List UInt8} (h : c.Passes bytes c')
    (notices : Array Notice) : c.Passes bytes { c' with notices := notices } :=
  ⟨h.holds, h.data_eq, h.pos_eq⟩

/-- Notices do not count in front either. -/
theorem from_notices {c c' : Cursor} {bytes : List UInt8} {notices : Array Notice}
    (h : Passes { c with notices := notices } bytes c') : c.Passes bytes c' :=
  ⟨h.holds, h.data_eq, h.pos_eq⟩

theorem of_advance {c c' : Cursor} {count : Nat} {u : Unit}
    (h : Reader.advance count c = .ok u c') :
    ∃ bytes, bytes.length = count ∧ c.Passes bytes c' := by
  obtain ⟨hroom, rfl⟩ := Reader.advance_eq_ok.mp h
  have hlength : (c.data.extract c.pos (c.pos + count)).toList.length = count :=
    size_extract_add hroom
  refine ⟨_, hlength, holds_extract hroom, rfl, ?_⟩
  rw [hlength]

theorem remaining_lt {c c' : Cursor} {bytes : List UInt8} (h : c.Passes bytes c')
    (hbytes : 0 < bytes.length) : c'.remaining < c.remaining := by
  have hle := h.holds.le
  unfold Cursor.remaining
  rw [h.data_eq, h.pos_eq]
  omega

/-- The bytes behind those passed stand at the new position. -/
theorem holds_behind {c c' : Cursor} {first second : List UInt8} (h : c.Passes first c')
    (hholds : Holds c.data c.pos (first ++ second)) : Holds c'.data c'.pos second := by
  rw [h.data_eq, h.pos_eq]
  exact (holds_append.mp hholds).2

theorem pos_le {c c' : Cursor} {bytes : List UInt8} (h : c.Passes bytes c') :
    c'.pos ≤ c'.data.size := by
  rw [h.data_eq, h.pos_eq]
  exact h.holds.le

end Cursor.Passes

theorem Reader.advance_of_holds {c : Cursor} {bytes : List UInt8} (h : Holds c.data c.pos bytes) :
    advance bytes.length c = .ok () { c with pos := c.pos + bytes.length } :=
  advance_eq_ok.mpr ⟨h.le, rfl⟩

/-! ## Words in a row -/

theorem encode_byte (byte : UInt8) : LittleEndian.encode byte = [byte] := by
  show [UInt8.ofNat byte.toNat] = [byte]
  rw [UInt8.ofNat_toNat]

theorem Reader.word_of_byte {c : Cursor} {byte : UInt8} (h : Holds c.data c.pos [byte]) :
    word UInt8 c = .ok byte { c with pos := c.pos + 1 } :=
  word_eq_ok.mpr ⟨encode_byte byte ▸ h, rfl⟩

/-- Reading elements that are stored one by one, each as `form` says, is finding their forms in a
row. `P` is what elements need to be stored so. -/
theorem Reader.steps_eq_ok {α : Type} {step : Reader α} {form : α → List UInt8} {P : α → Prop}
    (hstep : ∀ (c c' : Cursor) (a : α), step c = .ok a c' ↔
      P a ∧ Holds c.data c.pos (form a) ∧ { c with pos := c.pos + (form a).length } = c')
    {as : List α} {c c' : Cursor} (hpos : c.pos ≤ c.data.size) :
    Steps step c as c' ↔
      (∀ a ∈ as, P a) ∧ Holds c.data c.pos (as.flatMap form) ∧
        { c with pos := c.pos + (as.flatMap form).length } = c' := by
  induction as generalizing c with
  | nil =>
    constructor
    · intro h
      cases h
      refine ⟨?_, holds_nil_iff.mpr hpos, rfl⟩
      intro a ha
      cases ha
    · rintro ⟨_, _, rfl⟩
      exact .nil c
  | cons a as ih =>
    rw [List.flatMap_cons, holds_append, List.length_append, List.forall_mem_cons]
    constructor
    · intro h
      cases h with
      | cons hread hsteps =>
        obtain ⟨hfirst, hholds, rfl⟩ := (hstep _ _ _).mp hread
        obtain ⟨hrest, hholds', rfl⟩ := (ih hholds.le).mp hsteps
        exact ⟨⟨hfirst, hrest⟩, ⟨hholds, hholds'⟩, by rw [Nat.add_assoc]⟩
    · rintro ⟨⟨hfirst, hrest⟩, ⟨hholds, hholds'⟩, rfl⟩
      refine .cons ((hstep _ _ _).mpr ⟨hfirst, hholds, rfl⟩)
        ((ih hholds.le).mpr ⟨hrest, hholds', ?_⟩)
      rw [Nat.add_assoc]

/-- Elements that are stored one by one, each as `form` says, are read one by one, if each is read
where it is stored. `P` is what elements need to be stored so. -/
theorem Reader.steps_of_holds {α β : Type} {step : Reader β} {form : α → List UInt8}
    {answer : α → β} {P : α → Prop}
    (hstep : ∀ (a : α) (c : Cursor), P a → Holds c.data c.pos (form a) →
      step c = .ok (answer a) { c with pos := c.pos + (form a).length })
    {as : List α} (h : ∀ a ∈ as, P a) {c : Cursor} (hbytes : Holds c.data c.pos (as.flatMap form)) :
    Steps step c (as.map answer) { c with pos := c.pos + (as.flatMap form).length } := by
  induction as generalizing c with
  | nil => exact .nil c
  | cons a as ih =>
    obtain ⟨hfirst, hrest⟩ := List.forall_mem_cons.mp h
    rw [List.flatMap_cons, holds_append] at hbytes
    rw [List.flatMap_cons, List.length_append, ← Nat.add_assoc]
    exact .cons (hstep a c hfirst hbytes.1)
      (ih hrest (c := { c with pos := c.pos + (form a).length }) hbytes.2)

section Words

variable {α : Type} [LittleEndian α]

theorem length_flatMap_encode (values : List α) :
    (values.flatMap LittleEndian.encode).length = LittleEndian.size α * values.length := by
  induction values with
  | nil => rfl
  | cons value values ih =>
    rw [List.flatMap_cons, List.length_append, ih, LittleEndian.length_encode, List.length_cons,
      Nat.mul_succ, Nat.add_comm]

theorem Reader.steps_word {values : List α} {c c' : Cursor} (hpos : c.pos ≤ c.data.size) :
    Steps (word α) c values c' ↔
      Holds c.data c.pos (values.flatMap LittleEndian.encode) ∧
        { c with pos := c.pos + (values.flatMap LittleEndian.encode).length } = c' := by
  have hword : ∀ (c c' : Cursor) (a : α), word α c = .ok a c' ↔
      True ∧ Holds c.data c.pos (LittleEndian.encode a) ∧
        { c with pos := c.pos + (LittleEndian.encode a).length } = c' := by
    intro c c' a
    rw [word_eq_ok, true_and, LittleEndian.length_encode]
  rw [steps_eq_ok hword hpos]
  exact and_iff_right fun _ _ => trivial

end Words

/-! ## Numbers at a place -/

/-- The number in the `count` bytes at `pos`, least significant first. -/
def numberAt (data : Array UInt8) (pos count : Nat) : Nat :=
  leValue ((data.toList.drop pos).take count)

theorem length_slice {data : Array UInt8} {pos count : Nat} (h : pos + count ≤ data.size) :
    ((data.toList.drop pos).take count).length = count := by
  rw [List.length_take, List.length_drop, Array.length_toList]
  omega

theorem numberAt_lt {data : Array UInt8} {pos count : Nat} (h : pos + count ≤ data.size) :
    numberAt data pos count < leBound count := by
  have hlt := leValue_lt ((data.toList.drop pos).take count)
  rwa [length_slice h] at hlt

/-- A number inside a run of bytes does not depend on where the run stands. -/
theorem Holds.numberAt_eq {data : Array UInt8} {pos : Nat} {bytes : List UInt8}
    (h : Holds data pos bytes) {i count : Nat} (hle : i + count ≤ bytes.length) :
    numberAt data (pos + i) count = leValue ((bytes.drop i).take count) := by
  obtain ⟨before, behind, hdata, rfl⟩ := h
  have hroom : count ≤ (bytes.drop i).length := by
    rw [List.length_drop]
    omega
  rw [numberAt, hdata, List.append_assoc, List.drop_length_add_append,
    List.drop_append_of_le_length (Nat.le_of_add_right_le hle),
    List.take_append_of_le_length hroom]

theorem Holds.numberAt_congr {data data' : Array UInt8} {pos pos' : Nat} {bytes : List UInt8}
    (h : Holds data pos bytes) (h' : Holds data' pos' bytes) {i count : Nat}
    (hle : i + count ≤ bytes.length) :
    numberAt data (pos + i) count = numberAt data' (pos' + i) count :=
  (h.numberAt_eq hle).trans (h'.numberAt_eq hle).symm

theorem Reader.word_eq_ok_numberAt {α : Type} [LittleEndian α] {c c' : Cursor} {value : α} :
    word α c = .ok value c' ↔
      c.pos + LittleEndian.size α ≤ c.data.size ∧
        LittleEndian.ofBits (numberAt c.data c.pos (LittleEndian.size α)) = value ∧
        { c with pos := c.pos + LittleEndian.size α } = c' := by
  rw [word_eq_ok, holds_iff, LittleEndian.length_encode, and_assoc]
  refine and_congr_right fun hle => and_congr_left fun _ => ?_
  constructor
  · intro hslice
    rw [numberAt, hslice]
    exact LittleEndian.decode_encode value
  · rintro rfl
    exact (LittleEndian.encode_decode (length_slice hle)).symm

end CilCodec
