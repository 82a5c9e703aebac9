import CilCodec.Proofs.Checked.Arithmetic

/-!
# CilCodec.Proofs.Checked.Bytes

Reading bytes, with every sum and every slice checked.

The definitions of this module are the elementary readers of `Bytes/Cursor` with their arithmetic
written out. `MatchesAt data low m r c` says that the checked step `m` does at the cursor `c` what
the reader `r` does, without a fault, and stops within `data` and not before `low`. It is what one
step preserves; `bind` and the lemmas beside it carry it through composite readers, and `times` and
`collect` through loops.
-/

namespace CilCodec

namespace Checked

variable {α β : Type}

/-! ## Elementary steps -/

def position : Checked Nat := ofReader Reader.position

def note (n : Notice) : Checked Unit := ofReader (Reader.note n)

def ofResult (result : Except Error α) : Checked α := ofReader (Reader.ofResult result)

/-- Neither the number of bytes left nor its comparison can fault: the difference saturates. -/
def ensure (count : Nat) : Checked Unit := ofReader (Reader.ensure count)

def peekByte : Checked UInt8 := ofReader Reader.peekByte

/-- Moves to a place without looking whether it is there. -/
def moveTo (pos : Nat) : Checked Unit := fun c => .ok () { c with pos := pos }

/-- The position behind the next `count` bytes. -/
def endAfter (count : Nat) : Checked Nat := do
  let c ← get
  match add? c.pos count with
  | some stop => if stop ≤ c.data.size then pure stop else refuse (.truncated c.pos count)
  | none => refuse (.truncated c.pos count)

/-- Moves over `count` bytes. -/
def advance (count : Nat) : Checked Unit := do
  moveTo (← endAfter count)

/-- Moves to a position, at most the end. -/
def seek (pos : Nat) : Checked Unit := do
  let c ← get
  if c.data.size < pos then
    let needed ← sub pos c.data.size
    refuse (.truncated c.pos needed)
  else
    moveTo pos

/-- Moves to the next multiple of `unit`. -/
def align (unit : Nat) : Checked Unit := do
  let passed ← rem (← position) unit
  let padding ← rem (← sub unit passed) unit
  advance padding

/-- The next `count` bytes. -/
def take (count : Nat) : Checked (List UInt8) := do
  let stop ← endAfter count
  let c ← get
  let bytes ← slice c.data c.pos stop
  moveTo stop
  return bytes.toList

/-- The next word. Its bytes are as many as its type takes, or the read fails like a short one. -/
def word (α : Type) [LittleEndian α] : Checked α := do
  let c ← get
  let stop ← endAfter (LittleEndian.size α)
  let bytes ← slice c.data c.pos stop
  if bytes.size = LittleEndian.size α then
    moveTo stop
    return LittleEndian.decode bytes.toList
  else
    refuse (.truncated c.pos (LittleEndian.size α))

/-- The next index, in a column of width `width`. -/
def index : IndexWidth → Checked UInt32
  | .narrow => do return (← word UInt16).toUInt32
  | .wide => word UInt32

/-! ## Loops -/

/-- Runs `step` for `count` words in a row. -/
def times (step : Checked α) : Nat → List α → Checked (List α)
  | 0, done => pure done.reverse
  | count + 1, done => do
    let a ← step
    times step count (a :: done)

def repeated (count : Nat) (step : Checked α) : Checked (List α) := times step count []

/-- Runs `step` until it answers with nothing. Going on after `limit` rounds is a fault. -/
def collect (step : Checked (Option α)) : Nat → List α → Checked (List α)
  | 0, _ => fault .endless
  | limit + 1, done => do
    match ← step with
    | none => pure done.reverse
    | some a => collect step limit (a :: done)

/-- Runs `step` until it answers with nothing, once for each byte left and once more at most. -/
def untilNone (step : Checked (Option α)) : Checked (List α) := fun c =>
  collect step (c.remaining + 1) [] c

/-- Runs `step` until no bytes are left. -/
def untilEnd (step : Checked α) : Checked (List α) :=
  untilNone fun c => if c.hasMore then (some <$> step) c else .ok none c

end Checked

/-! ## Steps that do not fault -/

/-- `c` is a place in `data` from `low` on, and a machine can hold the data. -/
structure Cursor.Within (data : Array UInt8) (low : Nat) (c : Cursor) : Prop where
  data_eq : c.data = data
  low_le : low ≤ c.pos
  inside : c.pos ≤ data.size
  small : data.size ≤ Buffer.limit

namespace Cursor.Within

variable {data : Array UInt8} {low : Nat} {c c' : Cursor}

theorem pos_le (h : c.Within data low) : c.pos ≤ c.data.size := h.data_eq ▸ h.inside

theorem of_leadsTo (h : c.Within data low) (hleads : c.LeadsTo c') : c'.Within data low where
  data_eq := hleads.data_eq.trans h.data_eq
  low_le := Nat.le_trans h.low_le hleads.pos_le
  inside := by
    have hinside := hleads.inside
    rwa [hleads.data_eq, h.data_eq] at hinside
  small := h.small

/-- A cursor is within its own data. -/
theorem here (hpos : c.pos ≤ c.data.size) (hsmall : c.data.size ≤ Buffer.limit) :
    c.Within c.data c.pos :=
  ⟨rfl, Nat.le_refl _, hpos, hsmall⟩

theorem start (hsmall : data.size ≤ Buffer.limit) : (Cursor.start data).Within data 0 :=
  ⟨rfl, Nat.le_refl _, Nat.zero_le _, hsmall⟩

theorem noted (h : c.Within data low) (notices : Array Notice) :
    Cursor.Within data low { c with notices := notices } :=
  ⟨h.data_eq, h.low_le, h.inside, h.small⟩

/-- From a place on, what lies in front of it does not matter. -/
theorem from_here (h : c.Within data low) : c.Within data c.pos :=
  { h with low_le := Nat.le_refl _ }

theorem weaken {low' : Nat} (h : c.Within data low) (hle : low' ≤ low) : c.Within data low' :=
  { h with low_le := Nat.le_trans hle h.low_le }

end Cursor.Within

namespace Checked

variable {α β : Type} {data : Array UInt8} {low : Nat} {c : Cursor}

/-- At `c`, the step `m` does what `r` does, without a fault, and stops within `data` from `low`
on. -/
structure MatchesAt (data : Array UInt8) (low : Nat) (m : Checked α) (r : Reader α)
    (c : Cursor) : Prop where
  runs : m c = ofReader r c
  stays : (Reader.stop (r c)).Within data low

/-- The same at every cursor within `data` from `low` on. -/
def Matches (data : Array UInt8) (low : Nat) (m : Checked α) (r : Reader α) : Prop :=
  ∀ c : Cursor, c.Within data low → MatchesAt data low m r c

theorem MatchesAt.of_ok {m : Checked α} {r : Reader α} {c' : Cursor} {a : α}
    (h : MatchesAt data low m r c) (hread : r c = .ok a c') : c'.Within data low := by
  have hstays := h.stays
  rw [hread] at hstays
  exact hstays

theorem MatchesAt.of_error {m : Checked α} {r : Reader α} {c' : Cursor} {e : Error}
    (h : MatchesAt data low m r c) (hread : r c = .error e c') : c'.Within data low := by
  have hstays := h.stays
  rw [hread] at hstays
  exact hstays

/-- A step that does what another one does, maybe from elsewhere. -/
theorem MatchesAt.congr {m m' : Checked α} {r r' : Reader α} {c' : Cursor}
    (h : MatchesAt data low m r c) (hm : m' c' = m c) (hr : r' c' = r c) :
    MatchesAt data low m' r' c' where
  runs := by
    rw [hm, h.runs, ofReader, ofReader, hr]
  stays := by
    rw [hr]
    exact h.stays

theorem MatchesAt.answers {m : Checked α} {r : Reader α} {c' : Cursor} {a : α}
    (hm : m c = .ok a c') (hr : r c = .ok a c') (hc' : c'.Within data low) :
    MatchesAt data low m r c where
  runs := hm.trans (ofReader_of_ok hr).symm
  stays := by
    rw [hr]
    exact hc'

theorem MatchesAt.refuses {m : Checked α} {r : Reader α} {c' : Cursor} {e : Error}
    (hm : m c = .error (.refused e) c') (hr : r c = .error e c') (hc' : c'.Within data low) :
    MatchesAt data low m r c where
  runs := hm.trans (ofReader_of_error hr).symm
  stays := by
    rw [hr]
    exact hc'

/-- What is known of the first step, its answer and the place it leads to, is at hand for the
second. -/
theorem MatchesAt.bind {m : Checked α} {r : Reader α} {f : α → Checked β} {g : α → Reader β}
    (h : MatchesAt data low m r c)
    (h' : ∀ a c', r c = .ok a c' → c'.Within data low → MatchesAt data low (f a) (g a) c') :
    MatchesAt data low (m >>= f) (r >>= g) c := by
  cases hread : r c with
  | ok a c' =>
    have hrest := h' a c' hread (h.of_ok hread)
    constructor
    · rw [bind_of_ok (h.runs.trans (ofReader_of_ok hread)), hrest.runs, ofReader, ofReader,
        bind_of_ok hread]
    · rw [bind_of_ok hread]
      exact hrest.stays
  | error e c' =>
    constructor
    · rw [bind_of_error (h.runs.trans (ofReader_of_error hread)),
        ofReader_of_error (bind_of_error hread)]
    · rw [bind_of_error hread]
      exact h.of_error hread

theorem MatchesAt.weaken {m : Checked α} {r : Reader α} {low' : Nat}
    (h : MatchesAt data low m r c) (hle : low' ≤ low) : MatchesAt data low' m r c :=
  ⟨h.runs, h.stays.weaken hle⟩

/-- A check that stops before the steps behind it. -/
theorem MatchesAt.guarded {m : Checked α} {r : Reader α} {p : Prop} [Decidable p] {e : Error}
    {f : β → Checked α} {g : β → Reader α} (hc : c.Within data low)
    (h : ¬ p → MatchesAt data low m r c) :
    MatchesAt data low (if p then (refuse e >>= f) else m) (if p then (throw e >>= g) else r)
      c := by
  by_cases hp : p
  · rw [if_pos hp, if_pos hp]
    exact ⟨rfl, hc⟩
  · rw [if_neg hp, if_neg hp]
    exact h hp

theorem MatchesAt.position {f : Nat → Checked α} {g : Nat → Reader α}
    (h : MatchesAt data low (f c.pos) (g c.pos) c) :
    MatchesAt data low (Checked.position >>= f) (Reader.position >>= g) c :=
  ⟨h.runs, h.stays⟩

namespace Matches

variable {m m' : Checked α} {r r' : Reader α}

theorem bind {f : α → Checked β} {g : α → Reader β} (h : Matches data low m r)
    (h' : ∀ a, Matches data low (f a) (g a)) : Matches data low (m >>= f) (r >>= g) :=
  fun c hc => (h c hc).bind fun a c' _ hc' => h' a c' hc'

theorem ite {p : Prop} [Decidable p] (h : p → Matches data low m r)
    (h' : ¬ p → Matches data low m' r') :
    Matches data low (if p then m else m') (if p then r else r') := by
  by_cases hp : p
  · rw [if_pos hp, if_pos hp]
    exact h hp
  · rw [if_neg hp, if_neg hp]
    exact h' hp

theorem guarded {p : Prop} [Decidable p] {e : Error} {f : β → Checked α} {g : β → Reader α}
    (h : ¬ p → Matches data low m r) :
    Matches data low (if p then (refuse e >>= f) else m) (if p then (throw e >>= g) else r) :=
  fun c hc => .guarded hc fun hp => h hp c hc

/-- What follows can count on not going back behind the position. -/
theorem position {f : Nat → Checked α} {g : Nat → Reader α}
    (h : ∀ pos, low ≤ pos → pos ≤ data.size → Matches data pos (f pos) (g pos)) :
    Matches data low (Checked.position >>= f) (Reader.position >>= g) := by
  intro c hc
  exact .position ((h c.pos hc.low_le hc.inside c hc.from_here).weaken hc.low_le)

end Matches

/-! ## Steps without arithmetic -/

theorem ofReader_matches {r : Reader α} (h : r.Advances) : Matches data low (ofReader r) r :=
  fun c hc => ⟨rfl, hc.of_leadsTo (h c hc.pos_le)⟩

theorem pure_matches (a : α) : Matches data low (pure a : Checked α) (pure a) :=
  ofReader_matches (Reader.pure_advances a)

theorem refuse_matches (e : Error) : Matches data low (refuse e : Checked α) (throw e) :=
  ofReader_matches (Reader.throw_advances e)

theorem note_matches (n : Notice) : Matches data low (note n) (Reader.note n) :=
  ofReader_matches (Reader.note_advances n)

theorem ofResult_matches (result : Except Error α) :
    Matches data low (ofResult result) (Reader.ofResult result) :=
  ofReader_matches (Reader.ofResult_advances result)

theorem ensure_matches (count : Nat) : Matches data low (ensure count) (Reader.ensure count) :=
  ofReader_matches (Reader.ensure_advances count)

theorem peekByte_matches : Matches data low peekByte Reader.peekByte := by
  intro c hc
  refine ⟨rfl, ?_⟩
  unfold Reader.peekByte
  split <;> exact hc

/-! ## Moving -/

theorem get_apply (c : Cursor) : (get : Checked Cursor) c = .ok c c := rfl

section Moving

variable {count : Nat}

/-- A sum that no word holds is beyond the end as well. -/
theorem endAfter_of_room (hc : c.Within data low) (hroom : c.pos + count ≤ data.size) :
    endAfter count c = .ok (c.pos + count) c := by
  have hlimit : Buffer.limit < usizeBound := by decide
  have hsum : add? c.pos count = some (c.pos + count) := if_pos (by have := hc.small; omega)
  have hdata : c.pos + count ≤ c.data.size := hc.data_eq ▸ hroom
  show (match add? c.pos count with
    | some stop => if stop ≤ c.data.size then pure stop else refuse (.truncated c.pos count)
    | none => refuse (.truncated c.pos count) : Checked Nat) c = _
  rw [hsum]
  simp only [if_pos hdata]
  rfl

theorem endAfter_of_short (hc : c.Within data low) (hshort : data.size < c.pos + count) :
    endAfter count c = .error (.refused (.truncated c.pos count)) c := by
  have hdata : ¬ c.pos + count ≤ c.data.size := hc.data_eq ▸ Nat.not_le.mpr hshort
  show (match add? c.pos count with
    | some stop => if stop ≤ c.data.size then pure stop else refuse (.truncated c.pos count)
    | none => refuse (.truncated c.pos count) : Checked Nat) c = _
  unfold add?
  by_cases hsum : c.pos + count < usizeBound
  · rw [if_pos hsum]
    simp only [if_neg hdata]
    rfl
  · rw [if_neg hsum]
    rfl

/-- Moving over bytes that are there. -/
theorem within_move (hc : c.Within data low) (hroom : c.pos + count ≤ data.size) :
    Cursor.Within data low { c with pos := c.pos + count } :=
  { hc with
    low_le := Nat.le_trans hc.low_le (Nat.le_add_right _ _)
    inside := hroom }

theorem advance_matches (count : Nat) :
    Matches data low (advance count) (Reader.advance count) := by
  intro c hc
  rcases Nat.lt_or_ge data.size (c.pos + count) with hshort | hroom
  · have hread : Reader.advance count c = .error (.truncated c.pos count) c :=
      if_neg (Nat.not_le.mpr (hc.data_eq ▸ hshort))
    exact .refuses (bind_of_error (endAfter_of_short hc hshort)) hread hc
  · have hread : Reader.advance count c = .ok () { c with pos := c.pos + count } :=
      if_pos (hc.data_eq ▸ hroom)
    exact .answers (bind_of_ok (endAfter_of_room hc hroom)) hread (within_move hc hroom)

theorem align_matches {unit : Nat} (hunit : 0 < unit) :
    Matches data low (align unit) (Reader.align unit) := by
  have hne : unit ≠ 0 := Nat.ne_of_gt hunit
  have hopen : Reader.align unit =
      Reader.position >>= fun pos => Reader.advance (Reader.gap pos unit) := rfl
  rw [hopen]
  refine Matches.position fun pos hlow hinside => ?_
  rw [rem_eq hne, pure_bind, sub_eq (Nat.le_of_lt (Nat.mod_lt pos hunit)), pure_bind, rem_eq hne,
    pure_bind]
  exact advance_matches _

theorem slice_of_room (hc : c.Within data low) (hroom : c.pos + count ≤ data.size) :
    slice c.data c.pos (c.pos + count) = pure (c.data.extract c.pos (c.pos + count)) :=
  slice_eq (Nat.le_add_right _ _) (hc.data_eq ▸ hroom)

theorem sliceAt?_of_room (hc : c.Within data low) (hroom : c.pos + count ≤ data.size) :
    sliceAt? c.data c.pos count = some (c.data.extract c.pos (c.pos + count)).toList :=
  if_pos (hc.data_eq ▸ hroom)

theorem sliceAt?_of_short (hc : c.Within data low) (hshort : data.size < c.pos + count) :
    sliceAt? c.data c.pos count = none :=
  if_neg (Nat.not_le.mpr (hc.data_eq ▸ hshort))

theorem take_matches (count : Nat) : Matches data low (take count) (Reader.take count) := by
  intro c hc
  rcases Nat.lt_or_ge data.size (c.pos + count) with hshort | hroom
  · have hread : Reader.take count c = .error (.truncated c.pos count) c := by
      rw [Reader.take, sliceAt?_of_short hc hshort]
    exact .refuses (bind_of_error (endAfter_of_short hc hshort)) hread hc
  · have hread : Reader.take count c = .ok (c.data.extract c.pos (c.pos + count)).toList
        { c with pos := c.pos + count } := by
      rw [Reader.take, sliceAt?_of_room hc hroom]
    refine .answers ((bind_of_ok (endAfter_of_room hc hroom)).trans ?_) hread
      (within_move hc hroom)
    show (slice c.data c.pos (c.pos + count) >>= _) c = _
    rw [slice_of_room hc hroom, pure_bind]
    rfl

theorem word_matches (α : Type) [LittleEndian α] :
    Matches data low (word α) (Reader.word α) := by
  intro c hc
  rcases Nat.lt_or_ge data.size (c.pos + LittleEndian.size α) with hshort | hroom
  · have hread : Reader.word α c = .error (.truncated c.pos (LittleEndian.size α)) c := by
      rw [Reader.word, readAt, sliceAt?_of_short hc hshort]
    exact .refuses ((bind_of_ok (get_apply c)).trans
      (bind_of_error (endAfter_of_short hc hshort))) hread hc
  · have hread : Reader.word α c =
        .ok (LittleEndian.decode (c.data.extract c.pos (c.pos + LittleEndian.size α)).toList)
          { c with pos := c.pos + LittleEndian.size α } := by
      rw [Reader.word, readAt, sliceAt?_of_room hc hroom]
    refine .answers ((bind_of_ok (get_apply c)).trans
      ((bind_of_ok (endAfter_of_room hc hroom)).trans ?_)) hread (within_move hc hroom)
    rw [slice_of_room hc hroom, pure_bind,
      if_pos (size_extract_add (hc.data_eq ▸ hroom))]
    rfl

theorem index_matches (width : IndexWidth) :
    Matches data low (index width) (Reader.index width) := by
  cases width with
  | wide =>
    rw [Reader.index_wide]
    exact word_matches UInt32
  | narrow =>
    rw [Reader.index_narrow]
    exact (word_matches UInt16).bind fun value => pure_matches _

theorem seek_of_inside {pos : Nat} (h : pos ≤ c.data.size) :
    seek pos c = .ok () { c with pos := pos } := by
  show (if c.data.size < pos then (sub pos c.data.size >>= fun needed =>
    refuse (.truncated c.pos needed)) else moveTo pos : Checked Unit) c = _
  rw [if_neg (Nat.not_lt.mpr h)]
  rfl

/-- A target beyond the end is refused with the distance to the end. -/
theorem seek_matches {pos : Nat} (hlow : low ≤ pos) :
    Matches data low (seek pos) (Reader.seek pos) := by
  intro c hc
  rcases Nat.lt_or_ge c.data.size pos with hbeyond | hinside
  · have hread : Reader.seek pos c = .error (.truncated c.pos (pos - c.data.size)) c :=
      if_neg (Nat.not_le.mpr hbeyond)
    refine .refuses ?_ hread hc
    show (if c.data.size < pos then (sub pos c.data.size >>= fun needed =>
      refuse (.truncated c.pos needed)) else moveTo pos : Checked Unit) c = _
    rw [if_pos hbeyond, sub_eq (Nat.le_of_lt hbeyond), pure_bind]
    rfl
  · have hread : Reader.seek pos c = .ok () { c with pos := pos } := if_pos hinside
    exact .answers (seek_of_inside hinside) hread
      { hc with low_le := hlow, inside := hc.data_eq ▸ hinside }

end Moving

/-! ## Runs of steps -/

section Loops

variable {step : Checked α} {read : Reader α}

/-- One round of a counted loop. -/
theorem times_succ (read : Reader α) (count : Nat) (done : List α) :
    Reader.times read (count + 1) done =
      read >>= fun a => Reader.times read count (a :: done) := by
  funext c
  show _ = EStateM.bind read _ c
  unfold EStateM.bind
  rw [Reader.times]
  cases read c <;> rfl

theorem times_matches (h : Matches data low step read) (count : Nat) (done : List α) :
    Matches data low (times step count done) (Reader.times read count done) := by
  induction count generalizing done with
  | zero => exact pure_matches done.reverse
  | succ count ih =>
    rw [times_succ]
    exact h.bind fun a => ih (a :: done)

theorem repeated_matches (h : Matches data low step read) (count : Nat) :
    Matches data low (repeated count step) (Reader.repeated count read) :=
  times_matches h count []

/-- Answers can be changed one by one as they are read, or all together behind the loop. -/
theorem times_map (f : α → β) (read : Reader α) (count : Nat) (done : List α) :
    Reader.times (f <$> read) count (done.map f) =
      List.map f <$> Reader.times read count done := by
  induction count generalizing done with
  | zero =>
    funext c
    show EStateM.Result.ok (done.map f).reverse c = .ok (done.reverse.map f) c
    rw [List.map_reverse]
  | succ count ih =>
    rw [times_succ, times_succ, bind_map_left, map_bind]
    congr 1
    funext a
    exact ih (a :: done)

theorem repeated_map (f : α → β) (count : Nat) (read : Reader α) :
    Reader.repeated count (f <$> read) = List.map f <$> Reader.repeated count read :=
  times_map f read count []

/-- A loop whose rounds each take a byte is over before its bound is. -/
theorem collect_matchesAt {step : Checked (Option α)} {read : Reader (Option α)}
    (h : Matches data low step read)
    (htakes : ∀ (c c' : Cursor) (a : α), c.Within data low → read c = .ok (some a) c' →
      c'.remaining < c.remaining)
    {limit : Nat} (done : List α) (hc : c.Within data low) (hlimit : c.remaining < limit) :
    MatchesAt data low (collect step limit done) (Reader.collect read limit done) c := by
  induction limit generalizing c done with
  | zero => exact absurd hlimit (Nat.not_lt_zero _)
  | succ limit ih =>
    have hopen : Reader.collect read (limit + 1) done =
        read >>= fun answer => match answer with
          | none => pure done.reverse
          | some a => Reader.collect read limit (a :: done) := by
      funext c
      show _ = EStateM.bind read _ c
      unfold EStateM.bind
      rw [Reader.collect]
      cases read c with
      | ok answer c' => cases answer <;> rfl
      | error e c' => rfl
    rw [hopen]
    refine (h c hc).bind fun answer c' hread hc' => ?_
    cases answer with
    | none => exact pure_matches _ c' hc'
    | some a =>
      have hless := htakes c c' a hc hread
      exact ih (a :: done) hc' (Nat.lt_of_lt_of_le hless (Nat.le_of_lt_succ hlimit))

theorem untilNone_matches {step : Checked (Option α)} {read : Reader (Option α)}
    (h : Matches data low step read)
    (htakes : ∀ (c c' : Cursor) (a : α), c.Within data low → read c = .ok (some a) c' →
      c'.remaining < c.remaining) :
    Matches data low (untilNone step) (Reader.untilNone read) := by
  intro c hc
  have hrun := collect_matchesAt h htakes [] hc (Nat.lt_succ_self c.remaining)
  exact ⟨hrun.runs, hrun.stays⟩

theorem untilEnd_matches (h : Matches data low step read) (hmoves : Reader.Moves read) :
    Matches data low (untilEnd step) (Reader.untilEnd read) := by
  have hsome : Matches data low (some <$> step) (some <$> read) := by
    rw [map_eq_pure_bind, map_eq_pure_bind]
    exact h.bind fun a => pure_matches (some a)
  refine untilNone_matches ?_ ?_
  · intro c hc
    by_cases hmore : c.hasMore
    · exact (hsome c hc).congr (if_pos hmore) (if_pos hmore)
    · exact (pure_matches none c hc).congr (if_neg hmore) (if_neg hmore)
  · intro c c' a hc hround
    by_cases hmore : c.hasMore
    · rw [if_pos hmore, map_eq_pure_bind] at hround
      obtain ⟨_, _, hread, hpure⟩ := bind_eq_ok.mp hround
      obtain ⟨_, rfl⟩ := pure_eq_ok.mp hpure
      obtain ⟨hdata, hlt, hle⟩ := hmoves _ _ _ hread
      unfold Cursor.remaining
      rw [hdata] at hle ⊢
      omega
    · rw [if_neg hmore] at hround
      cases hround

end Loops

end Checked

end CilCodec
