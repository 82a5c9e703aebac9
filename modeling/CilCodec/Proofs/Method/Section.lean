import CilCodec.Method.Section
import CilCodec.Proofs.Method.Handler

/-!
# CilCodec.Proofs.Method.Section

The grammar of method data sections (II.25.4.5), and reading and writing against it.

`StoredSection` is one section, `StoredSections` a chain of them: padding up to a multiple of four
bytes in front of each, and a flag on each but the last. Padding, sections that are no exception
tables, and the two bytes that a small header leaves unused can hold anything.

Results:
1. `sectionsReader_sound`, `sectionsReader_complete`: reading sections is finding a chain; the
   clauses read are those of its tables, in order.
2. `storedSection_written`, `storedSections_stored`: what is written for clauses is a section, and a
   chain of one.
-/

namespace CilCodec

open Reader LittleEndian

namespace MethodSection

/-! ## Grammar -/

/-- `StoredSection header clauses bytes`: a section with a given first word, taken apart, and given
clauses, of which it has none unless it is an exception table. -/
inductive StoredSection : Header → List ExceptionHandler → List UInt8 → Prop
  | table (word : UInt32) (clauses : List ExceptionHandler) :
      (Header.ofWord word).isTable = true →
      (Header.ofWord word).size =
        headerSize + clauses.length * ExceptionHandler.clauseSize (Header.ofWord word).isFat →
      (∀ h ∈ clauses, h.FitsIn (Header.ofWord word).isFat) →
      StoredSection (Header.ofWord word) clauses
        (encode word ++ clauses.flatMap (ExceptionHandler.stored (Header.ofWord word).isFat))
  | foreign (word : UInt32) (payload : List UInt8) :
      (Header.ofWord word).isTable = false →
      (Header.ofWord word).size = headerSize + payload.length →
      StoredSection (Header.ofWord word) [] (encode word ++ payload)

/-- `StoredSections pos sections bytes`: a chain that begins at `pos`, with the clauses of each of
its sections. -/
inductive StoredSections : Nat → List (List ExceptionHandler) → List UInt8 → Prop
  | last {pos : Nat} {header : Header} {clauses : List ExceptionHandler}
      {padding bytes : List UInt8} :
      padding.length = gap pos 4 → StoredSection header clauses bytes → header.hasMore = false →
      StoredSections pos [clauses] (padding ++ bytes)
  | more {pos : Nat} {header : Header} {clauses : List ExceptionHandler}
      {sections : List (List ExceptionHandler)} {padding bytes behind : List UInt8} :
      padding.length = gap pos 4 → StoredSection header clauses bytes → header.hasMore = true →
      StoredSections (pos + (padding ++ bytes).length) sections behind →
      StoredSections pos (clauses :: sections) (padding ++ bytes ++ behind)

theorem clauseSize_pos (isFat : Bool) : 0 < ExceptionHandler.clauseSize isFat := by
  cases isFat <;> decide

theorem length_flatMap_stored (isFat : Bool) (clauses : List ExceptionHandler) :
    (clauses.flatMap (ExceptionHandler.stored isFat)).length =
      clauses.length * ExceptionHandler.clauseSize isFat := by
  induction clauses with
  | nil => rw [List.flatMap_nil, List.length_nil, List.length_nil, Nat.zero_mul]
  | cons clause clauses ih =>
    rw [List.flatMap_cons, List.length_append, ih, ExceptionHandler.length_stored,
      List.length_cons, Nat.succ_mul, Nat.add_comm]

/-- A section takes its header at least. -/
theorem StoredSection.headerSize_le {header : Header} {clauses : List ExceptionHandler}
    {bytes : List UInt8} (h : StoredSection header clauses bytes) : headerSize ≤ bytes.length := by
  have hword : ∀ (word : UInt32) (behind : List UInt8),
      headerSize ≤ (encode word ++ behind).length := by
    intro word behind
    rw [List.length_append, length_encode]
    exact Nat.le_add_right _ _
  cases h with
  | table word clauses => exact hword word _
  | foreign word payload => exact hword word payload

theorem StoredSection.length_pos {header : Header} {clauses : List ExceptionHandler}
    {bytes : List UInt8} (h : StoredSection header clauses bytes) : 0 < bytes.length :=
  Nat.lt_of_lt_of_le (by decide) h.headerSize_le

theorem StoredSection.length_padded_pos {header : Header} {clauses : List ExceptionHandler}
    {bytes : List UInt8} (h : StoredSection header clauses bytes) (padding : List UInt8) :
    0 < (padding ++ bytes).length := by
  rw [List.length_append]
  exact Nat.lt_of_lt_of_le h.length_pos (Nat.le_add_left _ _)

/-! ## Reading a section -/

theorem sectionReader_sound {c c' : Cursor} {clauses : List ExceptionHandler} {hasMore : Bool}
    (h : sectionReader c = .ok (clauses, hasMore) c') :
    ∃ header padding bytes, padding.length = gap c.pos 4 ∧
      StoredSection header clauses bytes ∧ header.hasMore = hasMore ∧
      c.Passes (padding ++ bytes) c' := by
  unfold sectionReader at h
  obtain ⟨_, aligned, halign, h⟩ := bind_eq_ok.mp h
  obtain ⟨padding, hpadding, hskipped⟩ := Cursor.Passes.of_advance halign
  simp only [bind_eq_ok, position_eq_ok, word_eq_ok, refuse_eq_ok] at h
  obtain ⟨_, _, ⟨rfl, rfl⟩, word, _, ⟨hword, rfl⟩, hsize, h⟩ := h
  have hheader := hskipped.trans (Cursor.Passes.of_word hword)
  split at h
  next htable =>
    simp only [refuse_eq_ok, bind_eq_ok, ensure_eq_ok, repeated_eq_ok, pure_eq_ok] at h
    obtain ⟨hmod, _, _, ⟨_, rfl⟩, read, _, ⟨hlength, hsteps⟩, heq, rfl⟩ := h
    cases heq
    obtain ⟨hfits, hclauses, rfl⟩ := (steps_handlerReader hheader.pos_le).mp hsteps
    refine ⟨Header.ofWord word, padding, _, hpadding, .table word clauses htable ?_ hfits, rfl, ?_⟩
    · rw [hlength, Nat.div_mul_cancel (Nat.dvd_of_mod_eq_zero (Decidable.not_not.mp hmod))]
      exact (Nat.add_sub_cancel' (Nat.not_lt.mp hsize)).symm
    · rw [← List.append_assoc]
      exact hheader.trans (.of_holds hclauses)
  next htable =>
    simp only [bind_eq_ok, note_eq_ok, pure_eq_ok] at h
    obtain ⟨_, _, rfl, _, _, hadvance, heq, rfl⟩ := h
    cases heq
    obtain ⟨payload, hpayload, hpassed⟩ := Cursor.Passes.of_advance hadvance
    refine ⟨Header.ofWord word, padding, _, hpadding,
      .foreign word payload (Bool.eq_false_iff.mpr htable) ?_, rfl, ?_⟩
    · rw [hpayload]
      exact (Nat.add_sub_cancel' (Nat.not_lt.mp hsize)).symm
    · rw [← List.append_assoc]
      exact hheader.trans hpassed.from_notices

theorem sectionReader_complete {c : Cursor} {header : Header} {clauses : List ExceptionHandler}
    {padding bytes : List UInt8} (hpadding : padding.length = gap c.pos 4)
    (h : StoredSection header clauses bytes) (hholds : Holds c.data c.pos (padding ++ bytes)) :
    ∃ c', sectionReader c = .ok (clauses, header.hasMore) c' ∧ c.Passes (padding ++ bytes) c' := by
  obtain ⟨hpad, hbytes⟩ := holds_append.mp hholds
  have halign : align 4 c = .ok () { c with pos := c.pos + padding.length } := by
    show advance (gap c.pos 4) c = _
    rw [← hpadding]
    exact advance_of_holds hpad
  have hskipped := Cursor.Passes.of_holds hpad
  unfold sectionReader
  simp only [bind_eq_ok, position_eq_ok, word_eq_ok, refuse_eq_ok]
  cases h with
  | table word clauses htable hsize hfits =>
    obtain ⟨hword, hclauses⟩ := holds_append.mp hbytes
    rw [length_encode] at hclauses
    have hheader := hskipped.trans (Cursor.Passes.of_word hword)
    have hpassed := hheader.trans (Cursor.Passes.of_holds hclauses)
    rw [List.append_assoc] at hpassed
    have hpayload : (Header.ofWord word).payload =
        clauses.length * ExceptionHandler.clauseSize (Header.ofWord word).isFat := by
      unfold Header.payload
      rw [hsize, Nat.add_sub_cancel_left]
    have hroom := hclauses.le
    rw [length_flatMap_stored, ← hpayload] at hroom
    refine ⟨_, ⟨(), _, halign, _, _, ⟨rfl, rfl⟩, word, _, ⟨hword, rfl⟩, ?_, ?_⟩, hpassed⟩
    · exact Nat.not_lt.mpr (hsize ▸ Nat.le_add_right _ _)
    · rw [if_pos htable]
      simp only [refuse_eq_ok, bind_eq_ok, ensure_eq_ok, repeated_eq_ok]
      refine ⟨?_, (), _, ⟨Nat.le_sub_of_add_le' hroom, rfl⟩, clauses, _, ⟨?_,
        (steps_handlerReader hheader.pos_le).mpr ⟨hfits, hclauses, rfl⟩⟩, rfl⟩
      · rw [hpayload]
        exact not_not_intro (Nat.mul_mod_left _ _)
      · rw [hpayload, Nat.mul_div_cancel _ (clauseSize_pos _)]
  | foreign word payload htable hsize =>
    obtain ⟨hword, hbehind⟩ := holds_append.mp hbytes
    rw [length_encode] at hbehind
    have hheader := hskipped.trans (Cursor.Passes.of_word hword)
    have hpassed := (hheader.trans (Cursor.Passes.of_holds hbehind)).with_notices
      (c.notices.push (.foreignSection (Header.ofWord word).flags (Header.ofWord word).size))
    rw [List.append_assoc] at hpassed
    have hpayload : (Header.ofWord word).payload = payload.length := by
      unfold Header.payload
      rw [hsize, Nat.add_sub_cancel_left]
    refine ⟨_, ⟨(), _, halign, _, _, ⟨rfl, rfl⟩, word, _, ⟨hword, rfl⟩, ?_, ?_⟩, hpassed⟩
    · exact Nat.not_lt.mpr (hsize ▸ Nat.le_add_right _ _)
    · rw [if_neg (Bool.eq_false_iff.mp htable), hpayload]
      simp only [bind_eq_ok, note_eq_ok]
      exact ⟨(), _, rfl, (), _, advance_of_holds hbehind, rfl⟩

/-! ## Reading a chain -/

theorem chainReader_sound {config : Config} (hstrict : config.lenientSections = false)
    {limit : Nat} {done handlers : List ExceptionHandler} {c c' : Cursor}
    (hlimit : c.remaining < limit) (h : chainReader config limit done c = .ok handlers c') :
    ∃ sections bytes, c.Passes bytes c' ∧ StoredSections c.pos sections bytes ∧
      handlers = done ++ sections.flatten := by
  induction limit generalizing done c with
  | zero => exact absurd hlimit (Nat.not_lt_zero _)
  | succ limit ih =>
    rw [chainReader] at h
    split at h
    next clauses hasMore middle hread =>
      obtain ⟨header, padding, bytes, hpadding, hstored, hflag, hpassed⟩ :=
        sectionReader_sound hread
      split at h
      next hmore =>
        -- a section takes bytes, so the limit that the loop starts with is never reached
        have hless := hpassed.remaining_lt (hstored.length_padded_pos padding)
        obtain ⟨sections, behind, hpassed', hstored', rfl⟩ :=
          ih (Nat.lt_of_lt_of_le hless (Nat.le_of_lt_succ hlimit)) h
        rw [hpassed.pos_eq] at hstored'
        refine ⟨clauses :: sections, padding ++ bytes ++ behind, hpassed.trans hpassed',
          .more hpadding hstored (hflag.trans hmore) hstored', ?_⟩
        rw [List.flatten_cons, List.append_assoc]
      next hmore =>
        cases h
        refine ⟨[clauses], padding ++ bytes, hpassed,
          .last hpadding hstored (hflag.trans (Bool.eq_false_iff.mpr hmore)), ?_⟩
        rw [List.flatten_singleton]
    next =>
      rw [hstrict] at h
      cases h

theorem chainReader_complete (config : Config) {limit : Nat} {done : List ExceptionHandler}
    {c : Cursor} {sections : List (List ExceptionHandler)} {bytes : List UInt8}
    (hlimit : c.remaining < limit) (h : StoredSections c.pos sections bytes)
    (hholds : Holds c.data c.pos bytes) :
    ∃ c', chainReader config limit done c = .ok (done ++ sections.flatten) c' ∧
      c.Passes bytes c' := by
  induction limit generalizing done c sections bytes with
  | zero => exact absurd hlimit (Nat.not_lt_zero _)
  | succ limit ih =>
    rw [chainReader]
    cases h with
    | last hpadding hstored hflag =>
      obtain ⟨c', hread, hpassed⟩ := sectionReader_complete hpadding hstored hholds
      rw [hread, hflag]
      exact ⟨c', by rw [List.flatten_singleton]; rfl, hpassed⟩
    | @more _ header clauses sections padding bytes behind hpadding hstored hflag hrest =>
      obtain ⟨middle, hread, hpassed⟩ := sectionReader_complete hpadding hstored
        (holds_append.mp hholds).1
      have hless := hpassed.remaining_lt (hstored.length_padded_pos padding)
      rw [← hpassed.pos_eq] at hrest
      obtain ⟨c', hchain, hpassed'⟩ := @ih (done ++ clauses) _ _ _
        (Nat.lt_of_lt_of_le hless (Nat.le_of_lt_succ hlimit)) hrest
        (hpassed.holds_behind hholds)
      rw [hread, hflag]
      refine ⟨c', ?_, hpassed.trans hpassed'⟩
      rw [List.flatten_cons, ← List.append_assoc]
      exact hchain

/-- Reading sections finds a chain of them, unless malformed sections are tolerated. -/
theorem sectionsReader_sound {config : Config} (hstrict : config.lenientSections = false)
    {handlers : List ExceptionHandler} {c c' : Cursor} (h : reader config c = .ok handlers c') :
    ∃ sections bytes, c.Passes bytes c' ∧ StoredSections c.pos sections bytes ∧
      handlers = sections.flatten :=
  chainReader_sound hstrict (Nat.lt_succ_self _) h

/-- A chain of sections is read, whatever follows it. -/
theorem sectionsReader_complete (config : Config) {c : Cursor}
    {sections : List (List ExceptionHandler)} {bytes : List UInt8}
    (h : StoredSections c.pos sections bytes) (hholds : Holds c.data c.pos bytes) :
    ∃ c', reader config c = .ok sections.flatten c' ∧ c.Passes bytes c' :=
  chainReader_complete config (Nat.lt_succ_self _) h hholds

/-- The bytes of a chain tell its clauses. -/
theorem StoredSections.flatten_unique {pos : Nat}
    {sections sections' : List (List ExceptionHandler)} {bytes : List UInt8}
    (h : StoredSections pos sections bytes) (h' : StoredSections pos sections' bytes) :
    sections.flatten = sections'.flatten := by
  have hholds : Holds (List.replicate pos 0 ++ bytes).toArray pos bytes :=
    ⟨List.replicate pos 0, [], (List.append_nil _).symm, List.length_replicate⟩
  obtain ⟨c, hread, _⟩ := sectionsReader_complete Config.default (c := ⟨_, pos, #[]⟩) h hholds
  obtain ⟨c', hread', _⟩ := sectionsReader_complete Config.default (c := ⟨_, pos, #[]⟩) h' hholds
  exact (EStateM.Result.ok.inj (hread.symm.trans hread')).1

/-! ## Writing -/

/-- What is written for clauses behind `framed` bytes of a body: nothing for none. -/
def stored (framed : Nat) (handlers : List ExceptionHandler) : List UInt8 :=
  if handlers.isEmpty then []
  else
    List.replicate (gap framed 4) 0 ++ (encode (headerWord handlers) ++
      handlers.flatMap (ExceptionHandler.stored (isFatRequired handlers)))

/-- Zeros written up to a multiple of four, counted from where a body starts, are as many as are
skipped when the body stands at the front. -/
theorem gap_from (start framed : Nat) : Writer.gap start (start + framed) 4 = gap framed 4 := by
  unfold Writer.gap gap
  omega

theorem size_of_nonempty {handlers : List ExceptionHandler} (h : handlers.isEmpty = false) :
    size handlers =
      headerSize + handlers.length * ExceptionHandler.clauseSize (isFatRequired handlers) := by
  unfold size
  rw [h]
  rfl

/-- Written clauses take the padding in front of them and the bytes of their section. -/
theorem length_stored (framed : Nat) (handlers : List ExceptionHandler) :
    (stored framed handlers).length =
      if handlers.isEmpty then 0 else gap framed 4 + size handlers := by
  unfold MethodSection.stored
  cases hempty : handlers.isEmpty with
  | true => rfl
  | false =>
    rw [if_neg Bool.false_ne_true, if_neg Bool.false_ne_true, size_of_nonempty hempty]
    rw [List.length_append, List.length_append, List.length_replicate, length_encode,
      length_flatMap_stored]
    rfl

theorem check_eq_ok {handlers : List ExceptionHandler} {offset : Nat} :
    check handlers offset = .ok () ↔ size handlers ≤ fatLimit := by
  unfold check
  split
  next h =>
    constructor
    · intro hok
      cases hok
    · intro hle
      exact absurd h (Nat.not_lt.mpr hle)
  next h => exact ⟨fun _ => Nat.not_lt.mp h, fun _ => rfl⟩

theorem check_eq_error {handlers : List ExceptionHandler} {offset : Nat} {e : Error} :
    check handlers offset = .error e ↔
      fatLimit < size handlers ∧ .malformed (.sectionLimit handlers.length) offset = e := by
  unfold check
  split
  next h => rw [Except.error.injEq, and_iff_right h]
  next h =>
    constructor
    · intro hcheck
      cases hcheck
    · rintro ⟨hlimit, _⟩
      exact absurd hlimit h

theorem writer_eq {start framed : Nat} {handlers : List ExceptionHandler} {b : Buffer}
    (hsize : size handlers ≤ fatLimit) (hpos : b.pos = start + framed) :
    writer start handlers b = .ok () (b.append (stored framed handlers)) := by
  unfold writer stored
  cases handlers with
  | nil => exact Writer.pure_puts b
  | cons first rest =>
    simp only [List.isEmpty_cons, Bool.false_eq_true, if_false, bind_eq_ok, Writer.position_eq_ok,
      Writer.ofResult_eq_ok, Writer.word_eq_ok]
    refine ⟨_, _, ⟨rfl, rfl⟩, (), _, ⟨check_eq_ok.mpr hsize, rfl⟩, (), _, rfl, (), _, rfl, ?_⟩
    rw [hpos, gap_from, ← Buffer.append_append, ← Buffer.append_append]
    exact Writer.each_puts (fun handler _ => handler.writer_puts _) _

/-- Small clauses leave room for the size in one byte. -/
theorem size_le_of_small {handlers : List ExceptionHandler}
    (h : isFatRequired handlers = false) : size handlers ≤ smallLimit := by
  unfold size
  split
  next => exact Nat.zero_le _
  next =>
    rw [h]
    unfold isFatRequired at h
    exact Nat.not_lt.mp (of_decide_eq_false (Bool.or_eq_false_iff.mp h).1)

/-- The flags of what is written for clauses. -/
def writtenFlags (handlers : List ExceptionHandler) : UInt8 :=
  if isFatRequired handlers then 0x41 else 0x01

theorem testBit_writtenFlags (handlers : List ExceptionHandler) :
    (writtenFlags handlers).toNat.testBit tableBit = true ∧
      (writtenFlags handlers).toNat.testBit fatBit = isFatRequired handlers ∧
      (writtenFlags handlers).toNat.testBit moreBit = false := by
  unfold writtenFlags
  cases isFatRequired handlers <;> decide

theorem toNat_headerWord {handlers : List ExceptionHandler} (hsize : size handlers ≤ fatLimit) :
    (headerWord handlers).toNat = size handlers * 0x100 + (writtenFlags handlers).toNat := by
  have hlimit : size handlers ≤ 0xffffff := hsize
  unfold headerWord writtenFlags
  rw [UInt32.toNat_ofNat']
  cases isFatRequired handlers with
  | true =>
    show (size handlers * 0x100 + 0x41) % 4294967296 = size handlers * 0x100 + 0x41
    omega
  | false =>
    show (size handlers * 0x100 + 0x01) % 4294967296 = size handlers * 0x100 + 0x01
    omega

/-- The first word of what is written, taken apart. -/
theorem ofWord_headerWord {handlers : List ExceptionHandler} (hsize : size handlers ≤ fatLimit) :
    Header.ofWord (headerWord handlers) = ⟨writtenFlags handlers, size handlers⟩ := by
  have hflags : UInt8.ofNat ((headerWord handlers).toNat % 0x100) = writtenFlags handlers := by
    rw [toNat_headerWord hsize, Nat.mul_add_mod_self_right, Nat.mod_eq_of_lt
      (writtenFlags handlers).toNat_lt, UInt8.ofNat_toNat]
  have hquotient : (headerWord handlers).toNat / 0x100 = size handlers := by
    have hlt := (writtenFlags handlers).toNat_lt
    rw [toNat_headerWord hsize]
    omega
  unfold Header.ofWord
  dsimp only
  rw [hflags, hquotient]
  congr 1
  rw [(testBit_writtenFlags handlers).2.1]
  split
  next => rfl
  -- only one byte of the size counts in a small section, and more is not needed
  next hsmall =>
    have hle := size_le_of_small (Bool.eq_false_iff.mpr hsmall)
    exact Nat.mod_eq_of_lt (Nat.lt_succ_of_le hle)

theorem fitsIn_isFatRequired {handlers : List ExceptionHandler} :
    ∀ h ∈ handlers, h.FitsIn (isFatRequired handlers) := by
  intro h hmem
  cases hfat : isFatRequired handlers with
  | true => exact .inl rfl
  | false =>
    unfold isFatRequired at hfat
    have hsmall := List.any_eq_false.mp (Bool.or_eq_false_iff.mp hfat).2 h hmem
    exact .inr (Bool.eq_false_iff.mpr hsmall)

/-- What is written for clauses behind the padding is a section. -/
theorem storedSection_written {handlers : List ExceptionHandler}
    (hnonempty : handlers.isEmpty = false) (hsize : size handlers ≤ fatLimit) :
    StoredSection ⟨writtenFlags handlers, size handlers⟩ handlers
      (encode (headerWord handlers) ++
        handlers.flatMap (ExceptionHandler.stored (isFatRequired handlers))) := by
  have hheader := ofWord_headerWord hsize
  obtain ⟨htable, hfat, _⟩ := testBit_writtenFlags handlers
  have hisFat : (Header.ofWord (headerWord handlers)).isFat = isFatRequired handlers := by
    rw [hheader]
    exact hfat
  have hsection := StoredSection.table (headerWord handlers) handlers
    (by rw [hheader]; exact htable)
    (by rw [hisFat, hheader]; exact size_of_nonempty hnonempty)
    (by rw [hisFat]; exact fitsIn_isFatRequired)
  rw [hisFat, hheader] at hsection
  exact hsection

/-- What is written for clauses is a chain of one section. -/
theorem storedSections_stored {framed : Nat} {handlers : List ExceptionHandler}
    (hnonempty : handlers.isEmpty = false) (hsize : size handlers ≤ fatLimit) :
    StoredSections framed [handlers] (stored framed handlers) := by
  unfold stored
  rw [hnonempty, if_neg Bool.false_ne_true]
  exact .last List.length_replicate (storedSection_written hnonempty hsize)
    (testBit_writtenFlags handlers).2.2

end MethodSection

end CilCodec
