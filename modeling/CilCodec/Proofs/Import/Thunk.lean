import CilCodec.Import.Thunk
import CilCodec.Proofs.Bytes.Writing

/-!
# CilCodec.Proofs.Import.Thunk

Imports against their thunks, one by one and in lookup tables (II.25.3.1).

`StandsFor width raw entry` says what a thunk means apart from `decode`: an import by ordinal is the
low 16 bits of a thunk with the highest bit set, and one by name is all of a thunk without it. Thunks
of 64 bits have room for addresses with bit 31 set. Such an address is read, but `HasThunk` leaves it
out at either width.

Results:
1. `ImportEntry.decode_eq_some_iff`, `ImportEntry.encode_eq_ok_iff`: what is read of a thunk, and
   which imports have one;
2. `ImportEntry.rewrites_iff_unflagged`: which thunks are written again for what was read of them;
3. `ImportEntry.lookupTable_round_trip`: a table is read back up to its zero, with anything in front
   of it and behind it.
-/

namespace CilCodec

namespace ThunkWidth

/-- The bytes of a thunk. -/
def stored : ThunkWidth → UInt64 → List UInt8
  | pe32, raw => LittleEndian.encode raw.toUInt32
  | pe32Plus, raw => LittleEndian.encode raw

@[simp] theorem length_stored (width : ThunkWidth) (raw : UInt64) :
    (width.stored raw).length = width.bytes := by
  cases width with
  | pe32 => exact LittleEndian.length_encode raw.toUInt32
  | pe32Plus => exact LittleEndian.length_encode raw

theorem holds_iff_lt {width : ThunkWidth} {raw : UInt64} :
    width.holds raw = true ↔ raw.toNat < 2 * width.ordinalFlag :=
  decide_eq_true_iff

/-- The flag stands above the 16 bits of an ordinal. -/
theorem ordinalFlag_mod (width : ThunkWidth) : width.ordinalFlag % 0x10000 = 0 := by
  cases width <;> decide

theorem le_ordinalFlag (width : ThunkWidth) : 0x80000000 ≤ width.ordinalFlag := by
  cases width <;> decide

theorem ordinalFlag_le (width : ThunkWidth) : width.ordinalFlag ≤ 0x8000000000000000 := by
  cases width <;> decide

end ThunkWidth

namespace ImportEntry

/-- A thunk stands for an import. -/
inductive StandsFor (width : ThunkWidth) (raw : UInt64) : ImportEntry → Prop
  | ordinal {number : UInt16} (flagged : width.ordinalFlag ≤ raw.toNat)
      (low_bits : number.toNat = raw.toNat % 0x10000) : StandsFor width raw (.ordinal number)
  | hintName {rva : UInt32} (nonzero : rva ≠ 0) (unflagged : rva.toNat < width.ordinalFlag)
      (whole : rva.toNat = raw.toNat) : StandsFor width raw (.hintName rva)

/-- Imports that have a thunk: those by ordinal, and those by name with an address that is not zero
and has bit 31 clear. -/
def HasThunk : ImportEntry → Prop
  | ordinal _ => True
  | hintName rva => rva ≠ 0 ∧ rva.toNat < 0x80000000

/-- The thunk of an import that has one. -/
def thunk (width : ThunkWidth) : ImportEntry → UInt64
  | ordinal number => UInt64.ofNat (width.ordinalFlag + number.toNat)
  | hintName rva => rva.toUInt64

/-- What is left of a thunk when the import read of it is written: the flag and the low 16 bits of
one by ordinal, and all of one by name. -/
def kept (width : ThunkWidth) (raw : UInt64) : ImportEntry → UInt64
  | ordinal _ => UInt64.ofNat (width.ordinalFlag + raw.toNat % 0x10000)
  | hintName _ => raw

variable {width : ThunkWidth} {raw : UInt64} {entry : ImportEntry}

/-! ## What a thunk stands for -/

/-- The low bits of a thunk are those of what the flag leaves of it. -/
theorem toNat_ofNat_sub_flag {n : Nat} (h : width.ordinalFlag ≤ n) :
    (UInt16.ofNat (n - width.ordinalFlag)).toNat = n % 0x10000 := by
  have hflag := width.ordinalFlag_mod
  rw [UInt16.toNat_ofNat']
  omega

theorem standsFor_hintName (hzero : raw ≠ 0) (hunflagged : raw.toNat < width.ordinalFlag)
    (hsmall : raw.toNat ≤ 0xffffffff) :
    StandsFor width raw (.hintName (UInt32.ofNat raw.toNat)) := by
  have hwhole : (UInt32.ofNat raw.toNat).toNat = raw.toNat := by
    rw [UInt32.toNat_ofNat']
    exact Nat.mod_eq_of_lt (Nat.lt_succ_of_le hsmall)
  refine .hintName ?_ (hwhole.symm ▸ hunflagged) hwhole
  intro hrva
  rw [hrva] at hwhole
  exact hzero (UInt64.toNat_inj.mp hwhole.symm)

theorem standsFor_of_decode (h : decode raw width = .ok (some entry)) :
    width.holds raw ∧ StandsFor width raw entry := by
  unfold decode at h
  split at h
  next => cases h
  next hroom =>
    have hholds : width.holds raw = true := by simpa using hroom
    split at h
    next => cases h
    next hzero =>
      split at h
      next hflag =>
        obtain rfl := Option.some.inj (Except.ok.inj h)
        exact ⟨hholds, .ordinal hflag (toNat_ofNat_sub_flag hflag)⟩
      next hflag =>
        split at h
        next hsmall =>
          obtain rfl := Option.some.inj (Except.ok.inj h)
          exact ⟨hholds, standsFor_hintName hzero (Nat.not_le.mp hflag) hsmall⟩
        next => cases h

theorem decode_of_standsFor (hholds : width.holds raw) (h : StandsFor width raw entry) :
    decode raw width = .ok (some entry) := by
  have hroom : ¬ (!width.holds raw) = true := by simp [hholds]
  rw [decode, if_neg hroom]
  cases h with
  | @ordinal number hflag hlow =>
    have hzero : raw ≠ 0 := by
      rintro rfl
      exact absurd (Nat.le_trans width.le_ordinalFlag hflag) (by decide)
    rw [if_neg hzero, if_pos hflag,
      UInt16.toNat_inj.mp ((toNat_ofNat_sub_flag hflag).trans hlow.symm)]
  | @hintName rva hrva hunflagged hwhole =>
    have hzero : raw ≠ 0 := by
      rintro rfl
      exact hrva (UInt32.toNat_inj.mp hwhole)
    have hsmall : raw.toNat ≤ 0xffffffff := hwhole ▸ Nat.le_of_lt_succ rva.toNat_lt
    rw [hwhole] at hunflagged
    rw [if_neg hzero, if_neg (Nat.not_le.mpr hunflagged), if_pos hsmall, ← hwhole,
      UInt32.ofNat_toNat]

theorem decode_eq_some_iff :
    decode raw width = .ok (some entry) ↔ width.holds raw ∧ StandsFor width raw entry :=
  ⟨standsFor_of_decode, fun h => decode_of_standsFor h.1 h.2⟩

theorem encode_eq_ok_iff :
    entry.encode width = .ok raw ↔ entry.HasThunk ∧ raw = entry.thunk width := by
  cases entry with
  | ordinal number =>
    rw [encode, Except.ok.injEq]
    exact ⟨fun h => ⟨trivial, h.symm⟩, fun h => h.2.symm⟩
  | hintName rva =>
    unfold encode HasThunk thunk
    dsimp only
    split
    next hflagged =>
      constructor
      · intro h
        cases h
      · rintro ⟨⟨_, hclear⟩, _⟩
        exact absurd hflagged (Nat.not_le.mpr hclear)
    next hclear =>
      split
      next hzero =>
        constructor
        · intro h
          cases h
        · rintro ⟨⟨hrva, _⟩, _⟩
          exact absurd hzero hrva
      next hrva =>
        rw [Except.ok.injEq]
        exact ⟨fun h => ⟨⟨hrva, Nat.not_le.mp hclear⟩, h.symm⟩, fun h => h.2.symm⟩

theorem toNat_thunk_ordinal (width : ThunkWidth) (number : UInt16) :
    (thunk width (.ordinal number)).toNat = width.ordinalFlag + number.toNat := by
  have := number.toNat_lt
  have := width.ordinalFlag_le
  rw [thunk, UInt64.toNat_ofNat']
  exact Nat.mod_eq_of_lt (by omega)

/-- The thunk of an import stands for it, and is at most the flag and the greatest ordinal. -/
theorem thunk_standsFor (h : entry.HasThunk) :
    StandsFor width (entry.thunk width) entry ∧
      (entry.thunk width).toNat ≤ width.ordinalFlag + 0xffff := by
  cases entry with
  | ordinal number =>
    have hvalue := toNat_thunk_ordinal width number
    have hnumber := Nat.le_of_lt_succ number.toNat_lt
    have hlow : (thunk width (.ordinal number)).toNat % 0x10000 = number.toNat := by
      rw [hvalue, Nat.add_mod, width.ordinalFlag_mod, Nat.zero_add, Nat.mod_mod]
      exact Nat.mod_eq_of_lt number.toNat_lt
    refine ⟨.ordinal ?_ hlow.symm, ?_⟩
    · exact hvalue ▸ Nat.le_add_right _ _
    · exact hvalue ▸ Nat.add_le_add_left hnumber _
  | hintName rva =>
    have hvalue : (thunk width (.hintName rva)).toNat = rva.toNat := UInt32.toNat_toUInt64 rva
    have hunflagged := Nat.lt_of_lt_of_le h.2 width.le_ordinalFlag
    refine ⟨.hintName h.1 hunflagged hvalue.symm, ?_⟩
    exact hvalue ▸ Nat.le_trans (Nat.le_of_lt hunflagged) (Nat.le_add_right _ _)

theorem holds_thunk (h : entry.HasThunk) : width.holds (entry.thunk width) := by
  have hlow := width.le_ordinalFlag
  have hle := (@thunk_standsFor width entry h).2
  exact ThunkWidth.holds_iff_lt.mpr (by omega)

theorem decode_thunk (h : entry.HasThunk) :
    decode (entry.thunk width) width = .ok (some entry) :=
  decode_eq_some_iff.mpr ⟨holds_thunk h, (thunk_standsFor h).1⟩

/-! ## Thunks that are written again -/

theorem thunk_eq_kept (h : StandsFor width raw entry) :
    entry.thunk width = kept width raw entry := by
  cases h with
  | ordinal _ hlow => rw [thunk, kept, hlow]
  | @hintName rva _ _ hwhole =>
    exact UInt64.toNat_inj.mp ((UInt32.toNat_toUInt64 rva).trans hwhole)

/-- The addresses that are read and have no thunk are those with bit 31 set, for which only wide
thunks have room. -/
theorem hasThunk_iff_of_standsFor (h : StandsFor width raw entry) :
    entry.HasThunk ↔
      ¬ (width = .pe32Plus ∧ 0x80000000 ≤ raw.toNat ∧ raw.toNat ≤ 0xffffffff) := by
  cases h with
  | ordinal hflag _ =>
    refine iff_of_true trivial ?_
    rintro ⟨rfl, _, hsmall⟩
    exact absurd (Nat.le_trans hflag hsmall) (by decide)
  | @hintName rva hrva hunflagged hwhole =>
    constructor
    · rintro ⟨_, hclear⟩ ⟨_, hset, _⟩
      omega
    · intro hclear
      refine ⟨hrva, Nat.not_le.mp fun hset => hclear ?_⟩
      cases width with
      | pe32 => exact absurd hset (Nat.not_le.mpr hunflagged)
      | pe32Plus => exact ⟨rfl, hwhole ▸ hset, hwhole ▸ Nat.le_of_lt_succ rva.toNat_lt⟩

theorem encode_of_flagged {rva : UInt32} (h : 0x80000000 ≤ rva.toNat) :
    (hintName rva).encode width = .error (.invalidImport (.flaggedRva rva)) :=
  if_pos h

/-- What is read of a thunk is written as the same thunk if it is an import by name, and as the flag
and the low 16 bits if it is one by ordinal, and this reads back as the import; all but wide thunks
with bit 31 as their highest bit, which are read as an address that is refused in writing. -/
theorem rewrites_iff_unflagged (h : decode raw width = .ok (some entry)) :
    ((entry.encode width = .ok (kept width raw entry) ∧
        decode (kept width raw entry) width = .ok (some entry)) ↔
      ¬ (width = .pe32Plus ∧ 0x80000000 ≤ raw.toNat ∧ raw.toNat ≤ 0xffffffff)) ∧
    (width = .pe32Plus ∧ 0x80000000 ≤ raw.toNat ∧ raw.toNat ≤ 0xffffffff →
      entry = .hintName raw.toUInt32 ∧
        entry.encode width = .error (.invalidImport (.flaggedRva raw.toUInt32))) := by
  obtain ⟨_, hstands⟩ := decode_eq_some_iff.mp h
  have hkept := thunk_eq_kept hstands
  constructor
  · rw [← hasThunk_iff_of_standsFor hstands, ← hkept]
    constructor
    · rintro ⟨hencode, _⟩
      exact (encode_eq_ok_iff.mp hencode).1
    · intro hthunk
      exact ⟨encode_eq_ok_iff.mpr ⟨hthunk, rfl⟩, decode_thunk hthunk⟩
  · rintro ⟨rfl, hset, hsmall⟩
    cases hstands with
    | ordinal hflag _ => exact absurd (Nat.le_trans hflag hsmall) (by decide)
    | @hintName rva _ _ hwhole =>
      have hrva : rva = raw.toUInt32 := by
        apply UInt32.toNat_inj.mp
        rw [UInt64.toNat_toUInt32, Nat.mod_eq_of_lt (Nat.lt_succ_of_le hsmall), hwhole]
      rw [← hrva]
      exact ⟨rfl, encode_of_flagged (hwhole ▸ hset)⟩

/-- A wide thunk with nothing but bit 31, and a narrow one by ordinal with a reserved bit. -/
theorem rewrites_iff_unflagged_bit31 :
    (decode 0x80000000 .pe32Plus = .ok (some (.hintName 0x80000000)) ∧
      encode (.hintName 0x80000000) .pe32Plus =
        .error (.invalidImport (.flaggedRva 0x80000000))) ∧
    decode 0x80010007 .pe32 = .ok (some (.ordinal 7)) ∧
      encode (.ordinal 7) .pe32 = .ok (kept .pe32 0x80010007 (.ordinal 7)) ∧
      kept .pe32 0x80010007 (.ordinal 7) = 0x80000007 := by
  have hwide : decode 0x80000000 .pe32Plus = .ok (some (.hintName 0x80000000)) := by rfl
  have hnarrow : decode 0x80010007 .pe32 = .ok (some (.ordinal 7)) := by rfl
  have hrefused := (rewrites_iff_unflagged hwide).2 ⟨rfl, by decide, by decide⟩
  have hwritten := (rewrites_iff_unflagged hnarrow).1.mpr fun hbad => nomatch hbad.1
  exact ⟨⟨hwide, hrefused.2⟩, hnarrow, hwritten.1, by decide⟩

/-! ## Thunks in place -/

theorem writeThunk_puts (width : ThunkWidth) (raw : UInt64) :
    Writer.Puts (writeThunk raw width) (width.stored raw) := by
  cases width with
  | pe32 => exact Writer.word_puts raw.toUInt32
  | pe32Plus => exact Writer.word_puts raw

theorem readThunk_of_holds {c : Cursor} (hfits : width.holds raw)
    (h : Holds c.data c.pos (width.stored raw)) :
    readThunk width c = .ok raw { c with pos := c.pos + width.bytes } := by
  cases width with
  | pe32 =>
    have hsmall : raw.toUInt32.toUInt64 = raw := by
      apply UInt64.toNat_inj.mp
      rw [UInt32.toNat_toUInt64, UInt64.toNat_toUInt32]
      exact Nat.mod_eq_of_lt (ThunkWidth.holds_iff_lt.mp hfits)
    rw [readThunk, map_eq_pure_bind, bind_of_ok (Reader.word_eq_ok.mpr ⟨h, rfl⟩), hsmall]
    rfl
  | pe32Plus => exact Reader.word_eq_ok.mpr ⟨h, rfl⟩

theorem passes_of_readThunk {c c' : Cursor} (h : readThunk width c = .ok raw c') :
    c.Passes (width.stored raw) c' := by
  cases width with
  | pe32 =>
    rw [readThunk, map_eq_pure_bind] at h
    obtain ⟨value, middle, hword, hpure⟩ := bind_eq_ok.mp h
    obtain ⟨rfl, rfl⟩ := pure_eq_ok.mp hpure
    obtain ⟨hvalue, rfl⟩ := Reader.word_eq_ok.mp hword
    have hsame : value.toUInt64.toUInt32 = value := UInt32.toUInt32_toUInt64 value
    exact .of_word (hsame.symm ▸ hvalue)
  | pe32Plus =>
    obtain ⟨hvalue, rfl⟩ := Reader.word_eq_ok.mp h
    exact .of_word hvalue

/-- What is made of a thunk behind it does not move. -/
theorem passes_of_reader {c c' : Cursor} {answer : Option ImportEntry}
    (h : reader width c = .ok answer c') : ∃ raw, c.Passes (width.stored raw) c' := by
  obtain ⟨raw, middle, hraw, h⟩ := bind_eq_ok.mp h
  have hpassed := passes_of_readThunk hraw
  cases hnotice : notice? raw width with
  | none =>
    rw [hnotice] at h
    obtain ⟨_, rfl⟩ := Reader.ofResult_eq_ok.mp h
    exact ⟨raw, hpassed⟩
  | some n =>
    rw [hnotice] at h
    obtain ⟨_, noted, hnote, h⟩ := bind_eq_ok.mp h
    obtain rfl := Reader.note_eq_ok.mp hnote
    obtain ⟨_, rfl⟩ := Reader.ofResult_eq_ok.mp h
    exact ⟨raw, hpassed.with_notices _⟩

/-- Only thunks with bits above the ordinal deserve a notice. -/
theorem notice?_eq_none (h : raw.toNat ≤ width.ordinalFlag + 0xffff) :
    notice? raw width = none := by
  rw [notice?, decide_eq_false (Nat.not_lt.mpr h), Bool.and_false]
  rfl

theorem reader_of_holds {c : Cursor} (h : entry.HasThunk)
    (hbytes : Holds c.data c.pos (width.stored (entry.thunk width))) :
    reader width c = .ok (some entry) { c with pos := c.pos + width.bytes } := by
  rw [reader, bind_of_ok (readThunk_of_holds (holds_thunk h) hbytes),
    notice?_eq_none (thunk_standsFor h).2, decode_thunk h]
  rfl

theorem reader_of_zero {c : Cursor} (hbytes : Holds c.data c.pos (width.stored 0)) :
    reader width c = .ok none { c with pos := c.pos + width.bytes } := by
  have hfits : width.holds 0 := by cases width <;> rfl
  rw [reader, bind_of_ok (readThunk_of_holds hfits hbytes), notice?_eq_none (Nat.zero_le _)]
  cases width <;> rfl

/-! ## Tables -/

/-- The bytes of imports: their thunks, one behind the other. -/
def storedEntries (width : ThunkWidth) (entries : List ImportEntry) : List UInt8 :=
  entries.flatMap fun entry => width.stored (entry.thunk width)

/-- The bytes of a lookup table: those of its imports, and a zero. -/
def storedTable (width : ThunkWidth) (entries : List ImportEntry) : List UInt8 :=
  storedEntries width entries ++ width.stored 0

variable {entries : List ImportEntry}

theorem length_storedEntries (width : ThunkWidth) (entries : List ImportEntry) :
    (storedEntries width entries).length = entries.length * width.bytes := by
  induction entries with
  | nil => exact (Nat.zero_mul _).symm
  | cons entry entries ih =>
    rw [storedEntries, List.flatMap_cons, List.length_append, ThunkWidth.length_stored,
      ← storedEntries, ih, List.length_cons, Nat.succ_mul, Nat.add_comm]

theorem length_storedTable (width : ThunkWidth) (entries : List ImportEntry) :
    (storedTable width entries).length = (entries.length + 1) * width.bytes := by
  rw [storedTable, List.length_append, length_storedEntries, ThunkWidth.length_stored, Nat.succ_mul]

theorem writer_puts (h : entry.HasThunk) :
    Writer.Puts (writer width entry) (width.stored (entry.thunk width)) := by
  intro b
  have hencode : entry.encode width = .ok (entry.thunk width) := encode_eq_ok_iff.mpr ⟨h, rfl⟩
  rw [writer, bind_of_ok (Writer.ofResult_eq_ok.mpr ⟨hencode, rfl⟩)]
  exact writeThunk_puts width _ b

theorem tableWriter_puts (h : ∀ entry ∈ entries, entry.HasThunk) :
    Writer.Puts (tableWriter width entries) (storedTable width entries) :=
  (Writer.each_puts fun entry hentry => writer_puts (h entry hentry)).andThen
    (writeThunk_puts width 0)

/-- Imports are read one after the other from where they are stored. -/
theorem steps_reader (h : ∀ entry ∈ entries, entry.HasThunk) {c : Cursor}
    (hbytes : Holds c.data c.pos (storedEntries width entries)) :
    Reader.Steps (reader width) c (entries.map some)
      { c with pos := c.pos + (storedEntries width entries).length } := by
  refine Reader.steps_of_holds (fun entry c hthunk hstored => ?_) h hbytes
  rw [ThunkWidth.length_stored]
  exact reader_of_holds hthunk hstored

/-- A table is read from where it is stored, up to the place behind its zero. There is a byte at
least for each import, so that the loop goes on for all of them. -/
theorem tableReader_of_holds (h : ∀ entry ∈ entries, entry.HasThunk) {c : Cursor}
    (hbytes : Holds c.data c.pos (storedTable width entries)) :
    tableReader width c = .ok entries { c with pos := c.pos + (storedTable width entries).length } := by
  obtain ⟨hentries, hzero⟩ := holds_append.mp hbytes
  have hend := reader_of_zero
    (c := { c with pos := c.pos + (storedEntries width entries).length }) hzero
  have hlength : entries.length ≤ c.remaining := by
    have hroom := hentries.le
    have hone : 1 ≤ width.bytes := by cases width <;> decide
    rw [length_storedEntries] at hroom
    have := Nat.le_mul_of_pos_right entries.length hone
    unfold Cursor.remaining
    omega
  rw [storedTable, List.length_append, ThunkWidth.length_stored, ← Nat.add_assoc]
  exact Reader.untilNone_of_steps (steps_reader h hentries) hend hlength

/-- Imports that can each be written are written as a table of one thunk for each and a zero, at the
end of whatever is there, and are read back from it with anything behind it, without a notice. The
reader does not take the thunk of an import for the end of the table. -/
theorem lookupTable_round_trip (width : ThunkWidth) (entries : List ImportEntry)
    (h : ∀ entry ∈ entries, ∃ raw, entry.encode width = .ok raw) (out : Buffer) :
    ∃ bytes : List UInt8,
      bytes.length = (entries.length + 1) * width.bytes ∧
      tableWriter width entries out = .ok () (out.append bytes) ∧
      (∀ (behind : List UInt8) (notices : Array Notice),
        let data := (out.append (bytes ++ behind)).bytes
        tableReader width ⟨data, out.pos, notices⟩ =
          .ok entries ⟨data, (out.append bytes).pos, notices⟩) ∧
      ∀ (entry : ImportEntry) (raw : UInt64), entry.encode width = .ok raw →
        decode raw width = .ok (some entry) ∧
          ∀ c : Cursor, Holds c.data c.pos (width.stored raw) →
            reader width c = .ok (some entry) { c with pos := c.pos + width.bytes } := by
  have hthunks : ∀ entry ∈ entries, entry.HasThunk := by
    intro entry hentry
    obtain ⟨raw, hraw⟩ := h entry hentry
    exact (encode_eq_ok_iff.mp hraw).1
  refine ⟨storedTable width entries, length_storedTable width entries,
    tableWriter_puts hthunks out, ?_, ?_⟩
  · intro behind notices data
    have hbytes : Holds data out.pos (storedTable width entries) :=
      ⟨out.bytes.toList, behind, by simp [data], Array.length_toList⟩
    rw [Buffer.pos_append]
    exact tableReader_of_holds hthunks hbytes
  · intro entry raw hraw
    obtain ⟨hthunk, rfl⟩ := encode_eq_ok_iff.mp hraw
    exact ⟨decode_thunk hthunk, fun c hbytes => reader_of_holds hthunk hbytes⟩

/-- An ordinal of zero and the greatest address, behind a byte and in front of two zeros. -/
theorem lookupTable_round_trip_zeros :
    (∀ entry ∈ [ordinal 0, hintName 0x7fffffff], ∃ raw, entry.encode .pe32 = .ok raw) ∧
      ∃ bytes : List UInt8, bytes.length = 12 ∧
        tableWriter .pe32 [.ordinal 0, .hintName 0x7fffffff] (.ofBytes #[0x90]) =
          .ok () ((Buffer.ofBytes #[0x90]).append bytes) ∧
        let data := ((Buffer.ofBytes #[0x90]).append (bytes ++ [0, 0])).bytes
        tableReader .pe32 ⟨data, 1, #[]⟩ =
          .ok [.ordinal 0, .hintName 0x7fffffff]
            ⟨data, ((Buffer.ofBytes #[0x90]).append bytes).pos, #[]⟩ := by
  have hencode : ∀ entry ∈ [ordinal 0, hintName 0x7fffffff],
      ∃ raw, entry.encode .pe32 = .ok raw := by
    simp only [List.forall_mem_cons]
    exact ⟨⟨0x80000000, rfl⟩, ⟨0x7fffffff, rfl⟩, by simp⟩
  obtain ⟨bytes, hlength, hwritten, hread, _⟩ :=
    lookupTable_round_trip .pe32 _ hencode (.ofBytes #[0x90])
  exact ⟨hencode, bytes, hlength, hwritten, hread [0, 0] #[]⟩

end ImportEntry

end CilCodec
