import CilCodec.Method.Header
import CilCodec.Proofs.Bytes.Writing

/-!
# CilCodec.Proofs.Method.Header

The stored form of headers (II.25.4.2, II.25.4.3), and reading and writing against it.

A tiny header has one stored form. A fat header has many: its first word says how many bytes follow
the fields, and these can be anything. `MethodHeader.stored` is the form that is written, without
any.

Results:
1. `headerReader_sound`, `headerReader_complete`: reading a header is finding a stored form.
2. `MethodHeader.writer_puts`: what is written for a header.
-/

namespace CilCodec

open Reader LittleEndian

/-! ## Stored form -/

/-- `StoredHeader header bytes`: a header stored as `bytes`. -/
inductive StoredHeader : MethodHeader → List UInt8 → Prop
  | tiny (first : UInt8) :
      first.toNat % 4 = MethodHeader.tinyFormat →
      StoredHeader (.tiny (UInt32.ofNat (first.toNat / 4))) [first]
  /- the fourth nibble counts words, and what follows the fields is not part of the header -/
  | fat (flagsAndSize maxStack : UInt16) (codeSize localSignature : UInt32) (extra : List UInt8) :
      flagsAndSize.toNat % 4 = MethodHeader.fatFormat →
      flagsAndSize.toNat / 0x1000 * 4 = MethodHeader.fatSize + extra.length →
      StoredHeader
        (.fat (UInt16.ofNat (flagsAndSize.toNat % 0x1000)) maxStack codeSize ⟨localSignature⟩)
        (encode flagsAndSize ++ (encode maxStack ++ (encode codeSize ++
          (encode localSignature ++ extra))))

/-- The bytes of the header as it is written. -/
def MethodHeader.stored : MethodHeader → List UInt8
  | tiny codeSize => encode (UInt8.ofNat (codeSize.toNat * 4 + tinyFormat))
  | fat flags maxStack codeSize localSignature =>
    encode (UInt16.ofNat (fatSize / 4 * 0x1000 + flags.toNat % 0x1000)) ++
      (encode maxStack ++ (encode codeSize ++ encode localSignature.value))

theorem MethodHeader.length_stored (header : MethodHeader) :
    header.stored.length = if header.isFat then MethodHeader.fatSize else 1 := by
  cases header with
  | tiny codeSize => rfl
  | fat flags maxStack codeSize localSignature =>
    unfold stored
    simp only [List.length_append, length_encode]
    rfl

/-! ## Reading -/

/-- The first byte of a word holds its low bits. -/
theorem holds_first {data : Array UInt8} {pos : Nat} {value : UInt16}
    (h : Holds data pos (encode value)) : Holds data pos [UInt8.ofNat value.toNat] :=
  (holds_append.mp (show Holds data pos ([UInt8.ofNat value.toNat] ++ _) from h)).1

theorem ofNat_mod_four (value : UInt16) :
    (UInt8.ofNat value.toNat).toNat % 4 = value.toNat % 4 := by
  rw [UInt8.toNat_ofNat']
  omega

theorem fatReader_sound {c c' : Cursor} {header : MethodHeader} {first : UInt8}
    (hfirst : Holds c.data c.pos [first]) (hformat : first.toNat % 4 = MethodHeader.fatFormat)
    (h : MethodHeader.fatReader c = .ok header c') :
    ∃ bytes, c.Passes bytes c' ∧ StoredHeader header bytes := by
  unfold MethodHeader.fatReader at h
  simp only [bind_eq_ok, position_eq_ok, ensure_eq_ok, word_eq_ok, refuse_eq_ok] at h
  obtain ⟨_, _, ⟨rfl, rfl⟩, _, _, ⟨_, rfl⟩, flagsAndSize, _, ⟨hflags, rfl⟩, maxStack, _,
    ⟨hstack, rfl⟩, codeSize, _, ⟨hcode, rfl⟩, localSignature, _, ⟨hsignature, rfl⟩, hsize, h⟩ := h
  -- the format was taken from the byte peeked at, which is the low byte of the first word
  have hlow : flagsAndSize.toNat % 4 = MethodHeader.fatFormat := by
    have hbyte := hfirst.unique (holds_first hflags) rfl
    rw [← ofNat_mod_four, ← List.singleton_inj.mp hbyte]
    exact hformat
  have hfields := (Cursor.Passes.of_word hflags).trans ((Cursor.Passes.of_word hstack).trans
    ((Cursor.Passes.of_word hcode).trans (.of_word hsignature)))
  split at h
  next =>
    simp only [bind_eq_ok, note_eq_ok, pure_eq_ok] at h
    obtain ⟨_, _, rfl, _, _, hadvance, rfl, rfl⟩ := h
    obtain ⟨extra, hextra, hskipped⟩ := Cursor.Passes.of_advance hadvance
    have hlength : flagsAndSize.toNat / 0x1000 * 4 = MethodHeader.fatSize + extra.length := by
      rw [hextra]
      omega
    have hpassed := hfields.trans hskipped.from_notices
    simp only [List.append_assoc] at hpassed
    exact ⟨_, hpassed, .fat flagsAndSize maxStack codeSize localSignature extra hlow hlength⟩
  next hnone =>
    obtain ⟨rfl, rfl⟩ := pure_eq_ok.mp h
    have hlength : flagsAndSize.toNat / 0x1000 * 4 = MethodHeader.fatSize + 0 :=
      Nat.le_antisymm (Nat.not_lt.mp hnone) (Nat.not_lt.mp hsize)
    have hstored := StoredHeader.fat flagsAndSize maxStack codeSize localSignature [] hlow hlength
    rw [List.append_nil] at hstored
    exact ⟨_, hfields, hstored⟩

theorem fatReader_complete {c : Cursor} {flagsAndSize maxStack : UInt16}
    {codeSize localSignature : UInt32} {extra : List UInt8}
    (hlength : flagsAndSize.toNat / 0x1000 * 4 = MethodHeader.fatSize + extra.length)
    (hholds : Holds c.data c.pos (encode flagsAndSize ++ (encode maxStack ++ (encode codeSize ++
      (encode localSignature ++ extra))))) :
    ∃ c', MethodHeader.fatReader c =
        .ok (.fat (UInt16.ofNat (flagsAndSize.toNat % 0x1000)) maxStack codeSize ⟨localSignature⟩)
          c' ∧
      c.Passes (encode flagsAndSize ++ (encode maxStack ++ (encode codeSize ++
        (encode localSignature ++ extra)))) c' := by
  have hroom := hholds.le
  obtain ⟨hflags, hholds⟩ := holds_append.mp hholds
  obtain ⟨hstack, hholds⟩ := holds_append.mp hholds
  obtain ⟨hcode, hholds⟩ := holds_append.mp hholds
  obtain ⟨hsignature, hextra⟩ := holds_append.mp hholds
  simp only [length_encode] at hstack hcode hsignature hextra
  have hsize : ¬ flagsAndSize.toNat / 0x1000 * 4 < MethodHeader.fatSize :=
    Nat.not_lt.mpr (hlength ▸ Nat.le_add_right _ _)
  have hcount : flagsAndSize.toNat / 0x1000 * 4 - MethodHeader.fatSize = extra.length := by
    rw [hlength, Nat.add_sub_cancel_left]
  have hfields : MethodHeader.fatSize ≤ c.remaining := by
    simp only [length_encode, List.length_append] at hroom
    refine Nat.le_sub_of_add_le' (Nat.le_trans (Nat.add_le_add_left ?_ _) hroom)
    show 12 ≤ 2 + (2 + (4 + (4 + extra.length)))
    omega
  have hpassed := (Cursor.Passes.of_word hflags).trans ((Cursor.Passes.of_word hstack).trans
    ((Cursor.Passes.of_word hcode).trans ((Cursor.Passes.of_word hsignature).trans
      (.of_holds hextra))))
  unfold MethodHeader.fatReader
  simp only [bind_eq_ok, position_eq_ok, ensure_eq_ok, word_eq_ok, refuse_eq_ok]
  by_cases hmore : MethodHeader.fatSize < flagsAndSize.toNat / 0x1000 * 4
  · refine ⟨_, ⟨_, _, ⟨rfl, rfl⟩, (), _, ⟨hfields, rfl⟩, flagsAndSize, _, ⟨hflags, rfl⟩, maxStack,
      _, ⟨hstack, rfl⟩, codeSize, _, ⟨hcode, rfl⟩, localSignature, _, ⟨hsignature, rfl⟩, hsize,
      ?_⟩, hpassed.with_notices (c.notices.push (.headerExtra extra.length))⟩
    rw [if_pos hmore, hcount]
    simp only [bind_eq_ok, note_eq_ok]
    exact ⟨(), _, rfl, (), _, advance_of_holds hextra, rfl⟩
  · refine ⟨_, ⟨_, _, ⟨rfl, rfl⟩, (), _, ⟨hfields, rfl⟩, flagsAndSize, _, ⟨hflags, rfl⟩, maxStack,
      _, ⟨hstack, rfl⟩, codeSize, _, ⟨hcode, rfl⟩, localSignature, _, ⟨hsignature, rfl⟩, hsize,
      ?_⟩, hpassed⟩
    have hnone : extra.length = 0 := by omega
    rw [if_neg hmore, hnone]
    rfl

/-- Reading a header finds a stored form of it. -/
theorem headerReader_sound {c c' : Cursor} {header : MethodHeader}
    (h : MethodHeader.reader c = .ok header c') :
    ∃ bytes, c.Passes bytes c' ∧ StoredHeader header bytes := by
  unfold MethodHeader.reader at h
  simp only [bind_eq_ok, position_eq_ok, peekByte_eq_ok] at h
  obtain ⟨_, _, ⟨rfl, rfl⟩, first, _, ⟨hfirst, rfl⟩, h⟩ := h
  split at h
  next hformat =>
    simp only [bind_eq_ok, pure_eq_ok] at h
    obtain ⟨_, _, hadvance, rfl, rfl⟩ := h
    obtain ⟨_, rfl⟩ := advance_eq_ok.mp hadvance
    exact ⟨[first], .of_holds hfirst, .tiny first hformat⟩
  next =>
    split at h
    next hformat => exact fatReader_sound hfirst hformat h
    next => exact absurd h throw_ne_ok

/-- A stored header is read, whatever follows it. -/
theorem headerReader_complete {c : Cursor} {header : MethodHeader} {bytes : List UInt8}
    (h : StoredHeader header bytes) (hholds : Holds c.data c.pos bytes) :
    ∃ c', MethodHeader.reader c = .ok header c' ∧ c.Passes bytes c' := by
  unfold MethodHeader.reader
  simp only [bind_eq_ok, position_eq_ok, peekByte_eq_ok]
  cases h with
  | tiny first hformat =>
    refine ⟨_, ⟨_, _, ⟨rfl, rfl⟩, first, _, ⟨hholds, rfl⟩, ?_⟩, .of_holds hholds⟩
    rw [if_pos hformat]
    exact bind_eq_ok.mpr ⟨(), _, advance_of_holds hholds, rfl⟩
  | fat flagsAndSize maxStack codeSize localSignature extra hformat hlength =>
    obtain ⟨c', hread, hpassed⟩ := fatReader_complete hlength hholds
    have hfirst := holds_first (holds_append.mp hholds).1
    refine ⟨c', ⟨_, _, ⟨rfl, rfl⟩, _, _, ⟨hfirst, rfl⟩, ?_⟩, hpassed⟩
    rw [ofNat_mod_four, hformat, if_neg (by decide), if_pos rfl]
    exact hread

/-- A stored header says where it ends: bytes that begin with two stored headers begin with the same
one twice. -/
theorem StoredHeader.unique {header header' : MethodHeader}
    {bytes bytes' behind behind' : List UInt8} (h : StoredHeader header bytes)
    (h' : StoredHeader header' bytes') (heq : bytes ++ behind = bytes' ++ behind') :
    header = header' ∧ bytes = bytes' := by
  have hholds : Holds (bytes ++ behind).toArray 0 bytes := holds_toArray_append bytes behind
  have hholds' : Holds (bytes ++ behind).toArray 0 bytes' := by
    rw [heq]
    exact holds_toArray_append bytes' behind'
  obtain ⟨c, hread, hpassed⟩ :=
    headerReader_complete (c := Cursor.start (bytes ++ behind).toArray) h hholds
  obtain ⟨c', hread', hpassed'⟩ :=
    headerReader_complete (c := Cursor.start (bytes ++ behind).toArray) h' hholds'
  cases hread.symm.trans hread'
  have hlength := hpassed.pos_eq.symm.trans hpassed'.pos_eq
  exact ⟨rfl, hholds.unique hholds' (Nat.add_left_cancel hlength)⟩

/-! ## Writing -/

theorem MethodHeader.writer_puts {header : MethodHeader}
    (h : ∀ codeSize, header = .tiny codeSize → codeSize.toNat ≤ tinyMaxCode) :
    Writer.Puts header.writer header.stored := by
  cases header with
  | tiny codeSize =>
    intro b
    unfold writer
    dsimp only
    rw [if_neg (Nat.not_lt.mpr (h codeSize rfl))]
    exact Writer.word_puts _ b
  | fat flags maxStack codeSize localSignature =>
    refine Writer.Puts.andThen (Writer.word_puts _) ?_
    refine Writer.Puts.andThen (Writer.word_puts _) ?_
    exact Writer.Puts.andThen (Writer.word_puts _) (Writer.word_puts _)

/-- What is written for a header is read back as that header, if its flags have the format bits and
stay below the size. -/
theorem MethodHeader.storedHeader_stored {header : MethodHeader}
    (htiny : ∀ codeSize, header = .tiny codeSize → codeSize.toNat ≤ tinyMaxCode)
    (hfat : ∀ flags, header.flags? = some flags →
      flags.toNat % 4 = fatFormat ∧ flags.toNat < 0x1000) :
    StoredHeader header header.stored := by
  cases header with
  | tiny codeSize =>
    have hle : codeSize.toNat ≤ 63 := htiny codeSize rfl
    have hfirst : (UInt8.ofNat (codeSize.toNat * 4 + tinyFormat)).toNat =
        codeSize.toNat * 4 + 2 := by
      rw [UInt8.toNat_ofNat']
      exact Nat.mod_eq_of_lt (by show codeSize.toNat * 4 + 2 < 256; omega)
    have hstored := StoredHeader.tiny (UInt8.ofNat (codeSize.toNat * 4 + tinyFormat))
      (by rw [hfirst, Nat.mul_add_mod_self_right]; rfl)
    have hsize : UInt32.ofNat ((codeSize.toNat * 4 + 2) / 4) = codeSize := by
      rw [show (codeSize.toNat * 4 + 2) / 4 = codeSize.toNat by omega, UInt32.ofNat_toNat]
    rw [hfirst, hsize, ← encode_byte] at hstored
    exact hstored
  | fat flags maxStack codeSize localSignature =>
    obtain ⟨hformat, hlt⟩ := hfat flags rfl
    have hword : (UInt16.ofNat (fatSize / 4 * 0x1000 + flags.toNat % 0x1000)).toNat =
        0x3000 + flags.toNat := by
      rw [Nat.mod_eq_of_lt hlt, UInt16.toNat_ofNat']
      exact Nat.mod_eq_of_lt (by show 0x3000 + flags.toNat < 0x10000; omega)
    have hstored := StoredHeader.fat (UInt16.ofNat (fatSize / 4 * 0x1000 + flags.toNat % 0x1000))
      maxStack codeSize localSignature.value []
      (by rw [hword, Nat.add_mod, hformat]; rfl)
      (by rw [hword]; show (0x3000 + flags.toNat) / 0x1000 * 4 = 12; omega)
    have hflags : UInt16.ofNat ((0x3000 + flags.toNat) % 0x1000) = flags := by
      rw [show (0x3000 + flags.toNat) % 0x1000 = flags.toNat by omega, UInt16.ofNat_toNat]
    rw [hword, hflags, List.append_nil] at hstored
    exact hstored

/-- A header that was read is written as it was stored, if nothing followed its fields. -/
theorem StoredHeader.stored_eq {header : MethodHeader} {bytes : List UInt8}
    (h : StoredHeader header bytes)
    (hlength : header.isFat = true → bytes.length = MethodHeader.fatSize) :
    header.stored = bytes := by
  cases h with
  | tiny first hformat =>
    have hformat : first.toNat % 4 = 2 := hformat
    have hlt := first.toNat_lt
    have hquotient : (UInt32.ofNat (first.toNat / 4)).toNat = first.toNat / 4 :=
      UInt32.toNat_ofNat_of_lt' (Nat.lt_trans (Nat.lt_of_le_of_lt (Nat.div_le_self _ _) hlt)
        (by decide))
    have hfirst : first.toNat / 4 * 4 + MethodHeader.tinyFormat = first.toNat := by
      show first.toNat / 4 * 4 + 2 = _
      omega
    rw [MethodHeader.stored, hquotient, hfirst, UInt8.ofNat_toNat, encode_byte]
  | fat flagsAndSize maxStack codeSize localSignature extra hformat hsize =>
    have hall := hlength rfl
    simp only [List.length_append, length_encode] at hall
    have hnone : extra = [] := by
      refine List.eq_nil_of_length_eq_zero ?_
      have : 2 + (2 + (4 + (4 + extra.length))) = 12 := hall
      omega
    subst hnone
    have hword : MethodHeader.fatSize / 4 * 0x1000 +
        (UInt16.ofNat (flagsAndSize.toNat % 0x1000)).toNat % 0x1000 = flagsAndSize.toNat := by
      have hnibble : flagsAndSize.toNat / 0x1000 * 4 = 12 := hsize
      rw [UInt16.toNat_ofNat']
      show 3 * 0x1000 + _ = _
      omega
    rw [MethodHeader.stored, hword, UInt16.ofNat_toNat, List.append_nil]

end CilCodec
