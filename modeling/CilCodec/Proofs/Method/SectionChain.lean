import Mathlib.Data.List.Forall2
import Mathlib.Data.Nat.Bitwise
import CilCodec.Proofs.Method.Section

/-!
# CilCodec.Proofs.Method.SectionChain

Chains of method data sections (II.25.4.5), byte by byte.

`SectionChain` is the grammar as the standard draws it: flags that are masked, a size of one byte or
of three, a payload that is cut into clauses of 12 or 24 bytes, and clauses that are cut into fields
by their widths. It mentions none of the words, headers and stored forms that the reader and the
other grammar, `StoredSections`, are about.

Results:
1. `fieldValues_eq_iff`: bytes hold given numbers exactly if they are their bytes, in fields wide
   enough for them.
2. `isClause_iff`, `storedSection_iff`, `storedSections_iff`: the two grammars agree on clauses,
   sections and chains.
3. `sectionsReader_accepts_iff`: reading accepts exactly the chains, and answers with their clauses.
-/

namespace CilCodec

open Reader LittleEndian

namespace MethodSection

/-! ## Grammar -/

/-- The numbers that fields of given widths hold, one behind the other. -/
def fieldValues : List Nat → List UInt8 → List Nat
  | [], _ => []
  | width :: widths, bytes => leValue (bytes.take width) :: fieldValues widths (bytes.drop width)

/-- Widths of the fields of a clause: flags, offset and length of the protected region, offset and
length of the handler, and class or filter. -/
def clauseWidths (isFat : Bool) : List Nat :=
  if isFat then [4, 4, 4, 4, 4, 4] else [2, 2, 1, 2, 1, 4]

/-- The fields of a clause, as numbers and in the order they are stored. The flags are 0, 1, 2 or 4,
as the kind says. -/
def clauseFields (h : ExceptionHandler) : List Nat :=
  [h.kind.flags.toNat, h.tryOffset.toNat, h.tryLength.toNat, h.handlerOffset.toNat,
    h.handlerLength.toNat, h.classOrFilter.toNat]

/-- A clause as a block of bytes: 24 of them or 12, which hold its fields. -/
structure IsClause (isFat : Bool) (block : List UInt8) (h : ExceptionHandler) : Prop where
  length_eq : block.length = if isFat then 24 else 12
  fields_eq : fieldValues (clauseWidths isFat) block = clauseFields h

/-- A section as bytes: flags, a size in three bytes, and what is behind. -/
structure SectionBytes where
  flags : UInt8
  low : UInt8
  middle : UInt8
  high : UInt8
  payload : List UInt8

namespace SectionBytes

def isTable (s : SectionBytes) : Bool := s.flags &&& 0x01 != 0

def isFat (s : SectionBytes) : Bool := s.flags &&& 0x40 != 0

def announcesMore (s : SectionBytes) : Bool := s.flags &&& 0x80 != 0

/-- The size that the section claims. A section that is not fat has only the low byte of it. -/
def size (s : SectionBytes) : Nat :=
  if s.isFat then s.low.toNat + 0x100 * s.middle.toNat + 0x10000 * s.high.toNat else s.low.toNat

def bytes (s : SectionBytes) : List UInt8 := s.flags :: s.low :: s.middle :: s.high :: s.payload

/-- Whether the payload is as long as the size says, which counts the four bytes in front of it. -/
def WellSized (s : SectionBytes) : Prop := 4 ≤ s.size ∧ s.payload.length = s.size - 4

/-- `s.HasClauses clauses`: the payload is as long as it should be and cut into the clauses, unless
the section is no exception table: then it can be anything, and there are no clauses. -/
inductive HasClauses (s : SectionBytes) : List ExceptionHandler → Prop
  | table {blocks : List (List UInt8)} {clauses : List ExceptionHandler} :
      s.WellSized → s.isTable = true → s.payload = blocks.flatten →
      List.Forall₂ (IsClause s.isFat) blocks clauses → HasClauses s clauses
  | foreign : s.WellSized → s.isTable = false → HasClauses s []

end SectionBytes

/-- Bytes from `pos` to the next multiple of four, of which `pos` itself is one. -/
def IsPadding (pos : Nat) (padding : List UInt8) : Prop :=
  padding.length < 4 ∧ 4 ∣ pos + padding.length

/-- `SectionChain pos bytes handlers`: bytes that stand at `pos` are one or more sections, each
behind padding and each but the last announcing another, and `handlers` are the clauses of all. -/
inductive SectionChain : Nat → List UInt8 → List ExceptionHandler → Prop
  | last {pos : Nat} {padding : List UInt8} {s : SectionBytes} {clauses : List ExceptionHandler} :
      IsPadding pos padding → s.HasClauses clauses → s.announcesMore = false →
      SectionChain pos (padding ++ s.bytes) clauses
  | more {pos : Nat} {padding behind : List UInt8} {s : SectionBytes}
      {clauses handlers : List ExceptionHandler} :
      IsPadding pos padding → s.HasClauses clauses → s.announcesMore = true →
      SectionChain (pos + (padding ++ s.bytes).length) behind handlers →
      SectionChain pos (padding ++ s.bytes ++ behind) (clauses ++ handlers)

/-! ## Fields -/

/-- Numbers stored in fields of given widths. -/
def fieldBytes : List Nat → List Nat → List UInt8
  | width :: widths, value :: values => leBytes width value ++ fieldBytes widths values
  | _, _ => []

/-- Bytes that fill fields hold numbers exactly if they store them, and these are not too great. -/
theorem fieldValues_eq_iff {widths values : List Nat} {bytes : List UInt8}
    (hlength : bytes.length = widths.sum) :
    fieldValues widths bytes = values ↔
      List.Forall₂ (fun width value => value < leBound width) widths values ∧
        bytes = fieldBytes widths values := by
  induction widths generalizing values bytes with
  | nil =>
    obtain rfl := List.length_eq_zero_iff.mp hlength
    constructor
    · rintro rfl
      exact ⟨.nil, rfl⟩
    · rintro ⟨hfits, _⟩
      cases hfits
      rfl
  | cons width widths ih =>
    rw [List.sum_cons] at hlength
    have htake : (bytes.take width).length = width := by
      rw [List.length_take, hlength, Nat.min_eq_left (Nat.le_add_right _ _)]
    have hdrop : (bytes.drop width).length = widths.sum := by
      rw [List.length_drop, hlength, Nat.add_sub_cancel_left]
    constructor
    · rintro rfl
      obtain ⟨hfits, hbytes⟩ := (ih hdrop).mp rfl
      have hvalue := leValue_lt (bytes.take width)
      have hfirst := leBytes_leValue (bytes.take width)
      rw [htake] at hvalue hfirst
      refine ⟨.cons hvalue hfits, ?_⟩
      rw [fieldValues, fieldBytes, ← hbytes, hfirst, List.take_append_drop]
    · rintro ⟨hfits, hbytes⟩
      cases hfits with
      | @cons _ value _ values hvalue hfits =>
        rw [fieldBytes] at hbytes
        have hlengths : (leBytes width value).length = width := length_leBytes width value
        rw [fieldValues, hbytes, List.take_left' hlengths, leValue_leBytes hvalue,
          List.drop_left' hlengths]
        rw [hbytes, List.drop_left' hlengths] at hdrop
        rw [(ih hdrop).mpr ⟨hfits, rfl⟩]

/-- The fields of a clause are small enough for those of a form exactly if it fits the form. -/
theorem clauseFields_lt_iff {isFat : Bool} {h : ExceptionHandler} :
    List.Forall₂ (fun width value => value < leBound width) (clauseWidths isFat) (clauseFields h) ↔
      h.FitsIn isFat := by
  have hflags : h.kind.flags.toNat < leBound 2 := h.kind.flags.toNat_lt
  have hclass : h.classOrFilter.toNat < leBound 4 := h.classOrFilter.toNat_lt
  unfold clauseWidths clauseFields ExceptionHandler.FitsIn
  cases isFat with
  | true =>
    refine iff_of_true ?_ (.inl rfl)
    exact .cons (Nat.lt_of_lt_of_le hflags (by decide)) (.cons h.tryOffset.toNat_lt
      (.cons h.tryLength.toNat_lt (.cons h.handlerOffset.toNat_lt
        (.cons h.handlerLength.toNat_lt (.cons hclass .nil)))))
  | false =>
    rw [ExceptionHandler.requiresFat_eq_false]
    simp only [Bool.false_eq_true, if_false, List.forall₂_cons, List.Forall₂.nil, and_true,
      false_or]
    constructor
    · rintro ⟨_, htry, htryLength, hhandler, hhandlerLength, _⟩
      exact ⟨Nat.le_of_lt_succ htry, Nat.le_of_lt_succ hhandler, Nat.le_of_lt_succ htryLength,
        Nat.le_of_lt_succ hhandlerLength⟩
    · rintro ⟨htry, hhandler, htryLength, hhandlerLength⟩
      exact ⟨hflags, Nat.lt_succ_of_le htry, Nat.lt_succ_of_le htryLength,
        Nat.lt_succ_of_le hhandler, Nat.lt_succ_of_le hhandlerLength, hclass⟩

theorem stored_eq_fieldBytes {isFat : Bool} {h : ExceptionHandler} (hfits : h.FitsIn isFat) :
    h.stored isFat = fieldBytes (clauseWidths isFat) (clauseFields h) := by
  cases isFat with
  | true =>
    show _ = leBytes 4 _ ++ (leBytes 4 _ ++ (leBytes 4 _ ++ (leBytes 4 _ ++ (leBytes 4 _ ++
      (leBytes 4 _ ++ [])))))
    rw [List.append_nil]
    rfl
  | false =>
    rcases hfits with hfat | hsmall
    · cases hfat
    obtain ⟨htry, hhandler, htryLength, hhandlerLength⟩ :=
      ExceptionHandler.requiresFat_eq_false.mp hsmall
    show _ = leBytes 2 _ ++ (leBytes 2 _ ++ (leBytes 1 _ ++ (leBytes 2 _ ++ (leBytes 1 _ ++
      (leBytes 4 _ ++ [])))))
    rw [List.append_nil, ← toUInt32_toUInt16 htry, ← toUInt32_toUInt16 hhandler,
      ← toUInt32_toUInt8 htryLength, ← toUInt32_toUInt8 hhandlerLength]
    rfl

theorem isClause_iff {isFat : Bool} {block : List UInt8} {h : ExceptionHandler} :
    IsClause isFat block h ↔ h.FitsIn isFat ∧ block = h.stored isFat := by
  have hsum : (clauseWidths isFat).sum = if isFat then 24 else 12 := by
    cases isFat <;> rfl
  constructor
  · rintro ⟨hlength, hfields⟩
    obtain ⟨hlt, rfl⟩ := (fieldValues_eq_iff (hlength.trans hsum.symm)).mp hfields
    have hfits := clauseFields_lt_iff.mp hlt
    exact ⟨hfits, (stored_eq_fieldBytes hfits).symm⟩
  · rintro ⟨hfits, rfl⟩
    have hlength : (h.stored isFat).length = if isFat then 24 else 12 :=
      ExceptionHandler.length_stored isFat h
    exact ⟨hlength, (fieldValues_eq_iff (hlength.trans hsum.symm)).mpr
      ⟨clauseFields_lt_iff.mpr hfits, stored_eq_fieldBytes hfits⟩⟩

/-- Blocks of clauses in a row are the stored forms of the clauses in a row. -/
theorem exists_blocks_iff {isFat : Bool} {payload : List UInt8} {clauses : List ExceptionHandler} :
    (∃ blocks, payload = blocks.flatten ∧ List.Forall₂ (IsClause isFat) blocks clauses) ↔
      (∀ h ∈ clauses, h.FitsIn isFat) ∧
        payload = clauses.flatMap (ExceptionHandler.stored isFat) := by
  constructor
  · rintro ⟨blocks, rfl, hblocks⟩
    induction hblocks with
    | nil => exact ⟨List.forall_mem_nil _, rfl⟩
    | cons hfirst _ ih =>
      obtain ⟨hfits, rfl⟩ := isClause_iff.mp hfirst
      obtain ⟨hrest, hbytes⟩ := ih
      rw [List.flatten_cons, hbytes, List.flatMap_cons]
      exact ⟨List.forall_mem_cons.mpr ⟨hfits, hrest⟩, rfl⟩
  · rintro ⟨hfits, rfl⟩
    refine ⟨clauses.map (ExceptionHandler.stored isFat), rfl, ?_⟩
    rw [List.forall₂_map_left_iff, List.forall₂_same]
    exact fun h hmem => isClause_iff.mpr ⟨hfits h hmem, rfl⟩

/-! ## Sections -/

/-- A flag is set exactly if its bit is. -/
theorem and_bit_ne_zero (flags : UInt8) (bit : Fin 8) :
    (flags &&& UInt8.ofNat (2 ^ bit.val) != 0) = flags.toNat.testBit bit.val := by
  have hmask : (UInt8.ofNat (2 ^ bit.val)).toNat = 2 ^ bit.val := by
    revert bit
    decide
  have hand : (flags &&& UInt8.ofNat (2 ^ bit.val)).toNat =
      (flags.toNat.testBit bit.val).toNat * 2 ^ bit.val := by
    rw [UInt8.toNat_and, hmask, Nat.and_two_pow]
  rw [Bool.eq_iff_iff, bne_iff_ne, ne_eq, ← UInt8.toNat_inj, hand]
  cases flags.toNat.testBit bit.val with
  | true => simp
  | false => simp

namespace SectionBytes

/-- The first word of a section. -/
def word (s : SectionBytes) : UInt32 := decode [s.flags, s.low, s.middle, s.high]

variable (s : SectionBytes)

theorem encode_word : encode s.word = [s.flags, s.low, s.middle, s.high] := encode_decode rfl

theorem toNat_word :
    s.word.toNat =
      0x100 * (s.low.toNat + 0x100 * (s.middle.toNat + 0x100 * s.high.toNat)) + s.flags.toNat := by
  rw [Nat.add_comm]
  exact toBits_ofBits (α := UInt32) _ (leValue_lt [s.flags, s.low, s.middle, s.high])

theorem isFat_eq : s.isFat = s.flags.toNat.testBit fatBit := and_bit_ne_zero s.flags 6

/-- The word taken apart is the bytes taken one by one. -/
theorem ofWord_word : Header.ofWord s.word = ⟨s.flags, s.size⟩ := by
  have hflags : UInt8.ofNat (s.word.toNat % 0x100) = s.flags := by
    rw [toNat_word, Nat.mul_add_mod, Nat.mod_eq_of_lt s.flags.toNat_lt, UInt8.ofNat_toNat]
  have hquotient : s.word.toNat / 0x100 =
      s.low.toNat + 0x100 * (s.middle.toNat + 0x100 * s.high.toNat) := by
    rw [toNat_word, Nat.mul_add_div (by decide), Nat.div_eq_of_lt s.flags.toNat_lt, Nat.add_zero]
  unfold Header.ofWord size
  dsimp only
  rw [hflags, hquotient, ← isFat_eq]
  congr 1
  split
  next => rw [Nat.mul_add, ← Nat.mul_assoc, Nat.add_assoc]
  next => rw [Nat.add_mul_mod_self_left, Nat.mod_eq_of_lt s.low.toNat_lt]

theorem isFat_word : (Header.ofWord s.word).isFat = s.isFat := by
  rw [ofWord_word, isFat_eq]
  rfl

theorem isTable_word : (Header.ofWord s.word).isTable = s.isTable := by
  rw [ofWord_word]
  exact (and_bit_ne_zero s.flags 0).symm

theorem hasMore_word : (Header.ofWord s.word).hasMore = s.announcesMore := by
  rw [ofWord_word]
  exact (and_bit_ne_zero s.flags 7).symm

theorem size_word : (Header.ofWord s.word).size = s.size := by
  rw [ofWord_word]

theorem bytes_eq : s.bytes = encode s.word ++ s.payload := by
  rw [encode_word]
  rfl

/-- Every word is the first word of a section with a given payload. -/
theorem exists_word (word : UInt32) (payload : List UInt8) :
    ∃ s : SectionBytes, s.word = word ∧ s.payload = payload :=
  ⟨⟨_, _, _, _, payload⟩, decode_encode word, rfl⟩

theorem wellSized_iff : s.WellSized ↔ s.size = headerSize + s.payload.length := by
  unfold WellSized
  constructor
  · rintro ⟨hmin, hlength⟩
    rw [hlength]
    exact (Nat.add_sub_cancel' hmin).symm
  · intro hsize
    rw [hsize]
    exact ⟨Nat.le_add_right _ _, (Nat.add_sub_cancel_left headerSize _).symm⟩

end SectionBytes

/-- Stored sections are those whose bytes are as they should be. -/
theorem storedSection_iff {header : Header} {clauses : List ExceptionHandler}
    {bytes : List UInt8} :
    StoredSection header clauses bytes ↔
      ∃ s : SectionBytes,
        s.HasClauses clauses ∧ s.bytes = bytes ∧ Header.ofWord s.word = header := by
  constructor
  · intro h
    cases h with
    | table word clauses htable hsize hfits =>
      obtain ⟨s, rfl, hpayload⟩ := SectionBytes.exists_word word
        (clauses.flatMap (ExceptionHandler.stored (Header.ofWord word).isFat))
      refine ⟨s, ?_, by rw [s.bytes_eq, hpayload], rfl⟩
      rw [← length_flatMap_stored, ← hpayload, s.size_word] at hsize
      rw [s.isFat_word] at hfits hpayload
      obtain ⟨blocks, hblocks, hclauses⟩ := exists_blocks_iff.mpr ⟨hfits, hpayload⟩
      exact .table (s.wellSized_iff.mpr hsize) (s.isTable_word.symm.trans htable) hblocks hclauses
    | foreign word payload htable hsize =>
      obtain ⟨s, rfl, rfl⟩ := SectionBytes.exists_word word payload
      rw [s.size_word] at hsize
      exact ⟨s, .foreign (s.wellSized_iff.mpr hsize) (s.isTable_word.symm.trans htable), s.bytes_eq,
        rfl⟩
  · rintro ⟨s, hclauses, rfl, rfl⟩
    rw [s.bytes_eq]
    cases hclauses with
    | table hsized htable hblocks hclauses =>
      obtain ⟨hfits, hpayload⟩ := exists_blocks_iff.mp ⟨_, hblocks, hclauses⟩
      have hsize := s.size_word.trans (s.wellSized_iff.mp hsized)
      rw [hpayload, length_flatMap_stored, ← s.isFat_word] at hsize
      rw [← s.isFat_word] at hfits hpayload
      rw [hpayload]
      exact .table s.word clauses (s.isTable_word.trans htable) hsize hfits
    | foreign hsized htable =>
      exact .foreign s.word s.payload (s.isTable_word.trans htable)
        (s.size_word.trans (s.wellSized_iff.mp hsized))

/-- The bytes in front of a section are as many as alignment skips. -/
theorem isPadding_iff {pos : Nat} {padding : List UInt8} :
    IsPadding pos padding ↔ padding.length = gap pos 4 := by
  unfold IsPadding gap
  omega

theorem storedSections_iff {pos : Nat} {bytes : List UInt8} {handlers : List ExceptionHandler} :
    (∃ sections, StoredSections pos sections bytes ∧ sections.flatten = handlers) ↔
      SectionChain pos bytes handlers := by
  constructor
  · rintro ⟨sections, h, rfl⟩
    induction h with
    | last hpadding hstored hmore =>
      obtain ⟨s, hclauses, rfl, rfl⟩ := storedSection_iff.mp hstored
      rw [List.flatten_singleton]
      exact .last (isPadding_iff.mpr hpadding) hclauses (s.hasMore_word.symm.trans hmore)
    | more hpadding hstored hmore _ ih =>
      obtain ⟨s, hclauses, rfl, rfl⟩ := storedSection_iff.mp hstored
      rw [List.flatten_cons]
      exact .more (isPadding_iff.mpr hpadding) hclauses (s.hasMore_word.symm.trans hmore) ih
  · intro h
    induction h with
    | @last pos padding s clauses hpadding hclauses hmore =>
      have hstored := storedSection_iff.mpr ⟨s, hclauses, rfl, rfl⟩
      exact ⟨[clauses], .last (isPadding_iff.mp hpadding) hstored
        (s.hasMore_word.trans hmore), List.flatten_singleton⟩
    | @more pos padding behind s clauses handlers hpadding hclauses hmore _ ih =>
      obtain ⟨sections, hrest, rfl⟩ := ih
      have hstored := storedSection_iff.mpr ⟨s, hclauses, rfl, rfl⟩
      exact ⟨clauses :: sections, .more (isPadding_iff.mp hpadding) hstored
        (s.hasMore_word.trans hmore) hrest, List.flatten_cons⟩

/-! ## Reading -/

/-- Reading sections, if malformed ones are not tolerated, accepts exactly the bytes that are a
chain of them, stops behind them, and answers with their clauses. -/
theorem sectionsReader_accepts_iff {config : Config} (hstrict : config.lenientSections = false)
    (c : Cursor) (handlers : List ExceptionHandler) (stop : Nat) :
    (∃ c', reader config c = .ok handlers c' ∧ c'.pos = stop) ↔
      c.pos ≤ stop ∧ stop ≤ c.data.size ∧
        SectionChain c.pos (c.data.extract c.pos stop).toList handlers := by
  rw [← storedSections_iff]
  constructor
  · rintro ⟨c', hread, rfl⟩
    obtain ⟨sections, bytes, hpassed, hstored, rfl⟩ := sectionsReader_sound hstrict hread
    rw [hpassed.pos_eq, hpassed.holds.extract_eq]
    exact ⟨Nat.le_add_right _ _, hpassed.holds.le, sections, hstored, rfl⟩
  · rintro ⟨hlow, hhigh, sections, hstored, rfl⟩
    obtain ⟨count, rfl⟩ := Nat.exists_eq_add_of_le hlow
    obtain ⟨c', hread, hpassed⟩ := sectionsReader_complete config hstored (holds_extract hhigh)
    refine ⟨c', hread, ?_⟩
    rw [hpassed.pos_eq]
    exact congrArg (c.pos + ·) (size_extract_add hhigh)

/-- A section of another kind with one byte of payload, then an exception table with one small
clause, each behind three bytes of padding, and a byte behind them. -/
theorem sectionsReader_accepts_iff_mixed :
    Config.default.lenientSections = false ∧
    ∃ c', reader Config.default
        ⟨#[0, 7, 7, 7, 0x80, 5, 0xee, 0xee, 9, 7, 7, 7, 0x01, 16, 0xee, 0xee,
          2, 0, 1, 0, 2, 3, 0, 1, 0, 0, 0, 0, 0xff], 1, #[]⟩ =
            .ok [⟨.finallyClause, 1, 2, 3, 1, 0⟩] c' ∧ c'.pos = 28 := by
  have hclause : IsClause false [2, 0, 1, 0, 2, 3, 0, 1, 0, 0, 0, 0]
      ⟨.finallyClause, 1, 2, 3, 1, 0⟩ := ⟨rfl, rfl⟩
  have htable : SectionChain 9
      ([7, 7, 7] ++ SectionBytes.bytes ⟨0x01, 16, 0xee, 0xee, [2, 0, 1, 0, 2, 3, 0, 1, 0, 0, 0, 0]⟩)
      [⟨.finallyClause, 1, 2, 3, 1, 0⟩] :=
    .last ⟨by decide, by decide⟩ (.table ⟨by decide, by decide⟩ rfl rfl (.cons hclause .nil)) rfl
  have hchain : SectionChain 1
      ([7, 7, 7] ++ SectionBytes.bytes ⟨0x80, 5, 0xee, 0xee, [9]⟩ ++ _) ([] ++ _) :=
    .more ⟨by decide, by decide⟩ (.foreign ⟨by decide, by decide⟩ rfl) rfl htable
  exact ⟨rfl, (sectionsReader_accepts_iff rfl _ _ 28).mpr ⟨by decide, by decide, hchain⟩⟩

end MethodSection

end CilCodec
