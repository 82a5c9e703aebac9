import CilCodec.Proofs.Method.Body

/-!
# CilCodec.Proofs.Method.Canonical

Which stored bodies are written as they were read.

A body can be stored in many ways: a fat header can stand where a tiny one would do and can be
longer than its fields, flags can hold bits that mean nothing, clauses can be spread over several
sections or be fatter than needed, padding can be anything. `RawBody.Canonical` names the one way
that is written, by the bytes of the body alone.

Results:
1. `encode_eq_iff_canonical`: a decoded body is encoded to the bytes it was decoded from exactly if
   these are canonical.
-/

namespace CilCodec

open Reader LittleEndian

/-! ## Sections -/

namespace MethodSection

section Written

variable {data : Array UInt8} {pos : Nat} {clauses : List ExceptionHandler} {bytes : List UInt8}

/-- The first byte of a word, and the upper two. -/
theorem encode_word (word : UInt32) :
    encode word = [UInt8.ofNat word.toNat] ++ ([UInt8.ofNat (word.toNat / 256)] ++
      [UInt8.ofNat (word.toNat / 256 / 256), UInt8.ofNat (word.toNat / 256 / 256 / 256)]) :=
  rfl

/-- What is written for clauses has zeros for padding, the flags of one table, and zeros in the
bytes that a small header leaves unused. -/
theorem holds_of_stored (hnonempty : clauses.isEmpty = false) (hsize : size clauses ≤ fatLimit)
    (h : Holds data pos (stored pos clauses)) :
    Holds data pos (List.replicate (gap pos 4) 0) ∧
      Holds data (pos + gap pos 4) [writtenFlags clauses] ∧
      (isFatRequired clauses = false → Holds data (pos + gap pos 4 + 2) [0, 0]) := by
  unfold stored at h
  rw [hnonempty, if_neg Bool.false_ne_true] at h
  obtain ⟨hpadding, hsection⟩ := holds_append.mp h
  rw [List.length_replicate] at hsection
  have hword := (holds_append.mp hsection).1
  rw [encode_word] at hword
  obtain ⟨hflags, hrest⟩ := holds_append.mp hword
  have htoNat := toNat_headerWord hsize
  have hlt := (writtenFlags clauses).toNat_lt
  refine ⟨hpadding, ?_, fun hsmall => ?_⟩
  · have hbyte : UInt8.ofNat (headerWord clauses).toNat = writtenFlags clauses := by
      rw [← UInt8.toNat_inj, UInt8.toNat_ofNat', htoNat]
      omega
    rw [hbyte] at hflags
    exact hflags
  · have hle : size clauses ≤ 255 := size_le_of_small hsmall
    have hupper : (headerWord clauses).toNat / 256 / 256 = 0 := by omega
    obtain ⟨_, hreserved⟩ := holds_append.mp hrest
    rw [hupper] at hreserved
    exact hreserved

/-- The size of a section is the upper three bytes of its first word, if those that a small section
leaves unused are zero. -/
theorem size_ofWord_of_upper {word : UInt32} (hzero : (Header.ofWord word).isFat = false →
      [UInt8.ofNat (word.toNat / 256 / 256), UInt8.ofNat (word.toNat / 256 / 256 / 256)] = [0, 0]) :
    (Header.ofWord word).size = word.toNat / 256 := by
  show (if (Header.ofWord word).isFat then word.toNat / 256 else word.toNat / 256 % 256) = _
  cases hfat : (Header.ofWord word).isFat with
  | true => rfl
  | false =>
    obtain ⟨hthird, hfourth⟩ := List.cons_eq_cons.mp (hzero hfat)
    have hthird : word.toNat / 256 / 256 % 256 = 0 := by
      rw [← UInt8.toNat_ofNat', hthird]
      rfl
    have hfourth : word.toNat / 256 / 256 / 256 % 256 = 0 := by
      rw [← UInt8.toNat_ofNat', List.singleton_inj.mp hfourth]
      rfl
    have hlt := word.toNat_lt
    rw [if_neg Bool.false_ne_true]
    omega

/-- One section that looks like what is written for its clauses is what is written for them. -/
theorem stored_of_single (hnonempty : clauses.isEmpty = false)
    (h : StoredSections pos [clauses] bytes) (hholds : Holds data pos bytes)
    (hzero : Holds data pos (List.replicate (gap pos 4) 0))
    (hflags : Holds data (pos + gap pos 4) [writtenFlags clauses])
    (hreserved : isFatRequired clauses = false → Holds data (pos + gap pos 4 + 2) [0, 0]) :
    stored pos clauses = bytes ∧ size clauses ≤ fatLimit := by
  cases h with
  | @last _ header _ padding bytes hgap hsection _ =>
    obtain ⟨hpadding, hbytes⟩ := holds_append.mp hholds
    have hpad : padding = List.replicate (gap pos 4) 0 :=
      hpadding.unique hzero (by rw [hgap, List.length_replicate])
    rw [hgap] at hbytes
    cases hsection with
    -- a section of another kind has no clauses
    | foreign word payload => cases hnonempty
    | table word _ htable hsize hfits =>
      have hword := (holds_append.mp hbytes).1
      rw [encode_word] at hword
      obtain ⟨hfirst, hrest⟩ := holds_append.mp hword
      have hfirst : UInt8.ofNat word.toNat = writtenFlags clauses :=
        List.singleton_inj.mp (hfirst.unique hflags rfl)
      have hlow : word.toNat % 256 = (writtenFlags clauses).toNat := by
        rw [← hfirst, UInt8.toNat_ofNat']
      have hisFat : (Header.ofWord word).isFat = isFatRequired clauses := by
        show (UInt8.ofNat (word.toNat % 256)).toNat.testBit fatBit = _
        rw [hlow, UInt8.ofNat_toNat]
        exact (testBit_writtenFlags clauses).2.1
      have hupper := (holds_append.mp hrest).2
      have hsize : word.toNat / 256 = size clauses := by
        have hupper : (Header.ofWord word).size = word.toNat / 256 := by
          refine size_ofWord_of_upper fun hsmall => ?_
          exact hupper.unique (hreserved (hisFat.symm.trans hsmall)) rfl
        rw [← hupper, hsize, hisFat, size_of_nonempty hnonempty]
      have hle : size clauses ≤ fatLimit := by
        have hlt := word.toNat_lt
        show size clauses ≤ 0xffffff
        omega
      have hwritten : headerWord clauses = word := by
        rw [← UInt32.toNat_inj, toNat_headerWord hle]
        omega
      refine ⟨?_, hle⟩
      unfold stored
      rw [hnonempty, if_neg Bool.false_ne_true, hpad, hisFat, hwritten]
  | more _ _ _ hrest => cases hrest

end Written

end MethodSection

namespace RawBody

/-- Where the code of a framed body ends. -/
def codeEnd (raw : RawBody) : Nat := raw.headerSize + raw.header.codeSize.toNat

/-- Where the first section of a framed body stands, if there is one. -/
def sectionStart (raw : RawBody) : Nat := raw.codeEnd + gap raw.codeEnd 4

/-- A fat header for a body that needs one, and nothing in it but its fields. -/
structure CanonicalHeader (raw : RawBody) : Prop where
  /-- Three words of header, and no flags but those for sections and zeroed local variables. -/
  first_word : ∃ word : UInt16, Holds raw.bytes 0 (encode word) ∧ word.toNat / 0x1000 = 3 ∧
    word.toNat % 0x1000 ∈ [0x3, 0xb, 0x13, 0x1b]
  needed : 8 < raw.header.maxStack ∨ 64 ≤ raw.header.codeSize.toNat ∨
    raw.header.localSignature.row ≠ 0 ∨ raw.header.initLocals = true ∨ raw.handlers ≠ []
  sections_nonempty : raw.header.hasSections = true → raw.handlers ≠ []

/-- The clauses of a body in one section, whose clauses are small unless they cannot be. -/
structure CanonicalSections (raw : RawBody) : Prop where
  padding : Holds raw.bytes raw.codeEnd (List.replicate (gap raw.codeEnd 4) 0)
  single : ∃ clauses, MethodSection.StoredSections raw.codeEnd [clauses]
    (raw.bytes.toList.drop raw.codeEnd)
  flags : Holds raw.bytes raw.sectionStart
    [if MethodSection.isFatRequired raw.handlers then 0x41 else 0x01]
  /-- The bytes that a small header leaves unused. -/
  reserved : MethodSection.isFatRequired raw.handlers = false →
    Holds raw.bytes (raw.sectionStart + 2) [0, 0]

/-- The bytes of a body, with given code in them, as they are written. -/
structure Canonical (raw : RawBody) (code : Code RawModel) : Prop where
  tagged : code.IsTagged raw.code.toList
  header : raw.header.isFat = true → raw.CanonicalHeader
  sections : raw.handlers ≠ [] → raw.CanonicalSections

/-! ## Headers -/

section Stored

variable {raw : RawBody} {header code sections : List UInt8}

theorem StoredAs.holds_header (h : raw.StoredAs header code sections) :
    Holds raw.bytes 0 header := by
  rw [h.bytes_eq]
  exact holds_toArray_append header _

theorem StoredAs.codeEnd_eq (h : raw.StoredAs header code sections) :
    raw.codeEnd = header.length + code.length := by
  rw [codeEnd, h.headerSize_eq, h.length_code]

theorem StoredAs.holds_code (h : raw.StoredAs header code sections) :
    Holds raw.bytes raw.headerSize code := by
  rw [h.bytes_eq, h.headerSize_eq]
  exact ⟨header, sections, by rw [List.append_assoc], rfl⟩

theorem StoredAs.code_eq (h : raw.StoredAs header code sections) : raw.code.toList = code := by
  rw [RawBody.code, ← h.length_code]
  exact h.holds_code.extract_eq

theorem StoredAs.drop_codeEnd (h : raw.StoredAs header code sections) :
    raw.bytes.toList.drop raw.codeEnd = sections := by
  rw [h.codeEnd_eq, h.bytes_eq, ← List.append_assoc, ← List.length_append]
  exact List.drop_left

theorem StoredAs.holds_sections (h : raw.StoredAs header code sections) :
    Holds raw.bytes raw.codeEnd sections := by
  rw [h.codeEnd_eq, h.bytes_eq]
  exact ⟨header ++ code, [], by simp, List.length_append⟩

end Stored

theorem needsFat_holding (raw : RawBody) (code : Code RawModel) (codeSize : Nat) :
    (raw.holding code).needsFat codeSize = true ↔
      8 < raw.header.maxStack ∨ 64 ≤ codeSize ∨ raw.header.localSignature.row ≠ 0 ∨
        raw.header.initLocals = true ∨ raw.handlers ≠ [] := by
  unfold MethodBody.needsFat holding Token.isNull
  simp only [Bool.or_eq_true, decide_eq_true_eq, Bool.not_eq_true', List.isEmpty_nil,
    Bool.not_true, Bool.false_eq_true, or_false, beq_eq_false_iff_ne, List.isEmpty_eq_false_iff,
    or_assoc]
  rfl

/-- The flags of a fat header are those for what the body has. -/
theorem fatFlags_mem (b : MethodBody RawModel) :
    b.fatFlags.toNat ∈ [0x3, 0xb, 0x13, 0x1b] := by
  unfold MethodBody.fatFlags
  cases b.initLocals <;> cases b.handlers.isEmpty <;> decide

theorem fatFlags_eq {b : MethodBody RawModel} {flags : Nat} (hmem : flags ∈ [0x3, 0xb, 0x13, 0x1b])
    (hinit : flags.testBit MethodHeader.initLocalsBit = b.initLocals)
    (hsections : flags.testBit MethodHeader.sectionsBit = !b.handlers.isEmpty) :
    b.fatFlags = UInt16.ofNat flags := by
  have hempty : b.handlers.isEmpty = !flags.testBit MethodHeader.sectionsBit := by
    rw [hsections, Bool.not_not]
  unfold MethodBody.fatFlags
  rw [← hinit, hempty]
  clear hinit hsections hempty
  revert flags
  decide

/-- The first word of a fat header that is written. -/
theorem firstWord_spec : ∀ flags ∈ [0x3, 0xb, 0x13, 0x1b],
    let word := UInt16.ofNat (MethodHeader.fatSize / 4 * 0x1000 + flags % 0x1000)
    word.toNat / 0x1000 = 3 ∧ word.toNat % 0x1000 ∈ [0x3, 0xb, 0x13, 0x1b] := by
  decide

section Header

variable {raw : RawBody} {header code sections : List UInt8} {decoded : Code RawModel}

theorem canonicalHeader_of_stored_eq (h : raw.StoredAs header code sections)
    (heq : ((raw.holding decoded).chosenHeader code.length).stored = header)
    (hfat : raw.header.isFat = true) : raw.CanonicalHeader := by
  have hstored : StoredHeader ((raw.holding decoded).chosenHeader code.length) header := by
    rw [← heq]
    exact MethodBody.storedHeader_chosenHeader
  obtain ⟨hheader, _⟩ := h.header_stored.unique hstored (rfl : header ++ [] = header ++ [])
  cases hneeds : (raw.holding decoded).needsFat code.length with
  | false =>
    rw [hheader, MethodBody.chosenHeader_of_tiny hneeds] at hfat
    cases hfat
  | true =>
    have hneeded := (needsFat_holding raw decoded code.length).mp hneeds
    have hsections : raw.header.hasSections = !raw.handlers.isEmpty := by
      rw [hheader]
      exact MethodBody.hasSections_chosenHeader (raw.holding decoded) code.length
    rw [MethodBody.chosenHeader_of_fat hneeds] at heq
    have hword := h.holds_header
    rw [← heq] at hword
    refine ⟨⟨_, (holds_append.mp hword).1, ?_⟩, ?_, ?_⟩
    · exact firstWord_spec _ (fatFlags_mem (raw.holding decoded))
    · rw [← h.length_code]
      exact hneeded
    · intro hyes
      rw [hsections, Bool.not_eq_true'] at hyes
      exact List.isEmpty_eq_false_iff.mp hyes

/-- A tiny header is the one that is written. -/
theorem chosenHeader_of_isTiny (h : raw.StoredAs header code sections)
    (htiny : raw.header.isFat = false) :
    (raw.holding decoded).chosenHeader code.length = raw.header := by
  have hlength := h.length_code
  have hnil := h.sections_nil
  have hstored := h.header_stored
  have hneeds := needsFat_holding raw decoded code.length
  cases hheader : raw.header with
  | fat flags maxStack codeSize localSignature =>
    rw [hheader] at htiny
    cases htiny
  | tiny codeSize =>
    rw [hheader] at hlength hnil hstored hneeds
    have hle : codeSize.toNat ≤ 63 := by
      cases hstored with
      | tiny first _ =>
        have hlt := first.toNat_lt
        rw [UInt32.toNat_ofNat']
        omega
    cases hfat : (raw.holding decoded).needsFat code.length with
    | false =>
      rw [MethodBody.chosenHeader_of_tiny hfat, hlength]
      exact congrArg _ UInt32.ofNat_toNat
    | true =>
      rcases hneeds.mp hfat with hdepth | hlong | hsignature | hinit | hhandlers
      · exact absurd hdepth (show ¬ (8 : UInt16) < 8 by decide)
      · rw [hlength] at hlong
        exact absurd (Nat.le_trans hlong hle) (by decide)
      · exact absurd rfl hsignature
      · cases hinit
      · exact absurd (hnil rfl).2 hhandlers

/-- A canonical fat header is the one that is written, and has nothing behind its fields. -/
theorem chosenHeader_of_isFat (decoded : Code RawModel) (h : raw.StoredAs header code sections)
    (hfat : raw.header.isFat = true) (hcanonical : raw.CanonicalHeader) :
    (raw.holding decoded).chosenHeader code.length = raw.header ∧
      header.length = MethodHeader.fatSize := by
  obtain ⟨⟨word, hword, hnibble, hmem⟩, hneeded, hnonempty⟩ := hcanonical
  have hneeds : (raw.holding decoded).needsFat code.length = true := by
    rw [needsFat_holding, h.length_code]
    exact hneeded
  -- sections are announced exactly if there are clauses: a canonical header does not do it in vain
  have hsections : raw.header.hasSections = !raw.handlers.isEmpty := by
    cases hyes : raw.header.hasSections with
    | true => rw [List.isEmpty_eq_false_iff.mpr (hnonempty hyes), Bool.not_false]
    | false => rw [(h.sections_nil hyes).2, List.isEmpty_nil, Bool.not_true]
  have hlength := h.length_code
  have hstored := h.header_stored
  have hholds := h.holds_header
  rw [MethodBody.chosenHeader_of_fat hneeds]
  cases hheader : raw.header with
  | tiny codeSize =>
    rw [hheader] at hfat
    cases hfat
  | fat flags maxStack codeSize localSignature =>
    rw [hheader] at hlength hstored hsections
    cases hstored with
    | fat flagsAndSize _ _ signature extra _ hsize =>
      have hbytes := hword.unique (holds_append.mp hholds).1 rfl
      have hsame : word = flagsAndSize := by rw [← decode_encode word, hbytes, decode_encode]
      subst hsame
      have hbits : (UInt16.ofNat (word.toNat % 0x1000)).toNat = word.toNat % 0x1000 := by
        rw [UInt16.toNat_ofNat']
        omega
      have hflags : (raw.holding decoded).fatFlags = UInt16.ofNat (word.toNat % 0x1000) := by
        refine fatFlags_eq hmem ?_ ?_
        · show _ = raw.header.initLocals
          rw [← hbits, hheader]
          rfl
        · rw [← hbits]
          exact hsections
      constructor
      · rw [hflags, hlength]
        show MethodHeader.fat _ raw.header.maxStack _ raw.header.localSignature = _
        rw [hheader]
        exact congrArg (MethodHeader.fat _ _ · _) UInt32.ofNat_toNat
      · have hnone : extra.length = 0 := by
          have : word.toNat / 0x1000 * 4 = 12 + extra.length := hsize
          omega
        simp only [List.length_append, length_encode, hnone]
        rfl

end Header

/-! ## Bodies -/

section Body

variable {raw : RawBody} {header code sections : List UInt8} {decoded : Code RawModel}

/-- The header written for a body is the one it was read with exactly if that is tiny or
canonical. -/
theorem stored_header_eq_iff (h : raw.StoredAs header code sections) :
    ((raw.holding decoded).chosenHeader code.length).stored = header ↔
      (raw.header.isFat = true → raw.CanonicalHeader) := by
  constructor
  · exact canonicalHeader_of_stored_eq h
  · intro hcanonical
    cases hfat : raw.header.isFat with
    | false =>
      rw [chosenHeader_of_isTiny h hfat]
      exact h.header_stored.stored_eq fun hyes => Bool.noConfusion (hfat.symm.trans hyes)
    | true =>
      obtain ⟨hchosen, hlength⟩ := chosenHeader_of_isFat decoded h hfat (hcanonical hfat)
      rw [hchosen]
      exact h.header_stored.stored_eq fun _ => hlength

theorem canonicalSections_of_stored_eq (h : raw.StoredAs header code sections)
    (hnonempty : raw.handlers ≠ [])
    (hsize : MethodSection.size raw.handlers ≤ MethodSection.fatLimit)
    (heq : MethodSection.stored raw.codeEnd raw.handlers = sections) : raw.CanonicalSections := by
  have hempty := List.isEmpty_eq_false_iff.mpr hnonempty
  have hholds := h.holds_sections
  rw [← heq] at hholds
  obtain ⟨hpadding, hflags, hreserved⟩ := MethodSection.holds_of_stored hempty hsize hholds
  refine ⟨hpadding, ⟨raw.handlers, ?_⟩, hflags, hreserved⟩
  rw [h.drop_codeEnd, ← heq]
  exact MethodSection.storedSections_stored hempty hsize

theorem stored_eq_of_canonicalSections (h : raw.StoredAs header code sections)
    (hnonempty : raw.handlers ≠ []) (hcanonical : raw.CanonicalSections) :
    MethodSection.stored raw.codeEnd raw.handlers = sections ∧
      MethodSection.size raw.handlers ≤ MethodSection.fatLimit := by
  obtain ⟨hpadding, ⟨clauses, hsingle⟩, hflags, hreserved⟩ := hcanonical
  rw [h.drop_codeEnd] at hsingle
  have hsections : raw.header.hasSections = true := by
    refine Decidable.byContradiction fun hno => hnonempty ?_
    exact (h.sections_nil (Bool.eq_false_iff.mpr hno)).2
  obtain ⟨chain, hchain, hhandlers⟩ := h.sections_stored hsections
  rw [← h.codeEnd_eq] at hchain
  have hclauses : raw.handlers = clauses := by
    rw [hhandlers, hchain.flatten_unique hsingle, List.flatten_singleton]
  rw [← hclauses] at hsingle
  exact MethodSection.stored_of_single (List.isEmpty_eq_false_iff.mpr hnonempty) hsingle
    h.holds_sections hpadding hflags hreserved

/-- No sections are stored for a body without clauses if its header is canonical. -/
theorem sections_nil_of_canonical (h : raw.StoredAs header code sections)
    (hcanonical : raw.header.isFat = true → raw.CanonicalHeader) (hempty : raw.handlers = []) :
    sections = [] := by
  cases hsections : raw.header.hasSections with
  | false => exact (h.sections_nil hsections).1
  | true =>
    have hfat : raw.header.isFat = true := by
      cases hheader : raw.header with
      | tiny codeSize =>
        rw [hheader] at hsections
        cases hsections
      | fat => rfl
    exact absurd hempty ((hcanonical hfat).sections_nonempty hsections)

/-- The bytes written for a body are those it was read from exactly if they are canonical. -/
theorem stored_eq_iff {config : Config} (h : raw.StoredAs header code sections)
    (hfrom : decoded.ReadFrom rawResolver [] config code) :
    MethodSection.size raw.handlers ≤ MethodSection.fatLimit ∧
      (raw.holding decoded).stored (decoded.tagged code) = header ++ (code ++ sections) ↔
    raw.Canonical decoded := by
  have hlength : (decoded.tagged code).length = code.length := length_setTags _ _
  unfold MethodBody.stored
  rw [hlength]
  constructor
  · rintro ⟨hsize, heq⟩
    -- headers end where they say, then equal lengths split off the code
    have hheader := (h.header_stored.unique MethodBody.storedHeader_chosenHeader heq.symm).2.symm
    rw [hheader] at heq
    obtain ⟨hcode, hsections⟩ := List.append_inj (List.append_cancel_left heq) hlength
    rw [← h.codeEnd_eq] at hsections
    refine ⟨?_, (stored_header_eq_iff h).mp hheader, fun hnonempty => ?_⟩
    · rw [h.code_eq]
      exact hfrom.tagged_eq_iff.mp hcode
    · exact canonicalSections_of_stored_eq h hnonempty hsize hsections
  · rintro ⟨htagged, hheader, hsections⟩
    rw [h.code_eq] at htagged
    rw [(stored_header_eq_iff h).mpr hheader, hfrom.tagged_eq_iff.mpr htagged, ← h.codeEnd_eq]
    show _ ∧ header ++ (code ++ MethodSection.stored raw.codeEnd raw.handlers) = _
    cases hhandlers : raw.handlers with
    | nil =>
      rw [sections_nil_of_canonical h hheader hhandlers]
      exact ⟨Nat.zero_le _, rfl⟩
    | cons first rest =>
      have hnonempty : raw.handlers ≠ [] := hhandlers ▸ List.cons_ne_nil first rest
      obtain ⟨heq, hsize⟩ := stored_eq_of_canonicalSections h hnonempty (hsections hnonempty)
      rw [← hhandlers, heq]
      exact ⟨hsize, rfl⟩

end Body

end RawBody

namespace MethodBody

/-- A decoded body is encoded to the bytes it was decoded from exactly if these are canonical. Any
others give an error or different bytes. -/
theorem encode_eq_iff_canonical {data : Array UInt8} {b : MethodBody RawModel}
    (h : decode data rawResolver Config.default = .ok b) :
    ∃ raw, RawBody.read data Config.default = .ok raw ∧
      (b.encode rawBuilder = .ok (data.extract 0 raw.size) ↔ raw.Canonical b.code) := by
  obtain ⟨raw, hread, hresolve⟩ := decode_eq_ok.mp h
  refine ⟨raw, hread, ?_⟩
  obtain ⟨header, code, sections, hstored, hholds⟩ := RawBody.read_sound rfl hread
  obtain ⟨code', hcode, hlength, hfrom, hbody⟩ := RawBody.resolve_raw_sound hresolve
  obtain rfl : code' = code :=
    hcode.unique hstored.holds_code (hlength.trans hstored.length_code.symm)
  have hdata : data.extract 0 raw.size = (header ++ (code' ++ sections)).toArray := by
    have hextract := hholds.extract_eq
    rw [← Array.toList_inj, RawBody.size, hstored.bytes_eq, List.size_toArray]
    rw [Nat.zero_add] at hextract
    exact hextract
  have hle : code'.length ≤ 0xffffffff := by
    rw [hlength]
    exact Nat.le_of_lt_succ raw.header.codeSize.toNat_lt
  rw [encode_eq_ok_of_readFrom (rawBuilder_inverts []) hfrom hle, hdata, Array.mk.injEq, hbody]
  exact RawBody.stored_eq_iff hstored hfrom

set_option maxRecDepth 4000 in
/-- A fat header that asks for zeroed local variables, a return, and a byte behind. -/
theorem encode_eq_iff_canonical_zeroed :
    ∃ b raw, decode #[0x13, 0x30, 1, 0, 1, 0, 0, 0, 0, 0, 0, 0, 0x2a, 0xff] rawResolver
        Config.default = .ok b ∧
      RawBody.read #[0x13, 0x30, 1, 0, 1, 0, 0, 0, 0, 0, 0, 0, 0x2a, 0xff] Config.default =
        .ok raw ∧
      raw.size = 13 ∧ raw.Canonical b.code := by
  have hread : RawBody.read #[0x13, 0x30, 1, 0, 1, 0, 0, 0, 0, 0, 0, 0, 0x2a, 0xff]
      Config.default = .ok ⟨.fat 0x13 1 1 ⟨0⟩, 12,
        #[0x13, 0x30, 1, 0, 1, 0, 0, 0, 0, 0, 0, 0, 0x2a], []⟩ := rfl
  have hdecode := decode_eq_ok.mpr ⟨_, hread, (rfl : RawBody.resolve _ rawResolver _ =
    .ok ⟨1, true, ⟨0⟩, [], ⟨[⟨0, ⟨41⟩, .none⟩]⟩, []⟩)⟩
  obtain ⟨raw, hraw, hiff⟩ := encode_eq_iff_canonical hdecode
  cases hread.symm.trans hraw
  exact ⟨_, _, hdecode, hread, rfl, hiff.mp rfl⟩

end MethodBody

end CilCodec
