import CilCodec.Method.Body
import CilCodec.Proofs.Code.RoundTrip
import CilCodec.Proofs.Method.Header
import CilCodec.Proofs.Method.Section

/-!
# CilCodec.Proofs.Method.Body

Bodies of methods as three runs of bytes: a header, code, and sections (II.25.4).

Results:
1. `RawBody.read_sound`, `RawBody.read_complete`: framing a body is finding the three runs.
2. `MethodBody.decode_eq_ok`, `RawBody.resolve_sound`: what a decoded body holds.
3. `MethodBody.encode_eq_ok`: when a body is encoded, and to which bytes.
-/

namespace CilCodec

open Reader LittleEndian

/-! ## Framing -/

namespace RawBody

/-- The runs of bytes that a framed body consists of. -/
structure StoredAs (raw : RawBody) (header code sections : List UInt8) : Prop where
  header_stored : StoredHeader raw.header header
  headerSize_eq : raw.headerSize = header.length
  length_code : code.length = raw.header.codeSize.toNat
  bytes_eq : raw.bytes = (header ++ (code ++ sections)).toArray
  /-- Sections follow the code if the header says so. -/
  sections_stored : raw.header.hasSections = true →
    ∃ chain, MethodSection.StoredSections (header.length + code.length) chain sections ∧
      raw.handlers = chain.flatten
  sections_nil : raw.header.hasSections = false → sections = [] ∧ raw.handlers = []

theorem reader_eq_ok {config : Config} {c c' : Cursor} {raw : RawBody} :
    reader config c = .ok raw c' ↔
      ∃ header inCode behind handlers, MethodHeader.reader c = .ok header inCode ∧
        advance header.codeSize.toNat inCode = .ok () behind ∧
        (if header.hasSections then MethodSection.reader config else pure []) behind =
          .ok handlers c' ∧
        ⟨header, inCode.pos, c'.passed, handlers⟩ = raw := by
  unfold reader
  simp only [bind_eq_ok, position_eq_ok]
  constructor
  · rintro ⟨header, _, hheader, _, inCode, ⟨rfl, rfl⟩, _, behind, hadvance, h⟩
    obtain ⟨handlers, last, hhandlers, h⟩ := ite_bind_eq_ok.mp h
    cases h
    exact ⟨header, _, behind, handlers, hheader, hadvance, hhandlers, rfl⟩
  · rintro ⟨header, inCode, behind, handlers, hheader, hadvance, hhandlers, rfl⟩
    exact ⟨header, _, hheader, _, inCode, ⟨rfl, rfl⟩, (), behind, hadvance,
      ite_bind_eq_ok.mpr ⟨handlers, _, hhandlers, rfl⟩⟩

/-- What a cursor has passed from the start are the bytes up to it. -/
theorem passed_eq {data : Array UInt8} {bytes : List UInt8} {c' : Cursor}
    (h : (Cursor.start data).Passes bytes c') : c'.passed = bytes.toArray := by
  have hextract := h.holds.extract_eq
  unfold Cursor.passed
  rw [h.data_eq, h.pos_eq, ← Array.toList_inj]
  rw [← hextract]
  simp [Cursor.start]

theorem read_sound {data : Array UInt8} {config : Config} {raw : RawBody}
    (hstrict : config.lenientSections = false) (h : read data config = .ok raw) :
    ∃ header code sections, raw.StoredAs header code sections ∧
      Holds data 0 (header ++ (code ++ sections)) := by
  obtain ⟨c', hread⟩ := answer_eq_ok.mp h
  obtain ⟨parsed, inCode, behind, handlers, hheader, hadvance, hhandlers, rfl⟩ :=
    reader_eq_ok.mp hread
  obtain ⟨header, hpassed, hstored⟩ := headerReader_sound hheader
  obtain ⟨code, hcode, hpassed'⟩ := Cursor.Passes.of_advance hadvance
  have hstart : (Cursor.start data).pos = 0 := rfl
  have hheaderSize : inCode.pos = header.length := by
    rw [hpassed.pos_eq, hstart, Nat.zero_add]
  have hframed : behind.pos = header.length + code.length := by
    rw [hpassed'.pos_eq, hheaderSize]
  cases hsections : parsed.hasSections with
  | true =>
    rw [hsections, if_pos rfl] at hhandlers
    obtain ⟨chain, sections, hpassed'', hchain, rfl⟩ :=
      MethodSection.sectionsReader_sound hstrict hhandlers
    have hall := hpassed.trans (hpassed'.trans hpassed'')
    rw [hframed] at hchain
    exact ⟨header, code, sections, ⟨hstored, hheaderSize, hcode, passed_eq hall,
      fun _ => ⟨chain, hchain, rfl⟩, fun hno => Bool.noConfusion (hsections.symm.trans hno)⟩,
      hall.holds⟩
  | false =>
    rw [hsections, if_neg Bool.false_ne_true] at hhandlers
    obtain ⟨rfl, rfl⟩ := pure_eq_ok.mp hhandlers
    have hall := hpassed.trans hpassed'
    rw [← List.append_nil code] at hall
    exact ⟨header, code, [], ⟨hstored, hheaderSize, hcode, passed_eq hall,
      fun hyes => Bool.noConfusion (hsections.symm.trans hyes), fun _ => ⟨rfl, rfl⟩⟩, hall.holds⟩

theorem read_complete {data : Array UInt8} (config : Config) {raw : RawBody}
    {header code sections : List UInt8} (h : raw.StoredAs header code sections)
    (hholds : Holds data 0 (header ++ (code ++ sections))) : read data config = .ok raw := by
  obtain ⟨parsed, headerSize, bytes, handlers⟩ := raw
  obtain ⟨hstored, hheaderSize, hcode, hbytes, hchain, hnil⟩ := h
  dsimp only at hstored hheaderSize hcode hbytes hchain hnil
  obtain ⟨inCode, hheader, hpassed⟩ := headerReader_complete (c := Cursor.start data) hstored
    (holds_append.mp hholds).1
  have hbehind := hpassed.holds_behind hholds
  have hadvance : advance parsed.codeSize.toNat inCode =
      .ok () { inCode with pos := inCode.pos + code.length } := by
    rw [← hcode]
    exact advance_of_holds (holds_append.mp hbehind).1
  have hpassed' := Cursor.Passes.of_holds (holds_append.mp hbehind).1
  have hrest := hpassed'.holds_behind hbehind
  have hinCode : inCode.pos = header.length := by
    rw [hpassed.pos_eq]
    exact Nat.zero_add _
  subst headerSize bytes
  refine answer_eq_ok.mpr ?_
  simp only [reader_eq_ok]
  cases hsections : parsed.hasSections with
  | true =>
    obtain ⟨chain, hstored', rfl⟩ := hchain hsections
    rw [← hinCode] at hstored'
    obtain ⟨c', hread, hpassed''⟩ := MethodSection.sectionsReader_complete config
      (c := { inCode with pos := inCode.pos + code.length }) hstored' hrest
    rw [← passed_eq (hpassed.trans (hpassed'.trans hpassed'')), ← hinCode]
    refine ⟨c', parsed, inCode, _, chain.flatten, hheader, hadvance, ?_, rfl⟩
    rw [hsections, if_pos rfl]
    exact hread
  | false =>
    obtain ⟨rfl, rfl⟩ := hnil hsections
    have hall := hpassed.trans hpassed'
    rw [List.append_nil, ← passed_eq hall, ← hinCode]
    refine ⟨_, parsed, inCode, _, [], hheader, hadvance, ?_, rfl⟩
    rw [hsections, if_neg Bool.false_ne_true]
    rfl

/-! ## Resolving -/

variable {M : OperandModel} {R : Resolver M} {config : Config}

/-- The local variables of a header: none for a null signature. -/
def localsFor (R : Resolver M) (header : MethodHeader) : Except Error (List M.LocalVariable) :=
  if header.localSignature.isNull then .ok [] else R.localSignature header.localSignature

theorem resolve_eq_ok {raw : RawBody} {b : MethodBody M} :
    raw.resolve R config = .ok b ↔
      ∃ locals code c', localsFor R raw.header = .ok locals ∧ raw.headerSize ≤ raw.bytes.size ∧
        Code.reader raw.header.codeSize.toNat R locals config ⟨raw.bytes, raw.headerSize, #[]⟩ =
          .ok code c' ∧
        ⟨raw.header.maxStack, raw.header.initLocals, raw.header.localSignature, locals, code,
          raw.handlers⟩ = b := by
  have hlocals : ∀ {c c' : Cursor} {locals : List M.LocalVariable},
      (if raw.header.localSignature.isNull = true then (pure [] : Reader _)
        else ofResult (R.localSignature raw.header.localSignature)) c = .ok locals c' ↔
      localsFor R raw.header = .ok locals ∧ c = c' := by
    intro c c' locals
    unfold localsFor
    split
    · rw [pure_eq_ok, Except.ok.injEq]
    · rw [ofResult_eq_ok]
  unfold resolve
  rw [answer_eq_ok]
  unfold resolver
  constructor
  · rintro ⟨c', h⟩
    obtain ⟨locals, _, hchosen, h⟩ := ite_bind_eq_ok.mp h
    obtain ⟨hresolved, rfl⟩ := hlocals.mp hchosen
    simp only [bind_eq_ok, seek_eq_ok, pure_eq_ok] at h
    obtain ⟨_, _, ⟨hroom, rfl⟩, code, _, hcode, rfl, rfl⟩ := h
    exact ⟨locals, code, _, hresolved, hroom, hcode, rfl⟩
  · rintro ⟨locals, code, c', hresolved, hroom, hcode, rfl⟩
    refine ⟨c', ite_bind_eq_ok.mpr ⟨locals, _, hlocals.mpr ⟨hresolved, rfl⟩, ?_⟩⟩
    simp only [bind_eq_ok, seek_eq_ok, pure_eq_ok]
    exact ⟨(), _, ⟨hroom, rfl⟩, code, _, hcode, rfl, rfl⟩

/-- A resolved body, and the bytes of its code. -/
theorem resolve_sound {raw : RawBody} {b : MethodBody M} (h : raw.resolve R config = .ok b) :
    ∃ code, Holds raw.bytes raw.headerSize code ∧ code.length = raw.header.codeSize.toNat ∧
      b.code.ReadFrom R b.locals config code ∧
      localsFor R raw.header = .ok b.locals ∧
      b = ⟨raw.header.maxStack, raw.header.initLocals, raw.header.localSignature, b.locals, b.code,
        raw.handlers⟩ := by
  obtain ⟨locals, code, c', hlocals, _, hcode, rfl⟩ := resolve_eq_ok.mp h
  obtain ⟨bytes, hlength, hpassed, hfrom⟩ := Code.reader_sound hcode
  exact ⟨bytes, hpassed.holds, hlength, hfrom, hlocals, rfl⟩

/-- A body is resolved from the bytes of its code. -/
theorem resolve_complete {raw : RawBody} {locals : List M.LocalVariable} {code : Code M}
    {bytes : List UInt8} (hlocals : localsFor R raw.header = .ok locals)
    (hholds : Holds raw.bytes raw.headerSize bytes)
    (hlength : bytes.length = raw.header.codeSize.toNat)
    (h : code.ReadFrom R locals config bytes) :
    raw.resolve R config = .ok ⟨raw.header.maxStack, raw.header.initLocals,
      raw.header.localSignature, locals, code, raw.handlers⟩ := by
  obtain ⟨c', hread, _⟩ := Code.reader_complete (c := ⟨raw.bytes, raw.headerSize, #[]⟩) h hholds
  rw [hlength] at hread
  have hroom : raw.headerSize ≤ raw.bytes.size := Nat.le_trans (Nat.le_add_right _ _) hholds.le
  exact resolve_eq_ok.mpr ⟨locals, code, c', hlocals, hroom, hread, rfl⟩

section Raw

variable {raw : RawBody}

/-- The body that is framed as `raw`, with given code, operands being stored numbers. -/
def holding (raw : RawBody) (code : Code RawModel) : MethodBody RawModel where
  maxStack := raw.header.maxStack
  initLocals := raw.header.initLocals
  localSignature := raw.header.localSignature
  locals := []
  code
  handlers := raw.handlers

theorem localsFor_raw (header : MethodHeader) : localsFor rawResolver header = .ok [] := by
  unfold localsFor
  split <;> rfl

theorem resolve_raw_sound {b : MethodBody RawModel} (h : raw.resolve rawResolver config = .ok b) :
    ∃ code, Holds raw.bytes raw.headerSize code ∧ code.length = raw.header.codeSize.toNat ∧
      b.code.ReadFrom rawResolver [] config code ∧ b = raw.holding b.code := by
  obtain ⟨code, hholds, hlength, hfrom, hlocals, hbody⟩ := resolve_sound h
  rw [localsFor_raw] at hlocals
  rw [← Except.ok.inj hlocals] at hbody hfrom
  exact ⟨code, hholds, hlength, hfrom, hbody⟩

end Raw

end RawBody

namespace MethodBody

variable {M : OperandModel}

/-- Decoding is framing and then resolving. -/
theorem decode_eq_match {data : Array UInt8} {R : Resolver M} {config : Config} :
    decode data R config =
      match RawBody.read data config with
      | .ok raw => raw.resolve R config
      | .error e => .error e := by
  unfold decode report RawBody.read RawBody.resolve answer
  obtain ⟨result, notices⟩ := (RawBody.reader config).report data
  cases result <;> rfl

theorem decode_eq_ok {data : Array UInt8} {R : Resolver M} {config : Config} {b : MethodBody M} :
    decode data R config = .ok b ↔
      ∃ raw, RawBody.read data config = .ok raw ∧ raw.resolve R config = .ok b := by
  unfold decode report RawBody.read RawBody.resolve answer
  split
  next e notices hread => simp [hread]
  next raw notices hread => simp [hread]

/-! ## Writing -/

/-- The fat flags hold the format, and one bit for each of the two things they announce. -/
theorem fatFlags_spec (b : MethodBody M) :
    b.fatFlags.toNat % 4 = MethodHeader.fatFormat ∧ b.fatFlags.toNat < 0x1000 ∧
      b.fatFlags.toNat.testBit MethodHeader.initLocalsBit = b.initLocals ∧
      b.fatFlags.toNat.testBit MethodHeader.sectionsBit = !b.handlers.isEmpty := by
  unfold fatFlags
  cases b.initLocals <;> cases b.handlers.isEmpty <;> decide

/-- The header that a body of `codeSize` bytes of code is written with. -/
def chosenHeader (b : MethodBody M) (codeSize : Nat) : MethodHeader :=
  if b.needsFat codeSize then
    .fat b.fatFlags b.maxStack (UInt32.ofNat codeSize) b.localSignature
  else .tiny (UInt32.ofNat codeSize)

theorem header_eq_ok {b : MethodBody M} {codeSize : Nat} {header : MethodHeader} :
    b.header codeSize = .ok header ↔
      codeSize ≤ 0xffffffff ∧ b.chosenHeader codeSize = header := by
  unfold MethodBody.header chosenHeader
  split
  next h =>
    constructor
    · intro hok
      cases hok
    · rintro ⟨hle, _⟩
      exact absurd h (Nat.not_lt.mpr hle)
  next h =>
    split
    · rw [Except.ok.injEq]
      exact (and_iff_right (Nat.not_lt.mp h)).symm
    · rw [Except.ok.injEq]
      exact (and_iff_right (Nat.not_lt.mp h)).symm

section ChosenHeader

variable {b : MethodBody M} {codeSize : Nat}

theorem chosenHeader_of_fat (h : b.needsFat codeSize = true) :
    b.chosenHeader codeSize =
      .fat b.fatFlags b.maxStack (UInt32.ofNat codeSize) b.localSignature :=
  if_pos h

theorem chosenHeader_of_tiny (h : b.needsFat codeSize = false) :
    b.chosenHeader codeSize = .tiny (UInt32.ofNat codeSize) :=
  if_neg (Bool.eq_false_iff.mp h)

theorem isFat_chosenHeader (b : MethodBody M) (codeSize : Nat) :
    (b.chosenHeader codeSize).isFat = b.needsFat codeSize := by
  cases hfat : b.needsFat codeSize with
  | true =>
    rw [chosenHeader_of_fat hfat]
    rfl
  | false =>
    rw [chosenHeader_of_tiny hfat]
    rfl

theorem needsFat_eq_false :
    b.needsFat codeSize = false ↔
      b.maxStack ≤ MethodHeader.tinyMaxStack ∧ codeSize ≤ MethodHeader.tinyMaxCode ∧
        b.locals = [] ∧ b.localSignature.isNull = true ∧ b.initLocals = false ∧
        b.handlers = [] := by
  unfold needsFat
  simp only [Bool.or_eq_false_iff, decide_eq_false_iff_not, Nat.not_lt, UInt16.not_lt,
    Bool.not_eq_false', List.isEmpty_iff, and_assoc]

theorem tiny_of_chosenHeader {size : UInt32} (h : b.chosenHeader codeSize = .tiny size) :
    size.toNat ≤ MethodHeader.tinyMaxCode := by
  cases hfat : b.needsFat codeSize with
  | true =>
    rw [chosenHeader_of_fat hfat] at h
    cases h
  | false =>
    rw [chosenHeader_of_tiny hfat] at h
    cases h
    have hle := (needsFat_eq_false.mp hfat).2.1
    rw [UInt32.toNat_ofNat']
    exact Nat.le_trans (Nat.mod_le _ _) hle

theorem storedHeader_chosenHeader :
    StoredHeader (b.chosenHeader codeSize) (b.chosenHeader codeSize).stored := by
  refine MethodHeader.storedHeader_stored (fun size h => tiny_of_chosenHeader h) ?_
  intro flags hflags
  cases hfat : b.needsFat codeSize with
  | true =>
    rw [chosenHeader_of_fat hfat] at hflags
    cases hflags
    exact ⟨b.fatFlags_spec.1, b.fatFlags_spec.2.1⟩
  | false =>
    rw [chosenHeader_of_tiny hfat] at hflags
    cases hflags

theorem codeSize_chosenHeader (h : codeSize ≤ 0xffffffff) :
    (b.chosenHeader codeSize).codeSize.toNat = codeSize := by
  have hsize : (UInt32.ofNat codeSize).toNat = codeSize :=
    UInt32.toNat_ofNat_of_lt' (Nat.lt_succ_of_le h)
  unfold chosenHeader
  split
  · exact hsize
  · exact hsize

theorem hasSections_chosenHeader (b : MethodBody M) (codeSize : Nat) :
    (b.chosenHeader codeSize).hasSections = !b.handlers.isEmpty := by
  cases hfat : b.needsFat codeSize with
  | true =>
    rw [chosenHeader_of_fat hfat]
    exact b.fatFlags_spec.2.2.2
  | false =>
    rw [chosenHeader_of_tiny hfat, (needsFat_eq_false.mp hfat).2.2.2.2.2]
    rfl

theorem initLocals_chosenHeader (b : MethodBody M) (codeSize : Nat) :
    (b.chosenHeader codeSize).initLocals = b.initLocals := by
  cases hfat : b.needsFat codeSize with
  | true =>
    rw [chosenHeader_of_fat hfat]
    exact b.fatFlags_spec.2.2.1
  | false =>
    rw [chosenHeader_of_tiny hfat, (needsFat_eq_false.mp hfat).2.2.2.2.1]
    rfl

end ChosenHeader

/-- The bytes of a body with given bytes of code. -/
def stored (b : MethodBody M) (code : List UInt8) : List UInt8 :=
  (b.chosenHeader code.length).stored ++ (code ++
    MethodSection.stored ((b.chosenHeader code.length).stored.length + code.length) b.handlers)

/-- The notice that a written body leaves. -/
def framing (b : MethodBody M) (codeSize : Nat) : Notice :=
  .framing (b.chosenHeader codeSize).isFat codeSize b.handlers.length

/-- A body is written exactly if its code is and sections can hold its clauses. -/
theorem writer_eq_ok {b : MethodBody M} {B : Builder M} {out out' : Buffer} {u : Unit} :
    b.writer B out = .ok u out' ↔
      ∃ code, b.code.encode B = .ok code ∧ code.size ≤ 0xffffffff ∧
        MethodSection.size b.handlers ≤ MethodSection.fatLimit ∧
        Buffer.append ⟨out.bytes, out.notices.push (b.framing code.size)⟩ (b.stored code.toList) =
          out' := by
  -- all that can fail comes first; header, code and sections are then written whatever the buffer
  have hheader : ∀ (codeSize : Nat) (middle : Buffer),
      (b.chosenHeader codeSize).writer middle =
        .ok () (middle.append (b.chosenHeader codeSize).stored) := fun codeSize =>
    MethodHeader.writer_puts fun size h => tiny_of_chosenHeader h
  have hsections : ∀ (code : Array UInt8), MethodSection.size b.handlers ≤ MethodSection.fatLimit →
      MethodSection.writer out.pos b.handlers ((Buffer.append ⟨out.bytes, out.notices.push
          (b.framing code.size)⟩ (b.chosenHeader code.size).stored).append code.toList) =
        .ok () (Buffer.append ⟨out.bytes, out.notices.push (b.framing code.size)⟩
          (b.stored code.toList)) := by
    intro code hsize
    have hpos : ((Buffer.append ⟨out.bytes, out.notices.push (b.framing code.size)⟩
        (b.chosenHeader code.size).stored).append code.toList).pos =
          out.pos + ((b.chosenHeader code.size).stored.length + code.toList.length) := by
      rw [Buffer.pos_append, Buffer.pos_append, Nat.add_assoc]
      rfl
    rw [MethodSection.writer_eq hsize hpos, Buffer.append_append, Buffer.append_append]
    rfl
  unfold writer
  simp only [bind_eq_ok, Writer.position_eq_ok, Writer.ofAnswer_eq_ok, Writer.ofResult_eq_ok,
    Writer.note_eq_ok, Writer.put_eq_ok, header_eq_ok]
  constructor
  · rintro ⟨_, _, ⟨rfl, rfl⟩, code, _, ⟨hcode, rfl⟩, _, _, ⟨⟨hle, rfl⟩, rfl⟩, _, _, rfl, _, _,
      ⟨hcheck, rfl⟩, _, _, hwrite, _, _, rfl, h⟩
    have hsize := MethodSection.check_eq_ok.mp hcheck
    rw [hheader] at hwrite
    cases hwrite
    have hlast := (hsections code hsize).symm.trans h
    cases hlast
    exact ⟨code, hcode, hle, hsize, rfl⟩
  · rintro ⟨code, hcode, hle, hsize, rfl⟩
    exact ⟨_, _, ⟨rfl, rfl⟩, code, _, ⟨hcode, rfl⟩, _, _, ⟨⟨hle, rfl⟩, rfl⟩, (), _, rfl, (), _,
      ⟨MethodSection.check_eq_ok.mpr hsize, rfl⟩, (), _, hheader _ _, (), _, rfl,
      hsections code hsize⟩

theorem encode_eq_ok {b : MethodBody M} {B : Builder M} {bytes : Array UInt8} :
    b.encode B = .ok bytes ↔
      ∃ code, b.code.encode B = .ok code ∧ code.size ≤ 0xffffffff ∧
        MethodSection.size b.handlers ≤ MethodSection.fatLimit ∧
        (b.stored code.toList).toArray = bytes := by
  have hbytes : ∀ (notices : Array Notice) (code : List UInt8),
      (Buffer.append ⟨Buffer.empty.bytes, notices⟩ code).bytes = code.toArray := by
    intro notices code
    rw [← Array.toList_inj, Buffer.toList_append]
    rfl
  unfold encode
  rw [Writer.answer_eq_ok]
  simp only [writer_eq_ok]
  constructor
  · rintro ⟨_, ⟨code, hcode, hle, hsize, rfl⟩, rfl⟩
    exact ⟨code, hcode, hle, hsize, (hbytes _ _).symm⟩
  · rintro ⟨code, hcode, hle, hsize, rfl⟩
    exact ⟨_, ⟨code, hcode, hle, hsize, rfl⟩, hbytes _ _⟩

/-- A body whose code was read is written, if sections can hold its clauses. -/
theorem encode_eq_ok_of_readFrom {b : MethodBody M} {R : Resolver M} {B : Builder M}
    {locals : List M.LocalVariable} {config : Config} {code : List UInt8}
    {bytes : Array UInt8} (hinverts : B.Inverts R locals)
    (hfrom : b.code.ReadFrom R locals config code) (hlength : code.length ≤ 0xffffffff) :
    b.encode B = .ok bytes ↔
      MethodSection.size b.handlers ≤ MethodSection.fatLimit ∧
        (b.stored (b.code.tagged code)).toArray = bytes := by
  have hcode : b.code.encode B = .ok (b.code.tagged code).toArray :=
    (hfrom.puts hinverts hlength).answer_eq
  rw [encode_eq_ok, hcode]
  constructor
  · rintro ⟨_, hsame, _, hsize, hbytes⟩
    cases hsame
    exact ⟨hsize, hbytes⟩
  · rintro ⟨hsize, hbytes⟩
    refine ⟨_, rfl, ?_, hsize, hbytes⟩
    rw [List.size_toArray, Code.tagged, length_setTags]
    exact hlength

end MethodBody

end CilCodec
