import CilCodec.Proofs.Method.Body

/-!
# CilCodec.Proofs.Method.RoundTrip

Encoding bodies and decoding them again.

The tiny header has no room for a stack depth and a local signature. It is chosen for small depths
and null signatures, and read as the depth 8 and the signature 0, so these two fields of a body can
change on the way. Nothing else does, apart from labels to offsets, which are bound.

Results:
1. `decode_of_encode`: what an encoded body is decoded as, with anything behind it.
2. `roundTrip_iff`: a decoded body survives being encoded and decoded again exactly if one section
   can hold its clauses and the header chosen for it keeps its depth and signature.
-/

namespace CilCodec

open Reader

namespace MethodBody

section Stored

variable {M : OperandModel} {R : Resolver M} {config : Config} {b : MethodBody M}
  {code : List UInt8}

/-- The body `b`, with given code, as it is framed when it is read back. -/
def reframed (b : MethodBody M) (code : List UInt8) : RawBody where
  header := b.chosenHeader code.length
  headerSize := (b.chosenHeader code.length).stored.length
  bytes := (b.stored code).toArray
  handlers := b.handlers

theorem storedAs_reframed (hcode : code.length ≤ 0xffffffff)
    (hsize : MethodSection.size b.handlers ≤ MethodSection.fatLimit) :
    (b.reframed code).StoredAs (b.chosenHeader code.length).stored code
      (MethodSection.stored ((b.chosenHeader code.length).stored.length + code.length)
        b.handlers) where
  header_stored := storedHeader_chosenHeader
  headerSize_eq := rfl
  length_code := (codeSize_chosenHeader hcode).symm
  bytes_eq := rfl
  sections_stored h := by
    have hnonempty : b.handlers.isEmpty = false := by
      rw [← Bool.not_eq_true', ← hasSections_chosenHeader b code.length]
      exact h
    refine ⟨[b.handlers], MethodSection.storedSections_stored hnonempty hsize, ?_⟩
    exact List.flatten_singleton.symm
  sections_nil h := by
    have hempty : b.handlers = [] := by
      rw [← List.isEmpty_iff, ← Bool.not_eq_false', ← hasSections_chosenHeader b code.length]
      exact h
    refine ⟨?_, hempty⟩
    rw [hempty]
    rfl

/-- The bytes of a body are decoded to what its header and the code in them say, whatever
follows. -/
theorem decode_stored {locals : List M.LocalVariable} {code' : Code M}
    (hcode : code.length ≤ 0xffffffff)
    (hsize : MethodSection.size b.handlers ≤ MethodSection.fatLimit)
    (hlocals : RawBody.localsFor R (b.chosenHeader code.length) = .ok locals)
    (h : code'.ReadFrom R locals config code)
    (trailing : List UInt8) :
    decode (b.stored code ++ trailing).toArray R config =
      .ok ⟨(b.chosenHeader code.length).maxStack, b.initLocals,
        (b.chosenHeader code.length).localSignature, locals, code', b.handlers⟩ := by
  have hread := RawBody.read_complete config (storedAs_reframed hcode hsize)
    (holds_toArray_append (b.stored code) trailing)
  have hholds : Holds (b.reframed code).bytes (b.reframed code).headerSize code :=
    ⟨_, _, (List.append_assoc _ _ _).symm, rfl⟩
  have hresolve : (b.reframed code).resolve R config = .ok _ :=
    RawBody.resolve_complete hlocals hholds (codeSize_chosenHeader hcode).symm h
  rw [← initLocals_chosenHeader b code.length]
  exact decode_eq_ok.mpr ⟨_, hread, hresolve⟩

end Stored

/-! ## From bodies to bodies -/

/-- The body that is left when `b` is encoded and decoded again, operands being stored numbers: the
labels are bound, local variables are not stored, and a tiny header stands for the depth 8 and no
signature. -/
def reread (b : MethodBody RawModel) : MethodBody RawModel where
  maxStack := if b.isFat then b.maxStack else 8
  initLocals := b.initLocals
  localSignature := if b.isFat then b.localSignature else ⟨0⟩
  locals := []
  code := b.code.placed.relabelled
  handlers := b.handlers

section RawBodies

variable {b : MethodBody RawModel} {bytes : Array UInt8} {config : Config}

/-- The depth and the signature that the header of a body stands for. -/
theorem maxStack_chosenHeader (b : MethodBody RawModel) :
    (b.chosenHeader b.code.size).maxStack = b.reread.maxStack := by
  unfold chosenHeader reread isFat
  cases b.needsFat b.code.size
  · rfl
  · rfl

theorem localSignature_chosenHeader (b : MethodBody RawModel) :
    (b.chosenHeader b.code.size).localSignature = b.reread.localSignature := by
  unfold chosenHeader reread isFat
  cases b.needsFat b.code.size
  · rfl
  · rfl

theorem decode_reread (hstrict : config.strictBranches = true →
      b.code.placed.relabelled.instructions.flatMap Instruction.looseBranches = [])
    (hlimit : ∀ i ∈ b.code.instructions,
      i.operand.switchLength ≤ config.maxSwitchTargets.toNat)
    (h : b.encode rawBuilder = .ok bytes) (trailing : Array UInt8) :
    decode (bytes ++ trailing) rawResolver config = .ok b.reread := by
  obtain ⟨code, hcode, hle, hsize, rfl⟩ := encode_eq_ok.mp h
  obtain ⟨out, hwrite, rfl⟩ := Writer.answer_eq_ok.mp hcode
  obtain ⟨written, rfl, hfrom⟩ := Code.readFrom_of_writer (rawResolver_inverts []) hwrite hlimit
    hstrict
  have hcode : (Buffer.empty.append written).bytes.toList = written :=
    Buffer.toList_append Buffer.empty written
  have hlength : written.length = b.code.size := by
    rw [← hfrom.size_eq, Code.size_relabelled, Code.size_placed]
  rw [← Array.length_toList, hcode] at hle
  rw [hcode]
  have hdecode := decode_stored hle hsize (RawBody.localsFor_raw _) hfrom trailing.toList
  rw [← List.append_toArray, Array.toArray_toList] at hdecode
  rw [hdecode, hlength, maxStack_chosenHeader, localSignature_chosenHeader]
  rfl

end RawBodies

/-- An encoded body is decoded from the bytes written, whatever follows them, to what it was but for
the labels, and for the depth and the signature if its header is tiny. -/
theorem decode_of_encode {b : MethodBody RawModel} {config : Config} {bytes : Array UInt8}
    (hloose : config.strictBranches = false)
    (hlimit : ∀ i ∈ b.code.instructions,
      i.operand.switchLength ≤ config.maxSwitchTargets.toNat)
    (h : b.encode rawBuilder = .ok bytes) (trailing : Array UInt8) :
    ∃ b', decode (bytes ++ trailing) rawResolver config = .ok b' ∧
      b'.handlers = b.handlers ∧ b'.initLocals = b.initLocals ∧
      b'.code = b.code.placed.relabelled ∧ (b.code.IsPlaced → b'.code = b.code.relabelled) ∧
      b'.locals = [] ∧
      (b'.maxStack, b'.localSignature) =
        if b.isFat then (b.maxStack, b.localSignature) else (8, ⟨0⟩) := by
  have hstrict : config.strictBranches = true →
      b.code.placed.relabelled.instructions.flatMap Instruction.looseBranches = [] :=
    fun hyes => Bool.noConfusion (hyes.symm.trans hloose)
  refine ⟨b.reread, decode_reread hstrict hlimit h trailing, rfl, rfl, rfl, ?_, rfl, ?_⟩
  · intro hplaced
    have hcode : b.code.placed = b.code := congrArg Code.mk hplaced
    show b.code.placed.relabelled = b.code.relabelled
    rw [hcode]
  · unfold reread
    cases b.isFat
    · rfl
    · rfl

/-- A branch to the return behind it, in a body that claims a stack depth of 3. -/
theorem decode_of_encode_tiny :
    encode ⟨3, false, ⟨0x11000000⟩, [],
        ⟨[⟨0, ⟨42⟩, .target (.detached 2)⟩, ⟨2, ⟨41⟩, .none⟩]⟩, []⟩ rawBuilder =
      .ok #[0x0e, 0x2b, 0, 0x2a] ∧
    ∃ b', decode #[0x0e, 0x2b, 0, 0x2a, 0xff] rawResolver Config.default = .ok b' ∧
      b'.code = ⟨[⟨0, ⟨42⟩, .target (.instruction 1)⟩, ⟨2, ⟨41⟩, .none⟩]⟩ ∧
      (b'.maxStack, b'.localSignature) = (8, ⟨0⟩) := by
  have hencode : encode ⟨3, false, ⟨0x11000000⟩, [],
      ⟨[⟨0, ⟨42⟩, .target (.detached 2)⟩, ⟨2, ⟨41⟩, .none⟩]⟩, []⟩ rawBuilder =
        .ok #[0x0e, 0x2b, 0, 0x2a] := rfl
  refine ⟨hencode, ?_⟩
  have hlimit : ∀ i ∈ [(⟨0, ⟨42⟩, .target (.detached 2)⟩ : Instruction RawModel),
      ⟨2, ⟨41⟩, .none⟩], i.operand.switchLength ≤ Config.default.maxSwitchTargets.toNat := by
    intro i hi
    rcases List.mem_pair.mp hi with rfl | rfl
    · decide
    · decide
  obtain ⟨b', hdecode, _, _, _, hcode, _, hdepth⟩ := decode_of_encode rfl hlimit hencode #[0xff]
  exact ⟨b', hdecode, hcode rfl, hdepth⟩

section Decoded

variable {data : Array UInt8} {b : MethodBody RawModel} {bytes : Array UInt8} {config : Config}

/-- The code of a decoded body is read from some of the bytes. -/
theorem code_readFrom_of_decode (h : decode data rawResolver config = .ok b) :
    ∃ code, b.code.ReadFrom rawResolver [] config code ∧
      code.length ≤ 0xffffffff ∧ b.locals = [] := by
  obtain ⟨raw, _, hresolve⟩ := decode_eq_ok.mp h
  obtain ⟨code, _, hlength, hfrom, hbody⟩ := RawBody.resolve_raw_sound hresolve
  refine ⟨code, hfrom, ?_, ?_⟩
  · rw [hlength]
    exact Nat.le_of_lt_succ raw.header.codeSize.toNat_lt
  · rw [hbody]
    rfl

/-- A decoded body can be encoded if one section can hold its clauses. -/
theorem encode_of_decode (h : decode data rawResolver config = .ok b) :
    (∃ bytes, b.encode rawBuilder = .ok bytes) ↔
      MethodSection.size b.handlers ≤ MethodSection.fatLimit := by
  obtain ⟨code, hfrom, hlength, _⟩ := code_readFrom_of_decode h
  simp only [encode_eq_ok_of_readFrom (rawBuilder_inverts []) hfrom hlength, exists_and_left]
  exact and_iff_left ⟨_, rfl⟩

/-- Encoding a decoded body and decoding it again leaves all but the depth and the signature. -/
theorem decode_again (h : decode data rawResolver config = .ok b)
    (hencode : b.encode rawBuilder = .ok bytes) :
    decode bytes rawResolver config = .ok
      { b with
        maxStack := if b.isFat then b.maxStack else 8
        localSignature := if b.isFat then b.localSignature else ⟨0⟩ } := by
  obtain ⟨code, hfrom, _, hnil⟩ := code_readFrom_of_decode h
  have hsame : b.code.placed.relabelled = b.code := hfrom.relabelled_placed
  have hstrict : config.strictBranches = true →
      b.code.placed.relabelled.instructions.flatMap Instruction.looseBranches = [] := by
    rw [hsame]
    exact hfrom.looseBranches_eq_nil
  have hdecode := decode_reread hstrict hfrom.switchLength_le hencode #[]
  rw [Array.append_empty] at hdecode
  rw [hdecode, reread, hsame, hnil]

/-- The depth and the signature that the header chosen for a body stands for are its own exactly if
the header is fat or they are what a tiny header stands for. -/
theorem depth_and_signature_kept_iff (b : MethodBody RawModel) :
    { b with
      maxStack := if b.isFat then b.maxStack else 8
      localSignature := if b.isFat then b.localSignature else ⟨0⟩ } = b ↔
      b.isFat = true ∨ b.maxStack = 8 ∧ b.localSignature = ⟨0⟩ := by
  obtain ⟨maxStack, initLocals, localSignature, locals, code, handlers⟩ := b
  rw [MethodBody.mk.injEq]
  cases MethodBody.isFat ⟨maxStack, initLocals, localSignature, locals, code, handlers⟩ with
  | true => simp
  | false => simp [eq_comm]

end Decoded

/-- What happens to a decoded body that is encoded and decoded again: when it comes back, when it
can be encoded at all, and what it comes back as. -/
theorem roundTrip_iff {data : Array UInt8} {config : Config} {b : MethodBody RawModel}
    (h : decode data rawResolver config = .ok b) :
    ((∃ bytes, b.encode rawBuilder = .ok bytes ∧ decode bytes rawResolver config = .ok b) ↔
      MethodSection.size b.handlers ≤ MethodSection.fatLimit ∧
        (b.isFat = true ∨ b.maxStack = 8 ∧ b.localSignature = ⟨0⟩)) ∧
    ((∃ bytes, b.encode rawBuilder = .ok bytes) ↔
      MethodSection.size b.handlers ≤ MethodSection.fatLimit) ∧
    ∀ bytes, b.encode rawBuilder = .ok bytes →
      decode bytes rawResolver config = .ok
        { b with
          maxStack := if b.isFat then b.maxStack else 8
          localSignature := if b.isFat then b.localSignature else ⟨0⟩ } := by
  refine ⟨?_, encode_of_decode h, fun bytes hencode => decode_again h hencode⟩
  constructor
  · rintro ⟨bytes, hencode, hagain⟩
    refine ⟨(encode_of_decode h).mp ⟨bytes, hencode⟩, (depth_and_signature_kept_iff b).mp ?_⟩
    exact Except.ok.inj ((decode_again h hencode).symm.trans hagain)
  · rintro ⟨hsize, hkeeps⟩
    obtain ⟨bytes, hencode⟩ := (encode_of_decode h).mpr hsize
    refine ⟨bytes, hencode, ?_⟩
    rw [decode_again h hencode, (depth_and_signature_kept_iff b).mpr hkeeps]

set_option maxRecDepth 4000 in
/-- A fat header around a return, with the depth 1: the body comes back with the depth 8. -/
theorem roundTrip_iff_shallow :
    ∃ b, decode #[3, 0x30, 1, 0, 1, 0, 0, 0, 0, 0, 0, 0, 0x2a] rawResolver Config.strict = .ok b ∧
      b.encode rawBuilder = .ok #[6, 0x2a] ∧
      decode #[6, 0x2a] rawResolver Config.strict = .ok { b with maxStack := 8 } ∧
      ¬ ∃ bytes, b.encode rawBuilder = .ok bytes ∧
        decode bytes rawResolver Config.strict = .ok b := by
  have hread : RawBody.read #[3, 0x30, 1, 0, 1, 0, 0, 0, 0, 0, 0, 0, 0x2a] Config.strict =
      .ok ⟨.fat 3 1 1 ⟨0⟩, 12, #[3, 0x30, 1, 0, 1, 0, 0, 0, 0, 0, 0, 0, 0x2a], []⟩ := rfl
  have hdecode := decode_eq_ok.mpr ⟨_, hread, (rfl : RawBody.resolve _ rawResolver _ =
    .ok ⟨1, false, ⟨0⟩, [], ⟨[⟨0, ⟨41⟩, .none⟩]⟩, []⟩)⟩
  obtain ⟨hiff, _, hagain⟩ := roundTrip_iff hdecode
  refine ⟨_, hdecode, rfl, hagain _ rfl, ?_⟩
  intro hback
  rcases (hiff.mp hback).2 with hfat | ⟨hdepth, _⟩
  · exact absurd hfat (by decide)
  · exact absurd hdepth (by decide)

end MethodBody

end CilCodec
