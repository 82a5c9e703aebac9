import CilCodec.Proofs.Code.Stopping
import CilCodec.Proofs.Method.Body

/-!
# CilCodec.Proofs.Method.Writing

Writing bodies behind what is in a buffer already.

All that can fail is tried before the first byte, and what is written does not depend on the place,
since padding counts from the start of the body. The code is tried first, in a buffer of its own, so
a fault in it leaves the other one as it was.

Results:
1. `MethodBody.length_stored`: the bytes of a body are as many as `size` says.
2. `MethodBody.of_writer_error`: what stops a body, and the buffer that is left then.
3. `MethodBody.writer_all_or_nothing`: a body is written whole or not at all.
-/

namespace CilCodec

open Writer

namespace MethodBody

variable {M : OperandModel} {B : Builder M} {b : MethodBody M}

/-! ## Size -/

theorem length_stored {code : List UInt8} (hcode : code.length = b.code.size) :
    (b.stored code).length = b.size := by
  unfold stored size isFat
  rw [List.length_append, List.length_append, MethodSection.length_stored,
    MethodHeader.length_stored, isFat_chosenHeader, hcode]
  cases b.handlers.isEmpty with
  | true => rfl
  | false =>
    rw [if_neg Bool.false_ne_true, if_neg Bool.false_ne_true, Writer.gap_zero, Nat.add_assoc,
      Nat.add_assoc]

/-! ## Failure -/

/-- What stops a body from being written: its code, or clauses that no section can hold. -/
theorem of_writer_error {out out' : Buffer} {stop : Stop} (h : b.writer B out = .error stop out') :
    b.code.encode B = .error stop ∧ out' = out ∨
      ∃ code, b.code.encode B = .ok code ∧ MethodSection.fatLimit < MethodSection.size b.handlers ∧
        stop = .refused (.malformed (.sectionLimit b.handlers.length) out.pos) ∧
        out' = { out with notices := out.notices.push (b.framing code.size) } := by
  have hwrite := h
  unfold writer at h
  rcases bind_eq_error.mp h with hstart | ⟨_, _, hstart, hencodes⟩
  · cases hstart
  obtain ⟨rfl, rfl⟩ := position_eq_ok.mp hstart
  rcases bind_eq_error.mp hencodes with hencode | ⟨code, _, hencode, hframes⟩
  · obtain ⟨hcode, rfl⟩ := ofAnswer_eq_error.mp hencode
    exact .inl ⟨hcode, rfl⟩
  obtain ⟨hcode, rfl⟩ := ofAnswer_eq_ok.mp hencode
  have hle := Code.size_le_of_encode hcode
  rcases bind_eq_error.mp hframes with hframe | ⟨_, _, hframe, hnotes⟩
  · obtain ⟨_, hheader, _⟩ := ofResult_eq_error.mp hframe
    rw [header_eq_ok.mpr ⟨hle, rfl⟩] at hheader
    cases hheader
  obtain ⟨hheader, rfl⟩ := ofResult_eq_ok.mp hframe
  obtain ⟨_, rfl⟩ := header_eq_ok.mp hheader
  rcases bind_eq_error.mp hnotes with hnote | ⟨_, _, hnote, hchecks⟩
  · cases hnote
  obtain rfl := note_eq_ok.mp hnote
  rcases bind_eq_error.mp hchecks with hcheck | ⟨_, _, hcheck, _⟩
  · obtain ⟨e, hrefused, rfl, rfl⟩ := ofResult_eq_error.mp hcheck
    obtain ⟨hlimit, rfl⟩ := MethodSection.check_eq_error.mp hrefused
    exact .inr ⟨code, hcode, hlimit, rfl, rfl⟩
  -- behind the checks nothing fails
  obtain ⟨hpasses, _⟩ := ofResult_eq_ok.mp hcheck
  have hfits := MethodSection.check_eq_ok.mp hpasses
  have hok : b.writer B out = .ok () _ := writer_eq_ok.mpr ⟨code, hcode, hle, hfits, rfl⟩
  rw [hwrite] at hok
  cases hok

/-- A body that cannot be written leaves the bytes as they were. -/
theorem bytes_of_writer_error {out out' : Buffer} {stop : Stop}
    (h : b.writer B out = .error stop out') : out'.bytes = out.bytes := by
  rcases of_writer_error h with ⟨_, rfl⟩ | ⟨_, _, _, _, rfl⟩
  · rfl
  · rfl

/-- Code is encoded in a buffer of its own, so where it overflows does not depend on the buffer. -/
theorem encode_code_faults_iff {f : Fault} :
    b.code.encode B = .error (.fault f) ↔ f = .overflow ∧ b.code.Overflows B := by
  rw [Code.encode, answer_eq_error]
  exact Code.writer_faults_iff Buffer.empty

/-- A body faults exactly if its code does, and leaves everything as it was. -/
theorem writer_of_overflows (h : b.code.Overflows B) (out : Buffer) :
    b.writer B out = .error (.fault .overflow) out := by
  have hcode : b.code.encode B = .error (.fault .overflow) :=
    encode_code_faults_iff.mpr ⟨rfl, h⟩
  unfold writer
  rw [bind_of_ok (position_eq_ok.mpr ⟨rfl, rfl⟩)]
  exact bind_of_error (ofAnswer_eq_error.mpr ⟨hcode, rfl⟩)

theorem refused_of_writer_error {out out' : Buffer} {stop : Stop}
    (h : b.writer B out = .error stop out') (hcode : ¬ b.code.Overflows B) :
    ∃ e, stop = .refused e := by
  rcases of_writer_error h with ⟨hencode, _⟩ | ⟨_, _, _, rfl, _⟩
  · cases stop with
    | refused e => exact ⟨e, rfl⟩
    | fault f => exact absurd (encode_code_faults_iff.mp hencode).2 hcode
  · exact ⟨_, rfl⟩

/-! ## All or nothing -/

theorem exists_encode_iff :
    (∃ bytes, b.encode B = .ok bytes) ↔
      (∃ code, b.code.encode B = .ok code) ∧
        MethodSection.size b.handlers ≤ MethodSection.fatLimit := by
  simp only [encode_eq_ok]
  constructor
  · rintro ⟨_, code, hcode, _, hfits, _⟩
    exact ⟨⟨code, hcode⟩, hfits⟩
  · rintro ⟨⟨code, hcode⟩, hfits⟩
    exact ⟨_, code, hcode, Code.size_le_of_encode hcode, hfits, rfl⟩

/-- A body is written whole or not at all, whatever was written before, unless the run ends on a
fault. That is so if the code overflows. Otherwise either no buffer takes the body, and each keeps
its bytes, or every buffer gets the bytes that it is encoded to behind those it had, as many as
`size` says. Which of these two it is depends on the code and on the number of clauses. -/
theorem writer_all_or_nothing (b : MethodBody M) (B : Builder M) :
    ((b.code.Overflows B ∧ ∀ out : Buffer, b.writer B out = .error (.fault .overflow) out) ∨
      (¬ b.code.Overflows B ∧ ∀ out : Buffer, ∃ e out',
        b.writer B out = .error (.refused e) out' ∧ out'.bytes = out.bytes) ∨
      ∃ bytes, b.encode B = .ok bytes ∧ bytes.size = b.size ∧ ∀ out : Buffer, ∃ out',
        b.writer B out = .ok () out' ∧ out'.bytes = out.bytes ++ bytes) ∧
    ((∃ bytes, b.encode B = .ok bytes) ↔
      (∃ code, b.code.encode B = .ok code) ∧
        MethodSection.size b.handlers ≤ MethodSection.fatLimit) := by
  refine ⟨?_, exists_encode_iff⟩
  cases hencode : b.encode B with
  | ok bytes =>
    obtain ⟨code, hcode, hle, hsize, rfl⟩ := encode_eq_ok.mp hencode
    refine .inr (.inr ⟨_, rfl, ?_, fun out => ?_⟩)
    · rw [List.size_toArray]
      exact length_stored (Array.length_toList.trans (Code.size_of_encode hcode))
    · refine ⟨_, writer_eq_ok.mpr ⟨code, hcode, hle, hsize, rfl⟩, ?_⟩
      rw [← Array.toList_inj, Buffer.toList_append, Array.toList_append]
  | error stop =>
    by_cases hoverflows : b.code.Overflows B
    · exact .inl ⟨hoverflows, writer_of_overflows hoverflows⟩
    refine .inr (.inl ⟨hoverflows, fun out => ?_⟩)
    cases hwrite : b.writer B out with
    | error stop' out' =>
      obtain ⟨e, rfl⟩ := refused_of_writer_error hwrite hoverflows
      exact ⟨e, out', rfl, bytes_of_writer_error hwrite⟩
    | ok u out' =>
      -- what one buffer takes, an empty one does
      obtain ⟨code, hcode, hle, hsize, _⟩ := writer_eq_ok.mp hwrite
      have hok := encode_eq_ok.mpr ⟨code, hcode, hle, hsize, rfl⟩
      rw [hencode] at hok
      cases hok

-- one body that is written, one that is refused, and one that overflows

example : (ofCode (Code.ofList [⟨0, ⟨41⟩, .none⟩])).writer rawBuilder (Buffer.ofBytes #[1]) =
    .ok () ⟨#[1, 0x06, 0x2a], #[.framing false 1 0]⟩ := rfl

example : (ofCode (Code.ofList [⟨0, ⟨42⟩, .target (.instruction 2)⟩])).writer rawBuilder
    (Buffer.ofBytes #[1]) =
    .error (.refused (.invalidBranchTarget 0 2)) (Buffer.ofBytes #[1]) := rfl

example : (ofCode (Code.ofList [⟨0, ⟨42⟩, .target (.detached Int64.minValue)⟩])).writer rawBuilder
    (Buffer.ofBytes #[1]) = .error (.fault .overflow) (Buffer.ofBytes #[1]) := rfl

end MethodBody

end CilCodec
