import CilCodec.Proofs.Bytes.Relocation
import CilCodec.Proofs.Code.Failing

/-!
# CilCodec.Proofs.Code.Relocation

Code that does not stand at the start of the data.

Offsets of instructions and targets of branches count from the start of the code, the offsets of
errors from the start of the data. So the same bytes read anywhere are the same code, and what is
wrong with them is wrong at a place that moves with them.

Results:
1. `readInstruction_relocates`, `readResolved_relocates`: each step of the loop.
2. `Code.readToEnd_relocates`: code to the end of the data.
3. `Code.reader_depends_on_region`: a region of data is read as if there was nothing else, and the
   position behind the call tells success from failure.
-/

namespace CilCodec

open Reader

variable {before : Array UInt8} {origin start : Nat} {config : Config}

/-! ## Instructions as stored -/

theorem readSwitch_relocates :
    Relocates before (readSwitch origin config) (readSwitch (before.size + origin) config) := by
  unfold readSwitch
  refine .position fun pos => (Relocates.word UInt32).bind fun count => ?_
  refine (Relocates.ensure _).bind fun _ => ?_
  refine .ite ((Relocates.throw (.malformed _ pos)).bind fun _ => ?_) ?_ <;>
  · refine .position fun next => ?_
    rw [Nat.add_assoc, Nat.add_sub_add_left]
    exact ((Relocates.word Int32).repeated _).bind fun deltas => .pure _

theorem readOperand_relocates {opcode : Opcode} :
    Relocates before (readOperand origin start opcode config)
      (readOperand (before.size + origin) (before.size + start) opcode config) := by
  unfold readOperand
  cases opcode.operandKind
  case none => exact .pure _
  case switchTable => exact readSwitch_relocates
  case userString =>
    refine (Relocates.word UInt32).bind fun value => ?_
    exact .ite ((Relocates.note _ _).bind fun _ => .pure _) (.pure _)
  case member kind =>
    refine (Relocates.word UInt32).bind fun value => ?_
    exact .ite (.pure _) ((Relocates.note _ _).bind fun _ => .pure _)
  case shortBranch =>
    refine (Relocates.word Int8).bind fun delta => .position fun next => ?_
    rw [Nat.add_sub_add_left]
    exact .pure _
  case longBranch =>
    refine (Relocates.word Int32).bind fun delta => .position fun next => ?_
    rw [Nat.add_sub_add_left]
    exact .pure _
  all_goals exact (Relocates.word _).bind fun value => .pure _

theorem readInstruction_relocates :
    Relocates before (readInstruction origin config)
      (readInstruction (before.size + origin) config) := by
  unfold readInstruction
  refine .position fun start => (Relocates.word UInt8).bind fun first => ?_
  rw [Nat.add_sub_add_left]
  refine .ite ((Relocates.word UInt8).bind fun code => ?_)
    ((Relocates.pure first).bind fun code => ?_) <;>
  · dsimp only
    cases Opcode.ofCode? (first == longOpcodeMark) code with
    | none => exact .throw (.unknownOpcode _ _ start)
    | some opcode => exact readOperand_relocates.bind fun operand => .pure _

/-! ## Operands -/

variable {M : OperandModel} {R : Resolver M} {locals : List M.LocalVariable}

theorem Operand.resolve_shift (stored : Operand RawModel) (count offset : Nat) :
    stored.resolve R locals (count + offset) =
      (stored.resolve R locals offset).mapError (Error.shift count) := by
  cases stored with
  | none | immediate | target | switch => rfl
  | localVariable | argument | userString | member =>
    simp only [resolve]
    split <;> rfl

theorem Instruction.resolve_shift (raw : Instruction RawModel) (count start : Nat) :
    raw.resolve R locals (count + start) =
      (raw.resolve R locals start).mapError (Error.shift count) := by
  unfold resolve
  rw [Nat.add_assoc, Operand.resolve_shift]
  cases raw.operand.resolve R locals (start + raw.opcode.size) <;> rfl

theorem readResolved_relocates :
    Relocates before (readResolved R locals config origin)
      (readResolved R locals config (before.size + origin)) := by
  unfold readResolved
  refine .position fun start => readInstruction_relocates.bind fun raw => ?_
  rw [Instruction.resolve_shift]
  exact .ofResult _

/-! ## Loose branches -/

theorem reportLoose_relocates (branches : List (Nat × Int64)) :
    Relocates before (reportLoose config origin branches)
      (reportLoose config (before.size + origin) branches) := by
  induction branches with
  | nil => exact .pure _
  | cons branch rest ih =>
    unfold reportLoose
    rw [Nat.add_assoc]
    refine .ite ((Relocates.throw (.invalidBranchTarget (origin + branch.1) _)).bind fun _ => ?_) ?_
    all_goals exact (Relocates.note _ _).bind fun _ => ih

/-! ## Code -/

/-- The answer or the error of a reader at a place. -/
def Reader.answerAt {α : Type} (r : Reader α) (c : Cursor) : Except Error α :=
  match r c with
  | .ok a _ => .ok a
  | .error e _ => .error e

theorem Reader.answer_eq_answerAt {α : Type} (r : Reader α) (data : Array UInt8) :
    r.answer data = r.answerAt (Cursor.start data) := by
  unfold answer report answerAt
  cases r (Cursor.start data) <;> rfl

theorem Reader.Relocates.answerAt_eq {α : Type} {r r' : Reader α} {c c' : Cursor}
    (h : Relocates before r r') (hc : c.Behind before c') :
    r'.answerAt c' = (r.answerAt c).mapError (Error.shift before.size) := by
  have hend := h c c' hc
  unfold answerAt
  generalize r c = first, r' c' = second at hend
  cases hend <;> rfl

/-- A region by itself, and the region where it stands. -/
theorem Cursor.behind_region {c : Cursor} {size : Nat} (hroom : c.pos + size ≤ c.data.size) :
    Cursor.Behind (c.data.extract 0 c.pos)
      ((Cursor.start (c.data.extract c.pos (c.pos + size))).region size) (c.region size) := by
  have hsize : (c.data.extract c.pos (c.pos + size)).size ≤ 0 + size := by
    rw [Nat.zero_add]
    exact Nat.le_of_eq (size_extract_add hroom)
  constructor
  · show c.data.extract 0 (c.pos + size) =
      c.data.extract 0 c.pos ++ (c.data.extract c.pos (c.pos + size)).extract 0 (0 + size)
    rw [Array.extract_eq_self_of_le hsize, Array.extract_append_extract, Nat.zero_min,
      Nat.max_eq_right (Nat.le_add_right _ _)]
  · show c.pos = (c.data.extract 0 c.pos).size + 0
    rw [Array.size_extract, Nat.min_eq_left (Nat.le_of_add_right_le hroom), Nat.sub_zero,
      Nat.add_zero]

namespace Code

theorem readToEnd_relocates :
    Relocates before (readToEnd R locals config) (readToEnd R locals config) := by
  unfold readToEnd
  refine .position fun origin => readResolved_relocates.untilEnd.bind fun is => ?_
  refine .position fun pos => ?_
  rw [Nat.add_sub_add_left]
  exact (reportLoose_relocates _).bind fun _ => .pure _

theorem answerAt_reader {size : Nat} {c : Cursor} (hroom : c.pos + size ≤ c.data.size) :
    (reader size R locals config).answerAt c =
      (readToEnd R locals config).answerAt (c.region size) := by
  unfold answerAt
  cases hread : readToEnd R locals config (c.region size) with
  | ok code inner => rw [reader_eq_ok.mpr ⟨hroom, inner, hread, rfl⟩]
  | error e inner => rw [reader_eq_error_iff_readToEnd.mpr (.inr ⟨hroom, inner, hread, rfl⟩)]

/-- Reading code depends on the bytes of its region alone: they are read as if they were all the
data, but that the offset of an error counts what is in front. On success the position is behind the
region, on any error, also if there is no such region, it is where it was. -/
theorem reader_depends_on_region (R : Resolver M) (locals : List M.LocalVariable) (config : Config)
    (size : Nat) (c : Cursor) :
    (c.pos + size ≤ c.data.size →
      (reader size R locals config).answerAt c =
        ((reader size R locals config).answer (c.data.extract c.pos (c.pos + size))).mapError
          (Error.shift c.pos)) ∧
    (∀ code c', reader size R locals config c = .ok code c' →
      c'.data = c.data ∧ c'.pos = c.pos + size) ∧
    ∀ e c', reader size R locals config c = .error e c' → c'.data = c.data ∧ c'.pos = c.pos := by
  refine ⟨?_, ?_, ?_⟩
  · intro hroom
    have hfront : (c.data.extract 0 c.pos).size = c.pos := by
      rw [Array.size_extract, Nat.min_eq_left (Nat.le_of_add_right_le hroom), Nat.sub_zero]
    have hinner : (Cursor.start (c.data.extract c.pos (c.pos + size))).pos + size ≤
        (Cursor.start (c.data.extract c.pos (c.pos + size))).data.size := by
      show 0 + size ≤ (c.data.extract c.pos (c.pos + size)).size
      rw [Nat.zero_add]
      exact Nat.le_of_eq (size_extract_add hroom).symm
    have hmoved : Relocates (c.data.extract 0 c.pos) (readToEnd R locals config)
        (readToEnd R locals config) := readToEnd_relocates
    rw [answer_eq_answerAt, answerAt_reader hroom, answerAt_reader hinner,
      hmoved.answerAt_eq (Cursor.behind_region hroom), hfront]
  · intro code c' h
    obtain ⟨_, inner, _, rfl⟩ := reader_eq_ok.mp h
    exact ⟨rfl, rfl⟩
  · intro e c' h
    rcases reader_eq_error_iff_readToEnd.mp h with ⟨_, _, rfl⟩ | ⟨_, inner, _, rfl⟩
    · exact ⟨rfl, rfl⟩
    · exact ⟨rfl, rfl⟩

set_option maxRecDepth 4000 in
/-- A branch to nowhere behind three bytes, and a byte behind it. Strict reading refuses it at its
place in the data, with a target that counts from the start of the code, and stays there; otherwise
it is read and passed. -/
theorem reader_depends_on_region_strict :
    3 + 2 ≤ 6 ∧
    (reader 2 rawResolver [] Config.strict).answerAt ⟨#[1, 2, 3, 0x2b, 0x7f, 4], 3, #[]⟩ =
      .error (.invalidBranchTarget 3 129) ∧
    (∃ c', reader 2 rawResolver [] Config.strict ⟨#[1, 2, 3, 0x2b, 0x7f, 4], 3, #[]⟩ =
      .error (.invalidBranchTarget 3 129) c' ∧ c'.pos = 3) ∧
    ∃ code c', reader 2 rawResolver [] Config.default ⟨#[1, 2, 3, 0x2b, 0x7f, 4], 3, #[]⟩ =
      .ok code c' ∧ c'.pos = 5 := by
  have hstrict := reader_depends_on_region rawResolver [] Config.strict 2
    ⟨#[1, 2, 3, 0x2b, 0x7f, 4], 3, #[]⟩
  have hdefault := reader_depends_on_region rawResolver [] Config.default 2
    ⟨#[1, 2, 3, 0x2b, 0x7f, 4], 3, #[]⟩
  refine ⟨by decide, ?_, ⟨_, rfl, (hstrict.2.2 _ _ rfl).2⟩, _, _, rfl, (hdefault.2.1 _ _ rfl).2⟩
  rw [hstrict.1 (by decide)]
  rfl

end Code

end CilCodec
