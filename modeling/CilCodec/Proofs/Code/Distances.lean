import CilCodec.Proofs.Code.Stopping
import CilCodec.Proofs.Code.Targets

/-!
# CilCodec.Proofs.Code.Distances

How far branches lead, and what writing makes of it.

The distance from the end of an instruction to where a label leads is worked out in 64 bits, before
its operand is looked at. Below 4 GiB these hold every distance to an instruction, but a label can
be any 64-bit offset, and from one at the low end the end of the instruction cannot be subtracted.
Then there is no delta, neither to write nor to report: the run ends on a fault.

Results:
1. `Code.branchDelta_of_leadsTo`: what is worked out for a label is its distance, or overflows;
2. `Code.of_branchOutOfRange`: the branches that are refused for their length, and what is reported;
3. `Code.writer_distances`: both, with the deltas that are written and the code that overflows.
-/

namespace CilCodec

variable {M : OperandModel}

namespace Code

section Labels

variable {code : Code M} {label : Label}

/-- The offset of a label is where it leads. -/
theorem leadsTo_iff {target : Int} :
    code.LeadsTo label target ↔ offsetOf? code.boundaries label = some target := by
  constructor
  · intro h
    cases h with
    | instruction hi => rw [offsetOf?, boundary_of_instruction hi]; rfl
    | atEnd => rw [offsetOf?, boundary_of_end]; rfl
    | detached target => rfl
  · intro h
    cases label with
    | detached target =>
      obtain rfl := Option.some.inj h
      exact .detached target
    | instruction index =>
      obtain ⟨boundary, hget, rfl⟩ := Option.map_eq_some_iff.mp h
      exact leadsTo_of_boundary hget

/-- Labels of instructions and of the end lead somewhere. -/
theorem exists_leadsTo (h : label.isAtMost code.length) : ∃ target, code.LeadsTo label target := by
  cases label with
  | detached target => exact ⟨_, .detached target⟩
  | instruction index =>
    rcases Nat.lt_or_eq_of_le (of_decide_eq_true h) with hinside | rfl
    · exact ⟨_, .instruction (List.getElem?_eq_getElem hinside)⟩
    · exact ⟨_, .atEnd⟩

/-- Only labels that are offsets lead in front of the code. -/
theorem LeadsTo.nonneg {index : Nat} {target : Int} (h : code.LeadsTo (.instruction index) target) :
    0 ≤ target := by
  cases h <;> omega

end Labels

/-! ## Branches of placed code -/

section Branches

variable {code : Code M} {B : Builder M} {i : Instruction M}

/-- What is worked out for a label is its distance, unless that is below what a word holds. -/
theorem branchDelta_of_leadsTo (hsize : code.size ≤ 0xffffffff)
    (hi : i ∈ code.placed.instructions) {label : Label} {distance : Int}
    (h : code.placed.LeadsTo label ((i.offset + i.size : Nat) + distance)) :
    (-0x8000000000000000 ≤ distance ∧ ∃ delta,
      branchDelta code.layout.toArray i.offset (i.offset + i.size) label = .ok delta ∧
        delta.toInt = distance) ∨
    (distance < -0x8000000000000000 ∧
      branchDelta code.layout.toArray i.offset (i.offset + i.size) label =
        .error (.fault .overflow)) := by
  rw [leadsTo_iff] at h
  rw [layout_toArray hsize]
  rcases branchDelta_cases (boundary_placed_le hsize) (end_le_of_mem_placed hsize hi) i.offset
    label with ⟨delta, hok, hoffset⟩ | ⟨distance', hfault, hoffset, hfar⟩ |
      ⟨index, hlabel, hindex, _⟩
  · have hsame := Option.some.inj (h.symm.trans hoffset)
    have hlow := delta.le_toInt
    exact .inl ⟨by omega, delta, hok, by omega⟩
  · have hsame := Option.some.inj (h.symm.trans hoffset)
    exact .inr ⟨by omega, hfault⟩
  · rw [hlabel, offsetOf?, Array.getElem?_eq_none hindex] at h
    cases h

/-- If code is refused for the length of a branch, the builder says so, or a branch in the code is
out of reach of its operand, and its distance is reported. -/
theorem of_branchOutOfRange (hsize : code.size ≤ 0xffffffff) {opcode : Opcode} {delta : Int}
    {offset : Nat} {out out' : Buffer}
    (h : code.writer B out = .error (.refused (.branchOutOfRange opcode delta offset)) out') :
    (∃ i ∈ code.placed.instructions,
      i.operand.lower B = .error (.branchOutOfRange opcode delta offset)) ∨
    ∃ i ∈ code.placed.instructions, i.opcode = opcode ∧ i.offset = offset ∧
      ∃ label ∈ i.labels, code.placed.LeadsTo label ((i.offset + i.size : Nat) + delta) ∧
        ¬ (-opcode.operandKind.reach ≤ delta ∧ delta < opcode.operandKind.reach) := by
  rcases code.writer_outcome B hsize out with ⟨_, _, hok⟩ | ⟨stop, _, hstops, herror⟩
  · rw [hok] at h
    cases h
  · rw [herror] at h
    cases h
    obtain ⟨before, i, behind, hcode, _, _, hi⟩ := hstops.firstStops
    have hmem : i ∈ code.placed.instructions := hcode ▸ List.mem_append_right before (.head behind)
    cases hi with
    | builder _ hlower => exact .inl ⟨i, hmem, hlower⟩
    | operand _ hlower hoperand =>
      cases hoperand with
      | label hfirst =>
        obtain ⟨near, label, far, hstored, _, _, hlabel⟩ := hfirst
        rw [Operand.labels_of_lower hlower] at hstored
        have hlabels : label ∈ i.operand.labels := hstored ▸ List.mem_append_right near (.head far)
        cases hlabel with
        | tooFar hoffset hbeyond _ =>
          exact .inr ⟨i, hmem, rfl, rfl, label, hlabels, leadsTo_iff.mpr hoffset, hbeyond⟩

end Branches

/-! ## Code -/

/-- In code below 4 GiB, the difference that is worked out for a branch is its distance, unless that
is below what 64 bits hold; then it overflows. Labels of instructions have no such distance.
Whatever is written is the distance itself. If code is refused for the length of a branch and the
builder does not say so, the branch is out of reach, and what is reported is its distance. Writing
faults for an overflow only, and does so exactly if a distance overflows before anything else is
wrong. -/
theorem writer_distances {code : Code M} (hsize : code.size ≤ 0xffffffff) (B : Builder M) :
    (∀ i ∈ code.placed.instructions, ∀ label,
      (label.isAtMost code.length →
        ∃ distance, code.placed.LeadsTo label ((i.offset + i.size : Nat) + distance)) ∧
      ∀ distance, code.placed.LeadsTo label ((i.offset + i.size : Nat) + distance) →
        ((-0x8000000000000000 ≤ distance ∧ ∃ delta,
            branchDelta code.layout.toArray i.offset (i.offset + i.size) label = .ok delta ∧
              delta.toInt = distance) ∨
          (distance < -0x8000000000000000 ∧
            branchDelta code.layout.toArray i.offset (i.offset + i.size) label =
              .error (.fault .overflow))) ∧
        ∀ index, label = .instruction index → -0x8000000000000000 ≤ distance) ∧
    (∀ out out', code.writer B out = .ok () out' → ∀ i ∈ code.placed.instructions,
      ∃ deltas, i.StandsAt out'.bytes (out.pos + i.offset) deltas ∧
        List.Forall₂ (fun delta label =>
          code.placed.LeadsTo label ((i.offset + i.size : Nat) + delta)) deltas i.labels) ∧
    (∀ out out' opcode delta offset,
      code.writer B out = .error (.refused (.branchOutOfRange opcode delta offset)) out' →
      (∃ i ∈ code.placed.instructions,
        i.operand.lower B = .error (.branchOutOfRange opcode delta offset)) ∨
      ∃ i ∈ code.placed.instructions, i.opcode = opcode ∧ i.offset = offset ∧
        ∃ label ∈ i.labels, code.placed.LeadsTo label ((i.offset + i.size : Nat) + delta) ∧
          ¬ (-opcode.operandKind.reach ≤ delta ∧ delta < opcode.operandKind.reach)) ∧
    ∀ out f, (∃ out', code.writer B out = .error (.fault f) out') ↔
      f = .overflow ∧ code.Overflows B := by
  refine ⟨fun i hi label => ⟨fun hlabel => ?_, fun distance hleads => ⟨?_, ?_⟩⟩,
    fun out out' h => ?_, fun out out' opcode delta offset => of_branchOutOfRange hsize,
    fun out f => writer_faults_iff out⟩
  · obtain ⟨target, hleads⟩ := exists_leadsTo (code.length_placed.symm ▸ hlabel)
    refine ⟨target - (i.offset + i.size : Nat), ?_⟩
    rwa [Int.add_comm, Int.sub_add_cancel]
  · exact branchDelta_of_leadsTo hsize hi hleads
  · rintro index rfl
    have hend := end_le_of_mem_placed hsize hi
    have htarget := hleads.nonneg
    omega
  · obtain ⟨_, hwrite⟩ := writer_eq_ok.mp h
    obtain ⟨emitted, rfl, _, hall⟩ :=
      emits_of_writeInstructions ((Nat.zero_add _).symm ▸ hsize) hwrite
    exact fun i hi => exists_deltas_of_emits hsize hi (hall i hi)

/-- A branch to the lowest offset there is. -/
def toLowest (branch : Opcode) : Code RawModel :=
  ⟨[⟨0, branch, .target (.detached Int64.minValue)⟩]⟩

/-- Its distance is five too small for a word, and writing it overflows behind the opcode. -/
theorem writer_distances_toLowest :
    (toLowest ⟨55⟩).size ≤ 0xffffffff ∧
      (toLowest ⟨55⟩).placed.LeadsTo (.detached Int64.minValue) (5 + -9223372036854775813) ∧
      branchDelta (toLowest ⟨55⟩).layout.toArray 0 5 (.detached Int64.minValue) =
        .error (.fault .overflow) ∧
      (toLowest ⟨55⟩).writer rawBuilder Buffer.empty =
        .error (.fault .overflow) (Buffer.empty.append [0x38]) ∧
      (toLowest ⟨55⟩).Overflows rawBuilder := by
  have hsize : (toLowest ⟨55⟩).size ≤ 0xffffffff := by decide
  have hleads : (toLowest ⟨55⟩).placed.LeadsTo (.detached Int64.minValue)
      (5 + -9223372036854775813) := .detached Int64.minValue
  obtain ⟨hdeltas, _, _, hfaults⟩ := writer_distances hsize rawBuilder
  have hwrite : (toLowest ⟨55⟩).writer rawBuilder Buffer.empty =
      .error (.fault .overflow) (Buffer.empty.append [0x38]) := rfl
  refine ⟨hsize, hleads, ?_, hwrite, ((hfaults Buffer.empty .overflow).mp ⟨_, hwrite⟩).2⟩
  rcases ((hdeltas _ (.head _) (.detached Int64.minValue)).2 (-9223372036854775813) hleads).1 with
    ⟨hlow, _⟩ | ⟨_, hdelta⟩
  · exact absurd hlow (by decide)
  · exact hdelta

end Code

end CilCodec
