import CilCodec.Proofs.Code.Operations
import CilCodec.Proofs.Code.Targets

/-!
# CilCodec.Proofs.Code.Lookup

From offsets to instructions and labels, and back.

Offsets are searched for by halving, which finds them because they ascend: every operation leaves
each instruction where the one in front of it ends, and none is empty. The end of the code is a
place for a label, but not one of the offsets that are searched, and labels hold signed words, most
of which are no place in the code. `Code.labelAt_eq_instruction_iff` covers all of these cases: an
offset has the label of an instruction, or of the end, exactly if that label has the offset.

Results:
1. `Code.indexAt?_eq_some_iff`: which instruction is found at an offset;
2. `Code.labelAt_eq_instruction_iff`, `Code.eq_of_labelAt_eq_detached`: which label is;
3. `Code.lookups_inverse`: the lookups of code that operations lead to.
-/

namespace CilCodec

variable {M : OperandModel}

/-- Offsets ascend if they do with the end behind them. -/
theorem Ascending.of_push {offsets : Array Nat} {size : Nat} (h : Ascending (offsets.push size)) :
    Ascending offsets := by
  intro i j hi hj hij
  have hlt := h i j (by simp; omega) (by simp; omega) hij
  simpa [Array.getElem_push, hi, hj] using hlt

namespace Code

variable {code : Code M}

theorem indexAt?_eq_some_iff (hplaced : code.IsPlaced) (hsize : code.size ≤ 0xffffffff)
    {offset index : Nat} :
    code.indexAt? offset = some index ↔
      ∃ i, code.instructions[index]? = some i ∧ i.offset = offset := by
  have hasc : Ascending (code.offsets.push code.size) :=
    ascending_boundaries hplaced hsize
  rw [indexAt?, offsetIndex?_eq_some_iff hasc.of_push, offsets, List.getElem?_toArray,
    List.getElem?_map, Option.map_eq_some_iff]

/-! ## Offsets of labels -/

theorem labelOffset?_instruction_eq_some_iff {t : Nat} {offset : Int} :
    code.labelOffset? (.instruction t) = some offset ↔
      (t = code.length ∧ offset = code.size) ∨
        ∃ i, code.instructions[t]? = some i ∧ offset = i.offset := by
  rw [labelOffset?, offsetOf?, getElem?_boundaries, Option.map_eq_some_iff]
  by_cases hend : t = code.length
  · have hnone : code.instructions[t]? = none := List.getElem?_eq_none (Nat.le_of_eq hend.symm)
    rw [if_pos hend, hnone]
    constructor
    · rintro ⟨_, ⟨⟩, rfl⟩
      exact .inl ⟨hend, rfl⟩
    · rintro (⟨_, rfl⟩ | ⟨_, ⟨⟩, _⟩)
      exact ⟨code.size, rfl, rfl⟩
  · rw [if_neg hend]
    constructor
    · rintro ⟨_, hget, rfl⟩
      obtain ⟨i, hi, rfl⟩ := Option.map_eq_some_iff.mp hget
      exact .inr ⟨i, hi, rfl⟩
    · rintro (⟨hat, _⟩ | ⟨i, hi, rfl⟩)
      · exact absurd hat hend
      · exact ⟨i.offset, by rw [hi, Option.map_some], rfl⟩

/-- A signed word holds the offset of every instruction, and of the end. -/
theorem exists_labelOffset?_instruction (hplaced : code.IsPlaced) (hsize : code.size ≤ 0xffffffff)
    {t : Nat} (ht : t ≤ code.length) :
    ∃ offset : Int64, code.labelOffset? (.instruction t) = some offset.toInt := by
  have hinside : (Label.instruction t).isAtMost code.length := decide_eq_true ht
  obtain ⟨boundary, hlabel⟩ := exists_labelOffset? hinside
  obtain ⟨n, hget, rfl⟩ := Option.map_eq_some_iff.mp hlabel
  have htoInt : (Int64.ofNat n).toInt = n :=
    Int64.toInt_ofNat_of_lt (lt_offsetLimit (Nat.le_trans (boundary_le hplaced hget) hsize))
  exact ⟨Int64.ofNat n, htoInt.symm ▸ hlabel⟩

/-! ## Labels of offsets -/

/-- The label of an offset stands for that offset. -/
theorem unbind_labelAt (code : Code M) (offset : Int64) :
    (code.labelAt offset).unbind code.boundaries = .detached offset :=
  unbind_bind code.offsets code.size offset

theorem eq_of_labelAt_eq_detached {offset other : Int64}
    (h : code.labelAt offset = .detached other) : other = offset := by
  have hunbind := code.unbind_labelAt offset
  rw [h] at hunbind
  exact Label.detached.inj hunbind

/-- An offset has the label of an instruction, or of the end, exactly if that is where it is. -/
theorem labelAt_eq_instruction_iff (hplaced : code.IsPlaced) (hsize : code.size ≤ 0xffffffff)
    {offset : Int64} {t : Nat} :
    code.labelAt offset = .instruction t ↔
      code.labelOffset? (.instruction t) = some offset.toInt := by
  rw [labelOffset?, offsetOf?, Option.map_eq_some_iff]
  constructor
  · intro h
    have hunbind := code.unbind_labelAt offset
    rw [h, Label.unbind] at hunbind
    cases hget : code.boundaries[t]? with
    | none =>
      rw [hget] at hunbind
      cases hunbind
    | some boundary =>
      rw [hget] at hunbind
      obtain rfl := Label.detached.inj hunbind
      refine ⟨boundary, rfl, ?_⟩
      have hle := Nat.le_trans (boundary_le hplaced hget) hsize
      exact (Int64.toInt_ofNat_of_lt (lt_offsetLimit hle)).symm
  · rintro ⟨boundary, hget, hboundary⟩
    have hoffset : Int64.ofNat boundary = offset := by
      rw [← Int64.ofInt_eq_ofNat, ← Int64.ofInt_toInt offset, ← hboundary]
      rfl
    rw [← hoffset]
    exact labelFor_boundary (ascending_boundaries hplaced hsize) (lt_offsetLimit hsize) hget

theorem exists_labelAt_detached_iff (hplaced : code.IsPlaced) (hsize : code.size ≤ 0xffffffff)
    {offset : Int64} :
    (∃ other, code.labelAt offset = .detached other) ↔
      (∀ i ∈ code.instructions, offset.toInt ≠ i.offset) ∧ offset.toInt ≠ code.size := by
  have hplace : (∃ t, code.labelAt offset = .instruction t) ↔
      (∃ i ∈ code.instructions, offset.toInt = i.offset) ∨ offset.toInt = code.size := by
    simp only [labelAt_eq_instruction_iff hplaced hsize, labelOffset?_instruction_eq_some_iff]
    constructor
    · rintro ⟨t, ⟨_, hend⟩ | ⟨i, hi, hoffset⟩⟩
      · exact .inr hend
      · exact .inl ⟨i, List.mem_of_getElem? hi, hoffset⟩
    · rintro (⟨i, hi, hoffset⟩ | hend)
      · obtain ⟨t, ht⟩ := List.mem_iff_getElem?.mp hi
        exact ⟨t, .inr ⟨i, ht, hoffset⟩⟩
      · exact ⟨code.length, .inl ⟨rfl, hend⟩⟩
  have hother : (∃ other, code.labelAt offset = .detached other) ↔
      ¬ ∃ t, code.labelAt offset = .instruction t := by
    cases code.labelAt offset <;> simp
  rw [hother, hplace]
  simp

/-- The lookups of code that operations lead to are inverse to each other: an index is found at an
offset exactly if its instruction is there, the label of an offset stands for that offset, whatever
it is, and the offset of an index, or of the end, has it for its label. The label is an offset still
exactly if nothing starts there and it is not the end. -/
theorem lookups_inverse (h : code.Reachable) (hsize : code.size ≤ 0xffffffff) :
    (∀ offset index, code.indexAt? offset = some index ↔
      ∃ i, code.instructions[index]? = some i ∧ i.offset = offset) ∧
    (∀ offset : Int64, code.labelOffset? (code.labelAt offset) = some offset.toInt) ∧
    (∀ t ≤ code.length, ∃ offset : Int64, code.labelOffset? (.instruction t) = some offset.toInt ∧
      code.labelAt offset = .instruction t) ∧
    ∀ offset : Int64, (∃ other, code.labelAt offset = .detached other) ↔
      (∀ i ∈ code.instructions, offset.toInt ≠ i.offset) ∧ offset.toInt ≠ code.size := by
  have hplaced := h.isPlaced
  refine ⟨fun offset index => indexAt?_eq_some_iff hplaced hsize, fun offset => ?_, fun t ht => ?_,
    fun offset => exists_labelAt_detached_iff hplaced hsize⟩
  · cases hlabel : code.labelAt offset with
    | instruction t => exact (labelAt_eq_instruction_iff hplaced hsize).mp hlabel
    | detached other =>
      rw [eq_of_labelAt_eq_detached hlabel]
      rfl
  · obtain ⟨offset, hoffset⟩ := exists_labelOffset?_instruction hplaced hsize ht
    exact ⟨offset, hoffset, (labelAt_eq_instruction_iff hplaced hsize).mpr hoffset⟩

/-- A switch of seventeen bytes behind one that is empty but for its count. -/
theorem lookups_inverse_switches :
    ∃ code : Code RawModel, code.Reachable ∧ code.size = 22 ∧ code.indexAt? 5 = some 1 ∧
      code.labelOffset? (code.labelAt (-1)) = some (-1) ∧
      (∃ offset : Int64, code.labelOffset? (.instruction 2) = some offset.toInt ∧
        code.labelAt offset = .instruction 2) ∧
      ∃ other, code.labelAt 6 = .detached other := by
  have hreachable : (Code.mk (M := RawModel) [⟨0, ⟨68⟩, .switch []⟩,
      ⟨5, ⟨68⟩, .switch [.instruction 0, .instruction 2, .detached (-1)]⟩]).Reachable :=
    ⟨[⟨9, ⟨68⟩, .switch [.instruction 0, .instruction 2, .detached (-1)]⟩],
      [.insert 0 ⟨9, ⟨68⟩, .switch []⟩, .replace 1 ⟨9, ⟨68⟩,
        .switch [.instruction 0, .instruction 2, .detached (-1)]⟩], rfl⟩
  obtain ⟨hindex, hlabel, hoffset, hdetached⟩ := lookups_inverse hreachable (by decide)
  refine ⟨_, hreachable, by decide, (hindex 5 1).mpr ⟨_, rfl, rfl⟩, hlabel (-1),
    hoffset 2 (by decide), (hdetached 6).mpr ⟨?_, by decide⟩⟩
  intro i hi
  rcases List.mem_cons.mp hi with rfl | hrest
  · decide
  · rw [List.mem_singleton.mp hrest]
    decide

end Code

end CilCodec
