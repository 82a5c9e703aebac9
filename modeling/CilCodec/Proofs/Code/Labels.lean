import CilCodec.Code.Decode
import CilCodec.Code.Encode

/-!
# CilCodec.Proofs.Code.Labels

Labels as instructions and labels as offsets.

Reading binds offsets to instructions (`Label.bind`), writing goes back (`Label.unbind`).

Results:
1. `unbind_bind`: what reading binds, writing unbinds, wherever the offset goes.
2. `bind_unbind`: what writing unbinds, reading binds again, if offsets ascend. Detached labels to
   an instruction become that instruction.
3. `layoutFrom_eq`, `ascending_boundaries`: the layout of code is the offsets its instructions stand
   at, followed by its size, and it ascends.
-/

namespace CilCodec

variable {M : OperandModel}

/-! ## Changing labels -/

namespace Operand

theorem mapLabels_mapLabels (f g : Label → Label) (operand : Operand M) :
    (operand.mapLabels f).mapLabels g = operand.mapLabels (fun label => g (f label)) := by
  cases operand with
  | switch labels =>
    show Operand.switch ((labels.map f).map g) = _
    rw [List.map_map]
    rfl
  | _ => rfl

theorem mapLabels_congr {f g : Label → Label} {operand : Operand M}
    (h : ∀ label ∈ operand.labels, f label = g label) :
    operand.mapLabels f = operand.mapLabels g := by
  cases operand with
  | target label =>
    show Operand.target (f label) = _
    rw [h label (List.mem_singleton_self label)]
    rfl
  | switch labels =>
    have hmap : labels.map f = labels.map g := List.map_congr_left h
    exact congrArg Operand.switch hmap
  | _ => rfl

theorem mapLabels_eq_self {f : Label → Label} {operand : Operand M}
    (h : ∀ label ∈ operand.labels, f label = label) : operand.mapLabels f = operand := by
  rw [mapLabels_congr (g := id) h]
  cases operand with
  | switch labels =>
    show Operand.switch (labels.map id) = _
    rw [List.map_id]
  | _ => rfl

end Operand

/-! ## Unbinding -/

/-- The label with the offset of its instruction, or of the end, in place of the index. An index
beyond the end stays. -/
def Label.unbind (boundaries : Array Nat) : Label → Label
  | .instruction index =>
    match boundaries[index]? with
    | some target => .detached (Int64.ofNat target)
    | none => .instruction index
  | .detached target => .detached target

theorem targetOffset_eq_ok {boundaries : Array Nat} (offset : Nat) {label : Label}
    {target : Int64} :
    targetOffset boundaries offset label = .ok target ↔
      label.unbind boundaries = .detached target := by
  cases label with
  | detached d => simp [targetOffset, Label.unbind]
  | instruction index =>
    simp only [targetOffset, Label.unbind]
    cases boundaries[index]? with
    | none => simp
    | some boundary => simp

theorem unbind_bind (offsets : Array Nat) (size : Nat) (target : Int64) :
    (Label.bind offsets size (.detached target)).unbind (offsets.push size) =
      .detached target := by
  unfold Label.bind Code.labelFor
  dsimp only
  split
  next hend =>
    have htarget : Int64.ofNat size = target := by
      rw [← Int64.ofInt_eq_ofNat, ← hend, Int64.ofInt_toInt]
    simp [Label.unbind, htarget]
  next =>
    split
    next => rfl
    next hnonneg =>
      cases hindex : offsetIndex? offsets target.toInt.toNat with
      | none => rfl
      | some index =>
        have hget := getElem?_of_searchBetween hindex
        obtain ⟨hlt, _⟩ := Array.getElem?_eq_some_iff.mp hget
        have htarget : Int64.ofNat target.toInt.toNat = target := by
          rw [← Int64.ofInt_eq_ofNat, Int.toNat_of_nonneg (Int.not_lt.mp hnonneg),
            Int64.ofInt_toInt]
        simp only [Label.unbind, Array.getElem?_push, if_neg (Nat.ne_of_lt hlt), hget, htarget]

/-- Offsets are below `2 ^ 63`, so a 64-bit signed word holds each. -/
def offsetLimit : Nat := 0x8000000000000000

theorem lt_offsetLimit {offset : Nat} (h : offset ≤ 0xffffffff) : offset < offsetLimit :=
  Nat.lt_of_le_of_lt h (by decide)

/-- The label of a boundary is its index: that of an instruction, or the end. -/
theorem labelFor_boundary {offsets : Array Nat} {size index boundary : Nat}
    (hasc : Ascending (offsets.push size)) (hsize : size < offsetLimit)
    (hget : (offsets.push size)[index]? = some boundary) :
    Code.labelFor offsets size (Int64.ofNat boundary) = .instruction index := by
  have hend : (offsets.push size)[offsets.size]? = some size := by simp
  have hoffsets : Ascending offsets := by
    intro i j hi hj hij
    have := hasc i j (by simp; omega) (by simp; omega) hij
    simpa [Array.getElem_push, hi, hj] using this
  obtain ⟨hlt, hboundary⟩ := Array.getElem?_eq_some_iff.mp hget
  rw [Array.size_push] at hlt
  -- the end is tried first, so an instruction has to be told from it: its offset is smaller
  rcases Nat.lt_or_ge index offsets.size with hindex | hindex
  · have hbelow : boundary < size := by
      have := hasc index offsets.size (by simp; omega) (by simp) hindex
      simpa [hboundary] using this
    have hfound : offsets[index]? = some boundary := by
      rw [← hget, Array.getElem?_push, if_neg (Nat.ne_of_lt hindex)]
    have htoInt : (Int64.ofNat boundary).toInt = boundary :=
      Int64.toInt_ofNat_of_lt (Nat.lt_trans hbelow hsize)
    unfold Code.labelFor
    rw [htoInt, if_neg (by omega), if_neg (by omega), Int.toNat_natCast,
      (offsetIndex?_eq_some_iff hoffsets).mpr hfound]
  · obtain rfl : index = offsets.size := by omega
    rw [hget] at hend
    cases hend
    unfold Code.labelFor
    rw [if_pos (Int64.toInt_ofNat_of_lt hsize)]

theorem bind_unbind {offsets : Array Nat} {size : Nat} (hasc : Ascending (offsets.push size))
    (hsize : size < offsetLimit) {label : Label} {target : Int64}
    (hlabel : label.unbind (offsets.push size) = .detached target) :
    Label.bind offsets size (.detached target) = Label.bind offsets size label := by
  cases label with
  | detached d =>
    cases hlabel
    rfl
  | instruction index =>
    simp only [Label.unbind] at hlabel
    split at hlabel
    next boundary hget =>
      cases hlabel
      exact labelFor_boundary hasc hsize hget
    next => cases hlabel

/-- A label that no offset in the code has is left as it is, however often it is bound. -/
theorem bind_bind (offsets : Array Nat) (size : Nat) (label : Label) :
    Label.bind offsets size (Label.bind offsets size label) = Label.bind offsets size label := by
  cases label with
  | instruction index => rfl
  | detached target =>
    cases hbound : Label.bind offsets size (.detached target) with
    | instruction index => rfl
    | detached other =>
      have hother := unbind_bind offsets size target
      rw [hbound] at hother
      cases hother
      exact hbound

/-! ## Layout -/

theorem totalSize_append (before behind : List (Instruction M)) :
    totalSize (before ++ behind) = totalSize before + totalSize behind := by
  induction before with
  | nil => exact (Nat.zero_add _).symm
  | cons i rest ih => rw [List.cons_append, totalSize, totalSize, ih, Nat.add_assoc]

theorem placeFrom_placeFrom (offset : Nat) (instructions : List (Instruction M)) :
    placeFrom offset (placeFrom offset instructions) = placeFrom offset instructions := by
  induction instructions generalizing offset with
  | nil => rfl
  | cons i rest ih =>
    simp only [placeFrom, Instruction.size_withOffset]
    rw [ih]

@[simp] theorem length_placeFrom (offset : Nat) (instructions : List (Instruction M)) :
    (placeFrom offset instructions).length = instructions.length := by
  induction instructions generalizing offset with
  | nil => rfl
  | cons i rest ih => rw [placeFrom, List.length_cons, List.length_cons, ih]

@[simp] theorem totalSize_placeFrom (offset : Nat) (instructions : List (Instruction M)) :
    totalSize (placeFrom offset instructions) = totalSize instructions := by
  induction instructions generalizing offset with
  | nil => rfl
  | cons i rest ih =>
    simp only [placeFrom, totalSize, Instruction.size_withOffset]
    rw [ih]

theorem placeFrom_mapLabels (f : Label → Label) (offset : Nat)
    (instructions : List (Instruction M)) :
    placeFrom offset (instructions.map (Instruction.mapLabels f)) =
      (placeFrom offset instructions).map (Instruction.mapLabels f) := by
  induction instructions generalizing offset with
  | nil => rfl
  | cons i rest ih =>
    simp only [List.map_cons, placeFrom, Instruction.size_mapLabels]
    rw [ih]
    rfl

/-- Where instructions are placed, each stands behind those in front of it, at what a word keeps of
the sum of their sizes. -/
theorem offset_of_placed {offset index : Nat} {instructions : List (Instruction M)}
    {i : Instruction M} (hplaced : placeFrom offset instructions = instructions)
    (hi : instructions[index]? = some i) :
    i.offset = low32 (offset + totalSize (instructions.take index)) := by
  induction instructions generalizing offset index with
  | nil => cases hi
  | cons first rest ih =>
    rw [placeFrom, List.cons.injEq] at hplaced
    obtain ⟨hfirst, hrest⟩ := hplaced
    cases index with
    | zero =>
      obtain rfl : first = i := Option.some.inj hi
      rw [← hfirst, List.take_zero, totalSize, Nat.add_zero]
    | succ index =>
      rw [ih hrest hi, List.take_succ_cons, totalSize, Nat.add_assoc]

/-- Placed instructions end where the last one ends at most, also if their offsets are cut. -/
theorem end_le_of_mem_placeFrom {offset : Nat} {instructions : List (Instruction M)}
    {i : Instruction M} (hi : i ∈ placeFrom offset instructions) :
    i.offset + i.size ≤ offset + totalSize instructions := by
  induction instructions generalizing offset with
  | nil => cases hi
  | cons first rest ih =>
    rw [placeFrom, List.mem_cons] at hi
    rw [totalSize, ← Nat.add_assoc]
    rcases hi with rfl | hi
    · exact Nat.le_add_right_of_le (Nat.add_le_add_right (Nat.mod_le _ _) _)
    · exact ih hi

/-- The layout ends with the offset of the end. -/
theorem end_mem_layoutFrom (offset : Nat) (instructions : List (Instruction M)) :
    offset + totalSize instructions ∈ layoutFrom offset instructions := by
  induction instructions generalizing offset with
  | nil => exact List.mem_singleton_self offset
  | cons i rest ih =>
    rw [totalSize, ← Nat.add_assoc]
    exact List.mem_cons_of_mem offset (ih (offset + i.size))

/-- The layout goes by sizes alone. -/
theorem layoutFrom_placeFrom (offset start : Nat) (instructions : List (Instruction M)) :
    layoutFrom offset (placeFrom start instructions) = layoutFrom offset instructions := by
  induction instructions generalizing offset start with
  | nil => rfl
  | cons i rest ih => exact congrArg (offset :: ·) (ih (offset + i.size) (start + i.size))

/-- Below 4 GiB, the layout holds the offsets of placed instructions, then the offset of the end. -/
theorem layoutFrom_eq {offset : Nat} {instructions : List (Instruction M)}
    (hsize : offset + totalSize instructions ≤ 0xffffffff) :
    layoutFrom offset instructions =
      (placeFrom offset instructions).map Instruction.offset ++
        [offset + totalSize instructions] := by
  induction instructions generalizing offset with
  | nil => rfl
  | cons i rest ih =>
    rw [totalSize, ← Nat.add_assoc] at hsize ⊢
    have hkept : low32 offset = offset := low32_eq_iff.mpr (by omega)
    simp only [layoutFrom, placeFrom, List.map_cons, List.cons_append]
    rw [ih hsize, hkept]

namespace Code

/-- Whether each instruction carries what a word keeps of the sizes of those before it. -/
def IsPlaced (code : Code M) : Prop := placeFrom 0 code.instructions = code.instructions

theorem isPlaced_placed (code : Code M) : code.placed.IsPlaced :=
  placeFrom_placeFrom 0 code.instructions

@[simp] theorem size_placed (code : Code M) : code.placed.size = code.size :=
  totalSize_placeFrom 0 code.instructions

@[simp] theorem length_placed (code : Code M) : code.placed.length = code.length :=
  length_placeFrom 0 code.instructions

theorem layout_eq_of_isPlaced {code : Code M} (h : code.IsPlaced)
    (hsize : code.size ≤ 0xffffffff) : code.layout.toArray = code.boundaries := by
  unfold layout boundaries offsets
  rw [layoutFrom_eq (by rwa [Nat.zero_add]), h, Nat.zero_add]
  simp [size]

theorem layout_placed (code : Code M) : code.placed.layout = code.layout :=
  layoutFrom_placeFrom 0 0 code.instructions

/-- Writing goes by the offsets that instructions have in their places, below 4 GiB. -/
theorem layout_toArray {code : Code M} (hsize : code.size ≤ 0xffffffff) :
    code.layout.toArray = code.placed.boundaries := by
  rw [← layout_placed]
  exact layout_eq_of_isPlaced code.isPlaced_placed (code.size_placed.symm ▸ hsize)

end Code

/-- Boundaries lie between where the first instruction starts and where the last one ends. -/
theorem bounds_of_mem_layoutFrom {offset boundary : Nat} {instructions : List (Instruction M)}
    (h : boundary ∈ layoutFrom offset instructions) :
    offset ≤ boundary ∧ boundary ≤ offset + totalSize instructions := by
  induction instructions generalizing offset with
  | nil =>
    cases List.mem_singleton.mp h
    exact ⟨Nat.le_refl _, Nat.le_refl _⟩
  | cons i rest ih =>
    rw [layoutFrom, List.mem_cons] at h
    rw [totalSize, ← Nat.add_assoc]
    rcases h with rfl | h
    · rw [Nat.add_assoc]
      exact ⟨Nat.le_refl _, Nat.le_add_right _ _⟩
    · obtain ⟨hlow, hhigh⟩ := ih h
      exact ⟨Nat.le_trans (Nat.le_add_right _ _) hlow, hhigh⟩

theorem pairwise_layoutFrom (offset : Nat) (instructions : List (Instruction M)) :
    (layoutFrom offset instructions).Pairwise (· < ·) := by
  induction instructions generalizing offset with
  | nil => exact List.pairwise_singleton _ _
  | cons i rest ih =>
    refine List.pairwise_cons.mpr ⟨?_, ih _⟩
    intro later hlater
    exact Nat.lt_of_lt_of_le (Nat.lt_add_of_pos_right i.size_pos)
      (bounds_of_mem_layoutFrom hlater).1

/-- Every instruction takes a byte at least, so the boundaries of placed code ascend strictly, as
long as words hold them. -/
theorem ascending_boundaries {code : Code M} (h : code.IsPlaced) (hsize : code.size ≤ 0xffffffff) :
    Ascending code.boundaries := by
  rw [← Code.layout_eq_of_isPlaced h hsize]
  intro i j hi hj hij
  rw [List.size_toArray] at hi hj
  exact List.pairwise_iff_getElem.mp (pairwise_layoutFrom 0 code.instructions) i j hi hj hij

end CilCodec
