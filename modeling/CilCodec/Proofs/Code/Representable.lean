import CilCodec.Proofs.Code.Stopping

/-!
# CilCodec.Proofs.Code.Representable

Encoding succeeds exactly on code that the format can represent.

`Instruction.Representable` says what the format can hold of one instruction, in exact arithmetic:
the form of its operand, the width of its index, and the distance to its targets. The encoder checks
these in several places, and works distances out in words of 64 bits, which do not hold them all.

Results:
1. `Instruction.representable_iff`: what can be represented is what can be stored as it is;
2. `Instruction.Stops.refuses`: an instruction is refused at its own offset;
3. `Code.writer_ok_iff_representable`: code is written exactly if all of it can be represented, and
   writing stops at the first instruction that cannot.
-/

namespace CilCodec

open Writer LittleEndian

/-! ## What the format can represent -/

/-- What the format can hold of an instruction of placed code. -/
structure Instruction.Representable (code : Code RawModel) (i : Instruction RawModel) : Prop where
  form : i.operand.fits i.opcode.operandKind = true
  shortLocal_le : i.opcode.operandKind = .shortLocal →
    ∀ index, i.operand = .localVariable index → index.toNat ≤ 0xff
  shortArgument_le : i.opcode.operandKind = .shortArgument →
    ∀ index, i.operand = .argument index → index.toNat ≤ 0xff
  userString_le : ∀ offset, i.operand = .userString offset → offset.toNat ≤ 0xffffff
  target_le : ∀ t, .instruction t ∈ i.labels → t ≤ code.length
  delta_within : ∀ label ∈ i.labels, ∀ target, code.placed.labelOffset? label = some target →
    -i.opcode.operandKind.reach ≤ target - (i.offset + i.size : Nat) ∧
      target - (i.offset + i.size : Nat) < i.opcode.operandKind.reach

/-- The error refuses the instruction at `offset`. -/
inductive Error.Refuses (offset : Nat) : Error → Prop
  | operandMismatch (opcode : Opcode) : Refuses offset (.operandMismatch opcode offset)
  | indexOutOfRange (kind : IndexKind) (index : UInt32) :
      Refuses offset (.indexOutOfRange kind index offset)
  | branchOutOfRange (opcode : Opcode) (delta : Int) :
      Refuses offset (.branchOutOfRange opcode delta offset)
  | invalidBranchTarget (target : Int) : Refuses offset (.invalidBranchTarget offset target)

/-- The instruction has a target so far to the front that no word holds the distance. -/
def Instruction.Overflows (i : Instruction RawModel) : Prop :=
  ∃ target : Int64, .detached target ∈ i.labels ∧
    target.toInt - (i.offset + i.size : Nat) < -0x8000000000000000

/-- A label reaches if it does not lie beyond the end and its distance is within reach. -/
theorem Label.reaches_iff {boundaries : Array Nat} {count next : Nat} {reach : Int} (label : Label)
    (hcount : boundaries.size = count + 1) :
    label.Reaches boundaries next reach ↔
      (∀ t, label = .instruction t → t ≤ count) ∧
        ∀ target, Code.offsetOf? boundaries label = some target →
          -reach ≤ target - next ∧ target - next < reach := by
  unfold Reaches
  cases label with
  | detached target => simp [Code.offsetOf?]
  | instruction index =>
    simp only [Code.offsetOf?, instruction.injEq, forall_eq']
    rcases Nat.lt_or_ge count index with hbeyond | hinside
    · rw [Array.getElem?_eq_none (by omega)]
      simp [hbeyond]
    · rw [Array.getElem?_eq_getElem (by omega)]
      simp [hinside]

theorem lower_rawBuilder (operand : Operand RawModel) : operand.lower rawBuilder = .ok operand := by
  cases operand <;> rfl

section Placed

variable {code : Code RawModel} {i : Instruction RawModel}

theorem Instruction.storable_rawBuilder {boundaries : Array Nat} :
    i.Storable boundaries rawBuilder ↔
      i.operand.fits i.opcode.operandKind = true ∧
        i.operand.Storable boundaries (i.offset + i.size) i.opcode.operandKind := by
  unfold Storable
  rw [lower_rawBuilder]
  simp

theorem Instruction.representable_iff :
    i.Representable code ↔ i.Storable code.placed.boundaries rawBuilder := by
  rw [storable_rawBuilder]
  have hreaches : ∀ label : Label,
      label.Reaches code.placed.boundaries (i.offset + i.size) i.opcode.operandKind.reach ↔ _ ∧ _ :=
    fun label => label.reaches_iff code.size_boundaries_placed
  constructor
  · intro h
    have hlabels : ∀ label ∈ i.labels, label.Reaches code.placed.boundaries (i.offset + i.size)
        i.opcode.operandKind.reach := fun label hmem =>
      (hreaches label).mpr ⟨fun t ht => h.target_le t (ht ▸ hmem), h.delta_within label hmem⟩
    unfold labels at hlabels
    refine ⟨h.form, ?_⟩
    cases hoperand : i.operand with
    | none | immediate | member => exact trivial
    | localVariable index => exact fun hkind => h.shortLocal_le hkind index hoperand
    | argument index => exact fun hkind => h.shortArgument_le hkind index hoperand
    | userString index => exact h.userString_le index hoperand
    | target label =>
      rw [hoperand] at hlabels
      exact hlabels label (List.mem_singleton_self label)
    | switch targets =>
      rw [hoperand] at hlabels
      exact hlabels
  · rintro ⟨hform, hstorable⟩
    have hlabels : ∀ label ∈ i.labels, label.Reaches code.placed.boundaries (i.offset + i.size)
        i.opcode.operandKind.reach := by
      unfold labels
      cases hoperand : i.operand with
      | target label =>
        rw [hoperand] at hstorable
        exact List.forall_mem_singleton.mpr hstorable
      | switch targets =>
        rw [hoperand] at hstorable
        exact hstorable
      | _ => exact List.forall_mem_nil _
    exact {
      form := hform
      shortLocal_le := fun hkind index hoperand => by
        rw [hoperand] at hstorable
        exact hstorable hkind
      shortArgument_le := fun hkind index hoperand => by
        rw [hoperand] at hstorable
        exact hstorable hkind
      userString_le := fun index hoperand => by
        rw [hoperand] at hstorable
        exact hstorable
      target_le := fun t hmem => ((hreaches _).mp (hlabels _ hmem)).1 t rfl
      delta_within := fun label hmem => ((hreaches label).mp (hlabels label hmem)).2 }

/-- An instruction is refused at its own offset. -/
theorem Instruction.Stops.refuses {boundaries : Array Nat} {e : Error}
    (h : i.Stops boundaries rawBuilder (.refused e)) : e.Refuses i.offset := by
  cases h with
  | form => exact .operandMismatch i.opcode
  | builder _ hlower =>
    rw [lower_rawBuilder] at hlower
    cases hlower
  | operand _ _ hoperand =>
    cases hoperand with
    | localVariable => exact .indexOutOfRange .localVariable _
    | argument => exact .indexOutOfRange .argument _
    | userString => exact .indexOutOfRange .userString _
    | label hfirst =>
      obtain ⟨_, _, _, _, _, _, hlabel⟩ := hfirst
      cases hlabel with
      | noTarget => exact .invalidBranchTarget _
      | tooFar => exact .branchOutOfRange i.opcode _

/-- If an instruction stops on a fault, a distance overflows. -/
theorem Instruction.Stops.overflows {boundaries : Array Nat} {f : Fault}
    (hend : i.offset + i.size ≤ 0xffffffff) (h : i.Stops boundaries rawBuilder (.fault f)) :
    f = .overflow ∧ i.Overflows := by
  obtain rfl := h.eq_overflow_of_fault
  cases h with
  | operand _ hlower hoperand =>
    obtain ⟨near, label, far, hlabels, _, _, hlabel⟩ := hoperand.firstStops_of_overflow
    obtain ⟨target, rfl, hfar⟩ := hlabel.exists_detached hend
    rw [Operand.labels_of_lower hlower] at hlabels
    have hmem : .detached target ∈ i.operand.labels :=
      hlabels ▸ List.mem_append_right near (.head far)
    exact ⟨rfl, target, hmem, hfar⟩

end Placed

/-! ## Code -/

namespace Code

/-- Code is encoded exactly if each of its instructions is representable. Otherwise writing stops at
the first that is not, behind the stored forms of all those in front of it and fewer bytes of its
own than it takes: that one is refused at its own offset, or the distance to one of its targets
overflows. -/
theorem writer_ok_iff_representable (code : Code RawModel) (hsize : code.size ≤ 0xffffffff)
    (out : Buffer) :
    ((∃ out', code.writer rawBuilder out = .ok () out') ↔
      ∀ i ∈ code.placed.instructions, i.Representable code) ∧
    ∀ stop out', code.writer rawBuilder out = .error stop out' →
      ∃ before i behind chunks part, code.placed.instructions = before ++ i :: behind ∧
        (∀ earlier ∈ before, earlier.Representable code) ∧ ¬ i.Representable code ∧
        (∀ e, stop = .refused e → e.Refuses i.offset) ∧
        (∀ f, stop = .fault f → f = .overflow ∧ i.Overflows) ∧
        List.Forall₂ (Instruction.StoredAs rawBuilder code.placed.boundaries) before chunks ∧
        part.length < i.size ∧ out' = out.append (chunks.flatten ++ part) := by
  simp only [Instruction.representable_iff]
  rcases code.writer_outcome rawBuilder hsize out with ⟨b', hall, hok⟩ | ⟨stop, b', hstops, herror⟩
  · rw [hok]
    refine ⟨⟨fun _ => hall, fun _ => ⟨b', rfl⟩⟩, ?_⟩
    intro stop out' h
    cases h
  · obtain ⟨before, i, behind, chunks, part, hcode, hbefore, hi, hstop, hchunks, hpart, hout⟩ :=
      hstops
    have hmem : i ∈ code.placed.instructions := hcode ▸ List.mem_append_right before (.head behind)
    rw [herror]
    refine ⟨⟨?_, fun hall => absurd (hall i hmem) hi⟩, ?_⟩
    · rintro ⟨_, h⟩
      cases h
    · intro stop' out' h
      cases h
      refine ⟨before, i, behind, chunks, part, hcode, hbefore, hi, ?_, ?_, hchunks, hpart, hout⟩
      · rintro e rfl
        exact hstop.refuses
      · rintro f rfl
        exact hstop.overflows (end_le_of_mem_placed hsize hmem)

/-- A short branch to the first byte beyond its reach, behind one byte of code. -/
def overreaching : Code RawModel :=
  ⟨[⟨0, ⟨0⟩, .none⟩, ⟨1, ⟨42⟩, .target (.detached 131)⟩]⟩

theorem writer_ok_iff_representable_overreaching :
    overreaching.size ≤ 0xffffffff ∧
      ¬ ∃ out', overreaching.writer rawBuilder Buffer.empty = .ok () out' := by
  have hsize : overreaching.size ≤ 0xffffffff := by decide
  refine ⟨hsize, ?_⟩
  rw [(writer_ok_iff_representable overreaching hsize Buffer.empty).1]
  intro hall
  have hbranch := hall ⟨1, ⟨42⟩, .target (.detached 131)⟩ (.tail _ (.head _))
  have hdelta := hbranch.delta_within (.detached 131) (List.mem_singleton_self _) 131 rfl
  exact absurd hdelta.2 (by decide)

end Code

end CilCodec
