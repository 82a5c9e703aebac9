import CilCodec.Proofs.Bytes.Accepting
import CilCodec.Proofs.Code.Writing

/-!
# CilCodec.Proofs.Code.Stopping

What stops code from being written.

`Storable` says what an operand and an instruction have to be, and `Stops` what writing one that is
not stops for, each cause with what is wrong then. Both follow the writers of the model, but speak
of offsets and distances in exact arithmetic: a label has no offset, or leads too far for its
operand, or so far to the front that a 64-bit word cannot hold the distance. That last one is no
error. It is a fault, and comes before the operand is looked at.

Results:
1. `writeInstruction_accepts`: an instruction is written exactly if it is storable, and otherwise
   stops before it is complete;
2. `Code.writer_outcome`: code below 4 GiB is written if all of its instructions are storable, and
   otherwise stops at the first that is not;
3. `Code.writer_faults_iff`: when writing overflows.
-/

namespace CilCodec

open Writer LittleEndian

variable {M : OperandModel}

/-- How far a branch leads at most: its operand holds a signed byte, or a signed 32-bit word. -/
def OperandKind.reach : OperandKind → Int
  | shortBranch => 0x80
  | _ => 0x80000000

/-- No branch reaches further than a long one. -/
theorem OperandKind.reach_le (kind : OperandKind) : kind.reach ≤ 0x80000000 := by
  unfold reach
  split <;> decide

/-! ## Branches -/

/-- The label has an offset, which is within `reach` of `next`. -/
def Label.Reaches (boundaries : Array Nat) (next : Nat) (reach : Int) (label : Label) : Prop :=
  ∃ target, Code.offsetOf? boundaries label = some target ∧
    -reach ≤ target - next ∧ target - next < reach

/-- What stops the branch at `offset`, which ends at `next`, from being written with a label. -/
inductive Label.Stops (boundaries : Array Nat) (opcode : Opcode) (offset next : Nat)
    (label : Label) : Stop → Prop
  | noTarget {index : Nat} : label = .instruction index → boundaries.size ≤ index →
      Stops boundaries opcode offset next label
        (.refused (.invalidBranchTarget offset (Int64.ofNat index).toInt))
  | tooFar {distance : Int} : Code.offsetOf? boundaries label = some (next + distance) →
      ¬ (-opcode.operandKind.reach ≤ distance ∧ distance < opcode.operandKind.reach) →
      -0x8000000000000000 ≤ distance → Stops boundaries opcode offset next label
        (.refused (.branchOutOfRange opcode distance offset))
  | overflow {distance : Int} : Code.offsetOf? boundaries label = some (next + distance) →
      distance < -0x8000000000000000 →
      Stops boundaries opcode offset next label (.fault .overflow)

section Branches

variable {boundaries : Array Nat} {opcode : Opcode} {offset next : Nat}

/-- A label has an offset, or is refused for having none. -/
theorem targetOffset_cases (hsmall : ∀ boundary ∈ boundaries, boundary ≤ 0xffffffff)
    (offset : Nat) (label : Label) :
    (∃ target, targetOffset boundaries offset label = .ok target ∧
      Code.offsetOf? boundaries label = some target.toInt) ∨
    (∃ index, label = .instruction index ∧ boundaries.size ≤ index ∧
      targetOffset boundaries offset label =
        .error (.invalidBranchTarget offset (Int64.ofNat index).toInt)) := by
  cases label with
  | detached target => exact .inl ⟨target, rfl, rfl⟩
  | instruction index =>
    simp only [targetOffset, Code.offsetOf?]
    cases hget : boundaries[index]? with
    | none => exact .inr ⟨index, rfl, Array.getElem?_eq_none_iff.mp hget, rfl⟩
    | some boundary =>
      have hle := hsmall boundary (Array.mem_of_getElem? hget)
      refine .inl ⟨_, rfl, ?_⟩
      rw [Int64.toInt_ofNat_of_lt (Nat.lt_of_le_of_lt hle (by decide))]
      rfl

/-- A label has a distance that its word holds, or one that it does not hold, or none. -/
theorem branchDelta_cases (hsmall : ∀ boundary ∈ boundaries, boundary ≤ 0xffffffff)
    (hnext : next ≤ 0xffffffff) (offset : Nat) (label : Label) :
    (∃ delta, branchDelta boundaries offset next label = .ok delta ∧
      Code.offsetOf? boundaries label = some (next + delta.toInt)) ∨
    (∃ distance : Int, branchDelta boundaries offset next label = .error (.fault .overflow) ∧
      Code.offsetOf? boundaries label = some (next + distance) ∧
      distance < -0x8000000000000000) ∨
    (∃ index, label = .instruction index ∧ boundaries.size ≤ index ∧
      branchDelta boundaries offset next label =
        .error (.refused (.invalidBranchTarget offset (Int64.ofNat index).toInt))) := by
  have hofNat : (Int64.ofNat next).toInt = next :=
    Int64.toInt_ofNat_of_lt (Nat.lt_of_le_of_lt hnext (by decide))
  unfold branchDelta
  rcases targetOffset_cases hsmall offset label with ⟨target, htarget, hoffset⟩ |
    ⟨index, hlabel, hindex, htarget⟩
  · rw [htarget]
    cases hdelta : subInt64 target (Int64.ofNat next) with
    | ok delta =>
      have hexact := subInt64_eq_ok.mp hdelta
      refine .inl ⟨delta, hdelta, ?_⟩
      rw [hoffset, hexact, hofNat, Int.add_comm, Int.sub_add_cancel]
    | error stop =>
      obtain ⟨rfl, hout⟩ := subInt64_eq_error.mp hdelta
      have hhigh := target.toInt_lt
      rw [hofNat, ← Bool.not_eq_true, inInt64_iff] at hout
      refine .inr (.inl ⟨target.toInt - next, hdelta, ?_, by omega⟩)
      rw [hoffset, Int.add_comm, Int.sub_add_cancel]
  · rw [htarget]
    exact .inr (.inr ⟨index, hlabel, hindex, rfl⟩)

/-- A delta is written exactly if its label is within reach. `write` and `holds` stand for one of
the two widths. -/
theorem delta_accepts {count : Nat} {write : Int64 → Writer Unit} {holds : Int64 → Bool}
    (hsmall : ∀ boundary ∈ boundaries, boundary ≤ 0xffffffff) (hnext : next ≤ 0xffffffff)
    (hcount : 0 < count)
    (hwrite : ∀ delta, (write delta).Accepts True (fun _ => False) count)
    (hholds : ∀ delta, holds delta = true ↔
      -opcode.operandKind.reach ≤ delta.toInt ∧ delta.toInt < opcode.operandKind.reach)
    (label : Label) :
    Accepts (ofAnswer (branchDelta boundaries offset next label) >>= fun delta =>
        if holds delta then write delta
        else throw (.refused (.branchOutOfRange opcode delta.toInt offset)))
      (label.Reaches boundaries next opcode.operandKind.reach)
      (label.Stops boundaries opcode offset next) count := by
  have hreach := opcode.operandKind.reach_le
  have hdelta := branchDelta_cases hsmall hnext offset label
  refine (Accepts.bindAnswer (P := fun delta => holds delta = true ∧ True)
    (fun delta hok => .guarded (fun _ => (hwrite delta).imp fun _ _ => False.elim) hcount ?_)
    fun stop herror => ⟨hcount, ?_⟩).congr ?_
  · intro hbeyond
    rcases hdelta with ⟨delta', hok', hoffset⟩ | ⟨_, hfault, _⟩ | ⟨_, _, _, hrefused⟩
    · obtain rfl : delta = delta' := Except.ok.inj (hok.symm.trans hok')
      exact .tooFar hoffset (mt (hholds delta).mpr hbeyond) delta.le_toInt
    · rw [hfault] at hok
      cases hok
    · rw [hrefused] at hok
      cases hok
  · rcases hdelta with ⟨_, hok, _⟩ | ⟨distance, hfault, hoffset, hfar⟩ |
      ⟨index, hlabel, hindex, hrefused⟩
    · rw [hok] at herror
      cases herror
    · rw [hfault] at herror
      cases herror
      exact .overflow hoffset hfar
    · rw [hrefused] at herror
      cases herror
      exact .noTarget hlabel hindex
  · unfold Label.Reaches
    rcases hdelta with ⟨delta, hok, hoffset⟩ | ⟨distance, hfault, hoffset, hfar⟩ |
      ⟨index, rfl, hindex, hrefused⟩
    · simp only [hok, hoffset, hholds, Except.ok.injEq, Option.some.injEq, exists_eq_left',
        and_true]
      omega
    · simp only [hfault, hoffset, reduceCtorEq, false_and, exists_false, Option.some.injEq,
        exists_eq_left', false_iff]
      omega
    · simp [hrefused, Code.offsetOf?, hindex]

theorem writeShortDelta_accepts (hsmall : ∀ boundary ∈ boundaries, boundary ≤ 0xffffffff)
    (hnext : next ≤ 0xffffffff) (hkind : opcode.operandKind = .shortBranch) (label : Label) :
    (writeShortDelta boundaries opcode offset next label).Accepts
      (label.Reaches boundaries next opcode.operandKind.reach)
      (label.Stops boundaries opcode offset next) 1 := by
  refine delta_accepts hsmall hnext (by decide) (fun delta => word_accepts _ _) ?_ label
  intro delta
  rw [hkind, fitsInt8, Bool.and_eq_true, decide_eq_true_iff, decide_eq_true_iff]
  rfl

theorem writeLongDelta_accepts (hsmall : ∀ boundary ∈ boundaries, boundary ≤ 0xffffffff)
    (hnext : next ≤ 0xffffffff) (hkind : opcode.operandKind ≠ .shortBranch) (label : Label) :
    (writeLongDelta boundaries opcode offset next label).Accepts
      (label.Reaches boundaries next opcode.operandKind.reach)
      (label.Stops boundaries opcode offset next) 4 := by
  refine delta_accepts hsmall hnext (by decide) (fun delta => word_accepts _ _) ?_ label
  intro delta
  have hreach : opcode.operandKind.reach = 0x80000000 := by
    unfold OperandKind.reach
    split
    next hshort => exact absurd hshort hkind
    next => rfl
  rw [hreach, fitsInt32, Bool.and_eq_true, decide_eq_true_iff, decide_eq_true_iff]

end Branches

/-! ## Operands -/

/-- What is asked of an operand that has the form `kind`, in an instruction that ends at `next`. -/
def Operand.Storable (boundaries : Array Nat) (next : Nat) (kind : OperandKind) :
    Operand RawModel → Prop
  | .localVariable index => kind = .shortLocal → index.toNat ≤ 0xff
  | .argument index => kind = .shortArgument → index.toNat ≤ 0xff
  | .target label => label.Reaches boundaries next kind.reach
  | .switch labels => ∀ label ∈ labels, label.Reaches boundaries next kind.reach
  | .userString index => index.toNat ≤ Token.maxRow
  | _ => True

/-- What stops the stored operand of an instruction at `offset` that ends at `next`: an index that
is too large, or the first label that does not reach. -/
inductive Operand.Stops (boundaries : Array Nat) (opcode : Opcode) (offset next : Nat)
    (operand : Operand RawModel) : Stop → Prop
  | localVariable {index : UInt16} : opcode.operandKind = .shortLocal →
      operand = .localVariable index → 0xff < index.toNat →
      Stops boundaries opcode offset next operand
        (.refused (.indexOutOfRange .localVariable index.toUInt32 offset))
  | argument {index : UInt16} : opcode.operandKind = .shortArgument →
      operand = .argument index → 0xff < index.toNat →
      Stops boundaries opcode offset next operand
        (.refused (.indexOutOfRange .argument index.toUInt32 offset))
  | userString {index : UInt32} : operand = .userString index → Token.maxRow < index.toNat →
      Stops boundaries opcode offset next operand
        (.refused (.indexOutOfRange .userString index offset))
  | label {stop : Stop} :
      FirstStops (Label.Reaches boundaries next opcode.operandKind.reach)
        (Label.Stops boundaries opcode offset next) operand.labels stop →
      Stops boundaries opcode offset next operand stop

section Operands

variable {boundaries : Array Nat} {opcode : Opcode} {offset next : Nat}

theorem Operand.Stops.target {label : Label} {stop : Stop}
    (hfar : ¬ label.Reaches boundaries next opcode.operandKind.reach)
    (h : label.Stops boundaries opcode offset next stop) :
    Operand.Stops boundaries opcode offset next (.target label) stop :=
  .label (.here hfar h)

theorem writeShortIndex_accepts {kind : IndexKind} {index : UInt16} {Q : Stop → Prop}
    (hlarge : 0xff < index.toNat →
      Q (.refused (.indexOutOfRange kind index.toUInt32 offset))) :
    (writeShortIndex kind index offset).Accepts (index.toNat ≤ 0xff) Q 1 := by
  have h : (writeShortIndex kind index offset).Accepts (index.toNat ≤ 0xff ∧ True) Q 1 :=
    .guarded (fun _ => word_accepts _ _) (by decide) fun h => hlarge (Nat.not_le.mp h)
  rwa [and_true] at h

theorem writeOperand_accepts {operand : Operand RawModel}
    (hsmall : ∀ boundary ∈ boundaries, boundary ≤ 0xffffffff)
    (hnext : next ≤ 0xffffffff) (hfits : operand.fits opcode.operandKind = true) :
    (writeOperand boundaries opcode offset next operand).Accepts
      (operand.Storable boundaries next opcode.operandKind)
      (operand.Stops boundaries opcode offset next)
      (opcode.operandKind.size?.getD (4 + 4 * operand.switchLength)) := by
  generalize hkind : opcode.operandKind = kind at hfits ⊢
  unfold Operand.fits at hfits
  split at hfits
  next => exact pure_puts.accepts _
  iterate 5
    next => exact word_accepts _ _
  next =>
    rw [writeOperand_shortLocal hkind]
    exact (writeShortIndex_accepts (.localVariable hkind rfl)).congr (by simp [Operand.Storable])
  next =>
    rw [writeOperand_longLocal hkind]
    exact (word_accepts _ _).congr (by simp [Operand.Storable])
  next =>
    rw [writeOperand_shortArgument hkind]
    exact (writeShortIndex_accepts (.argument hkind rfl)).congr (by simp [Operand.Storable])
  next =>
    rw [writeOperand_longArgument hkind]
    exact (word_accepts _ _).congr (by simp [Operand.Storable])
  next label =>
    rw [writeOperand_shortBranch hkind]
    have h : (writeShortDelta boundaries opcode offset next label).Accepts
        (label.Reaches boundaries next opcode.operandKind.reach)
        (Operand.Stops boundaries opcode offset next (.target label)) 1 :=
      (writeShortDelta_accepts hsmall hnext hkind label).imp fun hfar _ => .target hfar
    rwa [hkind] at h
  next label =>
    rw [writeOperand_longBranch hkind]
    have h : (writeLongDelta boundaries opcode offset next label).Accepts
        (label.Reaches boundaries next opcode.operandKind.reach)
        (Operand.Stops boundaries opcode offset next (.target label)) 4 :=
      (writeLongDelta_accepts hsmall hnext (by rw [hkind]; decide) label).imp
        fun hfar _ => .target hfar
    rwa [hkind] at h
  next labels =>
    have hcount := word_accepts (UInt32.ofNat labels.length)
      (Operand.Stops boundaries opcode offset next (.switch labels))
    have hlabels : (each (writeLongDelta boundaries opcode offset next) labels).Accepts
        (∀ label ∈ labels, label.Reaches boundaries next opcode.operandKind.reach)
        (Operand.Stops boundaries opcode offset next (.switch labels)) (4 * labels.length) :=
      (each_accepts (writeLongDelta_accepts hsmall hnext (by rw [hkind]; decide)) labels).imp
        fun _ _ hstops => .label hstops
    rw [hkind] at hlabels
    exact (hcount.andThen fun _ => hlabels).congr (and_iff_right trivial)
  next index =>
    have h : (writeOperand boundaries opcode offset next (.userString index)).Accepts
        (index.toNat ≤ Token.maxRow ∧ True) (Operand.Stops boundaries opcode offset next _) 4 :=
      .guarded (fun _ => word_accepts _ _) (by decide)
        fun hlarge => .userString rfl (Nat.not_le.mp hlarge)
    rwa [and_true] at h
  next => exact word_accepts _ _
  next => cases hfits

end Operands

/-! ## Instructions -/

/-- What is asked of an instruction: an operand in the form of its opcode, and something that the
builder stores for it. -/
def Instruction.Storable (boundaries : Array Nat) (B : Builder M) (i : Instruction M) : Prop :=
  i.operand.fits i.opcode.operandKind = true ∧ ∃ stored, i.operand.lower B = .ok stored ∧
    stored.Storable boundaries (i.offset + i.size) i.opcode.operandKind

/-- What stops an instruction, at the offset it carries. -/
inductive Instruction.Stops (boundaries : Array Nat) (B : Builder M) (i : Instruction M) :
    Stop → Prop
  | form : i.operand.fits i.opcode.operandKind = false →
      Stops boundaries B i (.refused (.operandMismatch i.opcode i.offset))
  | builder {e : Error} : i.operand.fits i.opcode.operandKind = true →
      i.operand.lower B = .error e → Stops boundaries B i (.refused e)
  | operand {stored : Operand RawModel} {stop : Stop} :
      i.operand.fits i.opcode.operandKind = true → i.operand.lower B = .ok stored →
      stored.Stops boundaries i.opcode i.offset (i.offset + i.size) stop →
      Stops boundaries B i stop

theorem Instruction.operandSize_eq (i : Instruction M) :
    i.operandSize = i.opcode.operandKind.size?.getD (4 + 4 * i.operand.switchLength) := by
  unfold operandSize
  cases i.opcode.operandKind.size? <;> rfl

section Instructions

variable {B : Builder M} {boundaries : Array Nat}

/-- What a builder is asked for takes a byte at least. -/
theorem Instruction.operandSize_pos {i : Instruction M} {e : Error}
    (hfits : i.operand.fits i.opcode.operandKind = true) (hlower : i.operand.lower B = .error e) :
    0 < i.operandSize := by
  rw [operandSize_eq]
  cases hoperand : i.operand with
  | none | immediate | target | switch =>
    rw [hoperand] at hlower
    cases hlower
  | localVariable | argument | userString | member =>
    rw [hoperand] at hfits
    generalize i.opcode.operandKind = kind at hfits ⊢
    cases kind <;> cases hfits <;> exact Nat.succ_pos _

theorem writeInstruction_accepts {i : Instruction M}
    (hsmall : ∀ boundary ∈ boundaries, boundary ≤ 0xffffffff)
    (hend : i.offset + i.size ≤ 0xffffffff) :
    (writeInstruction boundaries B i.offset i).Accepts (i.Storable boundaries B)
      (i.Stops boundaries B) i.size := by
  refine .require (fun hfits => ?_) i.size_pos fun h => .form (Bool.eq_false_iff.mpr h)
  have hopcode : (put i.opcode.bytes).Accepts True (i.Stops boundaries B) i.opcode.size := by
    have h : Puts (put i.opcode.bytes) i.opcode.bytes := fun _ => rfl
    rw [← Opcode.length_bytes]
    exact h.accepts _
  have hoperand : Accepts (ofResult (i.operand.lower B) >>=
        writeOperand boundaries i.opcode i.offset (i.offset + i.size))
      (∃ stored, i.operand.lower B = .ok stored ∧
        stored.Storable boundaries (i.offset + i.size) i.opcode.operandKind)
      (i.Stops boundaries B) i.operandSize := by
    refine .bindResult (fun stored hlower => ?_) fun e hlower =>
      ⟨i.operandSize_pos hfits hlower, .builder hfits hlower⟩
    rw [i.operandSize_eq, ← Operand.switchLength_of_lower hlower]
    have hstored := (Operand.fits_of_lower hlower _).trans hfits
    exact (writeOperand_accepts hsmall hend hstored).imp fun _ _ => .operand hfits hlower
  exact (hopcode.andThen fun _ => hoperand).congr (and_iff_right trivial)

end Instructions

/-! ## Instructions in a row -/

/-- What `B` stores for the instruction has the form `bytes`, with offsets for its labels. -/
def Instruction.StoredAs (B : Builder M) (boundaries : Array Nat) (i : Instruction M)
    (bytes : List UInt8) : Prop :=
  ∃ raw, Lowers B boundaries i raw ∧ StoredInstruction i.offset raw bytes

/-- Writing `placed` behind `b` stopped at the first instruction that is not storable. What is
written by then, in `b'`, is each instruction in front of it and part of that one. -/
def StopsShort (boundaries : Array Nat) (B : Builder M) (placed : List (Instruction M))
    (b : Buffer) (stop : Stop) (b' : Buffer) : Prop :=
  ∃ before i behind chunks part, placed = before ++ i :: behind ∧
    (∀ earlier ∈ before, earlier.Storable boundaries B) ∧ ¬ i.Storable boundaries B ∧
    i.Stops boundaries B stop ∧ List.Forall₂ (Instruction.StoredAs B boundaries) before chunks ∧
    part.length < i.size ∧ b' = b.append (chunks.flatten ++ part)

section Run

variable {B : Builder M} {boundaries : Array Nat} {placed : List (Instruction M)} {stop : Stop}
  {b b' : Buffer}

theorem StopsShort.firstStops (h : StopsShort boundaries B placed b stop b') :
    FirstStops (Instruction.Storable boundaries B) (Instruction.Stops boundaries B) placed
      stop := by
  obtain ⟨before, i, behind, _, _, rfl, hbefore, hi, hstops, _⟩ := h
  exact ⟨before, i, behind, rfl, hbefore, hi, hstops⟩

theorem StopsShort.cons {i : Instruction M} {bytes : List UInt8}
    (hi : i.Storable boundaries B) (hstored : i.StoredAs B boundaries bytes)
    (h : StopsShort boundaries B placed (b.append bytes) stop b') :
    StopsShort boundaries B (i :: placed) b stop b' := by
  obtain ⟨before, j, behind, chunks, part, rfl, hbefore, hj, hstops, hchunks, hpart, rfl⟩ := h
  refine ⟨i :: before, j, behind, bytes :: chunks, part, rfl, ?_, hj, hstops,
    .cons hstored hchunks, hpart, ?_⟩
  · exact List.forall_mem_cons.mpr ⟨hi, hbefore⟩
  · rw [Buffer.append_append, List.flatten_cons, List.append_assoc]

/-- The first instruction is written, or stops the run. The offset that it carries is not looked at,
so it may be the one it is placed at. -/
theorem writeInstruction_outcome {offset : Nat} {i : Instruction M}
    (hsmall : ∀ boundary ∈ boundaries, boundary ≤ 0xffffffff)
    (hend : offset + i.size ≤ 0xffffffff) (b : Buffer) (rest : List (Instruction M)) :
    (∃ bytes, Instruction.Storable boundaries B { i with offset := offset } ∧
      Instruction.StoredAs B boundaries { i with offset := offset } bytes ∧
      writeInstruction boundaries B offset i b = .ok () (b.append bytes)) ∨
    (∃ stop b', StopsShort boundaries B ({ i with offset := offset } :: rest) b stop b' ∧
      writeInstruction boundaries B offset i b = .error stop b') := by
  have haccepts : (writeInstruction boundaries B offset i).Accepts
      (Instruction.Storable boundaries B { i with offset := offset })
      (Instruction.Stops boundaries B { i with offset := offset }) i.size :=
    writeInstruction_accepts (i := { i with offset := offset }) hsmall hend
  rcases haccepts b with ⟨hi, bytes, _, hok⟩ | ⟨hi, stop, part, hpart, hstops, herror⟩
  · obtain ⟨raw, stored, hlowers, hstored, hbytes⟩ := writeInstruction_sound hend hok
    refine .inl ⟨stored, hi, ⟨raw, hlowers, hstored⟩, ?_⟩
    rw [hok, hbytes]
  · exact .inr ⟨stop, _, ⟨[], _, rest, [], part, rfl, List.forall_mem_nil _, hi, hstops, .nil,
      hpart, rfl⟩, herror⟩

theorem writeInstructions_outcome {offset : Nat} {instructions : List (Instruction M)}
    (hsmall : ∀ boundary ∈ boundaries, boundary ≤ 0xffffffff)
    (hsize : offset + totalSize instructions ≤ 0xffffffff) (b : Buffer) :
    (∃ b', (∀ i ∈ placeFrom offset instructions, i.Storable boundaries B) ∧
      writeInstructions boundaries B (instructions.zip (layoutFrom offset instructions)) b =
        .ok () b') ∨
    (∃ stop b', StopsShort boundaries B (placeFrom offset instructions) b stop b' ∧
      writeInstructions boundaries B (instructions.zip (layoutFrom offset instructions)) b =
        .error stop b') := by
  induction instructions generalizing offset b with
  | nil => exact .inl ⟨b, List.forall_mem_nil _, rfl⟩
  | cons i rest ih =>
    rw [totalSize] at hsize
    have hkept : low32 offset = offset := low32_eq_iff.mpr (by omega)
    rw [zip_layoutFrom, placeFrom, hkept, writeInstructions, each_cons]
    rcases writeInstruction_outcome hsmall (show offset + i.size ≤ 0xffffffff by omega) b
      (placeFrom (offset + i.size) rest) with ⟨bytes, hi, hstored, hok⟩ | ⟨stop, b', hstops, herror⟩
    · rw [bind_of_ok hok]
      rcases ih (show offset + i.size + totalSize rest ≤ 0xffffffff by omega) (b.append bytes) with
        ⟨b', hrest, hok'⟩ | ⟨stop, b', hstops, herror⟩
      · exact .inl ⟨b', List.forall_mem_cons.mpr ⟨hi, hrest⟩, hok'⟩
      · exact .inr ⟨stop, b', hstops.cons hi hstored, herror⟩
    · exact .inr ⟨stop, b', hstops, bind_of_error herror⟩

end Run

/-! ## Code -/

namespace Code

variable {code : Code M} {B : Builder M}

theorem size_boundaries (code : Code M) : code.boundaries.size = code.length + 1 := by
  simp [boundaries, offsets, length]

theorem size_boundaries_placed (code : Code M) :
    code.placed.boundaries.size = code.length + 1 := by
  rw [size_boundaries, length_placed]

theorem boundary_placed_le (hsize : code.size ≤ 0xffffffff) :
    ∀ boundary ∈ code.placed.boundaries, boundary ≤ 0xffffffff := by
  intro boundary hmem
  rw [← layout_toArray hsize, List.mem_toArray] at hmem
  have hle := (bounds_of_mem_layoutFrom hmem).2
  rw [Nat.zero_add] at hle
  exact Nat.le_trans hle hsize

theorem writer_outcome (code : Code M) (B : Builder M) (hsize : code.size ≤ 0xffffffff)
    (b : Buffer) :
    (∃ b', (∀ i ∈ code.placed.instructions, i.Storable code.placed.boundaries B) ∧
      code.writer B b = .ok () b') ∨
    (∃ stop b', StopsShort code.placed.boundaries B code.placed.instructions b stop b' ∧
      code.writer B b = .error stop b') := by
  have hlayout : checkLayout code.layout = .ok () :=
    checkLayout_layoutFrom.mpr ((Nat.zero_add _).symm ▸ hsize)
  have hopen : code.writer B b = writeInstructions code.placed.boundaries B
      (code.instructions.zip (layoutFrom 0 code.instructions)) b := by
    unfold writer
    rw [bind_of_ok (ofResult_eq_ok.mpr ⟨hlayout, rfl⟩), layout_toArray hsize]
    rfl
  rw [hopen]
  exact writeInstructions_outcome (boundary_placed_le hsize) ((Nat.zero_add _).symm ▸ hsize) b

/-- Code of 4 GiB and more is refused. -/
theorem writer_of_large (hsize : 0xffffffff < code.size) (b : Buffer) :
    ∃ offset, code.writer B b = .error (.refused (.malformed .codeLimit offset)) b := by
  cases hlayout : checkLayout code.layout with
  | ok =>
    have hle := checkLayout_layoutFrom.mp hlayout
    rw [Nat.zero_add] at hle
    exact absurd hle (Nat.not_le.mpr hsize)
  | error e =>
    have hrefused : code.writer B b = .error (.refused e) b :=
      bind_of_error (ofResult_eq_error.mpr ⟨e, hlayout, rfl, rfl⟩)
    unfold checkLayout at hlayout
    split at hlayout
    next offset _ =>
      cases hlayout
      exact ⟨offset, hrefused⟩
    next => cases hlayout

end Code

/-! ## Overflow -/

/-- In code below 4 GiB, the first instruction that is not storable has the form of its opcode, and
the first of its labels that does not reach is an offset, so far to the front that a word cannot
hold the distance. -/
def Code.Overflows (code : Code M) (B : Builder M) : Prop :=
  code.size ≤ 0xffffffff ∧ ∃ before i behind near far, ∃ target : Int64,
    code.placed.instructions = before ++ i :: behind ∧
    (∀ earlier ∈ before, earlier.Storable code.placed.boundaries B) ∧
    i.operand.fits i.opcode.operandKind = true ∧ i.labels = near ++ .detached target :: far ∧
    (∀ nearer ∈ near,
      nearer.Reaches code.placed.boundaries (i.offset + i.size) i.opcode.operandKind.reach) ∧
    target.toInt - (i.offset + i.size : Nat) < -0x8000000000000000

section Overflow

variable {boundaries : Array Nat} {opcode : Opcode} {offset next : Nat} {stop : Stop}

/-- No label overflows but an offset. -/
theorem Label.Stops.exists_detached {label : Label} (hnext : next ≤ 0xffffffff)
    (h : label.Stops boundaries opcode offset next (.fault .overflow)) :
    ∃ target, label = .detached target ∧ target.toInt - next < -0x8000000000000000 := by
  cases h with
  | overflow hoffset hfar =>
    cases label with
    | detached target =>
      have htarget : target.toInt = next + _ := Option.some.inj hoffset
      exact ⟨target, rfl, by omega⟩
    | instruction index =>
      obtain ⟨boundary, hget, hboundary⟩ := Option.map_eq_some_iff.mp hoffset
      have htarget : (boundary : Int) = next + _ := hboundary
      omega

/-- A label that overflows stops for nothing else. -/
theorem Label.Stops.eq_overflow {label : Label}
    (h : label.Stops boundaries opcode offset next (.fault .overflow))
    (h' : label.Stops boundaries opcode offset next stop) : stop = .fault .overflow := by
  cases h with
  | overflow hoffset hfar =>
    cases h' with
    | @noTarget index hlabel hindex =>
      rw [hlabel, Code.offsetOf?, Array.getElem?_eq_none hindex] at hoffset
      cases hoffset
    | tooFar hoffset' _ hword =>
      have hsame := Option.some.inj (hoffset.symm.trans hoffset')
      omega
    | overflow => rfl

/-- What overflows is a label of the operand, the first that does not reach. -/
theorem Operand.Stops.firstStops_of_overflow {operand : Operand RawModel}
    (h : operand.Stops boundaries opcode offset next (.fault .overflow)) :
    FirstStops (Label.Reaches boundaries next opcode.operandKind.reach)
      (Label.Stops boundaries opcode offset next) operand.labels (.fault .overflow) := by
  cases h with
  | label hfirst => exact hfirst

theorem Operand.Stops.eq_overflow {operand : Operand RawModel}
    (h : operand.Stops boundaries opcode offset next (.fault .overflow))
    (h' : operand.Stops boundaries opcode offset next stop) : stop = .fault .overflow := by
  have hfirst := h.firstStops_of_overflow
  have hlabels : operand.labels ≠ [] := by
    obtain ⟨near, label, far, hlabels, _⟩ := hfirst
    simp [hlabels]
  cases h' with
  | label hfirst' =>
    obtain ⟨label, _, hoverflow, hstops⟩ := hfirst.unique hfirst'
    exact hoverflow.eq_overflow hstops
  | localVariable _ hoperand | argument _ hoperand | userString hoperand =>
    -- an operand with an index has no labels
    exact absurd (congrArg Operand.labels hoperand) hlabels

theorem Instruction.Stops.eq_overflow {B : Builder M} {i : Instruction M}
    (h : i.Stops boundaries B (.fault .overflow)) (h' : i.Stops boundaries B stop) :
    stop = .fault .overflow := by
  cases h with
  | operand hfits hlower hoverflow =>
    cases h' with
    | form hform =>
      rw [hfits] at hform
      cases hform
    | builder _ hlower' =>
      rw [hlower] at hlower'
      cases hlower'
    | operand _ hlower' hstops =>
      obtain rfl := Except.ok.inj (hlower.symm.trans hlower')
      exact hoverflow.eq_overflow hstops

/-- The only fault of an instruction is an overflow. -/
theorem Instruction.Stops.eq_overflow_of_fault {B : Builder M} {i : Instruction M} {f : Fault}
    (h : i.Stops boundaries B (.fault f)) : f = .overflow := by
  cases h with
  | operand _ _ hoperand =>
    cases hoperand with
    | label hfirst =>
      obtain ⟨_, _, _, _, _, _, hlabel⟩ := hfirst
      cases hlabel
      rfl

/-- An operand with labels is stored as it is. -/
theorem Operand.exists_lower {B : Builder M} {operand : Operand M} (h : operand.labels ≠ []) :
    ∃ stored, operand.lower B = .ok stored := by
  cases operand with
  | target | switch => exact ⟨_, rfl⟩
  | _ => exact absurd rfl h

/-- An instruction is not storable if one of its labels does not reach. -/
theorem Instruction.Storable.reaches {B : Builder M} {i : Instruction M}
    (h : i.Storable boundaries B) {label : Label} (hlabel : label ∈ i.labels) :
    label.Reaches boundaries (i.offset + i.size) i.opcode.operandKind.reach := by
  obtain ⟨_, stored, hlower, hstorable⟩ := h
  rw [labels, ← Operand.labels_of_lower hlower] at hlabel
  cases stored with
  | target => exact List.mem_singleton.mp hlabel ▸ hstorable
  | switch => exact hstorable _ hlabel
  | _ => cases hlabel

end Overflow

namespace Code

variable {code : Code M} {B : Builder M}

theorem end_le_of_mem_placed (hsize : code.size ≤ 0xffffffff) {i : Instruction M}
    (hi : i ∈ code.placed.instructions) : i.offset + i.size ≤ 0xffffffff := by
  have hend := end_le_of_mem_placeFrom hi
  rw [Nat.zero_add] at hend
  exact Nat.le_trans hend hsize

theorem overflows_iff (hsize : code.size ≤ 0xffffffff) :
    code.Overflows B ↔ FirstStops (Instruction.Storable code.placed.boundaries B)
      (Instruction.Stops code.placed.boundaries B) code.placed.instructions
      (.fault .overflow) := by
  constructor
  · rintro ⟨_, before, i, behind, near, far, target, hcode, hbefore, hfits, hlabels, hnear, hfar⟩
    have hmem : .detached target ∈ i.labels := hlabels ▸ List.mem_append_right near (.head far)
    obtain ⟨stored, hlower⟩ := Operand.exists_lower (B := B) (List.ne_nil_of_mem hmem)
    have hbeyond : ¬ Label.Reaches code.placed.boundaries (i.offset + i.size)
        i.opcode.operandKind.reach (.detached target) := by
      have hreach := i.opcode.operandKind.reach_le
      rintro ⟨_, hoffset, hlow, _⟩
      have htarget := Option.some.inj hoffset
      omega
    refine ⟨before, i, behind, hcode, hbefore, fun hi => hbeyond (hi.reaches hmem),
      .operand hfits hlower (.label ⟨near, _, far, ?_, hnear, hbeyond, ?_⟩)⟩
    · rw [Operand.labels_of_lower hlower]
      exact hlabels
    · refine .overflow (congrArg some ?_) hfar
      rw [Int.add_comm, Int.sub_add_cancel]
  · rintro ⟨before, i, behind, hcode, hbefore, _, hstops⟩
    cases hstops with
    | operand hfits hlower hoverflow =>
      obtain ⟨near, label, far, hlabels, hnear, _, hlabel⟩ := hoverflow.firstStops_of_overflow
      have hmem : i ∈ code.placed.instructions :=
        hcode ▸ List.mem_append_right before (.head behind)
      obtain ⟨target, rfl, hfar⟩ := hlabel.exists_detached (end_le_of_mem_placed hsize hmem)
      rw [Operand.labels_of_lower hlower] at hlabels
      exact ⟨hsize, before, i, behind, near, far, target, hcode, hbefore, hfits, hlabels, hnear,
        hfar⟩

/-- Writing faults for an overflow only, and exactly if a distance overflows before anything else is
wrong. -/
theorem writer_faults_iff {f : Fault} (out : Buffer) :
    (∃ out', code.writer B out = .error (.fault f) out') ↔ f = .overflow ∧ code.Overflows B := by
  constructor
  · rintro ⟨out', h⟩
    rcases Nat.lt_or_ge 0xffffffff code.size with hlarge | hsize
    · obtain ⟨offset, hrefused⟩ := writer_of_large (B := B) hlarge out
      rw [hrefused] at h
      cases h
    · rcases code.writer_outcome B hsize out with ⟨_, _, hok⟩ | ⟨stop, _, hstops, herror⟩
      · rw [hok] at h
        cases h
      · rw [herror] at h
        cases h
        obtain rfl : f = .overflow := by
          obtain ⟨_, _, _, _, _, _, hi⟩ := hstops.firstStops
          exact hi.eq_overflow_of_fault
        exact ⟨rfl, (overflows_iff hsize).mpr hstops.firstStops⟩
  · rintro ⟨rfl, h⟩
    have hfirst := (overflows_iff h.1).mp h
    rcases code.writer_outcome B h.1 out with ⟨_, hall, _⟩ | ⟨stop, out', hstops, herror⟩
    · obtain ⟨before, i, behind, hcode, _, hi, _⟩ := hfirst
      exact absurd (hall i (hcode ▸ List.mem_append_right before (.head behind))) hi
    · obtain ⟨i, _, hoverflow, hi⟩ := hfirst.unique hstops.firstStops
      rw [hoverflow.eq_overflow hi] at herror
      exact ⟨out', herror⟩

end Code

end CilCodec
