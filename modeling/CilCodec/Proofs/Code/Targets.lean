import CilCodec.Proofs.Code.Commutation
import CilCodec.Proofs.Code.RoundTrip

/-!
# CilCodec.Proofs.Code.Targets

Where instructions stand and where branches lead, in bytes.

A branch stores a signed delta, which counts from the end of its instruction; for a switch that is
the end of its table. Three computations have to agree on these ends: the sizes that instructions
have, the layout that writing goes by, and the bytes that are in fact written or read.

The statements are about bytes and positions alone. `OperandKind.StoresDeltas` says which deltas the
bytes of an operand store, and `Instruction.StandsAt` that an instruction with such deltas stands at
a position. `Code.LeadsTo` says where a label leads, `Code.Binds` which label a target has to get.

Results:
1. `Code.writer_places_targets`: every instruction is written at its offset, over as many bytes as
   its size, and its deltas lead to where its labels do.
2. `Code.reader_binds_targets`: every instruction is read at its offset, and its labels are those of
   the targets that its deltas lead to.
-/

namespace CilCodec

open LittleEndian Reader

variable {M : OperandModel}

/-! ## Deltas -/

/-- `kind.StoresDeltas bytes deltas`: an operand of form `kind` that is stored as `bytes` holds the
branch deltas `deltas`, in order. -/
inductive OperandKind.StoresDeltas : OperandKind → List UInt8 → List Int → Prop
  | short (delta : Int8) : StoresDeltas .shortBranch (encode delta) [delta.toInt]
  | long (delta : Int32) : StoresDeltas .longBranch (encode delta) [delta.toInt]
  | table (count : UInt32) (deltas : List Int32) : deltas.length = count.toNat →
      StoresDeltas .switchTable (encode count ++ deltas.flatMap encode) (deltas.map Int32.toInt)
  | other {kind : OperandKind} (bytes : List UInt8) : kind.isBranch = false →
      StoresDeltas kind bytes []

/-- `i.StandsAt data pos deltas`: at `pos` there is the opcode of `i`, with an operand behind it
that holds `deltas`, and the two are as many bytes as `i` has. -/
def Instruction.StandsAt (i : Instruction M) (data : Array UInt8) (pos : Nat)
    (deltas : List Int) : Prop :=
  ∃ operand, Holds data pos (i.opcode.bytes ++ operand) ∧
    (i.opcode.bytes ++ operand).length = i.size ∧
    i.opcode.operandKind.StoresDeltas operand deltas

/-- What four bytes hold at most. -/
def IsDelta (delta : Int) : Prop := -0x80000000 ≤ delta ∧ delta < 0x80000000

/-- The label that a delta is read as, in an instruction that ends at `next`. -/
def Label.ofDelta (next : Nat) (delta : Int) : Label := .detached (Int64.ofInt (next + delta))

/-- Within 4 GiB, no target is beyond what a label can hold. -/
theorem toInt_target {next : Nat} {delta : Int} (hnext : next ≤ 0xffffffff)
    (hdelta : IsDelta delta) : (Int64.ofInt (next + delta)).toInt = next + delta := by
  obtain ⟨hlow, hhigh⟩ := hdelta
  exact Int64.toInt_ofInt_of_le (by omega) (by omega)

theorem OperandKind.StoresDeltas.isDelta {kind : OperandKind} {bytes : List UInt8}
    {deltas : List Int} (h : kind.StoresDeltas bytes deltas) : ∀ delta ∈ deltas, IsDelta delta := by
  intro delta hdelta
  cases h with
  | short d =>
    obtain rfl := List.mem_singleton.mp hdelta
    have hlow := d.le_toInt
    have hhigh := d.toInt_lt
    exact ⟨by omega, by omega⟩
  | long d =>
    obtain rfl := List.mem_singleton.mp hdelta
    exact ⟨d.le_toInt, d.toInt_lt⟩
  | table count ds hcount =>
    obtain ⟨d, _, rfl⟩ := List.mem_map.mp hdelta
    exact ⟨d.le_toInt, d.toInt_lt⟩
  | other bytes hkind => cases hdelta

/-- The labels of a stored operand are those of its deltas. -/
theorem StoredOperand.exists_deltas {next : Nat} {kind : OperandKind} {operand : Operand RawModel}
    {bytes : List UInt8} (h : StoredOperand next kind operand bytes) :
    ∃ deltas, kind.StoresDeltas bytes deltas ∧
      operand.labels = deltas.map (Label.ofDelta next) := by
  cases h with
  | shortBranch delta =>
    refine ⟨_, .short delta, ?_⟩
    show [branchTarget next delta.toInt32] = [Label.ofDelta next delta.toInt]
    unfold branchTarget Label.ofDelta
    rw [Int8.toInt_toInt32]
  | longBranch delta => exact ⟨_, .long delta, rfl⟩
  | switchTable count deltas hcount =>
    refine ⟨_, .table count deltas hcount, ?_⟩
    show deltas.map (branchTarget next) = (deltas.map Int32.toInt).map (Label.ofDelta next)
    rw [List.map_map]
    rfl
  | _ => exact ⟨[], .other _ rfl, rfl⟩

/-- A stored instruction stands where its bytes do, and so does one with its opcode and size. -/
theorem StoredInstruction.exists_standsAt {offset pos : Nat} {raw : Instruction RawModel}
    {bytes : List UInt8} {data : Array UInt8} (h : StoredInstruction offset raw bytes)
    (hholds : Holds data pos bytes) {i : Instruction M} (hopcode : i.opcode = raw.opcode)
    (hsize : i.size = raw.size) :
    ∃ deltas, i.StandsAt data pos deltas ∧ (∀ delta ∈ deltas, IsDelta delta) ∧
      raw.labels = deltas.map (Label.ofDelta (offset + i.size)) := by
  have hlength := h.length_eq
  obtain @⟨opcode, operand, bytes, hoperand⟩ := h
  obtain ⟨deltas, hdeltas, hlabels⟩ := hoperand.exists_deltas
  rw [hlength, ← hsize] at hlabels
  refine ⟨deltas, ⟨bytes, ?_, ?_, ?_⟩, hdeltas.isDelta, hlabels⟩
  · rw [hopcode]
    exact hholds
  · rw [hopcode, hsize]
    exact hlength
  · rw [hopcode]
    exact hdeltas

/-! ## Boundaries -/

/-- Behind an instruction comes the next boundary. -/
theorem getElem?_layoutFrom_succ {offset index : Nat} {instructions : List (Instruction M)}
    {i : Instruction M} (hsize : offset + totalSize instructions ≤ 0xffffffff)
    (hplaced : placeFrom offset instructions = instructions) (hi : instructions[index]? = some i) :
    (layoutFrom offset instructions)[index + 1]? = some (i.offset + i.size) := by
  induction instructions generalizing offset index with
  | nil => cases hi
  | cons first rest ih =>
    rw [placeFrom, List.cons.injEq] at hplaced
    obtain ⟨hfirst, hrest⟩ := hplaced
    rw [totalSize, ← Nat.add_assoc] at hsize
    cases index with
    | zero =>
      obtain rfl : first = i := Option.some.inj hi
      have hoffset : first.offset = offset := by
        rw [← hfirst]
        exact low32_eq_iff.mpr (by omega)
      rw [hoffset]
      cases rest <;> rfl
    | succ index => exact ih hsize hrest hi

namespace Code

theorem getElem?_boundaries (code : Code M) (index : Nat) :
    code.boundaries[index]? =
      if index = code.length then some code.size
      else code.instructions[index]?.map Instruction.offset := by
  have hsize : code.offsets.size = code.length := by
    simp [offsets, length]
  rw [boundaries, Array.getElem?_push, hsize]
  simp [offsets]

theorem boundary_of_instruction {code : Code M} {index : Nat} {i : Instruction M}
    (hi : code.instructions[index]? = some i) : code.boundaries[index]? = some i.offset := by
  have hlt : index < code.length := (List.getElem?_eq_some_iff.mp hi).1
  rw [getElem?_boundaries, if_neg (Nat.ne_of_lt hlt), hi]
  rfl

theorem boundary_of_end (code : Code M) : code.boundaries[code.length]? = some code.size := by
  rw [getElem?_boundaries, if_pos rfl]

theorem end_le_size {code : Code M} (hplaced : code.IsPlaced) {index : Nat} {i : Instruction M}
    (hi : code.instructions[index]? = some i) : i.offset + i.size ≤ code.size := by
  have hmem : i ∈ placeFrom 0 code.instructions := hplaced.symm ▸ List.mem_of_getElem? hi
  have hle := end_le_of_mem_placeFrom hmem
  rw [Nat.zero_add] at hle
  exact hle

theorem boundary_le {code : Code M} (hplaced : code.IsPlaced) {index boundary : Nat}
    (hget : code.boundaries[index]? = some boundary) : boundary ≤ code.size := by
  rw [getElem?_boundaries] at hget
  split at hget
  next =>
    cases hget
    exact Nat.le_refl _
  next =>
    obtain ⟨i, hi, rfl⟩ := Option.map_eq_some_iff.mp hget
    exact Nat.le_of_add_right_le (end_le_size hplaced hi)

/-- Below 4 GiB, an instruction ends where the next one starts, and the last one at the end. -/
theorem boundary_succ {code : Code M} (hplaced : code.IsPlaced) (hsize : code.size ≤ 0xffffffff)
    {index : Nat} {i : Instruction M} (hi : code.instructions[index]? = some i) :
    code.boundaries[index + 1]? = some (i.offset + i.size) := by
  rw [← layout_eq_of_isPlaced hplaced hsize, List.getElem?_toArray]
  exact getElem?_layoutFrom_succ ((Nat.zero_add _).symm ▸ hsize) hplaced hi

/-! ## Labels and targets -/

/-- `code.LeadsTo label target`: the label stands for the offset `target`. -/
inductive LeadsTo (code : Code M) : Label → Int → Prop
  | instruction {index : Nat} {i : Instruction M} : code.instructions[index]? = some i →
      LeadsTo code (.instruction index) i.offset
  | atEnd : LeadsTo code (.instruction code.length) code.size
  | detached (target : Int64) : LeadsTo code (.detached target) target.toInt

/-- `code.Binds target label`: the label is the one for the offset `target`, which is that of the
instruction that starts there, or of the end. Any other target stays an offset. -/
structure Binds (code : Code M) (target : Int) (label : Label) : Prop where
  instruction : ∀ {index : Nat} {i : Instruction M}, code.instructions[index]? = some i →
    target = i.offset → label = .instruction index
  atEnd : target = code.size → label = .instruction code.length
  detached : (∀ i ∈ code.instructions, target ≠ i.offset) → target ≠ code.size →
    ∃ offset : Int64, offset.toInt = target ∧ label = .detached offset

theorem leadsTo_of_boundary {code : Code M} {index boundary : Nat}
    (hget : code.boundaries[index]? = some boundary) :
    code.LeadsTo (.instruction index) boundary := by
  rw [getElem?_boundaries] at hget
  split at hget
  next hend =>
    cases hget
    subst hend
    exact .atEnd
  next =>
    obtain ⟨i, hi, rfl⟩ := Option.map_eq_some_iff.mp hget
    exact .instruction hi

/-- A label that unbinds to the target of a delta leads there. -/
theorem leadsTo_of_unbind {code : Code M} (hplaced : code.IsPlaced) (hsize : code.size ≤ 0xffffffff)
    {label : Label} {next : Nat} {delta : Int} (hnext : next ≤ 0xffffffff) (hdelta : IsDelta delta)
    (h : label.unbind code.boundaries = .ofDelta next delta) :
    code.LeadsTo label (next + delta) := by
  rw [← toInt_target hnext hdelta]
  cases label with
  | detached target =>
    obtain rfl : target = _ := Label.detached.inj h
    exact .detached _
  | instruction index =>
    simp only [Label.unbind] at h
    split at h
    next boundary hget =>
      have hle := boundary_le hplaced hget
      have htarget : Int64.ofNat boundary = _ := Label.detached.inj h
      rw [← htarget, Int64.toInt_ofNat_of_lt (by omega)]
      exact leadsTo_of_boundary hget
    next => cases h

/-- Binding the target of a delta gives the label for it. -/
theorem binds_of_bind {code : Code M} (hplaced : code.IsPlaced) (hsize : code.size ≤ 0xffffffff)
    {next : Nat} {delta : Int} (hnext : next ≤ 0xffffffff) (hdelta : IsDelta delta) :
    code.Binds (next + delta) (Label.bind code.offsets code.size (.ofDelta next delta)) := by
  have hasc : Ascending (code.offsets.push code.size) := ascending_boundaries hplaced hsize
  have hlimit := lt_offsetLimit hsize
  have hbound : ∀ {index boundary : Nat}, code.boundaries[index]? = some boundary →
      (next + delta : Int) = boundary →
      Label.bind code.offsets code.size (.ofDelta next delta) = .instruction index := by
    intro index boundary hget htarget
    unfold Label.ofDelta
    rw [htarget, Int64.ofInt_eq_ofNat]
    exact labelFor_boundary hasc hlimit hget
  refine ⟨fun hi => hbound (boundary_of_instruction hi), hbound code.boundary_of_end, ?_⟩
  intro hnone hend
  refine ⟨_, toInt_target hnext hdelta, ?_⟩
  show labelFor code.offsets code.size _ = _
  unfold labelFor
  rw [toInt_target hnext hdelta, if_neg hend]
  split
  next => rfl
  next hnonneg =>
    split
    next index hindex =>
      -- the search finds only what stands there
      have hget := getElem?_of_searchBetween hindex
      simp only [offsets, List.getElem?_toArray, List.getElem?_map, Option.map_eq_some_iff] at hget
      obtain ⟨i, hi, hoffset⟩ := hget
      exact absurd (by omega) (hnone i (List.mem_of_getElem? hi))
    next => rfl

theorem forall₂_binds_of_bind {code : Code M} (hplaced : code.IsPlaced)
    (hsize : code.size ≤ 0xffffffff) {next : Nat} {deltas : List Int} (hnext : next ≤ 0xffffffff)
    (hdeltas : ∀ delta ∈ deltas, IsDelta delta) :
    List.Forall₂ (fun delta label => code.Binds (next + delta) label) deltas
      ((deltas.map (Label.ofDelta next)).map (Label.bind code.offsets code.size)) := by
  rw [List.map_map, List.forall₂_map_right_iff, List.forall₂_same]
  exact fun delta hdelta => binds_of_bind hplaced hsize hnext (hdeltas delta hdelta)

end Code

/-! ## Writing -/

section Writing

variable {B : Builder M} {offsets : Array Nat}

/-- `Emits offsets B offset b emitted i`: of the bytes `emitted` behind `b`, the first of which
stands at `offset`, those from the offset of `i` on are what is written for `i` behind the ones in
front of them. -/
def Emits (offsets : Array Nat) (B : Builder M) (offset : Nat) (b : Buffer) (emitted : List UInt8)
    (i : Instruction M) : Prop :=
  ∃ before bytes behind raw, emitted = before ++ bytes ++ behind ∧
    i.offset = offset + before.length ∧
    writeInstruction offsets B i.offset i (b.append before) =
      .ok () (b.append (before ++ bytes)) ∧
    Lowers B offsets i raw ∧ StoredInstruction i.offset raw bytes

theorem Emits.behind {offset : Nat} {b : Buffer} {bytes emitted : List UInt8} {i : Instruction M}
    (h : Emits offsets B (offset + bytes.length) (b.append bytes) emitted i) :
    Emits offsets B offset b (bytes ++ emitted) i := by
  obtain ⟨before, chunk, behind, raw, rfl, hoffset, hwrite, hlowers, hstored⟩ := h
  rw [Buffer.append_append, Buffer.append_append, ← List.append_assoc] at hwrite
  refine ⟨bytes ++ before, chunk, behind, raw, by simp only [List.append_assoc], ?_, hwrite,
    hlowers, hstored⟩
  rw [hoffset, List.length_append, Nat.add_assoc]

/-- Every instruction is written in its place. -/
theorem emits_of_writeInstructions {offset : Nat} {instructions : List (Instruction M)}
    {b b' : Buffer} {u : Unit} (hsize : offset + totalSize instructions ≤ 0xffffffff)
    (h : writeInstructions offsets B (instructions.zip (layoutFrom offset instructions)) b =
      .ok u b') :
    ∃ emitted, b' = b.append emitted ∧ emitted.length = totalSize instructions ∧
      ∀ i ∈ placeFrom offset instructions, Emits offsets B offset b emitted i := by
  induction instructions generalizing offset b with
  | nil =>
    cases h
    exact ⟨[], (Buffer.append_nil _).symm, rfl, fun _ hi => nomatch hi⟩
  | cons i rest ih =>
    rw [zip_layoutFrom] at h
    obtain ⟨middle, hfirst, hrest⟩ := Writer.each_cons_eq_ok.mp h
    rw [totalSize] at hsize ⊢
    obtain ⟨raw, bytes, hlowers, hstored, rfl⟩ := writeInstruction_sound (by omega) hfirst
    have hlength : bytes.length = i.size := hstored.length_eq.trans hlowers.size_eq
    obtain ⟨emitted, rfl, hrestLength, hall⟩ := ih (by omega) hrest
    refine ⟨bytes ++ emitted, Buffer.append_append _ _ _, ?_, ?_⟩
    · rw [List.length_append, hlength, hrestLength]
    · intro j hj
      have hkept : low32 offset = offset := low32_eq_iff.mpr (by omega)
      rw [placeFrom, hkept, List.mem_cons] at hj
      rcases hj with rfl | hj
      · refine ⟨[], bytes, emitted, raw, rfl, rfl, ?_, hlowers, hstored⟩
        rw [Buffer.append_nil]
        exact hfirst
      · have hemits := hall j hj
        rw [← hlength] at hemits
        exact hemits.behind

/-- Lowering leaves labels alone, but for unbinding them. -/
theorem Lowers.labels_eq {i : Instruction M} {raw : Instruction RawModel}
    (h : Lowers B offsets i raw) : raw.labels = i.labels.map (Label.unbind offsets) := by
  obtain ⟨_, stored, hlower, hraw⟩ := h
  unfold Instruction.labels
  rw [hraw, Operand.labels_mapLabels, Operand.labels_of_lower hlower]

end Writing

/-! ## Reading -/

/-- `StepAt step c index a start stop`: from `c`, `index` rounds of `step` lead to `start`, and the
next one answers `a` and ends at `stop`. -/
def Reader.StepAt {α : Type} (step : Reader α) (c : Cursor) (index : Nat) (a : α)
    (start stop : Cursor) : Prop :=
  ∃ before, before.length = index ∧ Steps step c before start ∧ step start = .ok a stop

/-- Each answer of a run is that of a round. -/
theorem Reader.Steps.exists_stepAt {α : Type} {step : Reader α} {c c' : Cursor} {as : List α}
    (h : Steps step c as c') {index : Nat} {a : α} (ha : as[index]? = some a) :
    ∃ start stop, StepAt step c index a start stop := by
  induction h generalizing index with
  | nil => cases ha
  | @cons c middle c' first rest hstep _ ih =>
    cases index with
    | zero =>
      obtain rfl : first = a := Option.some.inj ha
      exact ⟨c, middle, [], rfl, .nil c, hstep⟩
    | succ index =>
      obtain ⟨start, stop, before, hlength, hbefore, hat⟩ := ih ha
      exact ⟨start, stop, first :: before, congrArg (· + 1) hlength, .cons hstep hbefore, hat⟩

theorem Instruction.standsAt_mapLabels {i : Instruction M} {f : Label → Label}
    {data : Array UInt8} {pos : Nat} {deltas : List Int} :
    (i.mapLabels f).StandsAt data pos deltas ↔ i.StandsAt data pos deltas := by
  unfold StandsAt
  rw [size_mapLabels]
  exact Iff.rfl

theorem exists_of_getElem?_bindLabels {size index : Nat} {is : List (Instruction M)}
    {i : Instruction M} (hi : (bindLabels size is)[index]? = some i) :
    ∃ loose, is[index]? = some loose ∧
      loose.mapLabels (Label.bind (Code.offsets ⟨bindLabels size is⟩) size) = i := by
  rw [offsets_bindLabels]
  exact Option.map_eq_some_iff.mp (List.getElem?_map.symm.trans hi)

section Reading

variable {R : Resolver M} {locals : List M.LocalVariable} {config : Config} {c : Cursor}
  {size : Nat}

/-- Each instruction of a run over a region below 4 GiB is read from where it stands, up to where
its size says. -/
theorem exists_standsAt_of_stepAt (hroom : c.pos + size ≤ c.data.size) (hlimit : size ≤ 0xffffffff)
    {index : Nat} {i : Instruction M} {start stop : Cursor}
    (h : StepAt (readResolved R locals config c.pos) (c.region size) index i start stop) :
    start.pos = c.pos + i.offset ∧ stop.pos = c.pos + (i.offset + i.size) ∧
      ∃ deltas, i.StandsAt c.data (c.pos + i.offset) deltas ∧ (∀ delta ∈ deltas, IsDelta delta) ∧
        i.labels = deltas.map (Label.ofDelta (i.offset + i.size)) := by
  obtain ⟨before, _, hsteps, hstep⟩ := h
  obtain ⟨hdata, hlow⟩ := hsteps.moves readResolved_moves
  have hhigh := (Cursor.InRegion.of_steps readResolved_moves hroom hsteps).pos_le
  obtain ⟨raw, hraw, hsame⟩ := readResolved_eq_ok.mp hstep
  obtain ⟨bytes, hpassed, hstored, _⟩ := readInstruction_sound hlow hraw
  have hsize := hsame.size_eq
  have hlow : c.pos ≤ start.pos := hlow
  have hkept : low32 (start.pos - c.pos) = start.pos - c.pos := low32_eq_iff.mpr (by omega)
  have hoffset : i.offset = start.pos - c.pos :=
    (hsame.offset_eq.trans hstored.offset_eq).trans hkept
  have hstart : start.pos = c.pos + i.offset := by omega
  rw [show (c.region size).pos = c.pos from rfl, ← hoffset] at hstored
  have hholds := hpassed.holds
  rw [hdata, hstart] at hholds
  obtain ⟨deltas, hstands, hdeltas, hlabels⟩ := hstored.exists_standsAt
    ((holds_extract_zero hroom).mp hholds).1 hsame.opcode_eq hsize
  refine ⟨hstart, ?_, deltas, hstands, hdeltas, hsame.operand.labels_eq.trans hlabels⟩
  rw [hpassed.pos_eq, hstored.length_eq, ← hsize, hstart, Nat.add_assoc]

end Reading

/-! ## Code -/

namespace Code

/-- An instruction that is written in its place has deltas there that lead to where its labels
do. -/
theorem exists_deltas_of_emits {B : Builder M} {code : Code M} {out : Buffer}
    {emitted : List UInt8} {i : Instruction M} (hsize : code.size ≤ 0xffffffff)
    (hi : i ∈ code.placed.instructions) (h : Emits code.layout.toArray B 0 out emitted i) :
    ∃ deltas, i.StandsAt (out.append emitted).bytes (out.pos + i.offset) deltas ∧
      List.Forall₂ (fun delta label =>
        code.placed.LeadsTo label ((i.offset + i.size : Nat) + delta)) deltas i.labels := by
  obtain ⟨before, bytes, behind, raw, rfl, hoffset, _, hlowers, hstored⟩ := h
  rw [Nat.zero_add] at hoffset
  have hholds : Holds (out.append (before ++ bytes ++ behind)).bytes (out.pos + i.offset) bytes :=
    ⟨out.bytes.toList ++ before, behind, by simp, by simp [hoffset, Buffer.pos]⟩
  obtain ⟨deltas, hstands, hdeltas, hlabels⟩ :=
    hstored.exists_standsAt hholds hlowers.1.symm hlowers.size_eq.symm
  refine ⟨deltas, hstands, ?_⟩
  rw [hlowers.labels_eq, layout_toArray hsize, eq_comm, ← List.forall₂_eq_eq_eq,
    List.forall₂_map_left_iff, List.forall₂_map_right_iff] at hlabels
  obtain ⟨index, hindex⟩ := List.getElem?_of_mem hi
  have hend := end_le_size code.isPlaced_placed hindex
  rw [size_placed] at hend
  refine ((List.forall₂_and_left _ _).mpr ⟨hdeltas, hlabels⟩).imp fun delta label hlabel => ?_
  exact leadsTo_of_unbind code.isPlaced_placed (code.size_placed.symm ▸ hsize)
    (Nat.le_trans hend hsize) hlabel.1 hlabel.2.symm

/-- Code is written behind what is there already, in as many bytes as its size. Every instruction
starts at its offset, takes up its size, and stores deltas that lead from its end to where its
labels do. -/
theorem writer_places_targets {B : Builder M} {code : Code M} {out out' : Buffer}
    (h : code.writer B out = .ok () out') :
    ∃ emitted, out' = out.append emitted ∧ emitted.length = code.size ∧
      (code.IsPlaced → code.placed = code) ∧
      ∀ i ∈ code.placed.instructions,
        writeInstruction code.layout.toArray B i.offset i (out.append (emitted.take i.offset)) =
            .ok () (out.append (emitted.take (i.offset + i.size))) ∧
          ∃ deltas, i.StandsAt out'.bytes (out.pos + i.offset) deltas ∧
            List.Forall₂ (fun delta label =>
              code.placed.LeadsTo label ((i.offset + i.size : Nat) + delta)) deltas i.labels := by
  obtain ⟨hsize, hwrite⟩ := writer_eq_ok.mp h
  obtain ⟨emitted, rfl, hlength, hall⟩ :=
    emits_of_writeInstructions ((Nat.zero_add _).symm ▸ hsize) hwrite
  refine ⟨emitted, rfl, hlength, congrArg Code.mk, fun i hi => ?_⟩
  obtain ⟨before, bytes, behind, raw, rfl, hoffset, hstep, hlowers, hstored⟩ := hall i hi
  rw [Nat.zero_add] at hoffset
  have hbytes : bytes.length = i.size := hstored.length_eq.trans hlowers.size_eq
  have hbefore : (before ++ bytes ++ behind).take i.offset = before := by
    rw [hoffset, List.append_assoc, List.take_left]
  have hthrough : (before ++ bytes ++ behind).take (i.offset + i.size) = before ++ bytes := by
    rw [hoffset, ← hbytes, ← List.length_append, List.take_left]
  rw [hbefore, hthrough]
  exact ⟨hstep, exists_deltas_of_emits hsize hi (hall i hi)⟩

set_option maxRecDepth 4000 in
/-- A switch to the instruction behind it, to the end, and to an offset in front of the code, and a
return. One byte is there already. -/
theorem writer_places_targets_switch :
    ∃ out', writer (M := RawModel)
        ⟨[⟨0, ⟨68⟩, .switch [.instruction 1, .instruction 2, .detached (-3)]⟩, ⟨17, ⟨41⟩, .none⟩]⟩
        rawBuilder (Buffer.ofBytes #[9]) = .ok () out' ∧
      out'.bytes = #[9, 0x45, 3, 0, 0, 0, 0, 0, 0, 0, 1, 0, 0, 0, 0xec, 0xff, 0xff, 0xff, 0x2a] ∧
      ∃ deltas, Instruction.StandsAt (M := RawModel)
          ⟨0, ⟨68⟩, .switch [.instruction 1, .instruction 2, .detached (-3)]⟩ out'.bytes 1 deltas ∧
        List.Forall₂ (fun delta label => LeadsTo (M := RawModel)
            ⟨[⟨0, ⟨68⟩, .switch [.instruction 1, .instruction 2, .detached (-3)]⟩,
              ⟨17, ⟨41⟩, .none⟩]⟩ label (17 + delta))
          deltas [.instruction 1, .instruction 2, .detached (-3)] := by
  have hwrite : writer (M := RawModel)
      ⟨[⟨0, ⟨68⟩, .switch [.instruction 1, .instruction 2, .detached (-3)]⟩, ⟨17, ⟨41⟩, .none⟩]⟩
      rawBuilder (Buffer.ofBytes #[9]) = .ok () ((Buffer.ofBytes #[9]).append
        [0x45, 3, 0, 0, 0, 0, 0, 0, 0, 1, 0, 0, 0, 0xec, 0xff, 0xff, 0xff, 0x2a]) := rfl
  obtain ⟨_, _, _, _, hall⟩ := writer_places_targets hwrite
  exact ⟨_, hwrite, rfl, (hall _ List.mem_cons_self).2⟩

/-- Code that is read takes up the region. Every instruction is read at its offset and up to the
offset of the next one, and its labels, in number and order, are those of the targets that the
deltas stored there lead to from its end. -/
theorem reader_binds_targets {R : Resolver M} {locals : List M.LocalVariable} {config : Config}
    {size : Nat} {c c' : Cursor} {code : Code M} (hsize : size ≤ 0xffffffff)
    (h : reader size R locals config c = .ok code c') :
    code.size = size ∧
      ∀ {index : Nat} {i : Instruction M}, code.instructions[index]? = some i →
        (∃ loose start stop,
          StepAt (readResolved R locals config c.pos) (c.region size) index loose start stop ∧
            start.pos = c.pos + i.offset ∧ stop.pos = c.pos + (i.offset + i.size) ∧
            loose.mapLabels (Label.bind code.offsets size) = i) ∧
        (∀ {j : Instruction M}, code.instructions[index + 1]? = some j →
          i.offset + i.size = j.offset) ∧
        (index + 1 = code.length → i.offset + i.size = size) ∧
        ∃ deltas, i.StandsAt c.data (c.pos + i.offset) deltas ∧
          List.Forall₂ (fun delta label =>
            code.Binds ((i.offset + i.size : Nat) + delta) label) deltas i.labels := by
  obtain ⟨bytes, hlength, _, hfrom⟩ := reader_sound h
  have hplaced := hfrom.isPlaced
  have hcode : code.size = size := hfrom.size_eq.trans hlength
  refine ⟨hcode, fun {index i} hi => ?_⟩
  have hnext := boundary_succ hplaced (hcode.symm ▸ hsize) hi
  have hend := end_le_size hplaced hi
  obtain ⟨hroom, is, middle, inner, hsteps, _, _, rfl, _⟩ := reader_eq_ok_iff_run.mp h
  obtain ⟨loose, hloose, rfl⟩ := exists_of_getElem?_bindLabels hi
  obtain ⟨start, stop, hstep⟩ := hsteps.exists_stepAt hloose
  obtain ⟨hstart, hstop, deltas, hstands, hdeltas, hlabels⟩ :=
    exists_standsAt_of_stepAt hroom hsize hstep
  rw [Instruction.size_mapLabels] at hnext hend ⊢
  refine ⟨⟨loose, start, stop, hstep, hstart, hstop, rfl⟩, ?_, ?_, deltas,
    Instruction.standsAt_mapLabels.mpr hstands, ?_⟩
  · intro j hj
    rw [boundary_of_instruction hj] at hnext
    exact (Option.some.inj hnext).symm
  · intro hlast
    rw [hlast, boundary_of_end, hcode] at hnext
    exact (Option.some.inj hnext).symm
  · rw [Instruction.labels, Instruction.mapLabels, Operand.labels_mapLabels, ← Instruction.labels,
      hlabels]
    have hbinds := forall₂_binds_of_bind hplaced (hcode.symm ▸ hsize)
      (Nat.le_trans hend (hcode.symm ▸ hsize)) hdeltas
    rw [hcode] at hbinds
    exact hbinds

set_option maxRecDepth 4000 in
/-- A branch to the end and one to an offset in front of the code, with a byte on either side. -/
theorem reader_binds_targets_outside :
    ∃ c', reader 4 rawResolver [] Config.default ⟨#[9, 0x2b, 2, 0x2b, 0xf9, 7], 1, #[]⟩ =
        .ok ⟨[⟨0, ⟨42⟩, .target (.instruction 2)⟩, ⟨2, ⟨42⟩, .target (.detached (-3))⟩]⟩ c' ∧
      ∃ deltas, Instruction.StandsAt (M := RawModel) ⟨2, ⟨42⟩, .target (.detached (-3))⟩
          #[9, 0x2b, 2, 0x2b, 0xf9, 7] 3 deltas ∧
        List.Forall₂ (fun delta label => Binds (M := RawModel)
            ⟨[⟨0, ⟨42⟩, .target (.instruction 2)⟩, ⟨2, ⟨42⟩, .target (.detached (-3))⟩]⟩
            (4 + delta) label)
          deltas [.detached (-3)] := by
  have hsize : 4 ≤ 0xffffffff := by decide
  obtain ⟨c', hread⟩ : ∃ c', reader 4 rawResolver [] Config.default
      ⟨#[9, 0x2b, 2, 0x2b, 0xf9, 7], 1, #[]⟩ =
        .ok ⟨[⟨0, ⟨42⟩, .target (.instruction 2)⟩, ⟨2, ⟨42⟩, .target (.detached (-3))⟩]⟩ c' :=
    ⟨_, rfl⟩
  obtain ⟨_, hall⟩ := reader_binds_targets hsize hread
  have hsecond : [⟨0, ⟨42⟩, .target (.instruction 2)⟩, ⟨2, ⟨42⟩, .target (.detached (-3))⟩][1]? =
      some (⟨2, ⟨42⟩, .target (.detached (-3))⟩ : Instruction RawModel) := rfl
  obtain ⟨_, _, _, hdeltas⟩ := hall hsecond
  exact ⟨c', hread, hdeltas⟩

end Code

end CilCodec
