import CilCodec.Proofs.Code.Editing
import CilCodec.Proofs.Code.Representable
import CilCodec.Proofs.Code.RoundTrip

/-!
# CilCodec.Proofs.Code.Operations

Offsets and labels, through any sequence of operations on code.

Operations keep offsets up to date in two ways: pushing adds one to those there are, all others work
them out anew. Both come to the same, so code forgets everything but its list of instructions:
`Operation.edit?` is what an operation does to a list that has no offsets, and a run of operations
on code is that run on the list, with offsets worked out once at the end. They may as well be summed
up in a word that wraps: what it holds at an instruction is what is kept of the exact sum, which is
all of it below 4 GiB.

Results:
1. `Code.after?_ofList`: an operation, and what it does to the list;
2. `Code.run?_ofList`: the same for a run;
3. `Code.ofListWords_eq`: offsets summed up in a word;
4. `Operation.labelsWithin_edits?`, `Code.lower_of_branchTarget`: labels stay in range, and labels
   in range are never refused;
5. `Code.run_keeps_code`: all of this, for every run.
-/

namespace CilCodec

variable {M : OperandModel}

/-! ## Operations -/

/-- An operation on code. -/
inductive Operation (M : OperandModel) where
  | push (i : Instruction M)
  | insert (index : Nat) (i : Instruction M)
  | remove (index : Nat)
  | replace (index : Nat) (i : Instruction M)
  | place

namespace Operation

/-- The instruction that an operation brings in. -/
def inserted : Operation M → List (Instruction M)
  | push i => [i]
  | insert _ i => [i]
  | remove _ => []
  | replace _ i => [i]
  | place => []

/-- Whether an operation works all offsets out anew. -/
def placesAll : Operation M → Bool
  | push _ => false
  | _ => true

/-- Whether an operation on `length` instructions names a place among them. -/
def InRange (length : Nat) : Operation M → Prop
  | push _ => True
  | insert index _ => index ≤ length
  | remove index => index < length
  | replace index _ => index < length
  | place => True

/-- The number of instructions after an operation on `length` of them. -/
def lengthAfter (length : Nat) : Operation M → Nat
  | push _ => length + 1
  | insert _ _ => length + 1
  | remove _ => length - 1
  | replace _ _ => length
  | place => length

/-- Whether each of some operations is in range where it is made. -/
def InRangeFrom (length : Nat) : List (Operation M) → Prop
  | [] => True
  | operation :: rest =>
    operation.InRange length ∧ InRangeFrom (operation.lengthAfter length) rest

/-- What an operation does to instructions that stand nowhere yet. -/
def edit? (instructions : List (Instruction M)) : Operation M → Option (List (Instruction M))
  | push i => some (instructions ++ [i])
  | insert index i =>
    if index ≤ instructions.length then
      some ((instructions.map
        (Instruction.mapLabels (Label.mapIndex (Code.indexAfterInsert index)))).insertIdx index i)
    else none
  | remove index =>
    if index < instructions.length then
      some ((instructions.eraseIdx index).map
        (Instruction.mapLabels (Label.mapIndex (Code.indexAfterRemove index))))
    else none
  | replace index i =>
    if index < instructions.length then some (instructions.set index i) else none
  | place => some instructions

/-- What a run of operations does to instructions that stand nowhere yet. -/
def edits? (instructions : List (Instruction M)) (operations : List (Operation M)) :
    Option (List (Instruction M)) :=
  operations.foldlM edit? instructions

end Operation

namespace Code

/-- The code after an operation. -/
def after? (code : Code M) : Operation M → Option (Code M)
  | .push i => some (code.push i)
  | .insert index i => code.insertAt? index i
  | .remove index => (code.removeAt? index).map Prod.snd
  | .replace index i => (code.replaceAt? index i).map Prod.snd
  | .place => some code.placed

/-- The code after a run of operations. -/
def run? (code : Code M) (operations : List (Operation M)) : Option (Code M) :=
  operations.foldlM after? code

end Code

/-! ## What offsets do not depend on -/

/-- The instruction without its offset. -/
def Instruction.unplaced (i : Instruction M) : Instruction M := { i with offset := 0 }

theorem placeFrom_unplaced (offset : Nat) (instructions : List (Instruction M)) :
    placeFrom offset (instructions.map Instruction.unplaced) = placeFrom offset instructions := by
  induction instructions generalizing offset with
  | nil => rfl
  | cons i rest ih => exact congrArg (_ :: ·) (ih (offset + i.size))

theorem unplaced_placeFrom (offset : Nat) (instructions : List (Instruction M)) :
    (placeFrom offset instructions).map Instruction.unplaced =
      instructions.map Instruction.unplaced := by
  induction instructions generalizing offset with
  | nil => rfl
  | cons i rest ih => exact congrArg (_ :: ·) (ih (offset + i.size))

namespace Operation

variable {instructions : List (Instruction M)}

/-- An operation does the same to instructions that differ in their offsets only. -/
theorem edit?_unplaced {other : List (Instruction M)}
    (h : instructions.map Instruction.unplaced = other.map Instruction.unplaced)
    (operation : Operation M) :
    (operation.edit? instructions).map (List.map Instruction.unplaced) =
      (operation.edit? other).map (List.map Instruction.unplaced) := by
  have hlength : instructions.length = other.length := by
    simpa using congrArg List.length h
  have hrenumber : ∀ f : Label → Label,
      (instructions.map (Instruction.mapLabels f)).map Instruction.unplaced =
        (other.map (Instruction.mapLabels f)).map Instruction.unplaced := by
    intro f
    have hmap := congrArg (List.map (Instruction.mapLabels f)) h
    rw [List.map_map, List.map_map] at hmap ⊢
    exact hmap
  cases operation with
  | push i => simp [edit?, h]
  | insert index i =>
    simp only [edit?, hlength]
    split
    next => rw [Option.map_some, Option.map_some, List.map_insertIdx, List.map_insertIdx, hrenumber]
    next => rfl
  | remove index =>
    simp only [edit?, hlength]
    split
    next =>
      rw [Option.map_some, Option.map_some, ← List.eraseIdx_map, ← List.eraseIdx_map,
        ← List.eraseIdx_map, ← List.eraseIdx_map, hrenumber]
    next => rfl
  | replace index i =>
    simp only [edit?, hlength]
    split
    next => rw [Option.map_some, Option.map_some, List.map_set, List.map_set, h]
    next => rfl
  | place => simp [edit?, h]

/-- What is worked out without looking at offsets is the same if instructions were placed before. -/
theorem edit?_place {β : Type} {finish : List (Instruction M) → β} {placed : List (Instruction M)}
    (hfinish : ∀ is, finish (is.map Instruction.unplaced) = finish is)
    (hplaced : placed.map Instruction.unplaced = instructions.map Instruction.unplaced)
    (operation : Operation M) :
    (operation.edit? placed).map finish = (operation.edit? instructions).map finish := by
  have hignores : finish ∘ List.map Instruction.unplaced = finish := funext hfinish
  have hsame := congrArg (Option.map finish) (edit?_unplaced hplaced operation)
  rw [Option.map_map, Option.map_map, hignores] at hsame
  exact hsame

end Operation

/-! ## One operation -/

theorem placeFrom_append (offset : Nat) (instructions : List (Instruction M)) (i : Instruction M) :
    placeFrom offset (instructions ++ [i]) =
      placeFrom offset instructions ++
        [{ i with offset := low32 (offset + totalSize instructions) }] := by
  induction instructions generalizing offset with
  | nil => simp [placeFrom, totalSize]
  | cons first rest ih =>
    rw [List.cons_append, placeFrom, ih, totalSize, Nat.add_assoc]
    rfl

namespace Code

theorem get?_cases (code : Code M) (index : Nat) :
    (∃ i, code.get? index = some i ∧ index < code.instructions.length) ∨
      (code.get? index = none ∧ ¬ index < code.instructions.length) := by
  rw [get?]
  rcases Nat.lt_or_ge index code.instructions.length with hlt | hge
  · exact .inl ⟨_, List.getElem?_eq_getElem hlt, hlt⟩
  · exact .inr ⟨List.getElem?_eq_none hge, Nat.not_lt.mpr hge⟩

/-- All operations but a push place the instructions, wherever they stood before. -/
theorem after?_eq_edit? (code : Code M) {operation : Operation M} (h : operation.placesAll) :
    code.after? operation = (operation.edit? code.instructions).map ofList := by
  cases operation with
  | push i => cases h
  | insert index i =>
    rw [after?, insertAt?, Operation.edit?, length]
    split <;> rfl
  | remove index =>
    rw [after?, removeAt?, Operation.edit?]
    rcases code.get?_cases index with ⟨i, hget, hlt⟩ | ⟨hget, hge⟩
    · rw [hget, if_pos hlt]
      rfl
    · rw [hget, if_neg hge]
      rfl
  | replace index i =>
    rw [after?, replaceAt?, Operation.edit?]
    rcases code.get?_cases index with ⟨old, hget, hlt⟩ | ⟨hget, hge⟩
    · rw [hget, if_pos hlt]
      rfl
    · rw [hget, if_neg hge]
      rfl
  | place => rfl

theorem ofList_unplaced (instructions : List (Instruction M)) :
    ofList (instructions.map Instruction.unplaced) = ofList instructions :=
  congrArg mk (placeFrom_unplaced 0 instructions)

/-- An operation is one on the list of instructions. A push needs the others in their places: what
it adds to them is what placing all would add. -/
theorem after?_ofList (instructions : List (Instruction M)) (operation : Operation M) :
    (ofList instructions).after? operation = (operation.edit? instructions).map ofList := by
  cases operation with
  | push i =>
    have hsize : (ofList instructions).size = 0 + totalSize instructions := by
      rw [size, ofList, totalSize_placeFrom, Nat.zero_add]
    rw [after?, Operation.edit?, push, hsize, Option.map_some, ofList, ofList, placeFrom_append]
  | _ =>
    rw [after?_eq_edit? _ rfl]
    exact Operation.edit?_place ofList_unplaced (unplaced_placeFrom 0 instructions) _

end Code

/-! ## Runs -/

/-- Steps that do what other steps do, up to `g`, make runs that do. -/
theorem foldlM_map_comm {α β γ : Type} {f : β → γ → Option β} {e : α → γ → Option α} {g : α → β}
    (h : ∀ a c, f (g a) c = (e a c).map g) (cs : List γ) (a : α) :
    cs.foldlM f (g a) = (cs.foldlM e a).map g := by
  induction cs generalizing a with
  | nil => rfl
  | cons c cs ih =>
    rw [List.foldlM_cons, List.foldlM_cons, h]
    cases e a c with
    | none => rfl
    | some next => exact ih next

namespace Code

theorem run?_ofList (instructions : List (Instruction M)) (operations : List (Operation M)) :
    (ofList instructions).run? operations = (Operation.edits? instructions operations).map ofList :=
  foldlM_map_comm after?_ofList operations instructions

end Code

/-! ## Offsets in words -/

/-- The instructions with offsets summed up in a word of 32 bits, the first at `offset`. -/
def placeWords (offset : UInt32) : List (Instruction M) → List (Instruction M)
  | [] => []
  | i :: rest =>
    { i with offset := offset.toNat } :: placeWords (offset + UInt32.ofNat i.size) rest

/-- A word that wraps at every step holds what is kept of the exact sum. -/
theorem placeWords_eq (offset : Nat) (instructions : List (Instruction M)) :
    placeWords (UInt32.ofNat offset) instructions = placeFrom offset instructions := by
  induction instructions generalizing offset with
  | nil => rfl
  | cons i rest ih => rw [placeWords, placeFrom, ← UInt32.ofNat_add, ih, UInt32.toNat_ofNat', low32]

namespace Code

/-- The code of given instructions, with offsets summed up in a word. -/
def ofListWords (instructions : List (Instruction M)) : Code M := ⟨placeWords 0 instructions⟩

theorem ofListWords_eq (instructions : List (Instruction M)) :
    ofListWords instructions = ofList instructions :=
  congrArg mk (placeWords_eq 0 instructions)

end Code

/-! ## Places among the instructions -/

namespace Operation

variable {instructions edited : List (Instruction M)} {operation : Operation M}

theorem exists_edit?_iff (instructions : List (Instruction M)) (operation : Operation M) :
    (∃ edited, operation.edit? instructions = some edited) ↔
      operation.InRange instructions.length := by
  cases operation <;> simp [edit?, InRange]

theorem length_of_edit? (h : operation.edit? instructions = some edited) :
    edited.length = operation.lengthAfter instructions.length := by
  cases operation with
  | push i =>
    cases h
    exact List.length_append
  | insert index i =>
    obtain ⟨hle, hedited⟩ := Option.ite_none_right_eq_some.mp h
    cases hedited
    rw [lengthAfter, List.length_insertIdx_of_le_length (by simpa using hle), List.length_map]
  | remove index =>
    obtain ⟨hlt, hedited⟩ := Option.ite_none_right_eq_some.mp h
    cases hedited
    rw [lengthAfter, List.length_map, List.length_eraseIdx_of_lt hlt]
  | replace index i =>
    obtain ⟨_, hedited⟩ := Option.ite_none_right_eq_some.mp h
    cases hedited
    exact List.length_set
  | place =>
    cases h
    rfl

theorem exists_edits?_iff {operations : List (Operation M)} :
    (∃ edited, edits? instructions operations = some edited) ↔
      InRangeFrom instructions.length operations := by
  induction operations generalizing instructions with
  | nil => exact ⟨fun _ => trivial, fun _ => ⟨instructions, rfl⟩⟩
  | cons operation rest ih =>
    rw [edits?, List.foldlM_cons, InRangeFrom, ← exists_edit?_iff instructions operation]
    cases hedit : operation.edit? instructions with
    | none => simp
    | some middle =>
      rw [← length_of_edit? hedit, ← ih]
      exact (and_iff_right ⟨middle, rfl⟩).symm

end Operation

/-! ## Labels in range -/

/-- Whether every label is an offset, or an index of at most `count`. -/
def LabelsWithin (count : Nat) (instructions : List (Instruction M)) : Prop :=
  ∀ i ∈ instructions, ∀ label ∈ i.labels, label.isAtMost count

namespace Label

variable {label : Label} {count index : Nat}

theorem isAtMost_mono {more : Nat} (h : label.isAtMost count) (hle : count ≤ more) :
    label.isAtMost more := by
  cases label with
  | instruction t => exact decide_eq_true (Nat.le_trans (of_decide_eq_true h) hle)
  | detached offset => rfl

theorem isAtMost_afterInsert (h : label.isAtMost count) :
    (label.mapIndex (Code.indexAfterInsert index)).isAtMost (count + 1) := by
  cases label with
  | instruction t =>
    have ht : t ≤ count := of_decide_eq_true h
    refine decide_eq_true ?_
    unfold Code.indexAfterInsert
    split <;> omega
  | detached offset => rfl

/-- A label to the end moves as well, since something in front of it is gone. -/
theorem isAtMost_afterRemove (h : label.isAtMost count) (hindex : index < count) :
    (label.mapIndex (Code.indexAfterRemove index)).isAtMost (count - 1) := by
  cases label with
  | instruction t =>
    have ht : t ≤ count := of_decide_eq_true h
    refine decide_eq_true ?_
    unfold Code.indexAfterRemove
    split <;> omega
  | detached offset => rfl

end Label

namespace LabelsWithin

variable {count : Nat} {instructions : List (Instruction M)}

theorem mono {more : Nat} (h : LabelsWithin count instructions) (hle : count ≤ more) :
    LabelsWithin more instructions :=
  fun i hi label hlabel => Label.isAtMost_mono (h i hi label hlabel) hle

theorem renumber {more : Nat} {f : Label → Label} (h : LabelsWithin count instructions)
    (hf : ∀ label : Label, label.isAtMost count → (f label).isAtMost more) :
    LabelsWithin more (instructions.map (Instruction.mapLabels f)) := by
  intro i hi label hlabel
  obtain ⟨old, hold, rfl⟩ := List.mem_map.mp hi
  have hlabels : (old.mapLabels f).labels = old.labels.map f := old.operand.labels_mapLabels f
  rw [hlabels] at hlabel
  obtain ⟨before, hbefore, rfl⟩ := List.mem_map.mp hlabel
  exact hf before (h old hold before hbefore)

end LabelsWithin

theorem labelsWithin_placeFrom {count offset : Nat} {instructions : List (Instruction M)} :
    LabelsWithin count (placeFrom offset instructions) ↔ LabelsWithin count instructions := by
  induction instructions generalizing offset with
  | nil => exact Iff.rfl
  | cons i rest ih =>
    unfold LabelsWithin at ih ⊢
    rw [placeFrom, List.forall_mem_cons, List.forall_mem_cons, ih]
    exact Iff.rfl

/-- The labels there are stay in range, if those of what is brought in are in range afterwards. -/
theorem Operation.labelsWithin {operation : Operation M}
    {instructions edited : List (Instruction M)} (h : operation.edit? instructions = some edited)
    (hlabels : LabelsWithin instructions.length instructions)
    (hinserted : LabelsWithin edited.length operation.inserted) :
    LabelsWithin edited.length edited := by
  have hlength := length_of_edit? h
  cases operation with
  | push i =>
    cases h
    intro j hj
    rcases List.mem_append.mp hj with hold | hnew
    · exact hlabels.mono (hlength ▸ Nat.le_succ _) j hold
    · exact hinserted j hnew
  | insert index i =>
    obtain ⟨hle, hedited⟩ := Option.ite_none_right_eq_some.mp h
    cases hedited
    intro j hj
    rcases (List.mem_insertIdx (by simpa using hle)).mp hj with rfl | hold
    · exact hinserted j (List.mem_singleton_self j)
    · rw [hlength]
      exact hlabels.renumber (fun _ => Label.isAtMost_afterInsert) j hold
  | remove index =>
    obtain ⟨hlt, hedited⟩ := Option.ite_none_right_eq_some.mp h
    cases hedited
    rw [hlength]
    have hleft : LabelsWithin instructions.length (instructions.eraseIdx index) :=
      fun j hj => hlabels j (List.mem_of_mem_eraseIdx hj)
    exact hleft.renumber fun _ hlabel => Label.isAtMost_afterRemove hlabel hlt
  | replace index i =>
    obtain ⟨_, hedited⟩ := Option.ite_none_right_eq_some.mp h
    cases hedited
    intro j hj
    rcases List.mem_or_eq_of_mem_set hj with hold | rfl
    · exact hlabels.mono (Nat.le_of_eq hlength.symm) j hold
    · exact hinserted j (List.mem_singleton_self j)
  | place =>
    cases h
    exact hlabels

/-- Whether the labels of all that a run of operations brings in are in range when it comes in. -/
def Operation.LabelsFitFrom (length : Nat) : List (Operation M) → Prop
  | [] => True
  | operation :: rest =>
    LabelsWithin (operation.lengthAfter length) operation.inserted ∧
      LabelsFitFrom (operation.lengthAfter length) rest

theorem Operation.labelsWithin_edits? {operations : List (Operation M)}
    {instructions edited : List (Instruction M)} (h : edits? instructions operations = some edited)
    (hlabels : LabelsWithin instructions.length instructions)
    (hfit : LabelsFitFrom instructions.length operations) :
    LabelsWithin edited.length edited := by
  induction operations generalizing instructions with
  | nil =>
    cases h
    exact hlabels
  | cons operation rest ih =>
    rw [edits?, List.foldlM_cons] at h
    obtain ⟨middle, hedit, hrest⟩ := Option.bind_eq_some_iff.mp h
    have hlength := length_of_edit? hedit
    rw [LabelsFitFrom, ← hlength] at hfit
    exact ih hrest (labelsWithin hedit hlabels hfit.1) hfit.2

/-! ## Labels that are written -/

section Written

open Writer

variable {B : Builder M}

theorem exists_of_mem_placeFrom {offset : Nat} {instructions : List (Instruction M)}
    {i : Instruction M} (h : i ∈ placeFrom offset instructions) :
    ∃ j ∈ instructions, j.operand = i.operand := by
  induction instructions generalizing offset with
  | nil => cases h
  | cons first rest ih =>
    rw [placeFrom, List.mem_cons] at h
    rcases h with rfl | h
    · exact ⟨first, List.mem_cons_self, rfl⟩
    · obtain ⟨j, hj, hi⟩ := ih h
      exact ⟨j, List.mem_cons_of_mem first hj, hi⟩

/-- An instruction whose labels are in range is refused for want of a target by the builder only. -/
theorem Instruction.Stops.builder_of_branchTarget {boundaries : Array Nat} {i : Instruction M}
    {offset : Nat} {target : Int}
    (h : i.Stops boundaries B (.refused (.invalidBranchTarget offset target))) {count : Nat}
    (hcount : boundaries.size = count + 1) (hlabels : ∀ label ∈ i.labels, label.isAtMost count) :
    i.operand.lower B = .error (.invalidBranchTarget offset target) := by
  cases h with
  | builder _ hlower => exact hlower
  | operand _ hlower hoperand =>
    cases hoperand with
    | label hfirst =>
      obtain ⟨near, label, far, hstored, _, _, hlabel⟩ := hfirst
      cases hlabel with
      | @noTarget index hindex hbeyond =>
        have hmem : label ∈ i.operand.labels := by
          rw [← Operand.labels_of_lower hlower, hstored]
          exact List.mem_append_right near (.head far)
        subst hindex
        have hinside : index ≤ count := of_decide_eq_true (hlabels _ hmem)
        omega

theorem Code.lower_of_branchTarget {code : Code M} (h : code.LabelsInRange) {out out' : Buffer}
    {offset : Nat} {target : Int}
    (herror : code.writer B out = .error (.refused (.invalidBranchTarget offset target)) out') :
    ∃ i ∈ code.instructions, i.operand.lower B = .error (.invalidBranchTarget offset target) := by
  rcases Nat.lt_or_ge 0xffffffff code.size with hlarge | hsize
  · obtain ⟨_, hrefused⟩ := writer_of_large (B := B) hlarge out
    rw [hrefused] at herror
    cases herror
  · rcases code.writer_outcome B hsize out with ⟨_, _, hok⟩ | ⟨stop, _, hstops, hstop⟩
    · rw [hok] at herror
      cases herror
    · rw [hstop] at herror
      cases herror
      obtain ⟨before, i, behind, hcode, _, _, hi⟩ := hstops.firstStops
      have hmem : i ∈ code.placed.instructions :=
        hcode ▸ List.mem_append_right before (.head behind)
      obtain ⟨j, hj, hoperand⟩ := exists_of_mem_placeFrom hmem
      refine ⟨j, hj, hoperand ▸ ?_⟩
      exact hi.builder_of_branchTarget code.size_boundaries_placed
        (labelsWithin_placeFrom.mpr h i hmem)

end Written

namespace Code

variable {code : Code M}

theorem exists_labelOffset? {label : Label} (h : label.isAtMost code.length) :
    ∃ offset, code.labelOffset? label = some offset := by
  cases label with
  | instruction t =>
    have hsize : code.boundaries.size = code.length + 1 := by
      simp [boundaries, offsets, length]
    have ht : t < code.boundaries.size := hsize ▸ Nat.lt_succ_of_le (of_decide_eq_true h)
    rw [labelOffset?, offsetOf?, Array.getElem?_eq_getElem ht]
    exact ⟨_, rfl⟩
  | detached offset => exact ⟨offset.toInt, rfl⟩

end Code

/-! ## Runs from given instructions -/

theorem totalSize_take_le (instructions : List (Instruction M)) (index : Nat) :
    totalSize (instructions.take index) ≤ totalSize instructions := by
  induction instructions generalizing index with
  | nil => exact Nat.le_of_eq (congrArg totalSize List.take_nil)
  | cons i rest ih =>
    cases index with
    | zero => exact Nat.zero_le _
    | succ index => exact Nat.add_le_add_left (ih index) i.size

namespace Code

variable {code code' : Code M}

theorem length_ofList (instructions : List (Instruction M)) :
    (ofList instructions).length = instructions.length :=
  length_placeFrom 0 instructions

theorem labelsInRange_ofList {instructions : List (Instruction M)} :
    (ofList instructions).LabelsInRange ↔ LabelsWithin instructions.length instructions := by
  unfold LabelsInRange
  rw [length_ofList]
  exact labelsWithin_placeFrom

theorem labelsInRange_of_after? (hplaced : code.IsPlaced) {operation : Operation M}
    (h : code.after? operation = some code') (hlabels : code.LabelsInRange)
    (hinserted : LabelsWithin code'.length operation.inserted) : code'.LabelsInRange := by
  have hcode : ofList code.instructions = code := congrArg mk hplaced
  rw [← hcode, after?_ofList] at h
  obtain ⟨edited, hedit, rfl⟩ := Option.map_eq_some_iff.mp h
  rw [length_ofList] at hinserted
  exact labelsInRange_ofList.mpr (operation.labelsWithin hedit hlabels hinserted)

/-- Code that operations on code of given instructions lead to, or on none (`ofList []`). -/
def Reachable (code : Code M) : Prop :=
  ∃ instructions operations, (ofList instructions).run? operations = some code

theorem Reachable.exists_ofList (h : code.Reachable) :
    ∃ instructions, code = ofList instructions := by
  obtain ⟨instructions, operations, hrun⟩ := h
  rw [run?_ofList] at hrun
  obtain ⟨edited, _, rfl⟩ := Option.map_eq_some_iff.mp hrun
  exact ⟨edited, rfl⟩

theorem Reachable.isPlaced (h : code.Reachable) : code.IsPlaced := by
  obtain ⟨instructions, rfl⟩ := h.exists_ofList
  exact placeFrom_placeFrom 0 instructions

/-- Operations on code of given instructions succeed exactly if they are in range, and whatever
offsets their instructions carry, the code they lead to is that of its own instructions, also if
offsets are summed up in a word that wraps: each instruction has the offset that the sizes of those
before it add up to, or, from 4 GiB on, what a word keeps of it. If labels are in range and those
brought in are, labels are in range after an operation, and after a run of them. Then every label
has an offset, and no branch is refused for having no target, unless the builder itself refuses an
operand so. -/
theorem run_keeps_code (instructions : List (Instruction M)) (operations : List (Operation M)) :
    ((∃ code, (ofList instructions).run? operations = some code) ↔
        Operation.InRangeFrom instructions.length operations) ∧
      ∀ code, (ofList instructions).run? operations = some code →
        ofList code.instructions = code ∧ ofListWords code.instructions = code ∧
        (∀ index i, code.instructions[index]? = some i →
          i.offset = low32 (totalSize (code.instructions.take index)) ∧
            (code.size ≤ 0xffffffff → i.offset = totalSize (code.instructions.take index))) ∧
        ((ofList instructions).LabelsInRange →
          Operation.LabelsFitFrom instructions.length operations → code.LabelsInRange) ∧
        (∀ operation code', code.after? operation = some code' → code.LabelsInRange →
          LabelsWithin code'.length operation.inserted → code'.LabelsInRange) ∧
        (code.LabelsInRange →
          (∀ i ∈ code.instructions, ∀ label ∈ i.labels,
            ∃ offset, code.labelOffset? label = some offset) ∧
          ∀ (B : Builder M) (out out' : Buffer) (offset : Nat) (target : Int),
            code.writer B out = .error (.refused (.invalidBranchTarget offset target)) out' →
            ∃ i ∈ code.instructions,
              i.operand.lower B = .error (.invalidBranchTarget offset target)) := by
  rw [run?_ofList]
  constructor
  · simp only [← Operation.exists_edits?_iff, Option.map_eq_some_iff]
    constructor
    · rintro ⟨_, edited, hedits, _⟩
      exact ⟨edited, hedits⟩
    · rintro ⟨edited, hedits⟩
      exact ⟨_, edited, hedits, rfl⟩
  · intro code hrun
    obtain ⟨edited, hedits, rfl⟩ := Option.map_eq_some_iff.mp hrun
    have hplaced : (ofList edited).IsPlaced := placeFrom_placeFrom 0 edited
    have hagain : ofList (ofList edited).instructions = ofList edited := congrArg mk hplaced
    refine ⟨hagain, (ofListWords_eq _).trans hagain, fun index i hi => ?_, fun hlabels hfit => ?_,
      fun operation code' => labelsInRange_of_after? hplaced, fun hlabels => ⟨?_, ?_⟩⟩
    · have hoffset := offset_of_placed hplaced hi
      rw [Nat.zero_add] at hoffset
      refine ⟨hoffset, fun hsize => hoffset.trans (low32_eq_iff.mpr ?_)⟩
      exact Nat.le_trans (totalSize_take_le _ _) hsize
    · exact labelsInRange_ofList.mpr
        (Operation.labelsWithin_edits? hedits (labelsInRange_ofList.mp hlabels) hfit)
    · exact fun i hi label hlabel => exists_labelOffset? (hlabels i hi label hlabel)
    · exact fun B out out' offset target => lower_of_branchTarget hlabels

/-- A branch is given a return to go to and a switch at the end, and loses both: the return is
removed, and something else put in place of the branch. -/
theorem run_keeps_code_switch :
    ∃ (operations : List (Operation RawModel)) (code : Code RawModel),
      operations = [.push ⟨7, ⟨41⟩, .none⟩,
        .insert 2 ⟨7, ⟨68⟩, .switch [.instruction 1, .instruction 3, .detached 9]⟩,
        .remove 1, .replace 0 ⟨7, ⟨0⟩, .none⟩, .place] ∧
      (ofList [⟨7, ⟨42⟩, .target (.instruction 1)⟩]).run? operations = some code ∧
      code.instructions = [⟨0, ⟨0⟩, .none⟩,
        ⟨1, ⟨68⟩, .switch [.instruction 1, .instruction 2, .detached 9]⟩] ∧
      ofListWords code.instructions = code ∧
      code.LabelsInRange ∧
      ∀ (out out' : Buffer) (offset : Nat) (target : Int),
        code.writer rawBuilder out ≠
          .error (.refused (.invalidBranchTarget offset target)) out' := by
  have hkeeps := run_keeps_code (M := RawModel) [⟨7, ⟨42⟩, .target (.instruction 1)⟩]
    [.push ⟨7, ⟨41⟩, .none⟩,
      .insert 2 ⟨7, ⟨68⟩, .switch [.instruction 1, .instruction 3, .detached 9]⟩,
      .remove 1, .replace 0 ⟨7, ⟨0⟩, .none⟩, .place]
  obtain ⟨code, hrun⟩ := hkeeps.1.mpr (by
    simp [Operation.InRangeFrom, Operation.InRange, Operation.lengthAfter])
  obtain ⟨-, hwords, -, hlabels, -, hwritten⟩ := hkeeps.2 code hrun
  have hcode : code.instructions = [⟨0, ⟨0⟩, .none⟩,
      ⟨1, ⟨68⟩, .switch [.instruction 1, .instruction 2, .detached 9]⟩] := by
    cases hrun
    rfl
  have hrange : code.LabelsInRange := by
    refine hlabels ?_ ?_
    · simp [LabelsInRange, ofList, placeFrom, length, Instruction.labels, Operand.labels,
        Label.isAtMost]
    · simp [Operation.LabelsFitFrom, Operation.lengthAfter, Operation.inserted,
        LabelsWithin, Instruction.labels, Operand.labels, Label.isAtMost]
  refine ⟨_, code, rfl, hrun, hcode, hwords, hrange, ?_⟩
  intro out out' offset target herror
  obtain ⟨i, _, hlower⟩ := (hwritten hrange).2 rawBuilder out out' offset target herror
  rw [lower_rawBuilder] at hlower
  cases hlower

end Code

end CilCodec
