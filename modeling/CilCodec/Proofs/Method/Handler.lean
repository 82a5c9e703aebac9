import CilCodec.Method.Handler
import CilCodec.Proofs.Bytes.Writing

/-!
# CilCodec.Proofs.Method.Handler

The stored forms of clauses (II.25.4.6), and reading and writing against them.

A clause has one fat form and one small form. The small form is that of another clause, with the low
bits of each field, if one of the fields does not fit.

Results:
1. `handlerReader_sound`, `handlerReader_complete`: reading a clause is finding a form that fits it.
2. `ExceptionHandler.writer_puts`: what is written for a clause.
-/

namespace CilCodec

open Reader LittleEndian

namespace ExceptionHandler

/-- The bytes of a clause, in 24 bytes or in 12. -/
def stored (isFat : Bool) (h : ExceptionHandler) : List UInt8 :=
  if isFat then
    encode h.kind.flags.toUInt32 ++ (encode h.tryOffset ++ (encode h.tryLength ++
      (encode h.handlerOffset ++ (encode h.handlerLength ++ encode h.classOrFilter))))
  else
    encode h.kind.flags ++ (encode h.tryOffset.toUInt16 ++ (encode h.tryLength.toUInt8 ++
      (encode h.handlerOffset.toUInt16 ++ (encode h.handlerLength.toUInt8 ++
        encode h.classOrFilter))))

/-- Whether a form holds all of a clause. -/
def FitsIn (isFat : Bool) (h : ExceptionHandler) : Prop := isFat = true ∨ h.requiresFat = false

@[simp] theorem length_stored (isFat : Bool) (h : ExceptionHandler) :
    (h.stored isFat).length = clauseSize isFat := by
  cases isFat <;> simp only [stored, Bool.false_eq_true, if_true, if_false, List.length_append,
    length_encode] <;> rfl

theorem requiresFat_eq_false {h : ExceptionHandler} :
    h.requiresFat = false ↔ h.tryOffset.toNat ≤ 0xffff ∧ h.handlerOffset.toNat ≤ 0xffff ∧
      h.tryLength.toNat ≤ 0xff ∧ h.handlerLength.toNat ≤ 0xff := by
  simp only [requiresFat, Bool.or_eq_false_iff, decide_eq_false_iff_not, Nat.not_lt, and_assoc]

theorem writer_puts (isFat : Bool) (h : ExceptionHandler) :
    Writer.Puts (h.writer isFat) (h.stored isFat) := by
  intro b
  unfold writer stored
  cases isFat <;>
    simp only [Bool.false_eq_true, if_true, if_false, bind_eq_ok, Writer.word_eq_ok,
      ← Buffer.append_append]
  all_goals exact ⟨(), _, rfl, (), _, rfl, (), _, rfl, (), _, rfl, (), _, rfl, rfl⟩

end ExceptionHandler

/-! ## Fields -/

theorem ofFlags?_eq_some_iff {flags : UInt32} {kind : HandlerKind} :
    HandlerKind.ofFlags? flags = some kind ↔ flags = kind.flags.toUInt32 := by
  constructor
  · intro h
    unfold HandlerKind.ofFlags? at h
    split at h
    next hflags =>
      cases h
      exact UInt32.toNat_inj.mp hflags
    next hflags =>
      cases h
      exact UInt32.toNat_inj.mp hflags
    next hflags =>
      cases h
      exact UInt32.toNat_inj.mp hflags
    next hflags =>
      cases h
      exact UInt32.toNat_inj.mp hflags
    next => cases h
  · rintro rfl
    exact HandlerKind.ofFlags?_flags kind

theorem ofFields_eq_ok {start : Nat}
    {flags tryOffset tryLength handlerOffset handlerLength classOrFilter : UInt32}
    {h : ExceptionHandler} :
    ExceptionHandler.ofFields start flags tryOffset tryLength handlerOffset handlerLength
        classOrFilter = .ok h ↔
      flags = h.kind.flags.toUInt32 ∧ tryOffset = h.tryOffset ∧ tryLength = h.tryLength ∧
        handlerOffset = h.handlerOffset ∧ handlerLength = h.handlerLength ∧
        classOrFilter = h.classOrFilter := by
  rw [← ofFlags?_eq_some_iff]
  unfold ExceptionHandler.ofFields
  constructor
  · intro hok
    split at hok
    next kind hkind =>
      cases hok
      exact ⟨hkind, rfl, rfl, rfl, rfl, rfl⟩
    next => cases hok
  · rintro ⟨hkind, rfl, rfl, rfl, rfl, rfl⟩
    rw [hkind]

/-! ## Reading -/

theorem fatClauseReader_eq_ok {c c' : Cursor} {h : ExceptionHandler} :
    ExceptionHandler.fatReader c = .ok h c' ↔
      Holds c.data c.pos (h.stored true) ∧
        { c with pos := c.pos + ExceptionHandler.fatSize } = c' := by
  unfold ExceptionHandler.fatReader ExceptionHandler.stored
  simp only [bind_eq_ok, position_eq_ok, word_eq_ok, ofResult_eq_ok, ofFields_eq_ok, if_true,
    holds_append, length_encode]
  constructor
  · rintro ⟨_, _, ⟨rfl, rfl⟩, _, _, ⟨hflags, rfl⟩, _, _, ⟨htry, rfl⟩, _, _, ⟨htryLength, rfl⟩, _, _,
      ⟨hhandler, rfl⟩, _, _, ⟨hhandlerLength, rfl⟩, _, _, ⟨hclass, rfl⟩,
      ⟨rfl, rfl, rfl, rfl, rfl, rfl⟩, rfl⟩
    exact ⟨⟨hflags, htry, htryLength, hhandler, hhandlerLength, hclass⟩, rfl⟩
  · rintro ⟨⟨hflags, htry, htryLength, hhandler, hhandlerLength, hclass⟩, rfl⟩
    exact ⟨_, _, ⟨rfl, rfl⟩, _, _, ⟨hflags, rfl⟩, _, _, ⟨htry, rfl⟩, _, _, ⟨htryLength, rfl⟩, _, _,
      ⟨hhandler, rfl⟩, _, _, ⟨hhandlerLength, rfl⟩, _, _, ⟨hclass, rfl⟩,
      ⟨rfl, rfl, rfl, rfl, rfl, rfl⟩, rfl⟩

/-- A word that is small enough is what its low half, or its low byte, widens to. -/
theorem toUInt32_toUInt16 {value : UInt32} (h : value.toNat ≤ 0xffff) :
    value.toUInt16.toUInt32 = value := by
  apply UInt32.toNat_inj.mp
  rw [UInt16.toNat_toUInt32, UInt32.toNat_toUInt16]
  exact Nat.mod_eq_of_lt (Nat.lt_succ_of_le h)

theorem toUInt32_toUInt8 {value : UInt32} (h : value.toNat ≤ 0xff) :
    value.toUInt8.toUInt32 = value := by
  apply UInt32.toNat_inj.mp
  rw [UInt8.toNat_toUInt32, UInt32.toNat_toUInt8]
  exact Nat.mod_eq_of_lt (Nat.lt_succ_of_le h)

theorem smallClauseReader_eq_ok {c c' : Cursor} {h : ExceptionHandler} :
    ExceptionHandler.smallReader c = .ok h c' ↔
      h.requiresFat = false ∧ Holds c.data c.pos (h.stored false) ∧
        { c with pos := c.pos + ExceptionHandler.smallSize } = c' := by
  unfold ExceptionHandler.smallReader ExceptionHandler.stored
  simp only [bind_eq_ok, position_eq_ok, word_eq_ok, ofResult_eq_ok, ofFields_eq_ok,
    Bool.false_eq_true, if_false, holds_append, length_encode,
    ExceptionHandler.requiresFat_eq_false]
  constructor
  · rintro ⟨_, _, ⟨rfl, rfl⟩, flags, _, ⟨hflags, rfl⟩, tryOffset, _, ⟨htry, rfl⟩, tryLength, _,
      ⟨htryLength, rfl⟩, handlerOffset, _, ⟨hhandler, rfl⟩, handlerLength, _,
      ⟨hhandlerLength, rfl⟩, _, _, ⟨hclass, rfl⟩, ⟨hkind, htry', htryLength', hhandler',
      hhandlerLength', rfl⟩, rfl⟩
    obtain rfl := UInt16.toUInt32_inj.mp hkind
    rw [← htry', ← htryLength', ← hhandler', ← hhandlerLength']
    simp only [UInt16.toUInt16_toUInt32, UInt8.toUInt8_toUInt32, UInt16.toNat_toUInt32,
      UInt8.toNat_toUInt32]
    exact ⟨⟨Nat.le_of_lt_succ tryOffset.toNat_lt, Nat.le_of_lt_succ handlerOffset.toNat_lt,
      Nat.le_of_lt_succ tryLength.toNat_lt, Nat.le_of_lt_succ handlerLength.toNat_lt⟩,
      ⟨hflags, htry, htryLength, hhandler, hhandlerLength, hclass⟩, rfl⟩
  · rintro ⟨⟨hle, hle', hle'', hle'''⟩, ⟨hflags, htry, htryLength, hhandler, hhandlerLength,
      hclass⟩, rfl⟩
    exact ⟨_, _, ⟨rfl, rfl⟩, _, _, ⟨hflags, rfl⟩, _, _, ⟨htry, rfl⟩, _, _, ⟨htryLength, rfl⟩, _, _,
      ⟨hhandler, rfl⟩, _, _, ⟨hhandlerLength, rfl⟩, _, _, ⟨hclass, rfl⟩,
      ⟨rfl, toUInt32_toUInt16 hle, toUInt32_toUInt8 hle'', toUInt32_toUInt16 hle',
        toUInt32_toUInt8 hle''', rfl⟩, rfl⟩

/-- A clause is read exactly if it is stored in a form that holds it. -/
theorem handlerReader_eq_ok {isFat : Bool} {c c' : Cursor} {h : ExceptionHandler} :
    ExceptionHandler.reader isFat c = .ok h c' ↔
      h.FitsIn isFat ∧ Holds c.data c.pos (h.stored isFat) ∧
        { c with pos := c.pos + ExceptionHandler.clauseSize isFat } = c' := by
  unfold ExceptionHandler.reader ExceptionHandler.FitsIn ExceptionHandler.clauseSize
  cases isFat with
  | true =>
    simp only [if_true, fatClauseReader_eq_ok, true_or, true_and]
  | false =>
    simp only [Bool.false_eq_true, if_false, smallClauseReader_eq_ok, false_or]

/-- Clauses in a row are read exactly if they are stored in a row. -/
theorem steps_handlerReader {isFat : Bool} {handlers : List ExceptionHandler} {c c' : Cursor}
    (hpos : c.pos ≤ c.data.size) :
    Steps (ExceptionHandler.reader isFat) c handlers c' ↔
      (∀ h ∈ handlers, h.FitsIn isFat) ∧
        Holds c.data c.pos (handlers.flatMap (ExceptionHandler.stored isFat)) ∧
        { c with pos := c.pos + (handlers.flatMap (ExceptionHandler.stored isFat)).length } =
          c' := by
  refine steps_eq_ok (fun c c' h => ?_) hpos
  rw [handlerReader_eq_ok, ExceptionHandler.length_stored]

end CilCodec
