import CilCodec.Import.HintName
import CilCodec.Proofs.Bytes.Writing

/-!
# CilCodec.Proofs.Import.HintName

Hint/name entries, one behind the other (II.25.3.1).

A reader does not know how long an entry is before it has found the zero behind the name, and then
has to tell padding from the first byte of the next entry, which can be zero as well. The length of
the entry alone settles it: `stored` has an even number of bytes, so a written entry of odd length is
followed by its own padding, and behind one of even length nothing is looked at.

Results:
1. `HintName.stored`, `HintName.length_stored`: the bytes of an entry, as many as `size` says;
2. `HintName.writer_puts`, `HintName.writer_of_not_plain`: which entries are written, and what is left
   by one that is not;
3. `HintName.reader_of_holds`: an entry is read from where it is stored, whatever is behind it;
4. `HintName.entries_round_trip`: entries in a row are read back, with anything in front of them and
   behind them.
-/

namespace CilCodec.HintName

/-- The name is ASCII, without a zero. -/
def Plain (name : String) : Prop := ∀ c ∈ name.toList, 0 < c.toNat ∧ c.toNat < 0x80

/-- The padding of an entry: a zero if it has an odd number of bytes without it. -/
def padding (entry : HintName) : List UInt8 := List.replicate (entry.unpaddedSize % 2) 0

/-- The bytes of an entry. -/
def stored (entry : HintName) : List UInt8 :=
  LittleEndian.encode entry.hint ++ (nameBytes entry.name ++ ([0] ++ entry.padding))

variable {entry : HintName} {name : String}

/-! ## Names -/

theorem isStorable_iff : isStorable name = true ↔ Plain name := by
  unfold isStorable Plain
  rw [List.all_eq_true]
  refine forall_congr' fun c => imp_congr_right fun _ => ?_
  rw [Bool.and_eq_true, decide_eq_true_iff, bne_iff_ne, and_comm, Nat.pos_iff_ne_zero]

/-- ASCII characters are one byte long each. -/
theorem unpaddedSize_eq (h : Plain entry.name) :
    entry.unpaddedSize = 2 + (nameBytes entry.name).length + 1 := by
  have hsizes : ∀ chars : List Char, (∀ c ∈ chars, 0 < c.toNat ∧ c.toNat < 0x80) →
      chars.foldr (fun c size => c.utf8Size + size) 0 = chars.length := by
    intro chars hchars
    induction chars with
    | nil => rfl
    | cons c chars ih =>
      obtain ⟨⟨_, hascii⟩, hrest⟩ := List.forall_mem_cons.mp hchars
      have hone : c.utf8Size = 1 := Char.utf8Size_eq_one_iff.mpr (Nat.le_of_lt_succ hascii)
      rw [List.foldr_cons, ih hrest, hone, List.length_cons, Nat.add_comm]
  unfold unpaddedSize nameBytes
  rw [hsizes _ h, List.length_map]

theorem toNat_of_ascii {c : Char} (h : c.toNat < 0x80) : (UInt8.ofNat c.toNat).toNat = c.toNat := by
  rw [UInt8.toNat_ofNat']
  exact Nat.mod_eq_of_lt (by omega)

theorem nameOfBytes_nameBytes (h : Plain name) : nameOfBytes (nameBytes name) = name := by
  unfold nameOfBytes nameBytes
  have hchars : (name.toList.map fun c => UInt8.ofNat c.toNat).map
      (fun byte => Char.ofNat byte.toNat) = name.toList := by
    rw [List.map_map]
    refine (List.map_congr_left fun c hc => ?_).trans (List.map_id _)
    show Char.ofNat (UInt8.ofNat c.toNat).toNat = c
    rw [toNat_of_ascii (h c hc).2, Char.ofNat_toNat]
  rw [hchars, String.ofList_toList]

theorem ascii_nameBytes (h : Plain name) :
    ((nameBytes name).all fun byte => byte.toNat < 0x80) = true := by
  rw [List.all_eq_true]
  intro byte hbyte
  obtain ⟨c, hc, rfl⟩ := List.mem_map.mp hbyte
  rw [toNat_of_ascii (h c hc).2]
  exact decide_eq_true (h c hc).2

/-- The zero behind a name is the first one. -/
theorem findIdx?_nameBytes (h : Plain name) (behind : List UInt8) :
    (nameBytes name ++ (0 :: behind)).findIdx? (· == 0) = some (nameBytes name).length := by
  have hnone : (nameBytes name).findIdx? (· == 0) = none := by
    rw [List.findIdx?_eq_none_iff]
    intro byte hbyte
    obtain ⟨c, hc, rfl⟩ := List.mem_map.mp hbyte
    obtain ⟨hpos, hascii⟩ := h c hc
    rw [beq_eq_false_iff_ne]
    intro hzero
    have hvalue := congrArg UInt8.toNat hzero
    rw [toNat_of_ascii hascii] at hvalue
    exact Nat.ne_of_gt hpos hvalue
  rw [List.findIdx?_append, hnone, List.findIdx?_cons]
  simp

/-! ## Entries -/

theorem size_even (entry : HintName) : entry.size % 2 = 0 := by
  unfold size
  omega

theorem length_stored (h : Plain entry.name) : entry.stored.length = entry.size := by
  have hsize := unpaddedSize_eq h
  have hhint : (LittleEndian.encode entry.hint).length = 2 := LittleEndian.length_encode entry.hint
  unfold size stored padding
  simp only [List.length_append, List.length_replicate, List.length_singleton, hhint]
  omega

theorem padding_puts (entry : HintName) :
    Writer.Puts (if entry.unpaddedSize < entry.size then Writer.put [0] else pure ())
      entry.padding := by
  unfold padding size
  rcases Nat.mod_two_eq_zero_or_one entry.unpaddedSize with heven | hodd
  · rw [heven, Nat.add_zero, if_neg (Nat.lt_irrefl _)]
    exact Writer.pure_puts
  · rw [hodd, if_pos (Nat.lt_succ_self _)]
    exact fun _ => rfl

theorem writer_puts (h : Plain entry.name) : Writer.Puts (writer entry) entry.stored := by
  have hput : ∀ bytes, Writer.Puts (Writer.put bytes) bytes := fun _ _ => rfl
  unfold writer
  rw [if_pos (isStorable_iff.mpr h)]
  exact (Writer.word_puts entry.hint).andThen
    ((hput (nameBytes entry.name)).andThen ((hput [0]).andThen (padding_puts entry)))

theorem writer_of_not_plain (h : ¬ Plain entry.name) (b : Buffer) :
    writer entry b = .error (.refused (.invalidImport (.unstorableName entry.name))) b := by
  unfold writer
  rw [if_neg (mt isStorable_iff.mp h)]
  rfl

theorem nameLength_of_holds {c : Cursor} (h : Plain name)
    (hbytes : Holds c.data c.pos (nameBytes name ++ [0])) :
    nameLength c = .ok (nameBytes name).length c := by
  obtain ⟨behind, hrest⟩ := hbytes.rest_eq
  rw [nameLength, hrest, List.append_assoc, List.singleton_append, findIdx?_nameBytes h]

/-- Behind an entry of even length the byte that follows does not matter. -/
theorem hasPadding_of_holds {c : Cursor} {start : Nat}
    (hpos : c.pos = start + entry.unpaddedSize) (hbytes : Holds c.data c.pos entry.padding) :
    hasPadding start c = .ok (decide (entry.unpaddedSize % 2 = 1)) c := by
  have hlength : c.pos - start = entry.unpaddedSize := by omega
  unfold hasPadding
  rw [hlength]
  unfold padding at hbytes
  rcases Nat.mod_two_eq_zero_or_one entry.unpaddedSize with heven | hodd
  · rw [heven]
    rfl
  · rw [hodd] at hbytes ⊢
    rw [hbytes.getElem?_eq]
    rfl

/-- The padding is passed over, and nothing else. -/
theorem padding_of_holds {c : Cursor} {start : Nat} (hpos : c.pos = start + entry.unpaddedSize)
    (hbytes : Holds c.data c.pos entry.padding) :
    (do if ← hasPadding start then Reader.advance 1
        return entry : Reader HintName) c = .ok entry { c with pos := start + entry.size } := by
  rw [bind_of_ok (hasPadding_of_holds hpos hbytes)]
  unfold padding at hbytes
  unfold size
  rcases Nat.mod_two_eq_zero_or_one entry.unpaddedSize with heven | hodd
  · rw [heven, Nat.add_zero, ← hpos]
    rfl
  · rw [hodd] at hbytes
    rw [hodd, ← Nat.add_assoc, ← hpos]
    exact bind_of_ok (Reader.advance_of_holds hbytes)

theorem reader_of_holds {c : Cursor} (h : Plain entry.name)
    (hbytes : Holds c.data c.pos entry.stored) :
    reader c = .ok entry { c with pos := c.pos + entry.size } := by
  obtain ⟨hhint, hbehind⟩ := holds_append.mp hbytes
  rw [LittleEndian.length_encode] at hbehind
  obtain ⟨hname, hlast⟩ := holds_append.mp hbehind
  obtain ⟨hzero, hpadding⟩ := holds_append.mp hlast
  -- the places behind the hint, behind the name and behind its zero
  let named : Cursor := { c with pos := c.pos + LittleEndian.size UInt16 }
  let ended : Cursor := { c with pos := named.pos + (nameBytes entry.name).length }
  let padded : Cursor := { c with pos := ended.pos + 1 }
  have hlength : nameLength named = .ok (nameBytes entry.name).length named :=
    nameLength_of_holds h (holds_append.mpr ⟨hname, hzero⟩)
  have htake : Reader.take (nameBytes entry.name).length named = .ok (nameBytes entry.name) ended :=
    Reader.take_eq_ok.mpr ⟨hname, rfl, rfl⟩
  have hadvance : Reader.advance 1 ended = .ok () padded :=
    Reader.advance_of_holds (c := ended) hzero
  have hpos : padded.pos = c.pos + entry.unpaddedSize := by
    have htwo : named.pos = c.pos + 2 := rfl
    have hsize := unpaddedSize_eq h
    simp only [padded, ended, htwo]
    omega
  unfold reader
  rw [bind_of_ok (Reader.position_eq_ok.mpr ⟨rfl, rfl⟩),
    bind_of_ok (Reader.word_eq_ok.mpr ⟨hhint, rfl⟩), bind_of_ok hlength, bind_of_ok htake]
  dsimp only
  rw [if_pos (ascii_nameBytes h), bind_of_ok hadvance, nameOfBytes_nameBytes h]
  exact padding_of_holds hpos hpadding

/-! ## Entries in a row -/

theorem steps_reader {entries : List HintName} (h : ∀ entry ∈ entries, Plain entry.name)
    {c : Cursor} (hbytes : Holds c.data c.pos (entries.flatMap stored)) :
    Reader.Steps reader c entries { c with pos := c.pos + (entries.flatMap stored).length } := by
  have hsteps : Reader.Steps reader c (entries.map id) _ :=
    Reader.steps_of_holds (fun entry c hplain hstored =>
      length_stored hplain ▸ reader_of_holds hplain hstored) h hbytes
  rwa [List.map_id] at hsteps

/-- Entries with plain names are written one behind the other at the end of whatever is there, and as
many reads from where the first one starts answer with them, in order and without a notice, and stop
where the bytes behind them start, zeros or not. Each entry takes as many bytes as its size says, an
even number. An entry with any other name is refused, and nothing of it is written. -/
theorem entries_round_trip (entries : List HintName) (h : ∀ entry ∈ entries, Plain entry.name)
    (out : Buffer) :
    (∃ bytes : List UInt8,
      Writer.each writer entries out = .ok () (out.append bytes) ∧
      ∀ (behind : List UInt8) (notices : Array Notice),
        let data := (out.append (bytes ++ behind)).bytes
        Reader.repeated entries.length reader ⟨data, out.pos, notices⟩ =
          .ok entries ⟨data, (out.append bytes).pos, notices⟩) ∧
    ∀ (entry : HintName) (b : Buffer),
      entry.size % 2 = 0 ∧
      (Plain entry.name → ∃ bytes : List UInt8, bytes.length = entry.size ∧
        writer entry b = .ok () (b.append bytes)) ∧
      (¬ Plain entry.name →
        writer entry b = .error (.refused (.invalidImport (.unstorableName entry.name))) b) := by
  refine ⟨⟨entries.flatMap stored, ?_, ?_⟩, fun entry b => ⟨size_even entry, ?_, ?_⟩⟩
  · exact Writer.each_puts (fun entry hentry => writer_puts (h entry hentry)) out
  · intro behind notices data
    have hbytes : Holds data out.pos (entries.flatMap stored) :=
      ⟨out.bytes.toList, behind, by simp [data], Array.length_toList⟩
    rw [Buffer.pos_append]
    exact Reader.repeated_eq_ok.mpr ⟨rfl, steps_reader h (c := ⟨data, out.pos, notices⟩) hbytes⟩
  · exact fun hplain => ⟨entry.stored, length_stored hplain, writer_puts hplain b⟩
  · exact fun hother => writer_of_not_plain hother b

/-- An entry of even length in front of a hint of zero, an empty name, and two zeros behind, all of it
from an odd position on. -/
theorem entries_round_trip_unnamed :
    (∀ entry ∈ [HintName.mk 7 "Sleep", HintName.mk 0 ""], Plain entry.name) ∧
      ∃ bytes : List UInt8,
        Writer.each writer [⟨7, "Sleep"⟩, ⟨0, ""⟩] (.ofBytes #[0x90]) =
          .ok () ((Buffer.ofBytes #[0x90]).append bytes) ∧
        let data := ((Buffer.ofBytes #[0x90]).append (bytes ++ [0, 0])).bytes
        Reader.repeated 2 reader ⟨data, 1, #[]⟩ =
          .ok [⟨7, "Sleep"⟩, ⟨0, ""⟩] ⟨data, ((Buffer.ofBytes #[0x90]).append bytes).pos, #[]⟩ := by
  have hplain : ∀ entry ∈ [HintName.mk 7 "Sleep", HintName.mk 0 ""], Plain entry.name := by
    simp [Plain]
  obtain ⟨⟨bytes, hwritten, hread⟩, _⟩ := entries_round_trip _ hplain (.ofBytes #[0x90])
  exact ⟨hplain, bytes, hwritten, hread [0, 0] #[]⟩

end CilCodec.HintName
