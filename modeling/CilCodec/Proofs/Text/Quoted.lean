import CilCodec.Text.Quoted

/-!
# CilCodec.Proofs.Text.Quoted

Nothing is lost when a text is written with escapes.

Every character becomes itself, a backslash and a letter, or a backslash and its code point in
braces, and what it becomes ends before the next one begins: the braces close the digits, and no
other escape starts with the same letter. So a text is told by its escaped form.

Results:
1. `toDigits_injective`: a number is told by its hexadecimal digits;
2. `Escape.unique`: what a character becomes is told from what follows it;
3. `quoted_injective`, `asciiEscaped_injective`: a text is told by its escaped form;
4. `isAscii_of_mem_asciiEscaped`: the form used in messages is printable ASCII.
-/

namespace CilCodec

/-! ## Hexadecimal digits -/

theorem digitChar_injective {m n : Nat} (hm : m < 16) (hn : n < 16)
    (h : m.digitChar = n.digitChar) : m = n := by
  have hall : ∀ i j : Fin 16, i.val.digitChar = j.val.digitChar → i = j := by decide
  exact congrArg Fin.val (hall ⟨m, hm⟩ ⟨n, hn⟩ h)

theorem exists_of_mem_toDigits {n : Nat} {c : Char} (h : c ∈ Nat.toDigits 16 n) :
    ∃ digit < 16, c = digit.digitChar := by
  induction n using Nat.strongRecOn with
  | ind n ih =>
    rw [Nat.toDigits_eq_if (by decide)] at h
    split at h
    next hlt => exact ⟨n, hlt, List.mem_singleton.mp h⟩
    next hge =>
      rcases List.mem_append.mp h with hfront | hlast
      · exact ih (n / 16) (by omega) hfront
      · exact ⟨n % 16, Nat.mod_lt _ (by decide), List.mem_singleton.mp hlast⟩

theorem toDigits_injective {m n : Nat} (h : Nat.toDigits 16 m = Nat.toDigits 16 n) : m = n := by
  induction m using Nat.strongRecOn generalizing n with
  | ind m ih =>
    rw [Nat.toDigits_eq_if (by decide), Nat.toDigits_eq_if (n := n) (by decide)] at h
    split at h <;> split at h
    next hm hn => exact digitChar_injective hm hn (List.singleton_inj.mp h)
    next hm hn =>
      have hlength := congrArg List.length h
      simp at hlength
    next hm hn =>
      have hlength := congrArg List.length h
      simp at hlength
    next hm hn =>
      obtain ⟨hfront, hlast⟩ := List.append_inj' h rfl
      have hquotient := ih (m / 16) (by omega) hfront
      have hrest := digitChar_injective (Nat.mod_lt _ (by decide)) (Nat.mod_lt _ (by decide))
        (List.singleton_inj.mp hlast)
      omega

/-! ## Escapes -/

/-- The letters behind a backslash, and what they stand for. -/
def shortEscapes : List (Char × Char) :=
  [('0', '\x00'), ('t', '\t'), ('r', '\r'), ('n', '\n'), ('\'', '\''), ('"', '"'), ('\\', '\\')]

/-- `Escape c written`: a character `c` can be written as `written`. -/
inductive Escape (c : Char) : List Char → Prop where
  | plain (h : c ≠ '\\') : Escape c [c]
  | short {letter : Char} (h : (letter, c) ∈ shortEscapes) : Escape c ['\\', letter]
  | codePoint : Escape c (codePointEscape c)

theorem escape_quotedChar (c : Char) : Escape c (quotedChar c) := by
  unfold quotedChar
  split
  case h_7 hbackslash =>
    split
    · exact .plain hbackslash
    · exact .codePoint
  all_goals exact .short (by decide)

theorem escape_asciiEscapedChar (c : Char) : Escape c (asciiEscapedChar c) := by
  unfold asciiEscapedChar
  split
  case h_7 hbackslash =>
    split
    · exact .plain hbackslash
    · exact .codePoint
  all_goals exact .short (by decide)

theorem shortEscapes_functional :
    ∀ p ∈ shortEscapes, ∀ q ∈ shortEscapes, p.1 = q.1 → p.2 = q.2 := by
  decide

theorem ne_of_mem_shortEscapes : ∀ p ∈ shortEscapes, p.1 ≠ 'u' := by decide

theorem brace_not_mem_toDigits (n : Nat) : '\x7d' ∉ Nat.toDigits 16 n := by
  intro h
  obtain ⟨digit, hlt, heq⟩ := exists_of_mem_toDigits h
  have hall : ∀ i : Fin 16, '\x7d' ≠ i.val.digitChar := by decide
  exact hall ⟨digit, hlt⟩ heq

theorem codePointEscape_unique {c d : Char} {behind behind' : List Char}
    (h : codePointEscape c ++ behind = codePointEscape d ++ behind') : c = d := by
  -- the digits are what stands in front of the closing brace
  have hdigits (c : Char) (behind : List Char) :
      ((codePointEscape c ++ behind).drop 3).takeWhile (· ≠ '\x7d') = Nat.toDigits 16 c.toNat := by
    have hplain : ∀ a ∈ Nat.toDigits 16 c.toNat, decide (a ≠ '\x7d') = true := fun a ha =>
      decide_eq_true fun hbrace => brace_not_mem_toDigits _ (hbrace ▸ ha)
    show ((Nat.toDigits 16 c.toNat ++ ['\x7d']) ++ behind).takeWhile _ = _
    rw [List.append_assoc, List.takeWhile_append_of_pos hplain]
    simp
  have hsame := hdigits c behind
  rw [h, hdigits] at hsame
  exact Char.toNat_inj.mp (toDigits_injective hsame.symm)

theorem Escape.unique {c d : Char} {written written' behind behind' : List Char}
    (hc : Escape c written) (hd : Escape d written') (h : written ++ behind = written' ++ behind') :
    c = d := by
  cases hc with
  | plain hc =>
    cases hd with
    | plain hd => exact (List.cons.inj h).1
    | short hd => exact absurd (List.cons.inj h).1 hc
    | codePoint => exact absurd (List.cons.inj h).1 hc
  | short hc =>
    cases hd with
    | plain hd => exact absurd (List.cons.inj h).1.symm hd
    | short hd => exact shortEscapes_functional _ hc _ hd (List.cons.inj (List.cons.inj h).2).1
    | codePoint => exact absurd (List.cons.inj (List.cons.inj h).2).1 (ne_of_mem_shortEscapes _ hc)
  | codePoint =>
    cases hd with
    | plain hd => exact absurd (List.cons.inj h).1.symm hd
    | short hd =>
      exact absurd (List.cons.inj (List.cons.inj h).2).1.symm (ne_of_mem_shortEscapes _ hd)
    | codePoint => exact codePointEscape_unique h

theorem Escape.ne_nil {c : Char} {written : List Char} (h : Escape c written) : written ≠ [] := by
  cases h <;> exact List.cons_ne_nil _ _

/-! ## Texts -/

/-- Texts written character by character are told apart. -/
theorem flatMap_injective {write : Char → List Char} (hwrite : ∀ c, Escape c (write c))
    {s t : List Char} (h : s.flatMap write = t.flatMap write) : s = t := by
  induction s generalizing t with
  | nil =>
    cases t with
    | nil => rfl
    | cons d t => exact absurd (List.append_eq_nil_iff.mp h.symm).1 (hwrite d).ne_nil
  | cons c s ih =>
    cases t with
    | nil => exact absurd (List.append_eq_nil_iff.mp h).1 (hwrite c).ne_nil
    | cons d t =>
      rw [List.flatMap_cons, List.flatMap_cons] at h
      obtain rfl := (hwrite c).unique (hwrite d) h
      rw [ih (List.append_cancel_left h)]

theorem quoted_injective {s t : String} (h : quoted s = quoted t) : s = t := by
  have hlist := List.append_cancel_right (List.cons.inj (String.ofList_inj.mp h)).2
  exact String.toList_inj.mp (flatMap_injective escape_quotedChar hlist)

theorem asciiEscaped_injective {s t : String} (h : asciiEscaped s = asciiEscaped t) : s = t :=
  String.toList_inj.mp (flatMap_injective escape_asciiEscapedChar (String.ofList_inj.mp h))

example : quoted "it's\t\"é\x01" = "\"it's\\t\\\"é\\u\x7b1\x7d\"" := by decide +kernel

/-- The form used in messages is printable ASCII. -/
theorem isAscii_of_mem_asciiEscaped {s : String} {c : Char} (h : c ∈ (asciiEscaped s).toList) :
    0x20 ≤ c.toNat ∧ c.toNat ≤ 0x7e := by
  have hdigit : ∀ i : Fin 16, 0x20 ≤ i.val.digitChar.toNat ∧ i.val.digitChar.toNat ≤ 0x7e := by
    decide
  rw [asciiEscaped, String.toList_ofList] at h
  obtain ⟨a, _, h⟩ := List.mem_flatMap.mp h
  unfold asciiEscapedChar at h
  split at h
  case h_7 =>
    split at h
    next hplain =>
      obtain rfl := List.mem_singleton.mp h
      simpa using hplain
    next =>
      simp only [codePointEscape, List.mem_cons, List.mem_append, List.not_mem_nil, or_false] at h
      rcases h with rfl | rfl | rfl | h | rfl
      case inr.inr.inr.inl =>
        obtain ⟨digit, hlt, rfl⟩ := exists_of_mem_toDigits h
        exact hdigit ⟨digit, hlt⟩
      all_goals decide
  all_goals
    simp only [List.mem_cons, List.not_mem_nil, or_false] at h
    rcases h with rfl | rfl <;> decide

example : asciiEscaped "a'é\x00" = "a\\'\\u\x7be9\x7d\\u\x7b0\x7d" := by decide +kernel

end CilCodec
