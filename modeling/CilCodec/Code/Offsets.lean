/-!
# CilCodec.Code.Offsets

Offsets in words, and search in an ascending list of offsets.

Offsets are kept in words of 32 bits, so those from 4 GiB on lose what is above (`low32`).

Result: `offsetIndex?_eq_some_iff` — in a strictly ascending list, the index found is the one place
at which the offset stands.
-/

namespace CilCodec

/-! ## Words -/

/-- What a word of 32 bits keeps of a number. -/
def low32 (n : Nat) : Nat := n % 0x100000000

theorem low32_le (n : Nat) : low32 n ≤ 0xffffffff :=
  Nat.le_of_lt_succ (Nat.mod_lt n (by decide))

theorem low32_eq_iff {n : Nat} : low32 n = n ↔ n ≤ 0xffffffff := by
  constructor
  · intro h
    rw [← h]
    exact low32_le n
  · intro h
    exact Nat.mod_eq_of_lt (Nat.lt_succ_of_le h)

/-! ## Search -/

/-- Looks for `x` among the places from `low` to before `high`, halving them at most `steps`
times. -/
def searchBetween (offsets : Array Nat) (x : Nat) : Nat → Nat → Nat → Option Nat
  | 0, _, _ => none
  | steps + 1, low, high =>
    if low < high then
      let middle := (low + high) / 2
      match offsets[middle]? with
      | none => none
      | some y =>
        if y = x then some middle
        else if y < x then searchBetween offsets x steps (middle + 1) high
        else searchBetween offsets x steps low middle
    else
      none

/-- The index of `x` in a strictly ascending list. -/
def offsetIndex? (offsets : Array Nat) (x : Nat) : Option Nat :=
  searchBetween offsets x offsets.size 0 offsets.size

/-- Offsets stand in strictly ascending order. -/
def Ascending (offsets : Array Nat) : Prop :=
  ∀ i j (hi : i < offsets.size) (hj : j < offsets.size), i < j → offsets[i] < offsets[j]

theorem getElem?_of_searchBetween {offsets : Array Nat} {x i : Nat} :
    ∀ {steps low high : Nat}, searchBetween offsets x steps low high = some i →
      offsets[i]? = some x
  | 0, _, _, h => nomatch h
  | steps + 1, low, high, h => by
    rw [searchBetween] at h
    split at h
    · dsimp only at h
      split at h
      · exact nomatch h
      · rename_i y hy
        split at h
        · rename_i hyx
          obtain rfl := Option.some.inj h
          rw [hy, hyx]
        · split at h
          · exact getElem?_of_searchBetween h
          · exact getElem?_of_searchBetween h
    · exact nomatch h

/-- A place in the range is found if there are as many steps as places. -/
theorem searchBetween_eq_some {offsets : Array Nat} (hasc : Ascending offsets) {x i : Nat}
    (hx : offsets[i]? = some x) :
    ∀ {steps low high : Nat}, low ≤ i → i < high → high ≤ offsets.size → high - low ≤ steps →
      searchBetween offsets x steps low high = some i
  | 0, low, high, hlow, hhigh, _, hsteps => by omega
  | steps + 1, low, high, hlow, hhigh, hsize, hsteps => by
    have hi : i < offsets.size := by omega
    have hix : offsets[i] = x := Option.some.inj ((Array.getElem?_eq_getElem hi).symm.trans hx)
    have hmid : (low + high) / 2 < offsets.size := by omega
    rw [searchBetween, if_pos (by omega)]
    simp only [Array.getElem?_eq_getElem hmid]
    rcases Nat.lt_trichotomy ((low + high) / 2) i with hlt | heq | hgt
    · have := hasc _ _ hmid hi hlt
      rw [if_neg (by omega), if_pos (by omega)]
      exact searchBetween_eq_some hasc hx (by omega) hhigh hsize (by omega)
    · subst heq
      rw [if_pos hix]
    · have := hasc _ _ hi hmid hgt
      rw [if_neg (by omega), if_neg (by omega)]
      exact searchBetween_eq_some hasc hx hlow (by omega) (by omega) (by omega)

theorem offsetIndex?_eq_some_iff {offsets : Array Nat} (hasc : Ascending offsets) {x i : Nat} :
    offsetIndex? offsets x = some i ↔ offsets[i]? = some x := by
  constructor
  · exact getElem?_of_searchBetween
  · intro hx
    obtain ⟨hi, _⟩ := Array.getElem?_eq_some_iff.mp hx
    exact searchBetween_eq_some hasc hx (Nat.zero_le _) hi (Nat.le_refl _) (Nat.le_refl _)

end CilCodec
