import CilCodec.Number.Shortest
import Mathlib.Algebra.Order.Field.Power
import Mathlib.Data.Rat.Cast.Order
import Mathlib.Tactic.FieldSimp
import Mathlib.Tactic.Linarith
import Mathlib.Tactic.NormNum
import Mathlib.Tactic.Positivity
import Mathlib.Tactic.Ring

/-!
# CilCodec.Proofs.Number.Shortest

The decimal written for a binary value reads back as that value. None with fewer digits does, and
none with as many is nearer.

The search goes through the places behind the leading digit and stops at the first with a multiple
of its power of ten inside the neighbourhood of the value. A neighbourhood has no gaps, so if any
multiple is inside, one of the two next to the value is. A decimal inside is such a multiple for as
many digits as it has, or it is smaller than the power of ten at the leading digit, which is then
inside and nearer. The digits of the format are enough, because a unit of the last one is smaller
than the distance between two values.

Results:
1. `leadingExponent_bounds`: where the leading digit of a number stands;
2. `Neighbourhood.Proper.of_nearest?`: what is found at a place is the nearest there;
3. `Neighbourhood.Proper.exists_least`: where the search ends;
4. `Neighbourhood.contains_ofBinary_iff`: what rounds to a binary value;
5. `shortestDecimal_spec`: what a finite value is written as.
-/

namespace CilCodec

/-! ## Binary values -/

/-- The digits of a format are enough for its significands. -/
theorem BinaryFormat.two_pow_lt (f : BinaryFormat) :
    2 ^ (f.fractionBits + 1) < 10 ^ (f.maxDigits - 1) := by
  have hlog : ((2 ^ 100) ^ 100) ^ 10 ≤ ((10 ^ 100) ^ 100) ^ 3 * 10 ^ 103 := by decide +kernel
  have hdigits : f.maxDigits - 1 = (f.fractionBits + 1) * 30103 / 100000 + 1 := rfl
  have hround : (f.fractionBits + 1) * 30103 < (f.maxDigits - 1) * 100000 := by omega
  have hroot (k : Nat) (hk : k ≠ 0)
      (h : 2 ^ ((f.fractionBits + 1) * k) < 10 ^ ((f.maxDigits - 1) * k)) :
      2 ^ (f.fractionBits + 1) < 10 ^ (f.maxDigits - 1) := by
    rw [Nat.pow_mul, Nat.pow_mul] at h
    exact (Nat.pow_lt_pow_iff_left hk).mp h
  refine hroot 100000 (by decide) ?_
  calc 2 ^ ((f.fractionBits + 1) * 100000)
      = (((2 ^ 100) ^ 100) ^ 10) ^ (f.fractionBits + 1) := by
        simp only [← Nat.pow_mul]
        congr 1
        omega
    _ ≤ (((10 ^ 100) ^ 100) ^ 3 * 10 ^ 103) ^ (f.fractionBits + 1) := Nat.pow_le_pow_left hlog _
    _ = 10 ^ ((f.fractionBits + 1) * 30103) := by
        simp only [← Nat.pow_mul, ← Nat.pow_add]
        congr 1
        omega
    _ < 10 ^ ((f.maxDigits - 1) * 100000) := Nat.pow_lt_pow_right (by decide) hround

example : BinaryFormat.binary32.maxDigits = 9 ∧ BinaryFormat.binary64.maxDigits = 17 := by decide

/-- Significands fit their format, and those at the low end of a binade are powers of two. -/
theorem Binary.ofBits_eq_finite {f : BinaryFormat} {bits significand : Nat} {negative lowest : Bool}
    {exponent : Int} (h : ofBits f bits = .finite negative significand exponent lowest) :
    significand < 2 ^ (f.fractionBits + 1) ∧
      (lowest = true → significand = 2 ^ f.fractionBits) := by
  have hfraction : bits % (1 <<< f.fractionBits) < 2 ^ f.fractionBits := by
    rw [Nat.one_shiftLeft]
    exact Nat.mod_lt _ (Nat.two_pow_pos _)
  unfold ofBits at h
  dsimp only at h
  rw [Nat.pow_succ]
  split at h
  · split at h <;> cases h
  split at h
  · cases h
    exact ⟨by omega, nofun⟩
  · cases h
    rw [Nat.one_shiftLeft] at *
    refine ⟨by omega, fun hlowest => ?_⟩
    simp at hlowest
    omega

example : (Binary64.mk 0x4000000000000000).value = .finite false (2 ^ 52) (-51) true := by decide

/-! ## Decimals -/

namespace Decimal

/-- The number itself. -/
def toRat (d : Decimal) : ℚ := d.digits * (10 : ℚ) ^ d.exponent

theorem length_figures_le_iff {d : Decimal} {count : Nat} (hcount : 0 < count) :
    d.figures.length ≤ count ↔ d.digits < 10 ^ count :=
  Nat.length_toDigits_le_iff (by decide) hcount

theorem toRat_dropZeros (places : Nat) (d : Decimal) : (d.dropZeros places).toRat = d.toRat := by
  induction places generalizing d with
  | zero => rfl
  | succ places ih =>
    rw [dropZeros]
    split
    next hzero =>
      have hdigits : (d.digits : ℚ) = 10 * (d.digits / 10 : Nat) := by
        exact_mod_cast (Nat.mul_div_cancel' (Nat.dvd_of_mod_eq_zero hzero)).symm
      rw [ih, toRat, toRat, hdigits, zpow_add_one₀ (by norm_num)]
      ring
    next => rfl

theorem digits_dropZeros_le (places : Nat) (d : Decimal) :
    (d.dropZeros places).digits ≤ d.digits := by
  induction places generalizing d with
  | zero => exact Nat.le_refl _
  | succ places ih =>
    rw [dropZeros]
    split
    · exact Nat.le_trans (ih _) (Nat.div_le_self _ _)
    · exact Nat.le_refl _

/-- A power of ten loses a zero. -/
theorem digits_dropZeros_lt {d : Decimal} {count : Nat} (places : Nat) (hcount : 0 < count)
    (h : d.digits ≤ 10 ^ count) : (d.dropZeros (places + 1)).digits < 10 ^ count := by
  rcases Nat.lt_or_eq_of_le h with hlt | heq
  · exact Nat.lt_of_le_of_lt (digits_dropZeros_le _ _) hlt
  · obtain ⟨count, rfl⟩ := Nat.exists_eq_succ_of_ne_zero hcount.ne'
    have hzero : d.digits % 10 = 0 := by rw [heq, Nat.pow_succ, Nat.mul_mod_left]
    have htenth : d.digits / 10 < 10 ^ (count + 1) := by
      have hpos := Nat.pow_pos (n := count + 1) (show 0 < 10 by decide)
      omega
    rw [dropZeros, if_pos hzero]
    exact Nat.lt_of_le_of_lt (digits_dropZeros_le _ _) htenth

end Decimal

/-! ## The leading exponent -/

theorem toDigits_bounds {n : Nat} (h : 0 < n) :
    10 ^ ((Nat.toDigits 10 n).length - 1) ≤ n ∧
      n < 10 ^ ((Nat.toDigits 10 n).length - 1) * 10 := by
  have hpos : 0 < (Nat.toDigits 10 n).length := Nat.length_toDigits_pos
  refine ⟨?_, ?_⟩
  · rcases Nat.eq_zero_or_pos ((Nat.toDigits 10 n).length - 1) with hone | hmore
    · rw [hone]
      exact h
    · refine Nat.le_of_not_lt fun hlt => ?_
      have := (Nat.length_toDigits_le_iff (by decide) hmore).mpr hlt
      omega
  · rw [← Nat.pow_succ, Nat.succ_eq_add_one, Nat.sub_add_cancel hpos]
    exact (Nat.length_toDigits_le_iff (by decide) hpos).mp (Nat.le_refl _)

/-- The leading digit of a number stands where `leadingExponent` says. -/
theorem leadingExponent_bounds {num den : Nat} (hnum : 0 < num) (hden : 0 < den) :
    (10 : ℚ) ^ leadingExponent num den ≤ num / den ∧
      (num / den : ℚ) < 10 ^ (leadingExponent num den + 1) := by
  have hden' : (0 : ℚ) < den := by exact_mod_cast hden
  have hnum' : (0 : ℚ) < num := by exact_mod_cast hnum
  rw [le_div_iff₀ hden', div_lt_iff₀ hden', zpow_add_one₀ (by norm_num)]
  unfold leadingExponent
  split
  next hle =>
    obtain ⟨hlow, hhigh⟩ := toDigits_bounds (Nat.div_pos hle hden)
    generalize (Nat.toDigits 10 (num / den)).length - 1 = places at hlow hhigh
    rw [zpow_natCast]
    constructor
    · exact_mod_cast (Nat.le_div_iff_mul_le hden).mp hlow
    · exact_mod_cast (Nat.div_lt_iff_lt_mul hden).mp hhigh
  next hlt =>
    obtain ⟨hlow, hhigh⟩ := toDigits_bounds (Nat.div_pos (Nat.le_of_not_le hlt) hnum)
    have hpos : 0 < (Nat.toDigits 10 (den / num)).length := Nat.length_toDigits_pos
    generalize (Nat.toDigits 10 (den / num)).length = places at hlow hhigh hpos
    obtain ⟨places, rfl⟩ := Nat.exists_eq_succ_of_ne_zero hpos.ne'
    simp only [Nat.succ_eq_add_one, Nat.add_sub_cancel] at hlow hhigh ⊢
    have hlow : 10 ^ places * num ≤ den := (Nat.le_div_iff_mul_le hnum).mp hlow
    have hhigh : den < 10 ^ places * 10 * num := (Nat.div_lt_iff_lt_mul hnum).mp hhigh
    have hlow' : (10 : ℚ) ^ places * num ≤ den := by exact_mod_cast hlow
    have hhigh' : (den : ℚ) < 10 ^ places * 10 * num := by exact_mod_cast hhigh
    have hpow : (0 : ℚ) < 10 ^ places := by positivity
    split
    next hall =>
      have hall : den ≤ num * 10 ^ places := hall
      have hall' : (den : ℚ) ≤ num * 10 ^ places := by exact_mod_cast hall
      rw [zpow_neg, zpow_natCast, inv_mul_le_iff₀ hpow]
      refine ⟨by linarith, ?_⟩
      rw [show ((10 : ℚ) ^ places)⁻¹ * 10 * den = 10 * den / 10 ^ places by ring,
        lt_div_iff₀ hpow]
      linarith
    next hsome =>
      have hsome : num * 10 ^ places < den := Nat.lt_of_not_le hsome
      have hsome' : (num : ℚ) * 10 ^ places < den := by exact_mod_cast hsome
      rw [zpow_neg, zpow_natCast, pow_succ, inv_mul_le_iff₀ (by positivity)]
      refine ⟨hhigh'.le, ?_⟩
      rw [show ((10 : ℚ) ^ places * 10)⁻¹ * 10 * den = den / 10 ^ places by field_simp,
        lt_div_iff₀ hpow]
      exact hsome'

/-! ## Neighbourhoods -/

namespace Neighbourhood

variable {n : Neighbourhood}

/-- Whether `x` rounds to the value. -/
def Contains (n : Neighbourhood) (x : ℚ) : Prop :=
  if n.closed then n.low ≤ x * n.den ∧ x * n.den ≤ n.high
  else n.low < x * n.den ∧ x * n.den < n.high

/-- The value lies inside. -/
structure Proper (n : Neighbourhood) : Prop where
  den_pos : 0 < n.den
  low_lt : n.low < n.value
  lt_high : n.value < n.high

theorem contains_of_lt {x : ℚ} (hlow : n.low < x * n.den) (hhigh : x * n.den < n.high) :
    n.Contains x := by
  unfold Contains
  split
  · exact ⟨hlow.le, hhigh.le⟩
  · exact ⟨hlow, hhigh⟩

theorem Contains.of_between {x y z : ℚ} (hx : n.Contains x) (hz : n.Contains z) (hxy : x ≤ y)
    (hyz : y ≤ z) : n.Contains y := by
  have hxy : x * n.den ≤ y * n.den := mul_le_mul_of_nonneg_right hxy (Nat.cast_nonneg _)
  have hyz : y * n.den ≤ z * n.den := mul_le_mul_of_nonneg_right hyz (Nat.cast_nonneg _)
  unfold Contains at *
  split
  next hclosed =>
    rw [if_pos hclosed] at hx hz
    exact ⟨hx.1.trans hxy, hyz.trans hz.2⟩
  next hopen =>
    rw [if_neg hopen] at hx hz
    exact ⟨hx.1.trans_le hxy, hyz.trans_lt hz.2⟩

/-- The value itself. -/
def center (n : Neighbourhood) : ℚ := n.value / n.den

theorem Proper.contains_center (h : n.Proper) : n.Contains n.center := by
  have hden : (n.den : ℚ) ≠ 0 := by exact_mod_cast h.den_pos.ne'
  refine contains_of_lt ?_ ?_ <;> rw [center, div_mul_cancel₀ _ hden]
  · exact_mod_cast h.low_lt
  · exact_mod_cast h.lt_high

theorem Proper.value_pos (h : n.Proper) : 0 < n.value := Nat.zero_lt_of_lt h.low_lt

theorem zpow_mul_pow_toNat (base : ℚ) (hbase : base ≠ 0) (place : Int) :
    base ^ place * base ^ (-place).toNat = base ^ place.toNat := by
  rw [← zpow_natCast, ← zpow_natCast, ← zpow_add₀ hbase]
  congr 1
  omega

/-- The neighbourhood in units of a power of ten has that power in its denominator. -/
theorem mul_den_inUnits (m : ℚ) (place : Int) :
    m * (n.inUnits place).den = m * 10 ^ place * n.den * 10 ^ (-place).toNat := by
  have hden : ((n.inUnits place).den : ℚ) = n.den * 10 ^ place.toNat := Nat.cast_mul _ _ |>.trans
    (congrArg _ (Nat.cast_pow 10 place.toNat))
  rw [hden, ← zpow_mul_pow_toNat 10 (by norm_num) place]
  ring

theorem holds_inUnits_iff (m : Nat) (place : Int) :
    (n.inUnits place).holds (m * (n.inUnits place).den) = true ↔
      n.Contains (m * (10 : ℚ) ^ place) := by
  have hup : (0 : ℚ) < 10 ^ (-place).toNat := by positivity
  have hlt (x y : ℚ) : x < y ↔ x * 10 ^ (-place).toNat < y * 10 ^ (-place).toNat :=
    (mul_lt_mul_iff_left₀ hup).symm
  have hle (x y : ℚ) : x ≤ y ↔ x * 10 ^ (-place).toNat ≤ y * 10 ^ (-place).toNat :=
    (mul_le_mul_iff_left₀ hup).symm
  unfold Contains holds
  rw [show (n.inUnits place).closed = n.closed from rfl]
  split
  · rw [hle, hle _ (n.high : ℚ), ← mul_den_inUnits]
    simp only [Bool.and_eq_true, decide_eq_true_eq]
    exact_mod_cast Iff.rfl
  · rw [hlt, hlt _ (n.high : ℚ), ← mul_den_inUnits]
    simp only [Bool.and_eq_true, decide_eq_true_eq]
    exact_mod_cast Iff.rfl

/-! ## The nearest decimal at a place -/

/-- The greatest multiple of `10 ^ place` up to the value, in units of that power. -/
def below (n : Neighbourhood) (place : Int) : Nat :=
  (n.inUnits place).value / (n.inUnits place).den

section Nearest

variable {place : Int} {m : Nat}

theorem Proper.center_mul (hn : n.Proper) (place : Int) :
    n.center * n.den * 10 ^ (-place).toNat = (n.inUnits place).value := by
  have hden : (n.den : ℚ) ≠ 0 := by exact_mod_cast hn.den_pos.ne'
  rw [center, div_mul_cancel₀ _ hden]
  exact_mod_cast rfl

theorem Proper.below_bounds (hn : n.Proper) (place : Int) :
    n.below place * (10 : ℚ) ^ place ≤ n.center ∧
      n.center < ((n.below place + 1 : Nat) : ℚ) * 10 ^ place := by
  have hscale : (0 : ℚ) < n.den * 10 ^ (-place).toNat := by
    have hden : (0 : ℚ) < n.den := by exact_mod_cast hn.den_pos
    positivity
  have hunit : 0 < (n.inUnits place).den := Nat.mul_pos hn.den_pos (Nat.pow_pos (by decide))
  have hle : n.below place * (n.inUnits place).den ≤ (n.inUnits place).value :=
    Nat.div_mul_le_self _ _
  have hlt : (n.inUnits place).value < (n.below place + 1) * (n.inUnits place).den := by
    rw [Nat.mul_comm (n.below place + 1)]
    exact Nat.lt_mul_div_succ _ hunit
  rw [← mul_le_mul_iff_left₀ hscale, ← mul_lt_mul_iff_left₀ hscale]
  simp only [← mul_assoc, hn.center_mul, ← mul_den_inUnits]
  constructor
  · exact_mod_cast hle
  · exact_mod_cast hlt

/-- Which of the two multiples next to the value is nearer is told by what the division leaves. -/
theorem Proper.nearer_below_iff (hn : n.Proper) (place : Int) :
    2 * ((n.inUnits place).value % (n.inUnits place).den) < (n.inUnits place).den ↔
      n.center - n.below place * (10 : ℚ) ^ place <
        ((n.below place + 1 : Nat) : ℚ) * 10 ^ place - n.center := by
  have hscale : (0 : ℚ) < n.den * 10 ^ (-place).toNat := by
    have hden : (0 : ℚ) < n.den := by exact_mod_cast hn.den_pos
    positivity
  have hsplit : ((n.inUnits place).value % (n.inUnits place).den : Nat) +
      n.below place * ((n.inUnits place).den : ℚ) = (n.inUnits place).value := by
    rw [mul_comm]
    exact_mod_cast Nat.mod_add_div _ _
  rw [← mul_lt_mul_iff_left₀ hscale, sub_mul, sub_mul]
  simp only [← mul_assoc, hn.center_mul, ← mul_den_inUnits]
  rw [← hsplit, Nat.cast_succ]
  have hcast : 2 * ((n.inUnits place).value % (n.inUnits place).den) < (n.inUnits place).den ↔
      2 * (((n.inUnits place).value % (n.inUnits place).den : Nat) : ℚ) <
        (n.inUnits place).den := by
    exact_mod_cast Iff.rfl
  rw [hcast]
  constructor <;> intro h <;> linarith

/-- A multiple up to the value is no nearer than the greatest, which is inside if it is. -/
theorem Proper.below_of_le (hn : n.Proper) (hm : m ≤ n.below place) :
    (n.Contains (m * (10 : ℚ) ^ place) → n.Contains (n.below place * (10 : ℚ) ^ place)) ∧
      |n.below place * (10 : ℚ) ^ place - n.center| ≤ |m * (10 : ℚ) ^ place - n.center| := by
  have hunit : (0 : ℚ) < 10 ^ place := by positivity
  obtain ⟨hle, _⟩ := hn.below_bounds place
  have hm : (m : ℚ) * 10 ^ place ≤ n.below place * 10 ^ place :=
    mul_le_mul_of_nonneg_right (by exact_mod_cast hm) hunit.le
  refine ⟨fun h => h.of_between hn.contains_center hm hle, ?_⟩
  rw [abs_of_nonpos (by linarith), abs_of_nonpos (by linarith)]
  linarith

/-- A multiple beyond the value is no nearer than the least, which is inside if it is. -/
theorem Proper.above_of_lt (hn : n.Proper) (hm : n.below place < m) :
    (n.Contains (m * (10 : ℚ) ^ place) →
        n.Contains ((n.below place + 1 : Nat) * (10 : ℚ) ^ place)) ∧
      |((n.below place + 1 : Nat) : ℚ) * 10 ^ place - n.center| ≤
        |m * (10 : ℚ) ^ place - n.center| := by
  have hunit : (0 : ℚ) < 10 ^ place := by positivity
  obtain ⟨_, hlt⟩ := hn.below_bounds place
  have hm : ((n.below place + 1 : Nat) : ℚ) * 10 ^ place ≤ m * 10 ^ place :=
    mul_le_mul_of_nonneg_right (by exact_mod_cast hm) hunit.le
  refine ⟨fun h => hn.contains_center.of_between h hlt.le hm, ?_⟩
  rw [abs_of_nonneg (by linarith), abs_of_nonneg (by linarith)]
  linarith

theorem nearest?_eq (place : Int) :
    n.nearest? place =
      match (n.inUnits place).holds (n.below place * (n.inUnits place).den),
        (n.inUnits place).holds ((n.below place + 1) * (n.inUnits place).den) with
      | false, false => none
      | true, false => some ⟨n.below place, place⟩
      | false, true => some ⟨n.below place + 1, place⟩
      | true, true =>
        some ⟨if 2 * ((n.inUnits place).value % (n.inUnits place).den) < (n.inUnits place).den
          then n.below place else n.below place + 1, place⟩ := rfl

/-- What is found is inside, next to the value, and as near as any multiple inside. -/
theorem Proper.of_nearest? (hn : n.Proper) {d : Decimal} (h : n.nearest? place = some d) :
    n.Contains d.toRat ∧ d.digits ≤ n.below place + 1 ∧
      ∀ m : Nat, n.Contains (m * (10 : ℚ) ^ place) →
        |d.toRat - n.center| ≤ |m * (10 : ℚ) ^ place - n.center| := by
  rw [nearest?_eq] at h
  split at h
  · cases h
  next hbelow habove =>
    cases h
    refine ⟨(holds_inUnits_iff _ _).mp hbelow, Nat.le_succ _, fun m hm => ?_⟩
    rcases Nat.lt_or_ge (n.below place) m with hlt | hle
    · have hinside := (hn.above_of_lt hlt).1 hm
      rw [← holds_inUnits_iff, habove] at hinside
      cases hinside
    · exact (hn.below_of_le hle).2
  next hbelow habove =>
    cases h
    refine ⟨(holds_inUnits_iff _ _).mp habove, Nat.le_refl _, fun m hm => ?_⟩
    rcases Nat.lt_or_ge (n.below place) m with hlt | hle
    · exact (hn.above_of_lt hlt).2
    · have hinside := (hn.below_of_le hle).1 hm
      rw [← holds_inUnits_iff, hbelow] at hinside
      cases hinside
  next hbelow habove =>
    cases h
    obtain ⟨hle, hlt⟩ := hn.below_bounds place
    have hnearer := hn.nearer_below_iff place
    have hdown : |n.below place * (10 : ℚ) ^ place - n.center| =
        n.center - n.below place * (10 : ℚ) ^ place := by
      rw [abs_of_nonpos (by linarith), neg_sub]
    have hup : |((n.below place + 1 : Nat) : ℚ) * 10 ^ place - n.center| =
        ((n.below place + 1 : Nat) : ℚ) * 10 ^ place - n.center :=
      abs_of_nonneg (by linarith)
    split
    next hfirst =>
      refine ⟨(holds_inUnits_iff _ _).mp hbelow, Nat.le_succ _, fun m _ => ?_⟩
      rcases Nat.lt_or_ge (n.below place) m with hm | hm
      · refine le_trans ?_ (hn.above_of_lt hm).2
        rw [hup]
        exact hdown.le.trans (hnearer.mp hfirst).le
      · exact (hn.below_of_le hm).2
    next hsecond =>
      refine ⟨(holds_inUnits_iff _ _).mp habove, Nat.le_refl _, fun m _ => ?_⟩
      rcases Nat.lt_or_ge (n.below place) m with hm | hm
      · exact (hn.above_of_lt hm).2
      · refine le_trans ?_ (hn.below_of_le hm).2
        rw [hdown]
        exact hup.le.trans (le_of_not_gt (mt hnearer.mpr hsecond))

/-- If a multiple of a power of ten is inside, one is found. -/
theorem Proper.exists_nearest? (hn : n.Proper) (h : n.Contains (m * (10 : ℚ) ^ place)) :
    ∃ d, n.nearest? place = some d := by
  have hnear : n.Contains (n.below place * (10 : ℚ) ^ place) ∨
      n.Contains ((n.below place + 1 : Nat) * (10 : ℚ) ^ place) := by
    rcases Nat.lt_or_ge (n.below place) m with hlt | hle
    · exact .inr ((hn.above_of_lt hlt).1 h)
    · exact .inl ((hn.below_of_le hle).1 h)
  rw [← holds_inUnits_iff, ← holds_inUnits_iff] at hnear
  rw [nearest?_eq]
  split
  next hnone habove =>
    rw [hnone, habove] at hnear
    simp at hnear
  all_goals exact ⟨_, rfl⟩

end Nearest

/-! ## The shortest decimal -/

/-- The exponent of the leading digit of the value. -/
def lead (n : Neighbourhood) : Int := leadingExponent n.value n.den

theorem Proper.lead_bounds (hn : n.Proper) :
    (10 : ℚ) ^ n.lead ≤ n.center ∧ n.center < 10 ^ (n.lead + 1) :=
  leadingExponent_bounds hn.value_pos hn.den_pos

/-- The value has `count + 1` digits down to the place `count` behind the first. -/
theorem Proper.below_lt (hn : n.Proper) (count : Nat) :
    n.below (n.lead - count) < 10 ^ (count + 1) := by
  have hunit : (0 : ℚ) < 10 ^ (n.lead - count) := by positivity
  have hlt : n.below (n.lead - count) * (10 : ℚ) ^ (n.lead - count) <
      10 ^ (count + 1) * 10 ^ (n.lead - count) := by
    refine ((hn.below_bounds _).1.trans_lt hn.lead_bounds.2).trans_eq ?_
    rw [← zpow_natCast, ← zpow_add₀ (by norm_num)]
    congr 1
    push_cast
    ring
  exact_mod_cast (mul_lt_mul_iff_left₀ hunit).mp hlt

theorem findSome?_range_eq_some {α : Type} {f : Nat → Option α} {limit : Nat} {a : α}
    (h : (List.range limit).findSome? f = some a) :
    ∃ count < limit, f count = some a ∧ ∀ k < count, f k = none := by
  obtain ⟨before, count, behind, hrange, hfound, hnone⟩ := List.findSome?_eq_some_iff.mp h
  have hlength : before.length < limit := by
    rw [← List.length_range (n := limit), hrange]
    simp
  have hcount : before.length = count := by
    have := congrArg (·[before.length]?) hrange
    simpa [hlength] using this
  subst hcount
  refine ⟨_, hlength, hfound, fun k hk => hnone k ?_⟩
  have := congrArg (·[k]?) hrange
  simp [Nat.lt_trans hk hlength, List.getElem?_append_left hk] at this
  exact List.mem_of_getElem? this.symm

theorem shortest_eq (limit : Nat) :
    n.shortest limit =
      (((List.range limit).findSome? fun k : Nat => n.nearest? (n.lead - k)).getD
        ⟨n.below (n.lead - limit), n.lead - limit⟩).dropZeros (limit + 1) := rfl

section Shortest

variable {limit count m : Nat} {d : Decimal}

/-- If a multiple of a power of ten is inside, the search ends there at the latest. The shortest
decimal is the nearest at the place where it ends. -/
theorem Proper.exists_least (hn : n.Proper) (hcount : count < limit)
    (h : n.Contains (m * (10 : ℚ) ^ (n.lead - count))) :
    ∃ least ≤ count, n.Contains (n.shortest limit).toRat ∧
      (n.shortest limit).digits < 10 ^ (least + 1) ∧
      ∀ m : Nat, n.Contains (m * (10 : ℚ) ^ (n.lead - least)) →
        |(n.shortest limit).toRat - n.center| ≤ |m * (10 : ℚ) ^ (n.lead - least) - n.center| := by
  obtain ⟨found, hfound⟩ := hn.exists_nearest? h
  cases hsearch : (List.range limit).findSome? fun k : Nat => n.nearest? (n.lead - k) with
  | none =>
    have hnone := List.findSome?_eq_none_iff.mp hsearch count (List.mem_range.mpr hcount)
    rw [hfound] at hnone
    cases hnone
  | some d =>
    obtain ⟨least, _, hd, hfirst⟩ := findSome?_range_eq_some hsearch
    have hle : least ≤ count := by
      refine Nat.le_of_not_lt fun hlt => ?_
      rw [hfirst count hlt] at hfound
      cases hfound
    obtain ⟨hinside, hdigits, hnearest⟩ := hn.of_nearest? hd
    have hshortest : n.shortest limit = d.dropZeros (limit + 1) := by
      rw [shortest_eq, hsearch]
      rfl
    rw [hshortest, Decimal.toRat_dropZeros]
    refine ⟨least, hle, hinside, ?_, hnearest⟩
    exact Decimal.digits_dropZeros_lt limit (Nat.succ_pos _)
      (Nat.le_trans hdigits (hn.below_lt least))

/-- A decimal from the leading digit on is a multiple of the power of ten that its digits reach. -/
theorem exists_multiple (hlarge : (10 : ℚ) ^ n.lead ≤ d.toRat)
    (hlength : d.figures.length ≤ count + 1) :
    ∃ m : Nat, m * (10 : ℚ) ^ (n.lead - count) = d.toRat := by
  have hdigits := (Decimal.length_figures_le_iff (Nat.succ_pos count)).mp hlength
  have hplace : n.lead - count ≤ d.exponent := by
    have hlt : (10 : ℚ) ^ n.lead < 10 ^ ((count + 1 : Nat) + d.exponent) := by
      rw [zpow_add₀ (by norm_num), zpow_natCast]
      refine hlarge.trans_lt (mul_lt_mul_of_pos_right ?_ (by positivity))
      exact_mod_cast hdigits
    have := (zpow_lt_zpow_iff_right₀ (by norm_num)).mp hlt
    push_cast at this
    omega
  refine ⟨d.digits * 10 ^ (d.exponent - (n.lead - count)).toNat, ?_⟩
  rw [Decimal.toRat]
  push_cast
  rw [mul_assoc, ← zpow_natCast, ← zpow_add₀ (by norm_num)]
  congr 2
  omega

/-- A decimal inside has a multiple inside that is no farther from the value: itself, or the power
of ten at the leading digit. -/
theorem Proper.exists_multiple_near (hn : n.Proper) (hd : n.Contains d.toRat)
    (hlength : d.figures.length ≤ count + 1) :
    ∃ m : Nat, n.Contains (m * (10 : ℚ) ^ (n.lead - count)) ∧
      |m * (10 : ℚ) ^ (n.lead - count) - n.center| ≤ |d.toRat - n.center| := by
  rcases lt_or_ge d.toRat (10 ^ n.lead) with hsmall | hlarge
  · have hpower : ((10 ^ count : Nat) : ℚ) * 10 ^ (n.lead - count) = 10 ^ n.lead := by
      push_cast
      rw [← zpow_natCast, ← zpow_add₀ (by norm_num)]
      congr 1
      omega
    have hle := hn.lead_bounds.1
    refine ⟨10 ^ count, ?_, ?_⟩ <;> rw [hpower]
    · exact hd.of_between hn.contains_center hsmall.le hle
    · rw [abs_of_nonpos (by linarith), abs_of_nonpos (by linarith)]
      linarith
  · obtain ⟨m, hm⟩ := exists_multiple hlarge hlength
    exact ⟨m, hm ▸ hd, hm ▸ le_refl _⟩

/-- No decimal in the neighbourhood has fewer digits than the shortest. -/
theorem Proper.length_shortest_le (hn : n.Proper)
    (henough : n.Contains (m * (10 : ℚ) ^ (n.lead - limit))) (hd : n.Contains d.toRat) :
    (n.shortest (limit + 1)).figures.length ≤ d.figures.length := by
  have hpos : 0 < d.figures.length := Nat.length_toDigits_pos
  obtain ⟨count, hcount⟩ := Nat.exists_eq_succ_of_ne_zero hpos.ne'
  have hreach : ∃ least ≤ count, (n.shortest (limit + 1)).digits < 10 ^ (least + 1) := by
    rcases Nat.lt_or_ge limit count with hlimit | hlimit
    · obtain ⟨least, hleast, _, hdigits, _⟩ := hn.exists_least (Nat.lt_succ_self _) henough
      exact ⟨least, Nat.le_trans hleast hlimit.le, hdigits⟩
    · obtain ⟨m', hm', _⟩ := hn.exists_multiple_near hd (Nat.le_of_eq hcount)
      obtain ⟨least, hleast, _, hdigits, _⟩ := hn.exists_least (Nat.lt_succ_of_le hlimit) hm'
      exact ⟨least, hleast, hdigits⟩
  obtain ⟨least, hleast, hdigits⟩ := hreach
  rw [hcount, Decimal.length_figures_le_iff (Nat.succ_pos count)]
  exact Nat.lt_of_lt_of_le hdigits (Nat.pow_le_pow_right (by decide) (Nat.succ_le_succ hleast))

/-- No decimal in the neighbourhood with as few digits is nearer to the value. -/
theorem Proper.shortest_nearest (hn : n.Proper)
    (henough : n.Contains (m * (10 : ℚ) ^ (n.lead - limit))) (hd : n.Contains d.toRat)
    (hlength : d.figures.length ≤ (n.shortest (limit + 1)).figures.length) :
    |(n.shortest (limit + 1)).toRat - n.center| ≤ |d.toRat - n.center| := by
  obtain ⟨least, _, _, hdigits, hnearest⟩ := hn.exists_least (Nat.lt_succ_self _) henough
  have hreach := (Decimal.length_figures_le_iff (Nat.succ_pos least)).mpr hdigits
  obtain ⟨m', hm', hnear⟩ := hn.exists_multiple_near hd (Nat.le_trans hlength hreach)
  exact (hnearest m' hm').trans hnear

end Shortest

/-! ## Neighbourhoods of binary values -/

/-- Half way to the value below, in quarters of the last place. -/
def quartersBelow (significand : Nat) (lowest : Bool) : Nat :=
  4 * significand - if lowest then 1 else 2

variable {significand : Nat} {exponent : Int} {lowest : Bool}

/-- The neighbourhood reaches half way to the values beside it, and has its ends if the significand
is even. -/
theorem contains_ofBinary_iff {x : ℚ} :
    (ofBinary significand exponent lowest).Contains x ↔
      if significand % 2 = 0 then
        quartersBelow significand lowest * (2 : ℚ) ^ (exponent - 2) ≤ x ∧
          x ≤ (4 * significand + 2 : Nat) * (2 : ℚ) ^ (exponent - 2)
      else
        quartersBelow significand lowest * (2 : ℚ) ^ (exponent - 2) < x ∧
          x < (4 * significand + 2 : Nat) * (2 : ℚ) ^ (exponent - 2) := by
  have hden : (0 : ℚ) < 2 ^ (2 - exponent).toNat := by positivity
  have hscale (m : Nat) : ((m * 1 <<< (exponent - 2).toNat : Nat) : ℚ) =
      m * 2 ^ (exponent - 2) * 2 ^ (2 - exponent).toNat := by
    rw [Nat.one_shiftLeft, Nat.cast_mul, mul_assoc, ← Int.neg_sub exponent 2,
      zpow_mul_pow_toNat 2 (by norm_num)]
    push_cast
    rfl
  have hone : ((1 <<< (2 - exponent).toNat : Nat) : ℚ) = 2 ^ (2 - exponent).toNat := by
    rw [Nat.one_shiftLeft]
    push_cast
    rfl
  unfold Contains ofBinary
  simp only [beq_iff_eq, hscale, hone, mul_le_mul_iff_left₀ hden, mul_lt_mul_iff_left₀ hden]
  exact Iff.rfl

theorem center_ofBinary :
    (ofBinary significand exponent lowest).center = 4 * significand * 2 ^ (exponent - 2) := by
  have hden : (0 : ℚ) < 2 ^ (2 - exponent).toNat := by positivity
  unfold center ofBinary
  dsimp only
  rw [Nat.one_shiftLeft, Nat.one_shiftLeft]
  push_cast
  rw [div_eq_iff hden.ne', mul_assoc _ ((2 : ℚ) ^ (exponent - 2)), ← Int.neg_sub exponent 2,
    zpow_mul_pow_toNat 2 (by norm_num)]

theorem proper_ofBinary (hpos : 0 < significand) :
    (ofBinary significand exponent lowest).Proper := by
  have hscale : 0 < 1 <<< (exponent - 2).toNat := by
    rw [Nat.one_shiftLeft]
    exact Nat.two_pow_pos _
  refine ⟨?_, Nat.mul_lt_mul_of_pos_right ?_ hscale, Nat.mul_lt_mul_of_pos_right ?_ hscale⟩
  · show 0 < 1 <<< (2 - exponent).toNat
    rw [Nat.one_shiftLeft]
    exact Nat.two_pow_pos _
  · split <;> omega
  · omega

theorem contains_ofBinary_of_lt {x : ℚ}
    (hlow : quartersBelow significand lowest * (2 : ℚ) ^ (exponent - 2) < x)
    (hhigh : x < (4 * significand + 2 : Nat) * (2 : ℚ) ^ (exponent - 2)) :
    (ofBinary significand exponent lowest).Contains x := by
  rw [contains_ofBinary_iff]
  split
  · exact ⟨hlow.le, hhigh.le⟩
  · exact ⟨hlow, hhigh⟩

/-- With enough digits, a neighbourhood is wider than a unit of the last one. -/
theorem exists_contains_ofBinary {bits limit : Nat} (hpos : 0 < significand)
    (hlt : significand < 2 ^ (bits + 1)) (hlowest : lowest = true → significand = 2 ^ bits)
    (henough : 2 ^ (bits + 1) < 10 ^ limit) :
    ∃ m : Nat, (ofBinary significand exponent lowest).Contains
      (m * (10 : ℚ) ^ ((ofBinary significand exponent lowest).lead - limit)) := by
  have hn : (ofBinary significand exponent lowest).Proper := proper_ofBinary hpos
  obtain ⟨hbelow, habove⟩ := hn.below_bounds ((ofBinary significand exponent lowest).lead - limit)
  have hunit := hn.lead_bounds.1
  rw [center_ofBinary] at hbelow habove hunit
  rw [show (ofBinary significand exponent lowest).lead =
    (ofBinary significand exponent lowest).lead - limit + limit by omega,
    zpow_add₀ (by norm_num), zpow_natCast] at hunit
  have hplace : (0 : ℚ) < 2 ^ (exponent - 2) := by positivity
  have hunit_pos : (0 : ℚ) < 10 ^ ((ofBinary significand exponent lowest).lead - limit) := by
    positivity
  generalize (ofBinary significand exponent lowest).below _ = below at *
  generalize (10 : ℚ) ^ ((ofBinary significand exponent lowest).lead - limit) = unit at *
  have henough' : (2 ^ (bits + 1) : ℚ) < 10 ^ limit := by exact_mod_cast henough
  have hwide : unit * 2 ^ (bits + 1) < 4 * significand * 2 ^ (exponent - 2) :=
    (mul_lt_mul_of_pos_left henough' hunit_pos).trans_le hunit
  have hsignificand : (0 : ℚ) < significand := by exact_mod_cast hpos
  have hlt' : (significand : ℚ) < 2 ^ (bits + 1) := by exact_mod_cast hlt
  by_cases hside : lowest = false ∧ 4 * significand * 2 ^ (exponent - 2) - below * unit <
      2 * (2 : ℚ) ^ (exponent - 2)
  · obtain ⟨rfl, hnear⟩ := hside
    refine ⟨below, contains_ofBinary_of_lt ?_ ?_⟩
    · have hquarters : ((quartersBelow significand false : Nat) : ℚ) = 4 * significand - 2 := by
        rw [quartersBelow, Nat.cast_sub (by split <;> omega)]
        push_cast
        rfl
      rw [hquarters]
      linarith
    · push_cast
      linarith
  · have hnear : unit - (4 * significand * 2 ^ (exponent - 2) - below * unit) <
        2 * (2 : ℚ) ^ (exponent - 2) := by
      cases lowest with
      | true =>
        have hexact : (significand : ℚ) = 2 ^ bits := by exact_mod_cast hlowest rfl
        have hunit_lt : unit < 2 * 2 ^ (exponent - 2) := by
          refine lt_of_mul_lt_mul_right ?_ hsignificand.le
          rw [pow_succ, ← hexact] at hwide
          linarith
        linarith
      | false =>
        have hfar : 2 * (2 : ℚ) ^ (exponent - 2) ≤
            4 * significand * 2 ^ (exponent - 2) - below * unit :=
          le_of_not_gt fun hlt => hside ⟨rfl, hlt⟩
        have hunit_lt : unit < 4 * 2 ^ (exponent - 2) := by
          refine lt_of_mul_lt_mul_right (hwide.trans ?_) (by positivity : (0 : ℚ) ≤ 2 ^ (bits + 1))
          have := mul_lt_mul_of_pos_left hlt' hplace
          linarith
        linarith
    have hquarters : ((quartersBelow significand lowest : Nat) : ℚ) ≤ 4 * significand := by
      exact_mod_cast Nat.sub_le _ _
    refine ⟨below + 1, contains_ofBinary_of_lt (lt_of_le_of_lt ?_ habove) ?_⟩
    · exact mul_le_mul_of_nonneg_right hquarters hplace.le
    · push_cast
      linarith

end Neighbourhood

/-- What is written for a finite value reads back as that value. Nothing with fewer digits does, and
nothing with as many is nearer. -/
theorem shortestDecimal_spec {f : BinaryFormat} {bits significand : Nat} {negative lowest : Bool}
    {exponent : Int} (h : Binary.ofBits f bits = .finite negative significand exponent lowest)
    (hpos : 0 < significand) :
    (Neighbourhood.ofBinary significand exponent lowest).Contains
        (shortestDecimal f significand exponent lowest).toRat ∧
      ∀ d : Decimal, (Neighbourhood.ofBinary significand exponent lowest).Contains d.toRat →
        (shortestDecimal f significand exponent lowest).figures.length ≤ d.figures.length ∧
          (d.figures.length = (shortestDecimal f significand exponent lowest).figures.length →
            |(shortestDecimal f significand exponent lowest).toRat - significand * 2 ^ exponent| ≤
              |d.toRat - significand * 2 ^ exponent|) := by
  have hn : (Neighbourhood.ofBinary significand exponent lowest).Proper :=
    Neighbourhood.proper_ofBinary hpos
  have hcenter : (Neighbourhood.ofBinary significand exponent lowest).center =
      significand * 2 ^ exponent := by
    rw [Neighbourhood.center_ofBinary, zpow_sub₀ (by norm_num)]
    ring
  obtain ⟨hlt, hlowest⟩ := Binary.ofBits_eq_finite h
  have henough : ∃ m : Nat, (Neighbourhood.ofBinary significand exponent lowest).Contains
      (m * (10 : ℚ) ^ ((Neighbourhood.ofBinary significand exponent lowest).lead -
        (f.maxDigits - 1 : Nat))) :=
    Neighbourhood.exists_contains_ofBinary hpos hlt hlowest f.two_pow_lt
  obtain ⟨m, hm⟩ := henough
  obtain ⟨_, _, hinside, _⟩ := hn.exists_least (Nat.lt_succ_self _) hm
  refine ⟨hinside, fun d hd => ⟨hn.length_shortest_le hm hd, fun hlength => ?_⟩⟩
  rw [← hcenter]
  exact hn.shortest_nearest hm hd (Nat.le_of_eq hlength)

example : shortestDecimal .binary64 (2 ^ 52) (-77) true = ⟨29802322387695313, -24⟩ := by
  decide +kernel

end CilCodec
