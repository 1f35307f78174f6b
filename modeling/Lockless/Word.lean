import Mathlib.Tactic
import Mathlib.Data.Int.ModEq
import Mathlib.Data.Nat.Bitwise

/-!
# Machine words

Unsigned `w`-bit arithmetic on naturals with the reduction modulo `2 ^ w`
written out, and the two's-complement reading of a difference. A power-of-two
array size carries its bounds, so that masking a counter with `size - 1` is
reduction modulo the size, and two counters less than one lap apart that
mask to one index are equal.
-/

namespace Lockless

/-- The value of an unsigned `w`-bit word. -/
def wrap (w n : ℕ) : ℕ := n % 2 ^ w

/-- The value of `UINT64_MAX`. -/
def uint64Max : ℕ := 2 ^ 64 - 1

theorem wrap_of_lt {w n : ℕ} (h : n < 2 ^ w) : wrap w n = n := Nat.mod_eq_of_lt h

theorem wrap_lt (w n : ℕ) : wrap w n < 2 ^ w := Nat.mod_lt _ (Nat.two_pow_pos w)

theorem wrap_wrap_add (w n k : ℕ) : wrap w (wrap w n + k) = wrap w (n + k) :=
  Nat.mod_add_mod n (2 ^ w) k

/-- Numbers less than one cycle apart are told apart by their words. -/
theorem wrap_inj {w a b : ℕ} (h : wrap w a = wrap w b) (hab : a ≤ b)
    (hlt : b < a + 2 ^ w) : a = b := by
  have hdvd := (Nat.modEq_iff_dvd' hab).mp h
  have := Nat.eq_zero_of_dvd_of_lt hdvd (by omega)
  omega

/-- The difference of two `w`-bit words, read as a signed number. -/
def signedDiff (w a b : ℕ) : ℤ := ((a : ℤ) - b).bmod (2 ^ w)

theorem signedDiff_self (w a : ℕ) : signedDiff w a a = 0 := by
  simp [signedDiff]

theorem signedDiff_eq_zero_iff {w a b : ℕ} (ha : a < 2 ^ w) (hb : b < 2 ^ w) :
    signedDiff w a b = 0 ↔ a = b := by
  rw [signedDiff, ← Int.dvd_iff_bmod_eq_zero]
  constructor
  · intro h
    have hz : (a : ℤ) - b = 0 := by
      apply Int.eq_zero_of_abs_lt_dvd h
      rw [abs_lt]
      push_cast
      constructor <;> zify at ha hb <;> linarith
    omega
  · rintro rfl
    simp

/-- The difference of two words is that of the numbers they wrap. -/
theorem signedDiff_wrap (w a b : ℕ) : signedDiff w (wrap w a) (wrap w b) = signedDiff w a b := by
  unfold signedDiff wrap
  push_cast
  rw [show (2 : ℤ) ^ w = ((2 ^ w : ℕ) : ℤ) by push_cast; rfl, Int.emod_sub_bmod,
    Int.sub_emod_bmod]

/-- Words less than half a cycle apart have the difference of their values. -/
theorem signedDiff_eq {w a b : ℕ} (hle : 2 * b ≤ 2 * a + 2 ^ w) (hlt : 2 * a < 2 * b + 2 ^ w) :
    signedDiff w a b = (a : ℤ) - b := by
  unfold signedDiff
  apply Int.bmod_eq_of_le_mul_two <;> zify at hle hlt <;> push_cast <;> linarith

/-- The value of a signed `w`-bit word. -/
def signed (w : ℕ) (n : ℤ) : ℤ := n.bmod (2 ^ w)

theorem signed_signed_add (w : ℕ) (n k : ℤ) : signed w (signed w n + k) = signed w (n + k) :=
  Int.bmod_add_bmod

theorem two_mul_signed_lt (w : ℕ) (n : ℤ) : 2 * signed w n < 2 ^ w := by
  have h := Int.bmod_lt (x := n) (Nat.two_pow_pos w)
  push_cast at h
  unfold signed
  omega

theorem signed_of_lt {w : ℕ} {n : ℤ} (hle : -2 ^ w ≤ n * 2) (hlt : n * 2 < 2 ^ w) :
    signed w n = n :=
  Int.bmod_eq_of_le_mul_two (by push_cast; exact hle) (by push_cast; exact hlt)

/-- An array size as the `static_assert`s on powers of two admit it: a power of
two that is a 64-bit value. -/
structure AdmittedSize where
  log : ℕ
  lt_64 : log < 64

namespace AdmittedSize

variable (Z : AdmittedSize)

def size : ℕ := 2 ^ Z.log

def mask : ℕ := Z.size - 1

/-- The array index of a counter. -/
def index (t : ℕ) : ℕ := t &&& Z.mask

theorem size_pos : 0 < Z.size := Nat.two_pow_pos Z.log

theorem size_le : Z.size ≤ 2 ^ 63 :=
  Nat.pow_le_pow_right (by decide) (by have := Z.lt_64; omega)

theorem mask_add_one : Z.mask + 1 = Z.size := by
  have := Z.size_pos
  unfold mask
  omega

theorem index_eq_mod (t : ℕ) : Z.index t = t % Z.size :=
  Nat.and_two_pow_sub_one_eq_mod t Z.log

theorem index_lt (t : ℕ) : Z.index t < Z.size := by
  rw [index_eq_mod]
  exact Nat.mod_lt _ Z.size_pos

@[simp] theorem index_add_size (t : ℕ) : Z.index (t + Z.size) = Z.index t := by
  simp [index_eq_mod]

/-- A 64-bit word has the index of the number it wraps. -/
theorem index_wrap (n : ℕ) : Z.index (wrap 64 n) = Z.index n := by
  rw [index_eq_mod, index_eq_mod]
  exact Nat.mod_mod_of_dvd n (pow_dvd_pow 2 (Nat.le_of_lt Z.lt_64))

theorem index_index_add (t u : ℕ) : Z.index (Z.index t + u) = Z.index (t + u) := by
  simp only [index_eq_mod, Nat.mod_add_mod]

theorem dvd_sub_of_index {t u : ℕ} (h : Z.index t = Z.index u) (htu : t ≤ u) :
    Z.size ∣ u - t := by
  rw [index_eq_mod, index_eq_mod] at h
  exact (Nat.modEq_iff_dvd' htu).mp h

/-- Counters less than one lap apart are told apart by their index. -/
theorem index_inj {t u : ℕ} (h : Z.index t = Z.index u) (htu : t < u + Z.size)
    (hut : u < t + Z.size) : t = u := by
  rcases Nat.le_total t u with hle | hle
  · have := Nat.eq_zero_of_dvd_of_lt (Z.dvd_sub_of_index h hle) (by omega)
    omega
  · have := Nat.eq_zero_of_dvd_of_lt (Z.dvd_sub_of_index h.symm hle) (by omega)
    omega

/-- Every lap has a counter with a given index. -/
theorem exists_index (t u : ℕ) : ∃ v, u ≤ v ∧ v < u + Z.size ∧ Z.index v = Z.index t := by
  have hpos : (0 : ℤ) < Z.size := by exact_mod_cast Z.size_pos
  have hnonneg := Int.emod_nonneg ((t : ℤ) - u) hpos.ne'
  have hlt := Int.emod_lt_of_pos ((t : ℤ) - u) hpos
  refine ⟨u + (((t : ℤ) - u) % Z.size).toNat, by omega, by omega, ?_⟩
  rw [index_eq_mod, index_eq_mod]
  zify
  rw [Int.toNat_of_nonneg hnonneg, Int.add_emod_emod, add_sub_cancel]

/-- Half the values of a word are whole laps. -/
theorem size_dvd : Z.size ∣ 2 ^ 63 :=
  pow_dvd_pow 2 (by have := Z.lt_64; omega)

theorem index_of_size_one (hZ : Z.size = 1) (t : ℕ) : Z.index t = 0 := by
  have hlt := Z.index_lt t
  omega

end AdmittedSize

/-- An admitted array size of at least 2. -/
structure PowSize extends AdmittedSize where
  one_le : 1 ≤ log

/-- There is one size besides. -/
theorem AdmittedSize.one_or_pow (Z : AdmittedSize) :
    Z.size = 1 ∨ ∃ Y : PowSize, Z = Y.toAdmittedSize := by
  rcases Nat.eq_zero_or_pos Z.log with hzero | hpos
  · exact Or.inl (by rw [size, hzero, Nat.pow_zero])
  · exact Or.inr ⟨⟨Z, hpos⟩, rfl⟩

instance : Coe PowSize AdmittedSize := ⟨PowSize.toAdmittedSize⟩

namespace PowSize

variable (Z : PowSize)

theorem two_le_size : 2 ≤ Z.size :=
  calc 2 = 2 ^ 1 := rfl
    _ ≤ 2 ^ Z.log := Nat.pow_le_pow_right (by decide) Z.one_le

/-- Consecutive counters have different indices. -/
theorem index_succ_ne (t : ℕ) : Z.index (t + 1) ≠ Z.index t := by
  intro h
  have := Z.two_le_size
  have := Z.index_inj h (by omega) (by omega)
  omega

end PowSize

end Lockless
