/-
# Fixed-width integers as integers

The value an arithmetic expression of a fixed-width type leaves in its variable: `wrapU` for an
unsigned type, `wrapS` for a two's-complement one.  A value already in range is left alone.
-/
import Mathlib.Data.Int.Basic
import Mathlib.Tactic.Linarith

namespace MachineInt

/-- The value stored in an unsigned variable of `w` bits. -/
def wrapU (w : ℕ) (z : ℤ) : ℕ := (z % 2 ^ w).toNat

/-- The value stored in a two's-complement variable of `w` bits. -/
def wrapS (w : ℕ) (z : ℤ) : ℤ := z.bmod (2 ^ w)

theorem wrapU_of_lt {w : ℕ} {z : ℤ} (h0 : 0 ≤ z) (h : z < 2 ^ w) : wrapU w z = z.toNat := by
  rw [wrapU, Int.emod_eq_of_lt h0 h]

@[simp] theorem wrapU_natCast {w n : ℕ} (h : n < 2 ^ w) : wrapU w (n : ℤ) = n := by
  rw [wrapU_of_lt (by omega) (by exact_mod_cast h), Int.toNat_natCast]

theorem wrapU_lt (w : ℕ) (z : ℤ) : wrapU w z < 2 ^ w := by
  have hpos : (0 : ℤ) < 2 ^ w := by positivity
  have h1 := Int.emod_nonneg z hpos.ne'
  have h2 := Int.emod_lt_of_pos z hpos
  unfold wrapU
  have h3 : ((2 : ℤ) ^ w) = ((2 ^ w : ℕ) : ℤ) := by push_cast; rfl
  omega

theorem wrapS_mem (w : ℕ) (z : ℤ) : -2 ^ w ≤ wrapS (w + 1) z ∧ wrapS (w + 1) z < 2 ^ w := by
  have hpos : 0 < 2 ^ (w + 1) := Nat.two_pow_pos _
  have hlo := Int.le_bmod (x := z) hpos
  have hhi := Int.bmod_lt (x := z) hpos
  have hsucc : (((2 ^ (w + 1) : ℕ) : ℤ)) = 2 * 2 ^ w := by
    push_cast
    rw [pow_succ, mul_comm]
  rw [hsucc] at hlo hhi
  unfold wrapS
  omega

theorem wrapS_of_mem {w : ℕ} {z : ℤ} (hlo : -2 ^ w ≤ z) (hhi : z < 2 ^ w) :
    wrapS (w + 1) z = z := by
  unfold wrapS
  apply Int.bmod_eq_of_le_mul_two
  · push_cast
    rw [pow_succ]
    linarith
  · push_cast
    rw [pow_succ]
    linarith

theorem wrapS_natCast {w n : ℕ} (h : n < 2 ^ w) : wrapS (w + 1) (n : ℤ) = n := by
  have hpos : (0 : ℤ) < 2 ^ w := by positivity
  exact wrapS_of_mem (by omega) (by exact_mod_cast h)

/-- **A sum that overflows turns negative**: the sum of a value that is not negative and any other
is in the upper half of the range exactly when it is out of bounds. -/
theorem wrapS_add_nonneg_iff {w : ℕ} {a b : ℤ} (ha : 0 ≤ a) (ha' : a < 2 ^ w) (hb : -2 ^ w ≤ b)
    (hb' : b < 2 ^ w) : 0 ≤ wrapS (w + 1) (a + b) ↔ 0 ≤ a + b ∧ a + b < 2 ^ w := by
  by_cases hlt : a + b < 2 ^ w
  · rw [wrapS_of_mem (by linarith) hlt]
    exact ⟨fun h => ⟨h, hlt⟩, fun h => h.1⟩
  · have hwrap : wrapS (w + 1) (a + b) = a + b - 2 ^ (w + 1) := by
      have hpow : (((2 ^ (w + 1) : ℕ) : ℤ)) = 2 ^ (w + 1) := by push_cast; rfl
      have hsub : wrapS (w + 1) (a + b) = wrapS (w + 1) (a + b - 2 ^ (w + 1)) := by
        rw [wrapS, wrapS, ← hpow, Int.sub_bmod_right]
      rw [hsub]
      refine wrapS_of_mem ?_ ?_ <;> rw [pow_succ] <;> linarith
    rw [hwrap, pow_succ]
    constructor
    · intro h
      exact absurd h (by linarith)
    · rintro ⟨-, h⟩
      exact absurd h hlt

end MachineInt
