import DialGraphics.Bitmap.CircularRow
import Mathlib.Algebra.Order.Ring.Nat
import Mathlib.Data.Nat.Sqrt

/-!
# Integer square roots

Newton's iteration never falls below the root, because the arithmetic mean of a candidate and its
quotient is at least their geometric one. So where it stops falling, it is at the root.
-/

namespace DialGraphics

theorem sqrt_le_next {n candidate : Nat} (hpos : 0 < candidate) :
    Nat.sqrt n ≤ (candidate + n / candidate) / 2 := by
  have hroot := Nat.sqrt_le n
  have hquotient : 2 * Nat.sqrt n - candidate ≤ n / candidate := by
    apply (Nat.le_div_iff_mul_le hpos).2
    rcases Nat.le_total (2 * Nat.sqrt n) candidate with hle | hle
    · rw [Nat.sub_eq_zero_of_le hle, Nat.zero_mul]
      exact Nat.zero_le n
    · obtain ⟨other, hother⟩ := Nat.exists_eq_add_of_le hle
      have hmeans : 4 * other * candidate ≤ (other + candidate) ^ 2 :=
        four_mul_le_sq_add other candidate
      have htwice : (other + candidate) ^ 2 = 4 * (Nat.sqrt n * Nat.sqrt n) := by
        rw [Nat.add_comm, ← hother, Nat.pow_two, Nat.mul_mul_mul_comm]
      rw [htwice, Nat.mul_assoc] at hmeans
      rw [hother, Nat.add_sub_cancel_left]
      exact Nat.le_trans (Nat.le_of_mul_le_mul_left hmeans (by decide)) hroot
  omega

/-- A candidate that is not below its quotient is not above the root. -/
theorem le_sqrt_of_le_next {n candidate : Nat} (hpos : 0 < candidate)
    (hle : candidate ≤ (candidate + n / candidate) / 2) : candidate ≤ Nat.sqrt n := by
  have hquotient : candidate ≤ n / candidate := by omega
  exact Nat.le_sqrt.2 ((Nat.le_div_iff_mul_le hpos).1 hquotient)

/-- From any candidate that is not below the root the iteration comes down to the root. -/
theorem squareRootFrom_eq_sqrt {n candidate : Nat} (hn : 0 < n) (hle : Nat.sqrt n ≤ candidate) :
    squareRootFrom n candidate = Nat.sqrt n := by
  have hroot : 0 < Nat.sqrt n := Nat.sqrt_pos.2 hn
  induction candidate using Nat.strongRecOn with
  | ind candidate ih =>
    have hpos : 0 < candidate := Nat.lt_of_lt_of_le hroot hle
    rw [squareRootFrom]
    split
    · rename_i hlt
      exact ih _ hlt (sqrt_le_next hpos)
    · rename_i hstop
      exact Nat.le_antisymm (le_sqrt_of_le_next hpos (Nat.le_of_not_lt hstop)) hle

theorem squareRoot_eq_sqrt (n : Nat) : squareRoot n = Nat.sqrt n := by
  unfold squareRoot
  split
  · rename_i hsmall
    match n, hsmall with
    | 0, _ => rw [Nat.sqrt_zero]
    | 1, _ => rw [Nat.sqrt_one]
  · exact squareRootFrom_eq_sqrt (by omega) (Nat.sqrt_le_self n)

theorem squareRoot_le (n : Nat) : squareRoot n ≤ n := by
  rw [squareRoot_eq_sqrt]
  exact Nat.sqrt_le_self n

end DialGraphics
