import DialGraphics.Machine.CircularRow
import DialGraphics.Proofs.Bitmap.SquareRoot
import Mathlib.Logic.Relation

/-!
# Square roots fit the machine

Newton's iteration on a double word stays among the double words: the sum of a candidate and its
quotient is largest where the candidate is the number itself. Every round brings the candidate down,
never below the root, and the rounds end at the root.
-/

namespace DialGraphics.Machine

/-- What the iteration has in hand between two rounds. -/
structure RootSearch where
  candidate : Nat
  next : Nat
  deriving DecidableEq, Repr

namespace RootSearch

def start (n : Nat) : RootSearch := ⟨n, (n + 1) / 2⟩

/-- One round: the next candidate takes the place of the last one, and the one after it is computed.
There is no round if the next candidate is not smaller. -/
def round? (n : Nat) (s : RootSearch) : Option (Checked RootSearch) :=
  if s.next < s.candidate then
    some do
      let quotient ← div n s.next
      let sum ← add 32 s.next quotient
      .ok ⟨s.next, sum / 2⟩
  else none

def Reaches (n : Nat) : RootSearch → RootSearch → Prop :=
  Relation.ReflTransGen fun s t => s.round? n = some (.ok t)

/-- The candidate is between the root and the number, and the next one is the mean of it and its
quotient. -/
structure IsAbove (n : Nat) (s : RootSearch) : Prop where
  root_le : Nat.sqrt n ≤ s.candidate
  le : s.candidate ≤ n
  next_eq : s.next = (s.candidate + n / s.candidate) / 2

end RootSearch

variable {n : Nat} {s t : RootSearch}

theorem squareRootFrom_eq (n : Nat) (s : RootSearch) :
    squareRootFrom n s.candidate s.next
      = match s.round? n with
        | none => .ok s.candidate
        | some result => result >>= fun t => squareRootFrom n t.candidate t.next := by
  rw [squareRootFrom, RootSearch.round?]
  split
  · simp only [bind_assoc, ok_bind]
  · rfl

/-- Of two factors one or the other of which is `1` the sum is largest. -/
theorem candidate_add_quotient_le {candidate : Nat} (hpos : 0 < candidate) (hle : candidate ≤ n) :
    candidate + n / candidate ≤ n + 1 := by
  have hproduct : n / candidate * candidate ≤ n := Nat.div_mul_le_self n candidate
  obtain ⟨c, rfl⟩ := Nat.exists_eq_add_of_lt hpos
  obtain ⟨q, hq⟩ := Nat.exists_eq_add_of_lt (Nat.div_pos hle hpos)
  rw [hq, Nat.zero_add, Nat.add_mul, Nat.mul_add] at hproduct
  omega

namespace RootSearch

theorem isAbove_start (hn : 0 < n) : (start n).IsAbove n where
  root_le := Nat.sqrt_le_self n
  le := Nat.le_refl n
  next_eq := by
    show (n + 1) / 2 = (n + n / n) / 2
    rw [Nat.div_self hn]

/-- A round ends the iteration at the root or brings it closer. -/
theorem IsAbove.round?_cases (h : s.IsAbove n) (hn : 0 < n) (hfits : n + 1 < 2 ^ 32) :
    s.round? n = none ∧ s.candidate = Nat.sqrt n
      ∨ ∃ t, s.round? n = some (.ok t) ∧ t.candidate < s.candidate ∧ t.IsAbove n := by
  obtain ⟨hroot, hle, hnext⟩ := h
  have hpos : 0 < s.candidate := Nat.lt_of_lt_of_le (Nat.sqrt_pos.2 hn) hroot
  unfold round?
  split
  · rename_i hsmaller
    have hroot' : Nat.sqrt n ≤ s.next := hnext ▸ sqrt_le_next hpos
    have hpos' : 0 < s.next := Nat.lt_of_lt_of_le (Nat.sqrt_pos.2 hn) hroot'
    have hle' : s.next ≤ n := Nat.le_trans (Nat.le_of_lt hsmaller) hle
    have hsum := candidate_add_quotient_le hpos' hle'
    refine .inr ⟨⟨s.next, (s.next + n / s.next) / 2⟩, ?_, hsmaller, hroot', hle', rfl⟩
    rw [div_eq hpos', ok_bind, add_eq (by omega), ok_bind]
  · rename_i hstop
    rw [hnext] at hstop
    exact .inl ⟨rfl, Nat.le_antisymm (le_sqrt_of_le_next hpos (Nat.le_of_not_lt hstop)) hroot⟩

theorem IsAbove.of_reaches (h : s.IsAbove n) (hn : 0 < n) (hfits : n + 1 < 2 ^ 32)
    (hreach : Reaches n s t) : t.IsAbove n := by
  induction hreach with
  | refl => exact h
  | tail _ hround ih =>
    rcases ih.round?_cases hn hfits with ⟨hnone, -⟩ | ⟨t', hsome, -, habove⟩
    · rw [hnone] at hround
      cases hround
    · rw [hsome] at hround
      cases hround
      exact habove

/-- The induction is on the candidate, which every round makes smaller. -/
theorem IsAbove.squareRootFrom_eq_sqrt (h : s.IsAbove n) (hn : 0 < n) (hfits : n + 1 < 2 ^ 32) :
    squareRootFrom n s.candidate s.next = .ok (Nat.sqrt n) := by
  induction hcandidate : s.candidate using Nat.strongRecOn generalizing s with
  | ind candidate ih =>
    rw [← hcandidate, squareRootFrom_eq]
    rcases h.round?_cases hn hfits with ⟨hnone, hroot⟩ | ⟨t, hsome, hsmaller, habove⟩
    · rw [hnone, hroot]
    · rw [hsome]
      exact ih t.candidate (hcandidate ▸ hsmaller) habove rfl

end RootSearch

theorem squareRoot_eq_start (hn : 2 ≤ n) (hfits : n + 1 < 2 ^ 32) :
    squareRoot n
      = squareRootFrom n (RootSearch.start n).candidate (RootSearch.start n).next := by
  rw [squareRoot, if_neg (by omega), add_eq hfits, ok_bind]
  rfl

theorem squareRoot_eq (hfits : n + 1 < 2 ^ 32) :
    squareRoot n = .ok (DialGraphics.squareRoot n) := by
  by_cases hsmall : n < 2
  · rw [squareRoot, DialGraphics.squareRoot, if_pos hsmall, if_pos hsmall]
  · have hpos : 0 < n := by omega
    rw [squareRoot_eq_start (by omega) hfits, squareRoot_eq_sqrt]
    exact (RootSearch.isAbove_start hpos).squareRootFrom_eq_sqrt hpos hfits

/-- The root is computed without a stop, and it is the only one. The iteration is never below it:
from wherever the rounds have led it finds the root, and it either is there or comes closer. -/
theorem squareRoot_exact (hn : n < 2 ^ 32 - 1) :
    ∃ r, squareRoot n = .ok r ∧ r * r ≤ n ∧ n < (r + 1) * (r + 1)
      ∧ (∀ q, q * q ≤ n → n < (q + 1) * (q + 1) → q = r)
      ∧ (2 ≤ n → ∀ s, RootSearch.Reaches n (.start n) s →
        squareRootFrom n s.candidate s.next = .ok r ∧ r ≤ s.candidate
          ∧ (s.round? n = none ∧ s.candidate = r
            ∨ ∃ t, s.round? n = some (.ok t) ∧ t.candidate < s.candidate ∧ r ≤ t.candidate)) := by
  have hfits : n + 1 < 2 ^ 32 := by omega
  refine ⟨Nat.sqrt n, ?_, Nat.sqrt_le n, Nat.lt_succ_sqrt n, ?_, ?_⟩
  · rw [squareRoot_eq hfits, squareRoot_eq_sqrt]
  · intro q hlow hhigh
    exact Nat.eq_sqrt.2 ⟨hlow, hhigh⟩
  · intro htwo s hreach
    have hpos : 0 < n := by omega
    have habove := (RootSearch.isAbove_start hpos).of_reaches hpos hfits hreach
    refine ⟨habove.squareRootFrom_eq_sqrt hpos hfits, habove.root_le, ?_⟩
    rcases habove.round?_cases hpos hfits with hdone | ⟨t, hround, hsmaller, hnext⟩
    · exact .inl hdone
    · exact .inr ⟨t, hround, hsmaller, hnext.root_le⟩

/-- The largest number, whose first sum is the largest double word. The first round halves it. -/
theorem squareRoot_exact_largest :
    4294967294 < 2 ^ 32 - 1 ∧ squareRoot 4294967294 = .ok 65535
      ∧ ∃ t, (RootSearch.start 4294967294).round? 4294967294 = some (.ok t)
        ∧ t.candidate < 4294967294 ∧ 65535 ≤ t.candidate := by
  have hn : 4294967294 < 2 ^ 32 - 1 := by decide
  obtain ⟨r, hr, -, -, hunique, hrounds⟩ := squareRoot_exact hn
  have hroot : 65535 = r := hunique 65535 (by decide) (by decide)
  subst hroot
  refine ⟨hn, hr, ?_⟩
  obtain ⟨-, -, hround⟩ := hrounds (by decide) (.start 4294967294) .refl
  rcases hround with ⟨-, hdone⟩ | hround
  · exact absurd hdone (by decide)
  · exact hround

end DialGraphics.Machine
