import Mathlib.Algebra.Order.Ring.Abs
import Mathlib.Tactic.Linarith
import Mathlib.Tactic.LinearCombination
import Mathlib.Tactic.Positivity
import Mathlib.Tactic.Ring

/-!
# How close multiples of one number come to multiples of another

Euclid's algorithm for `b` and `a` reaches each remainder as the distance of a multiple of `a` from a
multiple of `b`.  Two consecutive steps span all these distances, so that a multiple with a smaller
factor than the later step is no closer than the remainder of the earlier one.
-/

namespace FieldGraph.Number

/-- Two consecutive remainders of Euclid's algorithm, each with the factor that leaves it. -/
structure Remainders where
  last : ℕ
  next : ℕ
  lastFactor : ℕ
  nextFactor : ℕ
deriving DecidableEq

namespace Remainders

def start (a b : ℕ) : Remainders := ⟨b, a % b, 0, 1⟩

def step (r : Remainders) : Remainders :=
  ⟨r.next, r.last % r.next, r.nextFactor, r.lastFactor + r.last / r.next * r.nextFactor⟩

/-- The steps up to a factor past `n`, or to the end of the algorithm. -/
def upTo (n : ℕ) : ℕ → Remainders → Remainders
  | 0, r => r
  | fuel + 1, r => if n < r.nextFactor ∨ r.next = 0 then r else upTo n fuel r.step

/-- Every distance of a multiple of `a` from one of `b` is made of the two remainders, which lie on
different sides, just as its factor is made of their factors. -/
def Spans (a b : ℕ) (r : Remainders) : Prop :=
  ∃ ε : ℤ, |ε| = 1 ∧ ∀ d m : ℤ, ∃ i j : ℤ,
    d = i * r.lastFactor + j * r.nextFactor ∧ d * a - m * b = ε * (i * r.last - j * r.next)

theorem Spans.start (a b : ℕ) : Spans a b (start a b) := by
  refine ⟨-1, by simp, fun d m ↦ ⟨m - d * (a / b : ℕ), d, by simp [Remainders.start], ?_⟩⟩
  have hmod : (a : ℤ) = b * (a / b : ℕ) + (a % b : ℕ) := by exact_mod_cast (Nat.div_add_mod a b).symm
  rw [Remainders.start]
  linear_combination d * hmod

variable {a b : ℕ} {r : Remainders}

theorem Spans.step (h : Spans a b r) : Spans a b r.step := by
  obtain ⟨ε, hε, h⟩ := h
  refine ⟨-ε, by rwa [abs_neg], fun d m ↦ ?_⟩
  obtain ⟨i, j, hd, hm⟩ := h d m
  have hmod : (r.last : ℤ) = r.next * (r.last / r.next : ℕ) + (r.last % r.next : ℕ) := by
    exact_mod_cast (Nat.div_add_mod r.last r.next).symm
  -- the older of the two is the later one added to the newer a number of times
  refine ⟨j - i * (r.last / r.next : ℕ), i, ?_, ?_⟩
  · rw [hd, Remainders.step]
    push_cast
    ring
  · rw [hm, Remainders.step]
    linear_combination ε * i * hmod

theorem Spans.upTo (h : Spans a b r) (n fuel : ℕ) : Spans a b (upTo n fuel r) := by
  induction fuel generalizing r with
  | zero => exact h
  | succ fuel ih =>
      rw [Remainders.upTo]
      split
      · exact h
      · exact ih h.step

/-- A factor that is no multiple of the later one leaves at least the earlier remainder, less what
the later one can take away from it. -/
theorem Spans.le_abs (h : Spans a b r) (ht : 0 < r.nextFactor) {d n : ℕ} (hd : 0 < d) (hn : d ≤ n)
    (m : ℤ) :
    r.nextFactor ∣ d ∨ (r.last : ℤ) ≤ |d * a - m * b| + (n / r.nextFactor : ℕ) * r.next := by
  obtain ⟨ε, hε, h⟩ := h
  obtain ⟨i, j, hd', hm⟩ := h d m
  have hlast : (0 : ℤ) ≤ r.last := Int.natCast_nonneg _
  have hnext : (0 : ℤ) ≤ r.next := Int.natCast_nonneg _
  have hfactor : (0 : ℤ) ≤ r.lastFactor := Int.natCast_nonneg _
  have hbound : (0 : ℤ) ≤ (n / r.nextFactor : ℕ) * r.next := by positivity
  have ht' : (0 : ℤ) < r.nextFactor := by exact_mod_cast ht
  have hdpos : (0 : ℤ) < d := by exact_mod_cast hd
  rw [hm, abs_mul, hε, one_mul]
  rcases lt_trichotomy i 0 with hi | rfl | hi
  · -- the factor is positive, so the two parts of the distance have the same sign
    refine .inr ?_
    have hj : 0 < j := by
      by_contra hj
      nlinarith only [hj, hi, hd', hdpos, ht', hfactor]
    have hle : (r.last : ℤ) ≤ -(i * r.last - j * r.next) := by nlinarith only [hi, hj, hlast, hnext]
    linarith [neg_le_abs (i * (r.last : ℤ) - j * r.next)]
  · rw [zero_mul, zero_add] at hd'
    exact .inl (Int.natCast_dvd_natCast.1 ⟨j, by rw [hd', mul_comm]⟩)
  · refine .inr ?_
    have hj : j ≤ (n / r.nextFactor : ℕ) := by
      have hle : j * r.nextFactor ≤ n := by
        have hnonneg : 0 ≤ i * r.lastFactor := mul_nonneg hi.le hfactor
        have : (d : ℤ) ≤ n := by exact_mod_cast hn
        linarith
      rw [Int.natCast_ediv]
      exact (Int.le_ediv_iff_mul_le ht').2 hle
    have hle : (r.last : ℤ) ≤ i * r.last - j * r.next + (n / r.nextFactor : ℕ) * r.next := by
      nlinarith only [hi, hj, hlast, hnext]
    linarith [le_abs_self (i * (r.last : ℤ) - j * r.next)]

/-- At the end of the algorithm every distance is a multiple of the last remainder. -/
theorem Spans.le_abs_of_next_eq_zero (h : Spans a b r) (hr : r.next = 0) (d m : ℤ) :
    d * a = m * b ∨ (r.last : ℤ) ≤ |d * a - m * b| := by
  obtain ⟨ε, hε, h⟩ := h
  obtain ⟨i, j, -, hm⟩ := h d m
  rw [hr, Nat.cast_zero, mul_zero, sub_zero] at hm
  by_cases hi : i = 0
  · rw [hi, zero_mul, mul_zero] at hm
    exact .inl (sub_eq_zero.1 hm)
  · refine .inr ?_
    rw [hm, abs_mul, hε, one_mul, abs_mul, Nat.abs_cast]
    exact le_mul_of_one_le_left (Int.natCast_nonneg _) (Int.one_le_abs hi)

end Remainders

open Remainders in
/-- A distance that no multiple of `a` with a factor up to `n` falls below, unless it is a multiple
of `b` itself. -/
def distance (a b n : ℕ) : ℕ :=
  let r := upTo n 64 (start a b)
  if n < r.nextFactor ∨ r.next = 0 then r.last else 0

theorem distance_le {a b d n : ℕ} (hd : 0 < d) (hn : d ≤ n) (m : ℕ) :
    d * a = m * b ∨ (distance a b n : ℤ) ≤ |(d : ℤ) * a - m * b| := by
  have hspans := (Remainders.Spans.start a b).upTo n 64
  rw [distance]
  split
  next h =>
    rcases h with h | h
    · rcases hspans.le_abs (Nat.zero_lt_of_lt h) hd hn m with hdvd | hle
      · exact absurd (Nat.le_of_dvd hd hdvd) (by omega)
      · rw [Nat.div_eq_of_lt h] at hle
        exact .inr (by simpa using hle)
    · exact (hspans.le_abs_of_next_eq_zero h d m).imp_left fun h ↦ by exact_mod_cast h
  next => exact .inr (abs_nonneg _)

end FieldGraph.Number
