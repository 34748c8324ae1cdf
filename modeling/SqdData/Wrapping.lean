import Mathlib

/-!
# Numbers of a fixed width

The successor and the difference of numbers of `width` bits, as the machine computes them: the
greatest number is followed by zero, and what is below zero continues at the top. Read with a sign,
the upper half of the numbers is negative.
-/

namespace Wrapping

variable {width n : Nat}

def succ (width n : Nat) : Nat := (n + 1) % 2 ^ width

def sub (width m n : Nat) : Nat := (m + 2 ^ width - n) % 2 ^ width

def signed (width n : Nat) : Int := if 2 * n < 2 ^ width then n else n - (2 ^ width : Nat)

theorem succ_of_lt (h : n + 1 < 2 ^ width) : succ width n = n + 1 := Nat.mod_eq_of_lt h

theorem succ_le : succ width n ≤ n + 1 := Nat.mod_le _ _

theorem succ_lt : succ width n < 2 ^ width := Nat.mod_lt _ (Nat.two_pow_pos width)

/-- The only number that has no larger one after it is the greatest one. -/
theorem succ_cases (h : n < 2 ^ width) :
    succ width n = n + 1 ∨ (n + 1 = 2 ^ width ∧ succ width n = 0) := by
  rcases Nat.lt_or_ge (n + 1) (2 ^ width) with hlt | hge
  · exact Or.inl (succ_of_lt hlt)
  · have heq : n + 1 = 2 ^ width := by omega
    refine Or.inr ⟨heq, ?_⟩
    rw [succ, heq, Nat.mod_self]

theorem sub_of_le {m : Nat} (h : n ≤ m) (hm : m < 2 ^ width) : sub width m n = m - n := by
  rw [sub, show m + 2 ^ width - n = m - n + 2 ^ width by omega, Nat.add_mod_right,
    Nat.mod_eq_of_lt (by omega)]

theorem zero_sub (h : 0 < n) (hn : n ≤ 2 ^ width) : sub width 0 n = 2 ^ width - n := by
  rw [sub, Nat.zero_add, Nat.mod_eq_of_lt (by omega)]

theorem signed_neg_iff (h : n < 2 ^ width) : signed width n < 0 ↔ 2 ^ width ≤ 2 * n := by
  unfold signed
  split <;> omega

theorem signed_eq_iff {m : Nat} (hm : m < 2 ^ width) (hn : n < 2 ^ width) :
    signed width m = signed width n ↔ m = n := by
  unfold signed
  split <;> split <;> omega

/-- The order with a sign is the plain one within each half, and the upper half comes first. -/
theorem signed_le_iff {m : Nat} (hm : m < 2 ^ width) (hn : n < 2 ^ width) :
    signed width m ≤ signed width n ↔
      m ≤ n ∧ (2 * m < 2 ^ width → 2 * n < 2 ^ width) ∨
        2 ^ width ≤ 2 * m ∧ 2 * n < 2 ^ width := by
  unfold signed
  split <;> split <;> omega

end Wrapping
