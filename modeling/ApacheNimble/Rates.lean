import Mathlib.Data.Nat.Basic
import Mathlib.Tactic.Common

/-!
# Amounts counted at two rates

An amount that is counted `b` times a unit is counted again `a` times a unit,
rounded down. Going to the finer rate and back loses at most one.
-/
namespace Rates

variable {a b x y n : Nat}

def convert (a b x : Nat) : Nat := x * a / b

theorem convert_mono (a b : Nat) (h : x ≤ y) : convert a b x ≤ convert a b y :=
  Nat.div_le_div_right (Nat.mul_le_mul_right a h)

/-- At a coarser rate the amount is no larger. -/
theorem convert_le (x : Nat) (h : a ≤ b) : convert a b x ≤ x := by
  unfold convert
  apply Nat.div_le_of_le_mul
  rw [Nat.mul_comm b x]
  exact Nat.mul_le_mul_left x h

theorem convert_lt_iff (hb : 0 < b) : convert a b x < n ↔ x * a < b * n := by
  rw [convert, Nat.div_lt_iff_lt_mul hb, Nat.mul_comm n b]

/-- The way back from a finer rate is exact if nothing was rounded off on the
way there, and one short otherwise. -/
theorem convert_back (x : Nat) (hb : 0 < b) (h : b ≤ a) :
    convert b a (convert a b x) = if x * a % b = 0 then x else x - 1 := by
  have hsplit : x * a / b * b + x * a % b = x * a := Nat.div_add_mod' (x * a) b
  have hlt : x * a % b < b := Nat.mod_lt (x * a) hb
  unfold convert
  by_cases hr : x * a % b = 0
  · rw [if_pos hr]
    rw [hr, Nat.add_zero] at hsplit
    rw [hsplit]
    exact Nat.mul_div_cancel x (by omega)
  · rw [if_neg hr]
    cases x with
    | zero => simp at hr
    | succ x =>
      simp only [Nat.succ_mul] at hsplit hlt hr ⊢
      apply Nat.div_eq_of_lt_le
      · rw [Nat.add_sub_cancel]
        omega
      · rw [Nat.add_sub_cancel, Nat.succ_mul]
        omega

theorem convert_back_bounds (x : Nat) (hb : 0 < b) (h : b ≤ a) :
    convert b a (convert a b x) = x ∨ convert b a (convert a b x) + 1 = x := by
  rw [convert_back x hb h]
  split
  · exact .inl rfl
  · rename_i hr
    cases x with
    | zero => simp at hr
    | succ x => exact .inr rfl

end Rates
