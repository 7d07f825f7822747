import Mathlib.Data.List.FinRange
import Mathlib.Tactic.Common

/-!
# Claiming a slot by scanning

A claimer looks at the slots one after the other and takes the first one that
is free when it looks. Slots are not given back, so what has been passed stays
taken, whoever else takes slots meanwhile.
-/
namespace SlotScan

variable {n : Nat} {taken taken' : Fin n → Bool} {i : Fin n} {k : Nat}

def first (taken : Fin n → Bool) : Option (Fin n) := (List.finRange n).find? (fun i => !taken i)

/-- All slots before the position are taken. -/
def Passed (taken : Fin n → Bool) (k : Nat) : Prop := ∀ i : Fin n, i.val < k → taken i = true

theorem passed_zero (taken : Fin n → Bool) : Passed taken 0 := nofun

theorem Passed.succ (h : Passed taken i.val) (hi : taken i = true) : Passed taken (i.val + 1) := by
  intro j hj
  by_cases hji : j = i
  · rw [hji]
    exact hi
  · exact h j (by omega)

theorem Passed.mono (h : Passed taken k) (hmono : ∀ i, taken i = true → taken' i = true) :
    Passed taken' k :=
  fun i hi => hmono i (h i hi)

/-- A free slot behind passed ones is the first one free, now. -/
theorem Passed.first_eq (h : Passed taken i.val) (hi : taken i = false) :
    first taken = some i := by
  rw [first, List.find?_eq_some_iff_getElem]
  refine ⟨by simp [hi], i.val, by simp, by simp, ?_⟩
  intro j hj
  simpa using h ⟨j, by omega⟩ hj

theorem Passed.first_eq_none (h : Passed taken n) : first taken = none := by
  rw [first, List.find?_eq_none]
  intro i _
  simp [h i i.isLt]

end SlotScan
