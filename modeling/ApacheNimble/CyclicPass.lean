import Mathlib.Data.List.Rotate

/-!
# Passing a queue round

The head is taken off so many times, and appended again unless it is the one
to be dropped. Taking the head off an empty queue fails.
-/
namespace CyclicPass

variable {α : Type*} [DecidableEq α] {a : α} {l : List α} {m : Nat}

def pass (a : α) : Nat → List α → Option (List α)
  | 0, l => some l
  | _ + 1, [] => none
  | n + 1, x :: l => pass a n (l ++ [x].filter (· ≠ a))

@[simp] theorem pass_zero (a : α) (l : List α) : pass a 0 l = some l := by
  cases l <;> rfl

@[simp] theorem pass_succ_cons (a x : α) (n : Nat) (l : List α) :
    pass a (n + 1) (x :: l) = pass a n (l ++ [x].filter (· ≠ a)) := rfl

theorem pass_add (a : α) (m n : Nat) (l : List α) :
    pass a (m + n) l = (pass a m l).bind (pass a n) := by
  induction m generalizing l with
  | zero => simp
  | succ m ih =>
    rw [Nat.add_right_comm]
    cases l with
    | nil => rfl
    | cons x l => exact ih _

/-- The part that has been passed follows the part that has not. -/
theorem pass_append (a : α) (xs ys : List α) :
    pass a xs.length (xs ++ ys) = some (ys ++ xs.filter (· ≠ a)) := by
  induction xs generalizing ys with
  | nil => simp
  | cons x xs ih =>
    rw [List.length_cons, List.cons_append, pass_succ_cons, List.append_assoc, ih,
      List.append_assoc, ← List.filter_append]
    rfl

theorem pass_of_le (a : α) (h : m ≤ l.length) :
    pass a m l = some (l.drop m ++ (l.take m).filter (· ≠ a)) := by
  have hpass := pass_append a (l.take m) (l.drop m)
  rwa [List.take_append_drop, List.length_take, Nat.min_eq_left h] at hpass

/-- Once nothing is left to drop, the queue goes round. -/
theorem pass_of_not_mem (h : a ∉ l) (hl : l ≠ []) (n : Nat) : pass a n l = some (l.rotate n) := by
  induction n generalizing l with
  | zero => simp
  | succ n ih =>
    cases l with
    | nil => exact absurd rfl hl
    | cons x l =>
      obtain ⟨hx, hrest⟩ : a ≠ x ∧ a ∉ l := by simpa using h
      have hkeep : [x].filter (· ≠ a) = [x] := by simp [Ne.symm hx]
      rw [pass_succ_cons, hkeep, List.rotate_cons_succ]
      exact ih (by simp [hx, hrest]) (by simp)

/-- More passes than there are entries fail if nothing remains. -/
theorem pass_of_lt (a : α) (h : l.length < m) : pass a m l =
    if l.filter (· ≠ a) = [] then none
    else some ((l.filter (· ≠ a)).rotate (m - l.length)) := by
  obtain ⟨n, rfl⟩ : ∃ n, m = l.length + (n + 1) := ⟨m - l.length - 1, by omega⟩
  rw [pass_add, pass_of_le a (Nat.le_refl _), Option.bind_some, List.drop_length,
    List.take_length, List.nil_append, Nat.add_sub_cancel_left]
  split
  · rename_i hnone
    rw [hnone]
    rfl
  · rename_i hsome
    exact pass_of_not_mem (by simp) hsome (n + 1)

/-- What is put back is not met as an element to be dropped. -/
theorem filter_take_putBack (a x : α) (l : List α) (n : Nat) :
    ((l ++ [x].filter (· ≠ a)).take n).filter (· = a) = (l.take n).filter (· = a) := by
  have hnone : (([x].filter (· ≠ a)).take (n - l.length)).filter (· = a) = [] := by
    rw [List.filter_eq_nil_iff]
    intro y hy
    simpa using (List.mem_filter.mp (List.mem_of_mem_take hy)).2
  rw [List.take_append, List.filter_append, hnone, List.append_nil]

/-- What is met and dropped, and what is left, are all that there was. -/
theorem pass_perm {n : Nat} {l' : List α} (h : pass a n l = some l') :
    (l' ++ (l.take n).filter (· = a)).Perm l := by
  induction n generalizing l with
  | zero =>
    cases (pass_zero a l).symm.trans h
    simp
  | succ n ih =>
    cases l with
    | nil => cases h
    | cons x l =>
      have hrest := ih h
      rw [filter_take_putBack] at hrest
      rw [List.take_succ_cons]
      by_cases hx : x = a
      · have hback : [x].filter (· ≠ a) = [] := by simp [hx]
        rw [hback, List.append_nil] at hrest
        rw [List.filter_cons_of_pos (by simpa using hx)]
        exact List.perm_middle.trans (hrest.cons x)
      · have hback : [x].filter (· ≠ a) = [x] := by simp [hx]
        rw [hback] at hrest
        rw [List.filter_cons_of_neg (by simpa using hx)]
        exact hrest.trans List.perm_append_comm

end CyclicPass
