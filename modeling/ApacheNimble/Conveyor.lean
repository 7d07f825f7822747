import Mathlib.Data.List.Perm.Subperm
import Mathlib.Tactic.Common

/-!
# What goes through a queue

Everything that was put is still there, has come out or has been dropped. What
is there or has come out is in the order in which it was put.
-/
namespace Conveyor

variable {α κ : Type*} {puts dropped rest xs l l' : List α}

/-- The rest and what was dropped are what was put, each as often. -/
def Balanced (puts dropped rest : List α) : Prop := (rest ++ dropped).Perm puts

/-- The rest is also in the order in which it was put. -/
structure Conveyed (puts dropped rest : List α) : Prop where
  sublist : rest.Sublist puts
  balanced : Balanced puts dropped rest

theorem balanced_nil : Balanced ([] : List α) [] [] := List.Perm.refl _

theorem Balanced.put (h : Balanced puts dropped rest) (a : α) :
    Balanced (puts ++ [a]) dropped (rest ++ [a]) := by
  have hmove : (rest ++ [a] ++ dropped).Perm (rest ++ dropped ++ [a]) := by
    rw [List.append_assoc, List.append_assoc]
    exact List.perm_append_comm.append_left rest
  exact hmove.trans (List.Perm.append_right [a] h)

/-- Some elements at the end are dropped, and the others may have moved. -/
theorem Balanced.drop (h : Balanced puts dropped (xs ++ l)) {as : List α}
    (hsplit : (l' ++ as).Perm l) : Balanced puts (dropped ++ as) (xs ++ l') := by
  have hmove : (xs ++ l' ++ (dropped ++ as)).Perm (xs ++ l' ++ (as ++ dropped)) :=
    List.perm_append_comm.append_left _
  have hback : (xs ++ (l' ++ as) ++ dropped).Perm (xs ++ l ++ dropped) :=
    (hsplit.append_left xs).append_right dropped
  rw [← List.append_assoc xs, List.append_assoc] at hback
  exact (hmove.trans hback).trans h

theorem conveyed_nil : Conveyed ([] : List α) [] [] := ⟨List.Sublist.refl _, balanced_nil⟩

theorem Conveyed.put (h : Conveyed puts dropped rest) (a : α) :
    Conveyed (puts ++ [a]) dropped (rest ++ [a]) where
  sublist := h.sublist.append (List.Sublist.refl _)
  balanced := h.balanced.put a

theorem Conveyed.drop (h : Conveyed puts dropped (xs ++ l)) {as : List α} (hsub : l'.Sublist l)
    (hsplit : (l' ++ as).Perm l) : Conveyed puts (dropped ++ as) (xs ++ l') where
  sublist := ((List.Sublist.refl xs).append hsub).trans h.sublist
  balanced := h.balanced.drop hsplit

theorem Conveyed.dropAll (h : Conveyed puts dropped (xs ++ l)) :
    Conveyed puts (dropped ++ l) (xs ++ []) :=
  h.drop (List.nil_sublist l) (List.Perm.refl l)

theorem Conveyed.remove [DecidableEq α] (h : Conveyed puts dropped (xs ++ l)) (a : α) :
    Conveyed puts (dropped ++ l.filter (· = a)) (xs ++ l.filter (· ≠ a)) := by
  refine h.drop List.filter_sublist ?_
  have hsplit := List.filter_append_perm (fun b => decide (b ≠ a)) l
  simpa using hsplit

/-- Of every kind of element of which none was dropped, the rest has all that
was put. -/
theorem Conveyed.kept (h : Conveyed puts dropped rest) (P : α → Bool)
    (hP : ∀ a ∈ dropped, P a = false) : rest.filter P = puts.filter P := by
  have hperm := h.balanced.filter P
  have hnone : dropped.filter P = [] := List.filter_eq_nil_iff.mpr (by simpa using hP)
  rw [List.filter_append, hnone, List.append_nil] at hperm
  exact (h.sublist.filter P).eq_of_length hperm.length_eq

/-- The part of a log that concerns one queue. -/
def on [DecidableEq κ] (k : κ) (log : List (κ × α)) : List α :=
  (log.filter (fun e => e.1 = k)).map (·.2)

variable [DecidableEq κ]

@[simp] theorem on_append (k : κ) (log log' : List (κ × α)) :
    on k (log ++ log') = on k log ++ on k log' := by
  simp [on]

@[simp] theorem on_self (k : κ) (as : List α) : on k (as.map (fun a => (k, a))) = as := by
  simp [on, List.filter_map, Function.comp_def]

theorem on_other {k k' : κ} (h : k' ≠ k) (as : List α) :
    on k' (as.map (fun a => (k, a))) = [] := by
  simp [on, List.filter_map, Function.comp_def, Ne.symm h]

theorem count_on [DecidableEq α] (k : κ) (a : α) (log : List (κ × α)) :
    (on k log).count a = log.count (k, a) := by
  induction log with
  | nil => rfl
  | cons e log ih =>
    obtain ⟨k', b⟩ := e
    by_cases hk : k' = k
    · subst hk
      simp only [on, List.filter_cons, decide_true, if_true, List.map_cons] at ih ⊢
      simp only [List.count_cons, ih, beq_iff_eq, Prod.mk.injEq, true_and]
    · simp only [on, List.filter_cons, hk, decide_false, Bool.false_eq_true, if_false] at ih ⊢
      simp [ih, hk]

/-- If no queue gives an element more often than it got it, all queues together
do not. -/
theorem countP_le [DecidableEq α] {outs ins : List (κ × α)} (a : α)
    (h : ∀ k, (on k outs).count a ≤ (on k ins).count a) :
    outs.countP (fun e => e.2 = a) ≤ ins.countP (fun e => e.2 = a) := by
  rw [List.countP_eq_length_filter, List.countP_eq_length_filter]
  apply List.Subperm.length_le
  rw [List.subperm_ext_iff]
  intro e he
  obtain ⟨-, hea⟩ := List.mem_filter.mp he
  rw [List.count_filter (p := fun e : κ × α => e.2 = a) hea,
    List.count_filter (p := fun e : κ × α => e.2 = a) hea]
  obtain ⟨k, b⟩ := e
  obtain rfl : b = a := by simpa using hea
  rw [← count_on, ← count_on]
  exact h k

end Conveyor
