import Mathlib.Tactic.Common

/-!
# Bounded first-in first-out channels

A channel holds at most `n` messages. Sending to a full channel and receiving
from an empty one are refused and change nothing.
-/
namespace Fifo

structure Channel (α : Type*) (n : Nat) where
  items : List α
  bounded : items.length ≤ n

namespace Channel

variable {α : Type*} {n : Nat}

@[ext] theorem ext {c d : Channel α n} (h : c.items = d.items) : c = d := by
  cases c
  cases d
  simp only at h
  subst h
  rfl

def empty : Channel α n := ⟨[], Nat.zero_le n⟩

def trySend (c : Channel α n) (a : α) : Option (Channel α n) :=
  if h : c.items.length < n then
    some ⟨c.items ++ [a], by simp only [List.length_append, List.length_singleton]; omega⟩
  else none

def tryReceive (c : Channel α n) : Option (α × Channel α n) :=
  match h : c.items with
  | [] => none
  | a :: rest =>
    some (a, ⟨rest, by have := c.bounded; rw [h] at this; exact Nat.le_of_succ_le this⟩)

def isFull (c : Channel α n) : Bool := decide (n ≤ c.items.length)

@[simp] theorem empty_items : (empty : Channel α n).items = [] := rfl

theorem trySend_eq_some {c d : Channel α n} {a : α} :
    c.trySend a = some d ↔ c.items.length < n ∧ d.items = c.items ++ [a] := by
  unfold trySend
  constructor
  · intro h
    split at h
    · rename_i hlt
      cases h
      exact ⟨hlt, rfl⟩
    · cases h
  · rintro ⟨hlt, hd⟩
    rw [dif_pos hlt]
    exact congrArg some (ext hd.symm)

theorem trySend_eq_none {c : Channel α n} {a : α} : c.trySend a = none ↔ n ≤ c.items.length := by
  unfold trySend
  split <;> simp <;> omega

theorem tryReceive_eq_some {c d : Channel α n} {a : α} :
    c.tryReceive = some (a, d) ↔ c.items = a :: d.items := by
  obtain ⟨l, hl⟩ := c
  cases l with
  | nil => simp [tryReceive]
  | cons b rest =>
    simp only [tryReceive, Option.some.injEq, Prod.mk.injEq, List.cons.injEq]
    constructor
    · rintro ⟨rfl, rfl⟩
      exact ⟨rfl, rfl⟩
    · rintro ⟨rfl, h⟩
      exact ⟨rfl, ext h⟩

theorem tryReceive_eq_none {c : Channel α n} : c.tryReceive = none ↔ c.items = [] := by
  obtain ⟨l, hl⟩ := c
  cases l <;> simp [tryReceive]

/-- A channel with room accepts, at the tail. -/
theorem trySend_of_lt (c : Channel α n) (a : α) (h : c.items.length < n) :
    ∃ d, c.trySend a = some d ∧ d.items = c.items ++ [a] := by
  cases hd : c.trySend a with
  | none => exact absurd (trySend_eq_none.mp hd) (by omega)
  | some d => exact ⟨d, rfl, (trySend_eq_some.mp hd).2⟩

/-- A channel that holds something gives its head. -/
theorem tryReceive_of_cons (c : Channel α n) {a : α} {rest : List α} (h : c.items = a :: rest) :
    ∃ d, c.tryReceive = some (a, d) ∧ d.items = rest := by
  have hb := c.bounded
  rw [h] at hb
  exact ⟨⟨rest, Nat.le_of_succ_le hb⟩, tryReceive_eq_some.mpr h, rfl⟩

/-- A slot for one message accepts it when it is empty. -/
theorem trySend_one {c d : Channel α 1} {a : α} :
    c.trySend a = some d ↔ c.items = [] ∧ d.items = [a] := by
  rw [trySend_eq_some, Nat.lt_one_iff, List.length_eq_zero_iff]
  constructor
  · rintro ⟨hc, hd⟩
    exact ⟨hc, by rw [hd, hc]; rfl⟩
  · rintro ⟨hc, hd⟩
    exact ⟨hc, by rw [hd, hc]; rfl⟩

theorem trySend_one_none {c : Channel α 1} {a : α} : c.trySend a = none ↔ c.items ≠ [] := by
  rw [trySend_eq_none, Nat.one_le_iff_ne_zero, ne_eq, List.length_eq_zero_iff]

theorem items_one (c : Channel α 1) {a : α} (h : a ∈ c.items) : c.items = [a] := by
  have hb := c.bounded
  cases hitems : c.items with
  | nil => simp [hitems] at h
  | cons b rest =>
    rw [hitems, List.length_cons] at hb
    obtain rfl : rest = [] := List.eq_nil_of_length_eq_zero (by omega)
    rw [hitems] at h
    rw [List.mem_singleton.mp h]

/-- A slot for one message is empty after the message has been taken. -/
theorem tryReceive_one {c d : Channel α 1} {a : α} :
    c.tryReceive = some (a, d) ↔ c.items = [a] ∧ d = empty := by
  rw [tryReceive_eq_some]
  constructor
  · intro h
    have hb := c.bounded
    rw [h, List.length_cons] at hb
    have hd : d.items = [] := List.length_eq_zero_iff.mp (by omega)
    exact ⟨by rw [h, hd], ext hd⟩
  · rintro ⟨hc, rfl⟩
    exact hc

theorem isFull_iff (c : Channel α n) : c.isFull = true ↔ n ≤ c.items.length := by
  simp [isFull]

end Channel

end Fifo
