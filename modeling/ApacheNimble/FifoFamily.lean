import Mathlib.Logic.Function.Basic
import Mathlib.Tactic.Common

/-!
# A family of independent first-in first-out lists

Lists are created under a key, at most so many of them over the whole life of
the family; a list that is created again starts afresh. Every operation works
on the list of its own key. The operations are undefined on a key that has no
list.
-/
namespace FifoFamily

structure Family (κ α : Type*) where
  lists : κ → Option (List α)
  created : Nat

variable {κ α : Type*}

def empty : Family κ α := ⟨fun _ => none, 0⟩

@[simp] theorem empty_lists (k : κ) : (empty : Family κ α).lists k = none := rfl
@[simp] theorem empty_created : (empty : Family κ α).created = 0 := rfl

variable [DecidableEq κ]

def Family.set (f : Family κ α) (k : κ) (l : List α) : Family κ α :=
  { f with lists := Function.update f.lists k (some l) }

@[simp] theorem set_created (f : Family κ α) (k : κ) (l : List α) :
    (f.set k l).created = f.created := rfl
@[simp] theorem set_same (f : Family κ α) (k : κ) (l : List α) :
    (f.set k l).lists k = some l := by simp [Family.set]
theorem set_other (f : Family κ α) (k k' : κ) (l : List α) (h : k' ≠ k) :
    (f.set k l).lists k' = f.lists k' := by simp [Family.set, h]

/-- A fresh empty list, as long as fewer than `limit` have been created. -/
def create (limit : Nat) (k : κ) (f : Family κ α) : Option (Family κ α) :=
  if f.created < limit then some { f.set k [] with created := f.created + 1 } else none

/-- Append at the tail of a list that holds fewer than `capacity` entries. -/
def put (capacity : Nat) (k : κ) (a : α) (f : Family κ α) : Option (Family κ α) :=
  (f.lists k).bind (fun l => if l.length < capacity then some (f.set k (l ++ [a])) else none)

/-- Take the head, or find the list empty and change nothing. -/
def get (k : κ) (f : Family κ α) : Option (Family κ α × Option α) :=
  (f.lists k).map (fun l => match l with
    | [] => (f, none)
    | a :: rest => (f.set k rest, some a))

/-- Drop every occurrence of an entry. -/
def remove [DecidableEq α] (k : κ) (a : α) (f : Family κ α) : Option (Family κ α) :=
  (f.lists k).map (fun l => f.set k (l.filter (· ≠ a)))

theorem create_eq_some {limit : Nat} {k : κ} {f g : Family κ α} :
    create limit k f = some g ↔
      f.created < limit ∧ g = { f.set k [] with created := f.created + 1 } := by
  unfold create
  by_cases h : f.created < limit <;> simp [h, eq_comm]

theorem put_eq_some {capacity : Nat} {k : κ} {a : α} {f g : Family κ α} :
    put capacity k a f = some g ↔
      ∃ l, f.lists k = some l ∧ l.length < capacity ∧ g = f.set k (l ++ [a]) := by
  unfold put
  cases f.lists k with
  | none => simp
  | some l => by_cases h : l.length < capacity <;> simp [h, eq_comm]

theorem get_eq_some {k : κ} {f g : Family κ α} {r : Option α} :
    get k f = some (g, r) ↔
      (f.lists k = some [] ∧ g = f ∧ r = none) ∨
      ∃ a l, f.lists k = some (a :: l) ∧ g = f.set k l ∧ r = some a := by
  unfold get
  cases f.lists k with
  | none => simp
  | some l => cases l <;> simp [eq_comm]

theorem remove_eq_some [DecidableEq α] {k : κ} {a : α} {f g : Family κ α} :
    remove k a f = some g ↔ ∃ l, f.lists k = some l ∧ g = f.set k (l.filter (· ≠ a)) := by
  unfold remove
  cases f.lists k <;> simp [eq_comm]

end FifoFamily
