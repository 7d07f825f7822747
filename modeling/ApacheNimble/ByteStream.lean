import ApacheNimble.Transition

/-!
# Streams that are written at one end and read at the other

A stream is the list of what has been written and not yet read. A read takes
exactly as much as it asks for, or nothing if there is less.
-/
namespace ByteStream

open Transition

variable {α : Type*}

inductive Op (α : Type*) where
  | write (xs : List α)
  | read (len : Nat)
  deriving DecidableEq, Repr

/-- The stream after the operation, and what a read has taken. -/
def step : Op α → List α → Option (List α × Option (List α))
  | .write xs, q => some (q ++ xs, none)
  | .read len, q => some (if len ≤ q.length then (q.drop len, some (q.take len)) else (q, none))

/-- All that the operations write. -/
def written : List (Op α) → List α
  | [] => []
  | .write xs :: ops => xs ++ written ops
  | .read _ :: ops => written ops

/-- All that reads have taken. -/
def taken (rets : List (Option (List α))) : List α := (rets.filterMap id).flatten

@[simp] theorem taken_nil : taken ([] : List (Option (List α))) = [] := rfl

@[simp] theorem taken_snoc_none (rets : List (Option (List α))) :
    taken (rets ++ [none]) = taken rets := by
  simp [taken]

@[simp] theorem taken_snoc_some (rets : List (Option (List α))) (xs : List α) :
    taken (rets ++ [some xs]) = taken rets ++ xs := by
  simp [taken]

/-- A step moves what it writes into the stream and what it reads out of it. -/
theorem step_conserves {op : Op α} {q q' : List α} {ret : Option (List α)}
    (h : step op q = some (q', ret)) (rets : List (Option (List α))) :
    taken (rets ++ [ret]) ++ q' = taken rets ++ q ++ written [op] := by
  cases op with
  | write xs =>
    cases h
    simp [written]
  | read len =>
    simp only [step, Option.some.injEq] at h
    split at h
    · cases h
      simp [written]
    · cases h
      simp [written]

theorem written_cons (op : Op α) (ops : List (Op α)) :
    written (op :: ops) = written [op] ++ written ops := by
  cases op <;> simp [written]

/-- In every run, what has been read and what is still in the stream is what was
there before and what has been written, in its order. -/
theorem run_conserves {ops : List (Op α)} {q q' : List α} {rets rets' : List (Option (List α))}
    (h : run (logged step) ops (q, rets) = some (q', rets')) :
    taken rets' ++ q' = taken rets ++ q ++ written ops := by
  induction ops generalizing q rets with
  | nil =>
    cases h
    simp [written]
  | cons op ops ih =>
    obtain ⟨⟨u, us⟩, hu, hrest⟩ := run_cons_some _ h
    obtain ⟨⟨v, ret⟩, hv, he⟩ := Option.map_eq_some_iff.mp hu
    cases he
    have hop : taken (rets ++ [ret]) ++ v = taken rets ++ q ++ written [op] :=
      step_conserves hv rets
    calc taken rets' ++ q' = taken (rets ++ [ret]) ++ v ++ written ops := ih hrest
      _ = taken rets ++ q ++ written [op] ++ written ops := by rw [hop]
      _ = taken rets ++ q ++ written (op :: ops) := by rw [List.append_assoc, ← written_cons]

end ByteStream
