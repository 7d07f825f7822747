import Mathlib.Tactic.Common
import ApacheNimble.Transition

/-!
# A link with one request at a time

One end asks and waits, the other answers, and what it sends besides comes out
in the order in which it was sent.
-/
namespace Link

open Transition

variable {κ α : Type*}

/-- Where the request is that is in progress. -/
inductive Turn (κ α : Type*) where
  | free
  | asked (k : κ)
  | answered (k : κ) (a : α)

structure State (κ α : Type*) where
  turn : Turn κ α
  stream : List α

def start : State κ α := ⟨.free, []⟩

inductive Action (κ α : Type*) where
  | ask (k : κ)
  | answer (k : κ) (a : α)
  | take (k : κ) (a : α)
  | send (a : α)
  | deliver (a : α)

/-- The asker whose turn it is. -/
def Turn.asker : Turn κ α → List κ
  | .free => []
  | .asked k => [k]
  | .answered k _ => [k]

/-- The answer that has not been taken. -/
def Turn.reply : Turn κ α → List (κ × α)
  | .answered k a => [(k, a)]
  | _ => []

def asks : Action κ α → Option κ
  | .ask k => some k
  | _ => none

def answers : Action κ α → Option (κ × α)
  | .answer k a => some (k, a)
  | _ => none

def takes : Action κ α → Option (κ × α)
  | .take k a => some (k, a)
  | _ => none

def sends : Action κ α → Option α
  | .send a => some a
  | _ => none

def delivers : Action κ α → Option α
  | .deliver a => some a
  | _ => none

/-- Askers are served in the order in which they ask, each takes the answer to its
own request, and what was sent has been delivered or is still there. -/
structure Account (as : List (Action κ α)) (s : State κ α) : Prop where
  served : as.filterMap asks = (as.filterMap takes).map (·.1) ++ s.turn.asker
  answered : as.filterMap answers = as.filterMap takes ++ s.turn.reply
  streamed : as.filterMap sends = as.filterMap delivers ++ s.stream

theorem start_account : Account ([] : List (Action κ α)) start := ⟨rfl, rfl, rfl⟩

variable [DecidableEq κ] [DecidableEq α] {s t : State κ α} {as : List (Action κ α)}

def step (act : Action κ α) (s : State κ α) : Option (State κ α) :=
  match act, s.turn with
  | .ask k, .free => some { s with turn := .asked k }
  | .answer k a, .asked k' => if k = k' then some { s with turn := .answered k a } else none
  | .take k a, .answered k' a' => if k = k' ∧ a = a' then some { s with turn := .free } else none
  | .send a, _ => some { s with stream := s.stream ++ [a] }
  | .deliver a, _ =>
    if s.stream.head? = some a then some { s with stream := s.stream.tail } else none
  | _, _ => none

/-- Each action that is possible, and what it does. -/
inductive Effect (s : State κ α) : Action κ α → State κ α → Prop
  | ask (k : κ) : s.turn = .free → Effect s (.ask k) { s with turn := .asked k }
  | answer (k : κ) (a : α) : s.turn = .asked k →
      Effect s (.answer k a) { s with turn := .answered k a }
  | take (k : κ) (a : α) : s.turn = .answered k a → Effect s (.take k a) { s with turn := .free }
  | send (a : α) : Effect s (.send a) { s with stream := s.stream ++ [a] }
  | deliver (a : α) (rest : List α) : s.stream = a :: rest →
      Effect s (.deliver a) { s with stream := rest }

theorem step_effect {act : Action κ α} (h : step act s = some t) : Effect s act t := by
  unfold step at h
  split at h
  · rename_i k hturn
    cases h
    exact .ask k hturn
  · rename_i k a k' hturn
    obtain ⟨rfl, he⟩ := Option.ite_none_right_eq_some.mp h
    cases he
    exact .answer k a hturn
  · rename_i k a k' a' hturn
    obtain ⟨⟨rfl, rfl⟩, he⟩ := Option.ite_none_right_eq_some.mp h
    cases he
    exact .take k a hturn
  · rename_i a
    cases h
    exact .send a
  · rename_i a
    obtain ⟨hhead, he⟩ := Option.ite_none_right_eq_some.mp h
    cases he
    obtain ⟨rest, hrest⟩ := List.head?_eq_some_iff.mp hhead
    rw [hrest]
    exact .deliver a rest hrest
  · cases h

theorem step_ask {k : κ} (h : s.turn = .free) :
    step (.ask k) s = some { s with turn := .asked k } := by
  simp [step, h]

theorem step_answer {k : κ} (a : α) (h : s.turn = .asked k) :
    step (.answer k a) s = some { s with turn := .answered k a } := by
  simp [step, h]

theorem step_take {k : κ} {a : α} (h : s.turn = .answered k a) :
    step (.take k a) s = some { s with turn := .free } := by
  simp [step, h]

theorem step_send (a : α) (s : State κ α) :
    step (.send a) s = some { s with stream := s.stream ++ [a] } := rfl

theorem step_deliver {a : α} {rest : List α} (h : s.stream = a :: rest) :
    step (.deliver a) s = some { s with stream := rest } := by
  simp [step, h]

theorem step_account {act : Action κ α} (hs : Account as s) (h : step act s = some t) :
    Account (as ++ [act]) t := by
  obtain ⟨hserved, hanswered, hstreamed⟩ := hs
  cases step_effect h with
  | ask k hturn | answer k a hturn | take k a hturn =>
    constructor <;> simp [List.filterMap_cons, asks, answers, takes, sends, delivers, Turn.asker,
      Turn.reply, hserved, hanswered, hstreamed, hturn]
  | send a =>
    constructor <;> simp [List.filterMap_cons, asks, answers, takes, sends, delivers, hserved,
      hanswered, hstreamed]
  | deliver a rest hstream =>
    constructor <;> simp [List.filterMap_cons, asks, answers, takes, sends, delivers, hserved,
      hanswered, hstreamed, hstream]

theorem run_account (h : run step as start = some s) : Account as s :=
  run_history (fun _ _ _ _ hs hstep => step_account hs hstep) start_account h

end Link
