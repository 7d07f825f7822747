import Mathlib.Logic.Function.Basic
import ApacheNimble.Transition

/-!
# A script behind a flag

Any number of callers, of any type `ι`, enter a procedure by exchanging one
flag. The first finds it clear and runs the script on the shared state, one
action at a time, while the others go on; each of them finds it set and panics.
-/
namespace OneShot

open Transition

variable {ι α σ : Type*} [DecidableEq ι]

inductive Pc where
  | absent
  | running (k : Nat)
  | returned
  | panicked
  deriving DecidableEq, Repr

structure State (ι σ : Type*) where
  flag : Bool
  pcs : ι → Pc
  shared : σ

inductive Label (ι : Type*) where
  | enter (i : ι)
  | act (i : ι)
  deriving DecidableEq, Repr

def start (shared : σ) : State ι σ := ⟨false, fun _ => .absent, shared⟩

def State.setPc (s : State ι σ) (i : ι) (pc : Pc) : State ι σ :=
  { s with pcs := Function.update s.pcs i pc }

/-- An action that is undefined panics. After the last one the caller returns. -/
def step (act : α → σ → Option σ) (script : List α) : Label ι → State ι σ → Option (State ι σ)
  | .enter i, s =>
    if s.pcs i = .absent then
      if s.flag then some (s.setPc i .panicked)
      else some { s.setPc i (.running 0) with flag := true }
    else none
  | .act i, s => match s.pcs i with
    | .running k => match script[k]? with
      | none => some (s.setPc i .returned)
      | some a => match act a s.shared with
        | some u => some { s.setPc i (.running (k + 1)) with shared := u }
        | none => some (s.setPc i .panicked)
    | _ => none

variable {act : α → σ → Option σ} {script : List α} {u u' : σ} {s t : State ι σ} {i j : ι}

@[simp] theorem setPc_self (s : State ι σ) (i : ι) (pc : Pc) : (s.setPc i pc).pcs i = pc :=
  Function.update_self ..

theorem setPc_other (s : State ι σ) (pc : Pc) (h : j ≠ i) : (s.setPc i pc).pcs j = s.pcs j :=
  Function.update_of_ne h ..

@[simp] theorem setPc_shared (s : State ι σ) (i : ι) (pc : Pc) :
    (s.setPc i pc).shared = s.shared := rfl

/-- What the caller that got in has done to the shared state. -/
inductive Progress (act : α → σ → Option σ) (script : List α) (u : σ) : Pc → σ → Prop
  | running (k : Nat) (v : σ) : run act (script.take k) u = some v →
      Progress act script u (.running k) v
  | returned (v : σ) : run act script u = some v → Progress act script u .returned v
  | panicked (k : Nat) (a : α) (v : σ) : script[k]? = some a →
      run act (script.take k) u = some v → act a v = none → Progress act script u .panicked v

/-- The caller did not get in. -/
def Out (pc : Pc) : Prop := pc = .absent ∨ pc = .panicked

/-- Nobody has entered yet, or one caller got in and runs the script alone. -/
inductive Once (act : α → σ → Option σ) (script : List α) (u : σ) (s : State ι σ) : Prop
  | closed : s.flag = false → s.shared = u → (∀ i, s.pcs i = .absent) → Once act script u s
  | opened (i : ι) : s.flag = true → Progress act script u (s.pcs i) s.shared →
      (∀ j, j ≠ i → Out (s.pcs j)) → Once act script u s

omit [DecidableEq ι] in
theorem start_once : Once act script u (start u : State ι σ) := .closed rfl rfl (fun _ => rfl)

theorem run_snoc {a : α} {k : Nat} (hk : script[k]? = some a)
    (h : run act (script.take k) u = some u') : run act (script.take (k + 1)) u = act a u' := by
  have htake : script.take (k + 1) = script.take k ++ [a] := by
    rw [List.take_add_one, hk]
    rfl
  rw [htake, run_append, h, Option.bind_some, run_cons]
  cases act a u' <;> rfl

theorem enter_once (h : Once act script u s) (hpc : s.pcs i = .absent) (ht :
    (if s.flag then some (s.setPc i .panicked)
      else some { s.setPc i (.running 0) with flag := true }) = some t) :
    Once act script u t := by
  cases h with
  | closed hflag hshared habsent =>
    rw [hflag, if_neg Bool.false_ne_true] at ht
    cases ht
    refine .opened i rfl ?_ (fun j hj => ?_)
    · rw [show (s.setPc i (.running 0)).pcs i = .running 0 from setPc_self ..]
      exact .running 0 _ (by rw [List.take_zero, run_nil, setPc_shared, hshared])
    · exact .inl ((setPc_other s _ hj).trans (habsent j))
  | opened w hflag hprogress hout =>
    rw [hflag, if_pos rfl] at ht
    cases ht
    have hne : i ≠ w := by
      rintro rfl
      rw [hpc] at hprogress
      cases hprogress
    refine .opened w hflag ?_ (fun j hj => ?_)
    · rw [setPc_other s _ hne.symm]
      exact hprogress
    · by_cases hji : j = i
      · subst hji
        exact .inr (setPc_self ..)
      · rw [setPc_other s _ hji]
        exact hout j hj

/-- Only the caller that got in runs. -/
theorem Once.runner (h : Once act script u s) {k : Nat} (hpc : s.pcs i = .running k) :
    s.flag = true ∧ run act (script.take k) u = some s.shared ∧ ∀ j, j ≠ i → Out (s.pcs j) := by
  cases h with
  | closed _ _ habsent =>
    rw [habsent i] at hpc
    cases hpc
  | opened w hflag hprogress hout =>
    by_cases hi : i = w
    · subst hi
      rw [hpc] at hprogress
      cases hprogress with
      | running k v hrun => exact ⟨hflag, hrun, hout⟩
    · obtain hw | hw := hout i hi
      · rw [hw] at hpc
        cases hpc
      · rw [hw] at hpc
        cases hpc

/-- The runner moves and the others stay where they are. -/
theorem moved_once (hflag : s.flag = true) (hout : ∀ j, j ≠ i → Out (s.pcs j)) {pc : Pc} {v : σ}
    (hprogress : Progress act script u pc v) :
    Once act script u { s.setPc i pc with shared := v } := by
  refine .opened i hflag ?_ (fun j hj => ?_)
  · rw [show (s.setPc i pc).pcs i = pc from setPc_self ..]
    exact hprogress
  · rw [show (s.setPc i pc).pcs j = s.pcs j from setPc_other s pc hj]
    exact hout j hj

theorem act_once (h : Once act script u s) (hstep : step act script (.act i) s = some t) :
    Once act script u t := by
  simp only [step] at hstep
  split at hstep
  · rename_i k hpc
    obtain ⟨hflag, hrun, hout⟩ := h.runner hpc
    split at hstep
    · rename_i hend
      cases hstep
      have hall : script.take k = script :=
        List.take_of_length_le (List.getElem?_eq_none_iff.mp hend)
      rw [hall] at hrun
      exact moved_once hflag hout (.returned _ hrun)
    · rename_i a ha
      split at hstep
      · rename_i v hact
        cases hstep
        exact moved_once hflag hout (.running (k + 1) v (by rw [run_snoc ha hrun, hact]))
      · rename_i hact
        cases hstep
        exact moved_once hflag hout (.panicked k a _ ha hrun hact)
  · cases hstep

theorem step_once (l : Label ι) (s t : State ι σ) (h : Once act script u s)
    (hstep : step act script l s = some t) : Once act script u t := by
  cases l with
  | enter i =>
    obtain ⟨hpc, ht⟩ := Option.ite_none_right_eq_some.mp hstep
    exact enter_once h hpc ht
  | act i => exact act_once h hstep

/-- In every interleaving of any number of callers, one at most gets in, and
the shared state is what a prefix of the script makes of it. -/
theorem run_once {ls : List (Label ι)} (h : run (step act script) ls (start u) = some s) :
    Once act script u s :=
  run_invariant step_once start_once h

omit [DecidableEq ι] in
theorem Once.closed_absent (h : Once act script u s) (hflag : s.flag = false) (i : ι) :
    s.pcs i = .absent := by
  cases h with
  | closed _ _ habsent => exact habsent i
  | opened _ hset => exact absurd (hset.symm.trans hflag) (by decide)

omit [DecidableEq ι] in
theorem Once.opened_out (h : Once act script u s) (hflag : s.flag = true) :
    ∃ i, ∀ j, j ≠ i → Out (s.pcs j) := by
  cases h with
  | closed hclear => exact absurd (hclear.symm.trans hflag) (by decide)
  | opened i _ _ hout => exact ⟨i, hout⟩

/-- Whoever has returned has run the whole script, and nobody else got in. -/
theorem Once.returned (h : Once act script u s) (hpc : s.pcs i = .returned) :
    run act script u = some s.shared ∧ ∀ j, j ≠ i → Out (s.pcs j) := by
  cases h with
  | closed _ _ habsent =>
    rw [habsent i] at hpc
    cases hpc
  | opened w _ hprogress hout =>
    by_cases hi : i = w
    · subst hi
      rw [hpc] at hprogress
      cases hprogress with
      | returned v hrun => exact ⟨hrun, hout⟩
    · obtain hw | hw := hout i hi
      · rw [hw] at hpc
        cases hpc
      · rw [hw] at hpc
        cases hpc

omit [DecidableEq ι] in
/-- The shared state is what some first part of the script has made of it. -/
theorem Once.shared_eq (h : Once act script u s) :
    ∃ as, as <+: script ∧ run act as u = some s.shared := by
  cases h with
  | closed _ hshared => exact ⟨[], List.nil_prefix, by rw [hshared]; rfl⟩
  | opened i _ hprogress =>
    generalize s.pcs i = pc at hprogress
    cases hprogress with
    | running k _ hrun => exact ⟨_, List.take_prefix k script, hrun⟩
    | returned _ hrun => exact ⟨script, List.prefix_rfl, hrun⟩
    | panicked k a _ _ hrun => exact ⟨_, List.take_prefix k script, hrun⟩

theorem Once.returned_unique (h : Once act script u s) (hi : s.pcs i = .returned)
    (hj : s.pcs j = .returned) : i = j := by
  by_contra hne
  obtain hout | hout := (h.returned hj).2 i hne
  · rw [hi] at hout
    cases hout
  · rw [hi] at hout
    cases hout

/-- What is left of the script is defined where the whole script is. -/
theorem run_rest {k : Nat} {v w : σ} (hrun : run act script u = some w)
    (hk : run act (script.take k) u = some v) : run act (script.drop k) v = some w := by
  rw [← List.take_append_drop k script, run_append, hk] at hrun
  exact hrun

/-- Whoever runs the script can go on to its end, whatever the others do. -/
theorem Once.finishes {k : Nat} {w : σ} (h : Once act script u s)
    (hrun : run act script u = some w) (hpc : s.pcs i = .running k) :
    ∃ t, Leads (step act script) (fun l _ => l = .act i) s t ∧ t.pcs i = .returned ∧
      t.shared = w := by
  induction hn : script.length - k generalizing s k with
  | zero =>
    have hall : script.take k = script := List.take_of_length_le (by omega)
    have hend : script[k]? = none := List.getElem?_eq_none (by omega)
    obtain ⟨-, hk, -⟩ := h.runner hpc
    rw [hall, hrun] at hk
    refine ⟨s.setPc i .returned, .step rfl ?_, setPc_self .., (Option.some.inj hk).symm⟩
    simp only [step, hpc, hend]
  | succ m ih =>
    have hlt : k < script.length := by omega
    have ha : script[k]? = some script[k] := List.getElem?_eq_getElem hlt
    have hrest := run_rest hrun (h.runner hpc).2.1
    rw [List.drop_eq_getElem_cons hlt] at hrest
    obtain ⟨v, hv, -⟩ := run_cons_some _ hrest
    have hstep : step act script (.act i) s =
        some { s.setPc i (.running (k + 1)) with shared := v } := by
      simp only [step, hpc, ha, hv]
    obtain ⟨t, hleads, hreturned, hshared⟩ :=
      ih (step_once _ _ _ h hstep) (setPc_self ..) (by omega)
    exact ⟨t, .trans (.step rfl hstep) hleads, hreturned, hshared⟩

omit [DecidableEq ι] in
/-- Where the script is defined, nobody who got in panics. -/
theorem Once.defined {w : σ} (h : Once act script u s) (hrun : run act script u = some w)
    (hflag : s.flag = true) :
    ∃ i, (s.pcs i = .returned ∨ ∃ k, s.pcs i = .running k) ∧ ∀ j, j ≠ i → Out (s.pcs j) := by
  cases h with
  | closed hclear => exact absurd (hclear.symm.trans hflag) (by decide)
  | opened i _ hprogress hout =>
    refine ⟨i, ?_, hout⟩
    generalize s.pcs i = pc at hprogress
    cases hprogress with
    | running k v _ => exact .inr ⟨k, rfl⟩
    | returned v _ => exact .inl rfl
    | panicked k a v ha hk hact =>
      have hrest := run_rest hrun hk
      obtain ⟨hlt, rfl⟩ := List.getElem?_eq_some_iff.mp ha
      rw [List.drop_eq_getElem_cons hlt, run_cons, hact] at hrest
      cases hrest

end OneShot
