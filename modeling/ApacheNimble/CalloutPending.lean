import ApacheNimble.Callout

/-!
# Whether an active callout can still fire

The wake that a reset asks for may come before the reset stores `active`. The
callback then finds the callout inactive, and the store that follows leaves it
active with nothing in the timer queue.
-/
namespace CalloutPending

open PortLayer Callout Transition

variable {profile : Profile} {s t : State} {l : Label} {c : Ptr}

/-- An active callout has a pending wake, unless a reset of it is in progress. -/
def NoneLost (s : State) : Prop :=
  ∀ c ∈ s.known, s.pcs c = .idle → bleNplCalloutIsActive c s.timed.npl = true →
    Wakes c s.timed.timers

/-- No wake of a callout runs between the call of `schedule_wake` and the store
of `active` by its reset, unless another wake of it stays pending. -/
def KeepsWake : Label → State → Prop
  | .resetSchedule c .immediate, s => Wakes c s.timed.timers
  | .wake w, s => s.pcs w.callout = .activating → Wakes w.callout (s.timed.timers.erase w)
  | _, _ => True

/-- A callout that is active or about to be has a pending wake, and only
initialised callouts are reset. -/
structure Covered (s : State) : Prop where
  wakes : ∀ c ∈ s.known, s.pcs c = .activating ∨ (s.timed.npl.callouts c).active = true →
    Wakes c s.timed.timers
  known : ∀ c, s.pcs c ≠ .idle → c ∈ s.known

theorem start_covered (npl : Npl) (now : UInt64) : Covered (start npl now) where
  wakes := by simp [start]
  known := by simp [start]

theorem Covered.noneLost (h : Covered s) : NoneLost s :=
  fun c hc _ hactive => h.wakes c hc (.inr hactive)

theorem step_known (hknown : ∀ c, s.pcs c ≠ .idle → c ∈ s.known)
    (h : step profile l s = some t) : ∀ c, t.pcs c ≠ .idle → c ∈ t.known := by
  intro d hd
  cases step_effect h with
  | init => exact List.mem_cons_of_mem _ (hknown d hd)
  | resetExpiresAt c ticks e npl hc =>
    by_cases hdc : d = c
    · rw [hdc]
      exact hc
    · exact hknown d (by simpa [hdc] using hd)
  | recorded c timers hpc | merged c timers hpc | immediate c npl hpc =>
    by_cases hdc : d = c
    · exact hknown d (by simp [hdc, hpc])
    · exact hknown d (by simpa [hdc] using hd)
  | resetActive c =>
    by_cases hdc : d = c
    · simp [hdc] at hd
    · exact hknown d (by simpa [hdc] using hd)
  | stop | wake | clock | queue => exact hknown d hd

theorem step_covered (hs : Covered s) (hkeep : KeepsWake l s) (h : step profile l s = some t) :
    Covered t := by
  refine ⟨?_, step_known hs.known h⟩
  intro d hd hor
  cases step_effect h with
  | init c evq evCb evArg npl hidle hnpl =>
    by_cases hdc : d = c
    · subst hdc
      simp [hnpl, hidle] at hor
    · simp only [hnpl, Function.update_of_ne hdc] at hor
      exact hs.wakes d ((List.mem_cons.mp hd).resolve_left hdc) hor
  | resetExpiresAt c ticks e npl hc hidle hadd hnpl =>
    apply hs.wakes d hd
    by_cases hdc : d = c
    · subst hdc
      exact .inr (by simpa [hnpl] using hor)
    · simpa [hnpl, hdc] using hor
  | recorded c timers hpc htimers =>
    rw [htimers]
    by_cases hdc : d = c
    · exact (wakes_cons ..).mpr (.inl hdc.symm)
    · exact (wakes_cons ..).mpr (.inr (hs.wakes d hd (by simpa [hdc] using hor)))
  | merged c timers hpc htimers =>
    rw [htimers]
    by_cases hdc : d = c
    · exact (wakes_cons ..).mpr (.inl hdc.symm)
    · obtain ⟨w, hw, he⟩ := hs.wakes d hd (by simpa [hdc] using hor)
      refine (wakes_cons ..).mpr (.inr ⟨w, ?_, he⟩)
      simp [hw, he, hdc]
  | immediate c npl hpc hdue hnpl =>
    by_cases hdc : d = c
    · rw [hdc]
      exact hkeep
    · exact hs.wakes d hd (by simpa [hnpl, hdc] using hor)
  | resetActive c hpc =>
    by_cases hdc : d = c
    · exact hs.wakes d hd (.inl (by rw [hdc, hpc]))
    · exact hs.wakes d hd (by simpa [hdc] using hor)
  | stop c =>
    by_cases hdc : d = c
    · exact hs.wakes d hd (.inl (by simpa [hdc] using hor))
    · exact hs.wakes d hd (by simpa [hdc] using hor)
  | wake w npl hw hdue hnpl =>
    by_cases hdc : d = w.callout
    · rw [hdc]
      exact hkeep (by simpa [hnpl, hdc] using hor)
    · have hwakes := hs.wakes d hd (by simpa [hnpl, hdc] using hor)
      exact wakes_erase_of_ne hwakes (Ne.symm hdc)
  | clock now hle => exact hs.wakes d hd hor
  | queue op npl hnpl =>
    rw [hnpl] at hor
    exact hs.wakes d hd hor

/-- The reset of the callout is about to activate it without a wake. -/
structure Doomed (c : Ptr) (s : State) : Prop where
  known : c ∈ s.known
  pc : s.pcs c = .activating
  wakes : ¬ Wakes c s.timed.timers

/-- A step that does not meet the condition dooms its callout. -/
theorem doomed_of_not_keepsWake (hs : ∀ c, s.pcs c ≠ .idle → c ∈ s.known)
    (hnot : ¬ KeepsWake l s) (h : step profile l s = some t) : ∃ c, Doomed c t := by
  cases step_effect h with
  | immediate c npl hpc => exact ⟨c, hs c (by simp [hpc]), by simp, hnot⟩
  | wake w npl =>
    obtain ⟨hpc, hno⟩ := Classical.not_imp.mp hnot
    exact ⟨w.callout, hs _ (by simp [hpc]), hpc, hno⟩
  | init | resetExpiresAt | recorded | merged | resetActive | stop | clock | queue =>
    exact absurd trivial hnot

/-- Only its own store of `active` ends the doom, and then the callout is lost. -/
theorem step_doomed (hs : Doomed c s) (h : step profile l s = some t) :
    Doomed c t ∨ ¬ NoneLost t := by
  obtain ⟨hknown, hpc, hwakes⟩ := hs
  have hne : ∀ {d : Ptr} {pc : ResetPc}, s.pcs d = pc → pc ≠ .activating → c ≠ d := by
    rintro d pc hd hpc' rfl
    exact hpc' (hd.symm.trans hpc)
  cases step_effect h with
  | init d evq evCb evArg npl hidle =>
    exact .inl ⟨List.mem_cons_of_mem d hknown, hpc, hwakes⟩
  | resetExpiresAt d ticks e npl hd hidle =>
    exact .inl ⟨hknown, by simpa [hne hidle nofun] using hpc, hwakes⟩
  | recorded d timers hd htimers =>
    have hcd := hne hd nofun
    refine .inl ⟨hknown, by simpa [hcd] using hpc, ?_⟩
    rw [htimers, wakes_cons]
    rintro (he | hw)
    · exact hcd he.symm
    · exact hwakes hw
  | merged d timers hd htimers =>
    have hcd := hne hd nofun
    refine .inl ⟨hknown, by simpa [hcd] using hpc, ?_⟩
    rw [htimers, wakes_cons]
    rintro (he | ⟨w, hw, he⟩)
    · exact hcd he.symm
    · exact hwakes ⟨w, List.mem_of_mem_filter hw, he⟩
  | immediate d npl hd => exact .inl ⟨hknown, by simpa [hne hd nofun] using hpc, hwakes⟩
  | resetActive d hd =>
    by_cases hcd : c = d
    · subst hcd
      refine .inr (fun hlost => hwakes (hlost c hknown ?_ ?_))
      · simp
      · simp [bleNplCalloutIsActive]
    · exact .inl ⟨hknown, by simpa [hcd] using hpc, hwakes⟩
  | stop => exact .inl ⟨hknown, hpc, hwakes⟩
  | wake w npl => exact .inl ⟨hknown, hpc, fun hw => hwakes (wakes_of_erase hw)⟩
  | clock | queue => exact .inl ⟨hknown, hpc, hwakes⟩

/-- A run that finishes all its resets and loses no callout has met the
condition: no callout is doomed at its end. -/
theorem run_keepsWake {ls : List Label} (hs : ∀ c, s.pcs c ≠ .idle → c ∈ s.known)
    (h : run (step profile) ls s = some t) (hidle : ∀ c, t.pcs c = .idle)
    (hall : Throughout (step profile) NoneLost ls s) : Along (step profile) KeepsWake ls s := by
  apply along_of_throughout (I := fun s => ∀ c, s.pcs c ≠ .idle → c ∈ s.known)
    (D := fun s => ∃ c, Doomed c s) ?_ ?_ ?_ hs h ?_ hall
  · exact fun l s t hs _ hstep => step_known hs hstep
  · exact fun l s t hs hnot hstep => doomed_of_not_keepsWake hs hnot hstep
  · rintro l s t ⟨c, hc⟩ hstep
    exact (step_doomed hc hstep).imp_left (fun hd => ⟨c, hd⟩)
  · rintro ⟨c, hc⟩
    cases hc.pc.symm.trans (hidle c)

/-- Under the condition no state of any run loses a callout, and a run that
finishes its resets and loses none has met the condition at every step. -/
theorem noneLost_iff_keepsWake (profile : Profile) (npl : Npl) (now : UInt64) (ls : List Label) :
    (Along (step profile) KeepsWake ls (start npl now) →
      Throughout (step profile) NoneLost ls (start npl now)) ∧
    ∀ s, run (step profile) ls (start npl now) = some s → (∀ c, s.pcs c = .idle) →
      (Throughout (step profile) NoneLost ls (start npl now) ↔
        Along (step profile) KeepsWake ls (start npl now)) := by
  have hkept : Along (step profile) KeepsWake ls (start npl now) →
      Throughout (step profile) NoneLost ls (start npl now) := by
    intro hkeep
    rw [throughout_iff]
    rintro ks ms t rfl hr
    exact (run_invariant_along (fun _ _ _ hs hg hstep => step_covered hs hg hstep)
      (start_covered npl now) hkeep.prefix hr).noneLost
  exact ⟨hkept, fun s hrun hidle =>
    ⟨run_keepsWake (start_covered npl now).known hrun hidle, hkept⟩⟩

/-- The deadline of a reset with no ticks is not in the future, its wake comes
during the call, and the callout stays active with nothing to fire it. -/
theorem zero_ticks_lost : ∃ s,
    run (step .release) [.init 100 0 0 0, .resetExpiresAt 100 0, .resetSchedule 100 .immediate,
      .resetActive 100] (start (boot (fun _ => ⟨none, 0⟩) (fun _ => ⟨0, 0, false⟩)
        (fun _ => ⟨false, 0, 0⟩)) 7) = some s ∧
    (∀ c, s.pcs c = .idle) ∧ bleNplCalloutIsActive 100 s.timed.npl = true ∧
    s.timed.timers = [] ∧ ¬ NoneLost s := by
  refine ⟨_, rfl, ?_, rfl, rfl, ?_⟩
  · intro c
    by_cases hc : c = 100 <;> simp [hc, start]
  · intro h
    obtain ⟨w, hw, -⟩ := h 100 (by decide) rfl rfl
    cases hw

end CalloutPending
