import ApacheNimble.QueueChanges
import ApacheNimble.TimeConversion

/-!
# Callouts that fire neither early nor late

A reset asks the driver for a wake that is due no later than the ticks say: the
sum in 32 bits never exceeds the sum. An active callout whose time has come
therefore fires as soon as the driver wakes whatever is due.
-/
namespace CalloutPunctual

open PortLayer EventQueue FifoFamily EventQueueFamily QueuePanics Callout CalloutDeadline
  TimeConversion Rates Transition

variable {profile : Profile} {s t : Callout.State} {l : Label} {c : Ptr} {due : Nat}

/-- A wake of the callout is pending that is due by then. -/
def Prompt (c : Ptr) (due : Nat) (timers : List Wake) : Prop :=
  ∃ w ∈ timers, w.callout = c ∧ w.deadline.toNat ≤ due

/-- No wake of a callout runs between the call of `schedule_wake` and the store
of `active` by its reset, unless another one stays pending that is not late. -/
def KeepsPrompt : Label → State → Prop
  | .resetSchedule c .immediate, s =>
    ∀ r, s.latest c = some r → Prompt c (dueAt r) s.timed.timers
  | .wake w, s => s.pcs w.callout = .activating → ∀ r, s.latest w.callout = some r →
    Prompt w.callout (dueAt r) (s.timed.timers.erase w)
  | _, _ => True

/-- Only resets activate callouts, and what an active callout waits for is due
by the time its latest reset has asked for. -/
structure Punctual (s : State) : Prop where
  armed : ∀ c ∈ s.known, (s.timed.npl.callouts c).active = true → (s.latest c).isSome
  resetting : ∀ c, s.pcs c ≠ .idle → (s.latest c).isSome
  expiresAt : ∀ c r, s.latest c = some r → s.pcs c = .scheduling →
    (s.timed.npl.callouts c).expiresAt.toNat ≤ dueAt r
  prompt : ∀ c r, s.latest c = some r → s.pcs c = .activating ∨
    s.pcs c = .idle ∧ c ∈ s.known ∧ (s.timed.npl.callouts c).active = true →
    Prompt c (dueAt r) s.timed.timers

theorem start_punctual (npl : Npl) (now : UInt64) : Punctual (start npl now) where
  armed := by simp [start]
  resetting := by simp [start]
  expiresAt := by simp [start]
  prompt := by simp [start]

section Timers

variable {timers : List Wake} {w : Wake}

theorem prompt_cons_self (h : w.deadline.toNat ≤ due) (timers : List Wake) :
    Prompt w.callout due (w :: timers) :=
  ⟨w, List.mem_cons_self, rfl, h⟩

theorem Prompt.cons (h : Prompt c due timers) (w : Wake) : Prompt c due (w :: timers) := by
  obtain ⟨v, hv, hc, hle⟩ := h
  exact ⟨v, List.mem_cons_of_mem w hv, hc, hle⟩

/-- Taking out an entry leaves the entries of the other wakers. -/
theorem Prompt.erase (h : Prompt c due timers) (hne : c ≠ w.callout) :
    Prompt c due (timers.erase w) := by
  obtain ⟨v, hv, rfl, hle⟩ := h
  have hvw : v ≠ w := by
    rintro rfl
    exact hne rfl
  exact ⟨v, (List.mem_erase_of_ne hvw).mpr hv, rfl, hle⟩

theorem Prompt.filter {d : Ptr} (h : Prompt c due timers) (hne : c ≠ d) :
    Prompt c due (timers.filter (·.callout ≠ d)) := by
  obtain ⟨v, hv, rfl, hle⟩ := h
  exact ⟨v, by simp [hv, hne], rfl, hle⟩

theorem foldl_earlier_le (d : UInt64) (timers : List Wake) :
    (timers.foldl earlier d).toNat ≤ d.toNat := by
  induction timers generalizing d with
  | nil => exact Nat.le_refl _
  | cons w timers ih =>
    have hearlier : (earlier d w).toNat ≤ d.toNat := by
      unfold earlier
      split
      · rename_i hlt
        exact Nat.le_of_lt (UInt64.lt_iff_toNat_lt.mp hlt)
      · exact Nat.le_refl _
    exact (ih (earlier d w)).trans hearlier

/-- The merged deadline is no later than the new one. -/
theorem earliest_le (deadline : UInt64) (c : Ptr) (timers : List Wake) :
    (earliest deadline c timers).toNat ≤ deadline.toNat :=
  foldl_earlier_le deadline _

end Timers

/-- The sum in 32 bits is no more than the sum. -/
theorem addU32_le {now : UInt64} {ticks e : UInt32}
    (h : profile.addU32 now.toUInt32 ticks = some e) : e.toNat ≤ dueAt (now, ticks) := by
  rw [profile.addU32_eq h, UInt32.toNat_add, UInt64.toNat_toUInt32, dueAt]
  calc (now.toNat % 2 ^ 32 + ticks.toNat) % 2 ^ 32
      ≤ now.toNat % 2 ^ 32 + ticks.toNat := Nat.mod_le ..
    _ ≤ now.toNat + ticks.toNat := Nat.add_le_add_right (Nat.mod_le ..) _

section Steps

theorem step_armed (hs : Punctual s) (h : step profile l s = some t) :
    ∀ c ∈ t.known, (t.timed.npl.callouts c).active = true → (t.latest c).isSome := by
  intro d hd hactive
  cases step_effect h with
  | init c evq evCb evArg npl hidle hnpl =>
    by_cases hdc : d = c
    · subst hdc
      simp [hnpl] at hactive
    · simp only [hnpl, Function.update_of_ne hdc] at hactive
      exact hs.armed d ((List.mem_cons.mp hd).resolve_left hdc) hactive
  | resetExpiresAt c ticks e npl hc hidle hadd hnpl =>
    by_cases hdc : d = c
    · simp [hdc]
    · simpa [hdc] using hs.armed d hd (by simpa [hnpl, hdc] using hactive)
  | immediate c npl hpc hdue hnpl =>
    by_cases hdc : d = c
    · simp [hnpl, hdc] at hactive
    · exact hs.armed d hd (by simpa [hnpl, hdc] using hactive)
  | resetActive c hpc =>
    by_cases hdc : d = c
    · exact hs.resetting d (by simp [hdc, hpc])
    · exact hs.armed d hd (by simpa [hdc] using hactive)
  | stop c =>
    by_cases hdc : d = c
    · simp [hdc] at hactive
    · exact hs.armed d hd (by simpa [hdc] using hactive)
  | wake w npl hw hdue hnpl =>
    by_cases hdc : d = w.callout
    · simp [hnpl, hdc] at hactive
    · exact hs.armed d hd (by simpa [hnpl, hdc] using hactive)
  | queue op npl hnpl => exact hs.armed d hd (by rwa [hnpl] at hactive)
  | recorded | merged | clock => exact hs.armed d hd hactive

theorem step_resetting (hs : Punctual s) (h : step profile l s = some t) :
    ∀ c, t.pcs c ≠ .idle → (t.latest c).isSome := by
  intro d hd
  cases step_effect h with
  | resetExpiresAt c ticks e npl hc hidle hadd hnpl =>
    by_cases hdc : d = c
    · simp [hdc]
    · simpa [hdc] using hs.resetting d (by simpa [hdc] using hd)
  | recorded c timers hpc | merged c timers hpc | immediate c npl hpc | resetActive c hpc =>
    by_cases hdc : d = c
    · exact hs.resetting d (by simp [hdc, hpc])
    · exact hs.resetting d (by simpa [hdc] using hd)
  | init | stop | wake | clock | queue => exact hs.resetting d hd

theorem step_expiresAt (hs : Punctual s) (h : step profile l s = some t) :
    ∀ c r, t.latest c = some r → t.pcs c = .scheduling →
      (t.timed.npl.callouts c).expiresAt.toNat ≤ dueAt r := by
  intro d r hr hd
  cases step_effect h with
  | init c evq evCb evArg npl hidle hnpl =>
    have hdc : d ≠ c := by
      rintro rfl
      cases hidle.symm.trans hd
    simpa [hnpl, hdc] using hs.expiresAt d r hr hd
  | resetExpiresAt c ticks e npl hc hidle hadd hnpl =>
    by_cases hdc : d = c
    · subst hdc
      simp only [Function.update_self, Option.some.injEq] at hr
      simp only [hnpl, Function.update_self, ← hr]
      exact addU32_le hadd
    · simp only [Function.update_of_ne hdc] at hr hd
      simpa [hnpl, hdc] using hs.expiresAt d r hr hd
  | recorded c timers hpc | merged c timers hpc =>
    exact hs.expiresAt d r hr (scheduling_of_update (by decide) d hd)
  | immediate c npl hpc hdue hnpl =>
    simpa [hnpl] using hs.expiresAt d r hr (scheduling_of_update (by decide) d hd)
  | resetActive c hpc =>
    simpa using hs.expiresAt d r hr (scheduling_of_update (by decide) d hd)
  | stop c => simpa using hs.expiresAt d r hr hd
  | wake w npl hw hdue hnpl => simpa [hnpl] using hs.expiresAt d r hr hd
  | queue op npl hnpl => simpa [hnpl] using hs.expiresAt d r hr hd
  | clock => exact hs.expiresAt d r hr hd

theorem step_prompt (hs : Punctual s) (hkeep : KeepsPrompt l s) (h : step profile l s = some t) :
    ∀ c r, t.latest c = some r → t.pcs c = .activating ∨
      t.pcs c = .idle ∧ c ∈ t.known ∧ (t.timed.npl.callouts c).active = true →
      Prompt c (dueAt r) t.timed.timers := by
  intro d r hr hor
  cases step_effect h with
  | init c evq evCb evArg npl hidle hnpl =>
    by_cases hdc : d = c
    · subst hdc
      simp [hnpl, hidle] at hor
    · exact hs.prompt d r hr (by simpa [hnpl, hdc] using hor)
  | resetExpiresAt c ticks e npl hc hidle hadd hnpl =>
    by_cases hdc : d = c
    · subst hdc
      simp at hor
    · exact hs.prompt d r (by simpa [hdc] using hr) (by simpa [hnpl, hdc] using hor)
  | recorded c timers hpc htimers =>
    rw [htimers]
    by_cases hdc : d = c
    · subst hdc
      exact prompt_cons_self (w := ⟨_, d⟩) (hs.expiresAt d r hr hpc) _
    · exact (hs.prompt d r hr (by simpa [hdc] using hor)).cons _
  | merged c timers hpc htimers =>
    rw [htimers]
    by_cases hdc : d = c
    · subst hdc
      exact prompt_cons_self (w := ⟨_, d⟩)
        ((earliest_le ..).trans (hs.expiresAt d r hr hpc)) _
    · exact ((hs.prompt d r hr (by simpa [hdc] using hor)).filter hdc).cons _
  | immediate c npl hpc hdue hnpl =>
    by_cases hdc : d = c
    · subst hdc
      exact hkeep r hr
    · exact hs.prompt d r hr (by simpa [hnpl, hdc] using hor)
  | resetActive c hpc =>
    by_cases hdc : d = c
    · exact hs.prompt d r hr (.inl (by rw [hdc, hpc]))
    · exact hs.prompt d r hr (by simpa [hdc] using hor)
  | stop c =>
    by_cases hdc : d = c
    · exact hs.prompt d r hr (.inl (by simpa [hdc] using hor))
    · exact hs.prompt d r hr (by simpa [hdc] using hor)
  | wake w npl hw hdue hnpl =>
    by_cases hdc : d = w.callout
    · subst hdc
      exact hkeep (by simpa [hnpl] using hor) r hr
    · exact (hs.prompt d r hr (by simpa [hnpl, hdc] using hor)).erase hdc
  | queue op npl hnpl => exact hs.prompt d r hr (by rwa [hnpl] at hor)
  | clock => exact hs.prompt d r hr hor

theorem step_punctual (hs : Punctual s) (hkeep : KeepsPrompt l s)
    (h : step profile l s = some t) : Punctual t where
  armed := step_armed hs h
  resetting := step_resetting hs h
  expiresAt := step_expiresAt hs h
  prompt := step_prompt hs hkeep h

end Steps

/-- The time that the latest reset has asked for has come, and the callout has
not fired. -/
structure Overdue (c : Ptr) (s : State) : Prop where
  known : c ∈ s.known
  idle : s.pcs c = .idle
  active : bleNplCalloutIsActive c s.timed.npl = true
  due : ∀ r, s.latest c = some r → dueAt r ≤ s.timed.now.toNat

/-- A wake of it is due as well. -/
theorem Overdue.wake_due (h : Overdue c s) (hs : Punctual s) :
    ∃ w ∈ s.timed.timers, w.callout = c ∧ w.deadline ≤ s.timed.now := by
  obtain ⟨r, hr⟩ := Option.isSome_iff_exists.mp (hs.armed c h.known h.active)
  obtain ⟨w, hw, hwc, hle⟩ := hs.prompt c r hr (.inr ⟨h.idle, h.known, h.active⟩)
  exact ⟨w, hw, hwc, UInt64.le_iff_toNat_le.mpr (hle.trans (h.due r hr))⟩

section Fires

variable {f : Family Ptr Ptr} {q : List Ptr}

/-- The callback of an active callout appends its event to a queue with room. -/
theorem calloutCb_appends {npl : Npl} (profile : Profile) (hf : Queues npl f)
    (hactive : bleNplCalloutIsActive c npl = true)
    (hq : content npl (npl.callouts c).eventQueue = some q) (hroom : q.length < 16) :
    ∃ npl', calloutCb profile c npl = some npl' ∧
      content npl' (npl.callouts c).eventQueue = some (q ++ [calloutEvent c]) := by
  obtain ⟨i, hi, -⟩ := hf.holds _ q ((hf.content_eq _).symm.trans hq)
  obtain ⟨u, hu, hi', -⟩ := bleNplEventqPut_spec profile hi (calloutEvent_ne_null c) hroom
  have hactive' : (npl.callouts c).active = true := hactive
  refine ⟨u.setActive c false, ?_, ?_⟩
  · simp [calloutCb, hactive', hu]
  · exact hi'.content

/-- A wake that is due and finds its callout active and its queue with room. -/
theorem wake_appends {w : Wake} (profile : Profile) (hf : Queues s.timed.npl f)
    (hw : w ∈ s.timed.timers) (hdue : w.deadline ≤ s.timed.now)
    (hactive : bleNplCalloutIsActive w.callout s.timed.npl = true)
    (hq : content s.timed.npl (s.timed.npl.callouts w.callout).eventQueue = some q)
    (hroom : q.length < 16) :
    ∃ t, step profile (.wake w) s = some t ∧
      content t.timed.npl (s.timed.npl.callouts w.callout).eventQueue =
        some (q ++ [calloutEvent w.callout]) ∧
      bleNplCalloutIsActive w.callout t.timed.npl = false := by
  obtain ⟨npl, hcb, happended⟩ := calloutCb_appends profile hf hactive hq hroom
  have hstep : step profile (.wake w) s =
      some { s with timed := ⟨npl, s.timed.now, s.timed.timers.erase w⟩ } := by
    simp [Callout.step, hw, hdue, Callout.wake, hcb]
  refine ⟨_, hstep, happended, ?_⟩
  simp [bleNplCalloutIsActive, calloutCb_callouts hcb]

/-- The queues stay what their lists say. -/
theorem step_queues (l : Label) (s t : Callout.State) (hs : ∃ f, Queues s.timed.npl f)
    (h : Callout.step profile l s = some t) : ∃ f, Queues t.timed.npl f := by
  obtain ⟨f, hf⟩ := hs
  by_cases htakes : QueueChanges.takes (.timed l) = false
  · obtain ⟨g, hg, -⟩ := (QueueChanges.timed_change htakes h).moved hf
    exact ⟨g, hg⟩
  · cases l with
    | queue op =>
      obtain ⟨⟨npl, r⟩, hr, rfl⟩ := Option.map_eq_some_iff.mp h
      obtain ⟨g, -, hg⟩ := simulates_exactStep profile op f _ npl r hf hr
      exact ⟨g, hg⟩
    | init | resetExpiresAt | resetSchedule | resetActive | stop | wake | clock =>
      exact absurd rfl htakes

end Fires

/-- A callout that is reset with so many milliseconds fires at most one of them
early. -/
theorem elapsed_millis {tickHz : Nat} (hrate : 1000 ≤ tickHz) {ms ticks : UInt32} {n : UInt64}
    {now : Nat} (hticks : ticks = bleNplTimeMsToTicks32 tickHz ms)
    (hfits : ms.toNat * tickHz < 1000 * UInt32.size) (h : dueAt (n, ticks) ≤ now) :
    ms.toNat ≤ convert 1000 tickHz (now - n.toNat) + 1 := by
  have hexact : ticks.toNat = convert tickHz 1000 ms.toNat := by
    rw [hticks]
    exact (msToTicks_exact_iff tickHz ms).mpr hfits
  have hle : ticks.toNat ≤ now - n.toNat := Nat.le_sub_of_add_le' h
  have hmono := convert_mono 1000 tickHz hle
  have hback := convert_back_bounds ms.toNat (b := 1000) (a := tickHz) (by decide) hrate
  rw [← hexact] at hback
  omega

/-- In every run whose resets are alone and keep a prompt wake, the event of a
callout comes into a queue no earlier than its latest reset has asked for, unless
it is put there directly, and where the reset has asked in milliseconds whose
ticks fit in 32 bits, at most one of them early. Where an active callout is
overdue, a wake of it is due, and puts its event if the queue has room. So once
the driver has woken all that was due no callout is overdue. -/
theorem fires_in_time (profile : Profile) (tickHz : Nat) (hrate : 1000 ≤ tickHz) (npl : Npl)
    (now : UInt64) (ls : List Label) (s : Callout.State)
    (hlegal : Along (step profile) (fun l s => Alone profile l s ∧ KeepsPrompt l s) ls
      (start npl now))
    (h : run (step profile) ls (start npl now) = some s) :
    (∀ l t c, step profile l s = some t → (∀ op, l ≠ .queue op) →
      occurrences (calloutEvent c) s.timed.npl < occurrences (calloutEvent c) t.timed.npl →
      ∃ r, s.latest c = some r ∧ dueAt r ≤ s.timed.now.toNat ∧
        ∀ ms, r.2 = bleNplTimeMsToTicks32 tickHz ms → ms.toNat * tickHz < 1000 * UInt32.size →
          ms.toNat ≤ convert 1000 tickHz (s.timed.now.toNat - r.1.toNat) + 1) ∧
    (∀ c, Overdue c s → ∃ w ∈ s.timed.timers, w.callout = c ∧ w.deadline ≤ s.timed.now ∧
      ∀ f q, Queues npl f →
        content s.timed.npl (s.timed.npl.callouts c).eventQueue = some q → q.length < 16 →
        ∃ t, step profile (.wake w) s = some t ∧
          content t.timed.npl (s.timed.npl.callouts c).eventQueue = some (q ++ [calloutEvent c]) ∧
          bleNplCalloutIsActive c t.timed.npl = false) ∧
    ((∀ w ∈ s.timed.timers, s.timed.now < w.deadline) → ∀ c, ¬ Overdue c s) := by
  have hboth : Timely s ∧ Punctual s := by
    refine run_invariant_along (I := fun s => Timely s ∧ Punctual s) ?_
      ⟨start_timely npl now, start_punctual npl now⟩ hlegal h
    rintro l s t ⟨hs, hp⟩ ⟨halone, hkeep⟩ hstep
    exact ⟨step_timely hs halone hstep, step_punctual hp hkeep hstep⟩
  obtain ⟨htimely, hpunctual⟩ := hboth
  refine ⟨?_, ?_, ?_⟩
  · intro l t c hstep hqueue hmore
    have hputs : putsEvent l s = some c := by
      have hcount := putsEvent_occurrences hstep hqueue c
      by_contra hnot
      rw [if_neg hnot] at hcount
      omega
    obtain ⟨r, hr, hdue⟩ := htimely.onTime (by rw [hstep]; rfl) c hputs
    exact ⟨r, hr, hdue, fun ms hms hfits => elapsed_millis hrate hms hfits hdue⟩
  · intro c hc
    obtain ⟨w, hw, rfl, hdue⟩ := hc.wake_due hpunctual
    refine ⟨w, hw, rfl, hdue, fun f q hf hq hroom => ?_⟩
    obtain ⟨g, hg⟩ := run_invariant step_queues (show ∃ f, Queues (start npl now).timed.npl f from
      ⟨f, hf⟩) h
    exact wake_appends profile hg hw hdue hc.active hq hroom
  · intro hnone c hc
    obtain ⟨w, hw, -, hdue⟩ := hc.wake_due hpunctual
    exact absurd hdue (UInt64.not_le.mpr (hnone w hw))

/-- Ten milliseconds at 1000 ticks a second. -/
def tenMillis : List Label :=
  [.queue (.init 200), .init 100 200 0 0,
    .resetExpiresAt 100 (bleNplTimeMsToTicks32 1000 10), .resetSchedule 100 .recorded,
    .resetActive 100, .clock 10]

/-- The wake is due when they have passed, and puts the event. -/
theorem fires_in_time_once : ∃ s,
    run (step .debug) tenMillis
      (start (blank (fun _ => ⟨0, 0, false⟩) (fun _ => ⟨false, 0, 0⟩)) 0) = some s ∧
    (∃ w ∈ s.timed.timers, w.callout = 100 ∧ w.deadline ≤ s.timed.now ∧
      ∃ t, step .debug (.wake w) s = some t ∧ content t.timed.npl 200 = some [112] ∧
        bleNplCalloutIsActive 100 t.timed.npl = false) ∧
    ∃ r, s.latest 100 = some r ∧ dueAt r ≤ s.timed.now.toNat := by
  have hlegal : Along (step .debug) (fun l s => Alone .debug l s ∧ KeepsPrompt l s) tenMillis
      (start (blank (fun _ => ⟨0, 0, false⟩) (fun _ => ⟨false, 0, 0⟩)) 0) := by
    refine along_of_step ⟨trivial, trivial⟩ rfl (along_of_step ⟨trivial, trivial⟩ rfl ?_)
    refine along_of_step ⟨fun _ => .inr ⟨by decide, fun w hw => absurd hw List.not_mem_nil⟩,
      trivial⟩ rfl ?_
    iterate 3 refine along_of_step ⟨trivial, trivial⟩ rfl ?_
    trivial
  obtain ⟨hontime, hfires, -⟩ :=
    fires_in_time .debug 1000 (by decide) _ 0 tenMillis _ hlegal rfl
  refine ⟨_, rfl, ?_, ?_⟩
  · obtain ⟨w, hw, hwc, hdue, hput⟩ := hfires 100 ⟨by decide, rfl, rfl, fun r hr => by
      cases hr
      decide⟩
    exact ⟨w, hw, hwc, hdue, hput FifoFamily.empty [] (blank_queues _ _) rfl (by decide)⟩
  · obtain ⟨r, hr, hdue, -⟩ := hontime (.wake ⟨10, 100⟩) _ 100 rfl (by simp) (by decide)
    exact ⟨r, hr, hdue⟩

end CalloutPunctual
