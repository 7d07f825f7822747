import ApacheNimble.Callout

/-!
# Whether a callout fires early

The callback tests nothing but `active`. A wake is early when the sum in 32
bits has lost the high bits of the clock, and when an older reset of the same
callout had asked for it.
-/
namespace CalloutDeadline

open PortLayer EventQueue Callout Transition

variable {profile : Profile} {s t : State} {l : Label}

/-- The callout whose event the step puts on its queue, if the queue takes it. -/
def putsEvent : Label → State → Option Ptr
  | .resetSchedule c .immediate, s => if bleNplCalloutIsActive c s.timed.npl then some c else none
  | .wake w, s =>
    if bleNplCalloutIsActive w.callout s.timed.npl then some w.callout else none
  | _, _ => none

theorem wake_occurrences {c : Ptr} {u v : Timed} (h : Callout.wake profile c u = some v) (d : Ptr) :
    occurrences (calloutEvent d) v.npl = occurrences (calloutEvent d) u.npl +
      if (if bleNplCalloutIsActive c u.npl then some c else none) = some d then 1 else 0 := by
  obtain ⟨npl, hcb, rfl⟩ := Option.map_eq_some_iff.mp h
  rw [calloutCb_occurrences hcb d]
  cases bleNplCalloutIsActive c u.npl <;> simp [eq_comm]

/-- What is said to be put is put: unless a queue is worked on directly, the
event of a callout stands in the channels once more, or as often as before. -/
theorem putsEvent_occurrences (h : step profile l s = some t) (hqueue : ∀ op, l ≠ .queue op)
    (d : Ptr) : occurrences (calloutEvent d) t.timed.npl =
      occurrences (calloutEvent d) s.timed.npl + if putsEvent l s = some d then 1 else 0 := by
  cases l with
  | init c evq evCb evArg =>
    obtain ⟨-, ht⟩ := Option.ite_none_right_eq_some.mp h
    cases ht
    rfl
  | resetExpiresAt c ticks =>
    obtain ⟨-, ht⟩ := Option.ite_none_right_eq_some.mp h
    obtain ⟨timed, htimed, rfl⟩ := Option.map_eq_some_iff.mp ht
    obtain ⟨e, -, hset⟩ := Option.bind_eq_some_iff.mp htimed
    cases hset
    rfl
  | resetSchedule c how =>
    obtain ⟨-, ht⟩ := Option.ite_none_right_eq_some.mp h
    obtain ⟨timed, htimed, rfl⟩ := Option.map_eq_some_iff.mp ht
    cases how with
    | recorded | merged =>
      cases htimed
      rfl
    | immediate => exact wake_occurrences (Option.ite_none_right_eq_some.mp htimed).2 d
  | resetActive c =>
    obtain ⟨-, ht⟩ := Option.ite_none_right_eq_some.mp h
    cases ht
    rfl
  | stop c =>
    cases h
    rfl
  | wake w =>
    obtain ⟨-, ht⟩ := Option.ite_none_right_eq_some.mp h
    obtain ⟨timed, htimed, rfl⟩ := Option.map_eq_some_iff.mp ht
    have hpushed := wake_occurrences htimed d
    exact hpushed
  | clock now =>
    obtain ⟨-, ht⟩ := Option.ite_none_right_eq_some.mp h
    cases ht
    rfl
  | queue op => exact absurd rfl (hqueue op)

def dueAt (reset : UInt64 × UInt32) : Nat := reset.1.toNat + reset.2.toNat

/-- An event is put no earlier than the latest reset has asked for. -/
def OnTime (profile : Profile) (l : Label) (s : State) : Prop :=
  (step profile l s).isSome → ∀ c, putsEvent l s = some c →
    ∃ reset, s.latest c = some reset ∧ dueAt reset ≤ s.timed.now.toNat

/-- A reset with no ticks, or one whose deadline fits in 32 bits and finds no
wake of its callout pending that is due before it. A reset that traps on the
overflow asks for nothing. -/
def Alone (profile : Profile) : Label → State → Prop
  | .resetExpiresAt c ticks, s => (profile.addU32 s.timed.now.toUInt32 ticks).isSome →
    ticks = 0 ∨ dueAt (s.timed.now, ticks) < UInt32.size ∧
      ∀ w ∈ s.timed.timers, w.callout = c → dueAt (s.timed.now, ticks) ≤ w.deadline.toNat
  | _, _ => True

/-- No pending wake is due before the latest reset of its callout asks for it. -/
structure Timely (s : State) : Prop where
  pending : ∀ w ∈ s.timed.timers, (s.latest w.callout).isSome
  scheduling : ∀ c, s.pcs c = .scheduling → (s.latest c).isSome
  past : ∀ c r, s.latest c = some r → r.1.toNat ≤ s.timed.now.toNat
  due : ∀ c r, s.latest c = some r → r.2 ≠ 0 → ∀ w ∈ s.timed.timers, w.callout = c →
    dueAt r ≤ w.deadline.toNat
  expiresAt : ∀ c r, s.latest c = some r → r.2 ≠ 0 → s.pcs c = .scheduling →
    dueAt r ≤ (s.timed.npl.callouts c).expiresAt.toNat

theorem start_timely (npl : Npl) (now : UInt64) : Timely (start npl now) where
  pending := by simp [start]
  scheduling := by simp [start]
  past := by simp [start]
  due := by simp [start]
  expiresAt := by simp [start]

/-- A bound on the deadlines of a callout bounds whatever is made of them. -/
theorem Timely.deadline {c : Ptr} {r : UInt64 × UInt32} (h : Timely s)
    (hr : s.latest c = some r) (hticks : r.2 ≠ 0) (hpc : s.pcs c = .scheduling) :
    dueAt r ≤ (earliest (s.timed.npl.callouts c).expiresAt.toUInt64 c s.timed.timers).toNat := by
  obtain he | hmem := earliest_cases (s.timed.npl.callouts c).expiresAt.toUInt64 c s.timed.timers
  · rw [he, UInt32.toNat_toUInt64]
    exact h.expiresAt c r hr hticks hpc
  · exact h.due c r hr hticks _ hmem rfl

/-- The wake of a timely state comes no earlier than it was asked for. -/
theorem Timely.onTime (h : Timely s) : OnTime profile l s := by
  intro hsome c hputs
  obtain ⟨t, ht⟩ := Option.isSome_iff_exists.mp hsome
  cases step_effect ht with
  | immediate d _ hpc hdue =>
    obtain ⟨-, hd⟩ := Option.ite_none_right_eq_some.mp hputs
    rw [Option.some.injEq] at hd
    subst hd
    obtain ⟨r, hr⟩ := Option.isSome_iff_exists.mp (h.scheduling d hpc)
    refine ⟨r, hr, ?_⟩
    by_cases hticks : r.2 = 0
    · simpa [dueAt, hticks] using h.past d r hr
    · have hle := h.expiresAt d r hr hticks hpc
      rw [UInt64.le_iff_toNat_le, UInt32.toNat_toUInt64] at hdue
      omega
  | wake w npl hw hdue =>
    obtain ⟨-, hd⟩ := Option.ite_none_right_eq_some.mp hputs
    rw [Option.some.injEq] at hd
    subst hd
    obtain ⟨r, hr⟩ := Option.isSome_iff_exists.mp (h.pending w hw)
    refine ⟨r, hr, ?_⟩
    by_cases hticks : r.2 = 0
    · simpa [dueAt, hticks] using h.past w.callout r hr
    · have hle := h.due w.callout r hr hticks w hw rfl
      rw [UInt64.le_iff_toNat_le] at hdue
      omega
  | init | resetExpiresAt | recorded | merged | resetActive | stop | clock | queue => cases hputs

/-- A deadline that fits is stored as it is. -/
theorem expiresAt_of_fits {now : UInt64} {ticks e : UInt32}
    (hfits : dueAt (now, ticks) < UInt32.size) (h : profile.addU32 now.toUInt32 ticks = some e) :
    e.toNat = dueAt (now, ticks) := by
  simp only [dueAt] at hfits
  have hnow : now.toUInt32.toNat = now.toNat := by
    rw [UInt64.toNat_toUInt32]
    exact Nat.mod_eq_of_lt (Nat.lt_of_le_of_lt (Nat.le_add_right ..) hfits)
  obtain ⟨hadd, hsum⟩ := profile.addU32_of_lt (a := now.toUInt32) (b := ticks) (by rwa [hnow])
  rw [hadd] at h
  cases h
  rw [hsum, hnow, dueAt]

/-- A step other than the first statement of a reset changes no latest reset.
What it adds to the timer queue is not due before the reset that adds it. -/
theorem Timely.keep (hs : Timely s) (hlatest : t.latest = s.latest)
    (hnow : s.timed.now ≤ t.timed.now)
    (hpcs : ∀ c, t.pcs c = .scheduling → s.pcs c = .scheduling)
    (hexpires : ∀ c, s.pcs c = .scheduling →
      (t.timed.npl.callouts c).expiresAt = (s.timed.npl.callouts c).expiresAt)
    (htimers : ∀ w ∈ t.timed.timers, w ∈ s.timed.timers ∨ s.pcs w.callout = .scheduling ∧
      ∀ r, s.latest w.callout = some r → r.2 ≠ 0 → dueAt r ≤ w.deadline.toNat) : Timely t where
  pending := by
    intro w hw
    rw [hlatest]
    obtain hw | ⟨hpc, -⟩ := htimers w hw
    · exact hs.pending w hw
    · exact hs.scheduling w.callout hpc
  scheduling c hpc := by
    rw [hlatest]
    exact hs.scheduling c (hpcs c hpc)
  past c r hr := by
    rw [hlatest] at hr
    exact (hs.past c r hr).trans (UInt64.le_iff_toNat_le.mp hnow)
  due := by
    intro c r hr hticks w hw hwc
    rw [hlatest] at hr
    obtain hw | ⟨-, hdue⟩ := htimers w hw
    · exact hs.due c r hr hticks w hw hwc
    · exact hdue r (hwc ▸ hr) hticks
  expiresAt := by
    intro c r hr hticks hpc
    rw [hlatest] at hr
    rw [hexpires c (hpcs c hpc)]
    exact hs.expiresAt c r hr hticks (hpcs c hpc)

theorem scheduling_of_update {pcs : Ptr → ResetPc} {c : Ptr} {pc : ResetPc}
    (hpc : pc ≠ .scheduling) (d : Ptr) (h : Function.update pcs c pc d = .scheduling) :
    pcs d = .scheduling := by
  by_cases hdc : d = c
  · subst hdc
    rw [Function.update_self] at h
    exact absurd h hpc
  · rwa [Function.update_of_ne hdc] at h

/-- A reset that meets the condition is due before every wake that is pending. -/
theorem resetExpiresAt_timely {c : Ptr} {ticks e : UInt32} {npl : Npl} (hs : Timely s)
    (halone : Alone profile (.resetExpiresAt c ticks) s)
    (hadd : profile.addU32 s.timed.now.toUInt32 ticks = some e)
    (hnpl : npl.callouts = Function.update s.timed.npl.callouts c
      { s.timed.npl.callouts c with expiresAt := e }) :
    Timely { s with
      timed := { s.timed with npl := npl }
      pcs := Function.update s.pcs c .scheduling
      latest := Function.update s.latest c (some (s.timed.now, ticks)) } := by
  have hasked := halone (by simp [hadd])
  have hlatest : ∀ d, (s.latest d).isSome →
      (Function.update s.latest c (some (s.timed.now, ticks)) d).isSome := by
    intro d hd
    by_cases hdc : d = c
    · simp [hdc]
    · simpa [hdc] using hd
  refine ⟨fun w hw => hlatest _ (hs.pending w hw), ?_, ?_, ?_, ?_⟩
  · intro d hpc
    by_cases hdc : d = c
    · simp [hdc]
    · exact hlatest d (hs.scheduling d (by simpa [hdc] using hpc))
  · intro d r hr
    by_cases hdc : d = c
    · simp only [hdc, Function.update_self, Option.some.injEq] at hr
      rw [← hr]
    · exact hs.past d r (by simpa [hdc] using hr)
  · intro d r hr hticks w hw hwd
    by_cases hdc : d = c
    · simp only [hdc, Function.update_self, Option.some.injEq] at hr
      subst hr
      obtain ⟨-, hbefore⟩ := hasked.resolve_left hticks
      exact hbefore w hw (hwd.trans hdc)
    · exact hs.due d r (by simpa [hdc] using hr) hticks w hw hwd
  · intro d r hr hticks hpc
    by_cases hdc : d = c
    · simp only [hdc, Function.update_self, Option.some.injEq] at hr
      subst hr
      obtain ⟨hfits, -⟩ := hasked.resolve_left hticks
      simp only [hnpl, hdc, Function.update_self]
      exact (expiresAt_of_fits hfits hadd).ge
    · simp only [hnpl, Function.update_of_ne hdc] at hr hpc ⊢
      exact hs.expiresAt d r hr hticks hpc

theorem step_timely (hs : Timely s) (halone : Alone profile l s) (h : step profile l s = some t) :
    Timely t := by
  cases step_effect h with
  | init c evq evCb evArg npl hidle hnpl =>
    refine hs.keep rfl (UInt64.le_refl _) (fun _ hpc => hpc) ?_ (fun _ hw => .inl hw)
    intro d hpc
    have hdc : d ≠ c := by
      rintro rfl
      cases hidle.symm.trans hpc
    simp [hnpl, hdc]
  | resetExpiresAt c ticks e npl hc hidle hadd hnpl =>
    exact resetExpiresAt_timely hs halone hadd hnpl
  | recorded c timers hpc htimers =>
    refine hs.keep rfl (UInt64.le_refl _) (scheduling_of_update nofun) (fun _ _ => rfl) ?_
    intro w hw
    obtain rfl | hw := List.mem_cons.mp (htimers ▸ hw)
    · refine .inr ⟨hpc, fun r hr hticks => ?_⟩
      rw [UInt32.toNat_toUInt64]
      exact hs.expiresAt c r hr hticks hpc
    · exact .inl hw
  | merged c timers hpc htimers =>
    refine hs.keep rfl (UInt64.le_refl _) (scheduling_of_update nofun) (fun _ _ => rfl) ?_
    intro w hw
    obtain rfl | hw := List.mem_cons.mp (htimers ▸ hw)
    · exact .inr ⟨hpc, fun r hr hticks => hs.deadline hr hticks hpc⟩
    · exact .inl (List.mem_of_mem_filter hw)
  | immediate c npl hpc hdue hnpl =>
    exact hs.keep rfl (UInt64.le_refl _) (scheduling_of_update nofun) (by simp [hnpl])
      (fun _ hw => .inl hw)
  | resetActive c hpc =>
    exact hs.keep rfl (UInt64.le_refl _) (scheduling_of_update nofun) (by simp)
      (fun _ hw => .inl hw)
  | stop c =>
    exact hs.keep rfl (UInt64.le_refl _) (fun _ hpc => hpc) (by simp) (fun _ hw => .inl hw)
  | wake w npl hw hdue hnpl =>
    exact hs.keep rfl (UInt64.le_refl _) (fun _ hpc => hpc) (by simp [hnpl])
      (fun _ hv => .inl (List.mem_of_mem_erase hv))
  | clock now hle =>
    exact hs.keep rfl hle (fun _ hpc => hpc) (fun _ _ => rfl) (fun _ hw => .inl hw)
  | queue op npl hnpl =>
    exact hs.keep rfl (UInt64.le_refl _) (fun _ hpc => hpc) (by simp [hnpl])
      (fun _ hw => .inl hw)

/-- In a run whose resets all meet the condition no callout fires early. -/
theorem onTime_of_alone (profile : Profile) (npl : Npl) (now : UInt64) (ls : List Label)
    (h : Along (step profile) (Alone profile) ls (start npl now)) :
    Along (step profile) (OnTime profile) ls (start npl now) :=
  along_of_invariant (fun _ _ _ hs halone hstep => step_timely hs halone hstep)
    (fun _ _ hs _ => hs.onTime) (start_timely npl now) h

theorem onTime_of_alone_twice :
    Along (step .debug) (OnTime .debug)
      [.queue (.init 200), .init 100 200 0 0, .resetExpiresAt 100 10, .resetSchedule 100 .recorded,
        .resetActive 100, .resetExpiresAt 100 5, .resetSchedule 100 .merged, .clock 6,
        .wake ⟨5, 100⟩]
      (start (boot (fun _ => ⟨none, 0⟩) (fun _ => ⟨0, 0, false⟩) (fun _ => ⟨false, 0, 0⟩)) 0) := by
  apply onTime_of_alone
  refine along_of_step trivial rfl (along_of_step trivial rfl ?_)
  refine along_of_step (fun _ => .inr ⟨by decide, nofun⟩) rfl ?_
  refine along_of_step trivial rfl (along_of_step trivial rfl ?_)
  refine along_of_step (fun _ => .inr ⟨by decide, ?_⟩) rfl ?_
  · intro w hw _
    cases List.mem_singleton.mp hw
    decide
  · exact along_of_step trivial rfl (along_of_step trivial rfl (along_of_step trivial rfl trivial))

/-- A sum past the 32-bit range is cut to a deadline that has passed. -/
theorem expiresAt_of_cut {now : UInt64} {ticks e : UInt32} (hcut : UInt32.size ≤ dueAt (now, ticks))
    (h : profile.addU32 now.toUInt32 ticks = some e) : e.toUInt64 ≤ now := by
  have he : e.toNat = (now.toNat % UInt32.size + ticks.toNat) % UInt32.size := by
    rw [profile.addU32_eq h, UInt32.toNat_add, UInt64.toNat_toUInt32]
  have hticks : ticks.toNat < UInt32.size := ticks.toNat_lt
  rw [UInt64.le_iff_toNat_le, UInt32.toNat_toUInt64, he]
  simp only [dueAt, UInt32.size] at hcut hticks ⊢
  omega

/-- The callback puts the event of an active callout if its queue takes it. -/
theorem not_onTime_of_early {w : Wake} {r : UInt64 × UInt32} (hw : w ∈ s.timed.timers)
    (hdue : w.deadline ≤ s.timed.now) (hactive : (s.timed.npl.callouts w.callout).active = true)
    (hput : (bleNplEventqPut profile (s.timed.npl.callouts w.callout).eventQueue
      (calloutEvent w.callout) s.timed.npl).isSome = true)
    (hlatest : s.latest w.callout = some r) (hearly : s.timed.now.toNat < dueAt r) :
    ¬ OnTime profile (.wake w) s := by
  intro h
  obtain ⟨npl, hnpl⟩ := Option.isSome_iff_exists.mp hput
  have hsome : (step profile (.wake w) s).isSome := by
    simp [step, hw, hdue, Callout.wake, calloutCb, hactive, hnpl]
  obtain ⟨r', hr, hle⟩ := h hsome w.callout (if_pos hactive)
  cases hlatest.symm.trans hr
  omega

/-- Some wake that is recorded once the reset has scheduled its own is early. -/
theorem early_of_cut_or_pending {c : Ptr} {ticks e : UInt32}
    (halone : ¬ Alone profile (.resetExpiresAt c ticks) s)
    (hadd : profile.addU32 s.timed.now.toUInt32 ticks = some e) :
    ∃ now, ∃ w ∈ ⟨e.toUInt64, c⟩ :: s.timed.timers, w.callout = c ∧ w.deadline ≤ now ∧
      s.timed.now ≤ now ∧ now.toNat < dueAt (s.timed.now, ticks) := by
  simp only [Alone, hadd, Option.isSome_some, forall_const, not_or, not_and, not_forall] at halone
  obtain ⟨hticks, halone⟩ := halone
  have hlater : s.timed.now.toNat < dueAt (s.timed.now, ticks) :=
    Nat.lt_add_of_pos_right (Nat.pos_of_ne_zero (fun h => hticks (UInt32.toNat_inj.mp h)))
  by_cases hfits : dueAt (s.timed.now, ticks) < UInt32.size
  · obtain ⟨w, hw, hwc, hearly⟩ := halone hfits
    by_cases hdue : w.deadline ≤ s.timed.now
    · exact ⟨_, w, List.mem_cons_of_mem _ hw, hwc, hdue, UInt64.le_refl _, hlater⟩
    · exact ⟨w.deadline, w, List.mem_cons_of_mem _ hw, hwc, UInt64.le_refl _,
        (UInt64.le_total ..).resolve_left hdue, Nat.lt_of_not_le hearly⟩
  · exact ⟨_, _, List.mem_cons_self, rfl, expiresAt_of_cut (Nat.le_of_not_lt hfits) hadd,
      UInt64.le_refl _, hlater⟩

theorem run_rest_of_reset {c : Ptr} {now : UInt64} (hpc : s.pcs c = .scheduling)
    (hnow : s.timed.now ≤ now) :
    run (step profile) [.resetSchedule c .recorded, .resetActive c, .clock now] s = some { s with
      timed := ⟨s.timed.npl.setActive c true, now,
        ⟨(s.timed.npl.callouts c).expiresAt.toUInt64, c⟩ :: s.timed.timers⟩
      pcs := Function.update s.pcs c .idle } := by
  simp [run_cons, step, scheduleExpiry, scheduleWake, hpc, hnow]

/-- The condition is exact: a reset that does not meet it can be followed by a
wake that is early, if the queue of the callout takes the event. -/
theorem early_of_not_alone {c : Ptr} {ticks : UInt32}
    (hstep : step profile (.resetExpiresAt c ticks) s = some t)
    (halone : ¬ Alone profile (.resetExpiresAt c ticks) s)
    (hput : (bleNplEventqPut profile (s.timed.npl.callouts c).eventQueue (calloutEvent c)
      s.timed.npl).isSome = true) :
    ∃ now u w, run (step profile) [.resetSchedule c .recorded, .resetActive c, .clock now] t =
      some u ∧ ¬ OnTime profile (.wake w) u := by
  obtain ⟨-, ht⟩ := Option.ite_none_right_eq_some.mp hstep
  obtain ⟨timed, htimed, he⟩ := Option.map_eq_some_iff.mp ht
  obtain ⟨e, hadd, hset⟩ := Option.bind_eq_some_iff.mp htimed
  cases hset
  cases he
  obtain ⟨now, w, hw, rfl, hdue, hnow, hearly⟩ := early_of_cut_or_pending halone hadd
  refine ⟨now, _, w, run_rest_of_reset (Function.update_self ..) hnow, ?_⟩
  refine not_onTime_of_early (by simpa using hw) hdue (by simp) ?_ (Function.update_self ..) hearly
  refine Eq.trans (bleNplEventqPut_isSome (s := s.timed.npl) ?_ ?_ ?_) (by simpa using hput)
  all_goals rfl

/-- A deadline past the 32-bit range is cut and fires at once. A wake that was
asked for before a stop fires for the reset that comes after it. Either way the
event is in the queue early. -/
theorem early_wakes :
    (∃ s t, run (step .debug)
      [.queue (.init 200), .init 100 200 0 0, .resetExpiresAt 100 100,
        .resetSchedule 100 .recorded, .resetActive 100]
      (start (boot (fun _ => ⟨none, 0⟩) (fun _ => ⟨0, 0, false⟩) (fun _ => ⟨false, 0, 0⟩))
        4294967296) = some s ∧ step .debug (.wake ⟨100, 100⟩) s = some t ∧
      content t.timed.npl 200 = some [112] ∧ ¬ OnTime .debug (.wake ⟨100, 100⟩) s) ∧
    ∃ s t, run (step .debug)
      [.queue (.init 200), .init 100 200 0 0, .resetExpiresAt 100 10, .resetSchedule 100 .recorded,
        .resetActive 100, .stop 100, .resetExpiresAt 100 1000, .resetSchedule 100 .recorded,
        .resetActive 100, .clock 10]
      (start (boot (fun _ => ⟨none, 0⟩) (fun _ => ⟨0, 0, false⟩) (fun _ => ⟨false, 0, 0⟩)) 0) =
        some s ∧ step .debug (.wake ⟨10, 100⟩) s = some t ∧
      content t.timed.npl 200 = some [112] ∧ ¬ OnTime .debug (.wake ⟨10, 100⟩) s := by
  constructor
  · refine ⟨_, _, rfl, rfl, rfl, fun h => ?_⟩
    obtain ⟨r, hr, hle⟩ := h rfl 100 rfl
    cases hr
    revert hle
    decide
  · refine ⟨_, _, rfl, rfl, rfl, fun h => ?_⟩
    obtain ⟨r, hr, hle⟩ := h rfl 100 rfl
    cases hr
    revert hle
    decide

end CalloutDeadline
