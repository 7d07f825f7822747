import ApacheNimble.EventLoop

/-!
# Timers do not run more often than they are set

A callout is asked to put its event once for each reset at most, what it puts
goes through a queue, and a loop runs what comes out of it.
-/
namespace TimerRuns

open PortLayer QueuePanics CalloutDeadline QueueChanges Conveyor EventLoop Transition

variable {profile : Profile} {s t : State} {c : Ptr}

/-- The mark that a step of anyone but the loops adds. -/
def markOf (l : CalloutFiring.Label) (s : CalloutFiring.State) : Option (Ptr × Tickets.Mark) :=
  match l with
  | .timed l => CalloutFiring.mark l s.base
  | .clone _ => none
  | .wake w | .wakeByRef w =>
    if bleNplCalloutIsActive w.data s.base.timed.npl then some (w.data, .use) else none

/-- Someone puts the event of the callout on a queue without the callout. -/
def putsDirectly (c : Ptr) : Label → Bool
  | .firing (.timed (.queue (.put _ ev))) => ev = calloutEvent c
  | _ => false

def resets (c : Ptr) : Label → Bool
  | .firing (.timed (.resetExpiresAt d _)) => d = c
  | _ => false

theorem step_logs {l : CalloutFiring.Label} {u v : CalloutFiring.State}
    (h : CalloutFiring.step profile l u = some v) :
    v.logs = CalloutFiring.record (markOf l u) u.logs := by
  cases l with
  | timed l =>
    obtain ⟨-, h⟩ := Option.ite_none_left_eq_some.mp h
    obtain ⟨base, hbase, rfl⟩ := Option.map_eq_some_iff.mp h
    exact CalloutFiring.marked_eq hbase u.logs
  | clone w =>
    obtain ⟨-, hv⟩ := Option.ite_none_right_eq_some.mp h
    cases hv
    rfl
  | wake w | wakeByRef w =>
    obtain ⟨-, hv⟩ := Option.ite_none_right_eq_some.mp h
    obtain ⟨timed, -, rfl⟩ := CalloutFiring.wakeBy_eq_some hv
    rfl

theorem count_record (m : Option (Ptr × Tickets.Mark)) (logs : Ptr → List Tickets.Mark)
    (x : Tickets.Mark) : (CalloutFiring.record m logs c).count x =
      (logs c).count x + if m = some (c, x) then 1 else 0 := by
  cases m with
  | none => rfl
  | some m =>
    obtain ⟨d, m⟩ := m
    by_cases hd : c = d
    · subst hd
      rw [CalloutFiring.record_self]
      by_cases hm : m = x <;> simp [hm]
    · rw [CalloutFiring.record_other m logs hd]
      simp [Ne.symm hd]

theorem count_wakePuts (d : Ptr) (s : Npl) :
    (wakePuts d s).countP (fun e => e.2 = calloutEvent c) =
      if (if bleNplCalloutIsActive d s then some (d, Tickets.Mark.use) else none) =
        some (c, .use) then 1 else 0 := by
  cases ha : bleNplCalloutIsActive d s with
  | false => simp [wakePuts, ha]
  | true =>
    simp only [wakePuts, ha, if_true]
    by_cases hd : d = c <;> simp [calloutEvent_inj, hd]

/-- The callout puts its event with the mark of a use. -/
theorem count_putsOf {l : CalloutFiring.Label} (u : CalloutFiring.State)
    (hl : putsDirectly c (.firing l) = false) :
    (putsOf l u.base.timed.npl).countP (fun e => e.2 = calloutEvent c) =
      if markOf l u = some (c, .use) then 1 else 0 := by
  cases l with
  | timed l =>
    cases l with
    | init | resetActive | stop | clock => simp [putsOf, markOf, CalloutFiring.mark, putsEvent]
    | resetExpiresAt => simp [putsOf, markOf, CalloutFiring.mark]
    | resetSchedule d how =>
      cases how with
      | recorded | merged => simp [putsOf, markOf, CalloutFiring.mark, putsEvent]
      | immediate =>
        rw [markOf, CalloutFiring.mark_immediate]
        exact count_wakePuts d _
    | wake w =>
      rw [markOf, CalloutFiring.mark_wake]
      exact count_wakePuts w.callout _
    | queue op =>
      cases op with
      | init | get | remove => simp [putsOf, markOf, CalloutFiring.mark, putsEvent]
      | put evq ev =>
        have hev : ev ≠ calloutEvent c := by simpa [putsDirectly] using hl
        simp [putsOf, markOf, CalloutFiring.mark, putsEvent, hev]
  | clone w => simp [putsOf, markOf]
  | wake w | wakeByRef w => exact count_wakePuts w.data _

theorem markOf_issue {l : CalloutFiring.Label} (u : CalloutFiring.State) :
    markOf l u = some (c, .issue) ↔ resets c (.firing l) = true := by
  cases l with
  | timed l =>
    cases l with
    | resetExpiresAt d ticks => simp [markOf, CalloutFiring.mark, resets]
    | init | resetSchedule | resetActive | stop | wake | clock | queue =>
      simp [markOf, CalloutFiring.mark, resets]
  | clone w => simp [markOf, resets]
  | wake w | wakeByRef w => simp [markOf, resets]

theorem accounted_congr {u v : CalloutFiring.State} (h : CalloutFiring.Accounted u)
    (hlogs : v.logs = u.logs) (hwakers : v.wakers = u.wakers)
    (htimers : v.base.timed.timers = u.base.timed.timers) (hknown : v.base.known = u.base.known)
    (hpcs : v.base.pcs = u.base.pcs)
    (hcallouts : v.base.timed.npl.callouts = u.base.timed.npl.callouts) :
    CalloutFiring.Accounted v where
  timers := by
    rw [htimers, hknown]
    exact h.timers
  wakers := by
    rw [hwakers, hknown]
    exact h.wakers
  pcs := by
    rw [hpcs, hknown]
    exact h.pcs
  spare d := by
    have htickets : CalloutFiring.tickets v.base d = CalloutFiring.tickets u.base d :=
      CalloutFiring.tickets_congr (by rw [hknown]) (by rw [hcallouts]) (by rw [hpcs])
    rw [hlogs, htickets]
    exact h.spare d

/-- The callout has been asked to put its event as often as it was reset, and
has put it as often as the marks say. -/
structure Timed (c : Ptr) (s : State) : Prop where
  accounted : CalloutFiring.Accounted s.firing
  puts : s.puts.countP (fun e => e.2 = calloutEvent c) = (s.firing.logs c).count .use

/-- A step other than a direct put keeps the count, and a reset is one more. -/
theorem step_timed (l : Label) (s t : State) (h : Timed c s) (hl : putsDirectly c l = false)
    (hstep : step profile l s = some t) : Timed c t := by
  cases l with
  | firing l =>
    obtain ⟨-, hstep⟩ := Option.ite_none_left_eq_some.mp hstep
    obtain ⟨firing, hfiring, rfl⟩ := Option.map_eq_some_iff.mp hstep
    refine ⟨CalloutFiring.step_accounted l s.firing firing h.accounted hfiring, ?_⟩
    have hcount : (putsOf l s.npl).countP (fun e => e.2 = calloutEvent c) =
      if markOf l s.firing = some (c, .use) then 1 else 0 := count_putsOf s.firing hl
    simp only [List.countP_append, h.puts, hcount, step_logs hfiring, count_record]
  | eventInit ev fn arg =>
    cases hstep
    exact ⟨accounted_congr h.accounted rfl rfl rfl rfl rfl rfl, h.puts⟩
  | setArg ev arg =>
    cases hstep
    exact ⟨accounted_congr h.accounted rfl rfl rfl rfl rfl rfl, h.puts⟩
  | poll evq =>
    obtain ⟨-, hstep⟩ := Option.ite_none_right_eq_some.mp hstep
    obtain ⟨⟨npl, p⟩, hget, rfl⟩ := Option.map_eq_some_iff.mp hstep
    have hcallouts := Callout.bleNplEventqGet_callouts hget
    cases p with
    | pending => exact ⟨accounted_congr h.accounted rfl rfl rfl rfl rfl hcallouts, h.puts⟩
    | ready ev => exact ⟨accounted_congr h.accounted rfl rfl rfl rfl rfl hcallouts, h.puts⟩
  | run evq =>
    simp only [step] at hstep
    split at hstep
    · obtain ⟨handler, -, rfl⟩ := Option.map_eq_some_iff.mp hstep
      exact ⟨h.accounted, h.puts⟩
    · cases hstep
  | done evq =>
    obtain ⟨-, ht⟩ := Option.ite_none_right_eq_some.mp hstep
    cases ht
    exact ⟨h.accounted, h.puts⟩

theorem step_issues {l : Label} {s t : State} (hstep : step profile l s = some t) :
    (t.firing.logs c).count .issue =
      (s.firing.logs c).count .issue + if resets c l then 1 else 0 := by
  cases l with
  | firing l =>
    obtain ⟨-, hstep⟩ := Option.ite_none_left_eq_some.mp hstep
    obtain ⟨firing, hfiring, rfl⟩ := Option.map_eq_some_iff.mp hstep
    simp only [step_logs hfiring, count_record, markOf_issue]
  | eventInit | setArg =>
    cases hstep
    rfl
  | poll evq =>
    obtain ⟨-, hstep⟩ := Option.ite_none_right_eq_some.mp hstep
    obtain ⟨⟨npl, p⟩, -, rfl⟩ := Option.map_eq_some_iff.mp hstep
    cases p <;> rfl
  | run evq =>
    simp only [step] at hstep
    split at hstep
    · obtain ⟨handler, -, rfl⟩ := Option.map_eq_some_iff.mp hstep
      rfl
    · cases hstep
  | done evq =>
    obtain ⟨-, ht⟩ := Option.ite_none_right_eq_some.mp hstep
    cases ht
    rfl

/-- There is a mark of a reset for each reset in the run. -/
theorem run_issues {ls : List Label} {s t : State} (h : run (step profile) ls s = some t) :
    (t.firing.logs c).count .issue = (s.firing.logs c).count .issue + ls.countP (resets c) := by
  induction ls generalizing s with
  | nil =>
    cases h
    rfl
  | cons l ls ih =>
    obtain ⟨u, hu, ht⟩ := run_cons_some _ h
    rw [ih ht, step_issues hu, List.countP_cons]
    omega

/-- However resets, stops, wakes of cloned wakers and the loops interleave, and
on whatever queues, the event of a callout that only the callout puts is run at
most as often as the callout was reset. -/
theorem timer_runs_le_resets (profile : Profile) (events : Ptr → BleNplEvent)
    (callouts : Ptr → BleNplCallout) (now : UInt64) (ls : List Label) (s : State) (c : Ptr)
    (h : run (step profile) ls (start (blank events callouts) now) = some s)
    (hdirect : ∀ l ∈ ls, putsDirectly c l = false) :
    s.ran.countP (fun r => r.ev = calloutEvent c) ≤ ls.countP (resets c) := by
  have horderly : Orderly s := run_invariant step_orderly (start_orderly events callouts now) h
  have hstart : Timed c (start (blank events callouts) now) :=
    ⟨CalloutFiring.start_accounted _ now, rfl⟩
  have htimed : Timed c s := run_invariant_along step_timed hstart
    (along_of_forall (fun l hl _ => hdirect l hl) _) h
  obtain ⟨f, -, hconveyed⟩ := horderly.queues
  have hqueue : ∀ evq, (on evq (s.ran.map (fun r => (r.evq, r.ev)))).count (calloutEvent c) ≤
      (on evq s.puts).count (calloutEvent c) := by
    intro evq
    have hsub := (hconveyed evq).sublist
    rw [List.append_assoc] at hsub
    exact ((List.sublist_append_left _ _).trans hsub).count_le _
  have hruns := countP_le (calloutEvent c) hqueue
  rw [List.countP_map, htimed.puts] at hruns
  have hissues := run_issues (c := c) h
  have hatMost := (htimed.accounted.accountable c).atMost
  calc s.ran.countP (fun r => r.ev = calloutEvent c)
      ≤ (s.firing.logs c).count .use := hruns
    _ ≤ (s.firing.logs c).count .issue := hatMost
    _ = ls.countP (resets c) := by rw [hissues]; simp [start, CalloutFiring.start]

theorem timer_runs_le_resets_two_events : ∃ s, run (step .debug) twoEvents zeroed = some s ∧
    s.ran.countP (fun r => r.ev = calloutEvent 16) = 1 ∧
    s.ran.countP (fun r => r.ev = calloutEvent 16) ≤ twoEvents.countP (resets 16) := by
  obtain ⟨s, hrun, hend⟩ := Option.map_eq_some_iff.mp twoEvents_ends
  refine ⟨s, hrun, by rw [(Prod.mk.inj hend).1]; rfl, ?_⟩
  exact timer_runs_le_resets .debug _ _ 0 twoEvents s 16 hrun (by decide)

end TimerRuns
