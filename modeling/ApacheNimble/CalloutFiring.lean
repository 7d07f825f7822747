import ApacheNimble.Tickets
import ApacheNimble.CalloutDeadline

/-!
# How often a callout fires

Wakes of a callout come from the timer queue, and from any waker made for it,
whenever they like. A reset is a ticket for one put of its event, and a stop
voids the tickets that have not been used.
-/
namespace CalloutFiring

open PortLayer EventQueue Callout CalloutDeadline Tickets Transition

variable {profile : Profile}

/-- A waker of the callout at the address it carries. -/
structure RawWaker where
  data : Ptr
  deriving DecidableEq, Repr

def cloneWaker (data : Ptr) : RawWaker := ⟨data⟩

/-- `logs` has the marks of each callout: resets that have begun, stops that
have completed, and puts of its event by the callback. -/
structure State where
  base : Callout.State
  wakers : List RawWaker
  logs : Ptr → List Mark

def start (npl : Npl) (now : UInt64) : State := ⟨Callout.start npl now, [], fun _ => []⟩

inductive Label where
  | timed (l : Callout.Label)
  | clone (w : RawWaker)
  | wake (w : RawWaker)
  | wakeByRef (w : RawWaker)
  deriving DecidableEq, Repr

def record (m : Option (Ptr × Mark)) (logs : Ptr → List Mark) : Ptr → List Mark :=
  match m with
  | some (c, m) => Function.update logs c (logs c ++ [m])
  | none => logs

/-- A put for each time that the event of a callout has come into a channel. -/
def observe (s t : Npl) (logs : Ptr → List Mark) : Ptr → List Mark := fun c =>
  logs c ++ List.replicate (occurrences (calloutEvent c) t - occurrences (calloutEvent c) s) .use

/-- What a statement or a wake from the timer queue adds to the marks. What
others put on the queues is none of the callback's puts. -/
def marked (l : Callout.Label) (s t : Callout.State) (logs : Ptr → List Mark) :
    Ptr → List Mark :=
  match l with
  | .resetExpiresAt c _ => record (some (c, .issue)) logs
  | .stop c => record (some (c, .void)) logs
  | .queue _ => logs
  | _ => observe s.timed.npl t.timed.npl logs

/-- A stop in the middle of a reset of the same callout. -/
def overlaps (l : Callout.Label) (s : Callout.State) : Prop :=
  match l with
  | .stop c => s.pcs c ≠ .idle
  | _ => False

instance (l : Callout.Label) (s : Callout.State) : Decidable (overlaps l s) := by
  unfold overlaps
  split <;> infer_instance

/-- The waker that a reset makes for the timer queue. -/
def newWakers : Callout.Label → List RawWaker
  | .resetSchedule c _ => [⟨c⟩]
  | _ => []

/-- Both functions of the vtable that wake run the callback. -/
def wakeBy (profile : Profile) (w : RawWaker) (s : State) : Option State :=
  (Callout.wake profile w.data s.base.timed).map (fun timed => { s with
    base := { s.base with timed := timed }
    logs := observe s.base.timed.npl timed.npl s.logs })

def step (profile : Profile) (l : Label) (s : State) : Option State :=
  match l with
  | .timed l =>
    if overlaps l s.base then none
    else (Callout.step profile l s.base).map (fun base =>
      ⟨base, newWakers l ++ s.wakers, marked l s.base base s.logs⟩)
  | .clone w =>
    if w ∈ s.wakers then some { s with wakers := cloneWaker w.data :: s.wakers } else none
  | .wake w =>
    if w ∈ s.wakers then wakeBy profile w { s with wakers := s.wakers.erase w } else none
  | .wakeByRef w => if w ∈ s.wakers then wakeBy profile w s else none

/-- The tickets a callout holds: one while it is active, and one for a reset
that has begun and not ended. -/
def tickets (s : Callout.State) (c : Ptr) : Nat :=
  if c ∈ s.known then
    (bleNplCalloutIsActive c s.timed.npl).toNat + (if s.pcs c = .idle then 0 else 1)
  else 0

/-- Only callouts that have been initialised are reset or woken, and every
callout has the tickets that it holds. -/
structure Accounted (s : State) : Prop where
  timers : ∀ w ∈ s.base.timed.timers, w.callout ∈ s.base.known
  wakers : ∀ w ∈ s.wakers, w.data ∈ s.base.known
  pcs : ∀ c, s.base.pcs c ≠ .idle → c ∈ s.base.known
  spare : ∀ c, Spare (s.logs c) (tickets s.base c)

/-- The event is put at most once for each reset, and never while stopped. -/
structure Accountable (marks : List Mark) : Prop where
  assigned : ∃ f, Assigns marks f
  atMost : marks.count .use ≤ marks.count .issue
  stopped : ∀ k j : Nat, marks[k]? = some Mark.void → marks[j]? = some Mark.use → k < j →
    ∃ i, k < i ∧ i < j ∧ marks[i]? = some Mark.issue

variable {s t : State} {c : Ptr}

theorem start_accounted (npl : Npl) (now : UInt64) : Accounted (start npl now) where
  timers := by simp [start, Callout.start]
  wakers := by simp [start]
  pcs := by simp [start, Callout.start]
  spare c := spare_nil

theorem Accounted.accountable (h : Accounted s) (c : Ptr) : Accountable (s.logs c) := by
  obtain ⟨f, ps, ha, -, -, hcount⟩ := h.spare c
  exact ⟨⟨f, ha⟩, by omega, fun k j hk hj hlt => ha.issue_between hk hj hlt⟩

@[simp] theorem record_self (m : Mark) (logs : Ptr → List Mark) :
    record (some (c, m)) logs c = logs c ++ [m] := Function.update_self ..

theorem record_other {d : Ptr} (m : Mark) (logs : Ptr → List Mark) (h : d ≠ c) :
    record (some (c, m)) logs d = logs d := Function.update_of_ne h ..

/-- The mark that a step adds: one use if it puts the event of the callout. -/
def mark (l : Callout.Label) (s : Callout.State) : Option (Ptr × Mark) :=
  match l with
  | .resetExpiresAt c _ => some (c, .issue)
  | .stop c => some (c, .void)
  | l => (putsEvent l s).map (·, .use)

theorem observe_eq {s t : Npl} {d : Option Ptr} (logs : Ptr → List Mark)
    (h : ∀ c, occurrences (calloutEvent c) t =
      occurrences (calloutEvent c) s + if d = some c then 1 else 0) :
    observe s t logs = record (d.map (·, .use)) logs := by
  funext c
  rw [observe, h c, Nat.add_sub_cancel_left]
  cases d with
  | none => simp [record]
  | some d =>
    by_cases hd : d = c
    · subst hd
      simp [record]
    · simp [record, hd, Ne.symm hd]

/-- Callbacks put an event exactly when they find its callout active. -/
theorem marked_eq {l : Callout.Label} {s t : Callout.State}
    (h : Callout.step profile l s = some t) (logs : Ptr → List Mark) :
    marked l s t logs = record (mark l s) logs := by
  cases l with
  | resetExpiresAt | stop | queue => rfl
  | init | resetSchedule | resetActive | wake | clock =>
    exact observe_eq logs (putsEvent_occurrences h (by simp))

theorem wakeBy_eq_some {w : RawWaker} (h : wakeBy profile w s = some t) :
    ∃ timed, Callout.wake profile w.data s.base.timed = some timed ∧ t = { s with
      base := { s.base with timed := timed }
      logs := record (if bleNplCalloutIsActive w.data s.base.timed.npl then some (w.data, .use)
        else none) s.logs } := by
  obtain ⟨timed, hwake, rfl⟩ := Option.map_eq_some_iff.mp h
  refine ⟨timed, hwake, ?_⟩
  rw [observe_eq s.logs (wake_occurrences hwake)]
  cases bleNplCalloutIsActive w.data s.base.timed.npl <;> rfl

theorem tickets_congr {s t : Callout.State} (hknown : c ∈ t.known ↔ c ∈ s.known)
    (hactive : (t.timed.npl.callouts c).active = (s.timed.npl.callouts c).active)
    (hpcs : t.pcs c = s.pcs c) : tickets t c = tickets s c := by
  unfold tickets bleNplCalloutIsActive
  rw [hactive, hpcs]
  exact if_congr hknown rfl rfl

/-- A wake of a known callout uses the ticket of an active one. -/
theorem wake_spare {s t : Callout.State} {logs : Ptr → List Mark} (hc : c ∈ s.known)
    (h : Spare (logs c) (tickets s c)) (hknown : t.known = s.known)
    (hactive : (t.timed.npl.callouts c).active = false)
    (hpcs : t.pcs c = .idle ↔ s.pcs c = .idle) :
    Spare (record (if bleNplCalloutIsActive c s.timed.npl then some (c, .use) else none) logs c)
      (tickets t c) := by
  have hafter : tickets t c = if s.pcs c = .idle then 0 else 1 := by
    simp [tickets, bleNplCalloutIsActive, hknown, hc, hactive, hpcs]
  rw [hafter]
  cases ha : bleNplCalloutIsActive c s.timed.npl with
  | true =>
    have hbefore : tickets s c = (if s.pcs c = .idle then 0 else 1) + 1 := by
      simp [tickets, hc, ha, Nat.add_comm]
    rw [hbefore] at h
    rw [if_pos rfl, record_self]
    exact h.use
  | false =>
    have hbefore : tickets s c = if s.pcs c = .idle then 0 else 1 := by
      simp [tickets, hc, ha]
    rw [hbefore] at h
    exact h

theorem record_wake_other {d : Ptr} (b : Bool) (logs : Ptr → List Mark) (h : d ≠ c) :
    record (if b then some (c, .use) else none) logs d = logs d := by
  cases b with
  | true => exact record_other .use logs h
  | false => rfl

/-- A step that concerns one callout. -/
theorem Accounted.next (h : Accounted s) (c : Ptr)
    (htimers : ∀ w ∈ t.base.timed.timers, w.callout ∈ t.base.known)
    (hwakers : ∀ w ∈ t.wakers, w.data ∈ t.base.known)
    (hpcs : ∀ d, t.base.pcs d ≠ .idle → d ∈ t.base.known)
    (hother : ∀ d, d ≠ c → t.logs d = s.logs d ∧ tickets t.base d = tickets s.base d)
    (hself : Spare (t.logs c) (tickets t.base c)) : Accounted t := by
  refine ⟨htimers, hwakers, hpcs, fun d => ?_⟩
  by_cases hd : d = c
  · subst hd
    exact hself
  · rw [(hother d hd).1, (hother d hd).2]
    exact h.spare d

theorem wakeBy_accounted {w : RawWaker} (h : Accounted s) (hw : w.data ∈ s.base.known)
    (hstep : wakeBy profile w s = some t) : Accounted t := by
  obtain ⟨timed, hwake, rfl⟩ := wakeBy_eq_some hstep
  obtain ⟨npl, hnpl, rfl⟩ := wake_eq_some hwake
  refine h.next w.data h.timers h.wakers h.pcs (fun d hd => ⟨?_, ?_⟩) ?_
  · exact record_wake_other _ s.logs hd
  · refine tickets_congr Iff.rfl ?_ rfl
    simp [hnpl, hd]
  · refine wake_spare hw (h.spare w.data) rfl ?_ Iff.rfl
    simp [hnpl]

/-- A callout of which a reset moves on is known. -/
theorem scheduled_known {pc : ResetPc} (h : Accounted s) (hc : c ∈ s.base.known) :
    ∀ d, Function.update s.base.pcs c pc d ≠ .idle → d ∈ s.base.known := by
  intro d hd
  by_cases hdc : d = c
  · rw [hdc]
    exact hc
  · exact h.pcs d (by simpa [hdc] using hd)

theorem mark_immediate (c : Ptr) (s : Callout.State) : mark (.resetSchedule c .immediate) s =
    if bleNplCalloutIsActive c s.timed.npl then some (c, .use) else none := by
  cases ha : bleNplCalloutIsActive c s.timed.npl <;> simp [mark, putsEvent, ha]

theorem mark_wake (w : Wake) (s : Callout.State) : mark (.wake w) s =
    if bleNplCalloutIsActive w.callout s.timed.npl then some (w.callout, .use) else none := by
  cases ha : bleNplCalloutIsActive w.callout s.timed.npl <;> simp [mark, putsEvent, ha]

theorem timed_accounted {l : Callout.Label} {base : Callout.State} (h : Accounted s)
    (hoverlaps : ¬ overlaps l s.base) (hstep : Callout.step profile l s.base = some base) :
    Accounted ⟨base, newWakers l ++ s.wakers, record (mark l s.base) s.logs⟩ := by
  cases step_effect hstep with
  | init c evq evCb evArg npl hidle hnpl =>
    refine h.next c ?_ ?_ ?_ (fun d hd => ⟨rfl, ?_⟩) ?_
    · exact fun w hw => List.mem_cons_of_mem c (h.timers w hw)
    · exact fun w hw => List.mem_cons_of_mem c (h.wakers w hw)
    · exact fun d hd => List.mem_cons_of_mem c (h.pcs d hd)
    · exact tickets_congr (by simp [hd]) (by simp [hnpl, hd]) rfl
    · refine (h.spare c).mono ?_
      simp [tickets, bleNplCalloutIsActive, hnpl, hidle]
  | resetExpiresAt c ticks e npl hknown hidle hadd hnpl =>
    refine h.next c h.timers h.wakers ?_ (fun d hd => ⟨?_, ?_⟩) ?_
    · exact scheduled_known h hknown
    · exact record_other .issue s.logs hd
    · exact tickets_congr Iff.rfl (by simp [hnpl, hd]) (by simp [hd])
    · change Spare (record (some (c, .issue)) s.logs c) _
      rw [record_self]
      refine (h.spare c).issue.mono ?_
      simp [tickets, bleNplCalloutIsActive, hnpl, hknown, hidle]
  | recorded c timers hpc htimers =>
    have hc := h.pcs c (by simp [hpc])
    refine h.next c ?_ ?_ ?_ (fun d hd => ⟨rfl, tickets_congr Iff.rfl rfl (by simp [hd])⟩) ?_
    · rw [htimers]
      exact List.forall_mem_cons.mpr ⟨hc, h.timers⟩
    · exact List.forall_mem_cons.mpr ⟨hc, h.wakers⟩
    · exact scheduled_known h hc
    · refine (h.spare c).mono ?_
      simp [tickets, hpc]
  | merged c timers hpc htimers =>
    have hc := h.pcs c (by simp [hpc])
    refine h.next c ?_ ?_ ?_ (fun d hd => ⟨rfl, tickets_congr Iff.rfl rfl (by simp [hd])⟩) ?_
    · rw [htimers]
      refine List.forall_mem_cons.mpr ⟨hc, ?_⟩
      exact fun w hw => h.timers w (List.mem_of_mem_filter hw)
    · exact List.forall_mem_cons.mpr ⟨hc, h.wakers⟩
    · exact scheduled_known h hc
    · refine (h.spare c).mono ?_
      simp [tickets, hpc]
  | immediate c npl hpc hdue hnpl =>
    have hc := h.pcs c (by simp [hpc])
    refine h.next c h.timers ?_ (scheduled_known h hc) (fun d hd => ⟨?_, ?_⟩) ?_
    · exact List.forall_mem_cons.mpr ⟨hc, h.wakers⟩
    · rw [mark_immediate]
      exact record_wake_other _ s.logs hd
    · exact tickets_congr Iff.rfl (by simp [hnpl, hd]) (by simp [hd])
    · rw [mark_immediate]
      exact wake_spare hc (h.spare c) rfl (by simp [hnpl]) (by simp [hpc])
  | resetActive c hpc =>
    have hc := h.pcs c (by simp [hpc])
    refine h.next c h.timers h.wakers ?_ (fun d hd => ⟨rfl, ?_⟩) ?_
    · exact scheduled_known h hc
    · exact tickets_congr Iff.rfl (by simp [hd]) (by simp [hd])
    · refine (h.spare c).mono ?_
      simp [tickets, bleNplCalloutIsActive, hc, hpc]
  | stop c =>
    have hidle : s.base.pcs c = .idle := by simpa [overlaps] using hoverlaps
    refine h.next c h.timers h.wakers h.pcs (fun d hd => ⟨record_other .void s.logs hd, ?_⟩) ?_
    · exact tickets_congr Iff.rfl (by simp [hd]) rfl
    · change Spare (record (some (c, .void)) s.logs c) _
      rw [record_self]
      refine (h.spare c).void.mono ?_
      simp [tickets, bleNplCalloutIsActive, hidle]
  | wake w npl hmem hdue hnpl =>
    have hc := h.timers w hmem
    refine h.next w.callout ?_ h.wakers h.pcs (fun d hd => ⟨?_, ?_⟩) ?_
    · exact fun v hv => h.timers v (List.mem_of_mem_erase hv)
    · rw [mark_wake]
      exact record_wake_other _ s.logs hd
    · exact tickets_congr Iff.rfl (by simp [hnpl, hd]) rfl
    · rw [mark_wake]
      exact wake_spare hc (h.spare w.callout) rfl (by simp [hnpl]) Iff.rfl
  | clock now hle =>
    exact ⟨h.timers, h.wakers, h.pcs, fun d => h.spare d⟩
  | queue op npl hnpl =>
    refine ⟨h.timers, h.wakers, h.pcs, fun d => ?_⟩
    have hsame : tickets { s.base with timed := { s.base.timed with npl := npl } } d =
        tickets s.base d := tickets_congr Iff.rfl (by rw [hnpl]) rfl
    change Spare (s.logs d) _
    rw [hsame]
    exact h.spare d

theorem step_accounted (l : Label) (s t : State) (h : Accounted s)
    (hstep : step profile l s = some t) : Accounted t := by
  cases l with
  | timed l =>
    obtain ⟨hoverlaps, hstep⟩ := Option.ite_none_left_eq_some.mp hstep
    obtain ⟨base, hbase, rfl⟩ := Option.map_eq_some_iff.mp hstep
    rw [marked_eq hbase]
    exact timed_accounted h hoverlaps hbase
  | clone w =>
    obtain ⟨hw, ht⟩ := Option.ite_none_right_eq_some.mp hstep
    cases ht
    exact ⟨h.timers, List.forall_mem_cons.mpr ⟨h.wakers w hw, h.wakers⟩, h.pcs, h.spare⟩
  | wake w =>
    obtain ⟨hw, ht⟩ := Option.ite_none_right_eq_some.mp hstep
    have herase : Accounted { s with wakers := s.wakers.erase w } :=
      ⟨h.timers, fun v hv => h.wakers v (List.mem_of_mem_erase hv), h.pcs, h.spare⟩
    exact wakeBy_accounted herase (h.wakers w hw) ht
  | wakeByRef w =>
    obtain ⟨hw, ht⟩ := Option.ite_none_right_eq_some.mp hstep
    exact wakeBy_accounted h (h.wakers w hw) ht

/-- In every run, the puts of a callout's event by its callback can be assigned
in their order to resets that began before them with no stop completed since.
So there are never more puts than resets begun, and between a stop and a put a
reset begins. -/
theorem fires_once_per_reset (profile : Profile) (npl : Npl) (now : UInt64) (ls : List Label)
    (s : State) (h : run (step profile) ls (start npl now) = some s) (c : Ptr) :
    Accountable (s.logs c) :=
  (run_invariant step_accounted (start_accounted npl now) h).accountable c

def idle : Npl := boot (fun _ => ⟨none, 0⟩) (fun _ => ⟨0, 0, false⟩) (fun _ => ⟨false, 0, 0⟩)

/-- Two wakes follow one reset, and a late one the stop of another. -/
def spuriousTrace : List Label :=
  [.timed (.queue (.init 100)), .timed (.init 16 100 0 0), .timed (.resetExpiresAt 16 10),
    .timed (.resetSchedule 16 .recorded), .timed (.resetActive 16), .clone ⟨16⟩, .wake ⟨16⟩,
    .wakeByRef ⟨16⟩, .timed (.resetExpiresAt 16 20), .timed (.resetSchedule 16 .merged),
    .timed (.resetActive 16), .timed (.stop 16), .wakeByRef ⟨16⟩]

theorem fires_once_per_reset_twice :
    ∃ s, run (step .release) spuriousTrace (start idle 0) = some s ∧
      content s.base.timed.npl 100 = some [28] ∧ s.logs 16 = [.issue, .use, .issue, .void] ∧
      Accountable (s.logs 16) :=
  ⟨_, rfl, rfl, rfl, fires_once_per_reset .release idle 0 spuriousTrace _ rfl 16⟩

end CalloutFiring
