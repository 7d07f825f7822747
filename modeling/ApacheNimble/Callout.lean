import ApacheNimble.EventQueueFamily

/-!
# Callouts and the timer queue

The driver records deadlines for wakers, and a waker of a callout carries
nothing but its address. Neither a later reset nor a stop takes a recorded
deadline back. A reset is three statements, and wakes may come between them.
-/
namespace Callout

open PortLayer EventQueue Fifo Transition

variable {profile : Profile}

structure Wake where
  deadline : UInt64
  callout : Ptr
  deriving DecidableEq, Repr

structure Timed where
  npl : Npl
  now : UInt64
  timers : List Wake

/-- How `schedule_wake` treats a deadline: as an entry of its own, merged with
the entries of the same waker, or by waking at once when it has passed. -/
inductive Scheduling where
  | recorded | merged | immediate
  deriving DecidableEq, Repr

inductive BleNplError where
  | OK | ENOENT
  deriving DecidableEq, Repr

def earlier (d : UInt64) (w : Wake) : UInt64 := if w.deadline < d then w.deadline else d

def earliest (deadline : UInt64) (c : Ptr) (timers : List Wake) : UInt64 :=
  (timers.filter (·.callout = c)).foldl earlier deadline

/-- The waker of the callout is woken. -/
def wake (profile : Profile) (c : Ptr) (s : Timed) : Option Timed :=
  (calloutCb profile c s.npl).map (fun npl => { s with npl := npl })

def scheduleWake (profile : Profile) (how : Scheduling) (deadline : UInt64) (c : Ptr) (s : Timed) :
    Option Timed :=
  match how with
  | .recorded => some { s with timers := ⟨deadline, c⟩ :: s.timers }
  | .merged => some { s with
      timers := ⟨earliest deadline c s.timers, c⟩ :: s.timers.filter (·.callout ≠ c) }
  | .immediate => if deadline ≤ s.now then wake profile c s else none

/-- `(*c).expires_at = now() as u32 + ticks` -/
def setExpiresAt (profile : Profile) (c : Ptr) (ticks : UInt32) (s : Timed) : Option Timed := do
  let expiresAt ← profile.addU32 s.now.toUInt32 ticks
  let callouts := Function.update s.npl.callouts c { s.npl.callouts c with expiresAt := expiresAt }
  return { s with npl := { s.npl with callouts := callouts } }

def scheduleExpiry (profile : Profile) (how : Scheduling) (c : Ptr) (s : Timed) : Option Timed :=
  scheduleWake profile how (s.npl.callouts c).expiresAt.toUInt64 c s

def bleNplCalloutReset (profile : Profile) (how : Scheduling) (c : Ptr) (ticks : UInt32)
    (s : Timed) : Option (Timed × BleNplError) := do
  let s ← setExpiresAt profile c ticks s
  let s ← scheduleExpiry profile how c s
  return ({ s with npl := s.npl.setActive c true }, .ENOENT)

/-- `now() as u32` -/
def bleNplTimeGet (s : Timed) : UInt32 := s.now.toUInt32

/-- The statement of a reset that comes next. -/
inductive ResetPc where
  | idle | scheduling | activating
  deriving DecidableEq, Repr

/-- `latest` is the clock value read by the latest reset, and its argument. -/
structure State where
  timed : Timed
  pcs : Ptr → ResetPc
  latest : Ptr → Option (UInt64 × UInt32)
  known : List Ptr

def start (npl : Npl) (now : UInt64) : State := ⟨⟨npl, now, []⟩, fun _ => .idle, fun _ => none, []⟩

inductive Label where
  | init (c evq evCb evArg : Ptr)
  | resetExpiresAt (c : Ptr) (ticks : UInt32)
  | resetSchedule (c : Ptr) (how : Scheduling)
  | resetActive (c : Ptr)
  | stop (c : Ptr)
  | wake (w : Wake)
  | clock (now : UInt64)
  | queue (op : EventQueueFamily.Op)
  deriving DecidableEq, Repr

/-- Wakes and stops may come at any point of a reset. Callouts are initialised
before use and the other operations on one callout do not overlap. -/
def step (profile : Profile) : Label → State → Option State
  | .init c evq evCb evArg, s =>
    if s.pcs c = .idle then
      some { s with
        timed := { s.timed with npl := bleNplCalloutInit c evq evCb evArg s.timed.npl }
        known := c :: s.known }
    else none
  | .resetExpiresAt c ticks, s =>
    if c ∈ s.known ∧ s.pcs c = .idle then
      (setExpiresAt profile c ticks s.timed).map (fun timed => { s with
        timed := timed
        pcs := Function.update s.pcs c .scheduling
        latest := Function.update s.latest c (some (s.timed.now, ticks)) })
    else none
  | .resetSchedule c how, s =>
    if s.pcs c = .scheduling then
      (scheduleExpiry profile how c s.timed).map (fun timed =>
        { s with timed := timed, pcs := Function.update s.pcs c .activating })
    else none
  | .resetActive c, s =>
    if s.pcs c = .activating then
      some { s with
        timed := { s.timed with npl := s.timed.npl.setActive c true }
        pcs := Function.update s.pcs c .idle }
    else none
  | .stop c, s => some { s with timed := { s.timed with npl := bleNplCalloutStop c s.timed.npl } }
  | .wake w, s =>
    if w ∈ s.timed.timers ∧ w.deadline ≤ s.timed.now then
      (wake profile w.callout { s.timed with timers := s.timed.timers.erase w }).map
        (fun timed => { s with timed := timed })
    else none
  | .clock now, s =>
    if s.timed.now ≤ now then some { s with timed := { s.timed with now := now } } else none
  | .queue op, s =>
    (EventQueueFamily.step profile op s.timed.npl).map
      (fun r => { s with timed := { s.timed with npl := r.1 } })

def Wakes (c : Ptr) (timers : List Wake) : Prop := ∃ w ∈ timers, w.callout = c

instance (c : Ptr) (timers : List Wake) : Decidable (Wakes c timers) :=
  inferInstanceAs (Decidable (∃ w ∈ timers, w.callout = c))

theorem wakes_cons (c : Ptr) (w : Wake) (timers : List Wake) :
    Wakes c (w :: timers) ↔ w.callout = c ∨ Wakes c timers := by
  simp [Wakes]

/-- Taking out an entry leaves the entries of the other wakers. -/
theorem wakes_erase_of_ne {c : Ptr} {w : Wake} {timers : List Wake} (h : Wakes c timers)
    (hne : w.callout ≠ c) : Wakes c (timers.erase w) := by
  obtain ⟨v, hv, rfl⟩ := h
  refine ⟨v, (List.mem_erase_of_ne ?_).mpr hv, rfl⟩
  intro he
  exact hne (by rw [he])

theorem wakes_of_erase {c : Ptr} {w : Wake} {timers : List Wake} (h : Wakes c (timers.erase w)) :
    Wakes c timers := by
  obtain ⟨v, hv, he⟩ := h
  exact ⟨v, List.mem_of_mem_erase hv, he⟩

/-- The merged deadline is the new one or one that was recorded for the waker. -/
theorem earliest_cases (deadline : UInt64) (c : Ptr) (timers : List Wake) :
    earliest deadline c timers = deadline ∨ ⟨earliest deadline c timers, c⟩ ∈ timers := by
  suffices h : ∀ ws : List Wake, (∀ w ∈ ws, w.callout = c) → ∀ d : UInt64,
      ws.foldl earlier d = d ∨ ⟨ws.foldl earlier d, c⟩ ∈ ws by
    obtain h | h := h (timers.filter (·.callout = c)) (by simp) deadline
    · exact .inl h
    · exact .inr (List.mem_of_mem_filter h)
  intro ws hws
  induction ws with
  | nil => simp
  | cons w ws ih =>
    intro d
    obtain ⟨hw, hrest⟩ := List.forall_mem_cons.mp hws
    simp only [List.foldl_cons]
    obtain h | h := ih hrest (earlier d w)
    · rw [h, earlier]
      split
      · refine .inr ?_
        rw [← hw]
        exact List.mem_cons_self
      · exact .inl rfl
    · exact .inr (List.mem_cons_of_mem w h)

section Frames

variable {s t : Npl} {evq ev : Ptr}

theorem bleNplEventqPut_callouts (h : bleNplEventqPut profile evq ev s = some t) :
    t.callouts = s.callouts := by
  simp only [bleNplEventqPut, Option.bind_eq_bind, Option.bind_eq_some_iff] at h
  obtain ⟨-, -, len, -, slot, -, q, -, hq⟩ := h
  cases hq
  rfl

/-- Whether a queue takes an event does not depend on the callouts. -/
theorem bleNplEventqPut_isSome (hpool : t.eqPool = s.eqPool) (hevqs : t.evqs = s.evqs)
    (hevents : t.events = s.events) :
    (bleNplEventqPut profile evq ev t).isSome = (bleNplEventqPut profile evq ev s).isSome := by
  simp only [bleNplEventqPut, Npl.setQueued, Npl.setLen, hpool, hevqs, hevents, Option.isSome_bind,
    Option.bind_eq_bind, Option.pure_def]
  rfl

theorem bleNplEventqInit_callouts (h : bleNplEventqInit evq s = some t) :
    t.callouts = s.callouts := by
  unfold bleNplEventqInit at h
  split at h
  · cases h
    rfl
  · cases h

theorem receiveOr_callouts (i : Fin 8) (absent : Poll Ptr) (s : Npl) :
    (receiveOr i absent s).1.callouts = s.callouts := by
  unfold receiveOr
  split <;> rfl

theorem bleNplEventqGet_callouts {tmo : UInt32} {expired : Bool} {r : Poll Ptr}
    (h : bleNplEventqGet profile evq tmo expired s = some (t, r)) : t.callouts = s.callouts := by
  simp only [bleNplEventqGet, Option.bind_eq_bind, Option.bind_eq_some_iff] at h
  obtain ⟨slot, -, h⟩ := h
  have hrecv : ∀ x : Npl × Poll Ptr, x = (if tmo = 0 then receiveOr slot (.ready nullMut) s
      else if tmo = 0xFFFFFFFF then receiveOr slot .pending s
      else receiveOr slot (if expired then .ready nullMut else .pending) s) →
      x.1.callouts = s.callouts := by
    intro x hx
    rw [hx]
    split
    · exact receiveOr_callouts slot _ s
    · split <;> exact receiveOr_callouts slot _ s
  split at h
  · rename_i he
    cases h
    exact hrecv _ he.symm
  · rename_i he
    split at h
    · obtain ⟨len, -, hlen⟩ := Option.bind_eq_some_iff.mp h
      cases hlen
      exact hrecv _ he.symm
    · cases h
      exact hrecv _ he.symm

theorem removeBody_callouts (h : removeBody profile evq ev s = some t) :
    t.callouts = s.callouts := by
  simp only [removeBody, Option.bind_eq_bind, Option.bind_eq_some_iff] at h
  obtain ⟨slot, -, ⟨pulled, q⟩, -, h⟩ := h
  split at h
  · obtain ⟨len, -, hlen⟩ := Option.bind_eq_some_iff.mp h
    cases hlen
    rfl
  · obtain ⟨q', -, hq'⟩ := Option.bind_eq_some_iff.mp h
    cases hq'
    rfl

theorem removeLoop_callouts {n : Nat} (h : removeLoop profile evq ev n s = some t) :
    t.callouts = s.callouts := by
  induction n generalizing s with
  | zero =>
    cases h
    rfl
  | succ n ih =>
    obtain ⟨u, hu, ht⟩ := Option.bind_eq_some_iff.mp h
    exact (ih ht).trans (removeBody_callouts hu)

/-- The operations on queues do not touch callouts. -/
theorem queue_callouts {op : EventQueueFamily.Op} {r : EventQueueFamily.Ret}
    (h : EventQueueFamily.step profile op s = some (t, r)) : t.callouts = s.callouts := by
  cases op with
  | init evq =>
    obtain ⟨u, hu, he⟩ := Option.map_eq_some_iff.mp h
    cases he
    exact bleNplEventqInit_callouts hu
  | put evq ev =>
    obtain ⟨u, hu, he⟩ := Option.map_eq_some_iff.mp h
    cases he
    exact bleNplEventqPut_callouts hu
  | get evq tmo expired =>
    obtain ⟨⟨u, p⟩, hu, he⟩ := Option.map_eq_some_iff.mp h
    cases he
    exact bleNplEventqGet_callouts hu
  | remove evq ev =>
    obtain ⟨u, hu, he⟩ := Option.map_eq_some_iff.mp h
    cases he
    exact removeLoop_callouts hu

/-- The callback makes its own callout inactive and leaves all others. -/
theorem calloutCb_callouts {c : Ptr} (h : calloutCb profile c s = some t) :
    t.callouts = (s.setActive c false).callouts := by
  obtain ⟨-, u, hput, rfl⟩ | ⟨-, rfl⟩ := calloutCb_cases h
  · simp only [Npl.setActive, bleNplEventqPut_callouts hput]
  · rfl

/-- The callback of an active callout puts its event once, and nothing else. -/
theorem calloutCb_occurrences {c : Ptr} (h : calloutCb profile c s = some t) (d : Ptr) :
    occurrences (calloutEvent d) t = occurrences (calloutEvent d) s +
      if bleNplCalloutIsActive c s ∧ d = c then 1 else 0 := by
  obtain ⟨hactive, u, hput, rfl⟩ | ⟨hactive, rfl⟩ := calloutCb_cases h
  · obtain ⟨i, hadded⟩ := put_added hput
    have hcount := hadded.occurrences (calloutEvent d)
    simp only [calloutEvent_inj] at hcount
    simp only [hactive, true_and]
    exact hcount
  · simp only [hactive, Bool.false_eq_true, false_and, if_false]
    rfl

end Frames

theorem wake_eq_some {c : Ptr} {s t : Timed} (h : wake profile c s = some t) :
    ∃ npl, npl.callouts = (s.npl.setActive c false).callouts ∧ t = { s with npl := npl } := by
  obtain ⟨npl, hnpl, he⟩ := Option.map_eq_some_iff.mp h
  exact ⟨npl, calloutCb_callouts hnpl, he.symm⟩

/-- What a step does to the callouts, the timers and the resets in progress. -/
inductive Effect (profile : Profile) (s : State) : Label → State → Prop
  | init (c evq evCb evArg : Ptr) (npl : Npl) : s.pcs c = .idle →
      npl.callouts = Function.update s.timed.npl.callouts c ⟨false, 0, evq⟩ →
      Effect profile s (.init c evq evCb evArg)
        { s with timed := { s.timed with npl := npl }, known := c :: s.known }
  | resetExpiresAt (c : Ptr) (ticks e : UInt32) (npl : Npl) : c ∈ s.known → s.pcs c = .idle →
      profile.addU32 s.timed.now.toUInt32 ticks = some e →
      npl.callouts = Function.update s.timed.npl.callouts c
        { s.timed.npl.callouts c with expiresAt := e } →
      Effect profile s (.resetExpiresAt c ticks) { s with
        timed := { s.timed with npl := npl }
        pcs := Function.update s.pcs c .scheduling
        latest := Function.update s.latest c (some (s.timed.now, ticks)) }
  | recorded (c : Ptr) (timers : List Wake) : s.pcs c = .scheduling →
      timers = ⟨(s.timed.npl.callouts c).expiresAt.toUInt64, c⟩ :: s.timed.timers →
      Effect profile s (.resetSchedule c .recorded) { s with
        timed := { s.timed with timers := timers }
        pcs := Function.update s.pcs c .activating }
  | merged (c : Ptr) (timers : List Wake) : s.pcs c = .scheduling →
      timers = ⟨earliest (s.timed.npl.callouts c).expiresAt.toUInt64 c s.timed.timers, c⟩ ::
        s.timed.timers.filter (·.callout ≠ c) →
      Effect profile s (.resetSchedule c .merged) { s with
        timed := { s.timed with timers := timers }
        pcs := Function.update s.pcs c .activating }
  | immediate (c : Ptr) (npl : Npl) : s.pcs c = .scheduling →
      (s.timed.npl.callouts c).expiresAt.toUInt64 ≤ s.timed.now →
      npl.callouts = (s.timed.npl.setActive c false).callouts →
      Effect profile s (.resetSchedule c .immediate) { s with
        timed := { s.timed with npl := npl }
        pcs := Function.update s.pcs c .activating }
  | resetActive (c : Ptr) : s.pcs c = .activating →
      Effect profile s (.resetActive c) { s with
        timed := { s.timed with npl := s.timed.npl.setActive c true }
        pcs := Function.update s.pcs c .idle }
  | stop (c : Ptr) : Effect profile s (.stop c)
      { s with timed := { s.timed with npl := s.timed.npl.setActive c false } }
  | wake (w : Wake) (npl : Npl) : w ∈ s.timed.timers → w.deadline ≤ s.timed.now →
      npl.callouts = (s.timed.npl.setActive w.callout false).callouts →
      Effect profile s (.wake w)
        { s with timed := { s.timed with npl := npl, timers := s.timed.timers.erase w } }
  | clock (now : UInt64) : s.timed.now ≤ now →
      Effect profile s (.clock now) { s with timed := { s.timed with now := now } }
  | queue (op : EventQueueFamily.Op) (npl : Npl) : npl.callouts = s.timed.npl.callouts →
      Effect profile s (.queue op) { s with timed := { s.timed with npl := npl } }

theorem step_effect {l : Label} {s t : State} (h : step profile l s = some t) :
    Effect profile s l t := by
  cases l with
  | init c evq evCb evArg =>
    obtain ⟨hidle, ht⟩ := Option.ite_none_right_eq_some.mp h
    cases ht
    exact .init c evq evCb evArg _ hidle rfl
  | resetExpiresAt c ticks =>
    obtain ⟨⟨hknown, hidle⟩, ht⟩ := Option.ite_none_right_eq_some.mp h
    obtain ⟨timed, htimed, he⟩ := Option.map_eq_some_iff.mp ht
    obtain ⟨e, hadd, hset⟩ := Option.bind_eq_some_iff.mp htimed
    cases hset
    cases he
    exact .resetExpiresAt c ticks e _ hknown hidle hadd rfl
  | resetSchedule c how =>
    obtain ⟨hpc, ht⟩ := Option.ite_none_right_eq_some.mp h
    obtain ⟨timed, htimed, he⟩ := Option.map_eq_some_iff.mp ht
    cases he
    cases how with
    | recorded =>
      cases htimed
      exact .recorded c _ hpc rfl
    | merged =>
      cases htimed
      exact .merged c _ hpc rfl
    | immediate =>
      obtain ⟨hdue, hwake⟩ := Option.ite_none_right_eq_some.mp htimed
      obtain ⟨npl, hnpl, rfl⟩ := wake_eq_some hwake
      exact .immediate c npl hpc hdue hnpl
  | resetActive c =>
    obtain ⟨hpc, ht⟩ := Option.ite_none_right_eq_some.mp h
    cases ht
    exact .resetActive c hpc
  | stop c =>
    cases h
    exact .stop c
  | wake w =>
    obtain ⟨⟨hmem, hdue⟩, ht⟩ := Option.ite_none_right_eq_some.mp h
    obtain ⟨timed, htimed, he⟩ := Option.map_eq_some_iff.mp ht
    obtain ⟨npl, hnpl, rfl⟩ := wake_eq_some htimed
    cases he
    exact .wake w npl hmem hdue hnpl
  | clock now =>
    obtain ⟨hle, ht⟩ := Option.ite_none_right_eq_some.mp h
    cases ht
    exact .clock now hle
  | queue op =>
    obtain ⟨⟨npl, r⟩, hr, he⟩ := Option.map_eq_some_iff.mp h
    cases he
    exact .queue op npl (queue_callouts hr)

/-- A reset that nothing interrupts is its three statements in a row. -/
theorem bleNplCalloutReset_eq_run (how : Scheduling) (c : Ptr) (ticks : UInt32) (s : State)
    (hknown : c ∈ s.known) (hidle : s.pcs c = .idle) :
    (run (step profile) [.resetExpiresAt c ticks, .resetSchedule c how, .resetActive c] s).map
        (·.timed) =
      (bleNplCalloutReset profile how c ticks s.timed).map (·.1) := by
  cases hset : setExpiresAt profile c ticks s.timed with
  | none => simp [run_cons, step, hknown, hidle, bleNplCalloutReset, hset]
  | some t =>
    cases hsched : scheduleExpiry profile how c t with
    | none => simp [run_cons, step, hknown, hidle, bleNplCalloutReset, hset, hsched]
    | some u => simp [run_cons, step, hknown, hidle, bleNplCalloutReset, hset, hsched]

end Callout
