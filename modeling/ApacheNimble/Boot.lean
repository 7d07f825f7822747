import ApacheNimble.OneShot
import ApacheNimble.QueuePanics

/-!
# Initialisation

`initialize_nimble` and `NimbleController::new` exchange a flag before anything
else. What the functions of the C library do to the event queues is a parameter,
because their sources are not here.
-/
namespace Boot

open PortLayer EventQueue EventQueueFamily FifoFamily QueuePanics Transition OneShot

structure Features where
  controller : Bool
  host : Bool
  deriving DecidableEq, Repr

inductive InitCall where
  | bleLlInit
  | bleNplEventqInit (evq : Ptr)
  | osMempoolModuleInit
  | osMsysInit
  | bleTransportInit
  | bleTransportHsInit
  | halTimerInit (timerNum : Int) (cfg : Ptr)
  | osCputimeInit (clockFreq : UInt32)
  | bleTransportLlInit
  deriving DecidableEq, Repr

/-- The calls that follow the exchange, in order. -/
def initializeNimble (features : Features) (defltEvq : Ptr) : List InitCall :=
  (if features.controller then [.bleLlInit] else []) ++
  (if features.host then [.bleNplEventqInit defltEvq] else []) ++
  [.osMempoolModuleInit, .osMsysInit, .bleTransportInit] ++
  (if features.host then [.bleTransportHsInit] else []) ++
  (if features.controller then
    [.halTimerInit 5 nullMut, .osCputimeInit 32768, .bleTransportLlInit] else [])

/-- The queues that a call passes to `ble_npl_eventq_init`; `ext` tells it of the
functions in C. -/
def queuesOf (ext : InitCall → List Ptr) : InitCall → List Ptr
  | .bleNplEventqInit evq => [evq]
  | c => ext c

/-- A call, which the log records. It panics where there is no more queue. -/
def call (ext : InitCall → List Ptr) (c : InitCall) (s : Npl × List InitCall) :
    Option (Npl × List InitCall) :=
  (run bleNplEventqInit (queuesOf ext c) s.1).map (fun npl => (npl, s.2 ++ [c]))

/-- All the calls have been made, and each queue they initialised is empty and
has a slot of its own. -/
structure Booted (script : List InitCall) (queues : List Ptr) (s : Npl × List InitCall) :
    Prop where
  calls : s.2 = script
  content : ∀ evq, content s.1 evq = if evq ∈ queues then some [] else none
  distinct : ∀ evq evq', evq ∈ queues → evq' ∈ queues → evq ≠ evq' →
    (s.1.evqs evq).ch ≠ (s.1.evqs evq').ch

variable {ext : InitCall → List Ptr} {s t : Npl} {f : Family Ptr Ptr}
  {qs : List Ptr} {cs script : List InitCall}

section Queues

theorem init_queues (evq : Ptr) (h : Queues s f) (hc : f.created < 8) :
    ∃ t, bleNplEventqInit evq s = some t ∧
      Queues t { f.set evq [] with created := f.created + 1 } := by
  have hop : exactStep (.init evq) f =
      some ({ f.set evq [] with created := f.created + 1 }, .unit) := by
    simp only [exactStep, listStep, create, if_pos hc, Option.map_some]
  obtain ⟨t, ht, hQ⟩ := exactStep_simulates .release (.init evq) s f _ _ h hop
  obtain ⟨u, hu, he⟩ := Option.map_eq_some_iff.mp ht
  cases he
  exact ⟨t, hu, hQ⟩

/-- As long as there are slots, every queue is initialised afresh and the others
are left as they are. -/
theorem inits_queues (h : Queues s f) (hroom : f.created + qs.length ≤ 8) :
    ∃ t g, run bleNplEventqInit qs s = some t ∧ Queues t g ∧
      ∀ evq, g.lists evq = if evq ∈ qs then some [] else f.lists evq := by
  induction qs generalizing s f with
  | nil => exact ⟨s, f, rfl, h, fun _ => by simp⟩
  | cons evq qs ih =>
    rw [List.length_cons] at hroom
    obtain ⟨u, hu, hQ⟩ := init_queues evq h (by omega)
    obtain ⟨t, g, hrun, hg, hlists⟩ := ih hQ (by simp only; omega)
    refine ⟨t, g, by rw [run_cons, hu]; exact hrun, hg, fun e => ?_⟩
    rw [hlists e]
    by_cases hmem : e ∈ qs
    · simp [hmem]
    · by_cases he : e = evq
      · subst he
        simp
      · simp [hmem, he, set_other f evq e [] he]

/-- With more queues than slots one of the initialisations panics. -/
theorem inits_full (h : Queues s f) (hle : f.created ≤ 8) (hfull : 8 < f.created + qs.length) :
    run bleNplEventqInit qs s = none := by
  induction qs generalizing s f with
  | nil =>
    rw [List.length_nil] at hfull
    omega
  | cons evq qs ih =>
    rw [List.length_cons] at hfull
    rw [run_cons]
    by_cases hc : f.created < 8
    · obtain ⟨u, hu, hQ⟩ := init_queues evq h hc
      rw [hu, Option.bind_some]
      exact ih hQ hc (by simp only; omega)
    · have hnone : firstFree s = none := firstFree_of_full (by rw [h.created]; omega)
      rw [bleNplEventqInit, hnone, Option.bind_none]

end Queues

/-- The calls of a script initialise the queues of each call in turn. -/
theorem run_call (s : Npl × List InitCall) (cs : List InitCall) :
    run (call ext) cs s = (run bleNplEventqInit (cs.flatMap (queuesOf ext)) s.1).map
      (fun npl => (npl, s.2 ++ cs)) := by
  induction cs generalizing s with
  | nil => simp
  | cons c cs ih =>
    rw [List.flatMap_cons, run_append, run_cons, call]
    cases run bleNplEventqInit (queuesOf ext c) s.1 with
    | none => rfl
    | some npl => simp [ih]

theorem run_call_isSome_iff (events : Ptr → BleNplEvent) (callouts : Ptr → BleNplCallout) :
    (run (call ext) script (blank events callouts, [])).isSome ↔
      (script.flatMap (queuesOf ext)).length ≤ 8 := by
  have hblank := blank_queues events callouts
  rw [run_call, Option.isSome_map]
  constructor
  · intro h
    by_contra hfull
    rw [inits_full hblank (Nat.zero_le 8) (by rw [empty_created]; omega)] at h
    cases h
  · intro hroom
    obtain ⟨t, g, hrun, -⟩ := inits_queues hblank (by rwa [empty_created, Nat.zero_add])
    rw [hrun]
    rfl

theorem run_call_booted {events : Ptr → BleNplEvent} {callouts : Ptr → BleNplCallout}
    {u : Npl × List InitCall} (h : run (call ext) script (blank events callouts, []) = some u) :
    Booted script (script.flatMap (queuesOf ext)) u := by
  have hroom := (run_call_isSome_iff events callouts).mp (by rw [h]; rfl)
  obtain ⟨t, g, hrun, hQ, hlists⟩ :=
    inits_queues (blank_queues events callouts) (by rwa [empty_created, Nat.zero_add])
  rw [run_call, hrun, Option.map_some, List.nil_append] at h
  cases h
  refine ⟨rfl, fun evq => ?_, fun evq evq' hevq hevq' hne => ?_⟩
  · rw [hQ.content_eq, hlists]
    rfl
  · exact hQ.distinct evq evq' [] [] (by rw [hlists, if_pos hevq]) (by rw [hlists, if_pos hevq'])
      hne

theorem log_of_run {events : Ptr → BleNplEvent} {callouts : Ptr → BleNplCallout}
    {u : Npl × List InitCall} (h : run (call ext) cs (blank events callouts, []) = some u) :
    u.2 = cs :=
  (run_call_booted h).calls

/-- However many callers enter `initialize_nimble` and however their steps fall,
the calls made so far are the first ones in their order, and one caller at most
has got in. The event queues suffice exactly if eight or fewer are initialised:
then the one that got in has returned or can go on to its end, and otherwise
nobody returns. Whoever has returned has made all the calls and left the queues
empty, each with a slot of its own. -/
theorem boots_once {ι : Type} [DecidableEq ι] (ext : InitCall → List Ptr) (features : Features)
    (defltEvq : Ptr) (events : Ptr → BleNplEvent) (callouts : Ptr → BleNplCallout)
    (ls : List (OneShot.Label ι)) (s : OneShot.State ι (Npl × List InitCall))
    (h : run (OneShot.step (call ext) (initializeNimble features defltEvq)) ls
      (OneShot.start (blank events callouts, [])) = some s) :
    s.shared.2 <+: initializeNimble features defltEvq ∧
    (s.flag = false → ∀ i, s.pcs i = .absent) ∧
    (s.flag = true → ∃ i, ∀ j, j ≠ i → Out (s.pcs j)) ∧
    (∀ i, s.pcs i = .returned →
      Booted (initializeNimble features defltEvq)
        ((initializeNimble features defltEvq).flatMap (queuesOf ext)) s.shared) ∧
    (((initializeNimble features defltEvq).flatMap (queuesOf ext)).length ≤ 8 →
      s.flag = true → ∃ i, s.pcs i = .returned ∨
        ∃ t, Leads (OneShot.step (call ext) (initializeNimble features defltEvq))
          (fun l _ => l = .act i) s t ∧ t.pcs i = .returned) ∧
    (8 < ((initializeNimble features defltEvq).flatMap (queuesOf ext)).length →
      ∀ i, s.pcs i ≠ .returned) := by
  have hs := run_once h
  refine ⟨?_, hs.closed_absent, hs.opened_out, ?_, ?_, ?_⟩
  · obtain ⟨cs, hprefix, hcs⟩ := hs.shared_eq
    rw [log_of_run hcs]
    exact hprefix
  · intro i hi
    exact run_call_booted (hs.returned hi).1
  · intro hroom hflag
    obtain ⟨w, hw⟩ := Option.isSome_iff_exists.mp
      ((run_call_isSome_iff events callouts).mpr hroom)
    obtain ⟨i, hi | ⟨k, hi⟩, -⟩ := hs.defined hw hflag
    · exact ⟨i, .inl hi⟩
    · obtain ⟨t, hleads, ht, -⟩ := hs.finishes hw hi
      exact ⟨i, .inr ⟨t, hleads, ht⟩⟩
  · intro hfull i hi
    have hsome := (run_call_isSome_iff events callouts).mp (by rw [(hs.returned hi).1]; rfl)
    omega

/-- The link layer has a queue too, and the second caller panics. -/
theorem boots_once_twice :
    ∃ s, run (OneShot.step (call (fun c => if c = .bleLlInit then [400] else []))
        (initializeNimble ⟨true, true⟩ 500))
      ([.enter true, .act true, .enter false] ++ List.replicate 9 (.act true))
      (OneShot.start (blank (fun _ => ⟨0, 0, false⟩) (fun _ => ⟨false, 0, 0⟩), [])) = some s ∧
      Booted (initializeNimble ⟨true, true⟩ 500) [400, 500] s.shared :=
  ⟨_, rfl, (boots_once (fun c => if c = .bleLlInit then [400] else []) ⟨true, true⟩ 500
    (fun _ => ⟨0, 0, false⟩) (fun _ => ⟨false, 0, 0⟩)
    ([.enter true, .act true, .enter false] ++ List.replicate 9 (.act true)) _ rfl).2.2.2.1
    true rfl⟩

/-- `NimbleController::new` makes its lock once it has exchanged the flag. -/
def newController : List Unit := [()]

/-- The locks that have been made are counted. -/
def makeLock (_ : Unit) (locks : Nat) : Option Nat := some (locks + 1)

theorem run_makeLock (cs : List Unit) (n : Nat) : run makeLock cs n = some (n + cs.length) := by
  induction cs generalizing n with
  | nil => rfl
  | cons c cs ih =>
    rw [run_cons, makeLock, Option.bind_some, ih, List.length_cons]
    congr 1
    omega

/-- However `NimbleController::new` is called, one call at most returns, and there
is one lock at most that commands are sent under. -/
theorem one_controller {ι : Type} [DecidableEq ι] (ls : List (OneShot.Label ι))
    (s : OneShot.State ι Nat)
    (h : run (OneShot.step makeLock newController) ls (OneShot.start 0) = some s) :
    s.shared ≤ 1 ∧ ∀ i j, s.pcs i = .returned → s.pcs j = .returned → i = j := by
  have hs := run_once h
  constructor
  · obtain ⟨cs, hcs, hrun⟩ := hs.shared_eq
    rw [run_makeLock, Option.some.injEq, Nat.zero_add] at hrun
    rw [← hrun]
    exact hcs.length_le
  · exact fun i j hi hj => hs.returned_unique hi hj

end Boot
