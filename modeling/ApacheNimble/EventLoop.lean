import ApacheNimble.QueueChanges

/-!
# The loops that run the events

`nimble_port_run` and `ble_ll_task` take the events of one queue each and run
them. Whatever else happens, in the handlers, in other tasks or in interrupts,
is any sequence of whole operations on queues, events and callouts. The gate at
which `ble_ll_task` waits with an event in hand is left out: without it there
are more runs, and what holds of all of them holds of those with the gate.
-/
namespace EventLoop

open PortLayer EventQueue FifoFamily QueuePanics QueueChanges Conveyor Transition

variable {profile : Profile}

def bleNplEventGetArg (ev : Ptr) (s : Npl) : Ptr := (s.events ev).argPtr

def bleNplEventSetArg (ev arg : Ptr) (s : Npl) : Npl :=
  { s with events := Function.update s.events ev { s.events ev with argPtr := arg } }

/-- The handler that is called with the event, if the function is not null. -/
def bleNplEventRun (ev : Ptr) (s : Npl) : Option (Option Ptr) :=
  if ev = nullMut then none
  else some (if (s.events ev).eventFn = nullMut then none else some (s.events ev).eventFn)

/-- Where a loop is: it waits for an event, it has one, or the handler runs. -/
inductive TaskPc where
  | getting
  | got (ev : Ptr)
  | handling
  deriving DecidableEq, Repr

/-- One run of an event: the handler that was called, the argument it finds, and
what was asked for when the event was last initialised or given an argument. -/
structure Ran where
  evq : Ptr
  ev : Ptr
  handler : Option Ptr
  arg : Ptr
  bound : Option (Ptr × Ptr)
  deriving DecidableEq, Repr

/-- The logs have what was put on each queue, what was dropped from it by a
removal or by initialising it again, and what was run. -/
structure State where
  firing : CalloutFiring.State
  tasks : Ptr → TaskPc
  bound : Ptr → Option (Ptr × Ptr)
  puts : List (Ptr × Ptr)
  dropped : List (Ptr × Ptr)
  ran : List Ran

def State.npl (s : State) : Npl := s.firing.base.timed.npl

def State.setNpl (s : State) (npl : Npl) : State :=
  { s with firing := { s.firing with
      base := { s.firing.base with timed := { s.firing.base.timed with npl := npl } } } }

def start (npl : Npl) (now : UInt64) : State :=
  ⟨CalloutFiring.start npl now, fun _ => .getting, fun _ => none, [], [], []⟩

inductive Label where
  | firing (l : CalloutFiring.Label)
  | eventInit (ev fn arg : Ptr)
  | setArg (ev arg : Ptr)
  | poll (evq : Ptr)
  | run (evq : Ptr)
  | done (evq : Ptr)
  deriving DecidableEq, Repr

def bind (b : Option (Ptr × Ptr × Ptr)) (bound : Ptr → Option (Ptr × Ptr)) :
    Ptr → Option (Ptr × Ptr) :=
  match b with
  | some (ev, fn, arg) => Function.update bound ev (some (fn, arg))
  | none => bound

def step (profile : Profile) (l : Label) (s : State) : Option State :=
  match l with
  | .firing l =>
    if takes l then none
    else (CalloutFiring.step profile l s.firing).map (fun firing => { s with
      firing := firing
      bound := bind (bindsOf l) s.bound
      puts := s.puts ++ putsOf l s.npl
      dropped := s.dropped ++ dropsOf l s.npl })
  | .eventInit ev fn arg => some { s.setNpl (bleNplEventInit ev fn arg s.npl) with
      bound := bind (some (ev, fn, arg)) s.bound }
  | .setArg ev arg => some { s.setNpl (bleNplEventSetArg ev arg s.npl) with
      bound := Function.update s.bound ev ((s.bound ev).map (fun b => (b.1, arg))) }
  | .poll evq =>
    if s.tasks evq = .getting then
      (bleNplEventqGet profile evq 0xFFFFFFFF false s.npl).map (fun r => match r.2 with
        | .pending => s.setNpl r.1
        | .ready ev => { s.setNpl r.1 with tasks := Function.update s.tasks evq (.got ev) })
    else none
  | .run evq => match s.tasks evq with
    | .got ev => (bleNplEventRun ev s.npl).map (fun handler => { s with
        tasks := Function.update s.tasks evq .handling
        ran := s.ran ++ [⟨evq, ev, handler, bleNplEventGetArg ev s.npl, s.bound ev⟩] })
    | _ => none
  | .done evq =>
    if s.tasks evq = .handling then
      some { s with tasks := Function.update s.tasks evq .getting }
    else none

/-- The event that a loop has taken and not run. -/
def inHand : TaskPc → List Ptr
  | .got ev => [ev]
  | _ => []

/-- The events that the loop of a queue has run. -/
def runs (evq : Ptr) (ran : List Ran) : List Ptr := on evq (ran.map (fun r => (r.evq, r.ev)))

/-- What has been run, what a loop has in hand and what the queue holds is what
was put, in its order. -/
structure Orderly (s : State) : Prop where
  queues : ∃ f, Queues s.npl f ∧ ∀ evq, Conveyed (on evq s.puts) (on evq s.dropped)
    (runs evq s.ran ++ inHand (s.tasks evq) ++ (f.lists evq).getD [])
  puts : ∀ e ∈ s.puts, e.2 ≠ nullMut

section Runs

variable {s t : State} {evq ev : Ptr}

@[simp] theorem setNpl_npl (s : State) (npl : Npl) : (s.setNpl npl).npl = npl := rfl

/-- In an orderly state nothing that came out of a queue is null. -/
theorem Orderly.out_ne_null (h : Orderly s) (hev : ev ∈ runs evq s.ran ++ inHand (s.tasks evq)) :
    ev ≠ nullMut := by
  obtain ⟨f, -, hconveyed⟩ := h.queues
  have hmem := (hconveyed evq).sublist.subset (List.mem_append_left _ hev)
  obtain ⟨e, he, rfl⟩ := List.mem_map.mp hmem
  exact h.puts e (List.mem_of_mem_filter he)

/-- Where nothing has been dropped from a queue, everything that was put is there
or has come out, in its order. -/
theorem Orderly.eq_puts (h : Orderly s) (hnone : on evq s.dropped = []) :
    runs evq s.ran ++ inHand (s.tasks evq) ++ (content s.npl evq).getD [] = on evq s.puts := by
  obtain ⟨f, hf, hconveyed⟩ := h.queues
  have hall := (hconveyed evq).kept (fun _ => true) (by simp [hnone])
  rw [hf.content_eq]
  simpa using hall

theorem start_orderly (events : Ptr → BleNplEvent) (callouts : Ptr → BleNplCallout)
    (now : UInt64) : Orderly (start (blank events callouts) now) where
  queues := ⟨FifoFamily.empty, blank_queues events callouts, fun _ => conveyed_nil⟩
  puts := by simp [start]

theorem firing_orderly {l : CalloutFiring.Label} {firing : CalloutFiring.State}
    (h : Orderly s) (htakes : takes l = false)
    (hstep : CalloutFiring.step profile l s.firing = some firing) :
    Orderly { s with
      firing := firing
      bound := bind (bindsOf l) s.bound
      puts := s.puts ++ putsOf l s.npl
      dropped := s.dropped ++ dropsOf l s.npl } := by
  obtain ⟨f, hf, hconveyed⟩ := h.queues
  have hchange := firing_change htakes hstep
  obtain ⟨g, hg, hmoved⟩ := hchange.moved hf
  refine ⟨⟨g, hg, hmoved.conveyed hconveyed⟩, ?_⟩
  intro e he
  obtain he | he := List.mem_append.mp he
  · exact h.puts e he
  · exact hchange.puts_ne_null e he

theorem poll_orderly (h : Orderly s) (htask : s.tasks evq = .getting) {npl : Npl} {p : Poll Ptr}
    (hget : bleNplEventqGet profile evq 0xFFFFFFFF false s.npl = some (npl, p)) :
    Orderly (match p with
      | .pending => s.setNpl npl
      | .ready ev => { s.setNpl npl with tasks := Function.update s.tasks evq (.got ev) }) := by
  obtain ⟨f, hf, hconveyed⟩ := h.queues
  obtain ⟨rfl, hQ⟩ | ⟨ev, l, rfl, hl, hQ⟩ := poll_moved hf hget
  · exact ⟨⟨f, hQ, hconveyed⟩, h.puts⟩
  · refine ⟨⟨f.set evq l, hQ, fun q => ?_⟩, h.puts⟩
    have hq := hconveyed q
    by_cases he : q = evq
    · subst he
      rw [htask, hl] at hq
      simpa [inHand, State.setNpl] using hq
    · simpa [set_other f evq q l he, Function.update_of_ne he, State.setNpl] using hq

theorem run_orderly (h : Orderly s) (htask : s.tasks evq = .got ev) (handler : Option Ptr) :
    Orderly { s with
      tasks := Function.update s.tasks evq .handling
      ran := s.ran ++ [⟨evq, ev, handler, bleNplEventGetArg ev s.npl, s.bound ev⟩] } := by
  obtain ⟨f, hf, hconveyed⟩ := h.queues
  refine ⟨⟨f, hf, fun q => ?_⟩, h.puts⟩
  have hq := hconveyed q
  by_cases he : q = evq
  · subst he
    rw [htask] at hq
    simpa [inHand, runs, on] using hq
  · simpa [inHand, runs, on, Ne.symm he, Function.update_of_ne he] using hq

theorem step_orderly (l : Label) (s t : State) (h : Orderly s)
    (hstep : step profile l s = some t) : Orderly t := by
  cases l with
  | firing l =>
    obtain ⟨htakes, hstep⟩ := Option.ite_none_left_eq_some.mp hstep
    obtain ⟨firing, hfiring, rfl⟩ := Option.map_eq_some_iff.mp hstep
    exact firing_orderly h (by simpa using htakes) hfiring
  | eventInit | setArg =>
    cases hstep
    obtain ⟨f, hf, hconveyed⟩ := h.queues
    exact ⟨⟨f, queues_congr hf rfl rfl, hconveyed⟩, h.puts⟩
  | poll evq =>
    obtain ⟨htask, hstep⟩ := Option.ite_none_right_eq_some.mp hstep
    obtain ⟨⟨npl, p⟩, hget, rfl⟩ := Option.map_eq_some_iff.mp hstep
    cases p with
    | pending => exact poll_orderly h htask hget
    | ready ev => exact poll_orderly h htask hget
  | run evq =>
    simp only [step] at hstep
    split at hstep
    · rename_i ev htask
      obtain ⟨handler, -, rfl⟩ := Option.map_eq_some_iff.mp hstep
      exact run_orderly h htask handler
    · cases hstep
  | done evq =>
    obtain ⟨htask, ht⟩ := Option.ite_none_right_eq_some.mp hstep
    cases ht
    obtain ⟨f, hf, hconveyed⟩ := h.queues
    refine ⟨⟨f, hf, fun q => ?_⟩, h.puts⟩
    have hq := hconveyed q
    by_cases he : q = evq
    · subst he
      rw [htask] at hq
      simpa [inHand] using hq
    · simpa [Function.update_of_ne he] using hq

theorem runEvent_isSome (h : Orderly s) (htask : s.tasks evq = .got ev) :
    (step profile (.run evq) s).isSome := by
  have hmem : ev ∈ runs evq s.ran ++ inHand (s.tasks evq) := by simp [htask, inHand]
  have hev : ev ≠ nullMut := h.out_ne_null hmem
  simp [step, htask, bleNplEventRun, hev]

/-- Events in zeroed memory, an event and the event of a callout that fires. -/
def twoEvents : List Label :=
  [.firing (.timed (.queue (.init 100))), .firing (.timed (.init 16 100 7 9)), .eventInit 40 5 6,
    .setArg 40 8, .firing (.timed (.queue (.put 100 40))),
    .firing (.timed (.resetExpiresAt 16 10)), .firing (.timed (.resetSchedule 16 .recorded)),
    .firing (.timed (.resetActive 16)), .firing (.timed (.clock 10)),
    .firing (.timed (.wake ⟨10, 16⟩)), .poll 100, .run 100, .done 100, .poll 100, .run 100]

def zeroed : State := start (blank (fun _ => ⟨0, 0, false⟩) (fun _ => ⟨false, 0, 0⟩)) 0

theorem twoEvents_ends : (run (step .debug) twoEvents zeroed).map (fun s => (s.ran, s.puts)) =
    some ([⟨100, 40, some 5, 8, some (5, 8)⟩, ⟨100, 28, some 7, 9, some (7, 9)⟩],
      [(100, 40), (100, 28)]) := by
  rfl

end Runs

end EventLoop
