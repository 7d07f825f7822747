import ApacheNimble.EventLoop

/-!
# Events run as they were bound

Initialising an event or a callout and setting an argument bind an event to its
handler and its argument. Nothing else writes to either.
-/
namespace EventBindings

open PortLayer QueueWrites QueuePanics QueueChanges EventLoop Transition

variable {profile : Profile}

section Bindings

variable {s t : Npl} {evq ev : Ptr} {ps ds : List (Ptr × Ptr)}
  {b : Option (Ptr × Ptr × Ptr)}

/-- The function and the argument of an event. -/
def binding (s : Npl) (ev : Ptr) : Ptr × Ptr := ((s.events ev).eventFn, (s.events ev).argPtr)

theorem binding_congr (h : t.events = s.events) : binding t = binding s := by
  funext e
  rw [binding, binding, h]

@[simp] theorem setQueued_binding (s : Npl) (ev : Ptr) (queued : Bool) :
    binding (s.setQueued ev queued) = binding s := by
  funext e
  by_cases he : e = ev
  · subst he
    simp [binding, Npl.setQueued]
  · simp [binding, Npl.setQueued, he]

theorem eventInit_binding (ev fn arg : Ptr) (s : Npl) :
    binding (bleNplEventInit ev fn arg s) = Function.update (binding s) ev (fn, arg) := by
  funext e
  by_cases he : e = ev
  · subst he
    simp [binding, bleNplEventInit]
  · simp [binding, bleNplEventInit, he]

theorem setArg_binding (ev arg : Ptr) (s : Npl) : binding (bleNplEventSetArg ev arg s) =
    Function.update (binding s) ev ((s.events ev).eventFn, arg) := by
  funext e
  by_cases he : e = ev
  · subst he
    simp [binding, bleNplEventSetArg]
  · simp [binding, bleNplEventSetArg, he]

theorem writes_binding (h : Writes evq s t) : binding t = binding s :=
  h.keeps (f := binding) setQueued_binding (fun _ _ => rfl) (fun _ _ _ => rfl)

theorem init_binding (h : bleNplEventqInit evq s = some t) : binding t = binding s := by
  unfold bleNplEventqInit at h
  split at h
  · cases h
    rfl
  · cases h

theorem calloutCb_binding {c : Ptr} (h : calloutCb profile c s = some t) :
    binding t = binding s := by
  obtain ⟨-, u, hput, rfl⟩ | ⟨-, rfl⟩ := calloutCb_cases h
  · exact (binding_congr (setActive_events u c false)).trans (writes_binding (put_writes hput))
  · rfl

/-- What was asked for when an event was bound is what it has. -/
def Binds (bound : Ptr → Option (Ptr × Ptr)) (s : Npl) : Prop :=
  ∀ e p, bound e = some p → binding s e = p

theorem Binds.congr {bound : Ptr → Option (Ptr × Ptr)} (hbound : Binds bound s)
    (h : binding t = binding s) : Binds bound t := by
  intro e p hp
  rw [h]
  exact hbound e p hp

theorem Binds.update {bound : Ptr → Option (Ptr × Ptr)} {q : Option (Ptr × Ptr)} {r : Ptr × Ptr}
    (hbound : Binds bound s) (h : binding t = Function.update (binding s) ev r)
    (hq : ∀ p, q = some p → r = p) : Binds (Function.update bound ev q) t := by
  intro e p hp
  rw [h]
  by_cases he : e = ev
  · subst he
    rw [Function.update_self] at hp ⊢
    exact hq p hp
  · rw [Function.update_of_ne he] at hp ⊢
    exact hbound e p hp

/-- Nothing but binding an event changes its function or its argument. -/
theorem change_binds {bound : Ptr → Option (Ptr × Ptr)} (hbound : Binds bound s)
    (hchange : Change profile s ps ds b t) : Binds (EventLoop.bind b bound) t := by
  cases hchange with
  | quiet _ _ _ hevents => exact hbound.congr (binding_congr hevents)
  | calloutInit c evq evCb evArg =>
    refine hbound.update (eventInit_binding (calloutEvent c) evCb evArg _) ?_
    intro p hp
    exact Option.some.inj hp
  | wake c _ hcb => exact hbound.congr (calloutCb_binding hcb)
  | put evq ev _ hput => exact hbound.congr (writes_binding (put_writes hput))
  | init evq _ hinit => exact hbound.congr (init_binding hinit)
  | remove evq ev _ hremove => exact hbound.congr (writes_binding (removeLoop_writes hremove))

end Bindings

/-- A run found the handler and the argument that the event was bound to. -/
def faithful (r : Ran) : Prop :=
  ∀ b, r.bound = some b → r.handler = (if b.1 = nullMut then none else some b.1) ∧ r.arg = b.2

/-- Events are bound to what was asked for, and were when they were run. -/
structure Faithful (s : State) : Prop where
  bound : Binds s.bound s.npl
  ran : ∀ r ∈ s.ran, faithful r

section Runs

variable {s t : State} {evq ev : Ptr}

theorem start_faithful (events : Ptr → BleNplEvent) (callouts : Ptr → BleNplCallout)
    (now : UInt64) : Faithful (start (blank events callouts) now) where
  bound := by simp [Binds, start]
  ran := by simp [start]

theorem run_faithful (h : Faithful s) {handler : Option Ptr}
    (hrun : bleNplEventRun ev s.npl = some handler) :
    Faithful { s with
      tasks := Function.update s.tasks evq .handling
      ran := s.ran ++ [⟨evq, ev, handler, bleNplEventGetArg ev s.npl, s.bound ev⟩] } := by
  refine ⟨h.bound, fun r hr => ?_⟩
  obtain hr | hr := List.mem_append.mp hr
  · exact h.ran r hr
  · obtain rfl := List.mem_singleton.mp hr
    intro b hb
    have hbinding := h.bound ev b hb
    obtain ⟨-, hhandler⟩ := Option.ite_none_left_eq_some.mp hrun
    rw [← hbinding]
    exact ⟨(Option.some.inj hhandler).symm, rfl⟩

theorem step_faithful (l : Label) (s t : State) (h : Faithful s)
    (hstep : step profile l s = some t) : Faithful t := by
  cases l with
  | firing l =>
    obtain ⟨htakes, hstep⟩ := Option.ite_none_left_eq_some.mp hstep
    obtain ⟨firing, hfiring, rfl⟩ := Option.map_eq_some_iff.mp hstep
    exact ⟨change_binds h.bound (firing_change (by simpa using htakes) hfiring), h.ran⟩
  | eventInit ev fn arg =>
    cases hstep
    refine ⟨h.bound.update (eventInit_binding ev fn arg s.npl) (fun p hp => ?_), h.ran⟩
    exact Option.some.inj hp
  | setArg ev arg =>
    cases hstep
    refine ⟨h.bound.update (setArg_binding ev arg s.npl) (fun p hp => ?_), h.ran⟩
    obtain ⟨b, hb, rfl⟩ := Option.map_eq_some_iff.mp hp
    rw [← h.bound ev b hb]
    rfl
  | poll evq =>
    obtain ⟨-, hstep⟩ := Option.ite_none_right_eq_some.mp hstep
    obtain ⟨⟨npl, p⟩, hget, rfl⟩ := Option.map_eq_some_iff.mp hstep
    have hbound : Binds s.bound npl := h.bound.congr (writes_binding (get_writes hget))
    cases p with
    | pending => exact ⟨hbound, h.ran⟩
    | ready ev => exact ⟨hbound, h.ran⟩
  | run evq =>
    simp only [step] at hstep
    split at hstep
    · obtain ⟨handler, hrun, rfl⟩ := Option.map_eq_some_iff.mp hstep
      exact run_faithful h hrun
    · cases hstep
  | done evq =>
    obtain ⟨-, ht⟩ := Option.ite_none_right_eq_some.mp hstep
    cases ht
    exact ⟨h.bound, h.ran⟩

/-- In every run, each event that a loop ran called the handler and had the
argument of the latest initialisation, or the argument set since. -/
theorem handlers_as_bound (profile : Profile) (events : Ptr → BleNplEvent)
    (callouts : Ptr → BleNplCallout) (now : UInt64) (ls : List Label) (s : State)
    (h : run (step profile) ls (start (blank events callouts) now) = some s) :
    ∀ r ∈ s.ran, faithful r :=
  (run_invariant step_faithful (start_faithful events callouts now) h).ran

theorem handlers_as_bound_two_events : ∃ s, run (step .debug) twoEvents zeroed = some s ∧
    s.ran = [⟨100, 40, some 5, 8, some (5, 8)⟩, ⟨100, 28, some 7, 9, some (7, 9)⟩] ∧
    ∀ r ∈ s.ran, faithful r := by
  obtain ⟨s, hrun, hend⟩ := Option.map_eq_some_iff.mp twoEvents_ends
  exact ⟨s, hrun, (Prod.mk.inj hend).1, handlers_as_bound .debug _ _ 0 twoEvents s hrun⟩

end Runs

end EventBindings
