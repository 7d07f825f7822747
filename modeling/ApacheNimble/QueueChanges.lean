import ApacheNimble.Conveyor
import ApacheNimble.QueuePanics
import ApacheNimble.CalloutFiring

/-!
# What everyone but the loops does to the queues

Statements, wakes and whole operations on queues put events, drop them and
initialise them. The lists change by that and by nothing else.
-/
namespace QueueChanges

open PortLayer EventQueue FifoFamily EventQueueFamily QueueWrites QueuePanics Callout
  CalloutDeadline Conveyor Transition

variable {profile : Profile}

/-- Only the loops take events from queues. -/
def takes : CalloutFiring.Label → Bool
  | .timed (.queue (.get _ _ _)) => true
  | _ => false

/-- The put that a wake of the callout makes. -/
def wakePuts (c : Ptr) (s : Npl) : List (Ptr × Ptr) :=
  if bleNplCalloutIsActive c s then [((s.callouts c).eventQueue, calloutEvent c)] else []

def putsOf (l : CalloutFiring.Label) (s : Npl) : List (Ptr × Ptr) :=
  match l with
  | .timed (.queue (.put evq ev)) => [(evq, ev)]
  | .timed (.wake w) => wakePuts w.callout s
  | .timed (.resetSchedule c .immediate) => wakePuts c s
  | .wake w | .wakeByRef w => wakePuts w.data s
  | _ => []

/-- What is taken out of a queue without being run. -/
def dropsOf (l : CalloutFiring.Label) (s : Npl) : List (Ptr × Ptr) :=
  match l with
  | .timed (.queue (.init evq)) => ((content s evq).getD []).map (fun ev => (evq, ev))
  | .timed (.queue (.remove evq ev)) =>
    (((content s evq).getD []).filter (· = ev)).map (fun e => (evq, e))
  | _ => []

/-- Initialising a callout initialises its event. -/
def bindsOf : CalloutFiring.Label → Option (Ptr × Ptr × Ptr)
  | .timed (.init c _ evCb evArg) => some (calloutEvent c, evCb, evArg)
  | _ => none

section Changes

variable {s t : Npl}

/-- What a step of anyone but the loops does to the port layer: which events it
puts, which it drops, and which it initialises. -/
inductive Change (profile : Profile) (s : Npl) :
    List (Ptr × Ptr) → List (Ptr × Ptr) → Option (Ptr × Ptr × Ptr) → Npl → Prop
  | quiet (t : Npl) : t.eqPool = s.eqPool → t.evqs = s.evqs → t.events = s.events →
      Change profile s [] [] none t
  | calloutInit (c evq evCb evArg : Ptr) : Change profile s [] []
      (some (calloutEvent c, evCb, evArg)) (bleNplCalloutInit c evq evCb evArg s)
  | wake (c : Ptr) (t : Npl) : calloutCb profile c s = some t →
      Change profile s (wakePuts c s) [] none t
  | put (evq ev : Ptr) (t : Npl) : bleNplEventqPut profile evq ev s = some t →
      Change profile s [(evq, ev)] [] none t
  | init (evq : Ptr) (t : Npl) : bleNplEventqInit evq s = some t →
      Change profile s [] (((content s evq).getD []).map (fun ev => (evq, ev))) none t
  | remove (evq ev : Ptr) (t : Npl) : bleNplEventqRemove profile evq ev s = some t →
      Change profile s [] ((((content s evq).getD []).filter (· = ev)).map (fun e => (evq, e)))
        none t

theorem timed_change {l : Callout.Label} {u v : Callout.State}
    (htakes : takes (.timed l) = false) (h : Callout.step profile l u = some v) :
    Change profile u.timed.npl (putsOf (.timed l) u.timed.npl) (dropsOf (.timed l) u.timed.npl)
      (bindsOf (.timed l)) v.timed.npl := by
  cases l with
  | init c evq evCb evArg =>
    obtain ⟨-, hv⟩ := Option.ite_none_right_eq_some.mp h
    cases hv
    exact .calloutInit c evq evCb evArg
  | resetExpiresAt c ticks =>
    obtain ⟨-, hv⟩ := Option.ite_none_right_eq_some.mp h
    obtain ⟨timed, htimed, rfl⟩ := Option.map_eq_some_iff.mp hv
    obtain ⟨e, -, hset⟩ := Option.bind_eq_some_iff.mp htimed
    cases hset
    exact .quiet _ rfl rfl rfl
  | resetSchedule c how =>
    obtain ⟨-, hv⟩ := Option.ite_none_right_eq_some.mp h
    obtain ⟨timed, htimed, rfl⟩ := Option.map_eq_some_iff.mp hv
    cases how with
    | recorded | merged =>
      cases htimed
      exact .quiet _ rfl rfl rfl
    | immediate =>
      obtain ⟨-, hwake⟩ := Option.ite_none_right_eq_some.mp htimed
      obtain ⟨npl, hnpl, rfl⟩ := Option.map_eq_some_iff.mp hwake
      exact .wake c npl hnpl
  | resetActive c =>
    obtain ⟨-, hv⟩ := Option.ite_none_right_eq_some.mp h
    cases hv
    exact .quiet _ rfl rfl rfl
  | stop c =>
    cases h
    exact .quiet _ rfl rfl rfl
  | wake w =>
    obtain ⟨-, hv⟩ := Option.ite_none_right_eq_some.mp h
    obtain ⟨timed, htimed, rfl⟩ := Option.map_eq_some_iff.mp hv
    obtain ⟨npl, hnpl, rfl⟩ := Option.map_eq_some_iff.mp htimed
    exact .wake w.callout npl hnpl
  | clock now =>
    obtain ⟨-, hv⟩ := Option.ite_none_right_eq_some.mp h
    cases hv
    exact .quiet _ rfl rfl rfl
  | queue op =>
    obtain ⟨⟨npl, r⟩, hr, rfl⟩ := Option.map_eq_some_iff.mp h
    cases op with
    | init evq =>
      obtain ⟨npl', hnpl, he⟩ := Option.map_eq_some_iff.mp hr
      cases he
      exact .init evq _ hnpl
    | put evq ev =>
      obtain ⟨npl', hnpl, he⟩ := Option.map_eq_some_iff.mp hr
      cases he
      exact .put evq ev _ hnpl
    | get evq tmo expired => cases htakes
    | remove evq ev =>
      obtain ⟨npl', hnpl, he⟩ := Option.map_eq_some_iff.mp hr
      cases he
      exact .remove evq ev _ hnpl

theorem wakeBy_change {w : CalloutFiring.RawWaker} {u v : CalloutFiring.State}
    (h : CalloutFiring.wakeBy profile w u = some v) :
    Change profile u.base.timed.npl (wakePuts w.data u.base.timed.npl) [] none
      v.base.timed.npl := by
  obtain ⟨timed, htimed, rfl⟩ := Option.map_eq_some_iff.mp h
  obtain ⟨npl, hnpl, rfl⟩ := Option.map_eq_some_iff.mp htimed
  exact .wake w.data npl hnpl

theorem firing_change {l : CalloutFiring.Label} {u v : CalloutFiring.State}
    (htakes : takes l = false) (h : CalloutFiring.step profile l u = some v) :
    Change profile u.base.timed.npl (putsOf l u.base.timed.npl) (dropsOf l u.base.timed.npl)
      (bindsOf l) v.base.timed.npl := by
  cases l with
  | timed l =>
    obtain ⟨-, h⟩ := Option.ite_none_left_eq_some.mp h
    obtain ⟨base, hbase, rfl⟩ := Option.map_eq_some_iff.mp h
    exact timed_change htakes hbase
  | clone w =>
    obtain ⟨-, hv⟩ := Option.ite_none_right_eq_some.mp h
    cases hv
    exact .quiet _ rfl rfl rfl
  | wake w =>
    obtain ⟨-, hv⟩ := Option.ite_none_right_eq_some.mp h
    have hchange := wakeBy_change hv
    exact hchange
  | wakeByRef w =>
    obtain ⟨-, hv⟩ := Option.ite_none_right_eq_some.mp h
    exact wakeBy_change hv

theorem put_ne_null {evq ev : Ptr} (h : bleNplEventqPut profile evq ev s = some t) :
    ev ≠ nullMut := by
  rintro rfl
  simp [bleNplEventqPut, failure] at h

theorem Change.puts_ne_null {ps ds : List (Ptr × Ptr)} {b : Option (Ptr × Ptr × Ptr)}
    (h : Change profile s ps ds b t) :
    ∀ e ∈ ps, e.2 ≠ nullMut := by
  cases h with
  | quiet | calloutInit | init | remove => simp
  | wake c =>
    unfold wakePuts
    split
    · simpa using calloutEvent_ne_null c
    · simp
  | put evq ev _ hput => simpa using put_ne_null hput

end Changes

section Lists

variable {s t : Npl} {f g : Family Ptr Ptr} {ps ds : List (Ptr × Ptr)}
  {b : Option (Ptr × Ptr × Ptr)}

/-- The lists depend on the pool and the queues only. -/
theorem queues_congr (h : Queues s f) (hpool : t.eqPool = s.eqPool) (hevqs : t.evqs = s.evqs) :
    Queues t f where
  holds evq l hl := by
    obtain ⟨i, ⟨hch, hitems, hlen⟩, htaken, hnull⟩ := h.holds evq l hl
    refine ⟨i, ⟨?_, ?_, ?_⟩, ?_, hnull⟩
    · rw [hevqs, hch]
    · rw [hpool, hitems]
    · rw [hevqs, hlen]
    · rw [hpool, htaken]
  distinct := by
    rw [hevqs]
    exact h.distinct
  free := by
    rw [hpool]
    exact h.free
  created := by
    rw [← h.created]
    simp only [takenSlots, hpool]
  absent := by
    rw [hevqs]
    exact h.absent

/-- What a change does to the lists, with what it puts and drops. -/
inductive Moved (f : Family Ptr Ptr) :
    List (Ptr × Ptr) → List (Ptr × Ptr) → Family Ptr Ptr → Prop
  | quiet : Moved f [] [] f
  | put (evq ev : Ptr) (l : List Ptr) : f.lists evq = some l →
      Moved f [(evq, ev)] [] (f.set evq (l ++ [ev]))
  | init (evq : Ptr) (created : Nat) :
      Moved f [] (((f.lists evq).getD []).map (fun ev => (evq, ev)))
        { f.set evq [] with created := created }
  | remove (evq ev : Ptr) (l : List Ptr) : f.lists evq = some l →
      Moved f [] ((l.filter (· = ev)).map (fun e => (evq, e))) (f.set evq (l.filter (· ≠ ev)))

theorem put_moved {evq ev : Ptr} (h : Queues s f)
    (hput : bleNplEventqPut profile evq ev s = some t) :
    ∃ g, Queues t g ∧ Moved f [(evq, ev)] [] g := by
  have hstep : EventQueueFamily.step profile (.put evq ev) s = some (t, .unit) := by
    simp [EventQueueFamily.step, hput]
  obtain ⟨g, hg, hQ⟩ := simulates_exactStep profile (.put evq ev) f s t .unit h hstep
  simp only [exactStep, listStep, Option.ite_none_left_eq_some, Option.map_eq_some_iff,
    put_eq_some] at hg
  obtain ⟨-, _, ⟨l, hl, -, rfl⟩, he⟩ := hg
  cases he
  exact ⟨_, hQ, .put evq ev l hl⟩

theorem calloutCb_moved {c : Ptr} (h : Queues s f) (hcb : calloutCb profile c s = some t) :
    ∃ g, Queues t g ∧ Moved f (wakePuts c s) [] g := by
  obtain ⟨hactive, u, hput, rfl⟩ | ⟨hactive, rfl⟩ := calloutCb_cases hcb
  · obtain ⟨g, hg, hmoved⟩ := put_moved h hput
    refine ⟨g, queues_congr hg rfl rfl, ?_⟩
    rw [wakePuts, if_pos hactive]
    exact hmoved
  · refine ⟨f, queues_congr h rfl rfl, ?_⟩
    rw [wakePuts, if_neg (by simp [hactive])]
    exact .quiet

theorem Change.moved (h : Queues s f) (hchange : Change profile s ps ds b t) :
    ∃ g, Queues t g ∧ Moved f ps ds g := by
  cases hchange with
  | quiet _ hpool hevqs => exact ⟨f, queues_congr h hpool hevqs, .quiet⟩
  | calloutInit c evq evCb evArg => exact ⟨f, queues_congr h rfl rfl, .quiet⟩
  | wake c _ hcb => exact calloutCb_moved h hcb
  | put evq ev _ hput => exact put_moved h hput
  | init evq _ hinit =>
    have hstep : EventQueueFamily.step profile (.init evq) s = some (t, .unit) := by
      simp [EventQueueFamily.step, hinit]
    obtain ⟨g, hg, hQ⟩ := simulates_exactStep profile (.init evq) f s t .unit h hstep
    simp only [exactStep, listStep, Option.map_eq_some_iff, create_eq_some] at hg
    obtain ⟨_, ⟨-, rfl⟩, he⟩ := hg
    cases he
    rw [h.content_eq]
    exact ⟨_, hQ, .init evq _⟩
  | remove evq ev _ hremove =>
    have hstep : EventQueueFamily.step profile (.remove evq ev) s = some (t, .unit) := by
      simp [EventQueueFamily.step, hremove]
    obtain ⟨g, hg, hQ⟩ := simulates_exactStep profile (.remove evq ev) f s t .unit h hstep
    rw [h.content_eq]
    cases hl : f.lists evq with
    | none =>
      simp only [exactStep, hl] at hg
      cases hg
      exact ⟨_, hQ, .quiet⟩
    | some l =>
      simp only [exactStep, hl] at hg
      cases hg
      exact ⟨_, hQ, .remove evq ev l hl⟩

/-- A poll takes the head of the list, or finds the list empty. -/
theorem poll_moved {evq : Ptr} {p : Poll Ptr} (h : Queues s f)
    (hget : bleNplEventqGet profile evq 0xFFFFFFFF false s = some (t, p)) :
    (p = .pending ∧ Queues t f) ∨
      ∃ ev l, p = .ready ev ∧ f.lists evq = some (ev :: l) ∧ Queues t (f.set evq l) := by
  have hstep : EventQueueFamily.step profile (.get evq 0xFFFFFFFF false) s =
      some (t, .polled p) := by
    simp [EventQueueFamily.step, hget]
  obtain ⟨g, hg, hQ⟩ := simulates_exactStep profile _ f s t _ h hstep
  simp only [exactStep, listStep, Option.map_eq_some_iff, Prod.exists, get_eq_some] at hg
  obtain ⟨_, _, ⟨-, rfl, rfl⟩ | ⟨ev, l, hl, rfl, rfl⟩, he⟩ := hg
  · cases he
    exact .inl ⟨rfl, hQ⟩
  · cases he
    exact .inr ⟨ev, l, rfl, hl, hQ⟩

/-- Whatever has come out of the queues, a change keeps the account of them. -/
theorem Moved.conveyed (hmoved : Moved f ps ds g) {puts dropped : List (Ptr × Ptr)}
    {out : Ptr → List Ptr}
    (h : ∀ evq, Conveyed (on evq puts) (on evq dropped) (out evq ++ (f.lists evq).getD []))
    (evq : Ptr) :
    Conveyed (on evq (puts ++ ps)) (on evq (dropped ++ ds))
      (out evq ++ (g.lists evq).getD []) := by
  have hevq := h evq
  cases hmoved with
  | quiet => simpa using hevq
  | put q ev l hl =>
    by_cases hq : evq = q
    · subst hq
      rw [hl] at hevq
      have hput := hevq.put ev
      rw [List.append_assoc] at hput
      simpa [on] using hput
    · simpa [on, set_other f q evq _ hq, Ne.symm hq] using hevq
  | init q created =>
    by_cases hq : evq = q
    · subst hq
      simpa using hevq.dropAll
    · simpa [on_other hq, set_other f q evq _ hq] using hevq
  | remove q ev l hl =>
    by_cases hq : evq = q
    · subst hq
      rw [hl] at hevq
      simpa using hevq.remove ev
    · simpa [on_other hq, set_other f q evq _ hq] using hevq

end Lists

end QueueChanges
