import Mathlib.Algebra.BigOperators.Fin
import ApacheNimble.PortLayer

/-!
# What one event queue operation does

Each operation is specified by what the queue holds before and after it, by
the `queued` flags it writes, and by a frame: nothing else changes.
-/
namespace EventQueue

open PortLayer Fifo

variable {profile : Profile} {s s' t : Npl} {evq ev : Ptr} {i : Fin 8} {l : List Ptr}

/-- The queue at `evq` uses slot `i` of the pool, its channel holds `l`, and
the counter beside the channel agrees. -/
structure Holds (s : Npl) (evq : Ptr) (i : Fin 8) (l : List Ptr) : Prop where
  ch : (s.evqs evq).ch = some i
  items : (s.eqPool i).q.items = l
  len : (s.evqs evq).len.toNat = l.length

/-- Only the channel in slot `i`, the counter of `evq` and the `queued` flags of
events differ. -/
structure Frame (evq : Ptr) (i : Fin 8) (s s' : Npl) : Prop where
  ch : ∀ e, (s'.evqs e).ch = (s.evqs e).ch
  len : ∀ e, e ≠ evq → (s'.evqs e).len = (s.evqs e).len
  q : ∀ j, j ≠ i → (s'.eqPool j).q = (s.eqPool j).q
  taken : ∀ j, (s'.eqPool j).taken = (s.eqPool j).taken
  eventFn : ∀ e, (s'.events e).eventFn = (s.events e).eventFn
  argPtr : ∀ e, (s'.events e).argPtr = (s.events e).argPtr
  callouts : s'.callouts = s.callouts

theorem Frame.refl (evq : Ptr) (i : Fin 8) (s : Npl) : Frame evq i s s :=
  ⟨fun _ => rfl, fun _ _ => rfl, fun _ _ => rfl, fun _ => rfl, fun _ => rfl, fun _ => rfl, rfl⟩

theorem Frame.trans (h : Frame evq i s s') (h' : Frame evq i s' t) : Frame evq i s t where
  ch e := (h'.ch e).trans (h.ch e)
  len e he := (h'.len e he).trans (h.len e he)
  q j hj := (h'.q j hj).trans (h.q j hj)
  taken j := (h'.taken j).trans (h.taken j)
  eventFn e := (h'.eventFn e).trans (h.eventFn e)
  argPtr e := (h'.argPtr e).trans (h.argPtr e)
  callouts := h'.callouts.trans h.callouts

theorem frame_setQueued (evq : Ptr) (i : Fin 8) (s : Npl) (e : Ptr) (b : Bool) :
    Frame evq i s (s.setQueued e b) where
  ch _ := rfl
  len _ _ := rfl
  q _ _ := rfl
  taken _ := rfl
  eventFn d := by simp
  argPtr d := by simp
  callouts := rfl

theorem frame_setLen (evq : Ptr) (i : Fin 8) (s : Npl) (len : UInt8) :
    Frame evq i s (s.setLen evq len) where
  ch e := by simp
  len e he := by simp [he]
  q j _ := rfl
  taken j := rfl
  eventFn e := rfl
  argPtr e := rfl
  callouts := rfl

theorem frame_setChannel (evq : Ptr) (i : Fin 8) (s : Npl) (q : Channel Ptr 16) :
    Frame evq i s (s.setChannel i q) where
  ch e := rfl
  len e _ := rfl
  q j hj := by simp [hj]
  taken j := by simp
  eventFn e := rfl
  argPtr e := rfl
  callouts := rfl

/-- A queue in another slot keeps what it holds. -/
theorem Frame.holds_other {evq' : Ptr} {j : Fin 8} {k : List Ptr} (h : Frame evq i s s')
    (hk : Holds s evq' j k) (he : evq' ≠ evq) (hj : j ≠ i) : Holds s' evq' j k where
  ch := (h.ch evq').trans hk.ch
  items := by rw [h.q j hj]; exact hk.items
  len := by rw [h.len evq' he]; exact hk.len

/-- A put that runs to completion adds one to the channel and to the counter,
whatever they are. -/
structure Added (evq ev : Ptr) (i : Fin 8) (s t : Npl) : Prop where
  ch : (s.evqs evq).ch = some i
  frame : Frame evq i s t
  len : (s.evqs evq).len.toNat < 255 → (t.evqs evq).len.toNat = (s.evqs evq).len.toNat + 1
  items : (t.eqPool i).q.items = (s.eqPool i).q.items ++ [ev]
  nonnull : ev ≠ nullMut

theorem put_added (h : bleNplEventqPut profile evq ev s = some t) : ∃ i, Added evq ev i s t := by
  obtain ⟨u, hguard, h⟩ := Option.bind_eq_some_iff.mp h
  obtain ⟨len, hadd, h⟩ := Option.bind_eq_some_iff.mp h
  obtain ⟨i, hi, h⟩ := Option.bind_eq_some_iff.mp h
  obtain ⟨q, hsend, h⟩ := Option.bind_eq_some_iff.mp h
  cases h
  have hch : (s.evqs evq).ch = some i := by simpa using hi
  obtain ⟨-, hq⟩ := Channel.trySend_eq_some.mp hsend
  refine ⟨i, hch, ?_, ?_, ?_, ?_⟩
  · exact ((frame_setQueued evq i s ev true).trans (frame_setLen evq i _ len)).trans
      (frame_setChannel evq i _ q)
  · intro hlt
    obtain ⟨len', hadd', hlen'⟩ := profile.addU8_one (s.evqs evq).len hlt
    rw [setQueued_evqs] at hadd
    cases hadd.symm.trans hadd'
    simpa using hlen'
  · simpa using hq
  · simpa [guard] using hguard

/-- How often the event stands in the channels of the pool. -/
def occurrences (ev : Ptr) (s : Npl) : Nat :=
  ((List.finRange 8).map (fun i => (s.eqPool i).q.items.count ev)).sum

theorem Added.occurrences (h : Added evq ev i s t) (e : Ptr) :
    EventQueue.occurrences e t = EventQueue.occurrences e s + if e = ev then 1 else 0 := by
  have hslot : ∀ j, (t.eqPool j).q.items.count e =
      (s.eqPool j).q.items.count e + if j = i then (if e = ev then 1 else 0) else 0 := by
    intro j
    by_cases hj : j = i
    · subst hj
      rw [h.items, List.count_append, if_pos rfl]
      by_cases he : e = ev
      · simp [he]
      · simp [he, Ne.symm he]
    · rw [h.frame.q j hj, if_neg hj, Nat.add_zero]
  simp only [EventQueue.occurrences, hslot, ← Fin.sum_univ_def, Finset.sum_add_distrib,
    Finset.sum_ite_eq', Finset.mem_univ, if_true]

/-- The channel bounds what a queue can hold. -/
theorem Holds.length_le (h : Holds s evq i l) : l.length ≤ 16 := by
  rw [← h.items]
  exact (s.eqPool i).q.bounded

/-- What the channel of a queue holds. -/
def content (s : Npl) (evq : Ptr) : Option (List Ptr) :=
  (s.evqs evq).ch.map (fun i => (s.eqPool i).q.items)

theorem Holds.content (h : Holds s evq i l) : content s evq = some l := by
  simp [EventQueue.content, h.ch, h.items]

theorem bleNplEventqPut_spec (profile : Profile) (h : Holds s evq i l) (hev : ev ≠ nullMut)
    (hl : l.length < 16) :
    ∃ s', bleNplEventqPut profile evq ev s = some s' ∧ Holds s' evq i (l ++ [ev]) ∧
      Frame evq i s s' ∧
      ∀ e, (s'.events e).queued = if e = ev then true else (s.events e).queued := by
  obtain ⟨len, hadd, hlen⟩ := profile.addU8_one (s.evqs evq).len (by rw [h.len]; omega)
  obtain ⟨q, hsend, hq⟩ := (s.eqPool i).q.trySend_of_lt ev (by rw [h.items]; exact hl)
  refine ⟨((s.setQueued ev true).setLen evq len).setChannel i q, ?_, ⟨?_, ?_, ?_⟩, ?_, ?_⟩
  · simp [bleNplEventqPut, hev, hadd, h.ch, hsend]
  · simpa using h.ch
  · simpa [h.items] using hq
  · simpa [h.len] using hlen
  · exact ((frame_setQueued evq i s ev true).trans (frame_setLen evq i _ len)).trans
      (frame_setChannel evq i _ q)
  · intro e
    simp

/-- The seventeenth entry makes the operation panic. -/
theorem bleNplEventqPut_full (h : Holds s evq i l) (hl : l.length = 16) :
    bleNplEventqPut profile evq ev s = none := by
  obtain ⟨len, hadd, hlen⟩ := profile.addU8_one (s.evqs evq).len (by rw [h.len]; omega)
  have hsend : (s.eqPool i).q.trySend ev = none := by
    rw [Channel.trySend_eq_none, h.items]
    omega
  by_cases hev : ev = nullMut
  · simp [bleNplEventqPut, hev, failure]
  · simp [bleNplEventqPut, hev, hadd, h.ch, hsend]

theorem receiveOr_cons (h : Holds s evq i (ev :: l)) :
    ∃ q, (∀ absent, receiveOr i absent s = (s.setChannel i q, .ready ev)) ∧ q.items = l := by
  obtain ⟨q, hrecv, hq⟩ := (s.eqPool i).q.tryReceive_of_cons h.items
  exact ⟨q, fun absent => by simp [receiveOr, hrecv], hq⟩

theorem receiveOr_nil (h : Holds s evq i []) (absent : Poll Ptr) :
    receiveOr i absent s = (s, absent) := by
  simp [receiveOr, Channel.tryReceive_eq_none.mpr h.items]

/-- Whatever the timeout, a pending event is taken from the head. -/
theorem bleNplEventqGet_cons (profile : Profile) (h : Holds s evq i (ev :: l)) (hev : ev ≠ nullMut)
    (tmo : UInt32) (expired : Bool) :
    ∃ s', bleNplEventqGet profile evq tmo expired s = some (s', .ready ev) ∧ Holds s' evq i l ∧
      Frame evq i s s' ∧
      ∀ e, (s'.events e).queued = if e = ev then false else (s.events e).queued := by
  obtain ⟨q, hq, hitems⟩ := receiveOr_cons h
  obtain ⟨len, hsub, hlen⟩ := profile.subU8_one (s.evqs evq).len (by rw [h.len]; simp)
  refine ⟨((s.setChannel i q).setQueued ev false).setLen evq len, ?_, ⟨?_, ?_, ?_⟩, ?_, ?_⟩
  · simp [bleNplEventqGet, h.ch, hq, hev, hsub]
  · simpa using h.ch
  · simpa using hitems
  · have := h.len
    simp only [List.length_cons] at this
    simp only [setLen_len, if_true]
    omega
  · exact ((frame_setChannel evq i s q).trans (frame_setQueued evq i _ ev false)).trans
      (frame_setLen evq i _ len)
  · intro e
    simp

/-- What an empty queue answers: null at once or at expiry, else nothing yet. -/
def emptyPoll (tmo : UInt32) (expired : Bool) : Poll Ptr :=
  if tmo = 0 then .ready nullMut
  else if tmo = 0xFFFFFFFF then .pending
  else if expired then .ready nullMut else .pending

theorem bleNplEventqGet_nil (h : Holds s evq i []) (tmo : UInt32) (expired : Bool) :
    bleNplEventqGet profile evq tmo expired s = some (s, emptyPoll tmo expired) := by
  have hr := receiveOr_nil h
  unfold bleNplEventqGet emptyPoll
  by_cases h₀ : tmo = 0
  · simp [h.ch, hr, h₀]
  · by_cases h₁ : tmo = 0xFFFFFFFF
    · simp [h.ch, hr, h₁]
    · cases expired <;> simp [h.ch, hr, h₀, h₁]

/-- One iteration moves the head to the tail, or drops it with its flag. -/
theorem removeBody_spec (profile : Profile) (ev : Ptr) {x : Ptr} (h : Holds s evq i (x :: l)) :
    ∃ s', removeBody profile evq ev s = some s' ∧
      Holds s' evq i (l ++ [x].filter (· ≠ ev)) ∧ Frame evq i s s' ∧
      ∀ e, (s'.events e).queued = if e = ev ∧ x = ev then false else (s.events e).queued := by
  obtain ⟨q, hrecv, hq⟩ := (s.eqPool i).q.tryReceive_of_cons h.items
  have hlen := h.len
  have hbound := h.length_le
  simp only [List.length_cons] at hlen hbound
  by_cases hx : x = ev
  · obtain ⟨len, hsub, hl⟩ := profile.subU8_one (s.evqs evq).len (by omega)
    refine ⟨((s.setChannel i q).setQueued ev false).setLen evq len, ?_, ⟨?_, ?_, ?_⟩, ?_, ?_⟩
    · simp [removeBody, h.ch, hrecv, hx, hsub]
    · simpa using h.ch
    · simpa [hx] using hq
    · simp only [setLen_len, if_true, List.filter, hx]
      simp
      omega
    · exact ((frame_setChannel evq i s q).trans (frame_setQueued evq i _ ev false)).trans
        (frame_setLen evq i _ len)
    · intro e
      simp [hx]
  · obtain ⟨q', hsend, hq'⟩ := q.trySend_of_lt x (by rw [hq]; omega)
    refine ⟨(s.setChannel i q).setChannel i q', ?_, ⟨?_, ?_, ?_⟩, ?_, ?_⟩
    · simp [removeBody, h.ch, hrecv, hx, hsend]
    · exact h.ch
    · simp [hq', hq, hx]
    · simp [hx, hlen]
    · exact (frame_setChannel evq i s q).trans (frame_setChannel evq i _ q')
    · intro e
      simp [hx]

/-- After as many iterations as `xs` is long, the rest has come to the front
and what is kept of `xs` follows in its old order. -/
theorem removeLoop_spec (profile : Profile) (ev : Ptr) (xs ys : List Ptr)
    (h : Holds s evq i (xs ++ ys)) :
    ∃ s', removeLoop profile evq ev xs.length s = some s' ∧
      Holds s' evq i (ys ++ xs.filter (· ≠ ev)) ∧ Frame evq i s s' ∧
      ∀ e, (s'.events e).queued = if e = ev ∧ ev ∈ xs then false else (s.events e).queued := by
  induction xs generalizing s ys with
  | nil => exact ⟨s, rfl, by simpa using h, Frame.refl evq i s, fun e => by simp⟩
  | cons x xs ih =>
    obtain ⟨s₁, hbody, hs₁, hframe₁, hflag₁⟩ := removeBody_spec profile ev h
    rw [List.append_eq, List.append_assoc] at hs₁
    obtain ⟨s₂, hloop, hs₂, hframe₂, hflag₂⟩ := ih (ys ++ [x].filter (· ≠ ev)) hs₁
    refine ⟨s₂, ?_, ?_, hframe₁.trans hframe₂, ?_⟩
    · simp only [List.length_cons, removeLoop, hbody]
      exact hloop
    · rw [List.append_assoc, ← List.filter_append] at hs₂
      exact hs₂
    · intro e
      rw [hflag₂ e, hflag₁ e]
      simp only [List.mem_cons, @eq_comm _ ev x]
      by_cases he : e = ev <;> by_cases hx : x = ev <;> by_cases hm : ev ∈ xs <;> simp [he, hx, hm]

/-- The whole operation keeps the order of what it keeps. -/
theorem bleNplEventqRemove_spec (profile : Profile) (ev : Ptr) (h : Holds s evq i l) :
    ∃ s', bleNplEventqRemove profile evq ev s = some s' ∧ Holds s' evq i (l.filter (· ≠ ev)) ∧
      Frame evq i s s' ∧
      ∀ e, (s'.events e).queued = if e = ev ∧ ev ∈ l then false else (s.events e).queued := by
  obtain ⟨s', hloop, hs', hframe, hflag⟩ :=
    removeLoop_spec profile ev l [] (by simpa using h)
  refine ⟨s', ?_, by simpa using hs', hframe, hflag⟩
  rw [bleNplEventqRemove, h.len]
  exact hloop

end EventQueue
