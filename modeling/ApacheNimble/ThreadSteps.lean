import ApacheNimble.Transition
import ApacheNimble.EventQueue

/-!
# The steps of a put and a get

The thread puts and gets by single steps. A handler's put runs to completion
between any two of them.
-/
namespace ThreadSteps

open PortLayer EventQueue Fifo Transition

variable {profile : Profile} {s t : Npl} {evq ev : Ptr} {i : Fin 8}

/-- Where the thread is in its operation, with the value of `len` that it has
loaded. -/
inductive Pc where
  | idle
  | putQueued (evq ev : Ptr)
  | putLoaded (evq ev : Ptr) (len : UInt8)
  | putStored (evq ev : Ptr)
  | getPopped (evq ev : Ptr)
  | getCleared (evq ev : Ptr)
  | getLoaded (evq ev : Ptr) (len : UInt8)
  deriving DecidableEq, Repr

structure State where
  npl : Npl
  pc : Pc

/-- The thread starts an operation or does the next step of the one in
progress; `callout` is the store of `active` by a reset or a stop. A handler
puts an event of its own or wakes a callout. -/
inductive Label where
  | init (evq : Ptr)
  | put (evq ev : Ptr)
  | get (evq : Ptr) (tmo : UInt32) (expired : Bool)
  | remove (evq ev : Ptr)
  | callout (co : Ptr) (active : Bool)
  | advance
  | interruptPut (evq ev : Ptr)
  | interruptWake (co : Ptr)
  deriving DecidableEq, Repr

/-- What the channel answers to a get. -/
def receive (slot : Fin 8) (tmo : UInt32) (expired : Bool) (s : Npl) : Npl × Poll Ptr :=
  if tmo = 0 then receiveOr slot (.ready nullMut) s
  else if tmo = 0xFFFFFFFF then receiveOr slot .pending s
  else receiveOr slot (if expired then .ready nullMut else .pending) s

/-- A get goes on only with an event. -/
def afterReceive (evq : Ptr) : Poll Ptr → Pc
  | .pending => .idle
  | .ready ev => if ev ≠ nullMut then .getPopped evq ev else .idle

def advance (profile : Profile) (s : State) : Option State :=
  match s.pc with
  | .idle => none
  | .putQueued evq ev => some ⟨s.npl, .putLoaded evq ev (s.npl.evqs evq).len⟩
  | .putLoaded evq ev len =>
    (profile.addU8 len 1).map (fun len => ⟨s.npl.setLen evq len, .putStored evq ev⟩)
  | .putStored evq ev => do
    let slot ← (s.npl.evqs evq).ch
    let q ← (s.npl.eqPool slot).q.trySend ev
    return ⟨s.npl.setChannel slot q, .idle⟩
  | .getPopped evq ev => some ⟨s.npl.setQueued ev false, .getCleared evq ev⟩
  | .getCleared evq ev => some ⟨s.npl, .getLoaded evq ev (s.npl.evqs evq).len⟩
  | .getLoaded evq _ len =>
    (profile.subU8 len 1).map (fun len => ⟨s.npl.setLen evq len, .idle⟩)

def step (profile : Profile) (l : Label) (s : State) : Option State :=
  match l with
  | .init evq =>
    if s.pc = .idle then (bleNplEventqInit evq s.npl).map (⟨·, .idle⟩) else none
  | .put evq ev =>
    if s.pc = .idle ∧ ev ≠ nullMut then some ⟨s.npl.setQueued ev true, .putQueued evq ev⟩ else none
  | .get evq tmo expired =>
    if s.pc = .idle then (s.npl.evqs evq).ch.map (fun slot =>
      ⟨(receive slot tmo expired s.npl).1, afterReceive evq (receive slot tmo expired s.npl).2⟩)
    else none
  | .remove evq ev =>
    if s.pc = .idle then (bleNplEventqRemove profile evq ev s.npl).map (⟨·, .idle⟩) else none
  | .callout co active => if s.pc = .idle then some ⟨s.npl.setActive co active, .idle⟩ else none
  | .advance => advance profile s
  | .interruptPut evq ev => (bleNplEventqPut profile evq ev s.npl).map (⟨·, s.pc⟩)
  | .interruptWake co => (calloutCb profile co s.npl).map (⟨·, s.pc⟩)

/-- No queue has been created yet. -/
def start (events : Ptr → BleNplEvent) (callouts : Ptr → BleNplCallout) : State :=
  ⟨boot (fun _ => ⟨none, 0⟩) events callouts, .idle⟩

/-- The elementary steps without a preemption are the operation. -/
theorem put_run (profile : Profile) (evq ev : Ptr) (s : Npl) (hev : ev ≠ nullMut) :
    run (step profile) [.put evq ev, .advance, .advance, .advance] ⟨s, .idle⟩ =
      (bleNplEventqPut profile evq ev s).map (⟨·, .idle⟩) := by
  cases hadd : profile.addU8 (s.evqs evq).len 1 with
  | none => simp [run_cons, step, advance, bleNplEventqPut, hev, hadd]
  | some len =>
    cases hch : (s.evqs evq).ch with
    | none => simp [run_cons, step, advance, bleNplEventqPut, hev, hadd, hch]
    | some slot =>
      cases hsend : (s.eqPool slot).q.trySend ev with
      | none => simp [run_cons, step, advance, bleNplEventqPut, hev, hadd, hch, hsend]
      | some q => simp [run_cons, step, advance, bleNplEventqPut, hev, hadd, hch, hsend]

theorem get_run (profile : Profile) (evq : Ptr) (tmo : UInt32) (expired : Bool) (s : Npl) {t : Npl}
    (hev : ev ≠ nullMut) (h : bleNplEventqGet profile evq tmo expired s = some (t, .ready ev)) :
    run (step profile) [.get evq tmo expired, .advance, .advance, .advance] ⟨s, .idle⟩ =
      some ⟨t, .idle⟩ := by
  obtain ⟨slot, hslot, h⟩ := Option.bind_eq_some_iff.mp h
  obtain ⟨⟨u, poll⟩, hreceive⟩ : ∃ r, receive slot tmo expired s = r := ⟨_, rfl⟩
  dsimp only at h
  unfold receive at hreceive
  rw [hreceive] at h
  change receive slot tmo expired s = (u, poll) at hreceive
  cases poll with
  | pending => cases h
  | ready e =>
    dsimp only at h
    by_cases he : e = nullMut
    · rw [if_neg (by simpa using he)] at h
      cases h
      exact absurd he hev
    · rw [if_pos he] at h
      obtain ⟨len, hsub, h⟩ := Option.bind_eq_some_iff.mp h
      cases h
      simp only [setQueued_evqs] at hsub
      simp [run_cons, step, advance, hslot, hreceive, afterReceive, he, hsub]

/-- A get takes the head off the channel first, or nothing. -/
theorem receive_cases (i : Fin 8) (tmo : UInt32) (expired : Bool) (s : Npl) :
    (∃ ev c, (s.eqPool i).q.items = ev :: c.items ∧
      receive i tmo expired s = (s.setChannel i c, .ready ev)) ∨
    ∃ absent, receive i tmo expired s = (s, absent) ∧
      ∀ evq, afterReceive evq absent = .idle := by
  obtain ⟨absent, habsent, hreceive⟩ : ∃ absent, (absent = .ready nullMut ∨ absent = .pending) ∧
      receive i tmo expired s = receiveOr i absent s := by
    unfold receive
    split
    · exact ⟨_, .inl rfl, rfl⟩
    · split
      · exact ⟨_, .inr rfl, rfl⟩
      · cases expired
        · exact ⟨_, .inr rfl, rfl⟩
        · exact ⟨_, .inl rfl, rfl⟩
  unfold receiveOr at hreceive
  split at hreceive
  · rename_i ev c hrecv
    exact .inl ⟨ev, c, Channel.tryReceive_eq_some.mp hrecv, hreceive⟩
  · refine .inr ⟨absent, hreceive, fun evq => ?_⟩
    obtain rfl | rfl := habsent
    · rfl
    · rfl

/-- What a handler does to the queues when it puts into the given one. -/
def Handled (target : Option Ptr) (s t : Npl) : Prop :=
  match target with
  | some q => ∃ ev i u, Added q ev i s u ∧ t.evqs = u.evqs ∧ t.eqPool = u.eqPool
  | none => t.evqs = s.evqs ∧ t.eqPool = s.eqPool

theorem put_handled (h : bleNplEventqPut profile evq ev s = some t) : Handled (some evq) s t := by
  obtain ⟨i, hadded⟩ := put_added h
  exact ⟨ev, i, t, hadded, rfl, rfl⟩

theorem wake_handled {co : Ptr} (h : calloutCb profile co s = some t) :
    Handled (if (s.callouts co).active then some (s.callouts co).eventQueue else none) s t := by
  obtain ⟨hactive, u, hput, rfl⟩ | ⟨hactive, rfl⟩ := calloutCb_cases h
  · obtain ⟨i, hadded⟩ := put_added hput
    rw [if_pos (show (s.callouts co).active = true from hactive)]
    exact ⟨calloutEvent co, i, u, hadded, rfl, rfl⟩
  · rw [if_neg (by simpa [bleNplCalloutIsActive] using hactive)]
    exact ⟨rfl, rfl⟩

theorem handled_ch {target : Option Ptr} (h : Handled target s t) (e : Ptr) :
    (t.evqs e).ch = (s.evqs e).ch := by
  cases target with
  | none => rw [h.1]
  | some q =>
    obtain ⟨ev, i, u, hadded, hevqs, -⟩ := h
    rw [hevqs, hadded.frame.ch]

end ThreadSteps
