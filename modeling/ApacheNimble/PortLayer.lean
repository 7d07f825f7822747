import Mathlib.Data.Option.Basic
import Mathlib.Logic.Function.Basic
import ApacheNimble.Fifo

/-!
# The embassy port layer: events, event queues and callouts

Memory is a record for each pointer. An operation is undefined where the code
panics, where overflow checks trap, and where it follows a null pointer. The
event inside a callout lives in the event memory, at its own address.
-/
namespace PortLayer

open Fifo

abbrev Ptr := Nat

def nullMut : Ptr := 0

/-- Debug builds trap on overflow, release builds wrap around. -/
inductive Profile where
  | debug | release
  deriving DecidableEq, Repr

def Profile.addU8 : Profile → UInt8 → UInt8 → Option UInt8
  | .debug, a, b => if a.toNat + b.toNat < UInt8.size then some (a + b) else none
  | .release, a, b => some (a + b)

def Profile.subU8 : Profile → UInt8 → UInt8 → Option UInt8
  | .debug, a, b => if b.toNat ≤ a.toNat then some (a - b) else none
  | .release, a, b => some (a - b)

def Profile.addU32 : Profile → UInt32 → UInt32 → Option UInt32
  | .debug, a, b => if a.toNat + b.toNat < UInt32.size then some (a + b) else none
  | .release, a, b => some (a + b)

def Profile.subU32 : Profile → UInt32 → UInt32 → Option UInt32
  | .debug, a, b => if b.toNat ≤ a.toNat then some (a - b) else none
  | .release, a, b => some (a - b)

theorem Profile.addU8_one (p : Profile) (a : UInt8) (h : a.toNat < 255) :
    ∃ b, p.addU8 a 1 = some b ∧ b.toNat = a.toNat + 1 := by
  have ha : (a + 1).toNat = a.toNat + 1 := by simp; omega
  cases p with
  | debug =>
    refine ⟨a + 1, ?_, ha⟩
    simp only [addU8]
    rw [if_pos (by simp [UInt8.size]; omega)]
  | release => exact ⟨a + 1, rfl, ha⟩

theorem Profile.subU8_one (p : Profile) (a : UInt8) (h : 0 < a.toNat) :
    ∃ b, p.subU8 a 1 = some b ∧ b.toNat + 1 = a.toNat := by
  have ha : (a - 1).toNat + 1 = a.toNat := by
    rw [UInt8.toNat_sub_of_le _ _ (by rw [UInt8.le_iff_toNat_le]; simp; omega)]
    simp
    omega
  cases p with
  | debug =>
    refine ⟨a - 1, ?_, ha⟩
    simp only [subU8]
    rw [if_pos (by simp; omega)]
  | release => exact ⟨a - 1, rfl, ha⟩

/-- A sum that fits is the sum, whatever the profile. -/
theorem Profile.addU32_of_lt (p : Profile) {a b : UInt32} (h : a.toNat + b.toNat < UInt32.size) :
    p.addU32 a b = some (a + b) ∧ (a + b).toNat = a.toNat + b.toNat := by
  have hsum : (a + b).toNat = a.toNat + b.toNat := by
    rw [UInt32.toNat_add]
    exact Nat.mod_eq_of_lt h
  cases p with
  | debug => exact ⟨if_pos h, hsum⟩
  | release => exact ⟨rfl, hsum⟩

theorem Profile.addU32_eq (p : Profile) {a b c : UInt32} (h : p.addU32 a b = some c) :
    c = a + b := by
  cases p with
  | debug => exact (Option.some.inj (Option.ite_none_right_eq_some.mp h).2).symm
  | release => exact (Option.some.inj h).symm

structure BleNplEvent where
  eventFn : Ptr
  argPtr : Ptr
  queued : Bool
  deriving DecidableEq, Repr

structure EventQueueState where
  q : Channel Ptr 16
  taken : Bool

/-- `ch` is the slot of the pool the reference points to, or the zeroed reference. -/
structure BleNplEventq where
  ch : Option (Fin 8)
  len : UInt8
  deriving DecidableEq, Repr

structure BleNplCallout where
  active : Bool
  expiresAt : UInt32
  eventQueue : Ptr
  deriving DecidableEq, Repr

/-- The address of the event inside a callout, on a 32-bit target. -/
def calloutEvent (c : Ptr) : Ptr := c + 12

theorem calloutEvent_inj {c d : Ptr} : calloutEvent d = calloutEvent c ↔ d = c := by
  simp [calloutEvent]

theorem calloutEvent_ne_null (c : Ptr) : calloutEvent c ≠ nullMut := by
  simp [calloutEvent, nullMut]

structure Npl where
  eqPool : Fin 8 → EventQueueState
  evqs : Ptr → BleNplEventq
  events : Ptr → BleNplEvent
  callouts : Ptr → BleNplCallout

/-- The pool as it is linked: eight empty channels, none of them taken. The
rest of the memory may hold anything. -/
def boot (evqs : Ptr → BleNplEventq) (events : Ptr → BleNplEvent)
    (callouts : Ptr → BleNplCallout) : Npl :=
  ⟨fun _ => ⟨Channel.empty, false⟩, evqs, events, callouts⟩

def Npl.setQueued (s : Npl) (ev : Ptr) (queued : Bool) : Npl :=
  { s with events := Function.update s.events ev { s.events ev with queued := queued } }

def Npl.setLen (s : Npl) (evq : Ptr) (len : UInt8) : Npl :=
  { s with evqs := Function.update s.evqs evq { s.evqs evq with len := len } }

def Npl.setChannel (s : Npl) (slot : Fin 8) (q : Channel Ptr 16) : Npl :=
  { s with eqPool := Function.update s.eqPool slot { s.eqPool slot with q := q } }

def Npl.setActive (s : Npl) (c : Ptr) (active : Bool) : Npl :=
  { s with callouts := Function.update s.callouts c { s.callouts c with active := active } }

section Setters

variable (s : Npl)

@[simp] theorem setQueued_eqPool (ev : Ptr) (b : Bool) : (s.setQueued ev b).eqPool = s.eqPool := rfl
@[simp] theorem setQueued_evqs (ev : Ptr) (b : Bool) : (s.setQueued ev b).evqs = s.evqs := rfl
@[simp] theorem setQueued_callouts (ev : Ptr) (b : Bool) :
    (s.setQueued ev b).callouts = s.callouts := rfl
@[simp] theorem setLen_eqPool (evq : Ptr) (l : UInt8) : (s.setLen evq l).eqPool = s.eqPool := rfl
@[simp] theorem setLen_events (evq : Ptr) (l : UInt8) : (s.setLen evq l).events = s.events := rfl
@[simp] theorem setLen_callouts (evq : Ptr) (l : UInt8) :
    (s.setLen evq l).callouts = s.callouts := rfl
@[simp] theorem setChannel_evqs (i : Fin 8) (q : Channel Ptr 16) :
    (s.setChannel i q).evqs = s.evqs := rfl
@[simp] theorem setChannel_events (i : Fin 8) (q : Channel Ptr 16) :
    (s.setChannel i q).events = s.events := rfl
@[simp] theorem setChannel_callouts (i : Fin 8) (q : Channel Ptr 16) :
    (s.setChannel i q).callouts = s.callouts := rfl
@[simp] theorem setActive_eqPool (c : Ptr) (b : Bool) : (s.setActive c b).eqPool = s.eqPool := rfl
@[simp] theorem setActive_evqs (c : Ptr) (b : Bool) : (s.setActive c b).evqs = s.evqs := rfl
@[simp] theorem setActive_events (c : Ptr) (b : Bool) : (s.setActive c b).events = s.events := rfl

@[simp] theorem setQueued_queued (ev e : Ptr) (b : Bool) :
    ((s.setQueued ev b).events e).queued = if e = ev then b else (s.events e).queued := by
  by_cases h : e = ev
  · subst h; simp [Npl.setQueued]
  · simp [Npl.setQueued, h]

@[simp] theorem setQueued_eventFn (ev e : Ptr) (b : Bool) :
    ((s.setQueued ev b).events e).eventFn = (s.events e).eventFn := by
  by_cases h : e = ev
  · subst h; simp [Npl.setQueued]
  · simp [Npl.setQueued, h]

@[simp] theorem setQueued_argPtr (ev e : Ptr) (b : Bool) :
    ((s.setQueued ev b).events e).argPtr = (s.events e).argPtr := by
  by_cases h : e = ev
  · subst h; simp [Npl.setQueued]
  · simp [Npl.setQueued, h]

@[simp] theorem setLen_ch (evq e : Ptr) (l : UInt8) :
    ((s.setLen evq l).evqs e).ch = (s.evqs e).ch := by
  by_cases h : e = evq
  · subst h; simp [Npl.setLen]
  · simp [Npl.setLen, h]

@[simp] theorem setLen_len (evq e : Ptr) (l : UInt8) :
    ((s.setLen evq l).evqs e).len = if e = evq then l else (s.evqs e).len := by
  by_cases h : e = evq
  · subst h; simp [Npl.setLen]
  · simp [Npl.setLen, h]

@[simp] theorem setChannel_q (i j : Fin 8) (q : Channel Ptr 16) :
    ((s.setChannel i q).eqPool j).q = if j = i then q else (s.eqPool j).q := by
  by_cases h : j = i
  · subst h; simp [Npl.setChannel]
  · simp [Npl.setChannel, h]

@[simp] theorem setChannel_taken (i j : Fin 8) (q : Channel Ptr 16) :
    ((s.setChannel i q).eqPool j).taken = (s.eqPool j).taken := by
  by_cases h : j = i
  · subst h; simp [Npl.setChannel]
  · simp [Npl.setChannel, h]

@[simp] theorem setActive_active (c d : Ptr) (b : Bool) :
    ((s.setActive c b).callouts d).active = if d = c then b else (s.callouts d).active := by
  by_cases h : d = c
  · subst h; simp [Npl.setActive]
  · simp [Npl.setActive, h]

@[simp] theorem setActive_eventQueue (c d : Ptr) (b : Bool) :
    ((s.setActive c b).callouts d).eventQueue = (s.callouts d).eventQueue := by
  by_cases h : d = c
  · subst h; simp [Npl.setActive]
  · simp [Npl.setActive, h]

@[simp] theorem setActive_expiresAt (c d : Ptr) (b : Bool) :
    ((s.setActive c b).callouts d).expiresAt = (s.callouts d).expiresAt := by
  by_cases h : d = c
  · subst h; simp [Npl.setActive]
  · simp [Npl.setActive, h]

end Setters

/-- The slot whose `compare_exchange` succeeds first. -/
def firstFree (s : Npl) : Option (Fin 8) := (List.finRange 8).find? (fun i => !(s.eqPool i).taken)

def bleNplEventqInit (evq : Ptr) (s : Npl) : Option Npl :=
  match firstFree s with
  | some i => some { s with
      eqPool := Function.update s.eqPool i { s.eqPool i with taken := true }
      evqs := Function.update s.evqs evq ⟨some i, 0⟩ }
  | none => none

def bleNplEventqPut (profile : Profile) (evq ev : Ptr) (s : Npl) : Option Npl := do
  guard (ev ≠ nullMut)
  let s := s.setQueued ev true
  let len ← profile.addU8 (s.evqs evq).len 1
  let s := s.setLen evq len
  let slot ← (s.evqs evq).ch
  let q ← (s.eqPool slot).q.trySend ev
  return s.setChannel slot q

/-- What polling a future gives. -/
inductive Poll (α : Type) where
  | pending
  | ready (a : α)
  deriving DecidableEq, Repr

/-- Poll a receive on the channel; `absent` is the answer of the whole
expression when the channel has nothing to give. -/
def receiveOr (slot : Fin 8) (absent : Poll Ptr) (s : Npl) : Npl × Poll Ptr :=
  match (s.eqPool slot).q.tryReceive with
  | some (ev, q) => (s.setChannel slot q, .ready ev)
  | none => (s, absent)

/-- One poll of the future after it has yielded. `expired` says whether the
timer of a finite timeout has run out; `select` asks the channel first. -/
def bleNplEventqGet (profile : Profile) (evq : Ptr) (tmo : UInt32) (expired : Bool) (s : Npl) :
    Option (Npl × Poll Ptr) := do
  let slot ← (s.evqs evq).ch
  let r :=
    if tmo = 0 then receiveOr slot (.ready nullMut) s
    else if tmo = 0xFFFFFFFF then receiveOr slot .pending s
    else receiveOr slot (if expired then .ready nullMut else .pending) s
  match r with
  | (s, .pending) => return (s, .pending)
  | (s, .ready ev) =>
    if ev ≠ nullMut then
      let s := s.setQueued ev false
      let len ← profile.subU8 (s.evqs evq).len 1
      return (s.setLen evq len, .ready ev)
    else return (s, .ready ev)

/-- The body of the loop: pull one event, and put it back unless it is `ev`. -/
def removeBody (profile : Profile) (evq ev : Ptr) (s : Npl) : Option Npl := do
  let slot ← (s.evqs evq).ch
  let (pulled, q) ← (s.eqPool slot).q.tryReceive
  let s := s.setChannel slot q
  if pulled = ev then
    let s := s.setQueued ev false
    let len ← profile.subU8 (s.evqs evq).len 1
    return s.setLen evq len
  else
    let q ← (s.eqPool slot).q.trySend pulled
    return s.setChannel slot q

def removeLoop (profile : Profile) (evq ev : Ptr) : Nat → Npl → Option Npl
  | 0, s => some s
  | n + 1, s => (removeBody profile evq ev s).bind (removeLoop profile evq ev n)

/-- The bound of the loop is `len` as it is before the first iteration. -/
def bleNplEventqRemove (profile : Profile) (evq ev : Ptr) (s : Npl) : Option Npl :=
  removeLoop profile evq ev (s.evqs evq).len.toNat s

def bleNplEventInit (ev fn arg : Ptr) (s : Npl) : Npl :=
  { s with events := Function.update s.events ev ⟨fn, arg, false⟩ }

def bleNplEventIsQueued (ev : Ptr) (s : Npl) : Bool := (s.events ev).queued

def bleNplCalloutInit (c evq evCb evArg : Ptr) (s : Npl) : Npl :=
  bleNplEventInit (calloutEvent c) evCb evArg
    { s with callouts := Function.update s.callouts c ⟨false, 0, evq⟩ }

def bleNplCalloutStop (co : Ptr) (s : Npl) : Npl := s.setActive co false

def bleNplCalloutIsActive (c : Ptr) (s : Npl) : Bool := (s.callouts c).active

def bleNplCalloutGetTicks (co : Ptr) (s : Npl) : UInt32 := (s.callouts co).expiresAt

/-- `time - (*co).expires_at` -/
def bleNplCalloutRemainingTicks (profile : Profile) (co : Ptr) (time : UInt32) (s : Npl) :
    Option UInt32 :=
  profile.subU32 time (s.callouts co).expiresAt

/-- What every wake of the callout's waker runs. -/
def calloutCb (profile : Profile) (co : Ptr) (s : Npl) : Option Npl := do
  let s ← if (s.callouts co).active then
      bleNplEventqPut profile (s.callouts co).eventQueue (calloutEvent co) s
    else some s
  return s.setActive co false

/-- The event of an active callout is put, and the callout becomes inactive. -/
theorem calloutCb_cases {profile : Profile} {co : Ptr} {s t : Npl}
    (h : calloutCb profile co s = some t) :
    (bleNplCalloutIsActive co s = true ∧ ∃ u,
      bleNplEventqPut profile (s.callouts co).eventQueue (calloutEvent co) s = some u ∧
      t = u.setActive co false) ∨
    bleNplCalloutIsActive co s = false ∧ t = s.setActive co false := by
  unfold bleNplCalloutIsActive
  cases hactive : (s.callouts co).active with
  | true =>
    simp only [calloutCb, hactive, if_true] at h
    obtain ⟨u, hput, ht⟩ := Option.bind_eq_some_iff.mp h
    cases ht
    exact .inl ⟨rfl, u, hput, rfl⟩
  | false =>
    simp only [calloutCb, hactive] at h
    cases h
    exact .inr ⟨rfl, rfl⟩

end PortLayer
