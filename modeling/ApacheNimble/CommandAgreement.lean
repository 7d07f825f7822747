import Mathlib.Data.List.Perm.Subperm
import ApacheNimble.Transport

/-!
# Each call gets the response to its own command

Responses carry no identifier. The lock admits one command at a time, and that
command is answered once, so there is never more than one answer on its way.
-/
namespace CommandAgreement

open Hci Fifo Controller Transition Transport

variable {μ : Type} {lib : External μ} {n : Nat} {s t : State} {l : Label μ}

/-- The packet the reader has taken and not yet passed on. -/
def hand : ReaderPc → List (HostPacket Tag)
  | .holding _ p => [p]
  | .suspended _ p => [p]
  | _ => []

def inTransit (s : State) : List (HostPacket Tag) := hand s.reader ++ s.readChannel.items

/-- The calls with a command in the controller or an answer on its way. -/
def outstanding (s : State) : List CallId :=
  s.controller ++ (inTransit s).filterMap (·.tag.origin) ++
    s.cmdSignal.items.filterMap (·.2.origin)

/-- The array holds the packet, and the packet is a response if it answers a
call. -/
structure Sound (lib : External μ) (n : Nat) (p : HostPacket Tag) : Prop where
  kind : p.kind = p.tag.kind
  complete : Complete lib p.tag.kind p.tag.packet
  data : copyToFront n p.tag.packet = some p.data
  response : p.tag.origin.isSome =
    (lib.fromHciBytesWithKind p.tag.kind p.tag.packet).any (·.isResponse)

structure Agreement (lib : External μ) (n : Nat) (s : State) : Prop where
  holder : ∀ i, (s.calls i).working = true ∨ (s.calls i).inFlight = true → s.cmdLock = some i
  inFlight : ∀ i ∈ outstanding s, (s.calls i).inFlight = true
  single : (outstanding s).length ≤ 1
  answer : ∀ x ∈ s.cmdSignal.items, x.2.origin.isSome = true ∧
    copyToFront n x.2.packet = some x.1
  sound : ∀ p ∈ inTransit s, Sound lib n p
  fits : ∀ len p, s.reader = .holding len p → p.tag.packet.length ≤ len
  flows : ∀ len p, s.reader ≠ .suspended len p
  taken : ∀ x ∈ s.taken, x.2.origin = some x.1

theorem start_agreement : Agreement lib n start where
  holder := by simp [start, CallPc.working, CallPc.inFlight]
  inFlight := by simp [start, outstanding, inTransit, hand]
  single := by simp [start, outstanding, inTransit, hand]
  answer := by simp [start]
  sound := by simp [start, inTransit, hand]
  fits := by simp [start]
  flows := by simp [start]
  taken := by simp [start]

/-- The reader forwards a packet exactly if it answers a call. -/
theorem Sound.forward_iff (hlib : lib.Documented) {p : HostPacket Tag} {len : Nat} {buf : Bytes}
    {b : ReadBody} (hp : Sound lib n p) (hlen : p.tag.packet.length ≤ len)
    (h : Controller.readBody lib len p = some (buf, b)) :
    b = route (lib.fromHciBytesWithKind p.tag.kind p.tag.packet) ∧
      (b = .forward ↔ p.tag.origin.isSome = true) ∧ ∃ tail, buf = p.tag.packet ++ tail := by
  obtain ⟨kind, data, tag⟩ := p
  obtain rfl : kind = tag.kind := hp.kind
  obtain ⟨rfl, htail⟩ := readBody_packet hlib hp.complete hp.data hlen h
  refine ⟨rfl, ?_, htail⟩
  rw [route_forward_iff, hp.response]
  cases lib.fromHciBytesWithKind tag.kind tag.packet <;> simp

theorem Agreement.holder_eq (h : Agreement lib n s) {i j : CallId}
    (hi : (s.calls i).working = true ∨ (s.calls i).inFlight = true)
    (hj : (s.calls j).working = true ∨ (s.calls j).inFlight = true) : i = j :=
  Option.some.inj ((h.holder i hi).symm.trans (h.holder j hj))

theorem CallPc.not_inFlight_of_working {pc : CallPc} (h : pc.working = true) :
    pc.inFlight = false := by
  cases pc <;> simp_all [CallPc.working, CallPc.inFlight]

/-- While the holder of the lock does not wait, no answer is on its way. -/
theorem Agreement.nothing_outstanding (h : Agreement lib n s) {i : CallId}
    (hi : (s.calls i).working = true) : outstanding s = [] := by
  apply List.eq_nil_iff_forall_not_mem.mpr
  intro j hj
  have hin := h.inFlight j hj
  obtain rfl := h.holder_eq (.inl hi) (.inr hin)
  rw [CallPc.not_inFlight_of_working hi] at hin
  cases hin

/-- A step that puts nothing new on its way and moves no call that waits. -/
theorem Agreement.of_subperm (h : Agreement lib n s)
    (hout : (outstanding t).Subperm (outstanding s))
    (hflight : ∀ i, (s.calls i).inFlight = true → (t.calls i).inFlight = true)
    (hholder : ∀ i, (t.calls i).working = true ∨ (t.calls i).inFlight = true →
      t.cmdLock = some i)
    (hanswer : ∀ x ∈ t.cmdSignal.items, x.2.origin.isSome = true ∧
      copyToFront n x.2.packet = some x.1)
    (hsound : ∀ p ∈ inTransit t, Sound lib n p)
    (hfits : ∀ len p, t.reader = .holding len p → p.tag.packet.length ≤ len)
    (hflows : ∀ len p, t.reader ≠ .suspended len p) (htaken : t.taken = s.taken) :
    Agreement lib n t where
  holder := hholder
  inFlight i hi := hflight i (h.inFlight i (hout.subset hi))
  single := Nat.le_trans hout.length_le h.single
  answer := hanswer
  sound := hsound
  fits := hfits
  flows := hflows
  taken := by
    rw [htaken]
    exact h.taken

/-- A step of the reader or of the task, which moves no call. -/
theorem Agreement.of_parties (h : Agreement lib n s) (hcalls : t.calls = s.calls)
    (hlock : t.cmdLock = s.cmdLock) (htaken : t.taken = s.taken)
    (hout : (outstanding t).Subperm (outstanding s))
    (hanswer : ∀ x ∈ t.cmdSignal.items, x.2.origin.isSome = true ∧
      copyToFront n x.2.packet = some x.1)
    (hsound : ∀ p ∈ inTransit t, Sound lib n p)
    (hfits : ∀ len p, t.reader = .holding len p → p.tag.packet.length ≤ len)
    (hflows : ∀ len p, t.reader ≠ .suspended len p) : Agreement lib n t := by
  refine h.of_subperm hout ?_ ?_ hanswer hsound hfits hflows htaken
  · intro i hi
    rwa [hcalls]
  · rw [hcalls, hlock]
    exact h.holder

/-- A step of a call that does not wait, while nothing else changes but the
lock. -/
theorem Agreement.of_call (h : Agreement lib n s) {i : CallId} {pc : CallPc}
    {lock : Option CallId} {freed : List Ptr}
    (hi : (s.calls i).inFlight = false)
    (hholder : ∀ j, (Function.update s.calls i pc j).working = true ∨
      (Function.update s.calls i pc j).inFlight = true → lock = some j) :
    Agreement lib n { s.setCall i pc with cmdLock := lock, freed := freed } := by
  refine h.of_subperm (List.Subperm.refl _) ?_ hholder h.answer h.sound h.fits h.flows rfl
  intro j hj
  have hne : j ≠ i := by
    rintro rfl
    rw [hi] at hj
    cases hj
  simpa [State.setCall, hne] using hj

theorem setCall_holder (h : Agreement lib n s) {i : CallId} {pc : CallPc}
    (hpc : pc.working = true ∨ pc.inFlight = true → s.cmdLock = some i) (j : CallId)
    (hj : (Function.update s.calls i pc j).working = true ∨
      (Function.update s.calls i pc j).inFlight = true) : s.cmdLock = some j := by
  by_cases hji : j = i
  · subst hji
    exact hpc (by simpa using hj)
  · exact h.holder j (by simpa [hji] using hj)

theorem call_agreement (h : Agreement lib n s) {i : CallId} (cmd : Cmd)
    (hpc : s.calls i = .absent) : Agreement lib n (s.setCall i (.locking cmd)) :=
  h.of_call (by rw [hpc]; rfl) (setCall_holder h (by simp [CallPc.working, CallPc.inFlight]))

theorem lock_agreement (h : Agreement lib n s) {i : CallId} {cmd : Cmd}
    (hpc : s.calls i = .locking cmd) (hfree : s.cmdLock = none) :
    Agreement lib n { s.setCall i (.locked cmd) with cmdLock := some i } := by
  refine h.of_call (by rw [hpc]; rfl) ?_
  intro j hj
  by_cases hji : j = i
  · rw [hji]
  · have hlock := h.holder j (by simpa [hji] using hj)
    rw [hfree] at hlock
    cases hlock

theorem work_agreement (h : Agreement lib n s) {i : CallId} {pc : CallPc} {freed : List Ptr}
    (hi : (s.calls i).working = true) : Agreement lib n { s.setCall i pc with freed := freed } :=
  h.of_call (CallPc.not_inFlight_of_working hi) (setCall_holder h (fun _ => h.holder i (.inl hi)))

theorem return_agreement (h : Agreement lib n s) {i : CallId} (r : Except Error Event)
    {freed : List Ptr} (hi : (s.calls i).working = true) :
    Agreement lib n { s.return i r with freed := freed } := by
  refine h.of_call (CallPc.not_inFlight_of_working hi) ?_
  intro j hj
  by_cases hji : j = i
  · subst hji
    simp [CallPc.working, CallPc.inFlight] at hj
  · have := h.holder_eq (.inl hi) (by simpa [hji] using hj)
    exact absurd this.symm hji

/-- The command that is queued is the only one on its way. -/
theorem queue_agreement (h : Agreement lib n s) {i : CallId} (ptr : Ptr)
    (hi : (s.calls i).working = true) : Agreement lib n
      { s.setCall i (.waiting ptr) with controller := s.controller ++ [i] } := by
  have hnone := h.nothing_outstanding hi
  have hout : outstanding { s.setCall i (.waiting ptr) with controller := s.controller ++ [i] } =
      [i] := by
    simp only [outstanding, List.append_eq_nil_iff] at hnone
    obtain ⟨⟨hcontroller, htransit⟩, hsignal⟩ := hnone
    simp only [outstanding, State.setCall, hcontroller, List.nil_append, hsignal,
      List.append_nil]
    exact congrArg ([i] ++ ·) htransit
  constructor
  · exact setCall_holder h (fun _ => h.holder i (.inl hi))
  · intro j hj
    rw [hout, List.mem_singleton] at hj
    subst hj
    simp [State.setCall, CallPc.inFlight]
  · rw [hout]
    exact Nat.le_refl 1
  · exact h.answer
  · exact h.sound
  · exact h.fits
  · exact h.flows
  · exact h.taken

/-- What a call takes from `CMD_SIGNAL` answers this very call. -/
theorem Agreement.own_response (h : Agreement lib n s) {i : CallId} {x : Bytes × Tag}
    (hi : (s.calls i).inFlight = true) (hx : x ∈ s.cmdSignal.items) : x.2.origin = some i := by
  obtain ⟨j, hj⟩ := Option.isSome_iff_exists.mp (h.answer x hx).1
  have hout : j ∈ outstanding s := by
    refine List.mem_append_right _ (List.mem_filterMap.mpr ⟨x, hx, hj⟩)
  rw [hj, h.holder_eq (.inr (h.inFlight j hout)) (.inr hi)]

/-- While nobody holds the lock, nobody waits for what is in `CMD_SIGNAL`. -/
theorem Agreement.signal_empty_of_free (h : Agreement lib n s) (hfree : s.cmdLock = none) :
    s.cmdSignal.items = [] := by
  apply List.eq_nil_iff_forall_not_mem.mpr
  intro x hx
  obtain ⟨i, hi⟩ := Option.isSome_iff_exists.mp (h.answer x hx).1
  have hin := h.inFlight i (List.mem_append_right _ (List.mem_filterMap.mpr ⟨x, hx, hi⟩))
  rw [h.holder i (.inr hin)] at hfree
  cases hfree

theorem receive_agreement (h : Agreement lib n s) {i : CallId} {ptr : Ptr} {data : Bytes}
    {tag : Tag} (hpc : s.calls i = .waiting ptr) (hsignal : s.cmdSignal.items = [(data, tag)]) :
    Agreement lib n { s.setCall i (.answered ptr data) with
      cmdSignal := Channel.empty
      taken := s.taken ++ [(i, tag)] } := by
  have hi : (s.calls i).inFlight = true := by rw [hpc]; rfl
  have htag : tag.origin = some i := h.own_response (x := (data, tag)) hi (by rw [hsignal]; simp)
  have hnone : s.controller ++ (inTransit s).filterMap (·.tag.origin) = [] := by
    have hsingle := h.single
    simp only [outstanding, hsignal, List.filterMap_cons, htag, List.filterMap_nil,
      List.length_append, List.length_singleton] at hsingle
    apply List.length_eq_zero_iff.mp
    rw [List.length_append]
    omega
  have hout : outstanding { s.setCall i (.answered ptr data) with
      cmdSignal := Channel.empty, taken := s.taken ++ [(i, tag)] } = [] := by
    simp only [outstanding, Channel.empty_items, List.filterMap_nil, List.append_nil]
    exact hnone
  constructor
  · exact setCall_holder h (fun _ => h.holder i (.inr hi))
  · simp [hout]
  · simp [hout]
  · simp
  · exact h.sound
  · exact h.fits
  · exact h.flows
  · exact List.forall_mem_append.mpr ⟨h.taken, List.forall_mem_singleton.mpr htag⟩

/-- A response in the reader's hand is the only answer on its way. -/
theorem Agreement.signal_empty (h : Agreement lib n s) {len : Nat} {p : HostPacket Tag}
    (hreader : s.reader = .holding len p) (horigin : p.tag.origin.isSome = true) :
    s.cmdSignal.items = [] := by
  obtain ⟨i, hi⟩ := Option.isSome_iff_exists.mp horigin
  cases hitems : s.cmdSignal.items with
  | nil => rfl
  | cons x rest =>
    obtain ⟨j, hj⟩ := Option.isSome_iff_exists.mp (h.answer x (by rw [hitems]; simp)).1
    have hsingle := h.single
    simp only [outstanding, inTransit, hreader, hand, hitems, List.cons_append,
      List.filterMap_cons, hi, hj, List.length_append, List.length_cons] at hsingle
    omega

/-- What the reader does with the packet in its hand. -/
theorem Agreement.forward_iff (hlib : lib.Documented) (h : Agreement lib n s) {len : Nat}
    {p : HostPacket Tag} {buf : Bytes} {b : ReadBody} (hreader : s.reader = .holding len p)
    (hbody : Controller.readBody lib len p = some (buf, b)) :
    b = route (lib.fromHciBytesWithKind p.tag.kind p.tag.packet) ∧
      (b = .forward ↔ p.tag.origin.isSome = true) ∧ ∃ tail, buf = p.tag.packet ++ tail :=
  (h.sound p (by simp [inTransit, hand, hreader])).forward_iff hlib (h.fits len p hreader) hbody

theorem Agreement.done_origin (hlib : lib.Documented) (h : Agreement lib n s) {len : Nat}
    {p : HostPacket Tag} {buf : Bytes} {r : Except OsError ControllerToHostPacket}
    (hreader : s.reader = .holding len p)
    (hbody : Controller.readBody lib len p = some (buf, .done r)) : p.tag.origin = none := by
  have := (h.forward_iff hlib hreader hbody).2.1
  simpa using this

/-- Nothing is in the hand of a reader that holds no packet. -/
theorem idle_agreement (h : Agreement lib n s) {r : ReaderPc} (hhand : hand r = hand s.reader)
    (hr : hand r = []) : Agreement lib n { s with reader := r } := by
  have htransit : inTransit { s with reader := r } = inTransit s := by
    simp only [inTransit, hhand]
  refine h.of_parties rfl rfl rfl ?_ h.answer ?_ ?_ ?_
  · simp only [outstanding, htransit]
    exact List.Subperm.refl _
  · rw [htransit]
    exact h.sound
  · rintro len p rfl
    cases hr
  · rintro len p rfl
    cases hr

theorem readPoll_agreement (h : Agreement lib n s) {len : Nat} {p : HostPacket Tag}
    (hlong : LongEnough (μ := μ) .readPoll s) (hreader : s.reader = .receiving len)
    (hitems : s.readChannel.items = [p]) :
    Agreement lib n { s with reader := .holding len p, readChannel := Channel.empty } := by
  have htransit : inTransit { s with reader := .holding len p, readChannel := Channel.empty } =
      inTransit s := by
    simp [inTransit, hand, hreader, hitems]
  refine h.of_parties rfl rfl rfl ?_ h.answer ?_ ?_ nofun
  · simp only [outstanding, htransit]
    exact List.Subperm.refl _
  · rw [htransit]
    exact h.sound
  · rintro len' p' he
    cases he
    simp only [LongEnough, hreader] at hlong
    exact hlong p (by simp [hitems])

/-- A response goes from the hand into `CMD_SIGNAL`. -/
theorem forward_perm {len : Nat} {p : HostPacket Tag} {ch : Channel (Bytes × Tag) 1}
    (left : List (Tag × Departure)) (hreader : s.reader = .holding len p)
    (hsignal : s.cmdSignal.items = []) (hch : ch.items = [(p.data, p.tag)]) :
    (outstanding { s with reader := .receiving len, cmdSignal := ch, left := left }).Perm
      (outstanding s) := by
  simp only [outstanding, inTransit, hand, hreader, hch, hsignal, List.nil_append,
    List.cons_append, List.filterMap_cons, List.filterMap_nil, List.append_nil]
  cases p.tag.origin with
  | none => simp
  | some i =>
    rw [List.append_assoc]
    exact List.Perm.append_left _ (List.perm_append_singleton ..)

theorem readForward_agreement (hlib : lib.Documented) (h : Agreement lib n s) {len : Nat}
    {p : HostPacket Tag} {buf : Bytes} {ch : Channel (Bytes × Tag) 1}
    {left : List (Tag × Departure)}
    (hreader : s.reader = .holding len p)
    (hbody : Controller.readBody lib len p = some (buf, .forward))
    (hch : ch.items = [(p.data, p.tag)]) : Agreement lib n { s with
      reader := .receiving len, cmdSignal := ch, left := left } := by
  have horigin := (h.forward_iff hlib hreader hbody).2.1.mp rfl
  have hperm := forward_perm left hreader (h.signal_empty hreader horigin) hch
  refine h.of_parties rfl rfl rfl hperm.subperm ?_ ?_ nofun nofun
  · intro x hx
    cases List.mem_singleton.mp (hch ▸ hx)
    exact ⟨horigin, (h.sound p (by simp [inTransit, hand, hreader])).data⟩
  · intro q hq
    exact h.sound q (List.mem_append_right _ hq)

/-- A packet that is no response goes to the caller of `read`. -/
theorem readReturn_agreement (hlib : lib.Documented) (h : Agreement lib n s) {len : Nat}
    {p : HostPacket Tag} {buf : Bytes} {r : Except OsError ControllerToHostPacket}
    {left : List (Tag × Departure)} (hreader : s.reader = .holding len p)
    (hbody : Controller.readBody lib len p = some (buf, .done r)) :
    Agreement lib n { s with reader := .idle, left := left } := by
  have horigin := h.done_origin hlib hreader hbody
  refine h.of_parties rfl rfl rfl ?_ h.answer ?_ nofun nofun
  · simp only [outstanding, inTransit, hand, hreader, List.cons_append, List.nil_append,
      List.filterMap_cons, horigin]
    exact List.Subperm.refl _
  · intro q hq
    exact h.sound q (List.mem_append_right _ hq)

theorem remaining_subperm (origin : Option CallId) (controller : List CallId) :
    (remaining origin controller).Subperm controller := by
  cases origin with
  | none => exact List.Subperm.refl _
  | some i => exact List.erase_sublist.subperm

theorem discard_agreement (h : Agreement lib n s) (origin : Option CallId) :
    Agreement lib n { s with controller := remaining origin s.controller } := by
  refine h.of_parties rfl rfl rfl ?_ h.answer h.sound h.fits h.flows
  exact (List.subperm_append_right _).mpr
    ((List.subperm_append_right _).mpr (remaining_subperm origin s.controller))

/-- An accepted response takes the place of the command in the controller. -/
theorem accept_perm {tag : Tag} {data : Bytes} {ch : Channel (HostPacket Tag) 1}
    (accepted : List Tag) (freed : List Ptr)
    (horigin : ∀ i, tag.origin = some i → i ∈ s.controller)
    (hempty : s.readChannel.items = []) (hch : ch.items = [⟨tag.kind, data, tag⟩]) :
    (outstanding { s with
      readChannel := ch
      controller := remaining tag.origin s.controller
      accepted := accepted
      freed := freed }).Perm (outstanding s) := by
  simp only [outstanding, inTransit, hch, hempty, List.filterMap_append, List.filterMap_cons,
    List.filterMap_nil, List.append_nil]
  cases ho : tag.origin with
  | none => simp [remaining]
  | some i =>
    simp only [remaining, ← List.append_assoc]
    refine List.Perm.append_right _ ?_
    refine (List.perm_append_singleton ..).trans ?_
    rw [← List.cons_append]
    exact List.Perm.append_right _ (List.perm_cons_erase (horigin i ho)).symm

theorem accept_agreement (h : Agreement lib n s) {tag : Tag} {data : Bytes}
    {ch : Channel (HostPacket Tag) 1} {accepted : List Tag} {freed : List Ptr}
    (hsound : Sound lib n ⟨tag.kind, data, tag⟩)
    (horigin : ∀ i, tag.origin = some i → i ∈ s.controller)
    (hempty : s.readChannel.items = []) (hch : ch.items = [⟨tag.kind, data, tag⟩]) :
    Agreement lib n { s with
      readChannel := ch
      controller := remaining tag.origin s.controller
      accepted := accepted
      freed := freed } := by
  have hperm := accept_perm accepted freed horigin hempty hch
  refine h.of_parties rfl rfl rfl hperm.subperm h.answer ?_ h.fits h.flows
  intro p hp
  rw [inTransit, hch] at hp
  obtain hp | hp := List.mem_append.mp hp
  · exact h.sound p (List.mem_append_left _ hp)
  · rw [List.mem_singleton.mp hp]
    exact hsound

theorem step_agreement (hlib : lib.Documented) (h : Agreement lib n s) (hlong : LongEnough l s)
    (hstep : step lib n l s = some t) : Agreement lib n t := by
  cases step_effect hlib hstep with
  | call i cmd hpc => exact call_agreement h cmd hpc
  | lock i cmd hpc hfree => exact lock_agreement h hpc hfree
  | work l i pc freed hi => exact work_agreement h hi
  | «return» l i r freed hi => exact return_agreement h r hi
  | queue i ptr hi => exact queue_agreement h ptr hi
  | receive i ptr data tag hpc hsignal => exact receive_agreement h hpc hsignal
  | read len hreader => exact idle_agreement h (by rw [hreader]; rfl) rfl
  | readPoll len p hreader hitems => exact readPoll_agreement h hlong hreader hitems
  | readForward len p buf ch hreader hbody hsignal hch =>
    exact readForward_agreement hlib h hreader hbody hch
  | readSuspend len p buf hreader hbody hsignal =>
    exact absurd (h.signal_empty hreader ((h.forward_iff hlib hreader hbody).2.1.mp rfl)) hsignal
  | readReturn len p buf r hreader hbody => exact readReturn_agreement hlib h hreader hbody
  | readResume len p ch hreader => exact absurd hreader (h.flows len p)
  | readDrop len hreader => exact idle_agreement h (by rw [hreader]; rfl) rfl
  | readLose len p hreader => exact absurd hreader (h.flows len p)
  | accept l tag data ch freed hpc hrun hcomplete hdata horigin hresp hempty hch =>
    exact accept_agreement h ⟨rfl, hcomplete, hdata, hresp⟩ horigin hempty hch
  | discard l origin => exact discard_agreement h origin
  | event | gateRead | gateCmd | eventRun | handlerDone =>
    exact h.of_parties rfl rfl rfl (List.Subperm.refl _) h.answer h.sound h.fits h.flows

theorem run_agreement (hlib : lib.Documented) {ls : List (Label μ)}
    (hlong : Along (step lib n) LongEnough ls start) (h : run (step lib n) ls start = some s) :
    Agreement lib n s :=
  run_invariant_along (fun _ _ _ hs hl hstep => step_agreement hlib hs hl hstep)
    start_agreement hlong h

def responses (tags : List Tag) : List Tag := tags.filter (·.origin.isSome)

@[simp] theorem responses_append (a b : List Tag) :
    responses (a ++ b) = responses a ++ responses b := List.filter_append ..

/-- The accepted responses have been taken, in order, or they are on their way. -/
def Conserved (s : State) : Prop :=
  responses s.accepted = s.taken.map (·.2) ++ s.cmdSignal.items.map (·.2) ++
    responses ((inTransit s).map (·.tag))

theorem step_conserved (hlib : lib.Documented) (h : Agreement lib n s) (hc : Conserved s)
    (hstep : step lib n l s = some t) : Conserved t := by
  cases step_effect hlib hstep with
  | receive i ptr data tag hpc hsignal =>
    simpa [Conserved, hsignal, inTransit, State.setCall] using hc
  | readPoll len p hreader hitems =>
    simpa [Conserved, inTransit, hand, hreader, hitems] using hc
  | readForward len p buf ch hreader hbody hsignal hch =>
    have horigin := (h.forward_iff hlib hreader hbody).2.1.mp rfl
    simpa [Conserved, inTransit, hand, hreader, hsignal, hch, responses, horigin] using hc
  | readSuspend len p buf hreader hbody hsignal =>
    exact absurd (h.signal_empty hreader ((h.forward_iff hlib hreader hbody).2.1.mp rfl)) hsignal
  | readReturn len p buf r hreader hbody =>
    have horigin := h.done_origin hlib hreader hbody
    simpa [Conserved, inTransit, hand, hreader, responses, horigin] using hc
  | readResume len p ch hreader => exact absurd hreader (h.flows len p)
  | readLose len p hreader => exact absurd hreader (h.flows len p)
  | accept l tag data ch freed hpc hrun hcomplete hdata horigin hresp hempty hch =>
    simp only [Conserved, inTransit, hempty, List.append_nil] at hc
    simp only [Conserved, inTransit, hch, responses_append, hc, List.map_append, List.map_cons,
      List.map_nil, List.append_assoc]
  | read len hreader => simpa [Conserved, inTransit, hand, hreader] using hc
  | readDrop len hreader => simpa [Conserved, inTransit, hand, hreader] using hc
  | call | lock | work | «return» | queue | event | gateRead | gateCmd | eventRun | discard
  | handlerDone => exact hc

/-- The controller's answers are taken into `READ_CHANNEL`. -/
def Answered (lib : External μ) (l : Label μ) (s : State) : Prop :=
  ∀ i buf, l = .evt (some i) buf → s.readChannel.items = [] ∧ isNoOp lib buf.bytes = false

/-- Every call that waits has its command in the controller or its answer on
the way. -/
def Awaited (s : State) : Prop := ∀ i, (s.calls i).inFlight = true → i ∈ outstanding s

theorem Awaited.setCall {i : CallId} {pc : CallPc} {lock : Option CallId} {freed : List Ptr}
    (h : Awaited s) (hpc : pc.inFlight = false) :
    Awaited { s.setCall i pc with cmdLock := lock, freed := freed } := by
  intro j hj
  by_cases hji : j = i
  · subst hji
    simp [State.setCall, hpc] at hj
  · exact h j (by simpa [State.setCall, hji] using hj)

theorem Awaited.mono (h : Awaited s) (hcalls : t.calls = s.calls)
    (hout : outstanding s ⊆ outstanding t) : Awaited t := by
  intro i hi
  rw [hcalls] at hi
  exact hout (h i hi)

theorem step_awaited (hlib : lib.Documented) (h : Agreement lib n s) (ha : Awaited s)
    (hanswered : Answered lib l s) (hstep : step lib n l s = some t) : Awaited t := by
  cases step_effect hlib hstep with
  | call i cmd hpc => exact ha.setCall rfl
  | lock i cmd hpc hfree => exact ha.setCall rfl
  | work l i pc freed hi hpc => exact ha.setCall (CallPc.not_inFlight_of_working hpc)
  | «return» l i r freed hi => exact ha.setCall rfl
  | queue i ptr hi =>
    intro j hj
    by_cases hji : j = i
    · subst hji
      simp [outstanding]
    · have hj' : (s.calls j).inFlight = true := by simpa [State.setCall, hji] using hj
      exact absurd (h.holder_eq (.inr hj') (.inl hi)) hji
  | receive i ptr data tag hpc hsignal =>
    intro j hj
    by_cases hji : j = i
    · subst hji
      simp [State.setCall, CallPc.inFlight] at hj
    · have hj' : (s.calls j).inFlight = true := by simpa [State.setCall, hji] using hj
      exact absurd (h.holder_eq (.inr hj') (.inr (by rw [hpc]; rfl))) hji
  | readPoll len p hreader hitems =>
    refine ha.mono rfl ?_
    simp [outstanding, inTransit, hand, hreader, hitems]
  | readForward len p buf ch hreader hbody hsignal hch =>
    exact ha.mono rfl (forward_perm _ hreader hsignal hch).symm.subset
  | readSuspend len p buf hreader hbody hsignal =>
    exact absurd (h.signal_empty hreader ((h.forward_iff hlib hreader hbody).2.1.mp rfl)) hsignal
  | readReturn len p buf r hreader hbody =>
    have horigin := h.done_origin hlib hreader hbody
    refine ha.mono rfl ?_
    simp [outstanding, inTransit, hand, hreader, horigin]
  | readResume len p ch hreader => exact absurd hreader (h.flows len p)
  | readLose len p hreader => exact absurd hreader (h.flows len p)
  | read len hreader => exact ha.mono rfl (by simp [outstanding, inTransit, hand, hreader])
  | readDrop len hreader => exact ha.mono rfl (by simp [outstanding, inTransit, hand, hreader])
  | accept l tag data ch freed hpc hrun hcomplete hdata horigin hresp hempty hch =>
    exact ha.mono rfl (accept_perm _ _ horigin hempty hch).symm.subset
  | discard l origin hpc hrefused =>
    cases origin with
    | none => exact ha
    | some i =>
      obtain ⟨buf, rfl, hnoop⟩ := hrefused i rfl
      obtain ⟨hempty, hnot⟩ := hanswered i buf rfl
      rw [hnoop hempty] at hnot
      cases hnot
  | event | gateRead | gateCmd | eventRun | handlerDone => exact ha

theorem run_conserved (hlib : lib.Documented) {ls : List (Label μ)}
    (hlong : Along (step lib n) LongEnough ls start) (h : run (step lib n) ls start = some s) :
    Conserved s := by
  suffices hboth : Agreement lib n s ∧ Conserved s from hboth.2
  refine run_invariant_along (I := fun s => Agreement lib n s ∧ Conserved s) ?_
    ⟨start_agreement, rfl⟩ hlong h
  rintro l s t ⟨hs, hc⟩ hl hstep
  exact ⟨step_agreement hlib hs hl hstep, step_conserved hlib hs hc hstep⟩

theorem run_awaited (hlib : lib.Documented) {ls : List (Label μ)}
    (hlong : Along (step lib n) LongEnough ls start)
    (hanswered : Along (step lib n) (Answered lib) ls start)
    (h : run (step lib n) ls start = some s) : Awaited s := by
  suffices hboth : Agreement lib n s ∧ Awaited s from hboth.2
  refine run_invariant_along (I := fun s => Agreement lib n s ∧ Awaited s)
    (G := fun l s => LongEnough l s ∧ Answered lib l s) ?_ ⟨start_agreement, ?_⟩
    (hlong.and hanswered) h
  · rintro l s t ⟨hs, ha⟩ ⟨hl, hans⟩ hstep
    exact ⟨step_agreement hlib hs hl hstep, step_awaited hlib hs ha hans hstep⟩
  · simp [Awaited, start, CallPc.inFlight]

/-- Whatever a call has taken from `CMD_SIGNAL`, and whatever it finds there,
is the response to its own command. At most one call waits at a time,
`CMD_SIGNAL` is empty when the lock is free and when the reader sends into it,
and no accepted response is lost. If the controller's answers are all
accepted, no call waits in vain. -/
theorem response_is_own (hlib : lib.Documented) (ls : List (Label μ)) (s : State)
    (hlong : Along (step lib n) LongEnough ls start) (h : run (step lib n) ls start = some s) :
    (∀ x ∈ s.taken, x.2.origin = some x.1) ∧
    (∀ i, (s.calls i).inFlight = true → ∀ x ∈ s.cmdSignal.items,
      x.2.origin = some i ∧ copyToFront n x.2.packet = some x.1) ∧
    (∀ i j, (s.calls i).inFlight = true → (s.calls j).inFlight = true → i = j) ∧
    (outstanding s).length ≤ 1 ∧
    (s.cmdLock = none → s.cmdSignal.items = []) ∧
    (∀ len p buf, s.reader = .holding len p →
      Controller.readBody lib len p = some (buf, .forward) → s.cmdSignal.items = []) ∧
    (∀ len p, s.reader ≠ .suspended len p) ∧
    Conserved s ∧
    (Along (step lib n) (Answered lib) ls start → Awaited s) := by
  have hs := run_agreement hlib hlong h
  refine ⟨hs.taken, ?_, ?_, hs.single, ?_, ?_, hs.flows, run_conserved hlib hlong h, ?_⟩
  · intro i hi x hx
    exact ⟨hs.own_response hi hx, (hs.answer x hx).2⟩
  · intro i j hi hj
    exact hs.holder_eq (.inr hi) (.inr hj)
  · exact hs.signal_empty_of_free
  · intro len p buf hreader hbody
    exact hs.signal_empty hreader ((hs.forward_iff hlib hreader hbody).2.1.mp rfl)
  · intro hanswered
    exact run_awaited hlib hlong hanswered h

/-- A reset command is queued, answered, read and taken. -/
def resetTrace : List (Label Bytes) :=
  [.call 0 ⟨0x0C03, some [3, 12, 0]⟩, .lock 0, .alloc 0 (some 64), .serialize 0, .queue 0 0,
    .event, .gateRead, .gateCmd, .eventRun, .evt (some 0) resetComplete,
    .read 260, .readPoll, .readBody, .receive 0]

set_option maxRecDepth 20000 in
theorem response_is_own_reset : ∃ s, run (step plain 260) resetTrace start = some s ∧
    s.taken.map (·.1) = [0] ∧ ∀ x ∈ s.taken, x.2.origin = some x.1 := by
  have hlong : Along (step plain 260) LongEnough resetTrace start := by
    iterate 11 refine along_of_step trivial rfl ?_
    refine along_of_step ?_ rfl (along_of_step trivial rfl (along_of_step trivial rfl trivial))
    intro p hp
    cases List.mem_singleton.mp hp
    decide
  exact ⟨_, rfl, rfl, (response_is_own plain_documented resetTrace _ hlong rfl).1⟩

end CommandAgreement
