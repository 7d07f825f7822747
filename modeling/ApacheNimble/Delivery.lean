import ApacheNimble.Gate

/-!
# Packets reach the host exactly once and in order

`READ_CHANNEL` is empty whenever an event runs, so a packet is refused only
behind another one of the same event run. What is accepted goes through the
reader's hand to one of its two destinations.
-/
namespace Delivery

open Hci Fifo Controller Transition Transport CommandAgreement Gate

variable {μ : Type} {lib : External μ} {n : Nat} {s t : State} {l : Label μ}

/-- Everything accepted has left, in order, or is still on its way. -/
def Ordered (s : State) : Prop :=
  s.accepted = s.left.map (·.1) ++ (inTransit s).map (·.tag)

/-- A packet that answers no call is the result of `read`, and an error if it
does not parse. A response is sent into `CMD_SIGNAL`. -/
def Delivered (lib : External μ) (n : Nat) (x : Tag × Departure) : Prop :=
  match x.2 with
  | .result buf r => x.1.origin = none ∧ (∃ tail, buf = x.1.packet ++ tail) ∧
      r = match lib.fromHciBytesWithKind x.1.kind x.1.packet with
        | some v => .ok v
        | none => .error .invalid
  | .signal data => x.1.origin.isSome = true ∧ copyToFront n x.1.packet = some data
  | .dropped => False

structure Orderly (lib : External μ) (n : Nat) (s : State) : Prop where
  agreement : Agreement lib n s
  readHalf : ReadHalf s
  sameRun : s.task = .running → ∀ p ∈ s.readChannel.items, p.tag.run = s.runs
  ordered : Ordered s
  delivered : ∀ x ∈ s.left, Delivered lib n x

theorem start_orderly : Orderly lib n start where
  agreement := start_agreement
  readHalf := nofun
  sameRun := nofun
  ordered := rfl
  delivered := nofun

theorem step_sameRun (hlib : lib.Documented) (hread : ReadHalf s)
    (h : s.task = .running → ∀ p ∈ s.readChannel.items, p.tag.run = s.runs)
    (hstep : step lib n l s = some t) (ht : t.task = .running) :
    ∀ p ∈ t.readChannel.items, p.tag.run = t.runs := by
  cases step_effect hlib hstep with
  | readPoll => nofun
  | eventRun hpc =>
    intro p hp
    rw [show s.readChannel.items = [] from hread true hpc] at hp
    cases hp
  | accept l tag data ch freed hpc hrun hcomplete hdata horigin hresp hempty hch =>
    intro p hp
    rw [hch] at hp
    rw [List.mem_singleton.mp hp]
    exact hrun
  | discard l origin hpc => exact h hpc
  | event | gateRead | gateCmd | handlerDone => cases ht
  | call | lock | work | «return» | queue | receive | read | readForward | readSuspend
  | readReturn | readResume | readDrop | readLose => exact h ht

theorem step_ordered (hlib : lib.Documented) (ha : Agreement lib n s) (h : Ordered s)
    (hstep : step lib n l s = some t) : Ordered t := by
  unfold Ordered at h
  cases step_effect hlib hstep with
  | read len hreader | readDrop len hreader =>
    simpa [Ordered, inTransit, hand, hreader] using h
  | readPoll len p hreader hitems =>
    simpa [Ordered, inTransit, hand, hreader, hitems] using h
  | readForward len p buf ch hreader | readReturn len p buf r hreader =>
    simpa [Ordered, inTransit, hand, hreader] using h
  | readSuspend len p buf hreader => simpa [Ordered, inTransit, hand, hreader] using h
  | readResume len p ch hreader => exact absurd hreader (ha.flows len p)
  | readLose len p hreader => exact absurd hreader (ha.flows len p)
  | accept l tag data ch freed hpc hrun hcomplete hdata horigin hresp hempty hch =>
    simp only [Ordered, inTransit, hch, h, hempty, List.map_append, List.map_cons, List.map_nil,
      List.append_nil, List.append_assoc]
  | call | lock | work | «return» | queue | receive | event | gateRead | gateCmd | eventRun
  | discard | handlerDone => exact h

theorem step_delivered (hlib : lib.Documented) (ha : Agreement lib n s)
    (h : ∀ x ∈ s.left, Delivered lib n x) (hstep : step lib n l s = some t) :
    ∀ x ∈ t.left, Delivered lib n x := by
  cases step_effect hlib hstep with
  | readForward len p buf ch hreader hbody =>
    refine List.forall_mem_append.mpr ⟨h, List.forall_mem_singleton.mpr ?_⟩
    exact ⟨(ha.forward_iff hlib hreader hbody).2.1.mp rfl,
      (ha.sound p (by simp [inTransit, hand, hreader])).data⟩
  | readReturn len p buf r hreader hbody =>
    refine List.forall_mem_append.mpr ⟨h, List.forall_mem_singleton.mpr ?_⟩
    obtain ⟨hroute, -, htail⟩ := ha.forward_iff hlib hreader hbody
    refine ⟨ha.done_origin hlib hreader hbody, htail, ?_⟩
    simp only
    cases hp : lib.fromHciBytesWithKind p.tag.kind p.tag.packet with
    | none =>
      rw [hp] at hroute
      exact (ReadBody.done.inj hroute)
    | some v =>
      rw [hp, route] at hroute
      split at hroute
      · cases hroute
      · exact (ReadBody.done.inj hroute)
  | readLose len p hreader => exact absurd hreader (ha.flows len p)
  | readResume len p ch hreader => exact absurd hreader (ha.flows len p)
  | call | lock | work | «return» | queue | receive | read | readPoll | readSuspend | readDrop
  | event | gateRead | gateCmd | eventRun | accept | discard | handlerDone => exact h

theorem step_orderly (hlib : lib.Documented) (h : Orderly lib n s) (hlong : LongEnough l s)
    (hstep : step lib n l s = some t) : Orderly lib n t where
  agreement := step_agreement hlib h.agreement hlong hstep
  readHalf := step_readHalf hlib h.readHalf hstep
  sameRun := step_sameRun hlib h.readHalf h.sameRun hstep
  ordered := step_ordered hlib h.agreement h.ordered hstep
  delivered := step_delivered hlib h.agreement h.delivered hstep

/-- An event is refused only when the channel is full. -/
theorem evt_refused {tag : Tag} {buf : BleHciEv} {c d : Channel (HostPacket Tag) 1}
    {ret : Except OsError Unit}
    (h : bleTransportToHsEvtImpl lib n tag buf c = some (d, ret)) (hret : ret ≠ .ok ()) :
    c.items ≠ [] := by
  obtain ⟨data, -, ⟨-, -, rfl⟩ | ⟨-, -, -, rfl⟩ | ⟨-, hfull, -⟩⟩ := evtImpl_cases h
  · exact absurd rfl hret
  · exact absurd rfl hret
  · exact hfull

/-- A data packet that parses is refused only when the channel is full. -/
theorem acl_refused {tag : Tag} {om : μ} {bytes : Bytes} {c d : Channel (HostPacket Tag) 1}
    {ret : Except OsError Unit} {freed : Bool}
    (h : bleTransportToHsAclImpl lib n tag om c = some (d, ret, freed))
    (hparse : parseAcl lib n om = some (some bytes)) (hret : ret ≠ .ok ()) : c.items ≠ [] := by
  obtain ⟨hnone, -⟩ | ⟨-, -, -, -, ⟨-, -, rfl, -⟩ | ⟨hfull, -⟩⟩ := aclImpl_cases h
  · rw [hparse] at hnone
    cases hnone
  · exact absurd rfl hret
  · exact hfull

/-- What a full channel holds during an event run was handed up in this run. -/
theorem Orderly.same_run_of_full (h : Orderly lib n s) (hrun : s.task = .running)
    (hfull : s.readChannel.items ≠ []) : ∃ p ∈ s.readChannel.items, p.tag.run = s.runs := by
  obtain ⟨p, rest, hitems⟩ := List.exists_cons_of_ne_nil hfull
  have hp : p ∈ s.readChannel.items := by rw [hitems]; exact List.mem_cons_self
  exact ⟨p, hp, h.sameRun hrun p hp⟩

/-- An event, a response and another event. The last one has not been received
yet, and a fourth packet of the same event run is refused. -/
def mixedTrace : List (Label Bytes) :=
  [.call 0 ⟨0x0C03, some [3, 12, 0]⟩, .lock 0, .alloc 0 (some 64), .serialize 0, .queue 0 0,
    .event, .gateRead, .gateCmd, .eventRun, .evt none leMeta, .read 260, .readPoll, .readBody,
    .evt (some 0) resetComplete, .read 260, .readPoll, .readBody, .evt none leMeta]

end Delivery
