import ApacheNimble.CommandAgreement

/-!
# What the gate before an event run guarantees

The gate looks at each channel once. What it has seen of `READ_CHANNEL` stays
true, because only the task itself fills it. What it has seen of `CMD_SIGNAL`
does not, because the reader fills it from `READ_CHANNEL`.
-/
namespace Gate

open Hci Fifo Controller Transition Transport CommandAgreement

variable {μ : Type} {lib : External μ} {n : Nat} {s t : State} {l : Label μ}

/-- Both channels are empty when an event runs. -/
def Drained (l : Label μ) (s : State) : Prop :=
  match l with
  | .eventRun => s.task = .gate true true →
    s.readChannel.items = [] ∧ s.cmdSignal.items = []
  | _ => True

/-- No response is in `READ_CHANNEL` or in the reader's hand when the gate
sees `CMD_SIGNAL` ready. -/
def NoResponseBehind (l : Label μ) (s : State) : Prop :=
  match l with
  | .gateCmd => readyToSend s.cmdSignal = true → ∀ p ∈ inTransit s, p.tag.origin = none
  | _ => True

/-- What the gate remembers of `READ_CHANNEL` is still so. -/
def ReadHalf (s : State) : Prop := ∀ cmd, s.task = .gate true cmd → s.readChannel.items = []

/-- What the gate remembers of `CMD_SIGNAL` is still so, and stays so. -/
def CmdHalf (s : State) : Prop := ∀ read, s.task = .gate read true →
  s.cmdSignal.items = [] ∧ ∀ p ∈ inTransit s, p.tag.origin = none

theorem step_readHalf (hlib : lib.Documented) (h : ReadHalf s)
    (hstep : step lib n l s = some t) : ReadHalf t := by
  intro cmd' ht
  cases step_effect hlib hstep with
  | readPoll => rfl
  | gateRead read cmd hpc hitems => exact hitems
  | gateCmd read cmd hpc =>
    cases ht
    exact h cmd hpc
  | accept l tag data ch freed hpc | discard l origin hpc =>
    cases hpc.symm.trans ht
  | event | eventRun | handlerDone => cases ht
  | call | lock | work | «return» | queue | receive | read | readForward | readSuspend
  | readReturn | readResume | readDrop | readLose => exact h cmd' ht

theorem step_cmdHalf (hlib : lib.Documented) (ha : Agreement lib n s) (h : CmdHalf s)
    (hbehind : NoResponseBehind l s) (hstep : step lib n l s = some t) : CmdHalf t := by
  intro read' ht
  cases step_effect hlib hstep with
  | receive => exact ⟨rfl, (h read' ht).2⟩
  | read len hreader | readDrop len hreader =>
    obtain ⟨hsignal, htransit⟩ := h read' ht
    refine ⟨hsignal, fun p hp => htransit p ?_⟩
    simpa [inTransit, hand, hreader] using hp
  | readPoll len p hreader hitems =>
    obtain ⟨hsignal, htransit⟩ := h read' ht
    refine ⟨hsignal, fun q hq => htransit q ?_⟩
    simpa [inTransit, hand, hreader, hitems] using hq
  | readForward len p buf ch hreader hbody =>
    have hnone := (h read' ht).2 p (by simp [inTransit, hand, hreader])
    have hsome := (ha.forward_iff hlib hreader hbody).2.1.mp rfl
    rw [hnone] at hsome
    cases hsome
  | readSuspend len p buf hreader hbody hsignal => exact absurd (h read' ht).1 hsignal
  | readReturn len p buf r hreader hbody =>
    obtain ⟨hsignal, htransit⟩ := h read' ht
    exact ⟨hsignal, fun q hq => htransit q (List.mem_append_right _ hq)⟩
  | readResume len p ch hreader => exact absurd hreader (ha.flows len p)
  | readLose len p hreader => exact absurd hreader (ha.flows len p)
  | gateRead read cmd hpc hitems =>
    cases ht
    exact h read hpc
  | gateCmd read cmd hpc hitems => exact ⟨hitems, hbehind ((readyToSend_iff _).mpr hitems)⟩
  | accept l tag data ch freed hpc | discard l origin hpc => cases hpc.symm.trans ht
  | event | eventRun | handlerDone => cases ht
  | call | lock | work | «return» | queue => exact h read' ht

/-- The reader passes on what it holds: a response into `CMD_SIGNAL`. -/
theorem readBody_passes (hlib : lib.Documented) (ha : Agreement lib n s) {len : Nat}
    {p : HostPacket Tag} (hreader : s.reader = .holding len p) (hlen : len ≤ n) :
    ∃ t, step lib n .readBody s = some t ∧ hand t.reader = [] ∧ t.readChannel = s.readChannel ∧
      t.task = s.task ∧ t.cmdSignal.items =
        if p.tag.origin.isSome then [(p.data, p.tag)] else s.cmdSignal.items := by
  have hsound := ha.sound p (by simp [inTransit, hand, hreader])
  have hdata : p.data.length = n := copyToFront_length hsound.data
  obtain ⟨b, hbody⟩ : ∃ b, Controller.readBody lib len p = some (p.data.take len, b) :=
    ⟨_, if_pos (by omega)⟩
  have hiff := (ha.forward_iff hlib hreader hbody).2.1
  cases b with
  | forward =>
    have horigin := hiff.mp rfl
    have hempty := ha.signal_empty hreader horigin
    obtain ⟨ch, hsend, hch⟩ := s.cmdSignal.trySend_of_lt (p.data, p.tag) (by simp [hempty])
    have hstep : step lib n .readBody s = some { s with
        reader := .receiving len
        cmdSignal := ch
        left := s.left ++ [(p.tag, .signal p.data)] } := by
      simp only [step, readStep, hreader, hbody, hsend]
    refine ⟨_, hstep, rfl, rfl, rfl, ?_⟩
    rw [if_pos horigin, hch, hempty]
    rfl
  | done r =>
    have horigin : p.tag.origin = none := ha.done_origin hlib hreader hbody
    have hstep : step lib n .readBody s = some { s with
        reader := .idle
        left := s.left ++ [(p.tag, .result (p.data.take len) r)] } := by
      simp only [step, readStep, hreader, hbody]
    exact ⟨_, hstep, rfl, rfl, rfl, by simp [horigin]⟩

/-- A reader with empty hands can take the packet in `READ_CHANNEL`. -/
theorem reader_takes (ha : Agreement lib n s) {p : HostPacket Tag}
    (hhand : hand s.reader = []) (hitems : s.readChannel.items = [p]) :
    Leads (step lib n) LongEnough s
      { s with reader := .holding n p, readChannel := Channel.empty } := by
  have hle : p.tag.packet.length ≤ n :=
    (copyToFront_eq_some.mp (ha.sound p (by simp [inTransit, hitems])).data).1
  have hread : Leads (step lib n) LongEnough s { s with reader := .receiving n } := by
    cases hr : s.reader with
    | idle => exact .step (l := .read n) (by trivial) (by simp only [step, readStep, hr])
    | receiving len =>
      have hdrop : Leads (step lib n) LongEnough s { s with reader := .idle } :=
        .step (l := .readDrop) (by trivial) (by simp only [step, readStep, hr])
      exact hdrop.trans (.step (l := .read n) (by trivial) rfl)
    | holding len q | suspended len q =>
      rw [hr] at hhand
      cases hhand
  refine hread.trans (.step (l := .readPoll) ?_ ?_)
  · intro q hq
    rw [hitems, List.mem_singleton] at hq
    rw [hq]
    exact hle
  · simp only [step, readStep, Channel.tryReceive_one.mpr ⟨hitems, rfl⟩]

/-- A reader with empty hands can empty `READ_CHANNEL`, and leaves a response
in `CMD_SIGNAL`. -/
theorem reader_drains (hlib : lib.Documented) (ha : Agreement lib n s)
    (hhand : hand s.reader = [])
    (hfull : s.cmdSignal.items ≠ [] ∨ ∃ p ∈ s.readChannel.items, p.tag.origin.isSome = true) :
    ∃ t, Leads (step lib n) LongEnough s t ∧ t.task = s.task ∧ t.readChannel.items = [] ∧
      t.cmdSignal.items ≠ [] := by
  cases hitems : s.readChannel.items with
  | nil => exact ⟨s, .refl .., rfl, hitems, by simpa [hitems] using hfull⟩
  | cons p rest =>
    have hone := s.readChannel.items_one (a := p) (by simp [hitems])
    have htakes := reader_takes ha hhand hone
    have hheld := htakes.invariant (fun _ _ _ hs hl hstep => step_agreement hlib hs hl hstep) ha
    obtain ⟨t, hstep, -, hchannel, htask, hsignal⟩ :=
      readBody_passes hlib hheld rfl (Nat.le_refl n)
    refine ⟨t, htakes.trans (.step (by trivial) hstep), htask, by rw [hchannel]; rfl, ?_⟩
    rw [hsignal]
    split
    · exact List.cons_ne_nil _ _
    · rename_i hnone
      simpa [hone, hnone] using hfull

/-- A response in transit can reach `CMD_SIGNAL` before the task moves. -/
theorem response_arrives (hlib : lib.Documented) (ha : Agreement lib n s)
    (hlen : ∀ len q, s.reader = .holding len q → len ≤ n) {p : HostPacket Tag}
    (hp : p ∈ inTransit s) (horigin : p.tag.origin.isSome = true) :
    ∃ t, Leads (step lib n) LongEnough s t ∧ t.task = s.task ∧ t.readChannel.items = [] ∧
      t.cmdSignal.items ≠ [] := by
  cases hr : s.reader with
  | suspended len q => exact absurd hr (ha.flows len q)
  | idle | receiving len =>
    have hhand : hand s.reader = [] := by rw [hr]; rfl
    rw [inTransit, hhand] at hp
    exact reader_drains hlib ha hhand (.inr ⟨p, hp, horigin⟩)
  | holding len q =>
    obtain ⟨u, hstep, hhand, hchannel, htask, hsignal⟩ :=
      readBody_passes hlib ha hr (hlen len q hr)
    have hu := step_agreement hlib ha (by trivial) hstep
    have hfull :
        u.cmdSignal.items ≠ [] ∨ ∃ p ∈ u.readChannel.items, p.tag.origin.isSome = true := by
      obtain hq | hmem := List.mem_append.mp hp
      · rw [hr] at hq
        rw [hsignal, ← List.mem_singleton.mp hq, if_pos horigin]
        exact .inl (List.cons_ne_nil _ _)
      · exact .inr ⟨p, by rwa [hchannel], horigin⟩
    obtain ⟨t, hleads, htask', hdone⟩ := reader_drains hlib hu hhand hfull
    exact ⟨t, .trans (.step (by trivial) hstep) hleads, htask'.trans htask, hdone⟩

/-- A response comes through both channels while the next event waits at the
gate, and is taken before the gate sees `CMD_SIGNAL` ready. -/
def takenTrace : List (Label Bytes) :=
  [.call 0 ⟨0x0C03, some [3, 12, 0]⟩, .lock 0, .alloc 0 (some 64), .serialize 0, .queue 0 0,
    .event, .gateRead, .gateCmd, .eventRun, .evt (some 0) resetComplete,
    .handlerDone, .event, .read 260, .readPoll, .readBody, .gateRead, .receive 0, .gateCmd,
    .eventRun]

theorem gateCmd_eq_some (h : step lib n .gateCmd s = some t) :
    ∃ read, t = { s with task := .gate read true } := by
  cases hpc : s.task with
  | gate read cmd =>
    simp only [step, taskStep, hpc] at h
    obtain ⟨-, he⟩ := Option.ite_none_right_eq_some.mp h
    cases he
    exact ⟨read, rfl⟩
  | getting | running =>
    simp only [step, taskStep, hpc] at h
    cases h

/-- The condition is exact: after a look that does not meet it, the next event
can run while `CMD_SIGNAL` holds a response. -/
theorem overrun_of_responseBehind (hlib : lib.Documented) {ls : List (Label μ)}
    (hlong : Along (step lib n) LongEnough ls start) (h : run (step lib n) ls start = some s)
    (hlen : ∀ len q, s.reader = .holding len q → len ≤ n)
    (hbehind : ¬ NoResponseBehind (.gateCmd : Label μ) s) (hstep : step lib n .gateCmd s = some t) :
    ∃ u, Leads (step lib n) LongEnough t u ∧ (step lib n .eventRun u).isSome = true ∧
      ¬ Drained (.eventRun : Label μ) u := by
  have hs := run_agreement hlib hlong h
  have ht := step_agreement hlib hs (by trivial) hstep
  simp only [NoResponseBehind, not_forall, ← ne_eq, Option.ne_none_iff_isSome] at hbehind
  obtain ⟨-, p, hp, horigin⟩ := hbehind
  obtain ⟨read, rfl⟩ := gateCmd_eq_some hstep
  obtain ⟨u, hleads, htask, hempty, hfull⟩ := response_arrives hlib ht hlen hp horigin
  have hgate : step lib n .gateRead u = some { u with task := .gate true true } := by
    simp only [step, taskStep, htask, (readyToSend_iff _).mpr hempty, if_true]
  refine ⟨_, hleads.trans (.step (by trivial) hgate), rfl, fun hdrained => ?_⟩
  exact hfull (hdrained rfl).2

/-- The response is in `READ_CHANNEL` when the gate sees `CMD_SIGNAL` ready,
and in `CMD_SIGNAL` when it sees `READ_CHANNEL` ready. -/
def overrunTrace : List (Label Bytes) :=
  [.call 0 ⟨0x0C03, some [3, 12, 0]⟩, .lock 0, .alloc 0 (some 64), .serialize 0, .queue 0 0,
    .event, .gateRead, .gateCmd, .eventRun, .evt (some 0) resetComplete,
    .handlerDone, .event, .gateCmd, .read 260, .readPoll, .readBody, .gateRead]

end Gate
