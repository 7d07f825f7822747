import ApacheNimble.CommandAgreement

/-!
# What keeps the transport from panicking

Serialising a command, parsing a response, copying a packet and cutting an
array panic where something does not fit. No bound on the array is needed for
responses, because the array they are parsed from holds the whole event.
-/
namespace PanicFreedom

open Hci Fifo Controller Transition Transport CommandAgreement

variable {μ : Type} {lib : External μ} {n : Nat} {s t : State} {l : Label μ}

/-- The header of an event is its first two bytes. -/
def ReadsHeader (lib : External μ) : Prop :=
  ∀ code length rest, lib.eventPacketHeader (code :: length :: rest) = some ⟨code, length⟩

/-- The positions that are patched are inside the command. -/
def Patchable (cmd : Cmd) : Prop :=
  ∀ bytes, cmd.writeHci = some bytes → (transform cmd bytes).isSome

/-- Commands can be patched, the reader's buffers are no longer than the array,
and neither an event nor a data packet says that it is. -/
def Fits (lib : External μ) (n : Nat) (l : Label μ) (_ : State) : Prop :=
  match l with
  | .call _ cmd => Patchable cmd
  | .read len => len ≤ n
  | .evt _ buf => buf.bytes.length ≤ n
  | .acl _ om => ∀ header hdr om', aclPacketHeaderReadHci lib om = some (header, hdr, om') →
    4 + hdr.dataLen.toNat ≤ n
  | _ => True

/-- A party is about to execute a statement that can panic. -/
def AtStatement (lib : External μ) (l : Label μ) (s : State) : Prop :=
  match l with
  | .serialize i => ∃ cmd ptr, s.calls i = .allocated cmd ptr
  | .parse i => ∃ buf, s.calls i = .freed buf
  | .readBody => ∃ len p, s.reader = .holding len p
  | .evt origin buf => s.task = .running ∧ Permitted lib origin buf s = true
  | .acl _ _ => s.task = .running
  | _ => False

def cmdOf : CallPc → Option Cmd
  | .locking cmd | .locked cmd | .allocated cmd _ => some cmd
  | _ => none

def dataOf : CallPc → Option Bytes
  | .answered _ data | .freed data => some data
  | _ => none

def lenOf : ReaderPc → Option Nat
  | .receiving len | .holding len _ | .suspended len _ => some len
  | .idle => none

/-- The array has an event at its front. -/
def EventArray (n : Nat) (data : Bytes) : Prop :=
  ∃ buf : BleHciEv, copyToFront n buf.bytes = some data

structure Sized (n : Nat) (p : HostPacket Tag) : Prop where
  length : p.data.length = n
  event : p.kind = .event → EventArray n p.data

structure Safe (n : Nat) (s : State) : Prop where
  cmds : ∀ i cmd, cmdOf (s.calls i) = some cmd → Patchable cmd
  answers : ∀ i data, dataOf (s.calls i) = some data → EventArray n data
  signal : ∀ x ∈ s.cmdSignal.items, EventArray n x.1
  transit : ∀ p ∈ inTransit s, Sized n p
  lens : ∀ len, lenOf s.reader = some len → len ≤ n
  held : ∀ len p, s.reader = .suspended len p → EventArray n p.data

theorem start_safe : Safe n start where
  cmds := nofun
  answers := nofun
  signal := nofun
  transit := nofun
  lens := nofun
  held := nofun

/-- A step that moves one call. -/
theorem Safe.setCall (h : Safe n s) {i : CallId} {pc : CallPc} {lock : Option CallId}
    {controller : List CallId} {taken : List (CallId × Tag)} {freed : List Ptr}
    (hcmd : ∀ cmd, cmdOf pc = some cmd → Patchable cmd)
    (hdata : ∀ data, dataOf pc = some data → EventArray n data) :
    Safe n { s.setCall i pc with
      cmdLock := lock, controller := controller, taken := taken, freed := freed } where
  cmds j cmd hj := by
    by_cases hji : j = i
    · subst hji
      exact hcmd cmd (by simpa [State.setCall] using hj)
    · exact h.cmds j cmd (by simpa [State.setCall, hji] using hj)
  answers j data hj := by
    by_cases hji : j = i
    · subst hji
      exact hdata data (by simpa [State.setCall] using hj)
    · exact h.answers j data (by simpa [State.setCall, hji] using hj)
  signal := h.signal
  transit := h.transit
  lens := h.lens
  held := h.held

theorem callStep_safe (h : Safe n s) (hfits : Fits lib n l s)
    (hstep : callStep lib l s = some t) : Safe n t := by
  cases l <;> simp only [callStep, reduceCtorEq] at hstep
  case call i cmd =>
    split at hstep
    · cases hstep
      refine h.setCall ?_ (by rintro _ ⟨⟩)
      rintro _ ⟨⟩
      exact hfits
    · cases hstep
  case lock i =>
    split at hstep
    · rename_i cmd hpc hlock
      cases hstep
      refine h.setCall ?_ (by rintro _ ⟨⟩)
      rintro _ ⟨⟩
      exact h.cmds i cmd (by rw [hpc]; rfl)
    · cases hstep
  case alloc i ptr =>
    split at hstep
    · cases hstep
      exact h.setCall (by rintro _ ⟨⟩) (by rintro _ ⟨⟩)
    · rename_i cmd _ hpc
      cases hstep
      refine h.setCall ?_ (by rintro _ ⟨⟩)
      rintro _ ⟨⟩
      exact h.cmds i cmd (by rw [hpc]; rfl)
    · cases hstep
  case serialize i =>
    split at hstep
    · split at hstep
      · cases hstep
        exact h.setCall (by rintro _ ⟨⟩) (by rintro _ ⟨⟩)
      · obtain ⟨cmdData, -, rfl⟩ := Option.map_eq_some_iff.mp hstep
        exact h.setCall (by rintro _ ⟨⟩) (by rintro _ ⟨⟩)
    · cases hstep
  case queue i ret =>
    split at hstep
    · split at hstep
      · cases hstep
        exact h.setCall (by rintro _ ⟨⟩) (by rintro _ ⟨⟩)
      · cases hstep
        exact h.setCall (by rintro _ ⟨⟩) (by rintro _ ⟨⟩)
    · cases hstep
  case receive i =>
    split at hstep
    · rename_i ptr data tag ch hpc hrecv
      cases hstep
      obtain ⟨hitems, rfl⟩ := Channel.tryReceive_one.mp hrecv
      have hevent : EventArray n data := h.signal (data, tag) (by rw [hitems]; simp)
      have hempty : Safe n { s with cmdSignal := Channel.empty } :=
        ⟨h.cmds, h.answers, by simp, h.transit, h.lens, h.held⟩
      refine hempty.setCall (by rintro _ ⟨⟩) ?_
      rintro _ ⟨⟩
      exact hevent
    · cases hstep
  case free i =>
    split at hstep
    · rename_i ptr data hpc
      cases hstep
      refine h.setCall (by rintro _ ⟨⟩) ?_
      rintro _ ⟨⟩
      exact h.answers i data (by rw [hpc]; rfl)
    · cases hstep
  case parse i =>
    split at hstep
    · obtain ⟨r, -, rfl⟩ := Option.map_eq_some_iff.mp hstep
      exact h.setCall (by rintro _ ⟨⟩) (by rintro _ ⟨⟩)
    · cases hstep

/-- A step of the reader, which moves no call. -/
theorem Safe.setReader (h : Safe n s) {r : ReaderPc} {ch : Channel (HostPacket Tag) 1}
    {signal : Channel (Bytes × Tag) 1} {left : List (Tag × Departure)}
    (hsignal : ∀ x ∈ signal.items, EventArray n x.1)
    (htransit : hand r ++ ch.items ⊆ inTransit s) (hlens : ∀ len, lenOf r = some len → len ≤ n)
    (hheld : ∀ len p, r = .suspended len p → EventArray n p.data) :
    Safe n { s with reader := r, readChannel := ch, cmdSignal := signal, left := left } where
  cmds := h.cmds
  answers := h.answers
  signal := hsignal
  transit p hp := h.transit p (htransit hp)
  lens := hlens
  held := hheld

/-- Only events are forwarded. -/
theorem forward_event {len : Nat} {p : HostPacket Tag} {buf : Bytes}
    (h : Controller.readBody lib len p = some (buf, .forward)) : p.kind = .event := by
  obtain ⟨-, he⟩ := Option.ite_none_right_eq_some.mp h
  obtain ⟨-, hroute⟩ := Prod.mk.inj (Option.some.inj he)
  obtain ⟨v, hv, hresponse⟩ := route_forward_iff.mp hroute
  cases hkind : p.kind with
  | event => rfl
  | aclData =>
    rw [hkind] at hv
    rw [lib.aclData_isResponse hv] at hresponse
    cases hresponse

theorem signal_one {ch : Channel (Bytes × Tag) 1} {p : HostPacket Tag} (hp : EventArray n p.data)
    (hch : ch.items = [(p.data, p.tag)]) : ∀ x ∈ ch.items, EventArray n x.1 := by
  intro x hx
  rw [hch, List.mem_singleton] at hx
  rw [hx]
  exact hp

theorem readStep_safe (h : Safe n s) (hfits : Fits lib n l s)
    (hstep : readStep lib l s = some t) : Safe n t := by
  cases l <;> simp only [readStep, reduceCtorEq] at hstep
  case read len =>
    split at hstep
    · cases hstep
      refine h.setReader h.signal (List.subset_append_right _ _) ?_ (by rintro _ _ ⟨⟩)
      rintro _ ⟨⟩
      exact hfits
    · cases hstep
  case readPoll =>
    split at hstep
    · rename_i len p ch hreader hrecv
      cases hstep
      obtain ⟨hitems, rfl⟩ := Channel.tryReceive_one.mp hrecv
      refine h.setReader h.signal ?_ ?_ (by rintro _ _ ⟨⟩)
      · simp [inTransit, hand, hitems]
      · rintro _ ⟨⟩
        exact h.lens len (by rw [hreader]; rfl)
    · cases hstep
  case readBody =>
    split at hstep
    · rename_i len p hreader
      have hlen : len ≤ n := h.lens len (by rw [hreader]; rfl)
      have hp : Sized n p := h.transit p (by simp [inTransit, hand, hreader])
      split at hstep
      · rename_i buf hbody
        split at hstep
        · rename_i ch hsend
          cases hstep
          refine h.setReader ?_ (List.subset_append_right _ _) ?_ (by rintro _ _ ⟨⟩)
          · exact signal_one (hp.event (forward_event hbody)) (Channel.trySend_one.mp hsend).2
          · rintro _ ⟨⟩
            exact hlen
        · cases hstep
          refine h.setReader h.signal ?_ ?_ ?_
          · simp [inTransit, hand, hreader]
          · rintro _ ⟨⟩
            exact hlen
          · rintro _ _ ⟨⟩
            exact hp.event (forward_event hbody)
      · cases hstep
        exact h.setReader h.signal (List.subset_append_right _ _) (by rintro _ ⟨⟩)
          (by rintro _ _ ⟨⟩)
      · cases hstep
    · cases hstep
  case readResume =>
    split at hstep
    · rename_i len p hreader
      obtain ⟨ch, hsend, rfl⟩ := Option.map_eq_some_iff.mp hstep
      refine h.setReader ?_ (List.subset_append_right _ _) ?_ (by rintro _ _ ⟨⟩)
      · exact signal_one (h.held len p hreader) (Channel.trySend_one.mp hsend).2
      · rintro _ ⟨⟩
        exact h.lens len (by rw [hreader]; rfl)
    · cases hstep
  case readDrop =>
    split at hstep
    · cases hstep
      exact h.setReader h.signal (List.subset_append_right _ _) (by rintro _ ⟨⟩) (by rintro _ _ ⟨⟩)
    · cases hstep
      exact h.setReader h.signal (List.subset_append_right _ _) (by rintro _ ⟨⟩) (by rintro _ _ ⟨⟩)
    · cases hstep

/-- A step of the task, which fills `READ_CHANNEL` at most. -/
theorem Safe.setTask (h : Safe n s) {ch : Channel (HostPacket Tag) 1} {task : TaskPc}
    {runs : Nat} {controller : List CallId} {accepted : List Tag} {freed : List Ptr}
    (hch : ∀ p ∈ ch.items, p ∈ s.readChannel.items ∨ Sized n p) : Safe n { s with
      readChannel := ch, task := task, runs := runs, controller := controller
      accepted := accepted, freed := freed } where
  cmds := h.cmds
  answers := h.answers
  signal := h.signal
  transit p hp := by
    obtain hp | hp := List.mem_append.mp hp
    · exact h.transit p (List.mem_append_left _ hp)
    · obtain hold | hnew := hch p hp
      · exact h.transit p (List.mem_append_right _ hold)
      · exact hnew
  lens := h.lens
  held := h.held

theorem taskStep_safe (h : Safe n s) (hstep : taskStep lib n l s = some t) : Safe n t := by
  cases l <;> simp only [taskStep, reduceCtorEq] at hstep
  case event | eventRun | handlerDone =>
    obtain ⟨-, ht⟩ := Option.ite_none_right_eq_some.mp hstep
    cases ht
    exact h.setTask (fun _ hp => .inl hp)
  case gateRead | gateCmd =>
    split at hstep
    · obtain ⟨-, ht⟩ := Option.ite_none_right_eq_some.mp hstep
      cases ht
      exact h.setTask (fun _ hp => .inl hp)
    · cases hstep
  case evt origin buf =>
    obtain ⟨-, hstep⟩ := Option.ite_none_right_eq_some.mp hstep
    obtain ⟨⟨ch, ret⟩, himpl, rfl⟩ := Option.map_eq_some_iff.mp hstep
    refine h.setTask (fun p hp => ?_)
    obtain ⟨data, hdata, ⟨-, rfl, -⟩ | ⟨-, -, hch, -⟩ | ⟨-, -, rfl, -⟩⟩ := evtImpl_cases himpl
    · exact .inl hp
    · rw [hch, List.mem_singleton] at hp
      rw [hp]
      exact .inr ⟨copyToFront_length hdata, fun _ => ⟨buf, hdata⟩⟩
    · exact .inl hp
  case acl ptr om =>
    obtain ⟨-, hstep⟩ := Option.ite_none_right_eq_some.mp hstep
    obtain ⟨⟨ch, ret, freed⟩, himpl, rfl⟩ := Option.map_eq_some_iff.mp hstep
    refine h.setTask (fun p hp => ?_)
    obtain ⟨-, rfl, -⟩ | ⟨bytes, data, -, hdata, hcases⟩ := aclImpl_cases himpl
    · exact .inl hp
    · obtain ⟨-, hch, -⟩ | ⟨-, rfl, -⟩ := hcases
      · rw [hch, List.mem_singleton] at hp
        rw [hp]
        exact .inr ⟨copyToFront_length hdata, by rintro ⟨⟩⟩
      · exact .inl hp

theorem step_safe (h : Safe n s) (hfits : Fits lib n l s) (hstep : step lib n l s = some t) :
    Safe n t := by
  unfold step at hstep
  split at hstep
  all_goals first
    | exact callStep_safe h hfits hstep
    | exact readStep_safe h hfits hstep
    | exact taskStep_safe h hstep

theorem run_safe {ls : List (Label μ)} (hfits : Along (step lib n) (Fits lib n) ls start)
    (h : run (step lib n) ls start = some s) : Safe n s :=
  run_invariant_along (fun _ _ _ hs hf hstep => step_safe hs hf hstep) start_safe hfits h

/-- The header of an array with an event in it says no more than there is. -/
theorem parseResponse_isSome (hheader : ReadsHeader lib) {data : Bytes}
    (h : EventArray n data) : (parseResponse lib data).isSome := by
  obtain ⟨buf, hdata⟩ := h
  obtain ⟨-, rfl⟩ := copyToFront_eq_some.mp hdata
  have hlen : 2 + buf.length.toNat ≤ (buf.bytes ++ List.replicate (n - buf.bytes.length) 0).length
      := by
    rw [List.length_append]
    simp only [BleHciEv.bytes, List.length_cons, buf.sized]
    omega
  rw [parseResponse, show lib.eventPacketHeader
    (buf.bytes ++ List.replicate (n - buf.bytes.length) 0) = some ⟨buf.opcode, buf.length⟩
    from hheader ..]
  simp only [if_pos hlen]
  split <;> rfl

theorem evtImpl_isSome {tag : Tag} {buf : BleHciEv} {ch : Channel (HostPacket Tag) 1}
    (h : buf.bytes.length ≤ n) : (bleTransportToHsEvtImpl lib n tag buf ch).isSome := by
  obtain ⟨data, hdata⟩ : ∃ data, copyToFront n buf.bytes = some data := ⟨_, if_pos h⟩
  simp only [bleTransportToHsEvtImpl, hdata, Option.bind_eq_bind, Option.bind_some]
  split
  · rfl
  · split <;> rfl

/-- What parses fits in the array. -/
theorem parseAcl_fits (hlib : lib.Documented) {om : μ}
    (h : ∀ header hdr om', aclPacketHeaderReadHci lib om = some (header, hdr, om') →
      4 + hdr.dataLen.toNat ≤ n) :
    ∃ parsed, parseAcl lib n om = some parsed ∧
      ∀ bytes, parsed = some bytes → bytes.length ≤ n := by
  cases hread : aclPacketHeaderReadHci lib om with
  | none => exact ⟨none, by rw [parseAcl, hread], nofun⟩
  | some r =>
    obtain ⟨header, hdr, om₁⟩ := r
    have hcut := h header hdr om₁ hread
    obtain ⟨⟨header', om'⟩, hhead, hrest⟩ := Option.bind_eq_some_iff.mp hread
    obtain ⟨hdr', -, he⟩ := Option.bind_eq_some_iff.mp hrest
    cases he
    obtain ⟨hheader, -⟩ := readExact_eq_some hlib hhead
    cases hdata : readExact lib hdr.dataLen.toNat om₁ with
    | none => exact ⟨none, by simp only [parseAcl, hread, if_pos hcut, hdata], nofun⟩
    | some r =>
      obtain ⟨data, om₂⟩ := r
      obtain ⟨hlen, -⟩ := readExact_eq_some hlib hdata
      refine ⟨(lib.aclPacketFromHeader hdr data).map (fun _ => header ++ data),
        by simp only [parseAcl, hread, if_pos hcut, hdata], ?_⟩
      intro bytes hbytes
      obtain ⟨-, -, rfl⟩ := Option.map_eq_some_iff.mp hbytes
      rw [List.length_append, hheader, hlen]
      exact hcut

theorem aclImpl_isSome (hlib : lib.Documented) {tag : Tag} {om : μ}
    {ch : Channel (HostPacket Tag) 1}
    (h : ∀ header hdr om', aclPacketHeaderReadHci lib om = some (header, hdr, om') →
      4 + hdr.dataLen.toNat ≤ n) : (bleTransportToHsAclImpl lib n tag om ch).isSome := by
  obtain ⟨parsed, hparse, hfits⟩ := parseAcl_fits hlib h
  cases parsed with
  | none => simp [bleTransportToHsAclImpl, hparse]
  | some bytes =>
    obtain ⟨data, hdata⟩ : ∃ data, copyToFront n bytes = some data := ⟨_, if_pos (hfits bytes rfl)⟩
    simp only [bleTransportToHsAclImpl, hparse, hdata, Option.bind_eq_bind, Option.bind_some]
    split <;> rfl

/-- A party at a statement that can panic gets past it. -/
theorem Safe.isSome (hlib : lib.Documented) (hheader : ReadsHeader lib) (h : Safe n s)
    (hfits : Fits lib n l s) (hat : AtStatement lib l s) : (step lib n l s).isSome := by
  cases l with
  | serialize i =>
    obtain ⟨cmd, ptr, hpc⟩ := hat
    have hpatch := h.cmds i cmd (by rw [hpc]; rfl)
    cases hwrite : cmd.writeHci with
    | none => simp [step, callStep, hpc, hwrite]
    | some bytes => simpa [step, callStep, hpc, hwrite] using hpatch bytes hwrite
  | parse i =>
    obtain ⟨buf, hpc⟩ := hat
    have hparse := parseResponse_isSome hheader (h.answers i buf (by rw [hpc]; rfl))
    simpa [step, callStep, hpc] using hparse
  | readBody =>
    obtain ⟨len, p, hreader⟩ := hat
    have hlen : len ≤ p.data.length := by
      rw [(h.transit p (by simp [inTransit, hand, hreader])).length]
      exact h.lens len (by rw [hreader]; rfl)
    obtain ⟨b, hbody⟩ : ∃ b, Controller.readBody lib len p = some (p.data.take len, b) :=
      ⟨_, if_pos hlen⟩
    simp only [step, readStep, hreader, hbody]
    cases b with
    | done r => rfl
    | forward => cases s.cmdSignal.trySend (p.data, p.tag) <;> rfl
  | evt origin buf => simpa [step, taskStep, hat.1, hat.2] using evtImpl_isSome hfits
  | acl ptr om =>
    have hrun : s.task = .running := hat
    simpa [step, taskStep, hrun] using aclImpl_isSome hlib hfits
  | call | lock | alloc | queue | receive | free | read | readPoll | readResume | readDrop | event
  | gateRead | gateCmd | eventRun | handlerDone => cases hat

/-- In every run in which commands can be patched, buffers are no longer than
the array and no packet says that it is, whatever party is about to execute a
statement that can panic gets past it. -/
theorem never_panics (hlib : lib.Documented) (hheader : ReadsHeader lib) (ls : List (Label μ))
    (s : State) (hfits : Along (step lib n) (Fits lib n) ls start)
    (h : run (step lib n) ls start = some s) (l : Label μ) (hl : Fits lib n l s)
    (hat : AtStatement lib l s) : (step lib n l s).isSome :=
  (run_safe hfits h).isSome hlib hheader hl hat

theorem plain_readsHeader : ReadsHeader plain := fun _ _ _ => rfl

set_option maxRecDepth 20000 in
theorem never_panics_reset : ∃ s, run (step plain 260) (resetTrace ++ [.free 0]) start = some s ∧
    (step plain 260 (.parse 0) s).isSome := by
  have hfits : Along (step plain 260) (Fits plain 260) (resetTrace ++ [.free 0]) start := by
    refine along_of_step ?_ rfl ?_
    · rintro bytes ⟨⟩
      rfl
    · iterate 8 refine along_of_step trivial rfl ?_
      refine along_of_step (show resetComplete.bytes.length ≤ 260 by decide) rfl ?_
      refine along_of_step (show 260 ≤ 260 by decide) rfl ?_
      iterate 4 refine along_of_step trivial rfl ?_
      trivial
  refine ⟨_, rfl, ?_⟩
  exact never_panics plain_documented plain_readsHeader _ _ hfits rfl (.parse 0) trivial ⟨_, rfl⟩

end PanicFreedom
