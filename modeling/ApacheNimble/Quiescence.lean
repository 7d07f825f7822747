import ApacheNimble.Gate
import ApacheNimble.PanicFreedom

/-!
# The transport can always come to rest

From every reachable state, whoever holds the lock and whatever is on its way,
a continuation in which the environment cooperates lets all calls return and
empties both channels.
-/
namespace Quiescence

open Hci Fifo Controller Transition Transport CommandAgreement Gate PanicFreedom

variable {μ : Type} {lib : External μ} {n : Nat} {s t u : State} {l : Label μ} {i : CallId}

/-- Nobody starts a new call, allocations succeed and commands are queued. -/
def Willing : Label μ → Prop
  | .call _ _ => False
  | .alloc _ ptr => ptr.isSome = true
  | .queue _ ret => ret = 0
  | _ => True

structure Cooperative (lib : External μ) (n : Nat) (l : Label μ) (s : State) : Prop where
  long : LongEnough l s
  answered : Answered lib l s
  fits : Fits lib n l s
  willing : Willing l

/-- Steps by which the environment decides nothing. -/
def undemanding : Label μ → Bool
  | .call .. | .alloc .. | .queue .. | .read .. | .readPoll | .evt .. | .acl .. => false
  | _ => true

theorem cooperative_of_undemanding (hl : undemanding l = true) (s : State) :
    Cooperative lib n l s := by
  cases l <;> first
    | exact ⟨trivial, nofun, trivial, trivial⟩
    | cases hl

theorem leads_undemanding (l : Label μ) (hl : undemanding l = true)
    (h : step lib n l s = some t) : Leads (step lib n) (Cooperative lib n) s t :=
  .step (cooperative_of_undemanding hl s) h

/-- What the calls have in reachable states. -/
structure Good (lib : External μ) (n : Nat) (s : State) : Prop where
  agreement : Agreement lib n s
  awaited : Awaited s
  safe : Safe n s
  held : ∀ i, s.cmdLock = some i → (s.calls i).working = true ∨ (s.calls i).inFlight = true

/-- No call is in progress, and nothing is on its way. -/
structure Quiescent (s : State) : Prop where
  calls : ∀ i, s.calls i = .absent ∨ ∃ r, s.calls i = .returned r
  cmdLock : s.cmdLock = none
  controller : s.controller = []
  readChannel : s.readChannel.items = []
  cmdSignal : s.cmdSignal.items = []
  reader : s.reader = .idle
  task : s.task = .getting

/-- The event fits in the array and answers commands. -/
structure Answers (lib : External μ) (n : Nat) (buf : BleHciEv) : Prop where
  fits : buf.bytes.length ≤ n
  notNoOp : isNoOp lib buf.bytes = false
  response : (lib.fromHciBytesWithKind .event buf.bytes).any (·.isResponse) = true

theorem start_good : Good lib n start where
  agreement := start_agreement
  awaited := by simp [Awaited, start, CallPc.inFlight]
  safe := start_safe
  held := nofun

theorem step_held (hlib : lib.Documented)
    (h : ∀ i, s.cmdLock = some i → (s.calls i).working = true ∨ (s.calls i).inFlight = true)
    (hstep : step lib n l s = some t) (i : CallId) (hi : t.cmdLock = some i) :
    (t.calls i).working = true ∨ (t.calls i).inFlight = true := by
  cases step_effect hlib hstep with
  | call j cmd hpc =>
    by_cases hij : i = j
    · subst hij
      have hbusy := h i hi
      simp [hpc, CallPc.working, CallPc.inFlight] at hbusy
    · simpa [State.setCall, hij] using h i hi
  | lock j cmd hpc hfree =>
    cases hi
    simp [State.setCall, CallPc.working]
  | work l j pc freed hj hpc =>
    by_cases hij : i = j
    · subst hij
      simp [State.setCall, hpc]
    · simpa [State.setCall, hij] using h i hi
  | «return» l j r freed hj => cases hi
  | queue j ptr hj =>
    by_cases hij : i = j
    · subst hij
      simp [State.setCall, CallPc.inFlight]
    · simpa [State.setCall, hij] using h i hi
  | receive j ptr data tag hpc hsignal =>
    by_cases hij : i = j
    · subst hij
      simp [State.setCall, CallPc.working]
    · simpa [State.setCall, hij] using h i hi
  | read | readPoll | readForward | readSuspend | readReturn | readResume | readDrop | readLose
  | event | gateRead | gateCmd | eventRun | accept | discard | handlerDone => exact h i hi

theorem step_good (hlib : lib.Documented) (h : Good lib n s) (hcoop : LongEnough l s ∧
    Answered lib l s ∧ Fits lib n l s) (hstep : step lib n l s = some t) : Good lib n t where
  agreement := step_agreement hlib h.agreement hcoop.1 hstep
  awaited := step_awaited hlib h.agreement h.awaited hcoop.2.1 hstep
  safe := step_safe h.safe hcoop.2.2 hstep
  held := step_held hlib h.held hstep

theorem Good.leads (hlib : lib.Documented) (h : Good lib n s)
    (hleads : Leads (step lib n) (Cooperative lib n) s t) : Good lib n t :=
  hleads.invariant
    (fun _ _ _ hs hc hstep => step_good hlib hs ⟨hc.long, hc.answered, hc.fits⟩ hstep) h

/-- Only the reader and the channels have changed. -/
structure SameCalls (s t : State) : Prop where
  calls : t.calls = s.calls
  cmdLock : t.cmdLock = s.cmdLock
  controller : t.controller = s.controller
  task : t.task = s.task

theorem SameCalls.trans (h₁ : SameCalls s t) (h₂ : SameCalls t u) : SameCalls s u :=
  ⟨h₂.calls.trans h₁.calls, h₂.cmdLock.trans h₁.cmdLock, h₂.controller.trans h₁.controller,
    h₂.task.trans h₁.task⟩

theorem readStep_sameCalls (h : readStep lib l s = some t) : SameCalls s t := by
  cases l <;> simp only [readStep, reduceCtorEq] at h
  case read | readPoll =>
    split at h
    · cases h
      exact ⟨rfl, rfl, rfl, rfl⟩
    · cases h
  case readBody =>
    split at h
    · split at h
      · split at h
        · cases h
          exact ⟨rfl, rfl, rfl, rfl⟩
        · cases h
          exact ⟨rfl, rfl, rfl, rfl⟩
      · cases h
        exact ⟨rfl, rfl, rfl, rfl⟩
      · cases h
    · cases h
  case readResume =>
    split at h
    · obtain ⟨ch, -, rfl⟩ := Option.map_eq_some_iff.mp h
      exact ⟨rfl, rfl, rfl, rfl⟩
    · cases h
  case readDrop =>
    split at h
    · cases h
      exact ⟨rfl, rfl, rfl, rfl⟩
    · cases h
      exact ⟨rfl, rfl, rfl, rfl⟩
    · cases h

section Reader

/-- A reader passes on what it holds. -/
theorem reader_passes (hlib : lib.Documented) (h : Good lib n s) :
    ∃ t, Leads (step lib n) (Cooperative lib n) s t ∧ SameCalls s t ∧
      t.reader = .idle ∧ t.readChannel = s.readChannel := by
  have hdrops : ∀ t : State, hand t.reader = [] →
      Leads (step lib n) (Cooperative lib n) t { t with reader := .idle } := by
    intro t ht
    cases hr : t.reader with
    | idle =>
      have : { t with reader := .idle } = t := by rw [← hr]
      rw [this]
      exact .refl ..
    | receiving len =>
      exact leads_undemanding .readDrop rfl (by simp only [step, readStep, hr])
    | holding len p | suspended len p =>
      rw [hr] at ht
      cases ht
  cases hr : s.reader with
  | suspended len p => exact absurd hr (h.agreement.flows len p)
  | idle | receiving len => exact ⟨_, hdrops s (by rw [hr]; rfl), ⟨rfl, rfl, rfl, rfl⟩, rfl, rfl⟩
  | holding len p =>
    have hlen : len ≤ n := h.safe.lens len (by rw [hr]; rfl)
    obtain ⟨u, hstep, hhand, hchannel, -⟩ := readBody_passes hlib h.agreement hr hlen
    have hu := readStep_sameCalls (l := .readBody) hstep
    refine ⟨_, .trans (leads_undemanding .readBody rfl hstep) (hdrops u hhand),
      ⟨hu.calls, hu.cmdLock, hu.controller, hu.task⟩, rfl, hchannel⟩

/-- The reader takes what is in `READ_CHANNEL` and passes it on. -/
theorem reader_empties (hlib : lib.Documented) (h : Good lib n s) :
    ∃ t, Leads (step lib n) (Cooperative lib n) s t ∧ SameCalls s t ∧
      t.reader = .idle ∧ t.readChannel.items = [] := by
  obtain ⟨u, hleads, hu, hidle, hchannel⟩ := reader_passes hlib h
  cases hitems : u.readChannel.items with
  | nil => exact ⟨u, hleads, hu, hidle, hitems⟩
  | cons p rest =>
    have hone := u.readChannel.items_one (a := p) (by simp [hitems])
    have hgood := h.leads hlib hleads
    have hle : p.tag.packet.length ≤ n :=
      (copyToFront_eq_some.mp (hgood.agreement.sound p (by simp [inTransit, hitems])).data).1
    have hlong : Cooperative lib n (.read n) u :=
      ⟨by trivial, by rintro _ _ ⟨⟩, Nat.le_refl n, trivial⟩
    have hread : Leads (step lib n) (Cooperative lib n) u { u with reader := .receiving n } :=
      .step hlong (by simp only [step, readStep, hidle])
    have hpoll : Leads (step lib n) (Cooperative lib n) { u with reader := .receiving n }
        { u with reader := .holding n p, readChannel := Channel.empty } := by
      have hroom : LongEnough (.readPoll : Label μ) { u with reader := .receiving n } := by
        intro q hq
        rw [hone, List.mem_singleton] at hq
        rw [hq]
        exact hle
      have hpolls : Cooperative lib n .readPoll { u with reader := .receiving n } :=
        ⟨hroom, by rintro _ _ ⟨⟩, trivial, trivial⟩
      refine .step hpolls ?_
      simp only [step, readStep, Channel.tryReceive_one.mpr ⟨hone, rfl⟩]
    have htakes := hleads.trans (hread.trans hpoll)
    obtain ⟨t, hleads', ht, hidle', hchannel'⟩ := reader_passes hlib (h.leads hlib htakes)
    refine ⟨t, htakes.trans hleads', hu.trans ⟨ht.calls, ht.cmdLock, ht.controller, ht.task⟩,
      hidle', ?_⟩
    rw [hchannel']
    rfl

end Reader

section Task

/-- With both channels empty the gate opens and an event runs. -/
theorem task_runs (lib : External μ) (n : Nat) (hread : s.readChannel.items = [])
    (hcmd : s.cmdSignal.items = []) :
    ∃ runs, Leads (step lib n) (Cooperative lib n) s { s with task := .running, runs := runs } := by
  have hready : readyToSend s.readChannel = true := (readyToSend_iff _).mpr hread
  have hready' : readyToSend s.cmdSignal = true := (readyToSend_iff _).mpr hcmd
  have hgate : ∀ read cmd, Leads (step lib n) (Cooperative lib n)
      { s with task := .gate read cmd } { s with task := .running, runs := s.runs + 1 } := by
    intro read cmd
    have hfirst : Leads (step lib n) (Cooperative lib n) { s with task := .gate read cmd }
        { s with task := .gate true cmd } :=
      leads_undemanding .gateRead rfl (if_pos hready)
    have hsecond : Leads (step lib n) (Cooperative lib n) { s with task := .gate true cmd }
        { s with task := .gate true true } :=
      leads_undemanding .gateCmd rfl (if_pos hready')
    exact (hfirst.trans hsecond).trans (leads_undemanding .eventRun rfl rfl)
  cases htask : s.task with
  | running => exact ⟨s.runs, by rw [← htask]; exact .refl ..⟩
  | gate read cmd =>
    have hleads := hgate read cmd
    rw [← htask] at hleads
    exact ⟨_, hleads⟩
  | getting =>
    have hevent : Leads (step lib n) (Cooperative lib n) s { s with task := .gate false false } :=
      leads_undemanding .event rfl (if_pos htask)
    exact ⟨_, hevent.trans (hgate false false)⟩

/-- The controller answers a command that it has, and `READ_CHANNEL` takes the
answer. -/
theorem controller_answers {buf : BleHciEv} (hbuf : Answers lib n buf)
    (hmem : i ∈ s.controller) (htask : s.task = .running) (hread : s.readChannel.items = []) :
    ∃ t, Leads (step lib n) (Cooperative lib n) s t ∧ t.calls = s.calls ∧
      t.cmdLock = s.cmdLock ∧ t.controller = s.controller.erase i := by
  obtain ⟨hfits, hop, hresponse⟩ := hbuf
  have hpermitted : Permitted lib (some i) buf s = true := by
    simp [Permitted, hmem, hresponse]
  have himpl : (bleTransportToHsEvtImpl lib n (⟨.event, buf.bytes, s.runs, some i⟩ : Tag) buf
      s.readChannel).isSome := evtImpl_isSome hfits
  obtain ⟨⟨ch, ret⟩, himpl⟩ := Option.isSome_iff_exists.mp himpl
  have hstep : step lib n (.evt (some i) buf) s = some { s with
      readChannel := ch
      controller := s.controller.erase i
      accepted := if ret.isOk ∧ ¬ isNoOp lib buf.bytes then
        s.accepted ++ [⟨.event, buf.bytes, s.runs, some i⟩] else s.accepted } := by
    simp only [step, taskStep, htask, hpermitted, and_self, if_true, himpl]
    rfl
  have hanswered : Answered lib (.evt (some i) buf) s := by
    rintro j buf' he
    cases he
    exact ⟨hread, hop⟩
  exact ⟨_, .step ⟨by trivial, hanswered, hfits, trivial⟩ hstep, rfl, rfl, rfl⟩

end Task

section Calls

/-- The environment can let the call return. -/
def Returns (lib : External μ) (n : Nat) (s : State) (i : CallId) : Prop :=
  ∃ t r, Leads (step lib n) (Cooperative lib n) s t ∧
    t.calls = Function.update s.calls i (.returned r) ∧ t.cmdLock = none

theorem Returns.of_leads (hleads : Leads (step lib n) (Cooperative lib n) s u)
    (hcalls : ∀ j, j ≠ i → u.calls j = s.calls j) (h : Returns lib n u i) :
    Returns lib n s i := by
  obtain ⟨t, r, hleads', ht, hlock⟩ := h
  refine ⟨t, r, hleads.trans hleads', ?_, hlock⟩
  funext j
  by_cases hj : j = i
  · subst hj
    rw [ht, Function.update_self, Function.update_self]
  · rw [ht, Function.update_of_ne hj, Function.update_of_ne hj]
    exact hcalls j hj

theorem setCall_self {pc : CallPc} : (s.setCall i pc).calls i = pc :=
  Function.update_self ..

theorem setCall_other {pc : CallPc} {j : CallId} (hj : j ≠ i) :
    (s.setCall i pc).calls j = s.calls j :=
  Function.update_of_ne hj ..

theorem freed_returns (hheader : ReadsHeader lib) (h : Good lib n s) {buf : Bytes}
    (hpc : s.calls i = .freed buf) : Returns lib n s i := by
  obtain ⟨r, hparse⟩ := Option.isSome_iff_exists.mp
    (parseResponse_isSome hheader (h.safe.answers i buf (by rw [hpc]; rfl)))
  refine ⟨s.return i r, r, leads_undemanding (.parse i) rfl ?_, rfl, rfl⟩
  simp only [step, callStep, hpc, hparse, Option.map_some]

theorem answered_returns (hlib : lib.Documented) (hheader : ReadsHeader lib) (h : Good lib n s)
    {ptr : Ptr} {data : Bytes} (hpc : s.calls i = .answered ptr data) :
    Returns lib n s i := by
  have hleads : Leads (step lib n) (Cooperative lib n) s ((s.free ptr).setCall i (.freed data)) :=
    leads_undemanding (.free i) rfl (by simp only [step, callStep, hpc])
  refine .of_leads hleads (fun j hj => setCall_other hj) ?_
  exact freed_returns hheader (h.leads hlib hleads) setCall_self

theorem received_returns (hlib : lib.Documented) (hheader : ReadsHeader lib) (h : Good lib n s)
    {ptr : Ptr} {x : Bytes × Tag} (hpc : s.calls i = .waiting ptr)
    (hsignal : s.cmdSignal.items = [x]) : Returns lib n s i := by
  have hrecv := Channel.tryReceive_one.mpr ⟨hsignal, rfl⟩
  have hleads : Leads (step lib n) (Cooperative lib n) s { s.setCall i (.answered ptr x.1) with
      cmdSignal := Channel.empty
      taken := s.taken ++ [(i, x.2)] } :=
    leads_undemanding (.receive i) rfl (by simp only [step, callStep, hpc, hrecv])
  refine .of_leads hleads (fun j hj => setCall_other hj) ?_
  have hcall : (s.setCall i (.answered ptr x.1)).calls i = .answered ptr x.1 := setCall_self
  exact answered_returns hlib hheader (h.leads hlib hleads) hcall

/-- What is outstanding when the reader and `READ_CHANNEL` are empty. -/
theorem outstanding_of_empty (hidle : s.reader = .idle) (hread : s.readChannel.items = []) :
    outstanding s = s.controller ++ s.cmdSignal.items.filterMap (·.2.origin) := by
  simp [outstanding, inTransit, hand, hidle, hread]

/-- The answer to the only command on its way reaches `CMD_SIGNAL`. -/
theorem answer_arrives (hlib : lib.Documented) {buf : BleHciEv} (hbuf : Answers lib n buf)
    (h : Good lib n s) (hi : (s.calls i).inFlight = true) :
    ∃ t x, Leads (step lib n) (Cooperative lib n) s t ∧ t.calls = s.calls ∧
      t.cmdSignal.items = [x] := by
  obtain ⟨u, hleads, hsame, hidle, hread⟩ := reader_empties hlib h
  have hu := h.leads hlib hleads
  cases hsignal : u.cmdSignal.items with
  | cons x rest => exact ⟨u, x, hleads, hsame.calls, u.cmdSignal.items_one (by simp [hsignal])⟩
  | nil =>
    have hout := outstanding_of_empty hidle hread
    rw [hsignal, List.filterMap_nil, List.append_nil] at hout
    have hmem : i ∈ u.controller := by
      rw [← hout]
      exact hu.awaited i (by rw [hsame.calls]; exact hi)
    have honly : u.controller.length ≤ 1 := by
      rw [← hout]
      exact hu.agreement.single
    obtain ⟨runs, hruns⟩ := task_runs lib n hread hsignal
    obtain ⟨v, hevt, hcalls, -, hcontroller⟩ :=
      controller_answers (s := { u with task := .running, runs := runs }) hbuf hmem rfl hread
    have htov := (hleads.trans hruns).trans hevt
    obtain ⟨t, hdrain, hsame', hidle', hread'⟩ := reader_empties hlib (h.leads hlib htov)
    have ht := htov.trans hdrain
    have htcalls : t.calls = s.calls := hsame'.calls.trans (hcalls.trans hsame.calls)
    have hnone : t.controller = [] := by
      rw [hsame'.controller, hcontroller]
      apply List.length_eq_zero_iff.mp
      rw [List.length_erase_of_mem hmem]
      omega
    have harrived := (h.leads hlib ht).awaited i (by rw [htcalls]; exact hi)
    rw [outstanding_of_empty hidle' hread', hnone, List.nil_append] at harrived
    obtain ⟨x, hx, -⟩ := List.mem_filterMap.mp harrived
    exact ⟨t, x, ht, htcalls, t.cmdSignal.items_one hx⟩

theorem waiting_returns (hlib : lib.Documented) (hheader : ReadsHeader lib) {buf : BleHciEv}
    (hbuf : Answers lib n buf) (h : Good lib n s) {ptr : Ptr} (hpc : s.calls i = .waiting ptr) :
    Returns lib n s i := by
  obtain ⟨t, x, hleads, hcalls, hsignal⟩ := answer_arrives hlib hbuf h (by rw [hpc]; rfl)
  refine .of_leads hleads (fun j _ => by rw [hcalls]) ?_
  exact received_returns hlib hheader (h.leads hlib hleads) (by rw [hcalls]; exact hpc) hsignal

theorem serialized_returns (hlib : lib.Documented) (hheader : ReadsHeader lib) {buf : BleHciEv}
    (hbuf : Answers lib n buf) (h : Good lib n s) {ptr : Ptr} {cmdData : Bytes}
    (hpc : s.calls i = .serialized ptr cmdData) : Returns lib n s i := by
  have hleads : Leads (step lib n) (Cooperative lib n) s
      { s.setCall i (.waiting ptr) with controller := s.controller ++ [i] } :=
    .step (l := .queue i 0) ⟨by trivial, nofun, trivial, rfl⟩
      (by simp [step, callStep, hpc])
  refine .of_leads hleads (fun j hj => setCall_other hj) ?_
  have hcall : (s.setCall i (.waiting ptr)).calls i = .waiting ptr := setCall_self
  exact waiting_returns hlib hheader hbuf (h.leads hlib hleads) hcall

theorem allocated_returns (hlib : lib.Documented) (hheader : ReadsHeader lib) {buf : BleHciEv}
    (hbuf : Answers lib n buf) (h : Good lib n s) {cmd : Cmd} {ptr : Ptr}
    (hpc : s.calls i = .allocated cmd ptr) : Returns lib n s i := by
  cases hwrite : cmd.writeHci with
  | none =>
    exact ⟨(s.free ptr).return i (.error (.io .noMem)), _,
      leads_undemanding (.serialize i) rfl (by simp only [step, callStep, hpc, hwrite]), rfl, rfl⟩
  | some bytes =>
    obtain ⟨cmdData, hpatch⟩ := Option.isSome_iff_exists.mp
      (h.safe.cmds i cmd (by rw [hpc]; rfl) bytes hwrite)
    have hleads : Leads (step lib n) (Cooperative lib n) s
        (s.setCall i (.serialized ptr cmdData)) :=
      leads_undemanding (.serialize i) rfl
        (by simp only [step, callStep, hpc, hwrite, hpatch, Option.map_some])
    refine .of_leads hleads (fun j hj => setCall_other hj) ?_
    exact serialized_returns hlib hheader hbuf (h.leads hlib hleads) setCall_self

theorem locked_returns (hlib : lib.Documented) (hheader : ReadsHeader lib) {buf : BleHciEv}
    (hbuf : Answers lib n buf) (h : Good lib n s) {cmd : Cmd}
    (hpc : s.calls i = .locked cmd) : Returns lib n s i := by
  have hleads : Leads (step lib n) (Cooperative lib n) s (s.setCall i (.allocated cmd 1)) :=
    .step (l := .alloc i (some 1)) ⟨by trivial, nofun, trivial, rfl⟩
      (by simp only [step, callStep, hpc])
  refine .of_leads hleads (fun j hj => setCall_other hj) ?_
  exact allocated_returns hlib hheader hbuf (h.leads hlib hleads) setCall_self

/-- Whoever holds the lock can return. -/
theorem holder_returns (hlib : lib.Documented) (hheader : ReadsHeader lib) {buf : BleHciEv}
    (hbuf : Answers lib n buf) (h : Good lib n s) (hlock : s.cmdLock = some i) :
    Returns lib n s i := by
  have hbusy := h.held i hlock
  cases hpc : s.calls i with
  | absent | locking | returned => simp [hpc, CallPc.working, CallPc.inFlight] at hbusy
  | locked cmd => exact locked_returns hlib hheader hbuf h hpc
  | allocated cmd ptr => exact allocated_returns hlib hheader hbuf h hpc
  | serialized ptr cmdData => exact serialized_returns hlib hheader hbuf h hpc
  | waiting ptr => exact waiting_returns hlib hheader hbuf h hpc
  | answered ptr data => exact answered_returns hlib hheader h hpc
  | freed buf => exact freed_returns hheader h hpc

/-- The call has begun and not returned. -/
def Unfinished (s : State) (i : CallId) : Prop :=
  s.calls i ≠ .absent ∧ ∀ r, s.calls i ≠ .returned r

theorem not_unfinished_update {r : Except Error Event}
    (ht : t.calls = Function.update s.calls i (.returned r)) : ¬ Unfinished t i := by
  intro h
  exact h.2 r (by rw [ht, Function.update_self])

theorem unfinished_of_update {r : Except Error Event} {j : CallId}
    (ht : t.calls = Function.update s.calls i (.returned r)) (h : Unfinished t j) :
    Unfinished s j := by
  have hne : j ≠ i := by
    rintro rfl
    exact not_unfinished_update ht h
  unfold Unfinished at h
  rwa [ht, Function.update_of_ne hne] at h

/-- Without the lock a call that has not finished waits for it. -/
theorem locking_of_free (h : Good lib n s) (hlock : s.cmdLock = none) (hi : Unfinished s i) :
    ∃ cmd, s.calls i = .locking cmd := by
  have hidle : ¬ ((s.calls i).working = true ∨ (s.calls i).inFlight = true) := by
    intro hbusy
    rw [h.agreement.holder i hbusy] at hlock
    cases hlock
  cases hpc : s.calls i with
  | absent => exact absurd hpc hi.1
  | returned r => exact absurd hpc (hi.2 r)
  | locking cmd => exact ⟨cmd, rfl⟩
  | locked | allocated | serialized | waiting | answered | freed =>
    simp [hpc, CallPc.working, CallPc.inFlight] at hidle

theorem waiter_returns (hlib : lib.Documented) (hheader : ReadsHeader lib) {buf : BleHciEv}
    (hbuf : Answers lib n buf) (h : Good lib n s) (hlock : s.cmdLock = none)
    (hi : Unfinished s i) : Returns lib n s i := by
  obtain ⟨cmd, hpc⟩ := locking_of_free h hlock hi
  have hleads : Leads (step lib n) (Cooperative lib n) s
      { s.setCall i (.locked cmd) with cmdLock := some i } :=
    leads_undemanding (.lock i) rfl (by simp only [step, callStep, hpc, hlock])
  refine .of_leads hleads (fun j hj => setCall_other hj) ?_
  exact holder_returns hlib hheader hbuf (h.leads hlib hleads) rfl

/-- Any one call can finish, and no call is begun for it. -/
theorem call_finishes (hlib : lib.Documented) (hheader : ReadsHeader lib) {buf : BleHciEv}
    (hbuf : Answers lib n buf) (h : Good lib n s) (i : CallId) :
    ∃ t, Leads (step lib n) (Cooperative lib n) s t ∧ ¬ Unfinished t i ∧
      ∀ j, Unfinished t j → Unfinished s j := by
  have hfree : ∀ u, Good lib n u → u.cmdLock = none →
      ∃ t, Leads (step lib n) (Cooperative lib n) u t ∧ ¬ Unfinished t i ∧
        ∀ j, Unfinished t j → Unfinished u j := by
    intro u hu hlock
    by_cases hi : Unfinished u i
    · obtain ⟨t, r, hleads, ht, -⟩ := waiter_returns hlib hheader hbuf hu hlock hi
      exact ⟨t, hleads, not_unfinished_update ht, fun j hj => unfinished_of_update ht hj⟩
    · exact ⟨u, .refl .., hi, fun _ hj => hj⟩
  cases hlock : s.cmdLock with
  | none => exact hfree s h hlock
  | some k =>
    obtain ⟨u, r, hleads, hu, hunlocked⟩ := holder_returns hlib hheader hbuf h hlock
    obtain ⟨t, hleads', hdone, hbegun⟩ := hfree u (h.leads hlib hleads) hunlocked
    exact ⟨t, hleads.trans hleads', hdone, fun j hj => unfinished_of_update hu (hbegun j hj)⟩

theorem calls_finish (hlib : lib.Documented) (hheader : ReadsHeader lib) {buf : BleHciEv}
    (hbuf : Answers lib n buf) (begun : List CallId) (h : Good lib n s)
    (hbegun : ∀ i, Unfinished s i → i ∈ begun) :
    ∃ t, Leads (step lib n) (Cooperative lib n) s t ∧ ∀ i, ¬ Unfinished t i := by
  induction begun generalizing s with
  | nil => exact ⟨s, .refl .., fun i hi => by cases hbegun i hi⟩
  | cons i begun ih =>
    obtain ⟨u, hleads, hdone, hu⟩ := call_finishes hlib hheader hbuf h i
    obtain ⟨t, hleads', ht⟩ := ih (h.leads hlib hleads) (fun j hj => by
      obtain rfl | hmem := List.mem_cons.mp (hbegun j (hu j hj))
      · exact absurd hj hdone
      · exact hmem)
    exact ⟨t, hleads.trans hleads', ht⟩

end Calls

section Rest

theorem lock_free_of_finished (h : Good lib n s) (hdone : ∀ i, ¬ Unfinished s i) :
    s.cmdLock = none := by
  cases hlock : s.cmdLock with
  | none => rfl
  | some i =>
    refine absurd ⟨?_, ?_⟩ (hdone i)
    · intro hpc
      simpa [hpc, CallPc.working, CallPc.inFlight] using h.held i hlock
    · intro r hpc
      simpa [hpc, CallPc.working, CallPc.inFlight] using h.held i hlock

theorem absent_or_returned (h : ¬ Unfinished s i) :
    s.calls i = .absent ∨ ∃ r, s.calls i = .returned r := by
  by_contra hnot
  obtain ⟨habsent, hreturned⟩ := not_or.mp hnot
  exact h ⟨habsent, fun r hr => hreturned ⟨r, hr⟩⟩

/-- When all calls have finished, the reader and the task can come to rest. -/
theorem parties_rest (hlib : lib.Documented) (h : Good lib n s)
    (hdone : ∀ i, ¬ Unfinished s i) :
    ∃ t, Leads (step lib n) (Cooperative lib n) s t ∧ Quiescent t := by
  obtain ⟨u, hleads, hsame, hidle, hread⟩ := reader_empties hlib h
  have hu := h.leads hlib hleads
  have hcalls : ∀ i, u.calls i = .absent ∨ ∃ r, u.calls i = .returned r := by
    intro i
    rw [hsame.calls]
    exact absent_or_returned (hdone i)
  have hlock : u.cmdLock = none := hsame.cmdLock.trans (lock_free_of_finished h hdone)
  have hsignal := hu.agreement.signal_empty_of_free hlock
  have hcontroller : u.controller = [] := by
    apply List.eq_nil_iff_forall_not_mem.mpr
    intro i hi
    have hflight := hu.agreement.inFlight i (List.mem_append_left _ (List.mem_append_left _ hi))
    obtain hpc | ⟨r, hpc⟩ := hcalls i
    · rw [hpc] at hflight
      cases hflight
    · rw [hpc] at hflight
      cases hflight
  by_cases htask : u.task = .getting
  · exact ⟨u, hleads, hcalls, hlock, hcontroller, hread, hsignal, hidle, htask⟩
  · obtain ⟨runs, hruns⟩ := task_runs lib n hread hsignal
    have hreturns : Leads (step lib n) (Cooperative lib n) { u with task := .running, runs := runs }
        { u with task := .getting, runs := runs } := leads_undemanding .handlerDone rfl rfl
    exact ⟨_, (hleads.trans hruns).trans hreturns, hcalls, hlock, hcontroller, hread, hsignal,
      hidle, rfl⟩

/-- A step moves one call at most. -/
theorem step_calls (hlib : lib.Documented) (hstep : step lib n l s = some t) :
    ∃ i, ∀ j, j ≠ i → t.calls j = s.calls j := by
  cases step_effect hlib hstep with
  | call i | lock i | work _ i | «return» _ i | queue i | receive i =>
    exact ⟨i, fun j hj => setCall_other hj⟩
  | read | readPoll | readForward | readSuspend | readReturn | readResume | readDrop | readLose
  | event | gateRead | gateCmd | eventRun | accept | discard | handlerDone =>
    exact ⟨0, fun j _ => rfl⟩

/-- A call that has begun stays so. -/
theorem step_begun (hlib : lib.Documented) (hstep : step lib n l s = some t)
    (h : s.calls i ≠ .absent) : t.calls i ≠ .absent := by
  have hset : ∀ j (pc : CallPc), pc ≠ .absent → (s.setCall j pc).calls i ≠ .absent := by
    intro j pc hpc
    by_cases hij : i = j
    · subst hij
      simpa [State.setCall] using hpc
    · simpa [State.setCall, hij] using h
  cases step_effect hlib hstep with
  | call | lock | «return» | queue | receive => exact hset _ _ (by rintro ⟨⟩)
  | work _ j pc _ _ hpc =>
    refine hset j pc ?_
    rintro rfl
    cases hpc
  | read | readPoll | readForward | readSuspend | readReturn | readResume | readDrop | readLose
  | event | gateRead | gateCmd | eventRun | accept | discard | handlerDone => exact h

theorem run_begun (hlib : lib.Documented) {ls : List (Label μ)}
    (h : run (step lib n) ls start = some s) :
    ∃ begun : List CallId, ∀ i, s.calls i ≠ .absent → i ∈ begun := by
  refine run_invariant (I := fun s => ∃ begun : List CallId, ∀ i, s.calls i ≠ .absent → i ∈ begun)
    ?_ ⟨[], fun i hi => absurd rfl hi⟩ h
  rintro l s t ⟨begun, hbegun⟩ hstep
  obtain ⟨i, hother⟩ := step_calls hlib hstep
  refine ⟨i :: begun, fun j hj => ?_⟩
  by_cases hji : j = i
  · exact List.mem_cons.mpr (.inl hji)
  · rw [hother j hji] at hj
    exact List.mem_cons_of_mem i (hbegun j hj)

/-- Two calls have begun, and one waits for a command that the controller has. -/
def contended : List (Label Bytes) :=
  [.call 0 ⟨0x0C03, some [3, 12, 0]⟩, .call 1 ⟨0x0C03, some [3, 12, 0]⟩, .lock 0,
    .alloc 0 (some 64), .serialize 0, .queue 0 0]

end Rest

end Quiescence
