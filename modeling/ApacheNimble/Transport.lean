import Mathlib.Logic.Function.Basic
import ApacheNimble.Transition
import ApacheNimble.Controller

/-!
# The transport: callers, the reader and the link layer task

Each label is one step of one party, so every interleaving is a run. The tag
of a packet and the logs record what happened, and no step depends on them.
-/
namespace Transport

open Hci Fifo Controller Transition

variable {μ : Type} {lib : External μ} {n : Nat}

abbrev CallId := Nat

/-- Where a packet comes from: its bytes, the event run it was handed up in,
and the call it answers. -/
structure Tag where
  kind : PacketKind
  packet : Bytes
  run : Nat
  origin : Option CallId
  deriving DecidableEq, Repr

inductive CallPc where
  | absent
  | locking (cmd : Cmd)
  | locked (cmd : Cmd)
  | allocated (cmd : Cmd) (ptr : Ptr)
  | serialized (ptr : Ptr) (cmdData : Bytes)
  | waiting (ptr : Ptr)
  | answered (ptr : Ptr) (data : Bytes)
  | freed (buf : Bytes)
  | returned (r : Except Error Event)

/-- `suspended` is the only point at which a packet waits for `CMD_SIGNAL`. -/
inductive ReaderPc where
  | idle
  | receiving (len : Nat)
  | holding (len : Nat) (p : HostPacket Tag)
  | suspended (len : Nat) (p : HostPacket Tag)

/-- The gate remembers which of its two futures have completed. -/
inductive TaskPc where
  | getting
  | gate (read cmd : Bool)
  | running
  deriving DecidableEq, Repr

/-- How a packet that was taken from `READ_CHANNEL` ends. -/
inductive Departure where
  | result (buf : Bytes) (r : Except OsError ControllerToHostPacket)
  | signal (data : Bytes)
  | dropped

structure State where
  readChannel : Channel (HostPacket Tag) 1
  cmdSignal : Channel (Bytes × Tag) 1
  cmdLock : Option CallId
  calls : CallId → CallPc
  controller : List CallId
  reader : ReaderPc
  task : TaskPc
  runs : Nat
  accepted : List Tag
  left : List (Tag × Departure)
  taken : List (CallId × Tag)
  freed : List Ptr

def start : State :=
  ⟨Channel.empty, Channel.empty, none, fun _ => .absent, [], .idle, .getting, 0, [], [], [], []⟩

/-- Allocation, the code of `ble_transport_to_ll_cmd_impl`, the length of the
reader's buffer and what the handlers hand up are up to the environment. -/
inductive Label (μ : Type) where
  | call (i : CallId) (cmd : Cmd)
  | lock (i : CallId)
  | alloc (i : CallId) (ptr : Option Ptr)
  | serialize (i : CallId)
  | queue (i : CallId) (ret : Int)
  | receive (i : CallId)
  | free (i : CallId)
  | parse (i : CallId)
  | read (len : Nat)
  | readPoll
  | readBody
  | readResume
  | readDrop
  | event
  | gateRead
  | gateCmd
  | eventRun
  | evt (origin : Option CallId) (buf : BleHciEv)
  | acl (ptr : Ptr) (om : μ)
  | handlerDone

def State.setCall (s : State) (i : CallId) (pc : CallPc) : State :=
  { s with calls := Function.update s.calls i pc }

/-- `ble_transport_free` or `os_mbuf_free_chain` is called. -/
def State.free (s : State) (ptr : Ptr) : State := { s with freed := s.freed ++ [ptr] }

/-- The call returns and its guard gives the lock back. -/
def State.return (s : State) (i : CallId) (r : Except Error Event) : State :=
  { s.setCall i (.returned r) with cmdLock := none }

/-- The steps of `execute_command`. -/
def callStep (lib : External μ) (l : Label μ) (s : State) : Option State :=
  match l with
  | .call i cmd => match s.calls i with
    | .absent => some (s.setCall i (.locking cmd))
    | _ => none
  | .lock i => match s.calls i, s.cmdLock with
    | .locking cmd, none => some { s.setCall i (.locked cmd) with cmdLock := some i }
    | _, _ => none
  | .alloc i ptr => match s.calls i, ptr with
    | .locked _, none => some (s.return i (.error (.io .noMem)))
    | .locked cmd, some ptr => some (s.setCall i (.allocated cmd ptr))
    | _, _ => none
  | .serialize i => match s.calls i with
    | .allocated cmd ptr => match cmd.writeHci with
      | none => some ((s.free ptr).return i (.error (.io .noMem)))
      | some bytes =>
        (transform cmd bytes).map (fun cmdData => s.setCall i (.serialized ptr cmdData))
    | _ => none
  | .queue i ret => match s.calls i with
    | .serialized ptr _ =>
      if ret ≠ 0 then some ((s.free ptr).return i (.error (.io .invalid)))
      else some { s.setCall i (.waiting ptr) with controller := s.controller ++ [i] }
    | _ => none
  | .receive i => match s.calls i, s.cmdSignal.tryReceive with
    | .waiting ptr, some ((data, tag), ch) => some { s.setCall i (.answered ptr data) with
        cmdSignal := ch
        taken := s.taken ++ [(i, tag)] }
    | _, _ => none
  | .free i => match s.calls i with
    | .answered ptr data => some ((s.free ptr).setCall i (.freed data))
    | _ => none
  | .parse i => match s.calls i with
    | .freed buf => (parseResponse lib buf).map (fun r => s.return i r)
    | _ => none
  | _ => none

/-- The steps of `read`. Its future can be dropped where it is suspended. -/
def readStep (lib : External μ) (l : Label μ) (s : State) : Option State :=
  match l with
  | .read len => match s.reader with
    | .idle => some { s with reader := .receiving len }
    | _ => none
  | .readPoll => match s.reader, s.readChannel.tryReceive with
    | .receiving len, some (p, ch) => some { s with reader := .holding len p, readChannel := ch }
    | _, _ => none
  | .readBody => match s.reader with
    | .holding len p => match Controller.readBody lib len p with
      | some (_, .forward) => match s.cmdSignal.trySend (p.data, p.tag) with
        | some ch => some { s with
            reader := .receiving len
            cmdSignal := ch
            left := s.left ++ [(p.tag, .signal p.data)] }
        | none => some { s with reader := .suspended len p }
      | some (buf, .done r) => some { s with
          reader := .idle
          left := s.left ++ [(p.tag, .result buf r)] }
      | none => none
    | _ => none
  | .readResume => match s.reader with
    | .suspended len p => (s.cmdSignal.trySend (p.data, p.tag)).map (fun ch => { s with
        reader := .receiving len
        cmdSignal := ch
        left := s.left ++ [(p.tag, .signal p.data)] })
    | _ => none
  | .readDrop => match s.reader with
    | .receiving _ => some { s with reader := .idle }
    | .suspended _ p => some { s with reader := .idle, left := s.left ++ [(p.tag, .dropped)] }
    | _ => none
  | _ => none

/-- An event answers a pending command, or it is none that would answer one.
A completion of no command is always allowed. -/
def Permitted (lib : External μ) (origin : Option CallId) (buf : BleHciEv) (s : State) : Bool :=
  match origin with
  | some i => decide (i ∈ s.controller) &&
      (lib.fromHciBytesWithKind .event buf.bytes).any (·.isResponse)
  | none => isNoOp lib buf.bytes || !(lib.fromHciBytesWithKind .event buf.bytes).any (·.isResponse)

def remaining (origin : Option CallId) (controller : List CallId) : List CallId :=
  match origin with
  | some i => controller.erase i
  | none => controller

/-- The steps of `ble_ll_task` and of the handlers it runs. A packet counts as
accepted when the function returns zero and it is not a no-op. -/
def taskStep (lib : External μ) (n : Nat) (l : Label μ) (s : State) : Option State :=
  match l with
  | .event => if s.task = .getting then some { s with task := .gate false false } else none
  | .gateRead => match s.task with
    | .gate _ cmd =>
      if readyToSend s.readChannel then some { s with task := .gate true cmd } else none
    | _ => none
  | .gateCmd => match s.task with
    | .gate read _ =>
      if readyToSend s.cmdSignal then some { s with task := .gate read true } else none
    | _ => none
  | .eventRun =>
    if s.task = .gate true true then some { s with task := .running, runs := s.runs + 1 } else none
  | .evt origin buf =>
    if s.task = .running ∧ Permitted lib origin buf s then
      let tag : Tag := ⟨.event, buf.bytes, s.runs, origin⟩
      (bleTransportToHsEvtImpl lib n tag buf s.readChannel).map (fun r => { s with
        readChannel := r.1
        controller := remaining origin s.controller
        accepted :=
          if r.2.isOk ∧ ¬ isNoOp lib buf.bytes then s.accepted ++ [tag] else s.accepted })
    else none
  | .acl ptr om =>
    if s.task = .running then
      let tag : Tag := ⟨.aclData, suppliedAcl lib om, s.runs, none⟩
      (bleTransportToHsAclImpl lib n tag om s.readChannel).map (fun r => { s with
        readChannel := r.1
        accepted := if r.2.1.isOk then s.accepted ++ [tag] else s.accepted
        freed := if r.2.2 then s.freed ++ [ptr] else s.freed })
    else none
  | .handlerDone => if s.task = .running then some { s with task := .getting } else none
  | _ => none

def step (lib : External μ) (n : Nat) (l : Label μ) (s : State) : Option State :=
  match l with
  | .call .. | .lock .. | .alloc .. | .serialize .. | .queue .. | .receive .. | .free ..
  | .parse .. => callStep lib l s
  | .read .. | .readPoll | .readBody | .readResume | .readDrop => readStep lib l s
  | .event | .gateRead | .gateCmd | .eventRun | .evt .. | .acl .. | .handlerDone =>
    taskStep lib n l s

/-- The reader's buffers are long enough for what they receive. -/
def LongEnough (l : Label μ) (s : State) : Prop :=
  match l, s.reader with
  | .readPoll, .receiving len => ∀ p ∈ s.readChannel.items, p.tag.packet.length ≤ len
  | _, _ => True

/-- The call holds the lock and does not wait for the controller. -/
def CallPc.working : CallPc → Bool
  | .locked _ | .allocated _ _ | .serialized _ _ | .answered _ _ | .freed _ => true
  | _ => false

def CallPc.inFlight : CallPc → Bool
  | .waiting _ => true
  | _ => false

/-- What each step does, one case for each way it can go. -/
inductive Effect (lib : External μ) (n : Nat) (s : State) : Label μ → State → Prop
  | call (i : CallId) (cmd : Cmd) : s.calls i = .absent →
      Effect lib n s (.call i cmd) (s.setCall i (.locking cmd))
  | lock (i : CallId) (cmd : Cmd) : s.calls i = .locking cmd → s.cmdLock = none →
      Effect lib n s (.lock i) { s.setCall i (.locked cmd) with cmdLock := some i }
  | work (l : Label μ) (i : CallId) (pc : CallPc) (freed : List Ptr) :
      (s.calls i).working = true → pc.working = true →
      Effect lib n s l { s.setCall i pc with freed := freed }
  | return (l : Label μ) (i : CallId) (r : Except Error Event) (freed : List Ptr) :
      (s.calls i).working = true → Effect lib n s l { s.return i r with freed := freed }
  | queue (i : CallId) (ptr : Ptr) : (s.calls i).working = true →
      Effect lib n s (.queue i 0)
        { s.setCall i (.waiting ptr) with controller := s.controller ++ [i] }
  | receive (i : CallId) (ptr : Ptr) (data : Bytes) (tag : Tag) : s.calls i = .waiting ptr →
      s.cmdSignal.items = [(data, tag)] → Effect lib n s (.receive i)
        { s.setCall i (.answered ptr data) with
          cmdSignal := Channel.empty
          taken := s.taken ++ [(i, tag)] }
  | read (len : Nat) : s.reader = .idle →
      Effect lib n s (.read len) { s with reader := .receiving len }
  | readPoll (len : Nat) (p : HostPacket Tag) : s.reader = .receiving len →
      s.readChannel.items = [p] →
      Effect lib n s .readPoll { s with reader := .holding len p, readChannel := Channel.empty }
  | readForward (len : Nat) (p : HostPacket Tag) (buf : Bytes) (ch : Channel (Bytes × Tag) 1) :
      s.reader = .holding len p → Controller.readBody lib len p = some (buf, .forward) →
      s.cmdSignal.items = [] → ch.items = [(p.data, p.tag)] →
      Effect lib n s .readBody { s with
        reader := .receiving len
        cmdSignal := ch
        left := s.left ++ [(p.tag, .signal p.data)] }
  | readSuspend (len : Nat) (p : HostPacket Tag) (buf : Bytes) : s.reader = .holding len p →
      Controller.readBody lib len p = some (buf, .forward) → s.cmdSignal.items ≠ [] →
      Effect lib n s .readBody { s with reader := .suspended len p }
  | readReturn (len : Nat) (p : HostPacket Tag) (buf : Bytes)
      (r : Except OsError ControllerToHostPacket) : s.reader = .holding len p →
      Controller.readBody lib len p = some (buf, .done r) →
      Effect lib n s .readBody { s with
        reader := .idle
        left := s.left ++ [(p.tag, .result buf r)] }
  | readResume (len : Nat) (p : HostPacket Tag) (ch : Channel (Bytes × Tag) 1) :
      s.reader = .suspended len p → s.cmdSignal.items = [] → ch.items = [(p.data, p.tag)] →
      Effect lib n s .readResume { s with
        reader := .receiving len
        cmdSignal := ch
        left := s.left ++ [(p.tag, .signal p.data)] }
  | readDrop (len : Nat) : s.reader = .receiving len →
      Effect lib n s .readDrop { s with reader := .idle }
  | readLose (len : Nat) (p : HostPacket Tag) : s.reader = .suspended len p →
      Effect lib n s .readDrop { s with
        reader := .idle
        left := s.left ++ [(p.tag, .dropped)] }
  | event : s.task = .getting → Effect lib n s .event { s with task := .gate false false }
  | gateRead (read cmd : Bool) : s.task = .gate read cmd → s.readChannel.items = [] →
      Effect lib n s .gateRead { s with task := .gate true cmd }
  | gateCmd (read cmd : Bool) : s.task = .gate read cmd → s.cmdSignal.items = [] →
      Effect lib n s .gateCmd { s with task := .gate read true }
  | eventRun : s.task = .gate true true →
      Effect lib n s .eventRun { s with task := .running, runs := s.runs + 1 }
  | accept (l : Label μ) (tag : Tag) (data : Bytes) (ch : Channel (HostPacket Tag) 1)
      (freed : List Ptr) :
      s.task = .running → tag.run = s.runs → Complete lib tag.kind tag.packet →
      copyToFront n tag.packet = some data →
      (∀ i, tag.origin = some i → i ∈ s.controller) →
      (tag.origin.isSome =
        (lib.fromHciBytesWithKind tag.kind tag.packet).any (·.isResponse)) →
      s.readChannel.items = [] → ch.items = [⟨tag.kind, data, tag⟩] →
      Effect lib n s l { s with
        readChannel := ch
        controller := remaining tag.origin s.controller
        accepted := s.accepted ++ [tag]
        freed := freed }
  | discard (l : Label μ) (origin : Option CallId) : s.task = .running →
      (∀ i, origin = some i → ∃ buf, l = .evt (some i) buf ∧
        (s.readChannel.items = [] → isNoOp lib buf.bytes = true)) →
      Effect lib n s l { s with controller := remaining origin s.controller }
  | handlerDone : s.task = .running → Effect lib n s .handlerDone { s with task := .getting }

theorem callStep_effect {l : Label μ} {s t : State} (h : callStep lib l s = some t) :
    Effect lib n s l t := by
  cases l <;> simp only [callStep, reduceCtorEq] at h
  case call i cmd =>
    split at h
    · rename_i hpc
      cases h
      exact .call i cmd hpc
    · cases h
  case lock i =>
    split at h
    · rename_i cmd hpc hlock
      cases h
      exact .lock i cmd hpc hlock
    · cases h
  case alloc i ptr =>
    split at h
    · rename_i hpc
      cases h
      exact .return _ i _ _ (by rw [hpc]; rfl)
    · rename_i hpc
      cases h
      exact .work _ i _ _ (by rw [hpc]; rfl) rfl
    · cases h
  case serialize i =>
    split at h
    · rename_i hpc
      split at h
      · cases h
        exact .return _ i _ _ (by rw [hpc]; rfl)
      · obtain ⟨cmdData, -, he⟩ := Option.map_eq_some_iff.mp h
        cases he
        exact .work _ i _ _ (by rw [hpc]; rfl) rfl
    · cases h
  case queue i ret =>
    split at h
    · rename_i ptr _ hpc
      split at h
      · cases h
        exact .return _ i _ _ (by rw [hpc]; rfl)
      · rename_i hret
        cases h
        rw [Decidable.not_not.mp hret]
        exact .queue i ptr (by rw [hpc]; rfl)
    · cases h
  case receive i =>
    split at h
    · rename_i ptr data tag ch hpc hrecv
      cases h
      obtain ⟨hitems, rfl⟩ := Channel.tryReceive_one.mp hrecv
      exact .receive i ptr data tag hpc hitems
    · cases h
  case free i =>
    split at h
    · rename_i hpc
      cases h
      exact .work _ i _ _ (by rw [hpc]; rfl) rfl
    · cases h
  case parse i =>
    split at h
    · rename_i hpc
      obtain ⟨r, -, he⟩ := Option.map_eq_some_iff.mp h
      cases he
      exact .return _ i _ _ (by rw [hpc]; rfl)
    · cases h

theorem readStep_effect {l : Label μ} {s t : State} (h : readStep lib l s = some t) :
    Effect lib n s l t := by
  cases l <;> simp only [readStep, reduceCtorEq] at h
  case read len =>
    split at h
    · rename_i hpc
      cases h
      exact .read len hpc
    · cases h
  case readPoll =>
    split at h
    · rename_i len p ch hpc hrecv
      cases h
      obtain ⟨hitems, rfl⟩ := Channel.tryReceive_one.mp hrecv
      exact .readPoll len p hpc hitems
    · cases h
  case readBody =>
    split at h
    · rename_i len p hpc
      split at h
      · rename_i buf hbody
        split at h
        · rename_i ch hsend
          cases h
          obtain ⟨hs, hch⟩ := Channel.trySend_one.mp hsend
          exact .readForward len p buf ch hpc hbody hs hch
        · rename_i hsend
          cases h
          exact .readSuspend len p buf hpc hbody (Channel.trySend_one_none.mp hsend)
      · rename_i buf r hbody
        cases h
        exact .readReturn len p buf r hpc hbody
      · cases h
    · cases h
  case readResume =>
    split at h
    · rename_i len p hpc
      obtain ⟨ch, hsend, he⟩ := Option.map_eq_some_iff.mp h
      cases he
      obtain ⟨hs, hch⟩ := Channel.trySend_one.mp hsend
      exact .readResume len p ch hpc hs hch
    · cases h
  case readDrop =>
    split at h
    · rename_i len hpc
      cases h
      exact .readDrop len hpc
    · rename_i len p hpc
      cases h
      exact .readLose len p hpc
    · cases h

theorem permitted_origin {origin : Option CallId} {buf : BleHciEv} {s : State}
    (h : Permitted lib origin buf s = true) (hop : isNoOp lib buf.bytes = false) :
    (∀ i, origin = some i → i ∈ s.controller) ∧
      origin.isSome = (lib.fromHciBytesWithKind .event buf.bytes).any (·.isResponse) := by
  cases origin with
  | none =>
    simp only [Permitted, hop, Bool.false_or, Bool.not_eq_true'] at h
    exact ⟨nofun, by rw [h]; rfl⟩
  | some i =>
    simp only [Permitted, Bool.and_eq_true, decide_eq_true_eq] at h
    refine ⟨?_, by rw [h.2]; rfl⟩
    rintro j hj
    cases hj
    exact h.1

theorem taskStep_effect (hlib : lib.Documented) {l : Label μ} {s t : State}
    (h : taskStep lib n l s = some t) : Effect lib n s l t := by
  cases l <;> simp only [taskStep, reduceCtorEq] at h
  case event =>
    obtain ⟨hpc, he⟩ := Option.ite_none_right_eq_some.mp h
    cases he
    exact .event hpc
  case gateRead =>
    split at h
    · rename_i read cmd hpc
      obtain ⟨hready, he⟩ := Option.ite_none_right_eq_some.mp h
      cases he
      exact .gateRead read cmd hpc ((readyToSend_iff _).mp hready)
    · cases h
  case gateCmd =>
    split at h
    · rename_i read cmd hpc
      obtain ⟨hready, he⟩ := Option.ite_none_right_eq_some.mp h
      cases he
      exact .gateCmd read cmd hpc ((readyToSend_iff _).mp hready)
    · cases h
  case eventRun =>
    obtain ⟨hpc, he⟩ := Option.ite_none_right_eq_some.mp h
    cases he
    exact .eventRun hpc
  case evt origin buf =>
    obtain ⟨⟨hpc, hpermitted⟩, he⟩ := Option.ite_none_right_eq_some.mp h
    obtain ⟨⟨ch, ret⟩, himpl, he⟩ := Option.map_eq_some_iff.mp he
    cases he
    obtain ⟨data, hdata, hcases⟩ := evtImpl_cases himpl
    have hfront : isNoOp lib data = isNoOp lib buf.bytes := by
      obtain ⟨-, rfl⟩ := copyToFront_eq_some.mp hdata
      exact isNoOp_front hlib (buf.complete lib) _
    rw [hfront] at hcases
    obtain ⟨hop, rfl, rfl⟩ | ⟨hop, hempty, hch, rfl⟩ | ⟨hop, hfull, rfl, rfl⟩ := hcases
    · simp only [hop, not_true_eq_false, and_false, if_false]
      exact .discard _ origin hpc (fun i hi => ⟨buf, by rw [hi], fun _ => hop⟩)
    · simp only [hop, Except.isOk, Except.toBool, Bool.false_eq_true, not_false_eq_true, and_self,
        if_true]
      obtain ⟨hmem, hresp⟩ := permitted_origin hpermitted hop
      exact .accept _ ⟨.event, buf.bytes, s.runs, origin⟩ data ch s.freed hpc rfl
        (buf.complete lib) hdata hmem hresp hempty hch
    · simp only [Except.isOk, Except.toBool, Bool.false_eq_true, false_and, if_false]
      exact .discard _ origin hpc (fun i hi => ⟨buf, by rw [hi], fun he => absurd he hfull⟩)
  case acl ptr om =>
    obtain ⟨hpc, he⟩ := Option.ite_none_right_eq_some.mp h
    obtain ⟨⟨ch, ret, freed⟩, himpl, he⟩ := Option.map_eq_some_iff.mp he
    cases he
    obtain ⟨-, rfl, rfl, rfl⟩ | ⟨bytes, data, hparse, hdata, hcases⟩ := aclImpl_cases himpl
    · exact .discard _ none hpc nofun
    · obtain ⟨hempty, hch, rfl, rfl⟩ | ⟨-, rfl, rfl, rfl⟩ := hcases
      · obtain ⟨rfl, hcomplete, hsome⟩ := parseAcl_eq_some hlib hparse
        refine .accept _ ⟨.aclData, suppliedAcl lib om, s.runs, none⟩ data ch (s.freed ++ [ptr]) hpc
          rfl hcomplete hdata nofun ?_ hempty hch
        obtain ⟨p, hp⟩ := Option.isSome_iff_exists.mp hsome
        rw [hp]
        exact (lib.aclData_isResponse hp).symm
      · exact .discard _ none hpc nofun
  case handlerDone =>
    obtain ⟨hpc, he⟩ := Option.ite_none_right_eq_some.mp h
    cases he
    exact .handlerDone hpc

theorem step_effect (hlib : lib.Documented) {l : Label μ} {s t : State}
    (h : step lib n l s = some t) : Effect lib n s l t := by
  unfold step at h
  split at h
  all_goals first
    | exact callStep_effect h
    | exact readStep_effect h
    | exact taskStep_effect hlib h

/-- The buffer that a call has to release. -/
def bufferOf : CallPc → Option Ptr
  | .allocated _ ptr => some ptr
  | .serialized ptr _ => some ptr
  | .waiting ptr => some ptr
  | .answered ptr _ => some ptr
  | _ => none

/-- The buffers that the calls in progress have to release. -/
def holds (s : State) : CallId → Option Ptr := bufferOf ∘ s.calls

/-- What a step of `execute_command` does to the buffers. -/
inductive CallMove (s t : State) : Label μ → Prop
  | alloc (i : CallId) (ptr : Ptr) : holds s i = none →
      holds t = Function.update (holds s) i (some ptr) → t.freed = s.freed →
      CallMove s t (.alloc i (some ptr))
  | keep (l : Label μ) : (∀ i ptr, l ≠ .alloc i (some ptr)) →
      holds t = holds s → t.freed = s.freed → CallMove s t l
  | free (l : Label μ) (i : CallId) (ptr : Ptr) : (∀ i ptr, l ≠ .alloc i (some ptr)) →
      holds s i = some ptr → holds t = Function.update (holds s) i none →
      t.freed = s.freed ++ [ptr] → CallMove s t l

theorem holds_update (s : State) (i : CallId) (pc : CallPc) :
    bufferOf ∘ Function.update s.calls i pc = Function.update (holds s) i (bufferOf pc) :=
  Function.comp_update ..

theorem holds_same {s : State} {i : CallId} {pc : CallPc}
    (h : bufferOf pc = bufferOf (s.calls i)) :
    bufferOf ∘ Function.update s.calls i pc = holds s := by
  rw [holds_update]
  exact Function.update_eq_self_iff.mpr h

theorem callStep_move {l : Label μ} {s t : State}
    (h : callStep lib l s = some t) : CallMove s t l := by
  cases l <;> simp only [callStep, reduceCtorEq] at h
  case call i cmd =>
    split at h
    · rename_i hpc
      cases h
      exact .keep _ nofun (holds_same (by rw [hpc]; rfl)) rfl
    · cases h
  case lock i =>
    split at h
    · rename_i cmd hpc hlock
      cases h
      exact .keep _ nofun (holds_same (by rw [hpc]; rfl)) rfl
    · cases h
  case alloc i ptr =>
    split at h
    · rename_i hpc
      cases h
      exact .keep _ nofun (holds_same (by rw [hpc]; rfl)) rfl
    · rename_i hpc
      cases h
      exact .alloc i _ (by simp [holds, hpc, bufferOf]) (holds_update ..) rfl
    · cases h
  case serialize i =>
    split at h
    · rename_i cmd ptr hpc
      split at h
      · cases h
        exact .free _ i ptr nofun (by simp [holds, hpc, bufferOf]) (holds_update ..) rfl
      · obtain ⟨cmdData, -, he⟩ := Option.map_eq_some_iff.mp h
        cases he
        exact .keep _ nofun (holds_same (by rw [hpc]; rfl)) rfl
    · cases h
  case queue i ret =>
    split at h
    · rename_i ptr _ hpc
      split at h
      · cases h
        exact .free _ i ptr nofun (by simp [holds, hpc, bufferOf]) (holds_update ..) rfl
      · cases h
        exact .keep _ nofun (holds_same (by rw [hpc]; rfl)) rfl
    · cases h
  case receive i =>
    split at h
    · rename_i hpc hrecv
      cases h
      exact .keep _ nofun (holds_same (by rw [hpc]; rfl)) rfl
    · cases h
  case free i =>
    split at h
    · rename_i ptr data hpc
      cases h
      exact .free _ i ptr nofun (by simp [holds, hpc, bufferOf]) (holds_update ..) rfl
    · cases h
  case parse i =>
    split at h
    · rename_i hpc
      obtain ⟨r, -, he⟩ := Option.map_eq_some_iff.mp h
      cases he
      exact .keep _ nofun (holds_same (by rw [hpc]; rfl)) rfl
    · cases h

end Transport
