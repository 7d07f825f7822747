import ApacheNimble.CommandAgreement
import ApacheNimble.ReadRouting

/-!
# Calls that are dropped

The future of a call can be dropped where it waits for the lock or for
`CMD_SIGNAL`. Its guard gives the lock back, and nothing else is undone: the
command stays in the controller, and no other call knows the buffer.
-/
namespace Cancellation

open Hci Fifo Controller Transition Transport CommandAgreement ReadRouting

variable {μ : Type} {lib : External μ} {n : Nat}

/-- A pointer stands for one allocation. The calls that were dropped are listed
with the buffer that each had to release. -/
structure State where
  base : Transport.State
  acquired : List Ptr
  dropped : List (CallId × Option Ptr)

def start : State := ⟨Transport.start, [], []⟩

inductive Label (μ : Type) where
  | act (l : Transport.Label μ)
  | drop (i : CallId)

/-- The buffers that a step acquires. -/
def acquires : Transport.Label μ → List Ptr
  | .alloc _ (some ptr) => [ptr]
  | .acl ptr _ => [ptr]
  | _ => []

/-- The calls that a step starts. -/
def starts : Transport.Label μ → List CallId
  | .call i _ => [i]
  | _ => []

/-- Buffers and calls get names that have not been used. -/
def Fresh (l : Transport.Label μ) (s : State) : Prop :=
  (∀ ptr ∈ acquires l, ptr ∉ s.acquired) ∧ ∀ i ∈ starts l, i ∉ s.dropped.map (·.1)

instance (l : Transport.Label μ) (s : State) : Decidable (Fresh l s) :=
  inferInstanceAs (Decidable (_ ∧ _))

def dropCall (i : CallId) (s : State) : Option State :=
  match s.base.calls i with
  | .locking _ => some { s with
      base := s.base.setCall i .absent
      dropped := s.dropped ++ [(i, none)] }
  | .waiting ptr => some { s with
      base := { s.base.setCall i .absent with cmdLock := none }
      dropped := s.dropped ++ [(i, some ptr)] }
  | _ => none

def step (lib : External μ) (n : Nat) (l : Label μ) (s : State) : Option State :=
  match l with
  | .act l =>
    if Fresh l s then
      (Transport.step lib n l s.base).map (fun t => { s with
        base := t
        acquired := s.acquired ++ acquires l })
    else none
  | .drop i => dropCall i s

/-- What a call takes from `CMD_SIGNAL`, and what it finds there, is the
response to its own command. The buffer of a dropped call is released once, not
before the controller has answered, and by the time the answer is gone. When
the task waits for `CMD_SIGNAL`, some call waits for it too. -/
structure Safe (s : State) : Prop where
  taken : ∀ x ∈ s.base.taken, x.2.origin = some x.1
  next : ∀ i, (s.base.calls i).inFlight = true → ∀ x ∈ s.base.cmdSignal.items,
    x.2.origin = some i
  late : ∀ i ptr, (i, some ptr) ∈ s.dropped → i ∈ s.base.controller → ptr ∉ s.base.freed
  once : ∀ i ptr, (i, some ptr) ∈ s.dropped → s.base.freed.count ptr ≤ 1
  released : ∀ i ptr, (i, some ptr) ∈ s.dropped → i ∉ outstanding s.base →
    s.base.freed.count ptr = 1
  gate : ∀ read, s.base.task = .gate read false → s.base.cmdSignal.items ≠ [] →
    ∃ i, (s.base.calls i).inFlight = true

/-- No call is dropped while it waits for `CMD_SIGNAL`. -/
def Kept (l : Label μ) (s : State) : Prop :=
  ∀ i, l = .drop i → (s.base.calls i).inFlight = false

/-- The buffers of the reader are long enough, and the controller's answers are
taken into `READ_CHANNEL`. -/
def Served (lib : External μ) (l : Label μ) (s : State) : Prop :=
  ∀ k, l = .act k → LongEnough k s.base ∧ Answered lib k s.base

theorem dropCall_cases {i : CallId} {s t : State} (h : dropCall i s = some t) :
    (∃ cmd, s.base.calls i = .locking cmd ∧ t = { s with
      base := s.base.setCall i .absent
      dropped := s.dropped ++ [(i, none)] }) ∨
    ∃ ptr, s.base.calls i = .waiting ptr ∧ t = { s with
      base := { s.base.setCall i .absent with cmdLock := none }
      dropped := s.dropped ++ [(i, some ptr)] } := by
  unfold dropCall at h
  split at h
  · rename_i cmd hpc
    cases h
    exact .inl ⟨cmd, hpc, rfl⟩
  · rename_i ptr hpc
    cases h
    exact .inr ⟨ptr, hpc, rfl⟩
  · cases h

section Agreement

variable {s t : Transport.State} {l : Transport.Label μ}

/-- The reader as if its buffer had been long enough. -/
def lengthened : ReaderPc → ReaderPc
  | .holding len p => .holding (max len p.tag.packet.length) p
  | r => r

def lengthen (s : Transport.State) : Transport.State := { s with reader := lengthened s.reader }

@[simp] theorem hand_lengthened (r : ReaderPc) : hand (lengthened r) = hand r := by
  cases r <;> rfl

@[simp] theorem inTransit_lengthen (s : Transport.State) :
    inTransit (lengthen s) = inTransit s := by
  simp only [inTransit, lengthen, hand_lengthened]

@[simp] theorem outstanding_lengthen (s : Transport.State) :
    outstanding (lengthen s) = outstanding s := by
  simp only [outstanding, inTransit_lengthen]
  rfl

/-- A buffer that is too short for the packet ends the read. -/
theorem readBody_short (htrunc : RefusesTruncated lib) {p : HostPacket Tag} {len : Nat}
    {buf : Bytes} {b : ReadBody} (hp : Sound lib n p) (hlen : len < p.tag.packet.length)
    (h : Controller.readBody lib len p = some (buf, b)) : b = .done (.error .invalid) := by
  obtain ⟨kind, data, tag⟩ := p
  obtain rfl : kind = tag.kind := hp.kind
  have hdata : copyToFront n tag.packet = some data := hp.data
  obtain ⟨hfits, rfl⟩ := copyToFront_eq_some.mp hdata
  obtain ⟨buf', hcut⟩ := readBody_cut (p := ⟨tag.kind, tag.packet, hp.complete, hfits⟩) htrunc
    (Nat.le_of_lt (Nat.lt_of_lt_of_le hlen hfits)) hlen
  have hsame : some (buf, b) = some (buf', .done (.error .invalid)) := h.symm.trans hcut
  cases hsame
  rfl

/-- A packet that the reader forwards fits into its buffer. -/
theorem forward_fits (htrunc : RefusesTruncated lib) (h : Agreement lib n (lengthen s))
    {p : HostPacket Tag} {len : Nat} {buf : Bytes} (hreader : s.reader = .holding len p)
    (hbody : Controller.readBody lib len p = some (buf, .forward)) :
    (lengthen s).reader = .holding len p := by
  have hp : Sound lib n p := by
    refine h.sound p ?_
    rw [inTransit_lengthen]
    simp [inTransit, hand, hreader]
  by_cases hlen : len < p.tag.packet.length
  · cases readBody_short htrunc hp hlen hbody
  · simp [lengthen, lengthened, hreader, Nat.max_eq_left (Nat.le_of_not_lt hlen)]

theorem idle_lengthen (h : Agreement lib n (lengthen s)) {r : ReaderPc}
    (hhand : hand r = hand s.reader) (hr : hand r = []) :
    Agreement lib n { lengthen s with reader := r } :=
  idle_agreement h (hhand.trans (hand_lengthened s.reader).symm) hr

/-- A read that returns passes nothing on, whether or not the packet fits. -/
theorem readReturn_lengthen (h : Agreement lib n (lengthen s)) {p : HostPacket Tag} {len : Nat}
    {left : List (Tag × Departure)} (hreader : s.reader = .holding len p) :
    Agreement lib n { s with reader := .idle, left := left } := by
  refine h.of_parties rfl rfl rfl ?_ h.answer ?_ nofun nofun
  · rw [outstanding_lengthen]
    refine List.Sublist.subperm (List.Sublist.append_right (List.Sublist.append_left ?_ _) _)
    refine List.Sublist.filterMap _ ?_
    simp only [inTransit, hand, hreader, List.nil_append, List.cons_append]
    exact List.sublist_cons_self _ _
  · intro q hq
    exact h.sound q (List.mem_append_right _ hq)

theorem readPoll_lengthen (h : Agreement lib n (lengthen s)) {p : HostPacket Tag} {len : Nat}
    (hreader : s.reader = .receiving len) (hitems : s.readChannel.items = [p]) :
    Agreement lib n (lengthen { s with
      reader := .holding len p
      readChannel := Channel.empty }) := by
  have hlonger : Agreement lib n { lengthen s with
      reader := .receiving (max len p.tag.packet.length) } :=
    idle_lengthen h (by rw [hreader]; rfl) rfl
  refine readPoll_agreement hlonger ?_ rfl hitems
  intro q hq
  cases List.mem_singleton.mp ((show s.readChannel.items = [p] from hitems) ▸ hq)
  exact Nat.le_max_right _ _

/-- What the steps of the transport keep, with buffers of any lengths. -/
theorem step_lengthen (hlib : lib.Documented) (htrunc : RefusesTruncated lib)
    (h : Agreement lib n (lengthen s)) (hstep : Transport.step lib n l s = some t) :
    Agreement lib n (lengthen t) := by
  cases step_effect hlib hstep with
  | call i cmd hpc => exact call_agreement h cmd hpc
  | lock i cmd hpc hfree => exact lock_agreement h hpc hfree
  | work l i pc freed hi => exact work_agreement h hi
  | «return» l i r freed hi => exact return_agreement h r hi
  | queue i ptr hi => exact queue_agreement h ptr hi
  | receive i ptr data tag hpc hsignal => exact receive_agreement h hpc hsignal
  | read len hreader => exact idle_lengthen h (by rw [hreader]; rfl) rfl
  | readPoll len p hreader hitems => exact readPoll_lengthen h hreader hitems
  | readForward len p buf ch hreader hbody hsignal hch =>
    exact readForward_agreement hlib h (forward_fits htrunc h hreader hbody) hbody hch
  | readSuspend len p buf hreader hbody hsignal =>
    have hfits := forward_fits htrunc h hreader hbody
    exact absurd (h.signal_empty hfits ((h.forward_iff hlib hfits hbody).2.1.mp rfl)) hsignal
  | readReturn len p buf r hreader hbody => exact readReturn_lengthen h hreader
  | readResume len p ch hreader =>
    exact absurd (by simp [lengthen, lengthened, hreader]) (h.flows len p)
  | readDrop len hreader => exact idle_lengthen h (by rw [hreader]; rfl) rfl
  | readLose len p hreader =>
    exact absurd (by simp [lengthen, lengthened, hreader]) (h.flows len p)
  | accept l tag data ch freed hpc hrun hcomplete hdata horigin hresp hempty hch =>
    exact accept_agreement h ⟨rfl, hcomplete, hdata, hresp⟩ horigin hempty hch
  | discard l origin => exact discard_agreement h origin
  | event | gateRead | gateCmd | eventRun | handlerDone =>
    exact h.of_parties rfl rfl rfl (List.Subperm.refl _) h.answer h.sound h.fits h.flows

/-- A call that holds no lock leaves. -/
theorem leave_agreement (h : Agreement lib n s) {i : CallId} {cmd : Cmd}
    (hpc : s.calls i = .locking cmd) : Agreement lib n (s.setCall i .absent) :=
  h.of_call (by rw [hpc]; rfl) (setCall_holder h (by simp [CallPc.working, CallPc.inFlight]))

end Agreement

section Buffers

variable {s t : Transport.State} {l : Transport.Label μ}

/-- What a step of the transport does to the buffers. -/
inductive Move (s t : Transport.State) (l : Transport.Label μ) : Prop
  | keep : holds t = holds s → t.freed = s.freed → Move s t l
  | alloc (i : CallId) (ptr : Ptr) : acquires l = [ptr] →
      holds t = Function.update (holds s) i (some ptr) → t.freed = s.freed → Move s t l
  | free (i : CallId) (ptr : Ptr) : holds s i = some ptr →
      holds t = Function.update (holds s) i none → t.freed = s.freed ++ [ptr] → Move s t l
  | pass (ptr : Ptr) : acquires l = [ptr] → holds t = holds s → t.freed = s.freed ++ [ptr] →
      Move s t l

theorem readStep_move (h : readStep lib l s = some t) : Move s t l := by
  suffices hsame : t.calls = s.calls ∧ t.freed = s.freed from
    .keep (by rw [holds, holds, hsame.1]) hsame.2
  cases l <;> simp only [readStep, reduceCtorEq] at h
  case readResume =>
    split at h
    · obtain ⟨ch, -, he⟩ := Option.map_eq_some_iff.mp h
      cases he
      exact ⟨rfl, rfl⟩
    · cases h
  all_goals
    repeat' split at h
    all_goals
      cases h
      try exact ⟨rfl, rfl⟩

theorem taskStep_move (h : taskStep lib n l s = some t) : Move s t l := by
  cases l <;> simp only [taskStep, reduceCtorEq] at h
  case evt origin buf =>
    obtain ⟨-, he⟩ := Option.ite_none_right_eq_some.mp h
    obtain ⟨r, -, he⟩ := Option.map_eq_some_iff.mp he
    cases he
    exact .keep rfl rfl
  case acl ptr om =>
    obtain ⟨-, he⟩ := Option.ite_none_right_eq_some.mp h
    obtain ⟨⟨ch, ret, freed⟩, -, he⟩ := Option.map_eq_some_iff.mp he
    cases he
    cases freed with
    | false => exact .keep rfl rfl
    | true => exact .pass ptr rfl rfl rfl
  all_goals
    repeat' split at h
    all_goals
      cases h
      try exact .keep rfl rfl

theorem CallMove.move (h : CallMove s t l) : Move s t l := by
  cases h with
  | alloc i ptr _ hholds hfreed => exact .alloc i ptr rfl hholds hfreed
  | keep _ _ hholds hfreed => exact .keep hholds hfreed
  | free _ i ptr _ hi hholds hfreed => exact .free i ptr hi hholds hfreed

theorem step_move (h : Transport.step lib n l s = some t) : Move s t l := by
  unfold Transport.step at h
  split at h
  all_goals first
    | exact CallMove.move (callStep_move h)
    | exact readStep_move h
    | exact taskStep_move h

/-- A buffer that is held has been held before, or it has just been acquired. -/
theorem Move.holds_of (h : Move s t l) {i : CallId} {ptr : Ptr} (hi : holds t i = some ptr) :
    holds s i = some ptr ∨ ptr ∈ acquires l := by
  cases h with
  | keep hholds =>
    rw [hholds] at hi
    exact .inl hi
  | alloc j new hacq hholds =>
    rw [hholds] at hi
    by_cases hij : i = j
    · subst hij
      rw [Function.update_self] at hi
      rw [hacq, List.mem_singleton]
      exact .inr (Option.some.inj hi).symm
    · rw [Function.update_of_ne hij] at hi
      exact .inl hi
  | free j old hj hholds =>
    rw [hholds] at hi
    by_cases hij : i = j
    · subst hij
      rw [Function.update_self] at hi
      cases hi
    · rw [Function.update_of_ne hij] at hi
      exact .inl hi
  | pass new hacq hholds =>
    rw [hholds] at hi
    exact .inl hi

/-- A buffer is released by the call that held it, or as it has come. -/
theorem Move.freed_of (h : Move s t l) {ptr : Ptr} (hmem : ptr ∈ t.freed) :
    ptr ∈ s.freed ∨ (∃ i, holds s i = some ptr ∧ holds t i = none) ∨
      ptr ∈ acquires l ∧ holds t = holds s := by
  cases h with
  | keep hholds hfreed =>
    rw [hfreed] at hmem
    exact .inl hmem
  | alloc j new hacq hholds hfreed =>
    rw [hfreed] at hmem
    exact .inl hmem
  | free j old hj hholds hfreed =>
    rw [hfreed, List.mem_append, List.mem_singleton] at hmem
    obtain hmem | rfl := hmem
    · exact .inl hmem
    · exact .inr (.inl ⟨j, hj, by rw [hholds, Function.update_self]⟩)
  | pass new hacq hholds hfreed =>
    rw [hfreed, List.mem_append, List.mem_singleton] at hmem
    obtain hmem | rfl := hmem
    · exact .inl hmem
    · exact .inr (.inr ⟨by rw [hacq]; exact List.mem_singleton.mpr rfl, hholds⟩)

/-- Only the holder of the lock holds a buffer. -/
theorem holder_of_holds (h : Agreement lib n s) {i : CallId} {ptr : Ptr}
    (hi : holds s i = some ptr) : s.cmdLock = some i := by
  refine h.holder i ?_
  rw [holds, Function.comp_apply] at hi
  cases hpc : s.calls i <;> simp_all [bufferOf, CallPc.working, CallPc.inFlight]

end Buffers

/-- What holds as long as no call is dropped while it waits for `CMD_SIGNAL`. -/
structure Orderly (lib : External μ) (n : Nat) (s : State) : Prop where
  agreement : Agreement lib n (lengthen s.base)
  held : ∀ i ptr, holds s.base i = some ptr → ptr ∈ s.acquired ∧ ptr ∉ s.base.freed
  freed : ∀ ptr ∈ s.base.freed, ptr ∈ s.acquired
  dropped : ∀ d ∈ s.dropped, d.2 = none

/-- A call has been dropped with its buffer, and no other call releases it. -/
def Stranded (s : State) : Prop :=
  ∃ i ptr, (i, some ptr) ∈ s.dropped ∧ ptr ∈ s.acquired ∧ ptr ∉ s.base.freed ∧
    ∀ j, holds s.base j ≠ some ptr

variable {s t : State} {l : Label μ}

theorem start_orderly : Orderly lib n (start : State) where
  agreement := start_agreement
  held := by simp [start, Transport.start, holds, bufferOf]
  freed := by simp [start, Transport.start]
  dropped := by simp [start]

theorem Orderly.holder (h : Orderly lib n s) {i j : CallId} {ptr : Ptr}
    (hi : holds s.base i = some ptr) (hj : holds s.base j = some ptr) : i = j := by
  have hlock := holder_of_holds (s := lengthen s.base) h.agreement hi
  rw [holder_of_holds (s := lengthen s.base) h.agreement hj] at hlock
  exact (Option.some.inj hlock).symm

/-- Every buffer that a step of the transport leaves to a call is one that it
acquired, and it is not released by then. -/
theorem Orderly.act_held (h : Orderly lib n s) {k : Transport.Label μ} {base : Transport.State}
    (hfresh : Fresh k s) (hmove : Move s.base base k) (i : CallId) (ptr : Ptr)
    (hi : holds base i = some ptr) :
    ptr ∈ s.acquired ++ acquires k ∧ ptr ∉ base.freed := by
  constructor
  · obtain hold | hnew := hmove.holds_of hi
    · exact List.mem_append_left _ (h.held i ptr hold).1
    · exact List.mem_append_right _ hnew
  · intro hmem
    obtain hfreed | ⟨j, hj, hgone⟩ | ⟨hnew, hholds⟩ := hmove.freed_of hmem
    · obtain hold | hnew := hmove.holds_of hi
      · exact (h.held i ptr hold).2 hfreed
      · exact hfresh.1 ptr hnew (h.freed ptr hfreed)
    · obtain hold | hnew := hmove.holds_of hi
      · cases h.holder hold hj
        rw [hi] at hgone
        cases hgone
      · exact hfresh.1 ptr hnew (h.held j ptr hj).1
    · rw [hholds] at hi
      exact hfresh.1 ptr hnew (h.held i ptr hi).1

theorem Orderly.act_freed (h : Orderly lib n s) {k : Transport.Label μ} {base : Transport.State}
    (hmove : Move s.base base k) : ∀ ptr ∈ base.freed, ptr ∈ s.acquired ++ acquires k := by
  intro ptr hmem
  obtain hold | ⟨j, hj, -⟩ | ⟨hnew, -⟩ := hmove.freed_of hmem
  · exact List.mem_append_left _ (h.freed ptr hold)
  · exact List.mem_append_left _ (h.held j ptr hj).1
  · exact List.mem_append_right _ hnew

/-- A call that waits for the lock holds no buffer. -/
theorem holds_leave {i : CallId} {cmd : Cmd} (hpc : s.base.calls i = .locking cmd) :
    holds (s.base.setCall i .absent) = holds s.base :=
  holds_same (by rw [hpc]; rfl)

theorem step_orderly (hlib : lib.Documented) (htrunc : RefusesTruncated lib)
    (h : Orderly lib n s) (hkept : Kept l s) (hstep : step lib n l s = some t) :
    Orderly lib n t := by
  cases l with
  | act k =>
    obtain ⟨hfresh, hstep⟩ := Option.ite_none_right_eq_some.mp hstep
    obtain ⟨base, hbase, rfl⟩ := Option.map_eq_some_iff.mp hstep
    exact ⟨step_lengthen hlib htrunc h.agreement hbase, h.act_held hfresh (step_move hbase),
      h.act_freed (step_move hbase), h.dropped⟩
  | drop i =>
    obtain ⟨cmd, hpc, rfl⟩ | ⟨ptr, hpc, rfl⟩ := dropCall_cases hstep
    · refine ⟨leave_agreement h.agreement hpc, ?_, h.freed, ?_⟩
      · rw [holds_leave hpc]
        exact h.held
      · exact List.forall_mem_append.mpr ⟨h.dropped, List.forall_mem_singleton.mpr rfl⟩
    · have hwaits := hkept i rfl
      rw [hpc] at hwaits
      cases hwaits

theorem Orderly.safe (h : Orderly lib n s) : Safe s := by
  have hnone : ∀ i ptr, (i, some ptr) ∉ s.dropped := by
    intro i ptr hmem
    cases h.dropped _ hmem
  refine ⟨h.agreement.taken, ?_, ?_, ?_, ?_, ?_⟩
  · intro i hi x hx
    exact h.agreement.own_response hi hx
  · exact fun i ptr hmem => absurd hmem (hnone i ptr)
  · exact fun i ptr hmem => absurd hmem (hnone i ptr)
  · exact fun i ptr hmem => absurd hmem (hnone i ptr)
  · intro read _ hitems
    obtain ⟨x, hx⟩ := List.exists_mem_of_ne_nil _ hitems
    obtain ⟨i, hi⟩ := Option.isSome_iff_exists.mp (h.agreement.answer x hx).1
    exact ⟨i, h.agreement.inFlight i (List.mem_append_right _ (List.mem_filterMap.mpr ⟨x, hx, hi⟩))⟩

/-- Nobody releases what no call holds. -/
theorem act_stranded (h : Stranded s) {k : Transport.Label μ} {base : Transport.State}
    (hfresh : Fresh k s) (hmove : Move s.base base k) :
    Stranded { s with base := base, acquired := s.acquired ++ acquires k } := by
  obtain ⟨i, ptr, hdropped, hacquired, hnot, hheld⟩ := h
  refine ⟨i, ptr, hdropped, List.mem_append_left _ hacquired, ?_, ?_⟩
  · intro hmem
    obtain hold | ⟨j, hj, -⟩ | ⟨hnew, -⟩ := hmove.freed_of hmem
    · exact hnot hold
    · exact hheld j hj
    · exact hfresh.1 ptr hnew hacquired
  · intro j hj
    obtain hold | hnew := hmove.holds_of hj
    · exact hheld j hold
    · exact hfresh.1 ptr hnew hacquired

/-- Who holds what is left when a call that waits is dropped. -/
theorem holds_drop {i j : CallId} {ptr : Ptr}
    (h : holds { s.base.setCall i .absent with cmdLock := none } j = some ptr) :
    j ≠ i ∧ holds s.base j = some ptr := by
  have hupdate : Function.update (holds s.base) i none j = some ptr :=
    (congrFun (holds_update s.base i .absent) j).symm.trans h
  have hji : j ≠ i := by
    rintro rfl
    rw [Function.update_self] at hupdate
    cases hupdate
  rw [Function.update_of_ne hji] at hupdate
  exact ⟨hji, hupdate⟩

theorem step_stranded (h : Stranded s) (hstep : step lib n l s = some t) : Stranded t := by
  cases l with
  | act k =>
    obtain ⟨hfresh, hstep⟩ := Option.ite_none_right_eq_some.mp hstep
    obtain ⟨base, hbase, rfl⟩ := Option.map_eq_some_iff.mp hstep
    exact act_stranded h hfresh (step_move hbase)
  | drop m =>
    obtain ⟨i, ptr, hdropped, hacquired, hnot, hheld⟩ := h
    obtain ⟨cmd, hpc, rfl⟩ | ⟨old, hpc, rfl⟩ := dropCall_cases hstep
    · refine ⟨i, ptr, List.mem_append_left _ hdropped, hacquired, hnot, ?_⟩
      rw [holds_leave hpc]
      exact hheld
    · exact ⟨i, ptr, List.mem_append_left _ hdropped, hacquired, hnot,
        fun j hj => hheld j (holds_drop hj).2⟩

/-- A call that is dropped while it waits leaves its buffer behind. -/
theorem drop_stranded (h : Orderly lib n s) (hkept : ¬ Kept l s)
    (hstep : step lib n l s = some t) : Stranded t := by
  simp only [Kept, not_forall, Bool.not_eq_false] at hkept
  obtain ⟨i, rfl, hwaits⟩ := hkept
  obtain ⟨cmd, hpc, rfl⟩ | ⟨ptr, hpc, rfl⟩ := dropCall_cases hstep
  · rw [hpc] at hwaits
    cases hwaits
  · have hi : holds s.base i = some ptr := by simp [holds, hpc, bufferOf]
    obtain ⟨hacquired, hnot⟩ := h.held i ptr hi
    refine ⟨i, ptr, List.mem_append_right _ (List.mem_singleton.mpr rfl), hacquired, hnot, ?_⟩
    intro j hj
    obtain ⟨hji, hj⟩ := holds_drop hj
    exact hji (h.holder hj hi)

/-- Once nothing is on its way, a call dropped with its buffer shows. -/
theorem Stranded.not_safe (h : Stranded s) (hquiet : outstanding s.base = []) : ¬ Safe s := by
  obtain ⟨i, ptr, hdropped, -, hnot, -⟩ := h
  intro hsafe
  have hone := hsafe.released i ptr hdropped (by rw [hquiet]; exact List.not_mem_nil)
  rw [List.count_eq_zero_of_not_mem hnot] at hone
  cases hone

/-- In a run that is served, every call that waits is going to be answered. -/
theorem run_served (hlib : lib.Documented) {ls : List (Label μ)}
    (hkept : Along (step lib n) Kept ls start) (hserved : Along (step lib n) (Served lib) ls start)
    (h : run (step lib n) ls start = some s) : Awaited s.base := by
  suffices hboth : Agreement lib n s.base ∧ Awaited s.base from hboth.2
  refine run_invariant_along (I := fun s => Agreement lib n s.base ∧ Awaited s.base)
    (G := fun l s => Kept l s ∧ Served lib l s) ?_ ⟨start_agreement, ?_⟩ (hkept.and hserved) h
  · rintro l s t ⟨hs, ha⟩ ⟨hk, hv⟩ hstep
    cases l with
    | act k =>
      obtain ⟨hlong, hanswered⟩ := hv k rfl
      obtain ⟨-, hstep⟩ := Option.ite_none_right_eq_some.mp hstep
      obtain ⟨base, hbase, rfl⟩ := Option.map_eq_some_iff.mp hstep
      exact ⟨step_agreement hlib hs hlong hbase, step_awaited hlib hs ha hanswered hbase⟩
    | drop i =>
      obtain ⟨cmd, hpc, rfl⟩ | ⟨ptr, hpc, rfl⟩ := dropCall_cases hstep
      · exact ⟨leave_agreement hs hpc, ha.setCall rfl⟩
      · have hwaits := hk i rfl
        rw [hpc] at hwaits
        cases hwaits
  · simp [Awaited, start, Transport.start, CallPc.inFlight]

/-- As long as no call is dropped while it waits for `CMD_SIGNAL`, dropping
calls does no harm, whatever the order of the steps, and a served run answers
every call that waits. A run that ends with nothing on its way and in which a
call was dropped while it waited has done harm. -/
theorem safe_iff_kept (hlib : lib.Documented) (htrunc : RefusesTruncated lib)
    (ls : List (Label μ)) (s : State) (h : run (step lib n) ls start = some s) :
    (Along (step lib n) Kept ls start → Throughout (step lib n) Safe ls start) ∧
    (Along (step lib n) Kept ls start → Along (step lib n) (Served lib) ls start →
      Awaited s.base) ∧
    (outstanding s.base = [] → Throughout (step lib n) Safe ls start →
      Along (step lib n) Kept ls start) := by
  have hkeep : ∀ l s t, Orderly lib n s → Kept l s → step lib n l s = some t → Orderly lib n t :=
    fun l s t hs hG hstep => step_orderly hlib htrunc hs hG hstep
  refine ⟨?_, fun hkept hserved => run_served hlib hkept hserved h, ?_⟩
  · exact throughout_of_along hkeep (fun _ hs => hs.safe) start_orderly
  · intro hquiet hsafe
    refine along_of_throughout hkeep (fun l s t hs hG hstep => drop_stranded hs hG hstep)
      (fun l s t hs hstep => .inl (step_stranded hs hstep)) start_orderly h ?_ hsafe
    intro hstranded
    exact hstranded.not_safe hquiet (throughout_iff.mp hsafe ls [] s (List.append_nil ls).symm h)

def reset : Cmd := ⟨0x0C03, some [3, 12, 0]⟩

/-- One call is dropped while it waits for the lock, and the other returns. -/
def lockTrace : List (Label Bytes) :=
  [.act (.call 0 reset), .act (.call 1 reset), .act (.lock 0), .drop 1,
    .act (.alloc 0 (some 64)), .act (.serialize 0), .act (.queue 0 0), .act .event, .act .gateRead,
    .act .gateCmd, .act .eventRun, .act (.evt (some 0) resetComplete), .act (.read 260),
    .act .readPoll, .act .readBody, .act (.receive 0), .act (.free 0)]

set_option maxRecDepth 20000 in
theorem safe_iff_kept_lock : ∃ s, run (step plain 260) lockTrace start = some s ∧
    s.dropped = [(1, none)] ∧ Throughout (step plain 260) Safe lockTrace start := by
  have hkept : Along (step plain 260) Kept lockTrace start := by
    iterate 3 refine along_of_step nofun rfl ?_
    refine along_of_step ?_ rfl ?_
    · intro i hi
      cases hi
      rfl
    · iterate 12 refine along_of_step nofun rfl ?_
      exact along_of_step nofun rfl trivial
  exact ⟨_, rfl, rfl,
    (safe_iff_kept plain_documented plain_refusesTruncated lockTrace _ rfl).1 hkept⟩

/-- A call is dropped while it waits for `CMD_SIGNAL`, and its response comes. -/
def waitTrace : List (Label Bytes) :=
  [.act (.call 0 reset), .act (.lock 0), .act (.alloc 0 (some 64)), .act (.serialize 0),
    .act (.queue 0 0), .drop 0, .act .event, .act .gateRead, .act .gateCmd, .act .eventRun,
    .act (.evt (some 0) resetComplete), .act .handlerDone, .act (.read 260), .act .readPoll,
    .act .readBody, .act .event, .act .gateRead]

/-- The next call takes it. -/
def nextTrace : List (Label Bytes) :=
  [.act (.call 1 reset), .act (.lock 1), .act (.alloc 1 (some 128)), .act (.serialize 1),
    .act (.queue 1 0), .act (.receive 1)]

set_option maxRecDepth 20000 in
/-- The task waits at its gate while there is no call, the next call takes the
response to the command of the dropped one, and the buffer stays allocated. -/
theorem response_shifted : ∃ s t, run (step plain 260) waitTrace start = some s ∧
    s.base.task = .gate true false ∧ s.base.cmdSignal.items ≠ [] ∧
    (∀ i, s.base.calls i = .absent) ∧
    run (step plain 260) nextTrace s = some t ∧
    t.base.taken.map (fun x => (x.1, x.2.origin)) = [(1, some 0)] ∧
    (0, some 64) ∈ t.dropped ∧ t.base.freed = [] ∧ ¬ Safe s ∧ ¬ Safe t := by
  refine ⟨_, _, rfl, rfl, nofun, ?_, rfl, rfl, List.mem_singleton.mpr rfl, rfl, ?_, ?_⟩
  · intro i
    cases i with
    | zero => rfl
    | succ i => rfl
  · intro hsafe
    obtain ⟨i, hi⟩ := hsafe.gate true rfl nofun
    cases i with
    | zero => cases hi
    | succ i => cases hi
  · intro hsafe
    cases hsafe.taken _ (List.mem_singleton.mpr rfl)

end Cancellation
