import ApacheNimble.Ledger
import ApacheNimble.Transport

/-!
# The buffers of the transport

Every buffer that is allocated or received gets a pointer of its own, and the
account names its owner: the call of `execute_command` that allocated it, or a
function that returns at once. The other parties may do anything to the
channels.
-/
namespace Buffers

open Hci Fifo Controller Transition Transport Ledger

variable {μ : Type} {lib : External μ} {n : Nat}

structure State where
  transport : Transport.State
  acquired : List (Ptr × Option CallId)
  handedOver : List Ptr

def start : State := ⟨Transport.start, [], []⟩

/-- How often each buffer has been released or handed over. Freeing a null
chain frees nothing. -/
def account (s : State) : Account Ptr (Option CallId) where
  acquired := s.acquired
  times b := if b = nullMut then 0 else (s.transport.freed ++ s.handedOver).count b

/-- The outcomes of allocating, serialising and queueing are arbitrary, and so
is what is delivered. -/
inductive Label (μ : Type) where
  | command (l : Transport.Label μ)
  | channels (readChannel : Channel (HostPacket Tag) 1) (cmdSignal : Channel (Bytes × Tag) 1)
  | evt (ptr : Ptr) (response : Option CallId) (buf : BleHciEv)
  | acl (ptr : Ptr) (om : μ)
  | writeAclData (om : Ptr) (serialized : Except OsError Unit) (ret : Int)
  | writeIsoData (om : Ptr) (serialized : Except OsError Unit) (ret : Int)

def Fresh (s : State) (ptr : Ptr) : Prop := ptr ≠ nullMut ∧ ptr ∉ s.acquired.map (·.1)

instance (s : State) (ptr : Ptr) : Decidable (Fresh s ptr) :=
  inferInstanceAs (Decidable (_ ∧ _))

/-- A response arrives in the buffer of the command it answers, any other event
in a buffer of its own. -/
def Arrives (s : State) (ptr : Ptr) : Option CallId → Prop
  | some i => (s.transport.calls i).inFlight = true ∧ bufferOf (s.transport.calls i) = some ptr
  | none => Fresh s ptr

instance (s : State) (ptr : Ptr) : (response : Option CallId) → Decidable (Arrives s ptr response)
  | none => inferInstanceAs (Decidable (Fresh s ptr))
  | some _ => inferInstanceAs (Decidable (_ ∧ _))

/-- A chain has been allocated, unless it is null, and written. -/
def write (om : Ptr) (w : Written) (s : State) : Option State :=
  if om = nullMut ∨ Fresh s om then
    some { s with
      transport := { s.transport with freed := s.transport.freed ++ w.freed }
      acquired := if om = nullMut then s.acquired else s.acquired ++ [(om, none)]
      handedOver := s.handedOver ++ w.handedOver }
  else none

def step (lib : External μ) (n : Nat) (l : Label μ) (s : State) : Option State :=
  match l with
  | .command (.alloc i (some ptr)) =>
    if Fresh s ptr then
      (callStep lib (.alloc i (some ptr)) s.transport).map (fun t => { s with
        transport := t
        acquired := s.acquired ++ [(ptr, some i)] })
    else none
  | .command l => (callStep lib l s.transport).map (fun t => { s with transport := t })
  | .channels readChannel cmdSignal => some { s with
      transport := { s.transport with readChannel := readChannel, cmdSignal := cmdSignal } }
  | .evt ptr response buf =>
    if Arrives s ptr response then
      (bleTransportToHsEvtImpl lib n ⟨.event, buf.bytes, s.transport.runs, response⟩ buf
          s.transport.readChannel).map (fun r => { s with
        transport := { s.transport with readChannel := r.1 }
        acquired := if response.isSome then s.acquired else s.acquired ++ [(ptr, none)] })
    else none
  | .acl ptr om =>
    if Fresh s ptr then
      (bleTransportToHsAclImpl lib n ⟨.aclData, suppliedAcl lib om, s.transport.runs, none⟩ om
          s.transport.readChannel).map (fun r => { s with
        transport := { s.transport with
          readChannel := r.1
          freed := if r.2.2 then s.transport.freed ++ [ptr] else s.transport.freed }
        acquired := s.acquired ++ [(ptr, none)] })
    else none
  | .writeAclData om serialized ret => write om (writeAclData om serialized ret) s
  | .writeIsoData om serialized ret => write om (writeIsoData om serialized ret) s

/-- The function that owns a buffer has returned. -/
def Returned (s : State) : Option CallId → Prop
  | some i => ∃ r, s.transport.calls i = .returned r
  | none => True

/-- Every buffer whose owner has returned has been released or handed over
once, and none has been more often. -/
def Conserved (s : State) : Prop := Exact (Returned s) (account s)

/-- Every event delivered is the response to a command. Every data packet is
complete and finds room. -/
def Taken (lib : External μ) (n : Nat) (l : Label μ) (s : State) : Prop :=
  match l with
  | .evt _ response _ => response.isSome = true
  | .acl _ om => (∃ bytes, parseAcl lib n om = some (some bytes)) ∧
      s.transport.readChannel.items = []
  | _ => True

/-- What a step that keeps the account does to it. -/
inductive Move (s t : State) : Prop
  | quiet : holds t.transport = holds s.transport → account t = account s → Move s t
  | borrow (i : CallId) (b : Ptr) : Fresh s b → holds s.transport i = none →
      holds t.transport = Function.update (holds s.transport) i (some b) →
      account t = acquire b (some i) (account s) → Move s t
  | release (i : CallId) (b : Ptr) : holds s.transport i = some b →
      holds t.transport = Function.update (holds s.transport) i none →
      account t = settle b (account s) → Move s t
  | pass (b : Ptr) : Fresh s b → holds t.transport = holds s.transport →
      account t = settle b (acquire b none (account s)) → Move s t

/-- A step that receives a buffer and returns without releasing it. -/
inductive Leak (s t : State) : Prop
  | leak (b : Ptr) : Fresh s b → holds t.transport = holds s.transport →
      account t = acquire b none (account s) → Leak s t

theorem Fresh.not_known {s : State} {b : Ptr} (h : Fresh s b) : ¬ Known (account s) b := by
  rw [known_iff]
  exact h.2

/-- The account is one release ahead. -/
theorem account_settle {s t : State} {b : Ptr} (hb : b ≠ nullMut) (hacq : t.acquired = s.acquired)
    (hlog : ∀ x, (t.transport.freed ++ t.handedOver).count x =
      (s.transport.freed ++ s.handedOver).count x + if x = b then 1 else 0) :
    account t = settle b (account s) := by
  apply Account.ext
  · exact hacq
  · funext x
    simp only [account, settle, hlog]
    by_cases hx : x = nullMut
    · have hxb : x ≠ b := by
        rintro rfl
        exact hb hx
      simp [hx, Ne.symm hb]
    · simp [hx]

theorem account_acquire {s t : State} {b : Ptr} {o : Option CallId}
    (hacq : t.acquired = s.acquired ++ [(b, o)])
    (hfreed : t.transport.freed = s.transport.freed) (hover : t.handedOver = s.handedOver) :
    account t = acquire b o (account s) := by
  simp [account, acquire, hacq, hfreed, hover]

theorem account_pass {s t : State} {b : Ptr} (hb : b ≠ nullMut)
    (hacq : t.acquired = s.acquired ++ [(b, none)])
    (hlog : ∀ x, (t.transport.freed ++ t.handedOver).count x =
      (s.transport.freed ++ s.handedOver).count x + if x = b then 1 else 0) :
    account t = settle b (acquire b none (account s)) :=
  account_settle (s := { s with acquired := s.acquired ++ [(b, none)] }) hb hacq hlog

theorem count_append_singleton (l : List Ptr) (b x : Ptr) :
    (l ++ [b]).count x = l.count x + if x = b then 1 else 0 := by
  by_cases hx : x = b
  · simp [hx]
  · simp [hx, Ne.symm hx]

theorem command_move {s t : State} {k : Transport.Label μ}
    (hnull : ∀ i b, holds s.transport i = some b → b ≠ nullMut)
    (h : step lib n (.command k) s = some t) : Move s t := by
  by_cases hk : ∃ i ptr, k = .alloc i (some ptr)
  · obtain ⟨i, ptr, rfl⟩ := hk
    obtain ⟨hfresh, h⟩ := Option.ite_none_right_eq_some.mp h
    obtain ⟨u, hu, he⟩ := Option.map_eq_some_iff.mp h
    cases he
    cases callStep_move hu with
    | alloc _ _ hi hholds hfreed =>
      exact .borrow i ptr hfresh hi hholds (account_acquire rfl hfreed rfl)
    | keep _ hne => exact absurd rfl (hne i ptr)
    | free _ _ _ hne => exact absurd rfl (hne i ptr)
  · have hstep : step lib n (.command k) s =
        (callStep lib k s.transport).map (fun t => { s with transport := t }) := by
      unfold step
      split
      · rename_i i ptr he
        cases he
        exact absurd ⟨i, ptr, rfl⟩ hk
      · rename_i he
        cases he
        rfl
      all_goals rename_i he; cases he
    rw [hstep] at h
    obtain ⟨u, hu, he⟩ := Option.map_eq_some_iff.mp h
    cases he
    cases callStep_move hu with
    | alloc i ptr => exact absurd ⟨i, ptr, rfl⟩ hk
    | keep _ _ hholds hfreed => exact .quiet hholds (by simp [account, hfreed])
    | free _ i ptr _ hi hholds hfreed =>
      refine .release i ptr hi hholds (account_settle (hnull i ptr hi) rfl ?_)
      intro x
      have := count_append_singleton s.transport.freed ptr x
      simp only [hfreed, List.count_append] at this ⊢
      omega

/-- A chain that is written is settled before the function returns. -/
theorem write_move {s t : State} {om : Ptr} {w : Written}
    (hw : om ≠ nullMut →
      w.freed = [om] ∧ w.handedOver = [] ∨ w.freed = [] ∧ w.handedOver = [om])
    (hnone : om = nullMut → ∀ b ∈ w.freed ++ w.handedOver, b = nullMut)
    (h : write om w s = some t) : Move s t := by
  obtain ⟨hguard, he⟩ := Option.ite_none_right_eq_some.mp h
  by_cases hom : om = nullMut
  · rw [if_pos hom] at he
    cases he
    refine .quiet rfl (Account.ext rfl (funext fun b => ?_))
    by_cases hb : b = nullMut
    · simp [account, hb]
    · have hcount : (w.freed ++ w.handedOver).count b = 0 :=
        List.count_eq_zero_of_not_mem (fun hmem => hb (hnone hom b hmem))
      simp only [account, hb, if_false, List.count_append] at hcount ⊢
      omega
  · have hfresh := hguard.resolve_left hom
    rw [if_neg hom] at he
    cases he
    refine .pass om hfresh rfl (account_pass hfresh.1 rfl ?_)
    intro x
    have hone := count_append_singleton [] om x
    simp only [List.nil_append, List.count_nil, Nat.zero_add] at hone
    obtain ⟨hf, ho⟩ | ⟨hf, ho⟩ := hw hom
    · simp only [hf, ho, List.append_nil, List.count_append, hone]
      omega
    · simp only [hf, ho, List.append_nil, List.count_append, hone]
      omega

/-- A step keeps the account exactly if it meets the condition. -/
theorem step_move {l : Label μ} {s t : State}
    (hnull : ∀ i b, holds s.transport i = some b → b ≠ nullMut)
    (h : step lib n l s = some t) : Taken lib n l s ∧ Move s t ∨ ¬ Taken lib n l s ∧ Leak s t := by
  cases l with
  | command k => exact .inl ⟨trivial, command_move hnull h⟩
  | channels readChannel cmdSignal =>
    cases h
    exact .inl ⟨trivial, .quiet rfl rfl⟩
  | evt ptr response buf =>
    obtain ⟨harrives, h⟩ := Option.ite_none_right_eq_some.mp h
    obtain ⟨r, -, he⟩ := Option.map_eq_some_iff.mp h
    cases he
    cases response with
    | some i => exact .inl ⟨rfl, .quiet rfl rfl⟩
    | none => exact .inr ⟨nofun, .leak ptr harrives rfl (account_acquire rfl rfl rfl)⟩
  | acl ptr om =>
    obtain ⟨hfresh, h⟩ := Option.ite_none_right_eq_some.mp h
    obtain ⟨⟨ch, ret, freed⟩, himpl, he⟩ := Option.map_eq_some_iff.mp h
    cases he
    obtain ⟨hparse, rfl, -, rfl⟩ | ⟨bytes, data, hparse, -, hcases⟩ := aclImpl_cases himpl
    · refine .inr ⟨?_, .leak ptr hfresh rfl (account_acquire rfl rfl rfl)⟩
      rintro ⟨⟨bytes, hsome⟩, -⟩
      rw [hparse] at hsome
      cases hsome
    · obtain ⟨hempty, -, -, rfl⟩ | ⟨hfull, rfl, -, rfl⟩ := hcases
      · refine .inl ⟨⟨⟨bytes, hparse⟩, hempty⟩, .pass ptr hfresh rfl (account_pass hfresh.1 rfl ?_)⟩
        intro x
        have := count_append_singleton s.transport.freed ptr x
        simp only [if_true, List.count_append] at this ⊢
        omega
      · exact .inr ⟨fun hT => hfull hT.2, .leak ptr hfresh rfl (account_acquire rfl rfl rfl)⟩
  | writeAclData om serialized ret =>
    refine .inl ⟨trivial, write_move (fun hom => ?_) (fun hom => ?_) h⟩
    · rw [writeAclData, if_neg hom]
      exact writeChain_settles om serialized ret
    · rw [writeAclData, if_pos hom]
      nofun
  | writeIsoData om serialized ret =>
    refine .inl ⟨trivial, write_move (fun _ => writeChain_settles om serialized ret)
      (fun hom b hb => ?_) h⟩
    obtain ⟨hf, ho⟩ | ⟨hf, ho⟩ := writeChain_settles om serialized ret
    · rw [hf, ho] at hb
      exact (List.mem_singleton.mp hb).trans hom
    · rw [hf, ho] at hb
      exact (List.mem_singleton.mp hb).trans hom

/-- The calls hold buffers of their own, none of them null. -/
structure Booked (s : State) : Prop where
  held : Held (holds s.transport) (account s)
  nonnull : ∀ x ∈ s.acquired, x.1 ≠ nullMut

theorem start_booked : Booked start where
  held := by
    constructor
    · exact ⟨List.nodup_nil, fun b _ => by simp [account, start, Transport.start]⟩
    · intro i b h
      cases h
    · nofun
  nonnull := nofun

theorem Booked.holds_ne_null {s : State} (h : Booked s) {i : CallId} {b : Ptr}
    (hi : holds s.transport i = some b) : b ≠ nullMut :=
  h.nonnull (b, some i) (h.held.owned i b hi).1

theorem Fresh.nonnull_append {s : State} {b : Ptr} {o : Option CallId} (hb : Fresh s b)
    (h : ∀ x ∈ s.acquired, x.1 ≠ nullMut) : ∀ x ∈ s.acquired ++ [(b, o)], x.1 ≠ nullMut :=
  List.forall_mem_append.mpr ⟨h, List.forall_mem_singleton.mpr hb.1⟩

theorem Move.booked {s t : State} (h : Booked s) (hmove : Move s t) : Booked t := by
  cases hmove with
  | quiet hholds hacc =>
    refine ⟨by rw [hholds, hacc]; exact h.held, ?_⟩
    rw [show t.acquired = s.acquired from congrArg Account.acquired hacc]
    exact h.nonnull
  | borrow i b hfresh hi hholds hacc =>
    refine ⟨by rw [hholds, hacc]; exact h.held.borrow hfresh.not_known hi, ?_⟩
    rw [show t.acquired = s.acquired ++ [(b, some i)] from congrArg Account.acquired hacc]
    exact hfresh.nonnull_append h.nonnull
  | release i b hi hholds hacc =>
    refine ⟨by rw [hholds, hacc]; exact h.held.release hi, ?_⟩
    rw [show t.acquired = s.acquired from congrArg Account.acquired hacc]
    exact h.nonnull
  | pass b hfresh hholds hacc =>
    refine ⟨by rw [hholds, hacc]; exact h.held.pass hfresh.not_known, ?_⟩
    rw [show t.acquired = s.acquired ++ [(b, none)] from congrArg Account.acquired hacc]
    exact hfresh.nonnull_append h.nonnull

theorem Leak.booked {s t : State} (h : Booked s) (hleak : Leak s t) : Booked t := by
  obtain ⟨b, hfresh, hholds, hacc⟩ := hleak
  refine ⟨by rw [hholds, hacc]; exact h.held.leave hfresh.not_known, ?_⟩
  rw [show t.acquired = s.acquired ++ [(b, none)] from congrArg Account.acquired hacc]
  exact hfresh.nonnull_append h.nonnull

theorem Booked.conserved_iff {s : State} (h : Booked s) : Conserved s ↔ Passed (account s) := by
  refine h.held.exact_iff ?_ trivial
  rintro i ⟨r, hr⟩
  simp [holds, hr, bufferOf]

theorem Move.conserved {s t : State} (h : Booked s) (hc : Conserved s) (hmove : Move s t) :
    Conserved t := by
  rw [(hmove.booked h).conserved_iff]
  have hpassed := h.conserved_iff.mp hc
  cases hmove with
  | quiet hholds hacc => rwa [hacc]
  | borrow i b hfresh hi hholds hacc =>
    rw [hacc]
    exact hpassed.borrow i
  | release i b hi hholds hacc =>
    rw [hacc]
    exact hpassed.release h.held hi
  | pass b hfresh hholds hacc =>
    rw [hacc]
    exact hpassed.pass h.held.kept hfresh.not_known

theorem Leak.not_conserved {s t : State} (h : Booked s) (hleak : Leak s t) : ¬ Conserved t := by
  rw [(hleak.booked h).conserved_iff]
  obtain ⟨b, hfresh, -, hacc⟩ := hleak
  rw [hacc]
  exact not_passed_leave h.held.kept hfresh.not_known

/-- In a run that ends without a panic, every buffer is released or handed over
exactly once by the time its owner has returned, in every state, if and only
if every event is the response to a command and every data packet is complete
and finds room. -/
theorem conserved_iff_taken (lib : External μ) (n : Nat) (ls : List (Label μ)) (s : State)
    (h : run (step lib n) ls start = some s) :
    Throughout (step lib n) Conserved ls start ↔ Along (step lib n) (Taken lib n) ls start := by
  have hiff : Along (step lib n) (Taken lib n) ls start ↔
      Throughout (step lib n) Conserved ls start ∧
        Along (step lib n) (fun _ _ => True) ls start := by
    apply along_iff_throughout (I := Booked) ?_ ?_ ?_ start_booked ?_ (along_isSome_of_run h)
    · intro l s t hs _ hstep
      obtain ⟨-, hmove⟩ | ⟨-, hleak⟩ := step_move (fun i b => hs.holds_ne_null) hstep
      · exact hmove.booked hs
      · exact hleak.booked hs
    · intro l s hs _ hc hT
      refine ⟨trivial, fun t hstep => ?_⟩
      obtain ⟨-, hmove⟩ | ⟨hnot, -⟩ := step_move (fun i b => hs.holds_ne_null) hstep
      · exact hmove.conserved hs hc
      · exact absurd hT hnot
    · intro l s hs hsome _ hnot _
      obtain ⟨t, hstep⟩ := Option.isSome_iff_exists.mp hsome
      obtain ⟨hT, -⟩ | ⟨-, hleak⟩ := step_move (fun i b => hs.holds_ne_null) hstep
      · exact absurd hT hnot
      · exact ⟨t, hstep, hleak.not_conserved hs⟩
    · rw [start_booked.conserved_iff]
      nofun
  rw [hiff]
  exact ⟨fun hT => ⟨hT, along_of_forall (fun _ _ _ => trivial) start⟩, fun hT => hT.1⟩

/-- A reset command with its response, and a data packet that is read. -/
def balancedTrace : List (Label Bytes) :=
  [.command (.call 0 ⟨0x0C03, some [3, 12, 0]⟩), .command (.lock 0), .command (.alloc 0 (some 64)),
    .command (.serialize 0), .command (.queue 0 0),
    .evt 64 (some 0) resetComplete, .channels Channel.empty Channel.empty,
    .acl 128 [1, 0, 2, 0, 7, 8], .writeAclData 192 (.ok ()) 0]

set_option maxRecDepth 20000 in
theorem conserved_iff_taken_balanced :
    (run (step plain 260) balancedTrace start).isSome ∧
    Throughout (step plain 260) Conserved balancedTrace start := by
  refine ⟨rfl, ?_⟩
  obtain ⟨s, hs⟩ : ∃ s, run (step plain 260) balancedTrace start = some s := ⟨_, rfl⟩
  refine (conserved_iff_taken plain 260 balancedTrace s hs).mpr ?_
  iterate 5 refine along_of_step trivial rfl ?_
  refine along_of_step rfl rfl (along_of_step trivial rfl ?_)
  exact along_of_step ⟨⟨_, rfl⟩, rfl⟩ rfl (along_of_step trivial rfl trivial)

set_option maxRecDepth 20000 in
/-- The buffer of an event that answers no command is never released. -/
theorem event_leaked : ∃ s, run (step plain 260) [.evt 64 none leMeta] start =
    some s ∧ s.acquired = [(64, none)] ∧ (account s).times 64 = 0 ∧ ¬ Conserved s := by
  refine ⟨_, rfl, rfl, rfl, fun h => ?_⟩
  have hone := (h 64 none (List.mem_singleton.mpr rfl)).2 trivial
  cases hone

end Buffers
