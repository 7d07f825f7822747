import ApacheNimble.SlotScan
import ApacheNimble.QueuePanics

/-!
# Initialising event queues from several contexts

`ble_npl_eventq_init` clears the queue, exchanges the flag of one slot after
the other until one was free, and stores the reference. Interrupts and tasks
may initialise other queues and use them between any two of these steps.
-/
namespace EventqInit

open PortLayer EventQueue EventQueueFamily QueueWrites QueuePanics SlotScan Transition

variable {profile : Profile}

inductive InitPc where
  | idle
  | scanning (k : Nat)
  | storing (slot : Fin 8)
  deriving DecidableEq, Repr

/-- The history has the initialisations, each where its exchange succeeded,
and the operations on queues, with their answers. -/
structure State where
  npl : Npl
  pcs : Ptr → InitPc
  history : List (Op × Ret)

def start (npl : Npl) : State := ⟨npl, fun _ => .idle, []⟩

inductive Label where
  | clear (evq : Ptr)
  | exchange (evq : Ptr)
  | store (evq : Ptr)
  | queue (op : Op)
  deriving DecidableEq, Repr

def isInit : Op → Bool
  | .init _ => true
  | _ => false

def setEvq (evq : Ptr) (q : BleNplEventq) (s : Npl) : Npl :=
  { s with evqs := Function.update s.evqs evq q }

/-- The exchange that finds the flag clear. -/
def take (slot : Fin 8) (s : Npl) : Npl :=
  { s with eqPool := Function.update s.eqPool slot { s.eqPool slot with taken := true } }

/-- A queue is not used while it is initialised. -/
def step (profile : Profile) (l : Label) (s : State) : Option State :=
  match l with
  | .clear evq =>
    if s.pcs evq = .idle then some { s with
      npl := setEvq evq ⟨none, 0⟩ s.npl
      pcs := Function.update s.pcs evq (.scanning 0) }
    else none
  | .exchange evq => match s.pcs evq with
    | .scanning k =>
      if h : k < 8 then
        if (s.npl.eqPool ⟨k, h⟩).taken then
          some { s with pcs := Function.update s.pcs evq (.scanning (k + 1)) }
        else some {
          npl := take ⟨k, h⟩ s.npl
          pcs := Function.update s.pcs evq (.storing ⟨k, h⟩)
          history := s.history ++ [(.init evq, .unit)] }
      else none
    | _ => none
  | .store evq => match s.pcs evq with
    | .storing slot => some { s with
        npl := setEvq evq ⟨some slot, 0⟩ s.npl
        pcs := Function.update s.pcs evq .idle }
    | _ => none
  | .queue op =>
    if s.pcs op.queue = .idle ∧ isInit op = false then
      (EventQueueFamily.step profile op s.npl).map (fun r =>
        { s with npl := r.1, history := s.history ++ [(op, r.2)] })
    else none

/-- The two states agree but for the records of other queues. -/
structure Agree (evq : Ptr) (s a : Npl) : Prop where
  pool : s.eqPool = a.eqPool
  events : s.events = a.events
  callouts : s.callouts = a.callouts
  evq : s.evqs evq = a.evqs evq

section Local

variable {s a t : Npl} {evq ev : Ptr}

theorem Agree.setQueued (h : Agree evq s a) (ev : Ptr) (b : Bool) :
    Agree evq (s.setQueued ev b) (a.setQueued ev b) :=
  ⟨h.pool, by simp [Npl.setQueued, h.events], h.callouts, h.evq⟩

theorem Agree.setLen (h : Agree evq s a) (len : UInt8) :
    Agree evq (s.setLen evq len) (a.setLen evq len) :=
  ⟨h.pool, h.events, h.callouts, by simp [Npl.setLen, h.evq]⟩

theorem Agree.setChannel (h : Agree evq s a) (slot : Fin 8) (q : Fifo.Channel Ptr 16) :
    Agree evq (s.setChannel slot q) (a.setChannel slot q) :=
  ⟨by simp [Npl.setChannel, h.pool], h.events, h.callouts, h.evq⟩

theorem put_agree (h : Agree evq s a) (hput : bleNplEventqPut profile evq ev s = some t) :
    ∃ b, bleNplEventqPut profile evq ev a = some b ∧ Agree evq t b := by
  simp only [bleNplEventqPut, Option.bind_eq_bind, Option.bind_eq_some_iff] at hput
  obtain ⟨u, hguard, len, hadd, slot, hslot, q, hsend, ht⟩ := hput
  cases ht
  have hlen := (h.setQueued ev true).setLen len
  refine ⟨((a.setQueued ev true).setLen evq len).setChannel slot q, ?_, hlen.setChannel slot q⟩
  rw [h.setQueued ev true |>.evq] at hadd
  rw [hlen.evq] at hslot
  rw [hlen.pool] at hsend
  simp only [bleNplEventqPut, hguard, hadd, hslot, hsend, Option.bind_eq_bind, Option.bind_some]
  rfl

theorem receiveOr_agree (h : Agree evq s a) (slot : Fin 8) (absent : Poll Ptr) :
    Agree evq (receiveOr slot absent s).1 (receiveOr slot absent a).1 ∧
      (receiveOr slot absent s).2 = (receiveOr slot absent a).2 := by
  unfold receiveOr
  rw [h.pool]
  split
  · exact ⟨h.setChannel .., rfl⟩
  · exact ⟨h, rfl⟩

theorem removeBody_agree (h : Agree evq s a) (hbody : removeBody profile evq ev s = some t) :
    ∃ b, removeBody profile evq ev a = some b ∧ Agree evq t b := by
  simp only [removeBody, Option.bind_eq_bind, Option.bind_eq_some_iff] at hbody
  obtain ⟨slot, hslot, ⟨pulled, q⟩, hrecv, hbody⟩ := hbody
  rw [h.evq] at hslot
  rw [h.pool] at hrecv
  have hchannel := h.setChannel slot q
  split at hbody
  · rename_i heq
    obtain ⟨len, hsub, ht⟩ := Option.bind_eq_some_iff.mp hbody
    cases ht
    have hqueued := hchannel.setQueued ev false
    rw [hqueued.evq] at hsub
    refine ⟨((a.setChannel slot q).setQueued ev false).setLen evq len, ?_, hqueued.setLen len⟩
    simp only [removeBody, hslot, hrecv, if_pos heq, hsub, Option.bind_eq_bind, Option.bind_some]
    rfl
  · rename_i hne
    obtain ⟨q', hsend, ht⟩ := Option.bind_eq_some_iff.mp hbody
    cases ht
    rw [hchannel.pool] at hsend
    refine ⟨(a.setChannel slot q).setChannel slot q', ?_, hchannel.setChannel slot q'⟩
    simp only [removeBody, hslot, hrecv, if_neg hne, hsend, Option.bind_eq_bind, Option.bind_some]
    rfl

theorem removeLoop_agree {n : Nat} (h : Agree evq s a)
    (hloop : removeLoop profile evq ev n s = some t) :
    ∃ b, removeLoop profile evq ev n a = some b ∧ Agree evq t b := by
  induction n generalizing s a with
  | zero =>
    cases hloop
    exact ⟨a, rfl, h⟩
  | succ n ih =>
    obtain ⟨u, hu, ht⟩ := Option.bind_eq_some_iff.mp hloop
    obtain ⟨c, hc, hagree⟩ := removeBody_agree h hu
    obtain ⟨b, hb, hagree'⟩ := ih hagree ht
    exact ⟨b, by simp only [removeLoop, hc, Option.bind_some, hb], hagree'⟩

theorem get_agree (h : Agree evq s a) {tmo : UInt32} {expired : Bool} {p : Poll Ptr}
    (hget : bleNplEventqGet profile evq tmo expired s = some (t, p)) :
    ∃ b, bleNplEventqGet profile evq tmo expired a = some (b, p) ∧ Agree evq t b := by
  rw [bleNplEventqGet_eq] at hget ⊢
  obtain ⟨slot, hslot, hget⟩ := Option.bind_eq_some_iff.mp hget
  rw [h.evq] at hslot
  rw [hslot, Option.bind_some]
  obtain ⟨hagree, hpoll⟩ := receiveOr_agree h slot (emptyPoll tmo expired)
  generalize receiveOr slot (emptyPoll tmo expired) s = x at hget hagree hpoll
  generalize receiveOr slot (emptyPoll tmo expired) a = y at hagree hpoll ⊢
  obtain ⟨s₁, p₁⟩ := x
  obtain ⟨a₁, p₂⟩ := y
  obtain rfl : p₁ = p₂ := hpoll
  cases p₁ with
  | pending =>
    cases hget
    exact ⟨a₁, rfl, hagree⟩
  | ready ev =>
    have hqueued := hagree.setQueued ev false
    simp only at hget ⊢
    split at hget
    · rename_i hev
      obtain ⟨len, hsub, ht⟩ := Option.map_eq_some_iff.mp hget
      cases ht
      rw [hqueued.evq] at hsub
      exact ⟨_, by rw [if_pos hev, hsub]; rfl, hqueued.setLen len⟩
    · rename_i hev
      cases hget
      exact ⟨a₁, by rw [if_neg hev], hagree⟩

/-- An operation does not depend on the records of other queues. -/
theorem step_agree {op : Op} {r : Ret} (h : Agree op.queue s a) (hop : isInit op = false)
    (hstep : EventQueueFamily.step profile op s = some (t, r)) :
    ∃ b, EventQueueFamily.step profile op a = some (b, r) ∧ Agree op.queue t b := by
  cases op with
  | init evq => cases hop
  | put evq ev =>
    obtain ⟨u, hu, he⟩ := Option.map_eq_some_iff.mp hstep
    cases he
    have hbefore : Agree evq s a := h
    obtain ⟨b, hb, hagree⟩ := put_agree hbefore hu
    exact ⟨b, by simp only [EventQueueFamily.step, hb, Option.map_some], hagree⟩
  | get evq tmo expired =>
    obtain ⟨⟨u, p⟩, hu, he⟩ := Option.map_eq_some_iff.mp hstep
    cases he
    have hbefore : Agree evq s a := h
    obtain ⟨b, hb, hagree⟩ := get_agree hbefore hu
    exact ⟨b, by simp only [EventQueueFamily.step, hb, Option.map_some], hagree⟩
  | remove evq ev =>
    obtain ⟨u, hu, he⟩ := Option.map_eq_some_iff.mp hstep
    cases he
    have hbefore : Agree evq s a := h
    rw [bleNplEventqRemove, hbefore.evq] at hu
    obtain ⟨b, hb, hagree⟩ := removeLoop_agree hbefore hu
    exact ⟨b, by simp only [EventQueueFamily.step, bleNplEventqRemove, hb, Option.map_some],
      hagree⟩

end Local

section Flags

variable {s t : Npl} {evq ev : Ptr}

def flags (s : Npl) : Fin 8 → Bool := fun i => (s.eqPool i).taken

@[simp] theorem setChannel_flags (s : Npl) (slot : Fin 8) (q : Fifo.Channel Ptr 16) :
    flags (s.setChannel slot q) = flags s := by
  funext i
  simp [flags]

theorem flags_congr (h : t.eqPool = s.eqPool) : flags t = flags s := by
  funext i
  rw [flags, flags, h]

theorem writes_flags (h : Writes evq s t) : flags t = flags s :=
  h.keeps (f := flags) (fun _ _ _ => rfl) (fun _ _ => rfl) setChannel_flags

/-- Only an initialisation takes a slot. -/
theorem step_flags {op : Op} {r : Ret} (hop : isInit op = false)
    (h : EventQueueFamily.step profile op s = some (t, r)) : flags t = flags s := by
  obtain ⟨evq, rfl, -⟩ | hwrites := step_writes h
  · cases hop
  · exact writes_flags hwrites

theorem take_flags (slot : Fin 8) (s : Npl) :
    flags (take slot s) = Function.update (flags s) slot true := by
  funext i
  by_cases hi : i = slot
  · subst hi
    simp [flags, take]
  · simp [flags, take, hi]

theorem takenSlots_congr (h : flags t = flags s) : takenSlots t = takenSlots s :=
  Finset.filter_congr (fun i _ => by rw [show (t.eqPool i).taken = _ from congrFun h i]; rfl)

theorem take_card {slot : Fin 8} (h : flags s slot = false) :
    (takenSlots (take slot s)).card = (takenSlots s).card + 1 := by
  have hinsert : takenSlots (take slot s) = insert slot (takenSlots s) := by
    ext i
    have hi : (((take slot s).eqPool i).taken = true) ↔ i = slot ∨ (s.eqPool i).taken = true := by
      change flags (take slot s) i = true ↔ _
      rw [take_flags]
      by_cases hi : i = slot
      · simp [hi]
      · simp [hi, flags]
    simpa [takenSlots] using hi
  have hnot : slot ∉ takenSlots s := by
    simpa [takenSlots, flags] using h
  rw [hinsert, Finset.card_insert_of_notMem hnot]

theorem take_mono (slot : Fin 8) (s : Npl) (i : Fin 8) (h : flags s i = true) :
    flags (take slot s) i = true := by
  rw [take_flags]
  by_cases hi : i = slot
  · rw [hi, Function.update_self]
  · rwa [Function.update_of_ne hi]

end Flags

/-- The steps so far are the operations of the history on `a`, but for the
queues that are being initialised. -/
structure Linked (s : State) (a : Npl) : Prop where
  pool : s.npl.eqPool = a.eqPool
  events : s.npl.events = a.events
  callouts : s.npl.callouts = a.callouts
  idle : ∀ e, s.pcs e = .idle → s.npl.evqs e = a.evqs e
  scanning : ∀ e k, s.pcs e = .scanning k → Passed (flags s.npl) k
  storing : ∀ e slot, s.pcs e = .storing slot → a.evqs e = ⟨some slot, 0⟩
  taken : (takenSlots s.npl).card = s.history.countP (fun x => isInit x.1)

section Runs

variable {s t : State} {a : Npl} {evq : Ptr}

theorem run_snoc {ℓ σ ο : Type} {f : ℓ → σ → Option (σ × ο)} {ls : List ℓ} {l : ℓ} {x y z : σ}
    {os os' : List ο} {o : ο} (h : run (logged f) ls (x, os) = some (y, os'))
    (hstep : f l y = some (z, o)) :
    run (logged f) (ls ++ [l]) (x, os) = some (z, os' ++ [o]) := by
  rw [run_append, h]
  simp [run_cons, logged, hstep]

/-- A step concerns one queue, and no flag is cleared. -/
theorem Linked.move (h : Linked s a) {npl a' : Npl} {pc : InitPc} {history : List (Op × Ret)}
    (hpool : npl.eqPool = a'.eqPool) (hevents : npl.events = a'.events)
    (hcallouts : npl.callouts = a'.callouts)
    (hevqs : ∀ e, e ≠ evq → npl.evqs e = s.npl.evqs e ∧ a'.evqs e = a.evqs e)
    (hmono : ∀ i, flags s.npl i = true → flags npl i = true)
    (hidle : pc = .idle → npl.evqs evq = a'.evqs evq)
    (hscanning : ∀ k, pc = .scanning k → Passed (flags npl) k)
    (hstoring : ∀ slot, pc = .storing slot → a'.evqs evq = ⟨some slot, 0⟩)
    (htaken : (takenSlots npl).card = history.countP (fun x => isInit x.1)) :
    Linked ⟨npl, Function.update s.pcs evq pc, history⟩ a' where
  pool := hpool
  events := hevents
  callouts := hcallouts
  idle e he := by
    by_cases hev : e = evq
    · subst hev
      exact hidle (by simpa using he)
    · rw [(hevqs e hev).1, (hevqs e hev).2]
      exact h.idle e (by simpa [hev] using he)
  scanning e k he := by
    by_cases hev : e = evq
    · subst hev
      exact hscanning k (by simpa using he)
    · exact (h.scanning e k (by simpa [hev] using he)).mono hmono
  storing e slot he := by
    by_cases hev : e = evq
    · subst hev
      exact hstoring slot (by simpa using he)
    · rw [(hevqs e hev).2]
      exact h.storing e slot (by simpa [hev] using he)
  taken := htaken

theorem clear_linked (h : Linked s a) : Linked { s with
    npl := setEvq evq ⟨none, 0⟩ s.npl
    pcs := Function.update s.pcs evq (.scanning 0) } a := by
  refine h.move h.pool h.events h.callouts ?_ (fun _ hi => hi) nofun ?_ nofun h.taken
  · intro e he
    exact ⟨Function.update_of_ne he .., rfl⟩
  · rintro k ⟨⟩
    exact passed_zero _

theorem pass_linked {slot : Fin 8} (h : Linked s a) (hpc : s.pcs evq = .scanning slot.val)
    (htaken : flags s.npl slot = true) :
    Linked { s with pcs := Function.update s.pcs evq (.scanning (slot.val + 1)) } a := by
  refine h.move h.pool h.events h.callouts (fun _ _ => ⟨rfl, rfl⟩) (fun _ hi => hi) nofun ?_ nofun
    h.taken
  rintro k ⟨⟩
  exact (h.scanning evq _ hpc).succ htaken

theorem store_linked {slot : Fin 8} (h : Linked s a) (hpc : s.pcs evq = .storing slot) :
    Linked { s with
      npl := setEvq evq ⟨some slot, 0⟩ s.npl
      pcs := Function.update s.pcs evq .idle } a := by
  refine h.move h.pool h.events h.callouts ?_ (fun _ hi => hi) ?_ nofun nofun h.taken
  · intro e he
    exact ⟨Function.update_of_ne he .., rfl⟩
  · intro _
    rw [h.storing evq slot hpc]
    exact Function.update_self ..

/-- The exchange that finds a flag clear does what the whole function does in
one step at this moment. -/
theorem take_linked {slot : Fin 8} (h : Linked s a) (hpc : s.pcs evq = .scanning slot.val)
    (hfree : flags s.npl slot = false) :
    ∃ b, bleNplEventqInit evq a = some b ∧ Linked {
      npl := take slot s.npl
      pcs := Function.update s.pcs evq (.storing slot)
      history := s.history ++ [(.init evq, .unit)] } b := by
  have hfirst : firstFree a = some slot := by
    have hfound := (h.scanning evq _ hpc).first_eq hfree
    rwa [flags_congr h.pool] at hfound
  refine ⟨_, by rw [bleNplEventqInit, hfirst], ?_⟩
  refine h.move ?_ h.events h.callouts ?_ (take_mono slot s.npl) (by rintro ⟨⟩)
    (by rintro _ ⟨⟩) ?_ ?_
  · simp only [take, h.pool]
  · intro e he
    exact ⟨rfl, Function.update_of_ne he ..⟩
  · rintro k ⟨⟩
    exact Function.update_self ..
  · rw [take_card hfree, h.taken]
    simp [isInit]

theorem queue_linked {op : Op} {npl : Npl} {r : Ret} (h : Linked s a)
    (hidle : s.pcs op.queue = .idle) (hop : isInit op = false)
    (hstep : EventQueueFamily.step profile op s.npl = some (npl, r)) :
    ∃ b, EventQueueFamily.step profile op a = some (b, r) ∧
      Linked { s with npl := npl, history := s.history ++ [(op, r)] } b := by
  have hagree : Agree op.queue s.npl a := ⟨h.pool, h.events, h.callouts, h.idle op.queue hidle⟩
  obtain ⟨b, hb, hagree'⟩ := step_agree hagree hop hstep
  have hflags := step_flags hop hstep
  refine ⟨b, hb, ?_⟩
  have hmoved : Linked ⟨npl, Function.update s.pcs op.queue .idle, s.history ++ [(op, r)]⟩ b :=
    h.move hagree'.pool hagree'.events hagree'.callouts
      (fun e he => ⟨step_evqs hstep he, step_evqs hb he⟩) (fun i hi => by rw [hflags]; exact hi)
      (fun _ => hagree'.evq) nofun nofun (by rw [takenSlots_congr hflags, h.taken]; simp [hop])
  rwa [Function.update_eq_self_iff.mpr hidle.symm] at hmoved

/-- The history is a run of whole operations to a state that is linked. -/
def Linearized (profile : Profile) (npl : Npl) (s : State) : Prop :=
  ∃ a, run (logged (EventQueueFamily.step profile)) (s.history.map (·.1)) (npl, []) =
    some (a, s.history.map (·.2)) ∧ Linked s a

theorem step_linearized (npl : Npl) (l : Label) (s t : State) (h : Linearized profile npl s)
    (hstep : step profile l s = some t) : Linearized profile npl t := by
  obtain ⟨a, hrun, hlinked⟩ := h
  cases l with
  | clear evq =>
    obtain ⟨-, ht⟩ := Option.ite_none_right_eq_some.mp hstep
    cases ht
    exact ⟨a, hrun, clear_linked hlinked⟩
  | exchange evq =>
    simp only [step] at hstep
    split at hstep
    · rename_i k hpc
      split at hstep
      · rename_i hk
        split at hstep
        · rename_i htaken
          cases hstep
          have hslot : s.pcs evq = .scanning (⟨k, hk⟩ : Fin 8).val := hpc
          exact ⟨a, hrun, pass_linked hlinked hslot htaken⟩
        · rename_i hfree
          cases hstep
          have hslot : s.pcs evq = .scanning (⟨k, hk⟩ : Fin 8).val := hpc
          obtain ⟨b, hinit, hb⟩ := take_linked hlinked hslot (by simpa [flags] using hfree)
          refine ⟨b, ?_, hb⟩
          simp only [List.map_append, List.map_cons, List.map_nil]
          exact run_snoc hrun (by simp only [EventQueueFamily.step, hinit, Option.map_some])
      · cases hstep
    · cases hstep
  | store evq =>
    simp only [step] at hstep
    split at hstep
    · rename_i slot hpc
      cases hstep
      exact ⟨a, hrun, store_linked hlinked hpc⟩
    · cases hstep
  | queue op =>
    obtain ⟨⟨hidle, hop⟩, hstep⟩ := Option.ite_none_right_eq_some.mp hstep
    obtain ⟨⟨u, r⟩, hu, rfl⟩ := Option.map_eq_some_iff.mp hstep
    obtain ⟨b, hb, hlinked'⟩ := queue_linked hlinked hidle hop hu
    refine ⟨b, ?_, hlinked'⟩
    simp only [List.map_append, List.map_cons, List.map_nil]
    exact run_snoc hrun hb

theorem start_linked (evqs : Ptr → BleNplEventq) (events : Ptr → BleNplEvent)
    (callouts : Ptr → BleNplCallout) :
    Linked (start (boot evqs events callouts)) (boot evqs events callouts) where
  pool := rfl
  events := rfl
  callouts := rfl
  idle _ _ := rfl
  scanning := nofun
  storing := nofun
  taken := by simp [start, takenSlots, boot]

/-- A claimer that has passed all slots finds no other, and as many queues as
there are slots have been initialised. -/
theorem Linked.exhausted (h : Linked s a) (hpc : s.pcs evq = .scanning 8) :
    bleNplEventqInit evq a = none ∧ s.history.countP (fun x => isInit x.1) = 8 := by
  have hpassed := h.scanning evq 8 hpc
  have hnone : firstFree a = none := by
    rw [flags_congr h.pool] at hpassed
    exact hpassed.first_eq_none
  refine ⟨by rw [bleNplEventqInit, hnone], ?_⟩
  have hall : takenSlots s.npl = Finset.univ :=
    Finset.filter_true_of_mem (fun i _ => hpassed i i.isLt)
  rw [← h.taken, hall, Finset.card_univ, Fintype.card_fin]

/-- However initialisations of several queues interleave with each other and
with operations on other queues, the outcome is that of whole operations, one
after the other, with each initialisation at the moment its exchange succeeds.
An initialisation runs out of slots only where the whole operation panics, and
only after eight queues have been initialised. -/
theorem init_linearizes (profile : Profile) (evqs : Ptr → BleNplEventq)
    (events : Ptr → BleNplEvent) (callouts : Ptr → BleNplCallout) (ls : List Label) (s : State)
    (h : run (step profile) ls (start (boot evqs events callouts)) = some s) :
    ∃ a, run (logged (EventQueueFamily.step profile)) (s.history.map (·.1))
        (boot evqs events callouts, []) = some (a, s.history.map (·.2)) ∧
      s.npl.eqPool = a.eqPool ∧ s.npl.events = a.events ∧
      (∀ evq, s.pcs evq = .idle → s.npl.evqs evq = a.evqs evq) ∧
      ∀ evq, s.pcs evq = .scanning 8 →
        bleNplEventqInit evq a = none ∧ s.history.countP (fun x => isInit x.1) = 8 := by
  have hstart : Linearized profile (boot evqs events callouts)
      (start (boot evqs events callouts)) := ⟨_, rfl, start_linked evqs events callouts⟩
  obtain ⟨a, hrun, hlinked⟩ := run_invariant (step_linearized _) hstart h
  exact ⟨a, hrun, hlinked.pool, hlinked.events, hlinked.idle, fun evq hpc => hlinked.exhausted hpc⟩

/-- Both initialisations look at the first slot. -/
def twoQueues : List Label :=
  [.clear 100, .clear 200, .exchange 200, .exchange 100, .exchange 100, .store 200,
    .queue (.put 200 7), .store 100, .queue (.get 100 0 false)]

theorem init_linearizes_two_queues : ∃ s, run (step .debug) twoQueues
      (start (boot (fun _ => ⟨none, 255⟩) (fun _ => ⟨0, 0, true⟩) (fun _ => ⟨true, 0, 0⟩))) =
        some s ∧
    s.history.map (·.1) = [.init 200, .init 100, .put 200 7, .get 100 0 false] ∧
    ∃ a, run (logged (EventQueueFamily.step .debug)) (s.history.map (·.1))
        (boot (fun _ => ⟨none, 255⟩) (fun _ => ⟨0, 0, true⟩) (fun _ => ⟨true, 0, 0⟩), []) =
          some (a, s.history.map (·.2)) ∧ s.npl.eqPool = a.eqPool := by
  refine ⟨_, rfl, rfl, ?_⟩
  obtain ⟨a, hrun, hpool, -⟩ := init_linearizes .debug (fun _ => ⟨none, 255⟩)
    (fun _ => ⟨0, 0, true⟩) (fun _ => ⟨true, 0, 0⟩) twoQueues _ rfl
  exact ⟨a, hrun, hpool⟩

end Runs

end EventqInit
