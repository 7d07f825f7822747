import ApacheNimble.ThreadSteps
import ApacheNimble.QueuesApart

/-!
# The counter beside the channel

A queue is owed an entry while its counter is ahead of its channel. As long as
no handler puts into a queue whose counter the thread has loaded, each counter
is ahead of its channel by just what its queue is owed.
-/
namespace CounterInvariant

open PortLayer EventQueue Fifo ThreadSteps QueuesApart Transition

variable {profile : Profile} {s t : Npl} {evq ev : Ptr} {i : Fin 8}

/-- The queue by whose channel the counter is ahead. -/
def owed : Pc → Ptr → Nat
  | .putStored q _ | .getPopped q _ | .getCleared q _ | .getLoaded q _ _ =>
    fun e => if e = q then 1 else 0
  | _ => fun _ => 0

/-- The queue whose counter the thread has loaded and not yet stored. -/
def loadedQueue : Pc → Option Ptr
  | .putLoaded q _ _ | .getLoaded q _ _ => some q
  | _ => none

/-- The queue that a handler puts into. -/
def handlerQueue (s : State) : Label → Option Ptr
  | .interruptPut evq _ => some evq
  | .interruptWake co =>
    if (s.npl.callouts co).active then some (s.npl.callouts co).eventQueue else none
  | _ => none

/-- No handler puts into a queue between the load and the store of its
counter. -/
def Undisturbed (l : Label) (s : State) : Prop :=
  ∀ q, handlerQueue s l = some q → loadedQueue s.pc ≠ some q

/-- Every counter is ahead of its channel by what the queue is owed. -/
structure Counts (owed : Ptr → Nat) (s : Npl) : Prop extends Apart s where
  len : ∀ e i, (s.evqs e).ch = some i →
    (s.evqs e).len.toNat = (s.eqPool i).q.items.length + owed e

/-- Whenever no operation is in progress every counter is the number of entries
in the channel, and a remove takes exactly the entries of its event; and no
get decrements a counter of zero. -/
structure Sound (profile : Profile) (s : State) : Prop where
  counts : s.pc = .idle → ∀ e i, (s.npl.evqs e).ch = some i →
    (s.npl.evqs e).len.toNat = (s.npl.eqPool i).q.items.length
  removes : s.pc = .idle → ∀ e i ev, (s.npl.evqs e).ch = some i →
    ∃ t, bleNplEventqRemove profile e ev s.npl = some t ∧
      (t.eqPool i).q.items = (s.npl.eqPool i).q.items.filter (· ≠ ev)
  decrements : ∀ e ev len, s.pc = .getLoaded e ev len → 0 < len.toNat

/-- What is known of the queue and the event of the operation in progress. -/
def PcOk (s : Npl) : Pc → Prop
  | .putQueued _ ev | .putStored _ ev => ev ≠ nullMut
  | .putLoaded q ev len => ev ≠ nullMut ∧ len = (s.evqs q).len
  | .getPopped q _ | .getCleared q _ => (s.evqs q).ch ≠ none
  | .getLoaded q _ len => (s.evqs q).ch ≠ none ∧ len = (s.evqs q).len
  | _ => True

/-- The invariant of runs that are not disturbed. -/
structure Inv (s : State) : Prop where
  counts : Counts (owed s.pc) s.npl
  pc : PcOk s.npl s.pc

theorem Counts.le {k : Ptr → Nat} (h : Counts k s) (hch : (s.evqs evq).ch = some i) :
    (s.evqs evq).len.toNat ≤ 16 + k evq := by
  have := h.len evq i hch
  have := (s.eqPool i).q.bounded
  omega

/-- An operation on one queue concerns what is owed to that queue only. -/
theorem Counts.of_frame {k k' : Ptr → Nat} (h : Counts k s) (hch : (s.evqs evq).ch = some i)
    (hframe : Frame evq i s t)
    (hlen : (t.evqs evq).len.toNat = (t.eqPool i).q.items.length + k' evq)
    (hnonnull : nullMut ∉ (t.eqPool i).q.items) (hother : ∀ e, e ≠ evq → k' e = k e) :
    Counts k' t where
  toApart := h.toApart.of_frame hch hframe hnonnull
  len e j hj := by
    rw [hframe.ch] at hj
    by_cases he : e = evq
    · subst he
      cases hch.symm.trans hj
      exact hlen
    · have hji : j ≠ i := by
        rintro rfl
        exact he (h.distinct e evq j hj hch)
      rw [hframe.len e he, hframe.q j hji, hother e he]
      exact h.len e j hj

/-- A store of one counter, of a queue that may not have been created. -/
theorem Counts.setLen {k k' : Ptr → Nat} {len : UInt8} (h : Counts k s)
    (hlen : ∀ i, (s.evqs evq).ch = some i →
      len.toNat = (s.eqPool i).q.items.length + k' evq)
    (hother : ∀ e, e ≠ evq → k' e = k e) : Counts k' (s.setLen evq len) where
  toApart := h.toApart.setLen len
  len e j hj := by
    rw [setLen_ch] at hj
    rw [setLen_len]
    by_cases he : e = evq
    · subst he
      rw [if_pos rfl]
      exact hlen j hj
    · rw [if_neg he, hother e he]
      exact h.len e j hj

/-- Neither flags nor callouts matter. -/
theorem Counts.congr {k : Ptr → Nat} (h : Counts k s) (hevqs : t.evqs = s.evqs)
    (hpool : t.eqPool = s.eqPool) : Counts k t where
  toApart := h.toApart.congr hevqs hpool
  len := by
    rw [hevqs, hpool]
    exact h.len

/-- Both counters keep step with a handler, whatever the queue is owed. -/
theorem Counts.handled {k : Ptr → Nat} {target : Option Ptr} (h : Counts k s) (hk : ∀ e, k e ≤ 1)
    (hhandled : Handled target s t) : Counts k t := by
  cases target with
  | none => exact h.congr hhandled.1 hhandled.2
  | some q =>
    obtain ⟨ev, i, u, hadded, hevqs, hpool⟩ := hhandled
    refine Counts.congr (h.of_frame hadded.ch hadded.frame ?_ ?_ fun _ _ => rfl) hevqs hpool
    · have hle := h.le hadded.ch
      have hkq := hk q
      rw [hadded.len (by omega), hadded.items, List.length_append, List.length_singleton,
        h.len q i hadded.ch]
      omega
    · rw [hadded.items]
      simp [h.nonnull i, hadded.nonnull.symm]

theorem owed_le (pc : Pc) (e : Ptr) : owed pc e ≤ 1 := by
  cases pc <;> simp only [owed, Nat.zero_le] <;> split <;> decide

/-- What is known of the operation in progress, too, if its counter has not
been loaded. -/
theorem PcOk.handled {pc : Pc} {target : Option Ptr} (h : PcOk s pc)
    (hhandled : Handled target s t)
    (hundisturbed : ∀ q, target = some q → loadedQueue pc ≠ some q) : PcOk t pc := by
  have hch := handled_ch hhandled
  have hlen : ∀ e, loadedQueue pc = some e → (t.evqs e).len = (s.evqs e).len := by
    intro e he
    cases target with
    | none => rw [hhandled.1]
    | some q =>
      obtain ⟨ev, i, u, hadded, hevqs, -⟩ := hhandled
      rw [hevqs, hadded.frame.len e]
      rintro rfl
      exact hundisturbed e rfl he
  cases pc with
  | idle => trivial
  | putQueued | putStored => exact h
  | putLoaded q ev len =>
    rw [PcOk, hlen q rfl]
    exact h
  | getPopped q ev | getCleared q ev =>
    rw [PcOk, hch]
    exact h
  | getLoaded q ev len =>
    rw [PcOk, hch, hlen q rfl]
    exact h

theorem handled_inv {s : State} {target : Option Ptr} {t : Npl} (h : Inv s)
    (hhandled : Handled target s.npl t)
    (hundisturbed : ∀ q, target = some q → loadedQueue s.pc ≠ some q) : Inv ⟨t, s.pc⟩ :=
  ⟨h.counts.handled (owed_le s.pc) hhandled, h.pc.handled hhandled hundisturbed⟩

/-- Each step of an operation in progress keeps the invariant. -/
theorem advance_inv {s t : State} (h : Inv s) (hstep : advance profile s = some t) : Inv t := by
  obtain ⟨npl, pc⟩ := s
  obtain ⟨hcounts, hpc⟩ := h
  dsimp only at hcounts hpc
  cases pc with
  | idle => cases hstep
  | putQueued q ev =>
    cases hstep
    exact ⟨hcounts, hpc, rfl⟩
  | putLoaded q ev len =>
    obtain ⟨len', hadd, rfl⟩ := Option.map_eq_some_iff.mp hstep
    obtain ⟨hev, rfl⟩ := hpc
    refine ⟨hcounts.setLen (fun i hch => ?_) (fun e he => by simp [owed, he]), hev⟩
    have hlen := hcounts.len q i hch
    have hbound := hcounts.le hch
    simp only [owed, Nat.add_zero] at hlen hbound
    obtain ⟨len'', hadd', hlen'⟩ := profile.addU8_one (npl.evqs q).len (by omega)
    cases hadd.symm.trans hadd'
    simp only [owed, if_true]
    omega
  | putStored q ev =>
    obtain ⟨i, hch, hstep⟩ := Option.bind_eq_some_iff.mp hstep
    obtain ⟨c, hsend, ht⟩ := Option.bind_eq_some_iff.mp hstep
    cases ht
    obtain ⟨-, hitems⟩ := Channel.trySend_eq_some.mp hsend
    refine ⟨?_, trivial⟩
    refine hcounts.of_frame hch (frame_setChannel q i npl c) ?_ ?_ (fun e he => by simp [owed, he])
    · have hlen := hcounts.len q i hch
      simp only [owed, if_true] at hlen
      simp [owed, hitems, hlen]
    · simp [hitems, hcounts.nonnull i, Ne.symm hpc]
  | getPopped q ev =>
    cases hstep
    exact ⟨hcounts.congr rfl rfl, hpc⟩
  | getCleared q ev =>
    cases hstep
    exact ⟨hcounts, hpc, rfl⟩
  | getLoaded q ev len =>
    obtain ⟨len', hsub, rfl⟩ := Option.map_eq_some_iff.mp hstep
    obtain ⟨-, hloaded⟩ := hpc
    refine ⟨hcounts.setLen (fun i hch => ?_) (fun e he => by simp [owed, he]), trivial⟩
    have hlen := hcounts.len q i hch
    simp only [owed, if_true, ← hloaded] at hlen
    obtain ⟨len'', hsub', hlen'⟩ := profile.subU8_one len (by omega)
    cases hsub.symm.trans hsub'
    simp only [owed]
    omega

theorem holds_of_counts (h : Counts (fun _ => 0) s) (hch : (s.evqs evq).ch = some i) :
    Holds s evq i (s.eqPool i).q.items := ⟨hch, rfl, h.len evq i hch⟩

theorem init_counts (h : Counts (fun _ => 0) s) (hinit : bleNplEventqInit evq s = some t) :
    Counts (fun _ => 0) t where
  toApart := (h.toApart.init hinit).1
  len e j hj := by
    obtain ⟨i, hfree, hevqs, hq, -⟩ := init_spec hinit
    rw [hevqs] at hj
    rw [hq, hevqs]
    by_cases he : e = evq
    · subst he
      rw [Function.update_self] at hj ⊢
      cases hj
      simp [h.free j hfree]
    · rw [Function.update_of_ne he] at hj ⊢
      exact h.len e j hj

theorem get_inv {tmo : UInt32} {expired : Bool} (h : Counts (fun _ => 0) s)
    (hch : (s.evqs evq).ch = some i) :
    Inv ⟨(receive i tmo expired s).1, afterReceive evq (receive i tmo expired s).2⟩ := by
  obtain ⟨ev, c, hitems, hreceive⟩ | ⟨absent, hreceive, hidle⟩ := receive_cases i tmo expired s
  · have hnonnull := h.nonnull i
    rw [hitems, List.mem_cons, not_or] at hnonnull
    rw [hreceive, afterReceive, if_pos (Ne.symm hnonnull.1)]
    refine ⟨h.of_frame hch (frame_setChannel evq i s c) ?_ ?_ (fun e he => by simp [owed, he]), ?_⟩
    · have hlen := h.len evq i hch
      rw [hitems] at hlen
      simpa [owed] using hlen
    · simpa using hnonnull.2
    · simp [PcOk, hch]
  · rw [hreceive, hidle]
    exact ⟨h, trivial⟩

theorem remove_counts (h : Counts (fun _ => 0) s)
    (hremove : bleNplEventqRemove profile evq ev s = some t) : Counts (fun _ => 0) t := by
  cases hch : (s.evqs evq).ch with
  | none =>
    rw [remove_uncreated hch hremove]
    exact h
  | some i =>
    obtain ⟨u, hu, hholds, hframe, -⟩ := bleNplEventqRemove_spec profile ev (holds_of_counts h hch)
    cases hremove.symm.trans hu
    refine h.of_frame hch hframe ?_ ?_ (fun _ _ => rfl)
    · rw [hholds.items, hholds.len, Nat.add_zero]
    · rw [hholds.items]
      exact fun hmem => h.nonnull i (List.mem_filter.mp hmem).1

theorem Inv.idle_counts {s : State} (h : Inv s) (hidle : s.pc = .idle) :
    Counts (fun _ => 0) s.npl := by
  have hcounts := h.counts
  rwa [hidle] at hcounts

theorem step_inv {l : Label} {s t : State} (h : Inv s) (hG : Undisturbed l s)
    (hstep : step profile l s = some t) : Inv t := by
  cases l with
  | init q =>
    obtain ⟨hidle, hstep⟩ := Option.ite_none_right_eq_some.mp hstep
    obtain ⟨u, hinit, rfl⟩ := Option.map_eq_some_iff.mp hstep
    exact ⟨init_counts (h.idle_counts hidle) hinit, trivial⟩
  | put q ev =>
    obtain ⟨⟨hidle, hev⟩, ht⟩ := Option.ite_none_right_eq_some.mp hstep
    cases ht
    exact ⟨(h.idle_counts hidle).congr rfl rfl, hev⟩
  | get q tmo expired =>
    obtain ⟨hidle, hstep⟩ := Option.ite_none_right_eq_some.mp hstep
    obtain ⟨i, hch, rfl⟩ := Option.map_eq_some_iff.mp hstep
    exact get_inv (h.idle_counts hidle) hch
  | remove q ev =>
    obtain ⟨hidle, hstep⟩ := Option.ite_none_right_eq_some.mp hstep
    obtain ⟨u, hremove, rfl⟩ := Option.map_eq_some_iff.mp hstep
    exact ⟨remove_counts (h.idle_counts hidle) hremove, trivial⟩
  | callout co active =>
    obtain ⟨hidle, ht⟩ := Option.ite_none_right_eq_some.mp hstep
    cases ht
    exact ⟨(h.idle_counts hidle).congr rfl rfl, trivial⟩
  | advance => exact advance_inv h hstep
  | interruptPut q ev =>
    obtain ⟨u, hput, rfl⟩ := Option.map_eq_some_iff.mp hstep
    exact handled_inv h (put_handled hput) hG
  | interruptWake co =>
    obtain ⟨u, hcb, rfl⟩ := Option.map_eq_some_iff.mp hstep
    exact handled_inv h (wake_handled hcb) hG

theorem start_inv (events : Ptr → BleNplEvent) (callouts : Ptr → BleNplCallout) :
    Inv (start events callouts) :=
  ⟨⟨boot_apart events callouts, by simp [start, boot]⟩, trivial⟩

theorem Inv.sound (profile : Profile) {s : State} (h : Inv s) : Sound profile s where
  counts hidle e i hch := (h.idle_counts hidle).len e i hch
  removes hidle e i ev hch := by
    have hholds := holds_of_counts (h.idle_counts hidle) hch
    obtain ⟨t, ht, hholds, -, -⟩ := bleNplEventqRemove_spec profile ev hholds
    exact ⟨t, ht, hholds.items⟩
  decrements e ev len hpc := by
    have hcounts := h.counts
    have hok := h.pc
    rw [hpc] at hcounts hok
    obtain ⟨hch, rfl⟩ := hok
    obtain ⟨i, hch⟩ := Option.ne_none_iff_exists'.mp hch
    have hlen := hcounts.len e i hch
    simp only [owed, if_true] at hlen
    omega

end CounterInvariant
