import ApacheNimble.CounterInvariant

/-!
# A counter that loses an update

A handler that puts between the load and the store of a counter leaves the
thread with a value that is out of date. Nothing brings the counter back.
-/
namespace CounterPreemption

open PortLayer EventQueue Fifo ThreadSteps CounterInvariant Transition

variable {profile : Profile} {s t : Npl} {i : Fin 8}

/-- The thread holds a value of the counter that is out of date, or it has
already stored one in a put. -/
def Behind (s : Npl) (q : Ptr) (i : Fin 8) : Pc → Prop
  | .putLoaded e _ len => e = q ∧ len.toNat < (s.evqs q).len.toNat ∧
    (s.evqs q).len.toNat = (s.eqPool i).q.items.length
  | .putStored e _ => e = q ∧ (s.evqs q).len.toNat < (s.eqPool i).q.items.length + 1
  | .getLoaded e _ len => e = q ∧ 0 < len.toNat ∧ len.toNat < (s.evqs q).len.toNat ∧
    (s.evqs q).len.toNat = (s.eqPool i).q.items.length + 1
  | _ => False

/-- An update of the counter has been or will be lost. -/
def Lost (s : State) : Prop :=
  ∃ q i, (s.npl.evqs q).ch = some i ∧
    (∀ e, (s.npl.evqs e).ch = some i → e = q) ∧ Behind s.npl q i s.pc

theorem Behind.not_idle {q : Ptr} {pc : Pc} (h : Behind s q i pc) : pc ≠ .idle := by
  rintro rfl
  exact h

/-- A handler leaves the thread behind. -/
theorem Behind.handled {q : Ptr} {pc : Pc} {target : Option Ptr} (h : Behind s q i pc)
    (hch : (s.evqs q).ch = some i) (hdistinct : ∀ e, (s.evqs e).ch = some i → e = q)
    (hhandled : Handled target s t) : Behind t q i pc := by
  obtain ⟨hlen, hitems⟩ : ∃ k, (t.eqPool i).q.items.length = (s.eqPool i).q.items.length + k ∧
      ((s.evqs q).len.toNat < 255 → (t.evqs q).len.toNat = (s.evqs q).len.toNat + k) := by
    cases target with
    | none => exact ⟨0, by rw [hhandled.2]; rfl, fun _ => by rw [hhandled.1]; rfl⟩
    | some e =>
      obtain ⟨ev, j, u, hadded, hevqs, hpool⟩ := hhandled
      by_cases hij : i = j
      · subst hij
        obtain rfl := hdistinct e hadded.ch
        refine ⟨1, ?_, ?_⟩
        · rw [hpool, hadded.items, List.length_append, List.length_singleton]
        · rw [hevqs]
          exact hadded.len
      · have hqe : q ≠ e := by
          rintro rfl
          exact hij (Option.some.inj (hch.symm.trans hadded.ch))
        refine ⟨0, ?_, fun _ => ?_⟩
        · rw [hpool, hadded.frame.q i hij]
          rfl
        · rw [hevqs, hadded.frame.len q hqe]
          rfl
  have hbound := (s.eqPool i).q.bounded
  cases pc with
  | putLoaded e ev len =>
    obtain ⟨he, hbehind, hcount⟩ := h
    refine ⟨he, ?_, ?_⟩ <;> omega
  | putStored e ev =>
    obtain ⟨he, hbehind⟩ := h
    refine ⟨he, ?_⟩
    omega
  | getLoaded e ev len =>
    obtain ⟨he, hpos, hbehind, hcount⟩ := h
    refine ⟨he, hpos, ?_, ?_⟩ <;> omega
  | idle | putQueued | getPopped | getCleared => exact h

theorem handled_lost {s : State} {target : Option Ptr} {t : Npl} (h : Lost s)
    (hhandled : Handled target s.npl t) : Lost ⟨t, s.pc⟩ := by
  obtain ⟨q, i, hch, hdistinct, hbehind⟩ := h
  refine ⟨q, i, ?_, fun e he => ?_, hbehind.handled hch hdistinct hhandled⟩
  · rw [handled_ch hhandled]
    exact hch
  · rw [handled_ch hhandled] at he
    exact hdistinct e he

/-- The store of a value that is out of date is what loses the update. -/
theorem advance_lost {s t : State} (h : Lost s) (hstep : advance profile s = some t) :
    Lost t ∨ ¬ Sound profile t := by
  obtain ⟨npl, pc⟩ := s
  obtain ⟨q, i, hch, hdistinct, hbehind⟩ := h
  cases pc with
  | idle | putQueued | getPopped | getCleared => exact absurd hbehind id
  | putLoaded e ev len =>
    obtain ⟨rfl, hlt, hcount⟩ := hbehind
    obtain ⟨len', hadd, rfl⟩ := Option.map_eq_some_iff.mp hstep
    have hbound := (npl.eqPool i).q.bounded
    dsimp only at hch hdistinct hlt hcount
    obtain ⟨len'', hadd', hlen'⟩ := profile.addU8_one len (by omega)
    cases hadd.symm.trans hadd'
    refine .inl ⟨e, i, by simpa using hch, fun e' he' => hdistinct e' (by simpa using he'), rfl, ?_⟩
    simp only [setLen_len, if_true, setLen_eqPool]
    omega
  | putStored e ev =>
    obtain ⟨rfl, hlt⟩ := hbehind
    obtain ⟨j, hj, hstep⟩ := Option.bind_eq_some_iff.mp hstep
    obtain ⟨c, hsend, ht⟩ := Option.bind_eq_some_iff.mp hstep
    cases ht
    cases hch.symm.trans hj
    obtain ⟨-, hitems⟩ := Channel.trySend_eq_some.mp hsend
    refine .inr (fun hsound => ?_)
    have hcount := hsound.counts rfl e i hch
    simp only [setChannel_evqs, setChannel_q, if_true, hitems, List.length_append,
      List.length_singleton] at hcount
    dsimp only at hlt
    omega
  | getLoaded e ev len =>
    obtain ⟨rfl, hpos, hlt, hcount⟩ := hbehind
    obtain ⟨len', hsub, rfl⟩ := Option.map_eq_some_iff.mp hstep
    dsimp only at hch hlt hcount
    obtain ⟨len'', hsub', hlen'⟩ := profile.subU8_one len hpos
    cases hsub.symm.trans hsub'
    refine .inr (fun hsound => ?_)
    have hsettled := hsound.counts rfl e i (by simpa using hch)
    simp only [setLen_len, if_true, setLen_eqPool] at hsettled
    omega

theorem step_lost (l : Label) (s t : State) (h : Lost s) (hstep : step profile l s = some t) :
    Lost t ∨ ¬ Sound profile t := by
  have hbusy : s.pc ≠ .idle := by
    obtain ⟨q, i, -, -, hbehind⟩ := h
    exact hbehind.not_idle
  cases l with
  | init | get | remove | callout =>
    exact absurd (Option.ite_none_right_eq_some.mp hstep).1 hbusy
  | put q ev => exact absurd (Option.ite_none_right_eq_some.mp hstep).1.1 hbusy
  | advance => exact advance_lost h hstep
  | interruptPut q ev =>
    obtain ⟨u, hput, rfl⟩ := Option.map_eq_some_iff.mp hstep
    exact .inl (handled_lost h (put_handled hput))
  | interruptWake co =>
    obtain ⟨u, hcb, rfl⟩ := Option.map_eq_some_iff.mp hstep
    exact .inl (handled_lost h (wake_handled hcb))

/-- A put between the load and the store of the counter leaves the thread
behind. -/
theorem handled_doom {s : State} {q : Ptr} {t : Npl} (h : Inv s)
    (hhandled : Handled (some q) s.npl t) (hloaded : loadedQueue s.pc = some q) :
    Lost ⟨t, s.pc⟩ := by
  obtain ⟨npl, pc⟩ := s
  obtain ⟨hcounts, hpc⟩ := h
  obtain ⟨ev, i, u, hadded, hevqs, hpool⟩ := hhandled
  dsimp only at hcounts hpc hadded hloaded ⊢
  have hbound := (npl.eqPool i).q.bounded
  have hcount := hcounts.len q i hadded.ch
  have hle := owed_le pc q
  have hlen : (t.evqs q).len.toNat = (npl.evqs q).len.toNat + 1 := by
    rw [hevqs]
    exact hadded.len (by omega)
  have hitems : (t.eqPool i).q.items.length = (npl.eqPool i).q.items.length + 1 := by
    rw [hpool, hadded.items, List.length_append, List.length_singleton]
  refine ⟨q, i, ?_, fun e he => ?_, ?_⟩
  · rw [hevqs, hadded.frame.ch]
    exact hadded.ch
  · rw [hevqs, hadded.frame.ch] at he
    exact hcounts.distinct e q i he hadded.ch
  · change Behind t q i pc
    cases pc with
    | putLoaded e ev' len =>
      cases hloaded
      obtain ⟨-, rfl⟩ := hpc
      simp only [owed, Nat.add_zero] at hcount
      refine ⟨rfl, ?_, ?_⟩ <;> omega
    | getLoaded e ev' len =>
      cases hloaded
      obtain ⟨-, rfl⟩ := hpc
      simp only [owed, if_true] at hcount
      refine ⟨rfl, ?_, ?_, ?_⟩ <;> omega
    | idle | putQueued | putStored | getPopped | getCleared => cases hloaded

theorem step_doom (l : Label) (s t : State) (h : Inv s) (hG : ¬ Undisturbed l s)
    (hstep : step profile l s = some t) : Lost t := by
  obtain ⟨q, hq, hloaded⟩ : ∃ q, handlerQueue s l = some q ∧ loadedQueue s.pc = some q := by
    simpa [Undisturbed] using hG
  cases l with
  | interruptPut e ev =>
    cases hq
    obtain ⟨u, hput, rfl⟩ := Option.map_eq_some_iff.mp hstep
    exact handled_doom h (put_handled hput) hloaded
  | interruptWake co =>
    obtain ⟨u, hcb, rfl⟩ := Option.map_eq_some_iff.mp hstep
    have hhandled := wake_handled hcb
    rw [show (if (s.npl.callouts co).active then some (s.npl.callouts co).eventQueue else none) =
      some q from hq] at hhandled
    exact handled_doom h hhandled hloaded
  | init | put | get | remove | callout | advance => cases hq

/-- In a run in which no handler puts into a queue between the thread's load
and store of its counter, every counter is right whenever no operation is in
progress, every remove visits each entry once, and no get decrements zero.
Conversely, a run that ends with no operation in progress and in which all
this holds is such a run. -/
theorem sound_iff_undisturbed (profile : Profile) (events : Ptr → BleNplEvent)
    (callouts : Ptr → BleNplCallout) (ls : List Label) (t : State)
    (h : run (step profile) ls (start events callouts) = some t) :
    (Along (step profile) Undisturbed ls (start events callouts) →
      Throughout (step profile) (Sound profile) ls (start events callouts)) ∧
    (t.pc = .idle → Throughout (step profile) (Sound profile) ls (start events callouts) →
      Along (step profile) Undisturbed ls (start events callouts)) := by
  have hkeep : ∀ l (s t : State), CounterInvariant.Inv s → Undisturbed l s →
      step profile l s = some t → CounterInvariant.Inv t :=
    fun l s t hs hG hstep => step_inv hs hG hstep
  constructor
  · exact throughout_of_along hkeep (fun _ hs => hs.sound profile) (start_inv events callouts)
  · intro hidle
    refine along_of_throughout hkeep step_doom step_lost (start_inv events callouts) h ?_
    rintro ⟨q, i, -, -, hbehind⟩
    exact hbehind.not_idle hidle

/-- A handler puts before the thread has loaded the counter. -/
theorem sound_iff_undisturbed_put : ∃ t, run (step .release)
      [.init 8, .put 8 100, .interruptPut 8 200, .advance, .advance, .advance]
      (start (fun _ => ⟨0, 0, false⟩) (fun _ => ⟨false, 0, 0⟩)) = some t ∧
    Throughout (step .release) (Sound .release)
      [.init 8, .put 8 100, .interruptPut 8 200, .advance, .advance, .advance]
      (start (fun _ => ⟨0, 0, false⟩) (fun _ => ⟨false, 0, 0⟩)) := by
  refine ⟨_, rfl, (sound_iff_undisturbed .release _ _ _ _ rfl).1 ?_⟩
  refine along_of_step ?_ rfl (along_of_step ?_ rfl (along_of_step ?_ rfl
    (along_of_step ?_ rfl (along_of_step ?_ rfl (along_of_step ?_ rfl trivial)))))
  all_goals
    intro q hq hloaded
    first
    | exact absurd (show none = some q from hq) (by simp)
    | exact absurd (show none = some q from hloaded) (by simp)

/-- A handler puts after the thread has loaded the counter: one of the two
entries is not counted. -/
theorem handler_put_lost : ∃ t, run (step .release)
      [.init 8, .put 8 100, .advance, .interruptPut 8 200, .advance, .advance]
      (start (fun _ => ⟨0, 0, false⟩) (fun _ => ⟨false, 0, 0⟩)) = some t ∧
    t.pc = .idle ∧ (t.npl.evqs 8).len = 1 ∧ content t.npl 8 = some [200, 100] ∧
    ¬ Sound .release t := by
  refine ⟨_, rfl, rfl, rfl, rfl, fun h => ?_⟩
  have hcount := h.counts rfl 8 0 rfl
  revert hcount
  decide

end CounterPreemption
