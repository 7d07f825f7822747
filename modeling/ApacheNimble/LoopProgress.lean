import ApacheNimble.EventLoop

/-!
# No event waits for ever

The loop of `nimble_port_run` runs an event as soon as it has it. What it has
still to do before it runs an event goes down with each of its own steps, and
nothing that anyone else does makes it more. `ble_ll_task` can also wait at its
gate, so none of this is about its queue.
-/
namespace LoopProgress

open PortLayer EventQueue FifoFamily QueuePanics QueueChanges Conveyor EventLoop Transition

variable {profile : Profile} {s t : State} {evq ev : Ptr} {l before ahead : List Ptr} {n : Nat}

/-- The steps of the loop of one queue. -/
def isLoop (evq : Ptr) : Label → Bool
  | .poll q | .run q | .done q => q = evq
  | _ => false

/-- The event is removed from the queue, or the queue is initialised again. -/
def drops (evq ev : Ptr) : Label → Bool
  | .firing (.timed (.queue (.remove q e))) => q = evq ∧ e = ev
  | .firing (.timed (.queue (.init q))) => q = evq
  | _ => false

/-- How many steps the loop takes before it polls again. -/
def untilPoll : TaskPc → Nat
  | .getting => 0
  | .got _ => 2
  | .handling => 1

/-- The one step that the loop can take. -/
def nextStep (evq : Ptr) : TaskPc → Label
  | .getting => .poll evq
  | .got _ => .run evq
  | .handling => .done evq

/-- An event that stands in the queue, or that the loop has in hand, or that has
been run. What has been run before it was ahead of it, and the loop runs it in
at most `n` steps. -/
inductive Waits (evq ev : Ptr) (before ahead : List Ptr) (n : Nat) (s : State) : Prop
  | queued (since pre post : List Ptr) : content s.npl evq = some (pre ++ ev :: post) →
      runs evq s.ran = before ++ since →
      (since ++ inHand (s.tasks evq) ++ pre).Sublist ahead →
      untilPoll (s.tasks evq) + 3 * pre.length + 2 ≤ n → Waits evq ev before ahead n s
  | taken (since : List Ptr) : s.tasks evq = .got ev → runs evq s.ran = before ++ since →
      since.Sublist ahead → 1 ≤ n → Waits evq ev before ahead n s
  | served (since after : List Ptr) : runs evq s.ran = before ++ since ++ ev :: after →
      since.Sublist ahead → Waits evq ev before ahead n s

section Others

variable {f g : Family Ptr Ptr} {ps ds : List (Ptr × Ptr)}

/-- A change that does not drop the event leaves it in its list and puts nothing
ahead of it. -/
theorem moved_stays {pre post : List Ptr} (h : Moved f ps ds g)
    (hf : f.lists evq = some (pre ++ ev :: post)) (hds : (evq, ev) ∉ ds) :
    ∃ pre' post', g.lists evq = some (pre' ++ ev :: post') ∧ pre'.Sublist pre := by
  cases h with
  | quiet => exact ⟨pre, post, hf, List.Sublist.refl _⟩
  | put q e l hl =>
    by_cases hq : evq = q
    · subst hq
      cases hf.symm.trans hl
      exact ⟨pre, post ++ [e], by simp, List.Sublist.refl _⟩
    · exact ⟨pre, post, by rwa [set_other f q evq _ hq], List.Sublist.refl _⟩
  | init q created =>
    by_cases hq : evq = q
    · subst hq
      simp [hf] at hds
    · exact ⟨pre, post, (set_other f q evq _ hq).trans hf, List.Sublist.refl _⟩
  | remove q e l hl =>
    by_cases hq : evq = q
    · subst hq
      cases hf.symm.trans hl
      have he : ev ≠ e := by
        rintro rfl
        simp at hds
      refine ⟨pre.filter (· ≠ e), post.filter (· ≠ e), ?_, List.filter_sublist⟩
      simp [he]
    · exact ⟨pre, post, by rwa [set_other f q evq _ hq], List.Sublist.refl _⟩

theorem moved_appends (h : Moved f ps ds g) (hps : (evq, ev) ∈ ps) :
    ∃ l, f.lists evq = some l ∧ g.lists evq = some (l ++ [ev]) := by
  cases h with
  | put q e l hl =>
    cases List.mem_singleton.mp hps
    exact ⟨l, hl, set_same ..⟩
  | quiet | init | remove => cases hps

theorem not_mem_dropsOf {k : CalloutFiring.Label} (h : drops evq ev (.firing k) = false)
    (s : Npl) : (evq, ev) ∉ dropsOf k s := by
  cases k with
  | timed k =>
    cases k with
    | queue op =>
      cases op with
      | init q =>
        have hq : q ≠ evq := by simpa [drops] using h
        simp [dropsOf, hq]
      | remove q e =>
        have hqe : q = evq → e ≠ ev := by simpa [drops] using h
        intro hmem
        obtain ⟨e', he', heq⟩ := List.mem_map.mp hmem
        cases heq
        exact hqe rfl (of_decide_eq_true (List.mem_filter.mp he').2).symm
      | put | get => simp [dropsOf]
    | init | resetExpiresAt | resetSchedule | resetActive | stop | wake | clock => simp [dropsOf]
  | clone | wake | wakeByRef => simp [dropsOf]

/-- The loops of the other queues and everyone else leave the event where it is,
and what the loop does. -/
theorem other_step {k : Label} (h : Orderly s) (hloop : isLoop evq k = false)
    (hdrops : drops evq ev k = false) (hstep : step profile k s = some t) :
    t.tasks evq = s.tasks evq ∧ runs evq t.ran = runs evq s.ran ∧
      ∀ pre post, content s.npl evq = some (pre ++ ev :: post) →
        ∃ pre' post', content t.npl evq = some (pre' ++ ev :: post') ∧ pre'.Sublist pre := by
  obtain ⟨f, hf, -⟩ := h.queues
  cases k with
  | firing k =>
    obtain ⟨htakes, hstep⟩ := Option.ite_none_left_eq_some.mp hstep
    obtain ⟨firing, hfiring, rfl⟩ := Option.map_eq_some_iff.mp hstep
    obtain ⟨g, hg, hmoved⟩ := (firing_change (by simpa using htakes) hfiring).moved hf
    refine ⟨rfl, rfl, fun pre post hl => ?_⟩
    have hstays := moved_stays hmoved ((hf.content_eq evq).symm.trans hl)
      (not_mem_dropsOf hdrops s.npl)
    rwa [← hg.content_eq evq] at hstays
  | eventInit | setArg =>
    cases hstep
    exact ⟨rfl, rfl, fun pre post hl => ⟨pre, post, hl, List.Sublist.refl _⟩⟩
  | poll q =>
    have hq : evq ≠ q := by simpa [isLoop, eq_comm] using hloop
    obtain ⟨-, hstep⟩ := Option.ite_none_right_eq_some.mp hstep
    obtain ⟨⟨npl, p⟩, hget, rfl⟩ := Option.map_eq_some_iff.mp hstep
    obtain ⟨rfl, hQ⟩ | ⟨e, l, rfl, hl, hQ⟩ := poll_moved hf hget
    · refine ⟨rfl, rfl, fun pre post hl => ⟨pre, post, ?_, List.Sublist.refl _⟩⟩
      rw [setNpl_npl, hQ.content_eq, ← hf.content_eq, hl]
    · refine ⟨Function.update_of_ne hq .., rfl, fun pre post hl => ?_⟩
      refine ⟨pre, post, ?_, List.Sublist.refl _⟩
      have hset := (hQ.content_eq evq).trans (set_other f q evq l hq)
      exact hset.trans ((hf.content_eq evq).symm.trans hl)
  | run q =>
    have hq : evq ≠ q := by simpa [isLoop, eq_comm] using hloop
    simp only [step] at hstep
    split at hstep
    · obtain ⟨handler, -, rfl⟩ := Option.map_eq_some_iff.mp hstep
      refine ⟨Function.update_of_ne hq .., ?_, fun pre post hl => ?_⟩
      · simp [runs, on, Ne.symm hq]
      · exact ⟨pre, post, hl, List.Sublist.refl _⟩
    · cases hstep
  | done q =>
    have hq : evq ≠ q := by simpa [isLoop, eq_comm] using hloop
    obtain ⟨-, ht⟩ := Option.ite_none_right_eq_some.mp hstep
    cases ht
    exact ⟨Function.update_of_ne hq .., rfl,
      fun pre post hl => ⟨pre, post, hl, List.Sublist.refl _⟩⟩

theorem Waits.other {k : Label} (hs : Orderly s) (h : Waits evq ev before ahead n s)
    (hloop : isLoop evq k = false) (hdrops : drops evq ev k = false)
    (hstep : step profile k s = some t) : Waits evq ev before ahead n t := by
  obtain ⟨htasks, hruns, hcontent⟩ := other_step hs hloop hdrops hstep
  cases h with
  | queued since pre post hl hsince hahead hle =>
    obtain ⟨pre', post', hl', hpre⟩ := hcontent pre post hl
    rw [← htasks] at hahead hle
    refine .queued since pre' post' hl' (hruns.trans hsince)
      (((List.Sublist.refl _).append hpre).trans hahead) ?_
    have hlength := hpre.length_le
    omega
  | taken since htask hsince hahead hle =>
    exact .taken since (htasks.trans htask) (hruns.trans hsince) hahead hle
  | served since after hserved hahead => exact .served since after (hruns.trans hserved) hahead

end Others

section Loop

variable {e : Ptr} {k : Label}

/-- A poll brings the head of the queue to hand. -/
theorem poll_step (profile : Profile) (hs : Orderly s) (htask : s.tasks evq = .getting)
    (hl : content s.npl evq = some (e :: l)) : ∃ t, step profile (.poll evq) s = some t ∧
      t.tasks evq = .got e ∧ t.ran = s.ran ∧ content t.npl evq = some l := by
  obtain ⟨f, hf, -⟩ := hs.queues
  obtain ⟨i, hi, -, hnull⟩ := hf.holds evq (e :: l) ((hf.content_eq evq).symm.trans hl)
  have he : e ≠ nullMut := fun he => hnull (he ▸ List.mem_cons_self)
  obtain ⟨npl, hget, hi', -, -⟩ := bleNplEventqGet_cons profile hi he 0xFFFFFFFF false
  refine ⟨{ s.setNpl npl with tasks := Function.update s.tasks evq (.got e) }, ?_, ?_⟩
  · simp [step, htask, hget]
  · exact ⟨Function.update_self .., rfl, hi'.content⟩

theorem run_step (profile : Profile) (hs : Orderly s) (htask : s.tasks evq = .got e) :
    ∃ t, step profile (.run evq) s = some t ∧ t.tasks evq = .handling ∧
      runs evq t.ran = runs evq s.ran ++ [e] ∧ content t.npl evq = content s.npl evq := by
  have hsome : (step profile (.run evq) s).isSome := runEvent_isSome hs htask
  obtain ⟨t, ht⟩ := Option.isSome_iff_exists.mp hsome
  refine ⟨t, ht, ?_⟩
  simp only [step, htask] at ht
  obtain ⟨handler, -, rfl⟩ := Option.map_eq_some_iff.mp ht
  exact ⟨Function.update_self .., by simp [runs, on], rfl⟩

theorem done_step (profile : Profile) (htask : s.tasks evq = .handling) :
    ∃ t, step profile (.done evq) s = some t ∧ t.tasks evq = .getting ∧
      t.ran = s.ran ∧ content t.npl evq = content s.npl evq :=
  ⟨_, if_pos htask, Function.update_self .., rfl, rfl⟩

/-- What has been run stays run. -/
theorem ran_grows (evq : Ptr) (h : step profile k s = some t) :
    ∃ rs, runs evq t.ran = runs evq s.ran ++ rs := by
  cases k with
  | firing k =>
    obtain ⟨-, hstep⟩ := Option.ite_none_left_eq_some.mp h
    obtain ⟨firing, -, rfl⟩ := Option.map_eq_some_iff.mp hstep
    exact ⟨[], (List.append_nil _).symm⟩
  | eventInit | setArg =>
    cases h
    exact ⟨[], (List.append_nil _).symm⟩
  | poll q =>
    obtain ⟨-, hstep⟩ := Option.ite_none_right_eq_some.mp h
    obtain ⟨⟨npl, p⟩, -, rfl⟩ := Option.map_eq_some_iff.mp hstep
    cases p <;> exact ⟨[], (List.append_nil _).symm⟩
  | run q =>
    simp only [step] at h
    split at h
    · obtain ⟨handler, -, rfl⟩ := Option.map_eq_some_iff.mp h
      exact ⟨_, by rw [runs, List.map_append, on_append]; rfl⟩
    · cases h
  | done q =>
    obtain ⟨-, ht⟩ := Option.ite_none_right_eq_some.mp h
    cases ht
    exact ⟨[], (List.append_nil _).symm⟩

/-- The loop can take its next step, and is one step nearer to the event then. -/
theorem Waits.next (profile : Profile) (hs : Orderly s) (h : Waits evq ev before ahead n s) :
    (∃ since after, runs evq s.ran = before ++ since ++ ev :: after ∧ since.Sublist ahead) ∨
      1 ≤ n ∧ ∃ t, step profile (nextStep evq (s.tasks evq)) s = some t ∧
        Waits evq ev before ahead (n - 1) t := by
  cases h with
  | served since after hserved hahead => exact .inl ⟨since, after, hserved, hahead⟩
  | taken since htask hsince hahead hle =>
    obtain ⟨t, ht, -, hran, -⟩ := run_step profile hs htask
    refine .inr ⟨hle, t, by rw [htask]; exact ht, .served since [] ?_ hahead⟩
    rw [hran, hsince]
  | queued since pre post hl hsince hahead hle =>
    refine .inr ⟨by omega, ?_⟩
    cases htask : s.tasks evq with
    | getting =>
      rw [htask] at hahead hle
      cases pre with
      | nil =>
        obtain ⟨t, ht, htaken, hran, -⟩ := poll_step profile hs htask hl
        refine ⟨t, ht, .taken since htaken (by rw [hran, hsince]) ?_ ?_⟩
        · simpa [inHand] using hahead
        · simp only [List.length_nil] at hle
          omega
      | cons e pre =>
        obtain ⟨t, ht, htaken, hran, hl'⟩ := poll_step profile hs htask hl
        refine ⟨t, ht, .queued since pre post hl' (by rw [hran, hsince]) ?_ ?_⟩
        · rw [htaken]
          simpa [inHand] using hahead
        · rw [htaken]
          simp only [List.length_cons, untilPoll] at hle ⊢
          omega
    | got e =>
      rw [htask] at hahead hle
      obtain ⟨t, ht, hhandling, hran, hl'⟩ := run_step profile hs htask
      refine ⟨t, ht, .queued (since ++ [e]) pre post (hl'.trans hl) ?_ ?_ ?_⟩
      · rw [hran, hsince, List.append_assoc]
      · rw [hhandling]
        simpa [inHand] using hahead
      · rw [hhandling]
        simp only [untilPoll] at hle ⊢
        omega
    | handling =>
      rw [htask] at hahead hle
      obtain ⟨t, ht, hgetting, hran, hl'⟩ := done_step profile htask
      refine ⟨t, ht, .queued since pre post (hl'.trans hl) (by rw [hran, hsince]) ?_ ?_⟩
      · rw [hgetting]
        simpa [inHand] using hahead
      · rw [hgetting]
        simp only [untilPoll] at hle ⊢
        omega

theorem eq_nextStep (hloop : isLoop evq k = true) (h : step profile k s = some t) :
    k = nextStep evq (s.tasks evq) := by
  cases k with
  | poll q =>
    obtain rfl : q = evq := by simpa [isLoop] using hloop
    obtain ⟨htask, -⟩ := Option.ite_none_right_eq_some.mp h
    rw [htask]
    rfl
  | run q =>
    obtain rfl : q = evq := by simpa [isLoop] using hloop
    simp only [step] at h
    split at h
    · rename_i htask
      rw [htask]
      rfl
    · cases h
  | done q =>
    obtain rfl : q = evq := by simpa [isLoop] using hloop
    obtain ⟨htask, -⟩ := Option.ite_none_right_eq_some.mp h
    rw [htask]
    rfl
  | firing | eventInit | setArg => cases hloop

theorem Waits.loop (hs : Orderly s) (h : Waits evq ev before ahead n s)
    (hloop : isLoop evq k = true) (hstep : step profile k s = some t) :
    Waits evq ev before ahead (n - 1) t := by
  obtain ⟨since, after, hserved, hahead⟩ | ⟨-, t', hstep', hw⟩ := h.next profile hs
  · obtain ⟨rs, hrs⟩ := ran_grows evq hstep
    refine .served since (after ++ rs) ?_ hahead
    rw [hrs, hserved]
    simp
  · rw [eq_nextStep hloop hstep] at hstep
    cases hstep.symm.trans hstep'
    exact hw

/-- Whoever takes a step, the event is as near as before, and nearer if it is the
loop. -/
theorem Waits.step (hs : Orderly s) (h : Waits evq ev before ahead n s)
    (hdrops : drops evq ev k = false) (hstep : EventLoop.step profile k s = some t) :
    Waits evq ev before ahead (n - if isLoop evq k then 1 else 0) t := by
  cases hloop : isLoop evq k with
  | true => exact h.loop hs hloop hstep
  | false => exact h.other hs hloop hdrops hstep

/-- In a run that does not drop the event the loop comes nearer to it by as many
steps as it takes. -/
theorem Waits.run {ks : List Label} (hs : Orderly s) (h : Waits evq ev before ahead n s)
    (hdrops : ∀ k ∈ ks, drops evq ev k = false)
    (hrun : Transition.run (EventLoop.step profile) ks s = some t) :
    Waits evq ev before ahead (n - ks.countP (isLoop evq)) t := by
  have hboth : Orderly t ∧ Waits evq ev before ahead (n - ks.countP (isLoop evq)) t := by
    refine run_countdown (I := fun n s => Orderly s ∧ Waits evq ev before ahead n s) ?_ ⟨hs, h⟩
      (along_of_forall (fun k hk _ => hdrops k hk) s) hrun
    rintro n k s t ⟨hs, hw⟩ hk hstep
    exact ⟨step_orderly k s t hs hstep, hw.step hs hk hstep⟩
  exact hboth.2

/-- What is put stands at the end of its queue, which held fifteen at most. -/
theorem put_stands {k : CalloutFiring.Label} (hs : Orderly s) (hput : (evq, ev) ∈ putsOf k s.npl)
    (hstep : step profile (.firing k) s = some t) :
    ∃ l, content s.npl evq = some l ∧ content t.npl evq = some (l ++ [ev]) ∧ l.length ≤ 15 ∧
      t.tasks evq = s.tasks evq ∧ t.ran = s.ran := by
  obtain ⟨f, hf, -⟩ := hs.queues
  obtain ⟨htakes, hstep⟩ := Option.ite_none_left_eq_some.mp hstep
  obtain ⟨firing, hfiring, rfl⟩ := Option.map_eq_some_iff.mp hstep
  obtain ⟨g, hg, hmoved⟩ := (firing_change (by simpa using htakes) hfiring).moved hf
  obtain ⟨l, hl, hl'⟩ := moved_appends hmoved hput
  obtain ⟨i, hi, -⟩ := hg.holds evq _ hl'
  have hlength := hi.length_le
  rw [List.length_append, List.length_singleton] at hlength
  exact ⟨l, (hf.content_eq evq).trans hl, hi.content, by omega, rfl, rfl⟩

end Loop

end LoopProgress
