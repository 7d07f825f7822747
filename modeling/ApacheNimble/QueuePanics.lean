import ApacheNimble.QueueWrites

/-!
# Where the event queues are undefined

The lists are made to do what the code does where a caller does not respect
the port layer: the same operations are undefined, and removing from a queue
that was never initialised does nothing, because its counter is zero.
-/
namespace QueuePanics

open PortLayer EventQueue FifoFamily EventQueueFamily QueueWrites Transition

variable {profile : Profile} {s t : Npl} {f : Family Ptr Ptr} {evq ev : Ptr}

def exactStep : Op → Family Ptr Ptr → Option (Family Ptr Ptr × Ret)
  | .remove evq ev, f => match f.lists evq with
    | none => some (f, .unit)
    | some l => some (f.set evq (l.filter (· ≠ ev)), .unit)
  | op, f => listStep op f

/-- The pool and zeroed queues. -/
def blank (events : Ptr → BleNplEvent) (callouts : Ptr → BleNplCallout) : Npl :=
  boot (fun _ => ⟨none, 0⟩) events callouts

/-- Every list is held by a queue, and what has no list is still zero. -/
structure Queues (s : Npl) (f : Family Ptr Ptr) : Prop extends Refines s f where
  absent : ∀ evq, f.lists evq = none → s.evqs evq = ⟨none, 0⟩

theorem blank_queues (events : Ptr → BleNplEvent) (callouts : Ptr → BleNplCallout) :
    Queues (blank events callouts) FifoFamily.empty where
  toRefines := boot_refines _ events callouts
  absent _ _ := rfl

theorem Queues.content_eq (h : Queues s f) (evq : Ptr) : content s evq = f.lists evq := by
  cases hl : f.lists evq with
  | none => simp [content, h.absent evq hl]
  | some l => exact (h.toRefines.content hl).1

section Frames

theorem writes_evqs (h : Writes evq s t) {e : Ptr} (he : e ≠ evq) : t.evqs e = s.evqs e := by
  refine h.keeps (f := fun s => s.evqs e) ?_ ?_ ?_
  · exact fun s ev b => congrFun (setQueued_evqs s ev b) e
  · exact fun s len => Function.update_of_ne he ..
  · exact fun s slot q => rfl

theorem init_evqs (h : bleNplEventqInit evq s = some t) {e : Ptr} (he : e ≠ evq) :
    t.evqs e = s.evqs e := by
  unfold bleNplEventqInit at h
  split at h
  · cases h
    exact Function.update_of_ne he ..
  · cases h

/-- An operation does not write to the other queues. -/
theorem step_evqs {op : Op} {r : Ret} (h : step profile op s = some (t, r)) {e : Ptr}
    (he : e ≠ op.queue) : t.evqs e = s.evqs e := by
  obtain ⟨evq, rfl, hinit⟩ | hwrites := step_writes h
  · exact init_evqs hinit he
  · exact writes_evqs hwrites he

end Frames

theorem exactStep_of_ne_remove {op : Op} (h : ∀ evq ev, op ≠ .remove evq ev) :
    exactStep op f = listStep op f := by
  cases op with
  | init | put | get => rfl
  | remove evq ev => exact absurd rfl (h evq ev)

/-- After an operation that is defined, its queue has a list. -/
theorem listStep_queue {op : Op} {g : Family Ptr Ptr} {r : Ret} (h : listStep op f = some (g, r)) :
    g.lists op.queue ≠ none := by
  cases op with
  | init evq =>
    simp only [listStep, Option.map_eq_some_iff, create_eq_some] at h
    obtain ⟨_, ⟨-, rfl⟩, he⟩ := h
    cases he
    simp [Op.queue]
  | put evq ev =>
    simp only [listStep, Option.ite_none_left_eq_some, Option.map_eq_some_iff, put_eq_some] at h
    obtain ⟨-, _, ⟨l, -, -, rfl⟩, he⟩ := h
    cases he
    simp [Op.queue]
  | get evq tmo expired =>
    simp only [listStep, Option.map_eq_some_iff, Prod.exists, get_eq_some] at h
    obtain ⟨_, _, ⟨hl, rfl, rfl⟩ | ⟨ev, l, -, rfl, rfl⟩, he⟩ := h
    · cases he
      simp [Op.queue, hl]
    · cases he
      simp [Op.queue]
  | remove evq ev =>
    simp only [listStep, Option.ite_none_left_eq_some, Option.map_eq_some_iff, remove_eq_some] at h
    obtain ⟨-, _, ⟨l, -, rfl⟩, he⟩ := h
    cases he
    simp [Op.queue]

/-- Where the lists go, the code goes. -/
theorem exactStep_simulates (profile : Profile) : Simulates (step profile) exactStep Queues := by
  intro op s f g r h hstep
  by_cases hop : ∀ evq ev, op ≠ .remove evq ev
  · rw [exactStep_of_ne_remove hop] at hstep
    obtain ⟨s', hs', hR⟩ := step_simulates profile op s f g r h.toRefines hstep
    refine ⟨s', hs', hR, fun e he => ?_⟩
    have hne : e ≠ op.queue := by
      rintro rfl
      exact listStep_queue hstep he
    rw [step_evqs hs' hne]
    exact h.absent e ((listStep_other hstep hne).symm.trans he)
  · obtain ⟨evq, ev, rfl⟩ : ∃ evq ev, op = .remove evq ev := by simpa using hop
    cases hl : f.lists evq with
    | none =>
      simp only [exactStep, hl] at hstep
      cases hstep
      refine ⟨s, ?_, h⟩
      simp [step, bleNplEventqRemove, h.absent evq hl, removeLoop]
    | some l =>
      simp only [exactStep, hl] at hstep
      cases hstep
      obtain ⟨i, hs, -, hnull⟩ := h.holds evq l hl
      obtain ⟨s', hrem, hs', hframe, -⟩ := bleNplEventqRemove_spec profile ev hs
      have hset : Refines s' (f.set evq (l.filter (· ≠ ev))) :=
        h.toRefines.set hl hs hs' hframe (fun hm => hnull (List.mem_of_mem_filter hm))
      have hs₁ : step profile (.remove evq ev) s = some (s', .unit) := by simp [step, hrem]
      refine ⟨s', hs₁, hset, fun e he => ?_⟩
      have hne : e ≠ evq := by
        rintro rfl
        simp at he
      rw [step_evqs hs₁ hne]
      exact h.absent e (by rwa [set_other f evq e _ hne] at he)

/-- With all slots taken `find` finds none. -/
theorem firstFree_of_full (h : 8 ≤ (takenSlots s).card) : firstFree s = none := by
  have hall : takenSlots s = Finset.univ := by
    apply Finset.eq_univ_of_card
    have hle := Finset.card_le_univ (takenSlots s)
    rw [Fintype.card_fin] at hle ⊢
    omega
  rw [firstFree, List.find?_eq_none]
  intro i _
  have hi : i ∈ takenSlots s := hall ▸ Finset.mem_univ i
  simpa [takenSlots] using hi

/-- Where the lists are stuck, the code panics or follows a null pointer. -/
theorem step_stuck (h : Queues s f) {op : Op} (hop : exactStep op f = none) :
    step profile op s = none := by
  cases op with
  | init evq =>
    have hfull : 8 ≤ (takenSlots s).card := by
      rw [h.created]
      simpa [exactStep, listStep, create] using hop
    simp [step, bleNplEventqInit, firstFree_of_full hfull]
  | put evq ev =>
    by_cases hev : ev = nullMut
    · simp [step, bleNplEventqPut, hev, failure]
    · cases hl : f.lists evq with
      | none => simp [step, bleNplEventqPut, h.absent evq hl]
      | some l =>
        obtain ⟨i, hs, -, -⟩ := h.holds evq l hl
        have hfull : ¬ l.length < 16 := by
          intro hlt
          simp [exactStep, listStep, hev, FifoFamily.put, hl, hlt] at hop
        have hlen := hs.length_le
        simp [step, bleNplEventqPut_full hs (show l.length = 16 by omega)]
  | get evq tmo expired =>
    cases hl : f.lists evq with
    | none => simp [step, bleNplEventqGet, h.absent evq hl]
    | some l => simp [exactStep, listStep, FifoFamily.get, hl] at hop
  | remove evq ev => cases hl : f.lists evq <;> simp [exactStep, hl] at hop

/-- Where the code goes, the lists go. -/
theorem simulates_exactStep (profile : Profile) :
    Simulates exactStep (step profile) (fun f s => Queues s f) := by
  intro op f s s' r h hstep
  cases hop : exactStep op f with
  | none =>
    rw [step_stuck h hop] at hstep
    cases hstep
  | some x =>
    obtain ⟨g, r'⟩ := x
    obtain ⟨u, hu, hQ⟩ := exactStep_simulates profile op s f g r' h hop
    rw [hstep] at hu
    cases hu
    exact ⟨g, rfl, hQ⟩

end QueuePanics
