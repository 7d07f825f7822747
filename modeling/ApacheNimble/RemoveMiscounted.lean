import ApacheNimble.CyclicPass
import ApacheNimble.EventQueue

/-!
# Removing an event when the counter is wrong

`len` may have lost updates of interrupts. The loop of the removal counts to
`len` all the same, whatever the channel holds.
-/
namespace RemoveMiscounted

open PortLayer EventQueue CyclicPass

variable {profile : Profile} {s t : Npl} {evq ev : Ptr} {i : Fin 8} {l : List Ptr} {m : Nat}

/-- The queue uses slot `i`, its channel holds `l` and its counter says `m`. -/
structure Counted (s : Npl) (evq : Ptr) (i : Fin 8) (l : List Ptr) (m : Nat) : Prop where
  ch : (s.evqs evq).ch = some i
  items : (s.eqPool i).q.items = l
  len : (s.evqs evq).len.toNat = m

theorem Counted.content (h : Counted s evq i l m) : content s evq = some l := by
  simp [EventQueue.content, h.ch, h.items]

/-- The channel has nothing to give, and `unwrap` panics. -/
theorem removeBody_nil (h : Counted s evq i [] m) : removeBody profile evq ev s = none := by
  simp [removeBody, h.ch, Fifo.Channel.tryReceive_eq_none.mpr h.items]

theorem removeBody_cons {x : Ptr} (profile : Profile) (ev : Ptr)
    (h : Counted s evq i (x :: l) (m + 1)) :
    ∃ t, removeBody profile evq ev s = some t ∧ Frame evq i s t ∧
      Counted t evq i (l ++ [x].filter (· ≠ ev)) (if x = ev then m else m + 1) ∧
      ∀ e, (t.events e).queued = if e = ev ∧ x = ev then false else (s.events e).queued := by
  obtain ⟨q, hrecv, hq⟩ := (s.eqPool i).q.tryReceive_of_cons h.items
  have hbound := (s.eqPool i).q.bounded
  rw [h.items, List.length_cons] at hbound
  by_cases hx : x = ev
  · obtain ⟨len, hsub, hlen⟩ := profile.subU8_one (s.evqs evq).len (by rw [h.len]; omega)
    refine ⟨((s.setChannel i q).setQueued ev false).setLen evq len, ?_, ?_, ⟨?_, ?_, ?_⟩, ?_⟩
    · simp [removeBody, h.ch, hrecv, hx, hsub]
    · exact ((frame_setChannel evq i s q).trans (frame_setQueued evq i _ ev false)).trans
        (frame_setLen evq i _ len)
    · simpa using h.ch
    · simpa [hx] using hq
    · rw [if_pos hx, setLen_len, if_pos rfl]
      have := h.len
      omega
    · intro e
      simp [hx]
  · obtain ⟨q', hsend, hq'⟩ := q.trySend_of_lt x (by rw [hq]; omega)
    refine ⟨(s.setChannel i q).setChannel i q', ?_, ?_, ⟨?_, ?_, ?_⟩, ?_⟩
    · simp [removeBody, h.ch, hrecv, hx, hsend]
    · exact (frame_setChannel evq i s q).trans (frame_setChannel evq i _ q')
    · exact h.ch
    · simp [hq', hq, hx]
    · rw [if_neg hx]
      exact h.len
    · intro e
      simp [hx]

/-- What is put back is not the event, so it does not count when it is met
again. -/
theorem count_take_putBack (ev x : Ptr) (l : List Ptr) (n : Nat) :
    ((l ++ [x].filter (· ≠ ev)).take n).count ev = (l.take n).count ev := by
  have hnone : ([x].filter (· ≠ ev)).count ev = 0 := List.count_eq_zero.mpr (by simp)
  have htake : (([x].filter (· ≠ ev)).take (n - l.length)).count ev = 0 :=
    Nat.le_zero.mp (hnone ▸ (List.take_sublist _ _).count_le ev)
  rw [List.take_append, List.count_append, htake, Nat.add_zero]

/-- What the loop leaves: the channel passed round, and the counter less the
occurrences that were met. -/
theorem removeLoop_pass (profile : Profile) (ev : Ptr) {n : Nat} (h : Counted s evq i l m)
    (hn : n ≤ m) :
    (pass ev n l = none → removeLoop profile evq ev n s = none) ∧
    ∀ l', pass ev n l = some l' → ∃ t, removeLoop profile evq ev n s = some t ∧
      Frame evq i s t ∧ Counted t evq i l' (m - (l.take n).count ev) ∧
      ∀ e, (t.events e).queued =
        if e = ev ∧ 0 < (l.take n).count ev then false else (s.events e).queued := by
  induction n generalizing s l m with
  | zero =>
    refine ⟨nofun, fun l' hl' => ?_⟩
    cases (pass_zero ev l).symm.trans hl'
    exact ⟨s, rfl, Frame.refl evq i s, by simpa using h, by simp⟩
  | succ n ih =>
    obtain ⟨m, rfl⟩ : ∃ k, m = k + 1 := ⟨m - 1, by omega⟩
    cases l with
    | nil =>
      refine ⟨fun _ => ?_, nofun⟩
      simp [removeLoop, removeBody_nil h]
    | cons x l =>
      obtain ⟨u, hbody, hframe, hu, hflags⟩ := removeBody_cons profile ev h
      obtain ⟨hnone, hsome⟩ := ih hu (by split <;> omega)
      have hloop : removeLoop profile evq ev (n + 1) s = removeLoop profile evq ev n u := by
        rw [removeLoop, hbody, Option.bind_some]
      rw [pass_succ_cons, hloop]
      refine ⟨hnone, fun l' hl' => ?_⟩
      obtain ⟨t, ht, hframe', hcounted, hflags'⟩ := hsome l' hl'
      rw [count_take_putBack] at hcounted hflags'
      refine ⟨t, ht, hframe.trans hframe', ?_, fun e => ?_⟩
      · have hlen : m + 1 - ((x :: l).take (n + 1)).count ev =
            (if x = ev then m else m + 1) - (l.take n).count ev := by
          rw [List.take_succ_cons, List.count_cons]
          by_cases hx : x = ev <;> simp [hx]
        rw [hlen]
        exact hcounted
      · rw [hflags' e, hflags e, List.take_succ_cons, List.count_cons]
        by_cases he : e = ev <;> by_cases hx : x = ev <;> simp [he, hx]

/-- The removal passes over as many entries as the counter says. With fewer in
the channel it goes round again, and panics exactly if there is nothing but the
event. With more, those at the end are not looked at and come to the front. -/
theorem remove_any_counter (profile : Profile) (ev : Ptr) (h : Counted s evq i l m) :
    (bleNplEventqRemove profile evq ev s = none ↔ l.length < m ∧ l.filter (· ≠ ev) = []) ∧
    ∀ t, bleNplEventqRemove profile evq ev s = some t →
      Frame evq i s t ∧ (t.evqs evq).len.toNat = m - (l.take m).count ev ∧
      content t evq = some (if m ≤ l.length then l.drop m ++ (l.take m).filter (· ≠ ev)
        else (l.filter (· ≠ ev)).rotate (m - l.length)) ∧
      ∀ e, (t.events e).queued =
        if e = ev ∧ 0 < (l.take m).count ev then false else (s.events e).queued := by
  obtain ⟨hnone, hsome⟩ := removeLoop_pass profile ev h (Nat.le_refl m)
  have hloop : bleNplEventqRemove profile evq ev s = removeLoop profile evq ev m s := by
    rw [bleNplEventqRemove, h.len]
  rw [hloop]
  by_cases hle : m ≤ l.length
  · obtain ⟨t, ht, hframe, hcounted, hflags⟩ := hsome _ (pass_of_le ev hle)
    rw [ht]
    refine ⟨by simp; omega, ?_⟩
    rintro _ ⟨⟩
    refine ⟨hframe, hcounted.len, ?_, hflags⟩
    rw [if_pos hle]
    exact hcounted.content
  · have hpass := pass_of_lt ev (Nat.lt_of_not_le hle)
    by_cases hempty : l.filter (· ≠ ev) = []
    · rw [if_pos hempty] at hpass
      rw [hnone hpass]
      exact ⟨⟨fun _ => ⟨Nat.lt_of_not_le hle, hempty⟩, fun _ => rfl⟩, by rintro _ ⟨⟩⟩
    · rw [if_neg hempty] at hpass
      obtain ⟨t, ht, hframe, hcounted, hflags⟩ := hsome _ hpass
      rw [ht]
      refine ⟨by simp only [reduceCtorEq, hempty, and_false], ?_⟩
      rintro _ ⟨⟩
      refine ⟨hframe, hcounted.len, ?_, hflags⟩
      rw [if_neg hle]
      exact hcounted.content

/-- A queue of two whose counter has lost an update. -/
def lost : Npl where
  eqPool := Function.update (fun _ => ⟨Fifo.Channel.empty, false⟩) 0 ⟨⟨[7, 8], by decide⟩, true⟩
  evqs _ := ⟨some 0, 1⟩
  events _ := ⟨0, 0, true⟩
  callouts _ := ⟨false, 0, 0⟩

/-- The event at the end is not removed, and comes to the front. -/
theorem remove_any_counter_lost : ∃ t, bleNplEventqRemove .debug 100 8 lost = some t ∧
    content t 100 = some [8, 7] ∧ (t.events 8).queued = true := by
  have hlost : Counted lost 100 0 [7, 8] 1 := ⟨rfl, rfl, rfl⟩
  obtain ⟨hnone, hsome⟩ := remove_any_counter .debug 8 hlost
  cases hremove : bleNplEventqRemove .debug 100 8 lost with
  | none =>
    obtain ⟨hlt, -⟩ := hnone.mp hremove
    simp at hlt
  | some t =>
    obtain ⟨-, -, hcontent, hflags⟩ := hsome t hremove
    exact ⟨t, rfl, hcontent, hflags 8⟩

end RemoveMiscounted
