import ApacheNimble.EventQueueFamily

/-!
# What the operations on a queue write

They set `queued` of events, the counter of their own queue and the contents of
channels. Whatever none of these writes touches, no operation changes.
-/
namespace QueueWrites

open PortLayer EventQueue EventQueueFamily

variable {profile : Profile} {s t u : Npl} {evq ev : Ptr}

inductive Writes (evq : Ptr) (s : Npl) : Npl → Prop
  | nothing : Writes evq s s
  | queued {t : Npl} (ev : Ptr) (b : Bool) : Writes evq s t → Writes evq s (t.setQueued ev b)
  | len {t : Npl} (len : UInt8) : Writes evq s t → Writes evq s (t.setLen evq len)
  | channel {t : Npl} (slot : Fin 8) (q : Fifo.Channel Ptr 16) : Writes evq s t →
      Writes evq s (t.setChannel slot q)

theorem Writes.trans (h₁ : Writes evq s t) (h₂ : Writes evq t u) : Writes evq s u := by
  induction h₂ with
  | nothing => exact h₁
  | queued ev b _ ih => exact .queued ev b ih
  | len len _ ih => exact .len len ih
  | channel slot q _ ih => exact .channel slot q ih

theorem Writes.keeps {β : Type} {f : Npl → β} (h : Writes evq s t)
    (hqueued : ∀ s ev b, f (s.setQueued ev b) = f s)
    (hlen : ∀ s len, f (s.setLen evq len) = f s)
    (hchannel : ∀ s slot q, f (s.setChannel slot q) = f s) : f t = f s := by
  induction h with
  | nothing => rfl
  | queued ev b _ ih => rw [hqueued, ih]
  | len len _ ih => rw [hlen, ih]
  | channel slot q _ ih => rw [hchannel, ih]

theorem put_writes (h : bleNplEventqPut profile evq ev s = some t) : Writes evq s t := by
  simp only [bleNplEventqPut, Option.bind_eq_bind, Option.bind_eq_some_iff] at h
  obtain ⟨-, -, len, -, slot, -, q, -, hq⟩ := h
  cases hq
  exact .channel slot q (.len len (.queued ev true .nothing))

theorem receiveOr_writes (evq : Ptr) (slot : Fin 8) (absent : Poll Ptr) (s : Npl) :
    Writes evq s (receiveOr slot absent s).1 := by
  unfold receiveOr
  split
  · exact .channel slot _ .nothing
  · exact .nothing

/-- Whatever the timeout, the channel is asked once. -/
theorem bleNplEventqGet_eq (evq : Ptr) (tmo : UInt32) (expired : Bool) (s : Npl) :
    bleNplEventqGet profile evq tmo expired s = (s.evqs evq).ch.bind (fun slot =>
      match receiveOr slot (emptyPoll tmo expired) s with
      | (s, .pending) => some (s, .pending)
      | (s, .ready ev) =>
        if ev ≠ nullMut then
          (profile.subU8 ((s.setQueued ev false).evqs evq).len 1).map (fun len =>
            ((s.setQueued ev false).setLen evq len, .ready ev))
        else some (s, .ready ev)) := by
  have hpolled : ∀ slot, (if tmo = 0 then receiveOr slot (.ready nullMut) s
      else if tmo = 0xFFFFFFFF then receiveOr slot .pending s
      else receiveOr slot (if expired then .ready nullMut else .pending) s) =
        receiveOr slot (emptyPoll tmo expired) s := by
    intro slot
    unfold emptyPoll
    split
    · rfl
    · split <;> rfl
  simp only [bleNplEventqGet, hpolled, Option.map_eq_bind]
  rfl

theorem get_writes {tmo : UInt32} {expired : Bool} {p : Poll Ptr}
    (h : bleNplEventqGet profile evq tmo expired s = some (t, p)) : Writes evq s t := by
  rw [bleNplEventqGet_eq] at h
  obtain ⟨slot, -, h⟩ := Option.bind_eq_some_iff.mp h
  have hrecv := receiveOr_writes evq slot (emptyPoll tmo expired) s
  generalize receiveOr slot (emptyPoll tmo expired) s = x at h hrecv
  obtain ⟨s₁, p₁⟩ := x
  cases p₁ with
  | pending =>
    cases h
    exact hrecv
  | ready ev =>
    simp only at h
    split at h
    · obtain ⟨len, -, ht⟩ := Option.map_eq_some_iff.mp h
      cases ht
      exact .len len (.queued ev false hrecv)
    · cases h
      exact hrecv

theorem removeBody_writes (h : removeBody profile evq ev s = some t) : Writes evq s t := by
  simp only [removeBody, Option.bind_eq_bind, Option.bind_eq_some_iff] at h
  obtain ⟨slot, -, ⟨pulled, q⟩, -, h⟩ := h
  have hpulled : Writes evq s (s.setChannel slot q) := .channel slot q .nothing
  split at h
  · obtain ⟨len, -, ht⟩ := Option.bind_eq_some_iff.mp h
    cases ht
    exact .len len (.queued ev false hpulled)
  · obtain ⟨q', -, ht⟩ := Option.bind_eq_some_iff.mp h
    cases ht
    exact .channel slot q' hpulled

theorem removeLoop_writes {n : Nat} (h : removeLoop profile evq ev n s = some t) :
    Writes evq s t := by
  induction n generalizing s with
  | zero =>
    cases h
    exact .nothing
  | succ n ih =>
    obtain ⟨u, hu, ht⟩ := Option.bind_eq_some_iff.mp h
    exact (removeBody_writes hu).trans (ih ht)

/-- An operation initialises a queue or only writes to its own. -/
theorem step_writes {op : Op} {r : Ret} (h : step profile op s = some (t, r)) :
    (∃ evq, op = .init evq ∧ bleNplEventqInit evq s = some t) ∨ Writes op.queue s t := by
  cases op with
  | init evq =>
    obtain ⟨u, hu, hr⟩ := Option.map_eq_some_iff.mp h
    cases hr
    exact .inl ⟨evq, rfl, hu⟩
  | put evq ev =>
    obtain ⟨u, hu, hr⟩ := Option.map_eq_some_iff.mp h
    cases hr
    exact .inr (put_writes hu)
  | get evq tmo expired =>
    obtain ⟨⟨u, p⟩, hu, hr⟩ := Option.map_eq_some_iff.mp h
    cases hr
    exact .inr (get_writes hu)
  | remove evq ev =>
    obtain ⟨u, hu, hr⟩ := Option.map_eq_some_iff.mp h
    cases hr
    exact .inr (removeLoop_writes hu)

end QueueWrites
