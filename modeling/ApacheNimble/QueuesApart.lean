import ApacheNimble.EventQueue

/-!
# Queues that do not share a channel

Operations on queues keep their channels apart whatever their counters say, and
one that concerns one queue leaves the content of the others alone.
-/
namespace QueuesApart

open PortLayer EventQueue

variable {profile : Profile} {s t : Npl} {evq ev : Ptr} {i : Fin 8}

/-- Queues have channels of their own, slots that are not taken are empty, and no
channel holds null. -/
structure Apart (s : Npl) : Prop where
  distinct : ∀ e e' i, (s.evqs e).ch = some i → (s.evqs e').ch = some i → e = e'
  taken : ∀ e i, (s.evqs e).ch = some i → (s.eqPool i).taken = true
  free : ∀ i, (s.eqPool i).taken = false → (s.eqPool i).q.items = []
  nonnull : ∀ i, nullMut ∉ (s.eqPool i).q.items

theorem boot_apart (events : Ptr → BleNplEvent) (callouts : Ptr → BleNplCallout) :
    Apart (boot (fun _ => ⟨none, 0⟩) events callouts) := by
  constructor <;> simp [boot]

theorem Apart.congr (h : Apart s) (hevqs : t.evqs = s.evqs) (hpool : t.eqPool = s.eqPool) :
    Apart t where
  distinct := by
    rw [hevqs]
    exact h.distinct
  taken := by
    rw [hevqs, hpool]
    exact h.taken
  free := by
    rw [hpool]
    exact h.free
  nonnull := by
    rw [hpool]
    exact h.nonnull

theorem Apart.of_frame (h : Apart s) (hch : (s.evqs evq).ch = some i) (hframe : Frame evq i s t)
    (hnonnull : nullMut ∉ (t.eqPool i).q.items) : Apart t where
  distinct e e' j he he' := by
    rw [hframe.ch] at he he'
    exact h.distinct e e' j he he'
  taken e j hj := by
    rw [hframe.ch] at hj
    rw [hframe.taken]
    exact h.taken e j hj
  free j hj := by
    rw [hframe.taken] at hj
    have hji : j ≠ i := by
      rintro rfl
      rw [h.taken evq j hch] at hj
      cases hj
    rw [hframe.q j hji]
    exact h.free j hj
  nonnull j := by
    by_cases hji : j = i
    · subst hji
      exact hnonnull
    · rw [hframe.q j hji]
      exact h.nonnull j

/-- An operation on one queue changes the content of its channel only. -/
theorem Apart.content_of_frame (h : Apart s) (hch : (s.evqs evq).ch = some i)
    (hframe : Frame evq i s t) :
    content t = Function.update (content s) evq (some (t.eqPool i).q.items) := by
  funext e
  by_cases he : e = evq
  · subst he
    rw [Function.update_self, content, hframe.ch, hch, Option.map_some]
  · rw [Function.update_of_ne he, content, content, hframe.ch]
    cases hj : (s.evqs e).ch with
    | none => rfl
    | some j =>
      have hji : j ≠ i := by
        rintro rfl
        exact he (h.distinct e evq j hj hch)
      rw [Option.map_some, Option.map_some, hframe.q j hji]

theorem Apart.setLen (h : Apart s) (len : UInt8) : Apart (s.setLen evq len) where
  distinct e e' j he he' := by
    rw [setLen_ch] at he he'
    exact h.distinct e e' j he he'
  taken e j hj := by
    rw [setLen_ch] at hj
    exact h.taken e j hj
  free := h.free
  nonnull := h.nonnull

theorem setLen_content (s : Npl) (evq : Ptr) (len : UInt8) :
    content (s.setLen evq len) = content s := by
  funext e
  rw [content, content, setLen_ch, setLen_eqPool]

theorem firstFree_taken (h : firstFree s = some i) : (s.eqPool i).taken = false := by
  simpa using List.find?_some h

/-- A queue is created in a slot that is free. -/
theorem init_spec (h : bleNplEventqInit evq s = some t) : ∃ i, (s.eqPool i).taken = false ∧
    t.evqs = Function.update s.evqs evq ⟨some i, 0⟩ ∧
    (∀ j, (t.eqPool j).q = (s.eqPool j).q) ∧
    ∀ j, (t.eqPool j).taken = if j = i then true else (s.eqPool j).taken := by
  unfold bleNplEventqInit at h
  split at h
  · rename_i i hfree
    cases h
    refine ⟨i, firstFree_taken hfree, rfl, fun j => ?_, fun j => ?_⟩
    · by_cases hj : j = i
      · subst hj
        simp
      · simp [hj]
    · by_cases hj : j = i
      · subst hj
        simp
      · simp [hj]
  · cases h

/-- A new queue gets an empty channel. -/
theorem Apart.init (h : Apart s) (hinit : bleNplEventqInit evq s = some t) :
    Apart t ∧ content t = Function.update (content s) evq (some []) := by
  obtain ⟨i, hfree, hevqs, hq, htaken⟩ := init_spec hinit
  have hself : (t.evqs evq).ch = some i := by rw [hevqs, Function.update_self]
  have hother : ∀ e, e ≠ evq → t.evqs e = s.evqs e := fun e he => by
    rw [hevqs, Function.update_of_ne he]
  have hne : ∀ e j, e ≠ evq → (t.evqs e).ch = some j → (s.evqs e).ch = some j ∧ j ≠ i := by
    intro e j he hj
    rw [hother e he] at hj
    refine ⟨hj, ?_⟩
    rintro rfl
    rw [h.taken e j hj] at hfree
    cases hfree
  refine ⟨⟨?_, ?_, ?_, ?_⟩, ?_⟩
  · intro e e' j hj hj'
    by_cases he : e = evq
    · by_cases he' : e' = evq
      · rw [he, he']
      · rw [he] at hj
        have hji : i = j := Option.some.inj (hself.symm.trans hj)
        exact absurd hji.symm (hne e' j he' hj').2
    · by_cases he' : e' = evq
      · rw [he'] at hj'
        have hji : i = j := Option.some.inj (hself.symm.trans hj')
        exact absurd hji.symm (hne e j he hj).2
      · exact h.distinct e e' j (hne e j he hj).1 (hne e' j he' hj').1
  · intro e j hj
    rw [htaken]
    split
    · rfl
    · rename_i hji
      have he : e ≠ evq := by
        rintro rfl
        exact hji (Option.some.inj (hj.symm.trans hself))
      exact h.taken e j (hne e j he hj).1
  · intro j hj
    rw [htaken] at hj
    split at hj
    · cases hj
    · rw [hq]
      exact h.free j hj
  · intro j
    rw [hq]
    exact h.nonnull j
  · funext e
    by_cases he : e = evq
    · subst he
      rw [Function.update_self, content, hself, Option.map_some, hq, h.free i hfree]
    · rw [Function.update_of_ne he, content, content, hother e he]
      simp only [hq]

/-- A remove from a queue that has not been created does nothing if it returns. -/
theorem remove_uncreated (hch : (s.evqs evq).ch = none)
    (h : bleNplEventqRemove profile evq ev s = some t) : t = s := by
  unfold bleNplEventqRemove at h
  cases hlen : (s.evqs evq).len.toNat with
  | zero =>
    rw [hlen] at h
    cases h
    rfl
  | succ n =>
    rw [hlen] at h
    simp [removeLoop, removeBody, hch] at h

end QueuesApart
