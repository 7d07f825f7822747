import Mathlib.Data.Fintype.Card
import ApacheNimble.Transition
import ApacheNimble.FifoFamily
import ApacheNimble.EventQueue

/-!
# The event queues are a family of independent lists

Runs of whole operations on any number of queues, compared with the lists they
stand for. The pool decides which queues share a channel: none do.
-/
namespace EventQueueFamily

open PortLayer EventQueue FifoFamily Transition

inductive Op where
  | init (evq : Ptr)
  | put (evq ev : Ptr)
  | get (evq : Ptr) (tmo : UInt32) (expired : Bool)
  | remove (evq ev : Ptr)
  deriving DecidableEq, Repr

def Op.queue : Op → Ptr
  | .init evq => evq
  | .put evq _ => evq
  | .get evq _ _ => evq
  | .remove evq _ => evq

inductive Ret where
  | unit
  | polled (p : Poll Ptr)
  deriving DecidableEq, Repr

def step (profile : Profile) : Op → Npl → Option (Npl × Ret)
  | .init evq, s => (bleNplEventqInit evq s).map (·, .unit)
  | .put evq ev, s => (bleNplEventqPut profile evq ev s).map (·, .unit)
  | .get evq tmo expired, s =>
    (bleNplEventqGet profile evq tmo expired s).map (fun r => (r.1, .polled r.2))
  | .remove evq ev, s => (bleNplEventqRemove profile evq ev s).map (·, .unit)

/-- The same operations on lists: eight creations, sixteen entries, no null. -/
def listStep : Op → Family Ptr Ptr → Option (Family Ptr Ptr × Ret)
  | .init evq, f => (create 8 evq f).map (·, .unit)
  | .put evq ev, f => if ev = nullMut then none else (FifoFamily.put 16 evq ev f).map (·, .unit)
  | .get evq tmo expired, f => (FifoFamily.get evq f).map (fun r => match r with
    | (g, some ev) => (g, .polled (.ready ev))
    | (g, none) => (g, .polled (emptyPoll tmo expired)))
  | .remove evq ev, f =>
    if ev = nullMut then none else (FifoFamily.remove evq ev f).map (·, .unit)

/-- What a caller of the port layer has to respect. -/
def Legal : Op → Family Ptr Ptr → Prop
  | .init _, f => f.created < 8
  | .put evq ev, f => ev ≠ nullMut ∧ ∃ l, f.lists evq = some l ∧ l.length < 16
  | .get evq _ _, f => ∃ l, f.lists evq = some l
  | .remove evq ev, f => ev ≠ nullMut ∧ ∃ l, f.lists evq = some l

/-- The lists are stuck on nothing but what the caller must not do. -/
theorem listStep_isSome_iff (op : Op) (f : Family Ptr Ptr) :
    (listStep op f).isSome ↔ Legal op f := by
  cases op with
  | init evq => by_cases h : f.created < 8 <;> simp [listStep, Legal, create, h]
  | put evq ev =>
    by_cases hev : ev = nullMut
    · simp [listStep, Legal, hev]
    · cases hl : f.lists evq with
      | none => simp [listStep, Legal, FifoFamily.put, hl]
      | some l => by_cases h : l.length < 16 <;> simp [listStep, Legal, FifoFamily.put, hl, hev, h]
  | get evq tmo expired => cases hl : f.lists evq <;> simp [listStep, Legal, FifoFamily.get, hl]
  | remove evq ev =>
    by_cases hev : ev = nullMut
    · simp [listStep, Legal, hev]
    · cases hl : f.lists evq <;> simp [listStep, Legal, FifoFamily.remove, hl, hev]

/-- The lists of the other queues are left alone. -/
theorem listStep_other {op : Op} {f g : Family Ptr Ptr} {r : Ret} {evq : Ptr}
    (h : listStep op f = some (g, r)) (he : evq ≠ op.queue) : g.lists evq = f.lists evq := by
  cases op with
  | init e =>
    simp only [listStep, Option.map_eq_some_iff, create_eq_some] at h
    obtain ⟨g, ⟨-, rfl⟩, hg⟩ := h
    cases hg
    exact set_other f e evq [] he
  | put e ev =>
    simp only [listStep] at h
    split at h
    · cases h
    · simp only [Option.map_eq_some_iff, put_eq_some] at h
      obtain ⟨g, ⟨l, -, -, rfl⟩, hg⟩ := h
      cases hg
      exact set_other f e evq _ he
  | get e tmo expired =>
    simp only [listStep, Option.map_eq_some_iff, Prod.exists, get_eq_some] at h
    obtain ⟨g, r, ⟨-, rfl, rfl⟩ | ⟨a, l, -, rfl, rfl⟩, hg⟩ := h
    · cases hg
      rfl
    · cases hg
      exact set_other f e evq l he
  | remove e ev =>
    simp only [listStep] at h
    split at h
    · cases h
    · simp only [Option.map_eq_some_iff, remove_eq_some] at h
      obtain ⟨g, ⟨l, -, rfl⟩, hg⟩ := h
      cases hg
      exact set_other f e evq _ he

def takenSlots (s : Npl) : Finset (Fin 8) := Finset.univ.filter (fun i => (s.eqPool i).taken = true)

/-- Every list is held by a queue in a taken slot of its own, slots that are
not taken are empty, and each creation has taken one slot. -/
structure Refines (s : Npl) (f : Family Ptr Ptr) : Prop where
  holds : ∀ evq l, f.lists evq = some l →
    ∃ i, Holds s evq i l ∧ (s.eqPool i).taken = true ∧ nullMut ∉ l
  distinct : ∀ evq evq' l l', f.lists evq = some l → f.lists evq' = some l' → evq ≠ evq' →
    (s.evqs evq).ch ≠ (s.evqs evq').ch
  free : ∀ i, (s.eqPool i).taken = false → (s.eqPool i).q.items = []
  created : (takenSlots s).card = f.created

theorem boot_refines (evqs : Ptr → BleNplEventq) (events : Ptr → BleNplEvent)
    (callouts : Ptr → BleNplCallout) : Refines (boot evqs events callouts) FifoFamily.empty where
  holds := by simp
  distinct := by simp
  free := by simp [boot]
  created := by simp [takenSlots, boot]

/-- An operation on one queue keeps the relation, with its own list replaced. -/
theorem Refines.set {s s' : Npl} {f : Family Ptr Ptr} {evq : Ptr} {i : Fin 8} {l l' : List Ptr}
    (h : Refines s f) (hl : f.lists evq = some l) (hs : Holds s evq i l)
    (hs' : Holds s' evq i l') (hframe : Frame evq i s s') (hnull : nullMut ∉ l') :
    Refines s' (f.set evq l') := by
  have htaken : (s.eqPool i).taken = true := by
    obtain ⟨j, hj, ht, -⟩ := h.holds evq l hl
    have : i = j := Option.some.inj (hs.ch.symm.trans hj.ch)
    rw [this]
    exact ht
  have hslots : takenSlots s' = takenSlots s := by
    simp only [takenSlots, hframe.taken]
  have hlists : ∀ e k, (f.set evq l').lists e = some k → ∃ k', f.lists e = some k' := by
    intro e k hk
    by_cases he : e = evq
    · exact ⟨l, he ▸ hl⟩
    · exact ⟨k, by rwa [set_other f evq e l' he] at hk⟩
  constructor
  · intro e k hk
    by_cases he : e = evq
    · subst he
      rw [set_same] at hk
      cases hk
      exact ⟨i, hs', by rw [hframe.taken]; exact htaken, hnull⟩
    · rw [set_other f evq e l' he] at hk
      obtain ⟨j, hj, ht, hn⟩ := h.holds e k hk
      have hne : j ≠ i := by
        intro hji
        apply h.distinct e evq k l hk hl he
        rw [hj.ch, hs.ch, hji]
      exact ⟨j, hframe.holds_other hj he hne, by rw [hframe.taken]; exact ht, hn⟩
  · intro e e' k k' hk hk' hne
    obtain ⟨m, hm⟩ := hlists e k hk
    obtain ⟨m', hm'⟩ := hlists e' k' hk'
    rw [hframe.ch, hframe.ch]
    exact h.distinct e e' m m' hm hm' hne
  · intro j hj
    rw [hframe.taken] at hj
    have hne : j ≠ i := by
      intro hji
      rw [hji, htaken] at hj
      cases hj
    rw [hframe.q j hne]
    exact h.free j hj
  · rw [hslots, set_created]
    exact h.created

/-- With fewer than eight creations a slot is free, and `find` finds one. -/
theorem firstFree_of_lt {s : Npl} (h : (takenSlots s).card < 8) :
    ∃ i, firstFree s = some i ∧ (s.eqPool i).taken = false := by
  cases hf : firstFree s with
  | some i =>
    have := List.find?_some hf
    exact ⟨i, rfl, by simpa using this⟩
  | none =>
    have hall : takenSlots s = Finset.univ := by
      rw [firstFree, List.find?_eq_none] at hf
      apply Finset.filter_true_of_mem
      intro i _
      simpa using hf i (List.mem_finRange i)
    rw [hall, Finset.card_univ, Fintype.card_fin] at h
    exact absurd h (Nat.lt_irrefl 8)

theorem init_refines {s : Npl} {f : Family Ptr Ptr} (evq : Ptr) (h : Refines s f)
    (hc : f.created < 8) : ∃ s', bleNplEventqInit evq s = some s' ∧
      Refines s' { f.set evq [] with created := f.created + 1 } := by
  obtain ⟨i, hi, hfree⟩ := firstFree_of_lt (s := s) (by rw [h.created]; exact hc)
  refine ⟨_, by rw [bleNplEventqInit, hi], ?_⟩
  have hused : ∀ e k j, f.lists e = some k → Holds s e j k → (s.eqPool j).taken = true → j ≠ i := by
    intro e k j _ _ ht hji
    rw [hji, hfree] at ht
    cases ht
  constructor
  · intro e k hk
    by_cases he : e = evq
    · subst he
      simp only [set_same, Option.some.injEq] at hk
      subst hk
      refine ⟨i, ⟨?_, ?_, ?_⟩, ?_, ?_⟩
      · simp
      · simpa using h.free i hfree
      · simp
      · simp
      · simp
    · simp only [set_other f evq e [] he] at hk
      obtain ⟨j, hj, ht, hn⟩ := h.holds e k hk
      have hne := hused e k j hk hj ht
      refine ⟨j, ⟨?_, ?_, ?_⟩, ?_, hn⟩
      · simpa [he] using hj.ch
      · simpa [hne] using hj.items
      · simpa [he] using hj.len
      · simpa [hne] using ht
  · have hother : ∀ e k, e ≠ evq → f.lists e = some k → (s.evqs e).ch ≠ some i := by
      intro e k _ hk hch
      obtain ⟨j, hj, ht, -⟩ := h.holds e k hk
      exact hused e k j hk hj ht (Option.some.inj (hj.ch.symm.trans hch))
    intro e e' k k' hk hk' hne
    by_cases he : e = evq <;> by_cases he' : e' = evq
    · exact absurd (he.trans he'.symm) hne
    · subst he
      simp only [set_other f e e' [] he'] at hk'
      simpa [he'] using (hother e' k' he' hk').symm
    · subst he'
      simp only [set_other f e' e [] he] at hk
      simpa [he] using hother e k he hk
    · simp only [set_other f evq e [] he] at hk
      simp only [set_other f evq e' [] he'] at hk'
      simpa [he, he'] using h.distinct e e' k k' hk hk' hne
  · intro j hj
    by_cases hji : j = i
    · subst hji
      simp at hj
    · simp only [Function.update_of_ne hji] at hj ⊢
      exact h.free j hj
  · have hins : takenSlots { s with
        eqPool := Function.update s.eqPool i { s.eqPool i with taken := true }
        evqs := Function.update s.evqs evq ⟨some i, 0⟩ } = insert i (takenSlots s) := by
      ext j
      by_cases hji : j = i
      · subst hji; simp [takenSlots]
      · simp [takenSlots, hji]
    rw [hins, Finset.card_insert_of_notMem (by simp [takenSlots, hfree]), h.created]

/-- Each operation on the lists is matched by the code, with the same answer. -/
theorem step_simulates (profile : Profile) : Simulates (step profile) listStep Refines := by
  intro op s f g r h hstep
  cases op with
  | init evq =>
    simp only [listStep, Option.map_eq_some_iff, create_eq_some] at hstep
    obtain ⟨_, ⟨hc, rfl⟩, hg⟩ := hstep
    cases hg
    obtain ⟨s', hs', hR⟩ := init_refines evq h hc
    exact ⟨s', by simp [step, hs'], hR⟩
  | put evq ev =>
    simp only [listStep] at hstep
    split at hstep
    · cases hstep
    · rename_i hev
      simp only [Option.map_eq_some_iff, put_eq_some] at hstep
      obtain ⟨_, ⟨l, hl, hlt, rfl⟩, hg⟩ := hstep
      cases hg
      obtain ⟨i, hs, -, hnull⟩ := h.holds evq l hl
      obtain ⟨s', hput, hs', hframe, -⟩ := bleNplEventqPut_spec profile hs hev hlt
      refine ⟨s', by simp [step, hput], h.set hl hs hs' hframe ?_⟩
      simp [hnull, Ne.symm hev]
  | get evq tmo expired =>
    simp only [listStep, Option.map_eq_some_iff, Prod.exists, get_eq_some] at hstep
    obtain ⟨g', r', ⟨hl, rfl, rfl⟩ | ⟨ev, l, hl, rfl, rfl⟩, hg⟩ := hstep
    · cases hg
      obtain ⟨i, hs, -, -⟩ := h.holds evq [] hl
      exact ⟨s, by simp [step, bleNplEventqGet_nil hs], h⟩
    · cases hg
      obtain ⟨i, hs, -, hnull⟩ := h.holds evq (ev :: l) hl
      simp only [List.mem_cons, not_or] at hnull
      obtain ⟨s', hget, hs', hframe, -⟩ :=
        bleNplEventqGet_cons profile hs (Ne.symm hnull.1) tmo expired
      exact ⟨s', by simp [step, hget], h.set hl hs hs' hframe hnull.2⟩
  | remove evq ev =>
    simp only [listStep] at hstep
    split at hstep
    · cases hstep
    · simp only [Option.map_eq_some_iff, remove_eq_some] at hstep
      obtain ⟨_, ⟨l, hl, rfl⟩, hg⟩ := hstep
      cases hg
      obtain ⟨i, hs, -, hnull⟩ := h.holds evq l hl
      obtain ⟨s', hrem, hs', hframe, -⟩ := bleNplEventqRemove_spec profile ev hs
      refine ⟨s', by simp [step, hrem], h.set hl hs hs' hframe ?_⟩
      intro hm
      exact hnull (List.mem_of_mem_filter hm)

theorem Refines.content {s : Npl} {f : Family Ptr Ptr} {evq : Ptr} {l : List Ptr}
    (h : Refines s f) (hl : f.lists evq = some l) :
    content s evq = some l ∧ (s.evqs evq).len.toNat = l.length := by
  obtain ⟨i, hs, -, -⟩ := h.holds evq l hl
  exact ⟨hs.content, hs.len⟩

/-- Every run that is legal on the lists goes through in the code without a
panic and with the same answers. Afterwards each channel holds its list and
`len` is its length, no two queues share a slot, and whatever legal operation
comes next leaves the other queues as they are. -/
theorem run_refines_lists (profile : Profile) (evqs : Ptr → BleNplEventq)
    (events : Ptr → BleNplEvent) (callouts : Ptr → BleNplCallout) (ops : List Op)
    (f : Family Ptr Ptr) (rets : List Ret)
    (h : run (logged listStep) ops (FifoFamily.empty, []) = some (f, rets)) :
    ∃ s, run (logged (step profile)) ops (boot evqs events callouts, []) = some (s, rets) ∧
      (∀ evq l, f.lists evq = some l →
        content s evq = some l ∧ (s.evqs evq).len.toNat = l.length) ∧
      (∀ evq evq' l l', f.lists evq = some l → f.lists evq' = some l' → evq ≠ evq' →
        (s.evqs evq).ch ≠ (s.evqs evq').ch) ∧
      ∀ op, Legal op f → ∃ s' r, step profile op s = some (s', r) ∧
        ∀ evq l, f.lists evq = some l → evq ≠ op.queue →
          content s' evq = some l ∧ (s'.evqs evq).len = (s.evqs evq).len := by
  obtain ⟨s, hrun, hR⟩ :=
    (step_simulates profile).run (boot_refines evqs events callouts) h
  refine ⟨s, hrun, fun evq l hl => hR.content hl, hR.distinct, ?_⟩
  intro op hlegal
  obtain ⟨⟨g, r⟩, hg⟩ := Option.isSome_iff_exists.mp ((listStep_isSome_iff op f).mpr hlegal)
  obtain ⟨s', hs', hR'⟩ := step_simulates profile op s f g r hR hg
  refine ⟨s', r, hs', ?_⟩
  intro evq l hl hne
  have hl' : g.lists evq = some l := (listStep_other hg hne).trans hl
  obtain ⟨hc', hlen'⟩ := hR'.content hl'
  refine ⟨hc', UInt8.toNat_inj.mp ?_⟩
  rw [hlen', (hR.content hl).2]

theorem run_refines_lists_two_queues :
    ∃ s rets, run (logged (step .debug))
      [.init 100, .init 200, .put 100 7, .put 200 9, .put 100 8, .put 100 7, .remove 100 7,
        .get 200 0 false]
      (boot (fun _ => ⟨none, 255⟩) (fun _ => ⟨0, 0, true⟩) (fun _ => ⟨true, 0, 0⟩), []) =
        some (s, rets) ∧
      content s 100 = some [8] ∧ content s 200 = some [] := by
  obtain ⟨s, hrun, hcontent, -, -⟩ := run_refines_lists .debug (fun _ => ⟨none, 255⟩)
    (fun _ => ⟨0, 0, true⟩) (fun _ => ⟨true, 0, 0⟩)
    [.init 100, .init 200, .put 100 7, .put 200 9, .put 100 8, .put 100 7, .remove 100 7,
      .get 200 0 false] _ _ rfl
  exact ⟨s, _, hrun, (hcontent 100 [8] rfl).1, (hcontent 200 [] rfl).1⟩

end EventQueueFamily
