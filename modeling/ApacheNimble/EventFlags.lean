import Mathlib.Data.Finset.Card
import ApacheNimble.Transition
import ApacheNimble.EventQueue

/-!
# The `queued` flag and the channel

Runs over one event queue: events are initialised, put, taken and removed, and
callouts fire. The state remembers which events have been initialised, since
the memory of the others may hold anything.
-/
namespace EventFlags

open PortLayer EventQueue Transition

variable {profile : Profile} {evq : Ptr}

structure State where
  npl : Npl
  known : List Ptr

/-- `activate` is the store of `active` by which a reset arms a callout. -/
inductive Op where
  | eventInit (ev fn arg : Ptr)
  | put (ev : Ptr)
  | get (tmo : UInt32) (expired : Bool)
  | remove (ev : Ptr)
  | calloutInit (c evCb evArg : Ptr)
  | activate (c : Ptr)
  | calloutCb (co : Ptr)
  deriving DecidableEq, Repr

def step (profile : Profile) (evq : Ptr) : Op → State → Option State
  | .eventInit ev fn arg, s => some ⟨bleNplEventInit ev fn arg s.npl, ev :: s.known⟩
  | .put ev, s => (bleNplEventqPut profile evq ev s.npl).map (⟨·, s.known⟩)
  | .get tmo expired, s =>
    (bleNplEventqGet profile evq tmo expired s.npl).map (fun r => ⟨r.1, s.known⟩)
  | .remove ev, s => (bleNplEventqRemove profile evq ev s.npl).map (⟨·, s.known⟩)
  | .calloutInit c evCb evArg, s =>
    some ⟨bleNplCalloutInit c evq evCb evArg s.npl, calloutEvent c :: s.known⟩
  | .activate c, s => some ⟨s.npl.setActive c true, s.known⟩
  | .calloutCb co, s => (calloutCb profile co s.npl).map (⟨·, s.known⟩)

def Pending (evq ev : Ptr) (s : State) : Prop := ∃ l, content s.npl evq = some l ∧ ev ∈ l

/-- Events are initialised before use and never while pending, and the
callouts that fire post to this queue. -/
def Legal (evq : Ptr) : Op → State → Prop
  | .eventInit ev _ _, s => ¬ Pending evq ev s
  | .put ev, s => ev ∈ s.known ∧ ev ≠ nullMut
  | .get _ _, _ => True
  | .remove _, _ => True
  | .calloutInit c _ _, s => ¬ Pending evq (calloutEvent c) s
  | .activate _, _ => True
  | .calloutCb co, s => (s.npl.callouts co).eventQueue = evq ∧ calloutEvent co ∈ s.known

/-- The event an operation puts, if it puts one. -/
def putsEvent : Op → State → Option Ptr
  | .put ev, _ => some ev
  | .calloutCb co, s => if (s.npl.callouts co).active then some (calloutEvent co) else none
  | _, _ => none

/-- No event is put while its own flag says that it is queued. -/
def NotQueued (op : Op) (s : State) : Prop :=
  ∀ ev, putsEvent op s = some ev → bleNplEventIsQueued ev s.npl = false

/-- Putting an event that is queued already does not panic. -/
def Harmless (profile : Profile) (evq : Ptr) (op : Op) (s : State) : Prop :=
  ∀ ev, putsEvent op s = some ev → bleNplEventIsQueued ev s.npl = true →
    (step profile evq op s).isSome

/-- Each event is in the channel at most once, and its flag says whether it is. -/
def Faithful (evq : Ptr) (s : State) : Prop :=
  ∃ l, content s.npl evq = some l ∧ l.Nodup ∧
    ∀ ev ∈ s.known, (bleNplEventIsQueued ev s.npl = true ↔ ev ∈ l)

/-- The queue is well formed and holds initialised events only. -/
structure Sane (evq : Ptr) (i : Fin 8) (l : List Ptr) (s : State) : Prop where
  holds : Holds s.npl evq i l
  known : ∀ ev ∈ l, ev ∈ s.known ∧ ev ≠ nullMut

theorem Sane.faithful_iff {i : Fin 8} {l : List Ptr} {s : State} (h : Sane evq i l s) :
    Faithful evq s ↔ l.Nodup ∧ ∀ ev ∈ s.known, ((s.npl.events ev).queued = true ↔ ev ∈ l) := by
  unfold Faithful bleNplEventIsQueued
  rw [h.holds.content]
  simp

theorem Sane.pending_iff {i : Fin 8} {l : List Ptr} {s : State} (h : Sane evq i l s) (ev : Ptr) :
    Pending evq ev s ↔ ev ∈ l := by
  unfold Pending
  rw [h.holds.content]
  simp

/-- What a step does to the list `l` the channel holds and to the flags. -/
inductive Effect (s t : State) (l : List Ptr) : Option Ptr → List Ptr → Prop
  | quiet : t.known = s.known →
      (∀ e, (t.npl.events e).queued = (s.npl.events e).queued) → Effect s t l none l
  | fresh (ev : Ptr) : ev ∉ l → t.known = ev :: s.known →
      (∀ e, (t.npl.events e).queued = if e = ev then false else (s.npl.events e).queued) →
      Effect s t l none l
  | enqueue (ev : Ptr) : ev ∈ s.known → ev ≠ nullMut → t.known = s.known →
      (∀ e, (t.npl.events e).queued = if e = ev then true else (s.npl.events e).queued) →
      Effect s t l (some ev) (l ++ [ev])
  | dequeue (ev : Ptr) (rest : List Ptr) : l = ev :: rest → t.known = s.known →
      (∀ e, (t.npl.events e).queued = if e = ev then false else (s.npl.events e).queued) →
      Effect s t l none rest
  | filter (ev : Ptr) : t.known = s.known →
      (∀ e, (t.npl.events e).queued =
        if e = ev ∧ ev ∈ l then false else (s.npl.events e).queued) →
      Effect s t l none (l.filter (· ≠ ev))

/-- Putting an event is defined exactly when the channel has room. -/
theorem put_isSome_iff (profile : Profile) {i : Fin 8} {l : List Ptr} {s : Npl} {ev : Ptr}
    (h : Holds s evq i l) (hev : ev ≠ nullMut) :
    (bleNplEventqPut profile evq ev s).isSome ↔ l.length < 16 := by
  have hle := h.length_le
  by_cases hlt : l.length < 16
  · obtain ⟨s', hput, -⟩ := bleNplEventqPut_spec profile h hev hlt
    simp [hput, hlt]
  · rw [bleNplEventqPut_full h (by omega)]
    simp only [Option.isSome_none, Bool.false_eq_true, false_iff]
    omega

theorem put_effect {i : Fin 8} {l : List Ptr} {s : State} {ev : Ptr} {n : Npl}
    (h : Sane evq i l s) (hk : ev ∈ s.known) (hev : ev ≠ nullMut)
    (hput : bleNplEventqPut profile evq ev s.npl = some n) :
    Holds n evq i (l ++ [ev]) ∧ Effect s ⟨n, s.known⟩ l (some ev) (l ++ [ev]) := by
  have hlt : l.length < 16 := (put_isSome_iff profile h.holds hev).mp (by simp [hput])
  obtain ⟨s', hs', hholds, -, hflag⟩ := bleNplEventqPut_spec profile h.holds hev hlt
  rw [hput] at hs'
  cases hs'
  exact ⟨hholds, .enqueue ev hk hev rfl hflag⟩

/-- Everything a legal step can do. -/
theorem step_effect {i : Fin 8} {l : List Ptr} {s t : State} {op : Op} (h : Sane evq i l s)
    (hlegal : Legal evq op s) (hstep : step profile evq op s = some t) :
    ∃ l', Holds t.npl evq i l' ∧ Effect s t l (putsEvent op s) l' := by
  cases op with
  | eventInit ev fn arg =>
    cases hstep
    refine ⟨l, ⟨h.holds.ch, h.holds.items, h.holds.len⟩, ?_⟩
    refine .fresh ev (fun hm => hlegal ((h.pending_iff ev).mpr hm)) rfl (fun e => ?_)
    by_cases he : e = ev
    · subst he; simp [bleNplEventInit]
    · simp [bleNplEventInit, he]
  | put ev =>
    obtain ⟨n, hput, ht⟩ := Option.map_eq_some_iff.mp hstep
    cases ht
    exact ⟨_, put_effect h hlegal.1 hlegal.2 hput⟩
  | get tmo expired =>
    obtain ⟨⟨n, r⟩, hget, ht⟩ := Option.map_eq_some_iff.mp hstep
    cases ht
    cases l with
    | nil =>
      rw [bleNplEventqGet_nil h.holds] at hget
      cases hget
      exact ⟨[], h.holds, .quiet rfl (fun _ => rfl)⟩
    | cons ev rest =>
      obtain ⟨s', hs', hholds, -, hflag⟩ := bleNplEventqGet_cons profile h.holds
        (h.known ev List.mem_cons_self).2 tmo expired
      rw [hget] at hs'
      cases hs'
      exact ⟨rest, hholds, .dequeue ev rest rfl rfl hflag⟩
  | remove ev =>
    obtain ⟨n, hrem, ht⟩ := Option.map_eq_some_iff.mp hstep
    cases ht
    obtain ⟨s', hs', hholds, -, hflag⟩ :=
      bleNplEventqRemove_spec profile ev h.holds
    rw [hrem] at hs'
    cases hs'
    exact ⟨_, hholds, .filter ev rfl hflag⟩
  | calloutInit c evCb evArg =>
    cases hstep
    refine ⟨l, ⟨h.holds.ch, h.holds.items, h.holds.len⟩, ?_⟩
    refine .fresh (calloutEvent c) (fun hm => hlegal ((h.pending_iff _).mpr hm)) rfl (fun e => ?_)
    by_cases he : e = calloutEvent c
    · subst he; simp [bleNplCalloutInit, bleNplEventInit]
    · simp [bleNplCalloutInit, bleNplEventInit, he]
  | activate c =>
    cases hstep
    exact ⟨l, ⟨h.holds.ch, h.holds.items, h.holds.len⟩, .quiet rfl (fun _ => rfl)⟩
  | calloutCb co =>
    obtain ⟨n, hcb, ht⟩ := Option.map_eq_some_iff.mp hstep
    cases ht
    obtain ⟨ha, m, hput, rfl⟩ | ⟨ha, rfl⟩ := calloutCb_cases hcb
    · rw [hlegal.1] at hput
      obtain ⟨hholds, heffect⟩ := put_effect h hlegal.2 (calloutEvent_ne_null co) hput
      refine ⟨_, ⟨hholds.ch, hholds.items, hholds.len⟩, ?_⟩
      rw [putsEvent, if_pos (show (s.npl.callouts co).active = true from ha)]
      cases heffect with
      | enqueue _ hk hev _ hflag => exact .enqueue _ hk hev rfl hflag
    · refine ⟨l, ⟨h.holds.ch, h.holds.items, h.holds.len⟩, ?_⟩
      rw [putsEvent, if_neg (by simpa [bleNplCalloutIsActive] using ha)]
      exact .quiet rfl (fun _ => rfl)

/-- Initialised events stay so, and only they get into the channel. -/
theorem Effect.known {s t : State} {l l' : List Ptr} {p : Option Ptr} (h : Effect s t l p l')
    (hl : ∀ ev ∈ l, ev ∈ s.known ∧ ev ≠ nullMut) : ∀ ev ∈ l', ev ∈ t.known ∧ ev ≠ nullMut := by
  cases h with
  | quiet hk _ => rw [hk]; exact hl
  | fresh ev _ hk _ =>
    intro e he
    rw [hk]
    exact ⟨List.mem_cons_of_mem ev (hl e he).1, (hl e he).2⟩
  | enqueue ev hev hn hk _ =>
    intro e he
    rw [hk]
    rcases List.mem_append.mp he with he | he
    · exact hl e he
    · rw [List.mem_singleton.mp he]
      exact ⟨hev, hn⟩
  | dequeue ev rest hrest hk _ =>
    intro e he
    rw [hk]
    exact hl e (by rw [hrest]; exact List.mem_cons_of_mem ev he)
  | filter ev hk _ =>
    intro e he
    rw [hk]
    exact hl e (List.mem_of_mem_filter he)

theorem step_sane {i : Fin 8} {s t : State} {op : Op} (h : ∃ l, Sane evq i l s)
    (hlegal : Legal evq op s) (hstep : step profile evq op s = some t) : ∃ l, Sane evq i l t := by
  obtain ⟨l, hl⟩ := h
  obtain ⟨l', hholds, heffect⟩ := step_effect hl hlegal hstep
  exact ⟨l', hholds, heffect.known hl.known⟩

/-- A step that puts nothing queued keeps the channel and the flags in agreement. -/
theorem Effect.faithful {s t : State} {l l' : List Ptr} {p : Option Ptr} (h : Effect s t l p l')
    (hl : l.Nodup) (hflag : ∀ ev ∈ s.known, ((s.npl.events ev).queued = true ↔ ev ∈ l))
    (hp : ∀ ev, p = some ev → (s.npl.events ev).queued = false) :
    l'.Nodup ∧ ∀ ev ∈ t.known, ((t.npl.events ev).queued = true ↔ ev ∈ l') := by
  cases h with
  | quiet hk hq =>
    refine ⟨hl, fun e he => ?_⟩
    rw [hq e]
    exact hflag e (hk ▸ he)
  | fresh ev hev hk hq =>
    refine ⟨hl, fun e he => ?_⟩
    rw [hk] at he
    rw [hq e]
    by_cases hne : e = ev
    · simp [hne, hev]
    · simpa [hne] using hflag e ((List.mem_cons.mp he).resolve_left hne)
  | enqueue ev hev _ hk hq =>
    have hnot : ev ∉ l := by
      intro hm
      have := (hflag ev hev).mpr hm
      rw [hp ev rfl] at this
      cases this
    refine ⟨List.nodup_append.mpr ⟨hl, List.nodup_singleton ev, ?_⟩, fun e he => ?_⟩
    · intro a ha b hb hab
      rw [List.mem_singleton.mp hb] at hab
      exact hnot (hab ▸ ha)
    · rw [hq e, List.mem_append, List.mem_singleton]
      by_cases hne : e = ev
      · simp [hne]
      · simpa [hne] using hflag e (hk ▸ he)
  | dequeue ev rest hrest hk hq =>
    rw [hrest, List.nodup_cons] at hl
    refine ⟨hl.2, fun e he => ?_⟩
    have := hflag e (hk ▸ he)
    rw [hq e]
    by_cases hne : e = ev
    · simp [hne, hl.1]
    · simpa [hne, hrest] using this
  | filter ev hk hq =>
    refine ⟨hl.filter _, fun e he => ?_⟩
    have := hflag e (hk ▸ he)
    rw [hq e, List.mem_filter]
    by_cases hne : e = ev
    · subst hne
      by_cases hm : e ∈ l
      · simp [hm]
      · simpa [hm] using this
    · simpa [hne] using this

/-- An event that is put is initialised, and with room in the channel it goes in. -/
theorem puts_known {op : Op} {s : State} {ev : Ptr} (hlegal : Legal evq op s)
    (hp : putsEvent op s = some ev) : ev ∈ s.known ∧ ev ≠ nullMut := by
  cases op with
  | put e =>
    cases hp
    exact hlegal
  | calloutCb co =>
    simp only [putsEvent] at hp
    split at hp
    · cases hp
      exact ⟨hlegal.2, calloutEvent_ne_null co⟩
    · cases hp
  | eventInit _ _ _ => cases hp
  | get _ _ => cases hp
  | remove _ => cases hp
  | calloutInit _ _ _ => cases hp
  | activate _ => cases hp

/-- A legal step is stuck only by a put into a full channel. -/
theorem step_isSome (profile : Profile) {i : Fin 8} {l : List Ptr} {s : State} {op : Op}
    (h : Sane evq i l s) (hlegal : Legal evq op s)
    (hroom : ∀ ev, putsEvent op s = some ev → l.length < 16) :
    (step profile evq op s).isSome := by
  have hput : ∀ ev, putsEvent op s = some ev → (bleNplEventqPut profile evq ev s.npl).isSome :=
    fun ev hp => (put_isSome_iff profile h.holds (puts_known hlegal hp).2).mpr (hroom ev hp)
  cases op with
  | eventInit ev fn arg => rfl
  | put ev => simpa [step] using hput ev rfl
  | get tmo expired =>
    cases l with
    | nil => simp [step, bleNplEventqGet_nil h.holds]
    | cons ev rest =>
      obtain ⟨s', hs', -⟩ := bleNplEventqGet_cons profile h.holds
        (h.known ev List.mem_cons_self).2 tmo expired
      simp [step, hs']
  | remove ev =>
    obtain ⟨s', hs', -⟩ := bleNplEventqRemove_spec profile ev h.holds
    simp [step, hs']
  | calloutInit c evCb evArg => rfl
  | activate c => rfl
  | calloutCb co =>
    by_cases ha : (s.npl.callouts co).active
    · have hput' := hput (calloutEvent co) (by simp [putsEvent, ha])
      obtain ⟨n, hn⟩ := Option.isSome_iff_exists.mp hput'
      simp [step, calloutCb, ha, hlegal.1, hn]
    · simp [step, calloutCb, ha]

/-- The event an operation may put, whatever the state. -/
def Op.event : Op → Option Ptr
  | .put ev => some ev
  | .calloutCb co => some (calloutEvent co)
  | _ => none

theorem putsEvent_eq {op : Op} {s : State} {ev : Ptr} (h : putsEvent op s = some ev) :
    op.event = some ev := by
  cases op with
  | put e => exact h
  | calloutCb co =>
    simp only [putsEvent] at h
    split at h
    · exact h
    · cases h
  | eventInit _ _ _ => cases h
  | get _ _ => cases h
  | remove _ => cases h
  | calloutInit _ _ _ => cases h
  | activate _ => cases h

/-- What is in the channel after a step was there before or has been put. -/
theorem Effect.mem {s t : State} {l l' : List Ptr} {p : Option Ptr} (h : Effect s t l p l')
    {ev : Ptr} (hev : ev ∈ l') : ev ∈ l ∨ p = some ev := by
  cases h with
  | quiet => exact .inl hev
  | fresh => exact .inl hev
  | enqueue e =>
    rcases List.mem_append.mp hev with hev | hev
    · exact .inl hev
    · exact .inr (congrArg some (List.mem_singleton.mp hev).symm)
  | dequeue e rest hrest =>
    rw [hrest]
    exact .inl (List.mem_cons_of_mem e hev)
  | filter e => exact .inl (List.mem_of_mem_filter hev)

/-- Sixteen events that are never put twice fit into the channel: no step of
such a run panics. -/
theorem run_isSome {i : Fin 8} {l : List Ptr} {ops : List Op} {s : State} {E : Finset Ptr}
    (hE : E.card ≤ 16) (hops : ∀ op ∈ ops, ∀ ev, op.event = some ev → ev ∈ E)
    (h : Sane evq i l s) (hfaithful : Faithful evq s) (hin : ∀ ev ∈ l, ev ∈ E)
    (hlegal : Along (step profile evq) (Legal evq) ops s)
    (hnot : Along (step profile evq) NotQueued ops s) :
    (run (step profile evq) ops s).isSome := by
  induction ops generalizing s l with
  | nil => rfl
  | cons op ops ih =>
    obtain ⟨hnodup, hflag⟩ := h.faithful_iff.mp hfaithful
    have hroom : ∀ ev, putsEvent op s = some ev → l.length < 16 := by
      intro ev hp
      have hnotin : ev ∉ l := by
        intro hm
        have := (hflag ev (puts_known hlegal.1 hp).1).mpr hm
        exact absurd (hnot.1 ev hp) (by simp [bleNplEventIsQueued, this])
      have hsub : insert ev l.toFinset ⊆ E := by
        intro e he
        rcases Finset.mem_insert.mp he with rfl | he
        · exact hops op List.mem_cons_self e (putsEvent_eq hp)
        · exact hin e (List.mem_toFinset.mp he)
      have hcard := Finset.card_le_card hsub
      rw [Finset.card_insert_of_notMem (by simpa using hnotin), List.toFinset_card_of_nodup hnodup]
        at hcard
      omega
    obtain ⟨t, ht⟩ := Option.isSome_iff_exists.mp (step_isSome profile h hlegal.1 hroom)
    obtain ⟨l', hholds, heffect⟩ := step_effect h hlegal.1 ht
    have ht' : Sane evq i l' t := ⟨hholds, heffect.known h.known⟩
    have hmem : ∀ ev ∈ l', ev ∈ E := by
      intro ev hev
      rcases heffect.mem hev with hev | hp
      · exact hin ev hev
      · exact hops op List.mem_cons_self ev (putsEvent_eq hp)
    rw [run_cons, ht]
    exact ih (fun o ho => hops o (List.mem_cons_of_mem op ho)) ht'
      (ht'.faithful_iff.mpr (heffect.faithful hnodup hflag hnot.1)) hmem
      (hlegal.2 t ht) (hnot.2 t ht)

/-- Exactly the runs that never put an event while its flag is set keep every
event in the channel at most once with an exact flag, and never panic on an
event that is queued already. On sixteen events they never panic at all. -/
theorem faithful_iff_notQueued (profile : Profile) (evq : Ptr) (i : Fin 8) (s : State)
    (ops : List Op) (hstart : Holds s.npl evq i []) (hknown : s.known = [])
    (hlegal : Along (step profile evq) (Legal evq) ops s) :
    (Along (step profile evq) NotQueued ops s ↔
      Throughout (step profile evq) (Faithful evq) ops s ∧
        Along (step profile evq) (Harmless profile evq) ops s) ∧
    (Along (step profile evq) NotQueued ops s → ∀ E : Finset Ptr, E.card ≤ 16 →
      (∀ op ∈ ops, ∀ ev, op.event = some ev → ev ∈ E) →
      (run (step profile evq) ops s).isSome) := by
  have hsane : Sane evq i [] s := ⟨hstart, by simp⟩
  have hfaithful : Faithful evq s := hsane.faithful_iff.mpr ⟨List.nodup_nil, by simp [hknown]⟩
  refine ⟨?_, fun hnot E hE hops => run_isSome hE hops hsane hfaithful (by simp) hlegal hnot⟩
  apply along_iff_throughout (I := fun s => ∃ l, Sane evq i l s)
    (fun op s t hI hL ht => step_sane hI hL ht) ?_ ?_ ⟨[], hsane⟩ hfaithful hlegal
  · rintro op s ⟨l, hl⟩ hL hP hG
    refine ⟨fun ev hp hq => absurd (hG ev hp) (by simp [hq]), fun t ht => ?_⟩
    obtain ⟨l', hholds, heffect⟩ := step_effect hl hL ht
    obtain ⟨hnodup, hflag⟩ := hl.faithful_iff.mp hP
    have ht' : Sane evq i l' t := ⟨hholds, heffect.known hl.known⟩
    exact ht'.faithful_iff.mpr (heffect.faithful hnodup hflag hG)
  · rintro op s ⟨l, hl⟩ hL hP hG hB
    obtain ⟨hnodup, hflag⟩ := hl.faithful_iff.mp hP
    simp only [NotQueued, not_forall, Bool.not_eq_false] at hG
    obtain ⟨ev, hp, hq⟩ := hG
    have hin : ev ∈ l := (hflag ev (puts_known hL hp).1).mp hq
    obtain ⟨t, ht⟩ := Option.isSome_iff_exists.mp (hB ev hp hq)
    obtain ⟨l', hholds, heffect⟩ := step_effect hl hL ht
    refine ⟨t, ht, fun hfaith => ?_⟩
    have ht' : Sane evq i l' t := ⟨hholds, heffect.known hl.known⟩
    have hnodup' := (ht'.faithful_iff.mp hfaith).1
    rw [hp] at heffect
    cases heffect with
    | enqueue =>
      rw [List.nodup_append] at hnodup'
      exact hnodup'.2.2 ev hin ev (List.mem_singleton_self ev) rfl

/-- One event put twice is in the channel twice, after one get its flag is
clear although it is still pending, and seventeen puts of it panic. -/
theorem reput_not_faithful : ∃ s t u : State,
    bleNplEventqInit 100
      (boot (fun _ => ⟨none, 0⟩) (fun _ => ⟨0, 0, false⟩) (fun _ => ⟨false, 0, 0⟩)) = some s.npl ∧
    Along (step .debug 100) (Legal 100) [.eventInit 5 0 0, .put 5, .put 5, .get 0 false] s ∧
    run (step .debug 100) [.eventInit 5 0 0, .put 5, .put 5] s = some t ∧
    content t.npl 100 = some [5, 5] ∧ ¬ Faithful 100 t ∧
    run (step .debug 100) [.get 0 false] t = some u ∧
    content u.npl 100 = some [5] ∧ bleNplEventIsQueued 5 u.npl = false ∧
    run (step .debug 100) (.eventInit 5 0 0 :: List.replicate 17 (.put 5)) s = none := by
  refine ⟨⟨_, []⟩, _, _, rfl, ?_, rfl, rfl, ?_, rfl, rfl, rfl, rfl⟩
  · refine ⟨?_, fun t ht => ⟨?_, fun u hu => ⟨?_, fun v _ => ⟨trivial, fun _ _ => trivial⟩⟩⟩⟩
    · rintro ⟨l, hl, hm⟩
      cases hl
      cases hm
    · cases ht
      exact ⟨List.mem_cons_self, by decide⟩
    · cases ht
      simp only [step, Option.map_eq_some_iff] at hu
      obtain ⟨n, -, rfl⟩ := hu
      exact ⟨List.mem_cons_self, by decide⟩
  · rintro ⟨l, hl, hnodup, -⟩
    cases hl
    exact absurd hnodup (by decide)

def zeroed : Npl := boot (fun _ => ⟨none, 0⟩) (fun _ => ⟨0, 0, false⟩) (fun _ => ⟨false, 0, 0⟩)

/-- One queue has been initialised, and nothing else. -/
def created : State := ⟨(bleNplEventqInit 100 zeroed).getD zeroed, []⟩

/-- An event is put, a callout fires, and the event is taken and put again. -/
def reputTaken : List Op :=
  [.eventInit 5 0 0, .calloutInit 16 7 9, .put 5, .activate 16, .calloutCb 16, .get 0 false,
    .put 5]

theorem faithful_iff_notQueued_taken : bleNplEventqInit 100 zeroed = some created.npl ∧
    (run (step .debug 100) reputTaken created).map (fun t => content t.npl 100) =
      some (some [28, 5]) ∧
    Throughout (step .debug 100) (Faithful 100) reputTaken created ∧
    (run (step .debug 100) reputTaken created).isSome := by
  have hstart : Holds created.npl 100 0 [] := ⟨rfl, rfl, rfl⟩
  have hlegal : Along (step .debug 100) (Legal 100) reputTaken created := by
    have hnone : ∀ ev s, content s.npl 100 = some [] → ¬ Pending 100 ev s := by
      rintro ev s hs ⟨l, hl, hm⟩
      cases hs.symm.trans hl
      cases hm
    refine along_of_step (hnone 5 _ rfl) rfl (along_of_step (hnone 28 _ rfl) rfl ?_)
    refine along_of_step ⟨by decide, by decide⟩ rfl (along_of_step trivial rfl ?_)
    refine along_of_step ⟨rfl, by decide⟩ rfl (along_of_step trivial rfl ?_)
    exact along_of_step ⟨by decide, by decide⟩ rfl trivial
  have hnot : Along (step .debug 100) NotQueued reputTaken created := by
    have hquiet : ∀ op s, putsEvent op s = none → NotQueued op s := by
      intro op s hnone ev hp
      cases hnone.symm.trans hp
    have hclear : ∀ op s ev, putsEvent op s = some ev → bleNplEventIsQueued ev s.npl = false →
        NotQueued op s := by
      intro op s ev hputs hflag e hp
      cases hputs.symm.trans hp
      exact hflag
    refine along_of_step (hquiet _ _ rfl) rfl (along_of_step (hquiet _ _ rfl) rfl ?_)
    refine along_of_step (hclear _ _ 5 rfl rfl) rfl (along_of_step (hquiet _ _ rfl) rfl ?_)
    refine along_of_step (hclear _ _ 28 rfl rfl) rfl (along_of_step (hquiet _ _ rfl) rfl ?_)
    exact along_of_step (hclear _ _ 5 rfl rfl) rfl trivial
  obtain ⟨hiff, hdefined⟩ :=
    faithful_iff_notQueued .debug 100 0 created reputTaken hstart rfl hlegal
  exact ⟨rfl, rfl, (hiff.mp hnot).1, hdefined hnot {5, 28} (by decide) (by decide)⟩

end EventFlags
