import Mathlib.Data.List.Nodup
import ApacheNimble.PanicFreedom
import ApacheNimble.Delivery
import ApacheNimble.TransportLink

/-!
# What a command returns is what was handed up for it

A call copies the array that it takes, parses its front and returns the event.
The array has come through both channels and the reader's hand.
-/
namespace Outcome

open Hci Fifo Controller Transition Transport CommandAgreement PanicFreedom Delivery

variable {μ : Type} {lib : External μ} {n : Nat} {s t : State} {l : Label μ}
  {i : CallId} {data : Bytes} {tag : Tag}

/-- The call has its answer. -/
def hasAnswer : CallPc → Bool
  | .answered _ _ | .freed _ | .returned (.ok _) => true
  | _ => false

/-- The packet was handed up for the call, which took it, and the array holds it. -/
structure AnsweredBy (lib : External μ) (n : Nat) (s : State) (i : CallId) (data : Bytes)
    (tag : Tag) : Prop where
  accepted : tag ∈ s.accepted
  taken : (i, tag) ∈ s.taken
  sound : Sound lib n ⟨tag.kind, data, tag⟩

/-- The event is the packet that was handed up for the call. -/
structure Returns (lib : External μ) (s : State) (i : CallId) (event : Event) (tag : Tag) :
    Prop where
  accepted : tag ∈ s.accepted
  taken : (i, tag) ∈ s.taken
  origin : tag.origin = some i
  parsed : lib.fromHciBytesWithKind tag.kind tag.packet = some (.event event)
  response : (ControllerToHostPacket.event event).isResponse = true

structure Traced (lib : External μ) (n : Nat) (s : State) : Prop where
  signal : ∀ x ∈ s.cmdSignal.items, x.2 ∈ s.accepted ∧ Sound lib n ⟨x.2.kind, x.1, x.2⟩
  holds : ∀ i data, dataOf (s.calls i) = some data → ∃ tag, AnsweredBy lib n s i data tag
  returned : ∀ i event, s.calls i = .returned (.ok event) → ∃ tag, Returns lib s i event tag
  failed : ∀ i e, s.calls i = .returned (.error e) → e = .io .noMem ∨ e = .io .invalid
  took : ∀ x ∈ s.taken, hasAnswer (s.calls x.1) = true
  once : (s.taken.map (·.1)).Nodup

theorem start_traced : Traced lib n start where
  signal := by simp [start]
  holds := by simp [start, dataOf]
  returned := by simp [start]
  failed := by simp [start]
  took := by simp [start]
  once := List.nodup_nil

/-- The array that holds an answer parses to the event that was handed up. -/
theorem parseResponse_answer (hheader : ReadsHeader lib)
    (h : Sound lib n ⟨tag.kind, data, tag⟩) (horigin : tag.origin.isSome = true) :
    ∃ event, lib.fromHciBytesWithKind tag.kind tag.packet = some (.event event) ∧
      (ControllerToHostPacket.event event).isResponse = true ∧
      parseResponse lib data = some (.ok event) := by
  have hany := h.response.symm.trans horigin
  obtain ⟨p, hp, hresponse⟩ := (Option.any_eq_true ..).mp hany
  obtain ⟨kind, packet, run, origin⟩ := tag
  cases kind with
  | aclData =>
    rw [lib.aclData_isResponse hp] at hresponse
    cases hresponse
  | event =>
    obtain ⟨event, hevent, rfl⟩ := Option.map_eq_some_iff.mp hp
    obtain ⟨code, length, params, hlen, rfl⟩ := h.complete
    obtain ⟨tail, rfl⟩ : ∃ tail, data = code :: length :: params ++ tail :=
      ⟨_, (copyToFront_eq_some.mp h.data).2⟩
    refine ⟨event, hp, hresponse, ?_⟩
    have hfits : 2 + length.toNat ≤ (code :: length :: params ++ tail).length := by
      simp only [List.length_append, List.length_cons, hlen]
      omega
    have htake : (code :: length :: params ++ tail).take (2 + length.toNat) =
        code :: length :: params :=
      List.take_left' (by simp only [List.length_cons, hlen]; omega)
    rw [parseResponse, show lib.eventPacketHeader (code :: length :: params ++ tail) =
      some ⟨code, length⟩ from hheader ..]
    simp only [if_pos hfits, htake, hevent]

theorem AnsweredBy.grow (h : AnsweredBy lib n s i data tag) (haccepted : s.accepted ⊆ t.accepted)
    (htaken : s.taken ⊆ t.taken) : AnsweredBy lib n t i data tag :=
  ⟨haccepted h.accepted, htaken h.taken, h.sound⟩

theorem Returns.grow {event : Event} (h : Returns lib s i event tag)
    (haccepted : s.accepted ⊆ t.accepted) (htaken : s.taken ⊆ t.taken) :
    Returns lib t i event tag :=
  ⟨haccepted h.accepted, htaken h.taken, h.origin, h.parsed, h.response⟩

/-- What a step of `execute_command` does to the call it moves. -/
inductive CallMoves (lib : External μ) (s t : State) (i : CallId) : CallPc → Prop
  | before (pc : CallPc) : hasAnswer (s.calls i) = false → hasAnswer pc = false →
      dataOf pc = none → (∀ r, pc = .returned r → r = .error (.io .noMem) ∨
        r = .error (.io .invalid)) → t.taken = s.taken → CallMoves lib s t i pc
  | take (ptr : Ptr) (data : Bytes) (tag : Tag) : s.calls i = .waiting ptr →
      s.cmdSignal.items = [(data, tag)] → t.taken = s.taken ++ [(i, tag)] →
      CallMoves lib s t i (.answered ptr data)
  | free (ptr : Ptr) (data : Bytes) : s.calls i = .answered ptr data → t.taken = s.taken →
      CallMoves lib s t i (.freed data)
  | parse (data : Bytes) (r : Except Error Event) : s.calls i = .freed data →
      parseResponse lib data = some r → t.taken = s.taken → CallMoves lib s t i (.returned r)

/-- A step of `execute_command` moves one call. -/
theorem callStep_moves (h : callStep lib l s = some t) :
    ∃ i pc, t.calls = Function.update s.calls i pc ∧ CallMoves lib s t i pc := by
  cases l <;> simp only [callStep, reduceCtorEq] at h
  case call i cmd =>
    split at h
    · rename_i hpc
      cases h
      exact ⟨i, _, rfl, .before _ (by rw [hpc]; rfl) rfl rfl (by rintro _ ⟨⟩) rfl⟩
    · cases h
  case lock i =>
    split at h
    · rename_i cmd hpc hlock
      cases h
      exact ⟨i, _, rfl, .before _ (by rw [hpc]; rfl) rfl rfl (by rintro _ ⟨⟩) rfl⟩
    · cases h
  case alloc i ptr =>
    split at h
    · rename_i hpc
      cases h
      exact ⟨i, _, rfl, .before _ (by rw [hpc]; rfl) rfl rfl (by rintro _ ⟨⟩; exact .inl rfl) rfl⟩
    · rename_i hpc
      cases h
      exact ⟨i, _, rfl, .before _ (by rw [hpc]; rfl) rfl rfl (by rintro _ ⟨⟩) rfl⟩
    · cases h
  case serialize i =>
    split at h
    · rename_i cmd ptr hpc
      split at h
      · cases h
        exact ⟨i, _, rfl, .before _ (by rw [hpc]; rfl) rfl rfl (by rintro _ ⟨⟩; exact .inl rfl) rfl⟩
      · obtain ⟨cmdData, -, he⟩ := Option.map_eq_some_iff.mp h
        cases he
        exact ⟨i, _, rfl, .before _ (by rw [hpc]; rfl) rfl rfl (by rintro _ ⟨⟩) rfl⟩
    · cases h
  case queue i ret =>
    split at h
    · rename_i ptr _ hpc
      split at h
      · cases h
        exact ⟨i, _, rfl, .before _ (by rw [hpc]; rfl) rfl rfl (by rintro _ ⟨⟩; exact .inr rfl) rfl⟩
      · cases h
        exact ⟨i, _, rfl, .before _ (by rw [hpc]; rfl) rfl rfl (by rintro _ ⟨⟩) rfl⟩
    · cases h
  case receive i =>
    split at h
    · rename_i ptr data tag ch hpc hrecv
      cases h
      obtain ⟨hitems, rfl⟩ := Channel.tryReceive_one.mp hrecv
      exact ⟨i, _, rfl, .take ptr data tag hpc hitems rfl⟩
    · cases h
  case free i =>
    split at h
    · rename_i ptr data hpc
      cases h
      exact ⟨i, _, rfl, .free ptr data hpc rfl⟩
    · cases h
  case parse i =>
    split at h
    · rename_i buf hpc
      obtain ⟨r, hr, he⟩ := Option.map_eq_some_iff.mp h
      cases he
      exact ⟨i, _, rfl, .parse buf r hpc hr rfl⟩
    · cases h

theorem readStep_still (h : readStep lib l s = some t) :
    t.calls = s.calls ∧ t.taken = s.taken := by
  cases l <;> simp only [readStep, reduceCtorEq] at h
  case readResume =>
    split at h
    · obtain ⟨ch, -, he⟩ := Option.map_eq_some_iff.mp h
      cases he
      exact ⟨rfl, rfl⟩
    · cases h
  all_goals
    repeat' split at h
    all_goals
      cases h
      try exact ⟨rfl, rfl⟩

theorem taskStep_still (h : taskStep lib n l s = some t) :
    t.calls = s.calls ∧ t.taken = s.taken := by
  cases l <;> simp only [taskStep, reduceCtorEq] at h
  case evt | acl =>
    obtain ⟨-, he⟩ := Option.ite_none_right_eq_some.mp h
    obtain ⟨r, -, he⟩ := Option.map_eq_some_iff.mp he
    cases he
    exact ⟨rfl, rfl⟩
  all_goals
    repeat' split at h
    all_goals
      cases h
      try exact ⟨rfl, rfl⟩

theorem step_moves (h : step lib n l s = some t) :
    (t.calls = s.calls ∧ t.taken = s.taken) ∨
    ∃ i, CallMoves lib s t i (t.calls i) ∧ ∀ j, j ≠ i → t.calls j = s.calls j := by
  unfold step at h
  split at h
  all_goals first
    | exact .inl (readStep_still h)
    | exact .inl (taskStep_still h)
    | obtain ⟨i, pc, hcalls, hmove⟩ := callStep_moves h
      refine .inr ⟨i, ?_, fun j hj => ?_⟩
      · rwa [hcalls, Function.update_self]
      · rw [hcalls, Function.update_of_ne hj]

theorem step_call (h : step lib n l s = some t) (j : CallId) :
    t.calls j = s.calls j ∨ CallMoves lib s t j (t.calls j) := by
  obtain ⟨hcalls, -⟩ | ⟨i, hmove, hother⟩ := step_moves h
  · exact .inl (by rw [hcalls])
  · by_cases hji : j = i
    · exact .inr (hji ▸ hmove)
    · exact .inl (hother j hji)

theorem step_signal (hlib : lib.Documented) (ho : Orderly lib n s) (h : Traced lib n s)
    (hstep : step lib n l s = some t) :
    ∀ x ∈ t.cmdSignal.items, x.2 ∈ t.accepted ∧ Sound lib n ⟨x.2.kind, x.1, x.2⟩ := by
  cases step_effect hlib hstep with
  | receive => simp
  | readForward len p buf ch hreader hbody hsignal hch =>
    intro x hx
    have hp : p ∈ inTransit s := by simp [inTransit, hand, hreader]
    have hsound := ho.agreement.sound p hp
    rw [hch, List.mem_singleton] at hx
    subst hx
    refine ⟨?_, ?_⟩
    · rw [show s.accepted = _ from ho.ordered]
      exact List.mem_append_right _ (List.mem_map_of_mem hp)
    · rw [← hsound.kind]
      exact hsound
  | readResume len p ch hreader => exact absurd hreader (ho.agreement.flows len p)
  | accept =>
    intro x hx
    exact ⟨List.mem_append_left _ (h.signal x hx).1, (h.signal x hx).2⟩
  | call | lock | work | «return» | queue | read | readPoll | readSuspend | readReturn | readDrop
  | readLose | event | gateRead | gateCmd | eventRun | discard | handlerDone => exact h.signal

/-- The call that a step moves has what it holds and returns from its answer. -/
theorem CallMoves.holds (h : Traced lib n s) {pc : CallPc} (hmove : CallMoves lib s t i pc)
    (haccepted : s.accepted ⊆ t.accepted) (htaken : s.taken ⊆ t.taken)
    (hpc : dataOf pc = some data) : ∃ tag, AnsweredBy lib n t i data tag := by
  cases hmove with
  | before pc hold hnew hdata => simp [hdata] at hpc
  | take ptr data' tag hwaiting hsignal hlog =>
    obtain rfl : data' = data := Option.some.inj hpc
    have hmem : (data', tag) ∈ s.cmdSignal.items := by
      rw [hsignal]
      exact List.mem_singleton_self _
    obtain ⟨hmem, hsound⟩ := h.signal _ hmem
    exact ⟨tag, haccepted hmem, by rw [hlog]; simp, hsound⟩
  | free ptr data' hanswered =>
    obtain rfl : data' = data := Option.some.inj hpc
    obtain ⟨tag, htag⟩ := h.holds i data' (by rw [hanswered]; rfl)
    exact ⟨tag, htag.grow haccepted htaken⟩
  | parse => cases hpc

/-- A call that parses its answer returns the event that was handed up. -/
theorem Traced.parse (hheader : ReadsHeader lib) (ho : Orderly lib n s) (h : Traced lib n s)
    (hfreed : s.calls i = .freed data) {r : Except Error Event}
    (hr : parseResponse lib data = some r) :
    ∃ event tag, r = .ok event ∧ Returns lib s i event tag := by
  obtain ⟨tag, htag⟩ := h.holds i data (by rw [hfreed]; rfl)
  have horigin := ho.agreement.taken (i, tag) htag.taken
  obtain ⟨event, hevent, hresponse, hparse⟩ :=
    parseResponse_answer hheader htag.sound (by rw [horigin]; rfl)
  exact ⟨event, tag, Option.some.inj (hr.symm.trans hparse), htag.accepted, htag.taken, horigin,
    hevent, hresponse⟩

theorem CallMoves.returned (hheader : ReadsHeader lib) (ho : Orderly lib n s) (h : Traced lib n s)
    {event : Event} (hmove : CallMoves lib s t i (.returned (.ok event)))
    (haccepted : s.accepted ⊆ t.accepted) (htaken : s.taken ⊆ t.taken) :
    ∃ tag, Returns lib t i event tag := by
  cases hmove with
  | before _ hold hnew => cases hnew
  | parse data r hfreed hr =>
    obtain ⟨event', tag, he, htag⟩ := h.parse hheader ho hfreed hr
    cases he
    exact ⟨tag, htag.grow haccepted htaken⟩

theorem CallMoves.failed (hheader : ReadsHeader lib) (ho : Orderly lib n s) (h : Traced lib n s)
    {e : Error} (hmove : CallMoves lib s t i (.returned (.error e))) :
    e = .io .noMem ∨ e = .io .invalid := by
  cases hmove with
  | before _ hold hnew hdata hr => simpa using hr _ rfl
  | parse data r hfreed hr =>
    obtain ⟨event, tag, he, -⟩ := h.parse hheader ho hfreed hr
    cases he

/-- A call that has its answer keeps it, and takes none before. -/
theorem CallMoves.took (hheader : ReadsHeader lib) (ho : Orderly lib n s) (h : Traced lib n s)
    {pc : CallPc} (hmove : CallMoves lib s t i pc) :
    (hasAnswer pc = true ∧ t.taken = s.taken) ∨
    (hasAnswer (s.calls i) = false ∧ t.taken = s.taken) ∨
    (hasAnswer (s.calls i) = false ∧ hasAnswer pc = true ∧ ∃ tag, t.taken = s.taken ++ [(i, tag)])
    := by
  cases hmove with
  | before _ hold hnew hdata hr hlog => exact .inr (.inl ⟨hold, hlog⟩)
  | take ptr data tag hwaiting hsignal hlog =>
    exact .inr (.inr ⟨by rw [hwaiting]; rfl, rfl, tag, hlog⟩)
  | free ptr data hanswered hlog => exact .inl ⟨rfl, hlog⟩
  | parse data r hfreed hr hlog =>
    obtain ⟨event, tag, rfl, -⟩ := h.parse hheader ho hfreed hr
    exact .inl ⟨rfl, hlog⟩

theorem step_hasAnswer (hheader : ReadsHeader lib) (ho : Orderly lib n s) (h : Traced lib n s)
    (hstep : step lib n l s = some t) {j : CallId} (hj : hasAnswer (s.calls j) = true) :
    hasAnswer (t.calls j) = true := by
  obtain hsame | hmove := step_call hstep j
  · rwa [hsame]
  · obtain ⟨hpc, -⟩ | ⟨hold, -⟩ | ⟨-, hpc, -⟩ := hmove.took hheader ho h
    · exact hpc
    · rw [hold] at hj
      cases hj
    · exact hpc

/-- An answer is taken by a call that had none. -/
theorem step_taken (hheader : ReadsHeader lib) (ho : Orderly lib n s) (h : Traced lib n s)
    (hstep : step lib n l s = some t) :
    t.taken = s.taken ∨ ∃ i tag, t.taken = s.taken ++ [(i, tag)] ∧
      hasAnswer (s.calls i) = false ∧ hasAnswer (t.calls i) = true := by
  obtain ⟨-, hlog⟩ | ⟨i, hmove, -⟩ := step_moves hstep
  · exact .inl hlog
  · obtain ⟨-, hlog⟩ | ⟨-, hlog⟩ | ⟨hold, hnew, tag, hlog⟩ := hmove.took hheader ho h
    · exact .inl hlog
    · exact .inl hlog
    · exact .inr ⟨i, tag, hlog, hold, hnew⟩

theorem step_took (hheader : ReadsHeader lib) (ho : Orderly lib n s) (h : Traced lib n s)
    (hstep : step lib n l s = some t) : ∀ x ∈ t.taken, hasAnswer (t.calls x.1) = true := by
  intro x hx
  obtain hlog | ⟨i, tag, hlog, -, hnew⟩ := step_taken hheader ho h hstep
  · exact step_hasAnswer hheader ho h hstep (h.took x (hlog ▸ hx))
  · rw [hlog, List.mem_append, List.mem_singleton] at hx
    obtain hx | rfl := hx
    · exact step_hasAnswer hheader ho h hstep (h.took x hx)
    · exact hnew

theorem step_once (hheader : ReadsHeader lib) (ho : Orderly lib n s) (h : Traced lib n s)
    (hstep : step lib n l s = some t) : (t.taken.map (·.1)).Nodup := by
  obtain hlog | ⟨i, tag, hlog, hold, -⟩ := step_taken hheader ho h hstep
  · rw [hlog]
    exact h.once
  · rw [hlog, List.map_append, List.nodup_append]
    refine ⟨h.once, List.pairwise_singleton .., ?_⟩
    rintro j hj k hk rfl
    obtain ⟨x, hx, rfl⟩ := List.mem_map.mp hj
    have hxi : x.1 = i := List.mem_singleton.mp hk
    rw [← hxi, h.took x hx] at hold
    cases hold

theorem step_traced (hlib : lib.Documented) (hheader : ReadsHeader lib) (ho : Orderly lib n s)
    (h : Traced lib n s) (hstep : step lib n l s = some t) : Traced lib n t := by
  obtain ⟨tags, xs, -, haccepted, htaken, -⟩ := TransportLink.step_grows hlib hstep
  have haccepted : s.accepted ⊆ t.accepted := haccepted ▸ List.subset_append_left ..
  have htaken : s.taken ⊆ t.taken := htaken ▸ List.subset_append_left ..
  constructor
  · exact step_signal hlib ho h hstep
  · intro j data hj
    obtain hsame | hmove := step_call hstep j
    · obtain ⟨tag, htag⟩ := h.holds j data (hsame ▸ hj)
      exact ⟨tag, htag.grow haccepted htaken⟩
    · exact hmove.holds h haccepted htaken hj
  · intro j event hj
    obtain hsame | hmove := step_call hstep j
    · obtain ⟨tag, htag⟩ := h.returned j event (hsame ▸ hj)
      exact ⟨tag, htag.grow haccepted htaken⟩
    · exact (hj ▸ hmove).returned hheader ho h haccepted htaken
  · intro j e hj
    obtain hsame | hmove := step_call hstep j
    · exact h.failed j e (hsame ▸ hj)
    · exact (hj ▸ hmove).failed hheader ho h
  · exact step_took hheader ho h hstep
  · exact step_once hheader ho h hstep

theorem run_traced (hlib : lib.Documented) (hheader : ReadsHeader lib) {ls : List (Label μ)}
    (hlong : Along (step lib n) LongEnough ls start) (h : run (step lib n) ls start = some s) :
    Orderly lib n s ∧ Traced lib n s := by
  refine run_invariant_along (I := fun s => Orderly lib n s ∧ Traced lib n s) ?_
    ⟨start_orderly, start_traced⟩ hlong h
  rintro l s t ⟨ho, hs⟩ hl hstep
  exact ⟨step_orderly hlib ho hl hstep, step_traced hlib hheader ho hs hstep⟩

/-- In every run, a call that returns an error has run out of memory or could not
queue its command, and has taken nothing. Any other call returns the event that
the one packet it has taken is, and this packet was handed up for its command. -/
theorem returns_own_event (hlib : lib.Documented) (hheader : ReadsHeader lib)
    (ls : List (Label μ)) (s : State) (hlong : Along (step lib n) LongEnough ls start)
    (h : run (step lib n) ls start = some s) :
    (∀ i e, s.calls i = .returned (.error e) →
      (e = .io .noMem ∨ e = .io .invalid) ∧ ∀ tag, (i, tag) ∉ s.taken) ∧
    ∀ i event, s.calls i = .returned (.ok event) →
      ∃ tag, Returns lib s i event tag ∧ ∀ tag', (i, tag') ∈ s.taken → tag' = tag := by
  obtain ⟨-, hs⟩ := run_traced hlib hheader hlong h
  constructor
  · intro i e hi
    refine ⟨hs.failed i e hi, fun tag htag => ?_⟩
    have hanswer := hs.took (i, tag) htag
    rw [hi] at hanswer
    cases hanswer
  · intro i event hi
    obtain ⟨tag, htag⟩ := hs.returned i event hi
    refine ⟨tag, htag, fun tag' htag' => ?_⟩
    have heq := List.inj_on_of_nodup_map hs.once htag' htag.taken rfl
    exact congrArg Prod.snd heq

/-- The reset command returns the event that completes it. -/
def completedTrace : List (Label Bytes) := resetTrace ++ [.free 0, .parse 0]

set_option maxRecDepth 20000 in
theorem returns_own_event_reset : ∃ s event tag,
    run (step plain 260) completedTrace start = some s ∧
    s.calls 0 = .returned (.ok event) ∧ Returns plain s 0 event tag := by
  have hlong : Along (step plain 260) LongEnough completedTrace start := by
    iterate 11 refine along_of_step trivial rfl ?_
    refine along_of_step ?_ rfl ?_
    · intro p hp
      cases List.mem_singleton.mp hp
      decide
    · iterate 4 refine along_of_step trivial rfl ?_
      trivial
  obtain ⟨tag, htag, -⟩ := (returns_own_event plain_documented plain_readsHeader completedTrace _
    hlong rfl).2 0 _ rfl
  exact ⟨_, _, tag, rfl, rfl, htag⟩

end Outcome
