import ApacheNimble.Link
import ApacheNimble.CommandAgreement

/-!
# The transport is a link with one request at a time

The calls, the reader and the task interleave, and answers share a channel with
everything else. What they show at the two ends is what such a link shows.
-/
namespace TransportLink

open Hci Fifo Controller Transition Transport CommandAgreement
open Link (Action Turn)

variable {μ : Type} {lib : External μ} {n : Nat} {s t : State} {l : Label μ}
  {a : Link.State CallId Tag}

/-- A packet that is handed up answers a call or is sent besides. -/
def handedUp (tag : Tag) : Action CallId Tag :=
  match tag.origin with
  | some i => .answer i tag
  | none => .send tag

/-- A packet that does not parse is returned as well, as an error of `read`. -/
def ofResult (x : Tag × Departure) : Option Tag :=
  match x.2 with
  | .result _ _ => some x.1
  | _ => none

/-- What a step shows: commands that the controller takes on, packets that are
handed up, answers that calls take and packets that `read` returns. -/
def shown (s t : State) : List (Action CallId Tag) :=
  (t.controller.drop s.controller.length).map .ask ++
    (t.accepted.drop s.accepted.length).map handedUp ++
    (t.taken.drop s.taken.length).map (fun x => .take x.1 x.2) ++
    ((t.left.drop s.left.length).filterMap ofResult).map .deliver

/-- The packets that have been accepted and have not arrived. -/
def onTheWay (s : State) : List Tag := (inTransit s).map (·.tag) ++ s.cmdSignal.items.map (·.2)

def answers (s : State) : List Tag := (onTheWay s).filter (·.origin.isSome)

def stream (s : State) : List Tag := ((inTransit s).map (·.tag)).filter (·.origin.isNone)

/-- The turn that the state of the transport shows. -/
def Turned (s : State) : Turn CallId Tag → Prop
  | .free => ∀ i, (s.calls i).inFlight = false
  | .asked i => (s.calls i).inFlight = true ∧ answers s = []
  | .answered i tag => (s.calls i).inFlight = true ∧ answers s = [tag]

structure Shows (s : State) (a : Link.State CallId Tag) : Prop where
  turn : Turned s a.turn
  stream : a.stream = stream s

theorem start_shows : Shows start Link.start := ⟨fun _ => rfl, rfl⟩

theorem length_outstanding (s : State) :
    (outstanding s).length = s.controller.length + (answers s).length := by
  have hway : (onTheWay s).filterMap (·.origin) =
      (inTransit s).filterMap (·.tag.origin) ++ s.cmdSignal.items.filterMap (·.2.origin) := by
    simp only [onTheWay, List.filterMap_append, List.filterMap_map, Function.comp_def]
  rw [outstanding, List.append_assoc, ← hway, List.length_append, List.length_filterMap_eq_countP,
    List.countP_eq_length_filter]
  rfl

theorem answers_length (ha : Agreement lib n s) : s.controller.length + (answers s).length ≤ 1 :=
  length_outstanding s ▸ ha.single

/-- While the controller has the command, its answer is not on the way. -/
theorem answers_nil (ha : Agreement lib n s) {i : CallId} (h : i ∈ s.controller) :
    answers s = [] := by
  have hpos := List.length_pos_of_mem h
  have hle := answers_length ha
  exact List.length_eq_zero_iff.mp (by omega)

/-- An answer on the way is the only one. -/
theorem answers_single (ha : Agreement lib n s) {tag : Tag} (h : tag ∈ answers s) :
    answers s = [tag] := by
  have hpos := List.length_pos_of_mem h
  have hle := answers_length ha
  obtain ⟨tag', heq⟩ := List.length_eq_one_iff.mp (by omega : (answers s).length = 1)
  rw [heq, List.mem_singleton] at h
  rw [heq, h]

theorem turned_free (ha : Agreement lib n s) {i : CallId} (hi : (s.calls i).working = true)
    {turn : Turn CallId Tag} (h : Turned s turn) : turn = .free := by
  have hnone : ∀ j, (s.calls j).inFlight ≠ true := by
    intro j hj
    obtain rfl := ha.holder_eq (.inl hi) (.inr hj)
    rw [CallPc.not_inFlight_of_working hi] at hj
    cases hj
  cases turn with
  | free => rfl
  | asked j => exact absurd h.1 (hnone j)
  | answered j tag => exact absurd h.1 (hnone j)

theorem turned_asked (ha : Agreement lib n s) {i : CallId} (hi : (s.calls i).inFlight = true)
    (hnone : answers s = []) {turn : Turn CallId Tag} (h : Turned s turn) : turn = .asked i := by
  cases turn with
  | free => rw [h i] at hi; cases hi
  | asked j => rw [ha.holder_eq (.inr h.1) (.inr hi)]
  | answered j tag =>
    rw [h.2] at hnone
    cases hnone

theorem turned_answered (ha : Agreement lib n s) {i : CallId} {tag : Tag}
    (hi : (s.calls i).inFlight = true) (htag : answers s = [tag]) {turn : Turn CallId Tag}
    (h : Turned s turn) : turn = .answered i tag := by
  cases turn with
  | free => rw [h i] at hi; cases hi
  | asked j =>
    rw [h.2] at htag
    cases htag
  | answered j tag' =>
    rw [h.2] at htag
    rw [ha.holder_eq (.inr h.1) (.inr hi), List.head_eq_of_cons_eq htag]

theorem Turned.of_same {turn : Turn CallId Tag} (h : Turned s turn)
    (hflight : ∀ i, (t.calls i).inFlight = (s.calls i).inFlight)
    (hanswers : answers t = answers s) : Turned t turn := by
  cases turn with
  | free => exact fun i => (hflight i).trans (h i)
  | asked i => exact ⟨(hflight i).trans h.1, hanswers.trans h.2⟩
  | answered i tag => exact ⟨(hflight i).trans h.1, hanswers.trans h.2⟩

/-- A step that shows nothing. -/
theorem Shows.keep (h : Shows s a) (hshown : shown s t = [])
    (hflight : ∀ i, (t.calls i).inFlight = (s.calls i).inFlight)
    (hanswers : answers t = answers s) (hstream : TransportLink.stream t = TransportLink.stream s) :
    ∃ b, run Link.step (shown s t) a = some b ∧ Shows t b :=
  ⟨a, by rw [hshown, run_nil], h.turn.of_same hflight hanswers, h.stream.trans hstream.symm⟩

/-- A call that neither waited nor waits now has moved. -/
theorem inFlight_update {calls : CallId → CallPc} {i : CallId} {pc : CallPc}
    (h : (calls i).inFlight = false) (hpc : pc.inFlight = false) (j : CallId) :
    (Function.update calls i pc j).inFlight = (calls j).inFlight := by
  by_cases hj : j = i
  · rw [hj, Function.update_self, hpc, h]
  · rw [Function.update_of_ne hj]

/-- The command that is queued is asked for. -/
theorem queue_shows (ha : Agreement lib n s) (h : Shows s a) {i : CallId} (ptr : Ptr)
    (hi : (s.calls i).working = true) :
    ∃ b, run Link.step (shown s { s.setCall i (.waiting ptr) with
        controller := s.controller ++ [i] }) a = some b ∧
      Shows { s.setCall i (.waiting ptr) with controller := s.controller ++ [i] } b := by
  refine ⟨{ a with turn := .asked i }, ?_, ⟨?_, ?_⟩, h.stream⟩
  · have hask := Link.step_ask (k := i) (turned_free ha hi h.turn)
    simp [shown, State.setCall, run_cons, hask]
  · simp [State.setCall, CallPc.inFlight]
  · have hlen := length_outstanding s
    rw [ha.nothing_outstanding hi] at hlen
    have hnil : answers s = [] := List.length_eq_zero_iff.mp (by simp at hlen; omega)
    exact hnil

/-- The call that waits takes the answer to what it has asked. -/
theorem receive_shows (ha : Agreement lib n s) (h : Shows s a) {i : CallId} {ptr : Ptr}
    {data : Bytes} {tag : Tag} (hpc : s.calls i = .waiting ptr)
    (hsignal : s.cmdSignal.items = [(data, tag)]) :
    ∃ b, run Link.step (shown s { s.setCall i (.answered ptr data) with
        cmdSignal := Channel.empty
        taken := s.taken ++ [(i, tag)] }) a = some b ∧
      Shows { s.setCall i (.answered ptr data) with
        cmdSignal := Channel.empty
        taken := s.taken ++ [(i, tag)] } b := by
  have hi : (s.calls i).inFlight = true := by rw [hpc]; rfl
  have hmem : tag ∈ answers s := by
    have horigin := (ha.answer (data, tag) (by rw [hsignal]; exact List.mem_singleton_self _)).1
    simp [answers, onTheWay, hsignal, horigin]
  have hturn := turned_answered ha hi (answers_single ha hmem) h.turn
  refine ⟨{ a with turn := .free }, ?_, ?_, h.stream⟩
  · have htake := Link.step_take hturn
    simp [shown, State.setCall, run_cons, htake]
  · intro j
    by_cases hj : j = i
    · simp [State.setCall, hj, CallPc.inFlight]
    · simp only [State.setCall, Function.update_of_ne hj]
      by_contra hflight
      exact hj (ha.holder_eq (.inr (by simpa using hflight)) (.inr hi))

theorem drop_remaining (origin : Option CallId) (controller : List CallId) :
    (remaining origin controller).drop controller.length = [] := by
  apply List.drop_eq_nil_of_le
  cases origin with
  | none => exact Nat.le_refl _
  | some i => exact List.length_erase_le

/-- A packet is handed up. What answers a call answers the one that has asked. -/
theorem accept_shows (ha : Agreement lib n s) (h : Shows s a) {tag : Tag} {data : Bytes}
    {ch : Channel (HostPacket Tag) 1} {freed : List Ptr}
    (horigin : ∀ i, tag.origin = some i → i ∈ s.controller) (hempty : s.readChannel.items = [])
    (hch : ch.items = [⟨tag.kind, data, tag⟩]) :
    ∃ b, run Link.step (shown s { s with
        readChannel := ch
        controller := remaining tag.origin s.controller
        accepted := s.accepted ++ [tag]
        freed := freed }) a = some b ∧
      Shows { s with
        readChannel := ch
        controller := remaining tag.origin s.controller
        accepted := s.accepted ++ [tag]
        freed := freed } b := by
  cases hcase : tag.origin with
  | some i =>
    have hmem := horigin i hcase
    have hi := ha.inFlight i (List.mem_append_left _ (List.mem_append_left _ hmem))
    have hnone := answers_nil ha hmem
    have hturn := turned_asked ha hi hnone h.turn
    refine ⟨{ a with turn := .answered i tag }, ?_, ⟨hi, ?_⟩, ?_⟩
    · have hanswer := Link.step_answer tag hturn
      simp [shown, handedUp, hcase, drop_remaining, run_cons, hanswer, -List.map_drop]
    · simp only [answers, onTheWay, inTransit, hempty, List.append_nil, List.filter_append,
        List.append_eq_nil_iff] at hnone
      simp [answers, onTheWay, inTransit, hch, List.filter_append, hnone, hcase]
    · simp [h.stream, stream, inTransit, hempty, hch, hcase]
  | none =>
    refine ⟨{ a with stream := a.stream ++ [tag] }, ?_, h.turn.of_same (fun _ => rfl) ?_, ?_⟩
    · simp [shown, handedUp, hcase, drop_remaining, run_cons, Link.step_send, -List.map_drop]
    · simp [answers, onTheWay, inTransit, hempty, hch, hcase]
    · simp [h.stream, stream, inTransit, hempty, hch, hcase]

/-- An answer goes from the reader's hand into `CMD_SIGNAL`. -/
theorem forward_answers (ha : Agreement lib n s) {len : Nat} {p : HostPacket Tag}
    (hreader : s.reader = .holding len p) {i : CallId} (horigin : p.tag.origin = some i)
    {ch : Channel (Bytes × Tag) 1} (hch : ch.items = [(p.data, p.tag)])
    (x : Tag × Departure) :
    answers { s with
      reader := .receiving len
      cmdSignal := ch
      left := s.left ++ [x] } = answers s := by
  have hmem : p.tag ∈ answers s := by
    simp [answers, onTheWay, inTransit, hand, hreader, horigin]
  have hsingle := answers_single ha hmem
  rw [hsingle]
  have hrest : (∀ q ∈ s.readChannel.items, q.tag.origin = none) ∧
      ∀ y x, (x, y) ∈ s.cmdSignal.items → y.origin = none := by
    simpa [answers, onTheWay, inTransit, hand, hreader, horigin] using hsingle
  simpa [answers, onTheWay, inTransit, hand, hch, horigin] using hrest.1

theorem forward_shows (ha : Agreement lib n s) (h : Shows s a) {len : Nat} {p : HostPacket Tag}
    (hreader : s.reader = .holding len p) {i : CallId} (horigin : p.tag.origin = some i)
    {ch : Channel (Bytes × Tag) 1} (hch : ch.items = [(p.data, p.tag)]) :
    ∃ b, run Link.step (shown s { s with
        reader := .receiving len
        cmdSignal := ch
        left := s.left ++ [(p.tag, .signal p.data)] }) a = some b ∧
      Shows { s with
        reader := .receiving len
        cmdSignal := ch
        left := s.left ++ [(p.tag, .signal p.data)] } b := by
  refine h.keep ?_ (fun _ => rfl) (forward_answers ha hreader horigin hch _) ?_
  · simp [shown, ofResult]
  · simp [stream, inTransit, hand, hreader, horigin]

/-- `read` returns the packet that was handed up first. -/
theorem return_shows (h : Shows s a) {len : Nat} {p : HostPacket Tag} {buf : Bytes}
    {r : Except OsError ControllerToHostPacket} (hreader : s.reader = .holding len p)
    (horigin : p.tag.origin = none) :
    ∃ b, run Link.step (shown s { s with
        reader := .idle
        left := s.left ++ [(p.tag, .result buf r)] }) a = some b ∧
      Shows { s with
        reader := .idle
        left := s.left ++ [(p.tag, .result buf r)] } b := by
  have hstream : a.stream =
      p.tag :: (s.readChannel.items.map (·.tag)).filter (·.origin.isNone) := by
    simp [h.stream, stream, inTransit, hand, hreader, horigin]
  refine ⟨{ a with stream := (s.readChannel.items.map (·.tag)).filter (·.origin.isNone) },
    ?_, h.turn.of_same (fun _ => rfl) ?_, ?_⟩
  · simp [shown, ofResult, run_cons, Link.step_deliver hstream]
  · simp [answers, onTheWay, inTransit, hand, hreader, horigin]
  · simp [stream, inTransit, hand]

theorem step_shows (hlib : lib.Documented) (ha : Agreement lib n s) (h : Shows s a)
    (hstep : step lib n l s = some t) :
    ∃ b, run Link.step (shown s t) a = some b ∧ Shows t b := by
  cases step_effect hlib hstep with
  | call i cmd hpc =>
    exact h.keep (by simp [shown, State.setCall]) (inFlight_update (by rw [hpc]; rfl) rfl) rfl rfl
  | lock i cmd hpc hlock =>
    exact h.keep (by simp [shown, State.setCall]) (inFlight_update (by rw [hpc]; rfl) rfl) rfl rfl
  | work l i pc freed hi hpc =>
    exact h.keep (by simp [shown, State.setCall])
      (inFlight_update (CallPc.not_inFlight_of_working hi) (CallPc.not_inFlight_of_working hpc))
      rfl rfl
  | «return» l i r freed hi =>
    exact h.keep (by simp [shown, State.setCall, State.return])
      (inFlight_update (CallPc.not_inFlight_of_working hi) rfl) rfl rfl
  | queue i ptr hi => exact queue_shows ha h ptr hi
  | receive i ptr data tag hpc hsignal => exact receive_shows ha h hpc hsignal
  | read len hreader | readDrop len hreader =>
    refine h.keep (by simp [shown]) (fun _ => rfl) ?_ ?_ <;>
      simp [answers, stream, onTheWay, inTransit, hand, hreader]
  | readPoll len p hreader hitems =>
    refine h.keep (by simp [shown]) (fun _ => rfl) ?_ ?_ <;>
      simp [answers, stream, onTheWay, inTransit, hand, hreader, hitems]
  | readForward len p buf ch hreader hbody hsignal hch =>
    obtain ⟨i, hi⟩ := Option.isSome_iff_exists.mp ((ha.forward_iff hlib hreader hbody).2.1.mp rfl)
    exact forward_shows ha h hreader hi hch
  | readSuspend len p buf hreader =>
    refine h.keep (by simp [shown]) (fun _ => rfl) ?_ ?_ <;>
      simp [answers, stream, onTheWay, inTransit, hand, hreader]
  | readReturn len p buf r hreader hbody =>
    exact return_shows h hreader (ha.done_origin hlib hreader hbody)
  | readResume len p ch hreader => exact absurd hreader (ha.flows len p)
  | readLose len p hreader => exact absurd hreader (ha.flows len p)
  | event | gateRead | gateCmd | eventRun | handlerDone =>
    exact h.keep (by simp [shown]) (fun _ => rfl) rfl rfl
  | accept l tag data ch freed hpc hrun hcomplete hdata horigin hresp hempty hch =>
    exact accept_shows ha h horigin hempty hch
  | discard l origin hpc =>
    exact h.keep (by simp [shown, drop_remaining, -List.map_drop]) (fun _ => rfl) rfl rfl

/-- The call that a packet answers, with the packet. -/
def answerOf (tag : Tag) : Option (CallId × Tag) := tag.origin.map (fun i => (i, tag))

/-- The answers that have been handed up, with the calls they answer. -/
def answered (s : State) : List (CallId × Tag) := s.accepted.filterMap answerOf

/-- The packets that have been handed up and answer no call. -/
def sent (s : State) : List Tag := s.accepted.filter (·.origin.isNone)

/-- The packets that `read` has returned. -/
def returned (s : State) : List Tag := s.left.filterMap ofResult

@[simp] theorem takes_handedUp (tag : Tag) : Link.takes (handedUp tag) = none := by
  unfold handedUp
  split <;> rfl

@[simp] theorem delivers_handedUp (tag : Tag) : Link.delivers (handedUp tag) = none := by
  unfold handedUp
  split <;> rfl

@[simp] theorem answers_handedUp (tag : Tag) : Link.answers (handedUp tag) = answerOf tag := by
  unfold handedUp answerOf
  split <;> simp_all [Link.answers]

@[simp] theorem sends_handedUp (tag : Tag) :
    Link.sends (handedUp tag) = Option.guard (·.origin.isNone) tag := by
  unfold handedUp
  split <;> simp_all [Link.sends, Option.guard]

/-- The logs only grow. -/
theorem step_grows (hlib : lib.Documented) (h : step lib n l s = some t) :
    ∃ tags xs ys, t.accepted = s.accepted ++ tags ∧ t.taken = s.taken ++ xs ∧
      t.left = s.left ++ ys := by
  cases step_effect hlib h with
  | receive i ptr data tag hpc hsignal =>
    exact ⟨[], [(i, tag)], [], (List.append_nil _).symm, rfl, (List.append_nil _).symm⟩
  | readForward | readReturn | readResume | readLose =>
    exact ⟨[], [], _, (List.append_nil _).symm, (List.append_nil _).symm, rfl⟩
  | accept l tag =>
    exact ⟨[tag], [], [], rfl, (List.append_nil _).symm, (List.append_nil _).symm⟩
  | call | lock | work | «return» | queue | read | readPoll | readSuspend | readDrop | event
  | gateRead | gateCmd | eventRun | discard | handlerDone =>
    exact ⟨[], [], [], (List.append_nil _).symm, (List.append_nil _).symm, (List.append_nil _).symm⟩

/-- The logs are those of what is shown. -/
theorem step_logs (hlib : lib.Documented) (h : step lib n l s = some t) :
    t.taken = s.taken ++ (shown s t).filterMap Link.takes ∧
    answered t = answered s ++ (shown s t).filterMap Link.answers ∧
    sent t = sent s ++ (shown s t).filterMap Link.sends ∧
    returned t = returned s ++ (shown s t).filterMap Link.delivers := by
  obtain ⟨tags, xs, ys, haccepted, htaken, hleft⟩ := step_grows hlib h
  simp only [answered, sent, returned, shown, haccepted, htaken, hleft, List.drop_left,
    List.filterMap_append, List.filterMap_map, Function.comp_def, takes_handedUp, answers_handedUp,
    sends_handedUp, delivers_handedUp, List.filter_append]
  refine ⟨?_, ?_, ?_, ?_⟩ <;>
    simp [Link.takes, Link.answers, Link.sends, Link.delivers, ← List.filterMap_eq_filter]

/-- What a run of the transport shows, the link shows in a run of its own. The
calls are served in the order in which their commands are queued, each takes the
packet that answers its own command, and the packets that answer no call are
returned by `read` in the order in which they were handed up. -/
theorem refines_link (hlib : lib.Documented) (ls : List (Label μ)) (s : State)
    (hlong : Along (step lib n) LongEnough ls start) (h : run (step lib n) ls start = some s) :
    ∃ a, run Link.step (observed (step lib n) shown ls start) Link.start = some a ∧ Shows s a ∧
      (observed (step lib n) shown ls start).filterMap Link.asks =
        s.taken.map (·.1) ++ a.turn.asker ∧
      answered s = s.taken ++ a.turn.reply ∧ sent s = returned s ++ a.stream := by
  obtain ⟨a, hrun, -, hshows⟩ : ∃ a, run Link.step (observed (step lib n) shown ls start)
      Link.start = some a ∧ Agreement lib n s ∧ Shows s a := by
    refine run_observed (R := fun s a => Agreement lib n s ∧ Shows s a) ?_
      ⟨start_agreement, start_shows⟩ hlong h
    rintro l s t a ⟨ha, hs⟩ hl hstep
    obtain ⟨b, hb, ht⟩ := step_shows hlib ha hs hstep
    exact ⟨b, hb, step_agreement hlib ha hl hstep, ht⟩
  have haccount := Link.run_account hrun
  have htaken : s.taken = start.taken ++ _ :=
    log_observed (fun _ _ _ hstep => (step_logs hlib hstep).1) h
  have hanswered : answered s = answered start ++ _ :=
    log_observed (fun _ _ _ hstep => (step_logs hlib hstep).2.1) h
  have hsent : sent s = sent start ++ _ :=
    log_observed (fun _ _ _ hstep => (step_logs hlib hstep).2.2.1) h
  have hreturned : returned s = returned start ++ _ :=
    log_observed (fun _ _ _ hstep => (step_logs hlib hstep).2.2.2) h
  refine ⟨a, hrun, hshows, ?_, ?_, ?_⟩
  · rw [haccount.served, htaken]
    rfl
  · rw [hanswered, htaken]
    exact haccount.answered
  · rw [hsent, hreturned]
    exact haccount.streamed

set_option maxRecDepth 20000 in
/-- The link asks for the reset command, gets its answer and has it taken. -/
theorem refines_link_reset : ∃ s a, run (step plain 260) resetTrace start = some s ∧
    run Link.step (observed (step plain 260) shown resetTrace start) Link.start = some a ∧
    answered s = s.taken ++ a.turn.reply ∧ s.taken.length = 1 := by
  have hlong : Along (step plain 260) LongEnough resetTrace start := by
    iterate 11 refine along_of_step trivial rfl ?_
    refine along_of_step ?_ rfl (along_of_step trivial rfl (along_of_step trivial rfl trivial))
    intro p hp
    cases List.mem_singleton.mp hp
    decide
  obtain ⟨a, hrun, -, -, hanswered, -⟩ := refines_link plain_documented resetTrace _ hlong rfl
  exact ⟨_, a, rfl, hrun, hanswered, rfl⟩

end TransportLink
