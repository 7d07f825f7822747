import ApacheNimble.ThreadSteps
import ApacheNimble.QueuesApart
import ApacheNimble.QueueChanges
import ApacheNimble.RemoveMiscounted

/-!
# What preemption does not spoil

A handler that preempts a put or a get can make the counter wrong, and a wrong
counter makes a removal pass the wrong entries round. The channels hold what was
put into them all the same.
-/
namespace PreemptedOrder

open PortLayer EventQueue Fifo Conveyor ThreadSteps QueuesApart QueueChanges Transition

variable {profile : Profile} {s t : Npl} {evq ev : Ptr} {i : Fin 8}

/-- The logs have what was pushed to each channel, what a removal or a new
initialisation has dropped from it, and what a get has taken off it. -/
structure Logged where
  base : State
  puts : List (Ptr × Ptr)
  dropped : List (Ptr × Ptr)
  taken : List (Ptr × Ptr)

/-- A thread's put is a push at its last step, a handler's at once. -/
def pushes (l : Label) (s : State) : List (Ptr × Ptr) :=
  match l with
  | .advance => match s.pc with
    | .putStored evq ev => [(evq, ev)]
    | _ => []
  | .interruptPut evq ev => [(evq, ev)]
  | .interruptWake co => wakePuts co s.npl
  | _ => []

/-- A removal looks at as many entries as the counter says. -/
def drops (l : Label) (s : State) : List (Ptr × Ptr) :=
  match l with
  | .init evq => ((content s.npl evq).getD []).map (fun ev => (evq, ev))
  | .remove evq ev => ((((content s.npl evq).getD []).take (s.npl.evqs evq).len.toNat).filter
      (· = ev)).map (fun e => (evq, e))
  | _ => []

/-- A get that goes on has an event. -/
def pops : Label → Pc → List (Ptr × Ptr)
  | .get _ _ _, .getPopped evq ev => [(evq, ev)]
  | _, _ => []

def loggedStep (profile : Profile) (l : Label) (s : Logged) : Option Logged :=
  (step profile l s.base).map (fun base =>
    ⟨base, s.puts ++ pushes l s.base, s.dropped ++ drops l s.base, s.taken ++ pops l base.pc⟩)

def loggedStart (events : Ptr → BleNplEvent) (callouts : Ptr → BleNplCallout) : Logged :=
  ⟨start events callouts, [], [], []⟩

/-- A removal finds the counter to be the number of entries. -/
def CountsRight (l : Label) (s : State) : Prop :=
  match l with
  | .remove evq _ => ∀ i, (s.npl.evqs evq).ch = some i →
    (s.npl.evqs evq).len.toNat = (s.npl.eqPool i).q.items.length
  | _ => True

/-- What a step does to the contents of the channels, with what it pushes, drops
and pops. A removal passes round as many entries as the counter says. -/
inductive Effect (right : Prop) (c : Ptr → Option (List Ptr)) :
    List (Ptr × Ptr) → List (Ptr × Ptr) → List (Ptr × Ptr) → (Ptr → Option (List Ptr)) → Prop
  | quiet : Effect right c [] [] [] c
  | push (evq ev : Ptr) (l : List Ptr) : c evq = some l →
      Effect right c [(evq, ev)] [] [] (Function.update c evq (some (l ++ [ev])))
  | init (evq : Ptr) : Effect right c [] (((c evq).getD []).map (fun ev => (evq, ev))) []
      (Function.update c evq (some []))
  | remove (evq ev : Ptr) (l l' : List Ptr) (n : Nat) : c evq = some l →
      CyclicPass.pass ev n l = some l' → (right → n = l.length) →
      Effect right c [] (((l.take n).filter (· = ev)).map (fun e => (evq, e))) []
        (Function.update c evq (some l'))
  | pop (evq ev : Ptr) (l : List Ptr) : c evq = some (ev :: l) →
      Effect right c [] [] [(evq, ev)] (Function.update c evq (some l))

/-- The event of a put in progress. -/
def given : Pc → List Ptr
  | .putQueued _ ev | .putLoaded _ ev _ | .putStored _ ev => [ev]
  | _ => []

/-- The channels are apart, and nobody puts null. -/
structure Sane (s : State) : Prop where
  apart : Apart s.npl
  given : nullMut ∉ given s.pc

theorem start_sane (events : Ptr → BleNplEvent) (callouts : Ptr → BleNplCallout) :
    Sane (start events callouts) :=
  ⟨boot_apart events callouts, by simp [given, start]⟩

section Steps

/-- A push to a channel that has room. -/
theorem push_effect {u : Npl} (right : Prop) (h : Apart s) (hadded : Added evq ev i s u) :
    Apart u ∧ Effect right (content s) [(evq, ev)] [] [] (content u) := by
  refine ⟨h.of_frame hadded.ch hadded.frame ?_, ?_⟩
  · rw [hadded.items]
    simp [h.nonnull i, hadded.nonnull.symm]
  · rw [h.content_of_frame hadded.ch hadded.frame, hadded.items]
    exact .push evq ev _ (by rw [content, hadded.ch, Option.map_some])

theorem wake_effect {right : Prop} {co : Ptr} (h : Apart s)
    (hcb : calloutCb profile co s = some t) :
    Apart t ∧ Effect right (content s) (wakePuts co s) [] [] (content t) := by
  obtain ⟨hactive, u, hput, rfl⟩ | ⟨hactive, rfl⟩ := calloutCb_cases hcb
  · obtain ⟨i, hadded⟩ := put_added hput
    obtain ⟨hapart, heffect⟩ := push_effect right h hadded
    rw [wakePuts, if_pos hactive]
    exact ⟨hapart.congr rfl rfl, heffect⟩
  · rw [wakePuts, if_neg (by simp [hactive])]
    exact ⟨h.congr rfl rfl, .quiet⟩

theorem remove_effect {right : Prop} (h : Apart s)
    (hremove : bleNplEventqRemove profile evq ev s = some t)
    (hright : right → ∀ i, (s.evqs evq).ch = some i →
      (s.evqs evq).len.toNat = (s.eqPool i).q.items.length) :
    Apart t ∧ Effect right (content s) [] ((((content s evq).getD []).take
      (s.evqs evq).len.toNat).filter (· = ev) |>.map (fun e => (evq, e))) [] (content t) := by
  cases hch : (s.evqs evq).ch with
  | none =>
    have hnone : content s evq = none := by rw [content, hch, Option.map_none]
    rw [remove_uncreated hch hremove, hnone]
    refine ⟨h, ?_⟩
    simpa using Effect.quiet
  | some i =>
    have hcounted : RemoveMiscounted.Counted s evq i (s.eqPool i).q.items
        (s.evqs evq).len.toNat := ⟨hch, rfl, rfl⟩
    obtain ⟨hnone, hsome⟩ :=
      RemoveMiscounted.removeLoop_pass profile ev hcounted (Nat.le_refl _)
    cases hpass : CyclicPass.pass ev (s.evqs evq).len.toNat (s.eqPool i).q.items with
    | none => cases hremove.symm.trans (hnone hpass)
    | some l' =>
      obtain ⟨u, hu, hframe, hcounted', -⟩ := hsome l' hpass
      cases hremove.symm.trans hu
      refine ⟨h.of_frame hch hframe ?_, ?_⟩
      · rw [hcounted'.items]
        intro hmem
        exact h.nonnull i ((CyclicPass.pass_perm hpass).subset (List.mem_append_left _ hmem))
      · have hcontent : content s evq = some (s.eqPool i).q.items := by
          rw [content, hch, Option.map_some]
        rw [h.content_of_frame hch hframe, hcounted'.items, hcontent]
        exact .remove evq ev _ l' _ hcontent hpass (fun hr => hright hr i hch)

/-- The steps of the operation in progress. -/
theorem advance_effect {right : Prop} {s t : State} (h : Sane s)
    (hstep : advance profile s = some t) : Sane t ∧
      Effect right (content s.npl) (pushes .advance s) [] [] (content t.npl) := by
  obtain ⟨npl, pc⟩ := s
  obtain ⟨hapart, hgiven⟩ := h
  dsimp only at hapart hgiven
  cases pc with
  | idle => cases hstep
  | putQueued q ev =>
    cases hstep
    exact ⟨⟨hapart, hgiven⟩, .quiet⟩
  | putLoaded q ev len =>
    obtain ⟨len', -, rfl⟩ := Option.map_eq_some_iff.mp hstep
    refine ⟨⟨hapart.setLen len', hgiven⟩, ?_⟩
    rw [show content (npl.setLen q len') = content npl from setLen_content ..]
    exact .quiet
  | putStored q ev =>
    obtain ⟨i, hch, hstep⟩ := Option.bind_eq_some_iff.mp hstep
    obtain ⟨c, hsend, ht⟩ := Option.bind_eq_some_iff.mp hstep
    cases ht
    obtain ⟨-, hitems⟩ := Channel.trySend_eq_some.mp hsend
    have hframe := frame_setChannel q i npl c
    have hnew : ((npl.setChannel i c).eqPool i).q.items = (npl.eqPool i).q.items ++ [ev] := by
      simpa using hitems
    refine ⟨⟨hapart.of_frame hch hframe ?_, by simp [given]⟩, ?_⟩
    · rw [hnew]
      simpa [given, hapart.nonnull i] using hgiven
    · dsimp only
      rw [hapart.content_of_frame hch hframe, hnew]
      exact .push q ev _ (by rw [content, hch, Option.map_some])
  | getPopped q ev =>
    cases hstep
    exact ⟨⟨hapart.congr rfl rfl, by simp [given]⟩, .quiet⟩
  | getCleared q ev =>
    cases hstep
    exact ⟨⟨hapart, by simp [given]⟩, .quiet⟩
  | getLoaded q ev len =>
    obtain ⟨len', -, rfl⟩ := Option.map_eq_some_iff.mp hstep
    refine ⟨⟨hapart.setLen len', by simp [given]⟩, ?_⟩
    rw [show content (npl.setLen q len') = content npl from setLen_content ..]
    exact .quiet

/-- A get that finds an entry takes the first. -/
theorem get_effect {right : Prop} {tmo : UInt32} {expired : Bool} (h : Apart s)
    (hch : (s.evqs evq).ch = some i) :
    Sane ⟨(receive i tmo expired s).1, afterReceive evq (receive i tmo expired s).2⟩ ∧
      Effect right (content s) [] []
        (pops (.get evq tmo expired) (afterReceive evq (receive i tmo expired s).2))
        (content (receive i tmo expired s).1) := by
  obtain ⟨ev, c, hitems, hreceive⟩ | ⟨absent, hreceive, hidle⟩ := receive_cases i tmo expired s
  · have hnonnull := h.nonnull i
    rw [hitems, List.mem_cons, not_or] at hnonnull
    have hframe := frame_setChannel evq i s c
    have hnew : ((s.setChannel i c).eqPool i).q.items = c.items := by simp
    rw [hreceive, afterReceive, if_pos (Ne.symm hnonnull.1)]
    refine ⟨⟨h.of_frame hch hframe ?_, by simp [given]⟩, ?_⟩
    · rw [hnew]
      exact hnonnull.2
    · rw [h.content_of_frame hch hframe, hnew]
      exact .pop evq ev _ (by rw [content, hch, Option.map_some, hitems])
  · rw [hreceive, hidle]
    exact ⟨⟨h, by simp [given]⟩, .quiet⟩

theorem step_effect {l : Label} {s t : State} (h : Sane s) (hstep : step profile l s = some t) :
    Sane t ∧ Effect (CountsRight l s) (content s.npl) (pushes l s) (drops l s) (pops l t.pc)
      (content t.npl) := by
  cases l with
  | init q =>
    obtain ⟨-, hstep⟩ := Option.ite_none_right_eq_some.mp hstep
    obtain ⟨u, hinit, rfl⟩ := Option.map_eq_some_iff.mp hstep
    obtain ⟨hapart, hcontent⟩ := h.apart.init hinit
    refine ⟨⟨hapart, by simp [given]⟩, ?_⟩
    dsimp only
    rw [hcontent]
    exact .init q
  | put q ev =>
    obtain ⟨⟨-, hev⟩, ht⟩ := Option.ite_none_right_eq_some.mp hstep
    cases ht
    exact ⟨⟨h.apart.congr rfl rfl, by simpa [given] using hev.symm⟩, .quiet⟩
  | get q tmo expired =>
    obtain ⟨-, hstep⟩ := Option.ite_none_right_eq_some.mp hstep
    obtain ⟨i, hch, rfl⟩ := Option.map_eq_some_iff.mp hstep
    exact get_effect h.apart hch
  | remove q ev =>
    obtain ⟨-, hstep⟩ := Option.ite_none_right_eq_some.mp hstep
    obtain ⟨u, hremove, rfl⟩ := Option.map_eq_some_iff.mp hstep
    have hright : CountsRight (.remove q ev) s → CountsRight (.remove q ev) s := id
    obtain ⟨hapart, heffect⟩ := remove_effect h.apart hremove hright
    exact ⟨⟨hapart, by simp [given]⟩, heffect⟩
  | callout co active =>
    obtain ⟨-, ht⟩ := Option.ite_none_right_eq_some.mp hstep
    cases ht
    exact ⟨⟨h.apart.congr rfl rfl, by simp [given]⟩, .quiet⟩
  | advance => exact advance_effect h hstep
  | interruptPut q ev =>
    obtain ⟨u, hput, rfl⟩ := Option.map_eq_some_iff.mp hstep
    obtain ⟨i, hadded⟩ := put_added hput
    obtain ⟨hapart, heffect⟩ := push_effect _ h.apart hadded
    exact ⟨⟨hapart, h.given⟩, heffect⟩
  | interruptWake co =>
    obtain ⟨u, hcb, rfl⟩ := Option.map_eq_some_iff.mp hstep
    obtain ⟨hapart, heffect⟩ := wake_effect h.apart hcb
    exact ⟨⟨hapart, h.given⟩, heffect⟩

end Steps

/-- Pushing, initialising again and passing round keep what is said of what was
pushed, what was dropped, and what was taken or is still there. -/
structure Keeps (right : Prop) (R : List Ptr → List Ptr → List Ptr → Prop) : Prop where
  push : ∀ ps ds rest ev, R ps ds rest → R (ps ++ [ev]) ds (rest ++ [ev])
  init : ∀ ps ds xs l, R ps ds (xs ++ l) → R ps (ds ++ l) (xs ++ [])
  pass : ∀ ps ds xs l l' ev n, CyclicPass.pass ev n l = some l' → (right → n = l.length) →
    R ps ds (xs ++ l) → R ps (ds ++ (l.take n).filter (· = ev)) (xs ++ l')

section Accounts

variable {right : Prop} {R : List Ptr → List Ptr → List Ptr → Prop}
  {c c' : Ptr → Option (List Ptr)} {ps ds ts puts dropped taken : List (Ptr × Ptr)}

theorem keeps_balanced (right : Prop) : Keeps right Balanced where
  push _ _ _ ev h := h.put ev
  init _ _ _ l h := h.drop (List.Perm.refl l)
  pass _ _ _ _ _ _ _ hpass _ h := h.drop (CyclicPass.pass_perm hpass)

/-- With the right counter a removal passes each entry once. -/
theorem keeps_conveyed (hright : right) : Keeps right Conveyed where
  push _ _ _ ev h := h.put ev
  init _ _ _ _ h := h.dropAll
  pass _ _ _ l l' ev n hpass hn h := by
    have hall := CyclicPass.pass_of_le ev (l := l) (Nat.le_refl l.length)
    rw [hn hright, hall] at hpass
    cases hpass
    rw [hn hright]
    simpa using h.remove ev

theorem Effect.account (hR : Keeps right R) (heffect : Effect right c ps ds ts c')
    (h : ∀ q, R (on q puts) (on q dropped) (on q taken ++ (c q).getD [])) (q : Ptr) :
    R (on q (puts ++ ps)) (on q (dropped ++ ds)) (on q (taken ++ ts) ++ (c' q).getD []) := by
  have hq := h q
  cases heffect with
  | quiet => simpa using hq
  | push evq ev l hl =>
    by_cases he : q = evq
    · subst he
      rw [hl] at hq
      have hpush := hR.push _ _ _ ev hq
      rw [List.append_assoc] at hpush
      simpa [on] using hpush
    · simpa [on, Function.update_of_ne he, Ne.symm he] using hq
  | init evq =>
    by_cases he : q = evq
    · subst he
      simpa using hR.init _ _ _ _ hq
    · simpa [on_other he, Function.update_of_ne he] using hq
  | remove evq ev l l' n hl hpass hn =>
    by_cases he : q = evq
    · subst he
      rw [hl] at hq
      simpa using hR.pass _ _ _ l l' ev n hpass hn hq
    · simpa [on_other he, Function.update_of_ne he] using hq
  | pop evq ev l hl =>
    by_cases he : q = evq
    · subst he
      rw [hl] at hq
      simpa [on] using hq
    · simpa [on, Function.update_of_ne he, Ne.symm he] using hq

theorem loggedStep_account {l : Label} {s t : Logged} (hs : Sane s.base)
    (hR : Keeps (CountsRight l s.base) R)
    (h : ∀ q, R (on q s.puts) (on q s.dropped) (on q s.taken ++ (content s.base.npl q).getD []))
    (hstep : loggedStep profile l s = some t) : Sane t.base ∧
      ∀ q, R (on q t.puts) (on q t.dropped) (on q t.taken ++ (content t.base.npl q).getD []) := by
  obtain ⟨base, hbase, rfl⟩ := Option.map_eq_some_iff.mp hstep
  obtain ⟨hsane, heffect⟩ := step_effect hs hbase
  exact ⟨hsane, heffect.account hR h⟩

end Accounts

/-- Wherever handlers preempt a put or a get, and whatever that makes of the
counters, each channel holds just what was pushed and has not been taken off or
dropped by a removal or a new initialisation. If the counter is right whenever
something is removed, it comes out in the order in which it was pushed. -/
theorem nothing_lost (profile : Profile) (events : Ptr → BleNplEvent)
    (callouts : Ptr → BleNplCallout) (ls : List Label) (s : Logged)
    (h : run (loggedStep profile) ls (loggedStart events callouts) = some s) (evq : Ptr) :
    Balanced (on evq s.puts) (on evq s.dropped)
        (on evq s.taken ++ (content s.base.npl evq).getD []) ∧
      (Along (loggedStep profile) (fun l s => CountsRight l s.base) ls
          (loggedStart events callouts) →
        Conveyed (on evq s.puts) (on evq s.dropped)
          (on evq s.taken ++ (content s.base.npl evq).getD [])) := by
  have hsane : Sane (loggedStart events callouts).base := start_sane events callouts
  constructor
  · have hall := run_invariant (I := fun s : Logged => Sane s.base ∧ ∀ q, Balanced (on q s.puts)
      (on q s.dropped) (on q s.taken ++ (content s.base.npl q).getD []))
      (fun l s t hs hstep => loggedStep_account hs.1 (keeps_balanced _) hs.2 hstep)
      ⟨hsane, fun _ => balanced_nil⟩ h
    exact hall.2 evq
  · intro hright
    have hall := run_invariant_along (I := fun s : Logged => Sane s.base ∧ ∀ q, Conveyed
      (on q s.puts) (on q s.dropped) (on q s.taken ++ (content s.base.npl q).getD []))
      (fun l s t hs hl hstep => loggedStep_account hs.1 (keeps_conveyed hl) hs.2 hstep)
      ⟨hsane, fun _ => conveyed_nil⟩ hright h
    exact hall.2 evq

/-- The counter has lost an update, so that the removal of 100 only brings it to
the front, and it is taken before 200. -/
theorem nothing_lost_disturbed : ∃ s, run (loggedStep .release)
      [.init 8, .put 8 100, .advance, .interruptPut 8 200, .advance, .advance, .remove 8 100,
        .get 8 0 false]
      (loggedStart (fun _ => ⟨0, 0, false⟩) (fun _ => ⟨false, 0, 0⟩)) = some s ∧
    on 8 s.puts = [200, 100] ∧ on 8 s.taken = [100] ∧ content s.base.npl 8 = some [200] ∧
    Balanced (on 8 s.puts) (on 8 s.dropped) (on 8 s.taken ++ (content s.base.npl 8).getD []) := by
  refine ⟨_, rfl, rfl, rfl, rfl, ?_⟩
  exact (nothing_lost .release (fun _ => ⟨0, 0, false⟩) (fun _ => ⟨false, 0, 0⟩)
    [.init 8, .put 8 100, .advance, .interruptPut 8 200, .advance, .advance, .remove 8 100,
      .get 8 0 false] _ rfl 8).1

end PreemptedOrder
