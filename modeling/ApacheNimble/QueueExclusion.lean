import ApacheNimble.SectionNesting

/-!
# Mutual exclusion on the event queue channels

The body of a channel operation runs inside an application section, also when
a handler runs it. The thread may operate on every channel; which handlers do
is a parameter.
-/
namespace QueueExclusion

open CriticalSection SectionNesting Transition

variable {p : Interrupt} {n₀ n₁ : BitVec 32} {K : Irq → ChannelId → Prop} {ch : ChannelId}

/-- A handler operates on the channels that are allotted to its interrupt. -/
def Uses (K : Irq → ChannelId → Prop) : Label → State → Prop
  | .openApp (some ch), s => ∀ c rest, s.contexts = c :: rest → ∀ i, c.irq = some i → K i ch
  | _, _ => True

/-- The innermost section of the context is being released. -/
def releasing : Pc → Bool
  | .clearInternal (.nimble _) _ | .cpsie (.nimble _) _ => true
  | .readPrimask (.unmask _) | .cpsid (.unmask _) _ | .setInternal (.unmask _) _
  | .clearInternal (.unmask _) _ | .cpsie (.unmask _) _ => true
  | .releaseLoadInternal | .clearImpl _ | .writeIser0 _ | .writeIser1 _ => true
  | _ => false

/-- The context is inside the body of an operation on the channel. -/
def inside (ch : ChannelId) (c : Context) : Bool :=
  (if releasing c.pc then c.sections.tail else c.sections).any (fun x => match x with
    | .app _ op => op == some ch
    | .nimble _ _ => false)

def Exclusive (ch : ChannelId) (s : State) : Prop :=
  (s.contexts.filter (inside ch)).length ≤ 1

instance (ch : ChannelId) (s : State) : Decidable (Exclusive ch s) :=
  inferInstanceAs (Decidable (_ ≤ 1))

theorem inside_mem {c : Context} (h : inside ch c = true) :
    ∃ n, Section.app n (some ch) ∈ c.sections := by
  unfold inside at h
  rw [List.any_eq_true] at h
  obtain ⟨x, hx, hop⟩ := h
  have hmem : x ∈ c.sections := by
    split at hx
    · exact List.mem_of_mem_tail hx
    · exact hx
  cases x with
  | nimble hw active => cases hop
  | app n op =>
    rw [beq_iff_eq] at hop
    exact ⟨n, hop ▸ hmem⟩

/-- A handler has only entered operations on channels that are allotted to it. -/
def Allotted (K : Irq → ChannelId → Prop) (c : Context) : Prop :=
  ∀ i ch, c.irq = some i →
    (c.op = some ch → K i ch) ∧ ∀ n, Section.app n (some ch) ∈ c.sections → K i ch

theorem Allotted.goto {c : Context} (h : Allotted K c) (pc : Pc) : Allotted K (c.goto pc) := h

theorem Allotted.closed {c : Context} (h : Allotted K c) : Allotted K c.closed :=
  fun i ch hi => ⟨(h i ch hi).1, fun n hn => (h i ch hi).2 n (List.mem_of_mem_tail hn)⟩

theorem Allotted.openedNimble {c : Context} (h : Allotted K c) (hw active : Bool) :
    Allotted K (c.opened (.nimble hw active)) := by
  refine fun i ch hi => ⟨(h i ch hi).1, fun n hn => ?_⟩
  rcases List.mem_cons.mp hn with hn | hn
  · cases hn
  · exact (h i ch hi).2 n hn

theorem Allotted.openedApp {c : Context} (h : Allotted K c) (nested : Bool) :
    Allotted K (c.opened (.app nested c.op)) := by
  refine fun i ch hi => ⟨(h i ch hi).1, fun n hn => ?_⟩
  rcases List.mem_cons.mp hn with hn | hn
  · injection hn with _ hop
    exact (h i ch hi).1 hop.symm
  · exact (h i ch hi).2 n hn

theorem Allotted.acquired {c : Context} (h : Allotted K c) (k : Caller) (active : Bool) :
    Allotted K (acquired k active c) := by
  cases k with
  | nimble hw => exact h.openedNimble hw active
  | mask i => exact h.goto _
  | unmask i => exact h.goto _

theorem Allotted.released {c : Context} (h : Allotted K c) (k : Caller) :
    Allotted K (released k c) := by
  cases k with
  | nimble hw => exact h.closed
  | mask i => exact h.openedApp false
  | unmask i => exact h.closed

theorem Allotted.advance {m m' : Machine} {c c' : Context} (h : Allotted K c)
    (hstep : advance p m c = some (m', c')) : Allotted K c' := by
  cases hpc : c.pc
  all_goals
    simp only [CriticalSection.advance, hpc, reduceCtorEq, Option.some.injEq,
      Prod.mk.injEq] at hstep
  all_goals obtain ⟨-, rfl⟩ := hstep
  case setInternal k active => exact h.acquired k active
  case cpsie k active => exact h.released k
  case loadNested =>
    split
    · exact h.openedApp true
    · exact h.goto _
  all_goals exact h.goto _

theorem Allotted.startClose {c c' : Context} (h : Allotted K c) (hclose : startClose c = some c') :
    Allotted K c' := by
  unfold CriticalSection.startClose at hclose
  split at hclose
  · cases hclose
  · cases hclose
    exact h.goto _
  · cases hclose
    split
    · exact h.closed
    · exact h.goto _

/-- All contexts keep to their allotment. -/
theorem step_allotted {s t : State} {l : Label} (h : ∀ c ∈ s.contexts, Allotted K c)
    (huses : Uses K l s) (hstep : step p l s = some t) : ∀ c ∈ t.contexts, Allotted K c := by
  obtain ⟨m, contexts⟩ := s
  cases contexts with
  | nil => cases hstep
  | cons c rest =>
    have hc : Allotted K c := h c List.mem_cons_self
    have hrest : ∀ d ∈ rest, Allotted K d := fun d hd => h d (List.mem_cons_of_mem c hd)
    cases l with
    | openNimble hw =>
      obtain ⟨-, ht⟩ := Option.ite_none_right_eq_some.mp hstep
      cases ht
      exact List.forall_mem_cons.mpr ⟨hc.goto _, hrest⟩
    | openApp op =>
      obtain ⟨-, ht⟩ := Option.ite_none_right_eq_some.mp hstep
      cases ht
      refine List.forall_mem_cons.mpr ⟨fun i ch hi => ⟨fun hop => ?_, (hc i ch hi).2⟩, hrest⟩
      cases hop
      exact huses c rest rfl i hi
    | close =>
      obtain ⟨-, hclose⟩ := Option.ite_none_right_eq_some.mp hstep
      obtain ⟨c', hc', rfl⟩ := Option.map_eq_some_iff.mp hclose
      exact List.forall_mem_cons.mpr ⟨hc.startClose hc', hrest⟩
    | advance =>
      obtain ⟨⟨m', c'⟩, hadv, rfl⟩ := Option.map_eq_some_iff.mp hstep
      exact List.forall_mem_cons.mpr ⟨hc.advance hadv, hrest⟩
    | interrupt q =>
      obtain ⟨-, ht⟩ := Option.ite_none_right_eq_some.mp hstep
      cases ht
      refine List.forall_mem_cons.mpr ⟨fun i ch hi => ⟨fun hop => ?_, fun n hn => ?_⟩, h⟩
      · cases hop
      · cases hn
    | ret =>
      obtain ⟨-, ht⟩ := Option.ite_none_right_eq_some.mp hstep
      cases ht
      exact hrest

/-- An operation in a preempted context has masked the NVIC, so that only a
reserved interrupt can have come above it. -/
theorem handler_reserved {c d : Context} {rest : List Context} {n : Bool}
    (hok : HandlerOk p n₀ c rest) (hpre : Preempted p n₀ rest) (hd : d ∈ rest)
    (hx : Section.app n (some ch) ∈ d.sections) :
    ∃ q, c.irq = some q ∧ Reserved p q ∧ n₀.getLsbD q.val = true := by
  cases rest with
  | nil => cases hd
  | cons e rest =>
    obtain ⟨q, hq, hmask⟩ := hok
    refine ⟨q, hq, hmask ?_⟩
    rw [opened_cons, masking_eq_appOpen hpre.1.2.2.2.1, appOpen, List.any_eq_true]
    refine ⟨.app n (some ch), ?_, rfl⟩
    rw [← opened_cons]
    exact List.mem_flatMap.mpr ⟨d, hd, hx⟩

/-- With no reserved and enabled interrupt operating on the channel, at most
one of a stack of contexts is inside an operation on it. -/
theorem exclusive_of_preempted (hK : ∀ q, Reserved p q → n₀.getLsbD q.val = true → ¬ K q ch)
    {c : Context} {rest : List Context} (hok : HandlerOk p n₀ c rest) (hpre : Preempted p n₀ rest)
    (hall : ∀ d ∈ c :: rest, Allotted K d) :
    ((c :: rest).filter (inside ch)).length ≤ 1 := by
  induction rest generalizing c with
  | nil => by_cases hc : inside ch c = true <;> simp [hc]
  | cons d rest ih =>
    have hrest := ih hpre.1.2.2.2.2 hpre.2 (fun e he => hall e (List.mem_cons_of_mem c he))
    by_cases hc : inside ch c = true
    · obtain ⟨n, hn⟩ := inside_mem hc
      have hnone : (d :: rest).filter (inside ch) = [] := by
        rw [List.filter_eq_nil_iff]
        intro e he hin
        obtain ⟨k, hk⟩ := inside_mem hin
        obtain ⟨q, hq, hreserved, hbit⟩ := handler_reserved hok hpre he hk
        exact hK q hreserved hbit ((hall c List.mem_cons_self q ch hq).2 n hn)
      rw [List.filter_cons_of_pos hc, hnone]
      exact Nat.le_refl 1
    · rw [List.filter_cons_of_neg hc]
      exact hrest

/-- The thread's operation on the channel, up to the start of its body. -/
def enter (ch : ChannelId) : List Label := .openApp (some ch) :: List.replicate 12 .advance

theorem enter_run (p : Interrupt) (v₀ v₁ n₀ n₁ : BitVec 32) (ch : ChannelId) :
    ∃ m, m.primask = false ∧ m.implFlag = true ∧
      run (step p) (enter ch) (start v₀ v₁ n₀ n₁) =
        some ⟨m, [⟨none, [.app false (some ch)], .idle, some ch⟩]⟩ := ⟨_, rfl, rfl, rfl⟩

/-- A reserved interrupt comes in the body, and its handler finds the flag of
`cs_impl` set: it enters the body of its own operation as if it were protected. -/
theorem preempted_body (p : Interrupt) (v₀ v₁ n₀ n₁ : BitVec 32) {q : Irq} (hq : Reserved p q)
    (hbit : n₀.getLsbD q.val = true) (hK : K q ch) :
    ∃ ls s, Along (step p) (Uses K) ls (start v₀ v₁ n₀ n₁) ∧
      run (step p) ls (start v₀ v₁ n₀ n₁) = some s ∧ ¬ Exclusive ch s := by
  obtain ⟨m, hprimask, himpl, hrun⟩ := enter_run p v₀ v₁ n₀ n₁ ch
  have henabled : m.enabled q = true := by
    obtain ⟨c, rest, -, hrunning, -, -⟩ := reachable_inv hrun
    rw [hrunning.reserved_enabled hq, hbit]
  have hlast : run (step p) [.interrupt q, .openApp (some ch), .advance]
      ⟨m, [⟨none, [.app false (some ch)], .idle, some ch⟩]⟩ =
        some ⟨m, [⟨some q, [.app true (some ch)], .idle, some ch⟩,
          ⟨none, [.app false (some ch)], .idle, some ch⟩]⟩ := by
    simp [run, step, Machine.canStart, hprimask, henabled, advance, himpl, Context.opened]
  refine ⟨enter ch ++ [.interrupt q, .openApp (some ch), .advance], _, ?_,
    run_join (step p) hrun hlast, ?_⟩
  · rw [along_append]
    refine ⟨⟨?_, fun t _ => along_of_forall ?_ t⟩, fun t ht => ?_⟩
    · rintro c rest hc i hi
      cases hc
      cases hi
    · intro l hl s
      rw [List.eq_of_mem_replicate hl]
      trivial
    · rw [hrun] at ht
      cases ht
      refine ⟨trivial, fun t ht => ⟨?_, fun _ _ => ⟨trivial, fun _ _ => trivial⟩⟩⟩
      intro c rest hc i hi
      obtain ⟨-, ht⟩ := Option.ite_none_right_eq_some.mp ht
      cases ht
      cases hc
      cases hi
      exact hK
  · simp [Exclusive, inside, releasing]

/-- At most one context is ever inside an operation on the channel exactly when
no reserved interrupt that is enabled has a handler that operates on it. -/
theorem exclusive_iff (p : Interrupt) (v₀ v₁ n₀ n₁ : BitVec 32) (K : Irq → ChannelId → Prop)
    (ch : ChannelId) :
    (∀ ls s, Along (step p) (Uses K) ls (start v₀ v₁ n₀ n₁) →
      run (step p) ls (start v₀ v₁ n₀ n₁) = some s → Exclusive ch s) ↔
    ∀ q, Reserved p q → n₀.getLsbD q.val = true → ¬ K q ch := by
  constructor
  · intro h q hq hbit hK
    obtain ⟨ls, s, huses, hrun, hne⟩ := preempted_body p v₀ v₁ n₀ n₁ hq hbit hK
    exact hne (h ls s huses hrun)
  · intro hK ls s huses hrun
    have hall : ∀ c ∈ s.contexts, Allotted K c := by
      refine run_invariant_along (fun l s t h hl ht => step_allotted h hl ht) ?_ huses hrun
      intro c hc i ch hi
      rw [start, List.mem_singleton] at hc
      subst hc
      cases hi
    obtain ⟨c, rest, hc, -, hok, hpre⟩ := reachable_inv hrun
    rw [Exclusive, hc]
    rw [hc] at hall
    exact exclusive_of_preempted hK hok hpre hall

/-- The thread is inside an operation on a channel and the RADIO handler inside
its own put to it. -/
theorem radio_put_not_exclusive : ∃ s,
    run (step ⟨1, 11, 13⟩) (enter 0 ++ [.interrupt 1, .openApp (some 0), .advance])
      (start 0 0 0xFFFFFFFF 0xFFFFFFFF) = some s ∧
    s.contexts.map Context.irq = [some 1, none] ∧
    s.contexts.map (inside 0) = [true, true] ∧ ¬ Exclusive 0 s :=
  ⟨_, rfl, rfl, rfl, by decide⟩

end QueueExclusion
