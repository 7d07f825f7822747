import ApacheNimble.SectionNesting

/-!
# The handlers of the reserved interrupts

The controller registers a function for each of its three interrupts, at any
time and as often as it likes. The routines in the vector table call whatever
is registered when their interrupt comes.
-/
namespace Isr

open CriticalSection SectionNesting Transition

abbrev Ptr := Nat

structure Handlers where
  RADIO_HANDLER : Option Ptr
  RNG_HANDLER : Option Ptr
  RTC0_HANDLER : Option Ptr
  deriving DecidableEq, Repr

/-- Any other number is reported and changes nothing. -/
def setIsr (p : Interrupt) (irqn : Int) (addr : Option Ptr) (h : Handlers) : Handlers :=
  if irqn = p.RADIO.val then { h with RADIO_HANDLER := addr }
  else if irqn = p.RNG.val then { h with RNG_HANDLER := addr }
  else if irqn = p.RTC0.val then { h with RTC0_HANDLER := addr }
  else h

def bleNplHwSetIsr (p : Interrupt) (irqn : Int) (addr : Option Ptr) (h : Handlers) : Handlers :=
  setIsr p irqn addr h

/-- What the routine of an interrupt calls. The other interrupts are not served
here. -/
def Handlers.called (p : Interrupt) (h : Handlers) (q : Irq) : Option Ptr :=
  if q.val = p.RADIO.val then h.RADIO_HANDLER
  else if q.val = p.RNG.val then h.RNG_HANDLER
  else if q.val = p.RTC0.val then h.RTC0_HANDLER
  else none

/-- An interrupt that has started: the function that was called, and what had
been registered and was open by then. -/
structure Started where
  irq : Irq
  addr : Option Ptr
  registered : List (Int × Option Ptr)
  sections : List Section

/-- The registrations are listed latest first. -/
structure State where
  cs : CriticalSection.State
  handlers : Handlers
  registered : List (Int × Option Ptr)
  started : List Started

inductive Label where
  | machine (l : CriticalSection.Label)
  | setIsr (irqn : Int) (addr : Option Ptr)

def noteStarted (p : Interrupt) (l : CriticalSection.Label) (s : State) : List Started :=
  match l with
  | .interrupt q =>
    s.started ++ [⟨q, s.handlers.called p q, s.registered, opened s.cs.contexts⟩]
  | _ => s.started

def step (p : Interrupt) : Label → State → Option State
  | .machine l, s => (CriticalSection.step p l s.cs).map (fun cs =>
      { s with cs := cs, started := noteStarted p l s })
  | .setIsr irqn addr, s => some { s with
      handlers := bleNplHwSetIsr p irqn addr s.handlers
      registered := (irqn, addr) :: s.registered }

def start (v₀ v₁ n₀ n₁ : BitVec 32) : State :=
  ⟨CriticalSection.start v₀ v₁ n₀ n₁, ⟨none, none, none⟩, [], []⟩

/-- What was last registered for the interrupt. -/
def latest (q : Irq) (registered : List (Int × Option Ptr)) : Option Ptr :=
  (registered.lookup (q.val : Int)).join

/-- The three interrupts are three. -/
def Distinct (p : Interrupt) : Prop := p.RADIO ≠ p.RNG ∧ p.RADIO ≠ p.RTC0 ∧ p.RNG ≠ p.RTC0

instance (p : Interrupt) : Decidable (Distinct p) := inferInstanceAs (Decidable (_ ∧ _ ∧ _))

variable {p : Interrupt} {n₀ n₁ : BitVec 32} {h : Handlers} {q : Irq} {s t : State}

theorem latest_cons_self (q : Irq) (addr : Option Ptr) (registered : List (Int × Option Ptr)) :
    latest q ((q.val, addr) :: registered) = addr := by
  simp [latest]

theorem latest_cons_other {irqn : Int} (hne : irqn ≠ q.val) (addr : Option Ptr)
    (registered : List (Int × Option Ptr)) :
    latest q ((irqn, addr) :: registered) = latest q registered := by
  have hbeq : ((q.val : Int) == irqn) = false := beq_eq_false_iff_ne.mpr hne.symm
  simp only [latest, List.lookup_cons, hbeq]

/-- A registration is seen by its own routine. -/
theorem called_setIsr_self (hq : Reserved p q) (addr : Option Ptr) (h : Handlers) :
    (setIsr p q.val addr h).called p q = addr := by
  unfold setIsr Handlers.called
  rcases hq with hq | hq | hq <;> simp only [hq, Int.natCast_inj] <;> split_ifs <;> rfl

/-- And by no other. -/
theorem called_setIsr_other (hp : Distinct p) {irqn : Int} (hne : irqn ≠ q.val)
    (addr : Option Ptr) (h : Handlers) : (setIsr p irqn addr h).called p q = h.called p q := by
  obtain ⟨h₁, h₂, h₃⟩ := hp
  simp only [ne_eq, Fin.ext_iff] at h₁ h₂ h₃
  unfold setIsr Handlers.called
  split_ifs <;> first | rfl | omega

theorem called_unreserved (hq : ¬ Reserved p q) : h.called p q = none := by
  unfold Reserved at hq
  simp only [not_or] at hq
  simp [Handlers.called, hq.1, hq.2.1, hq.2.2]

/-- Each routine calls what was last registered for its interrupt. -/
def UpToDate (p : Interrupt) (s : State) : Prop :=
  ∀ q, Reserved p q → s.handlers.called p q = latest q s.registered

theorem setIsr_upToDate (hp : Distinct p) (hs : UpToDate p s) (irqn : Int) (addr : Option Ptr) :
    UpToDate p { s with
      handlers := bleNplHwSetIsr p irqn addr s.handlers
      registered := (irqn, addr) :: s.registered } := by
  intro q hq
  rw [bleNplHwSetIsr]
  by_cases hne : irqn = q.val
  · subst hne
    rw [called_setIsr_self hq, latest_cons_self]
  · rw [called_setIsr_other hp hne, latest_cons_other hne]
    exact hs q hq

/-- An interrupt started where it may, and its routine called what was
registered last. -/
structure Proper (p : Interrupt) (n₀ : BitVec 32) (x : Started) : Prop where
  outside : nimbleOpen x.sections = false
  reserved : Reserved p x.irq → x.addr = latest x.irq x.registered ∧ n₀.getLsbD x.irq.val = true
  others : ¬ Reserved p x.irq → x.addr = none ∧ appOpen x.sections = false

structure Registered (p : Interrupt) (n₀ n₁ : BitVec 32) (s : State) : Prop where
  inv : Inv p n₀ n₁ s.cs
  upToDate : UpToDate p s
  proper : ∀ x ∈ s.started, Proper p n₀ x
  earlier : ∀ x ∈ s.started, x.registered <:+ s.registered

theorem start_registered (v₀ v₁ n₀ n₁ : BitVec 32) :
    Registered p n₀ n₁ (start v₀ v₁ n₀ n₁) where
  inv := start_inv v₀ v₁ n₀ n₁
  upToDate q _ := by
    simp only [start, Handlers.called, latest, List.lookup_nil, Option.join_none, ite_self]
  proper := by simp [start]
  earlier := by simp [start]

/-- What is noted of an interrupt that starts. -/
theorem proper_of_interrupt (hinv : Inv p n₀ n₁ s.cs) (hs : UpToDate p s)
    {cs : CriticalSection.State} (hstep : CriticalSection.step p (.interrupt q) s.cs = some cs) :
    Proper p n₀ ⟨q, s.handlers.called p q, s.registered, opened s.cs.contexts⟩ := by
  obtain ⟨houtside, hmask⟩ := interrupt_cases hinv hstep
  refine ⟨houtside, fun hq => ⟨hs q hq, ?_⟩, fun hq => ⟨called_unreserved hq, ?_⟩⟩
  · obtain ⟨c, rest, hc, hrun, -, -⟩ := hinv
    simp only [CriticalSection.step, hc] at hstep
    obtain ⟨hstart, -⟩ := Option.ite_none_right_eq_some.mp hstep
    rw [Machine.canStart, Bool.and_eq_true] at hstart
    rw [← hrun.reserved_enabled hq]
    exact hstart.2
  · rw [← masking_eq_appOpen houtside]
    by_contra hne
    exact hq (hmask (by simpa using hne)).1

theorem step_registered (hp : Distinct p) (l : Label) (s t : State) (hs : Registered p n₀ n₁ s)
    (hstep : step p l s = some t) : Registered p n₀ n₁ t := by
  cases l with
  | setIsr irqn addr =>
    cases hstep
    refine ⟨hs.inv, setIsr_upToDate hp hs.upToDate irqn addr, hs.proper, fun x hx => ?_⟩
    exact (hs.earlier x hx).trans (List.suffix_cons _ _)
  | machine l =>
    obtain ⟨cs, hcs, rfl⟩ := Option.map_eq_some_iff.mp hstep
    have hinv : Inv p n₀ n₁ cs := step_inv l s.cs cs hs.inv hcs
    cases l with
    | interrupt q =>
      have hnew := proper_of_interrupt hs.inv hs.upToDate hcs
      exact ⟨hinv, hs.upToDate,
        List.forall_mem_append.mpr ⟨hs.proper, List.forall_mem_singleton.mpr hnew⟩,
        List.forall_mem_append.mpr ⟨hs.earlier, List.forall_mem_singleton.mpr List.suffix_rfl⟩⟩
    | openNimble | openApp | close | advance | ret =>
      exact ⟨hinv, hs.upToDate, hs.proper, hs.earlier⟩

/-- However registrations, sections and interrupts follow each other, the routine
of each reserved interrupt calls what was registered for it last, and nothing if
that was no function. None starts inside a NimBLE section or unless it was
enabled at first, and no other interrupt starts inside an application section. -/
theorem calls_latest (p : Interrupt) (hp : Distinct p) (v₀ v₁ n₀ n₁ : BitVec 32) (ls : List Label)
    (s : State) (h : run (step p) ls (start v₀ v₁ n₀ n₁) = some s) :
    (∀ q, Reserved p q → s.handlers.called p q = latest q s.registered) ∧
    ∀ x ∈ s.started, x.registered <:+ s.registered ∧ nimbleOpen x.sections = false ∧
      (Reserved p x.irq → x.addr = latest x.irq x.registered ∧ n₀.getLsbD x.irq.val = true) ∧
      (¬ Reserved p x.irq → x.addr = none ∧ appOpen x.sections = false) := by
  have hs : Registered p n₀ n₁ s :=
    run_invariant (step_registered hp) (start_registered v₀ v₁ n₀ n₁) h
  refine ⟨hs.upToDate, fun x hx => ?_⟩
  obtain ⟨houtside, hreserved, hothers⟩ := hs.proper x hx
  exact ⟨hs.earlier x hx, houtside, hreserved, hothers⟩

/-- The handler of an interrupt is replaced while an application section is open,
and the interrupt comes in the section. -/
def replacedTrace (q : Irq) : List Label :=
  [.setIsr q.val (some 100), .machine (.openApp none)] ++ List.replicate 12 (.machine .advance) ++
    [.setIsr q.val (some 200), .setIsr 40 (some 300), .machine (.interrupt q)]

theorem calls_latest_replaced : ∃ s,
    run (step ⟨1, 11, 13⟩) (replacedTrace 1) (start 0 0 0xFFFFFFFF 0xFFFFFFFF) = some s ∧
    s.handlers.called ⟨1, 11, 13⟩ 1 = some 200 ∧
    ∃ x ∈ s.started, x.irq = 1 ∧ nimbleOpen x.sections = false ∧ x.addr = some 200 := by
  obtain ⟨hcalled, hstarted⟩ :=
    calls_latest ⟨1, 11, 13⟩ (by decide) 0 0 0xFFFFFFFF 0xFFFFFFFF (replacedTrace 1) _ rfl
  obtain ⟨-, houtside, hreserved, -⟩ := hstarted _ (List.mem_singleton_self _)
  exact ⟨_, rfl, hcalled 1 (by decide), _, List.mem_singleton_self _, rfl, houtside,
    (hreserved (by decide)).1⟩

end Isr
