import Mathlib.Data.List.Basic
import ApacheNimble.Transition
import ApacheNimble.CriticalSection

/-!
# Mixed nesting of the two critical sections

The machine is determined by the list of open sections, over all contexts, and
by the position of the running context in its acquire or release. A context
that has been preempted stands where the machine looks as it does between
sections, and finds it so when it resumes.
-/
namespace SectionNesting

open CriticalSection Transition

variable {p : Interrupt} {n₀ n₁ : BitVec 32}

def isNimble : Section → Bool
  | .nimble _ _ => true
  | .app _ _ => false

def nimbleOpen (S : List Section) : Bool := S.any isNimble

def appOpen (S : List Section) : Bool := S.any (fun x => !isNimble x)

/-- The NVIC is masked: an application section was entered with no NimBLE
section around it. The list is innermost first. -/
def masking : List Section → Bool
  | [] => false
  | .nimble _ _ :: S => masking S
  | .app _ _ :: S => masking S || !nimbleOpen S

@[simp] theorem nimbleOpen_nimble (hw active : Bool) (S : List Section) :
    nimbleOpen (.nimble hw active :: S) = true := rfl
@[simp] theorem nimbleOpen_app (nested : Bool) (op : Option ChannelId) (S : List Section) :
    nimbleOpen (.app nested op :: S) = nimbleOpen S := by simp [nimbleOpen, isNimble]
@[simp] theorem masking_nimble (hw active : Bool) (S : List Section) :
    masking (.nimble hw active :: S) = masking S := rfl
@[simp] theorem masking_app (nested : Bool) (op : Option ChannelId) (S : List Section) :
    masking (.app nested op :: S) = (masking S || !nimbleOpen S) := rfl

/-- Without a NimBLE section, every open application section masks the NVIC. -/
theorem masking_eq_appOpen {S : List Section} (h : nimbleOpen S = false) :
    masking S = appOpen S := by
  induction S with
  | nil => rfl
  | cons x S ih =>
    cases x with
    | nimble hw active => cases h
    | app nested op =>
      rw [nimbleOpen_app] at h
      simp [appOpen, isNimble, h]

/-- Every open section holds what its acquire found. -/
def WellTokened : List Section → Prop
  | [] => True
  | .nimble _ active :: S => active = !nimbleOpen S ∧ WellTokened S
  | .app nested _ :: S => nested = masking S ∧ WellTokened S

/-- The flag of `cs_impl`, its saved mask and the NVIC, with the NVIC masked
or not; `n₀` and `n₁` are the words of the unmasked NVIC. -/
structure Masked (p : Interrupt) (n₀ n₁ : BitVec 32) (on : Bool) (m : Machine) : Prop where
  impl : m.implFlag = on
  nvic0 : m.nvic0 = if on then n₀ &&& reservedIrqs p else n₀
  nvic1 : m.nvic1 = if on then 0 else n₁
  saved : on = true → m.csMask0 = n₀ ∧ m.csMask1 = n₁

/-- How the machine looks between sections. -/
structure Settled (p : Interrupt) (n₀ n₁ : BitVec 32) (S : List Section) (m : Machine) : Prop where
  primask : m.primask = nimbleOpen S
  internal : m.internalFlag = nimbleOpen S
  masked : Masked p n₀ n₁ (masking S) m

/-- How the machine looks while PRIMASK is set by `cs_internal`. -/
structure Closed (p : Interrupt) (n₀ n₁ : BitVec 32) (internal on : Bool) (m : Machine) : Prop where
  primask : m.primask = true
  internal : m.internalFlag = internal
  masked : Masked p n₀ n₁ on m

/-- Whether the NVIC is masked once the closure of the caller has run. -/
def maskedAfter (k : Caller) (S : List Section) : Bool :=
  match k with
  | .nimble _ => masking S
  | .mask inInternalCs => !inInternalCs
  | .unmask _ => false

/-- The words of the NVIC and of the saved mask while the closure runs. -/
structure Words (m : Machine) (impl : Bool) (v₀ v₁ : BitVec 32) : Prop where
  primask : m.primask = true
  internal : m.internalFlag = true
  impl : m.implFlag = impl
  nvic0 : m.nvic0 = v₀
  nvic1 : m.nvic1 = v₁

/-- The machine at each position of the running context. -/
def Shape (p : Interrupt) (n₀ n₁ : BitVec 32) (S : List Section) (m : Machine) : Pc → Prop
  | .setInternal _ _ => Closed p n₀ n₁ (nimbleOpen S) (masking S) m
  | .clearInternal k _ => Closed p n₀ n₁ true (maskedAfter k S) m
  | .cpsie k active => Closed p n₀ n₁ (!active) (maskedAfter k S) m
  | .setImpl _ => Closed p n₀ n₁ true false m
  | .saveMask0 _ => Words m true n₀ n₁
  | .saveMask1 _ => Words m true n₀ n₁ ∧ m.csMask0 = n₀
  | .writeIcer0 _ => Words m true n₀ n₁ ∧ m.csMask0 = n₀ ∧ m.csMask1 = n₁
  | .writeIcer1 _ => Words m true (n₀ &&& reservedIrqs p) n₁ ∧ m.csMask0 = n₀ ∧ m.csMask1 = n₁
  | .clearImpl _ => Closed p n₀ n₁ true true m
  | .writeIser0 _ => Words m false (n₀ &&& reservedIrqs p) 0 ∧ m.csMask0 = n₀ ∧ m.csMask1 = n₁
  | .writeIser1 _ => Words m false n₀ 0 ∧ m.csMask1 = n₁
  | _ => Settled p n₀ n₁ S m

/-- The innermost section of the context is an application section that was
entered unnested, and is being released. -/
def ReleasingApp (c : Context) : Prop := ∃ op T, c.sections = .app false op :: T

/-- What a caller of `cs_internal` has established before it calls. -/
def CallerFacts (c : Context) (S : List Section) : Caller → Prop
  | .nimble _ => True
  | .mask inInternalCs => inInternalCs = nimbleOpen S ∧ masking S = false
  | .unmask inInternalCs => inInternalCs = nimbleOpen S ∧ ReleasingApp c

/-- What the local variables of the context hold at each position. -/
def Facts (c : Context) (S : List Section) : Pc → Prop
  | .idle => True
  | .loadNested => True
  | .readPrimask k => CallerFacts c S k
  | .cpsid k active => CallerFacts c S k ∧ active = !nimbleOpen S
  | .setInternal k active => CallerFacts c S k ∧ active = !nimbleOpen S
  | .clearInternal (.nimble _) active => ∃ hw T, c.sections = .nimble hw active :: T
  | .clearInternal k active => CallerFacts c S k ∧ active = !nimbleOpen S
  | .cpsie (.nimble _) active => ∃ hw T, c.sections = .nimble hw active :: T
  | .cpsie k active => CallerFacts c S k ∧ active = !nimbleOpen S
  | .acquireLoadInternal => masking S = false
  | .releaseLoadInternal => ReleasingApp c
  | .setImpl active | .saveMask0 active | .saveMask1 active | .writeIcer0 active
  | .writeIcer1 active => active = true ∧ nimbleOpen S = false ∧ masking S = false
  | .clearImpl active | .writeIser0 active | .writeIser1 active =>
    active = true ∧ nimbleOpen S = false ∧ ReleasingApp c

/-- The running context, above contexts with the sections `B` open. -/
structure Running (p : Interrupt) (n₀ n₁ : BitVec 32) (B : List Section) (m : Machine)
    (c : Context) : Prop where
  facts : Facts c (c.sections ++ B) c.pc
  shape : Shape p n₀ n₁ (c.sections ++ B) m c.pc
  tokens : WellTokened (c.sections ++ B)

variable {B : List Section} {m m' : Machine} {c c' : Context}

theorem nvic_unmask (n r : BitVec 32) : (n &&& r) ||| (n &&& ~~~r) = n := by
  ext i hi
  simp only [BitVec.getElem_or, BitVec.getElem_and, BitVec.getElem_not]
  cases n[i] <;> cases r[i] <;> rfl

theorem nvic_clear (n r : BitVec 32) : n &&& ~~~(~~~r) = n &&& r := by
  ext i hi
  simp

theorem nvic_clear_all (n : BitVec 32) : n &&& ~~~0xFFFFFFFF#32 = 0 := by
  ext i hi
  simp

theorem Masked.setPrimask {on : Bool} (h : Masked p n₀ n₁ on m) (b : Bool) :
    Masked p n₀ n₁ on { m with primask := b } := ⟨h.impl, h.nvic0, h.nvic1, h.saved⟩

theorem Masked.setInternal {on : Bool} (h : Masked p n₀ n₁ on m) (b : Bool) :
    Masked p n₀ n₁ on { m with internalFlag := b } := ⟨h.impl, h.nvic0, h.nvic1, h.saved⟩

/-- An application section that was entered unnested has masked the NVIC,
unless there was a NimBLE section around it. -/
theorem ReleasingApp.masking {S : List Section} (h : ∃ op T, S = .app false op :: T)
    (ht : WellTokened S) : masking S = !nimbleOpen S := by
  obtain ⟨op, T, rfl⟩ := h
  simp [← ht.1]

/-- `cs_internal::acquire` returns to its caller. -/
theorem setInternal_running {k : Caller} {active : Bool} (hpc : c.pc = .setInternal k active)
    (h : Running p n₀ n₁ B m c) :
    Running p n₀ n₁ B { m with internalFlag := true } (acquired k active c) := by
  obtain ⟨hfacts, hshape, htokens⟩ := h
  rw [hpc] at hfacts hshape
  obtain ⟨hk, hactive⟩ := hfacts
  have hmasked := hshape.masked.setInternal true
  cases k with
  | nimble hw =>
    refine ⟨trivial, ⟨?_, ?_, ?_⟩, hactive, htokens⟩
    · exact hshape.primask
    · rfl
    · exact hmasked
  | mask i =>
    obtain ⟨hi, hmask⟩ := hk
    rw [hmask] at hmasked
    cases i with
    | true => exact ⟨⟨⟨hi, hmask⟩, hactive⟩, ⟨hshape.primask, rfl, hmasked⟩, htokens⟩
    | false =>
      rw [← hi] at hactive
      exact ⟨⟨hactive, hi.symm, hmask⟩, ⟨hshape.primask, rfl, hmasked⟩, htokens⟩
  | unmask i =>
    obtain ⟨hi, op, T, hs⟩ := hk
    rw [ReleasingApp.masking ⟨op, T ++ B, by rw [hs]; rfl⟩ htokens, ← hi] at hmasked
    cases i with
    | true => exact ⟨⟨⟨hi, op, T, hs⟩, hactive⟩, ⟨hshape.primask, rfl, hmasked⟩, htokens⟩
    | false =>
      rw [← hi] at hactive
      exact ⟨⟨hactive, hi.symm, op, T, hs⟩, ⟨hshape.primask, rfl, hmasked⟩, htokens⟩

/-- `cs_internal::release` returns to its caller. -/
theorem cpsie_running {k : Caller} {active : Bool} (hpc : c.pc = .cpsie k active)
    (h : Running p n₀ n₁ B m c) :
    Running p n₀ n₁ B { m with primask := if active then false else m.primask } (released k c) := by
  obtain ⟨hfacts, hshape, htokens⟩ := h
  rw [hpc] at hfacts hshape
  have hmasked := hshape.masked.setPrimask (if active then false else m.primask)
  have hprimask : (if active then false else m.primask) = !active := by
    rw [hshape.primask]
    cases active <;> rfl
  cases k with
  | nimble hw =>
    obtain ⟨hw', T, hs⟩ := hfacts
    rw [hs] at htokens
    have hopen : (!active) = nimbleOpen (T ++ B) := by simp [htokens.1]
    have hclosed : c.closed.sections = T := by simp [Context.closed, hs]
    have htail : WellTokened (T ++ B) := htokens.2
    refine ⟨trivial, ⟨?_, ?_, ?_⟩, ?_⟩
    · simpa only [released, hclosed, hprimask] using hopen
    · simpa only [released, hclosed] using hshape.internal.trans hopen
    · simpa only [released, hclosed, maskedAfter, hs, List.cons_append,
        masking_nimble] using hmasked
    · simpa only [released, hclosed] using htail
  | mask i =>
    obtain ⟨⟨hi, hmask⟩, hactive⟩ := hfacts
    have hopen : (!active) = nimbleOpen (c.sections ++ B) := by simp [hactive]
    refine ⟨trivial, ⟨?_, ?_, ?_⟩, hmask.symm, htokens⟩
    · simpa [released, Context.opened, hprimask] using hopen
    · simpa [released, Context.opened] using hshape.internal.trans hopen
    · simpa [released, Context.opened, maskedAfter, hmask, ← hi] using hmasked
  | unmask i =>
    obtain ⟨⟨hi, op, T, hs⟩, hactive⟩ := hfacts
    rw [hs] at htokens hactive
    have hopen : (!active) = nimbleOpen (T ++ B) := by simp [hactive]
    have hclosed : c.closed.sections = T := by simp [Context.closed, hs]
    have hunmasked : false = masking (T ++ B) := htokens.1
    have htail : WellTokened (T ++ B) := htokens.2
    refine ⟨trivial, ⟨?_, ?_, ?_⟩, ?_⟩
    · simpa only [released, hclosed, hprimask] using hopen
    · simpa only [released, hclosed] using hshape.internal.trans hopen
    · simpa only [released, hclosed, ← hunmasked, maskedAfter] using hmasked
    · simpa only [released, hclosed] using htail

/-- The test of the own flag at the start of the application's acquire. -/
theorem loadNested_running (hpc : c.pc = .loadNested) (h : Running p n₀ n₁ B m c) :
    Running p n₀ n₁ B m
      (if m.implFlag then c.opened (.app true c.op) else c.goto .acquireLoadInternal) := by
  obtain ⟨hfacts, hshape, htokens⟩ := h
  rw [hpc] at hshape
  have himpl := hshape.masked.impl
  by_cases hm : masking (c.sections ++ B) = true
  · rw [if_pos (himpl.trans hm)]
    refine ⟨trivial, ⟨?_, ?_, ?_⟩, hm.symm, htokens⟩
    · simpa [Context.opened] using hshape.primask
    · simpa [Context.opened] using hshape.internal
    · simpa [Context.opened, hm] using hshape.masked
  · rw [if_neg (by rw [himpl]; exact hm)]
    exact ⟨Bool.eq_false_iff.mpr hm, hshape, htokens⟩

/-- Each elementary step of acquire and release keeps what is known about the
running context, whatever is open below it. -/
theorem advance_running (h : Running p n₀ n₁ B m c) (hstep : advance p m c = some (m', c')) :
    Running p n₀ n₁ B m' c' := by
  obtain ⟨hfacts, hshape, htokens⟩ := id h
  cases hpc : c.pc
  all_goals simp only [advance, hpc, reduceCtorEq, Option.some.injEq, Prod.mk.injEq] at hstep
  all_goals
    obtain ⟨rfl, rfl⟩ := hstep
    rw [hpc] at hfacts hshape
  case setInternal k active => exact setInternal_running hpc h
  case cpsie k active => exact cpsie_running hpc h
  case loadNested => exact loadNested_running hpc h
  case readPrimask k => exact ⟨⟨hfacts, congrArg not hshape.primask⟩, hshape, htokens⟩
  case cpsid k active =>
    exact ⟨hfacts, ⟨rfl, hshape.internal, hshape.masked.setPrimask true⟩, htokens⟩
  case clearInternal k active =>
    refine ⟨?_, ⟨hshape.primask, ?_, hshape.masked.setInternal _⟩, htokens⟩
    · cases k <;> exact hfacts
    · simp only [hshape.internal]
      cases active <;> rfl
  case acquireLoadInternal => exact ⟨⟨hshape.internal, hfacts⟩, hshape, htokens⟩
  case releaseLoadInternal => exact ⟨⟨hshape.internal, hfacts⟩, hshape, htokens⟩
  case setImpl active =>
    exact ⟨hfacts, ⟨hshape.primask, hshape.internal, rfl, hshape.masked.nvic0,
      hshape.masked.nvic1⟩, htokens⟩
  case saveMask0 active =>
    obtain ⟨hprimask, hinternal, himpl, hnvic0, hnvic1⟩ := hshape
    exact ⟨hfacts, ⟨⟨hprimask, hinternal, himpl, hnvic0, hnvic1⟩, hnvic0⟩, htokens⟩
  case saveMask1 active =>
    obtain ⟨⟨hprimask, hinternal, himpl, hnvic0, hnvic1⟩, hsaved0⟩ := hshape
    exact ⟨hfacts, ⟨⟨hprimask, hinternal, himpl, hnvic0, hnvic1⟩, hsaved0, hnvic1⟩, htokens⟩
  case writeIcer0 active =>
    obtain ⟨⟨hprimask, hinternal, himpl, hnvic0, hnvic1⟩, hsaved⟩ := hshape
    refine ⟨hfacts, ⟨⟨hprimask, hinternal, himpl, ?_, hnvic1⟩, hsaved⟩, htokens⟩
    rw [nvic_clear, hnvic0]
  case writeIcer1 active =>
    obtain ⟨⟨hprimask, hinternal, himpl, hnvic0, hnvic1⟩, hsaved⟩ := hshape
    obtain ⟨hactive, hopen, hmask⟩ := hfacts
    refine ⟨⟨⟨hopen.symm, hmask⟩, ?_⟩, ⟨hprimask, hinternal, himpl, hnvic0, ?_, fun _ => hsaved⟩,
      htokens⟩
    · exact hactive.trans (congrArg not hopen).symm
    · exact nvic_clear_all m.nvic1
  case clearImpl active =>
    obtain ⟨hprimask, hinternal, himpl, hnvic0, hnvic1, hsaved⟩ := hshape
    exact ⟨hfacts, ⟨⟨hprimask, hinternal, rfl, hnvic0, hnvic1⟩, hsaved rfl⟩, htokens⟩
  case writeIser0 active =>
    obtain ⟨⟨hprimask, hinternal, himpl, hnvic0, hnvic1⟩, hsaved0, hsaved1⟩ := hshape
    refine ⟨hfacts, ⟨⟨hprimask, hinternal, himpl, ?_, hnvic1⟩, hsaved1⟩, htokens⟩
    rw [hnvic0, hsaved0, nvic_unmask]
  case writeIser1 active =>
    obtain ⟨⟨hprimask, hinternal, himpl, hnvic0, hnvic1⟩, hsaved1⟩ := hshape
    obtain ⟨hactive, hopen, happ⟩ := hfacts
    refine ⟨⟨⟨hopen.symm, happ⟩, ?_⟩,
      ⟨hprimask, hinternal, himpl, hnvic0, ?_, fun h => ?_⟩, htokens⟩
    · exact hactive.trans (congrArg not hopen).symm
    · simp [hnvic1, hsaved1, maskedAfter]
    · cases h

/-- Positions at which the machine looks as it does between sections. -/
def resumable : Pc → Bool
  | .idle | .readPrimask _ | .cpsid _ _ | .loadNested | .acquireLoadInternal
  | .releaseLoadInternal => true
  | _ => false

/-- The sections open in all these contexts, innermost first. -/
def opened (cs : List Context) : List Section := cs.flatMap Context.sections

@[simp] theorem opened_cons (c : Context) (cs : List Context) :
    opened (c :: cs) = c.sections ++ opened cs := by simp [opened]

/-- The bottom context is the thread. A handler was allowed to start: when the
NVIC was masked below it, its interrupt is a reserved and enabled one. -/
def HandlerOk (p : Interrupt) (n₀ : BitVec 32) (c : Context) (rest : List Context) : Prop :=
  match rest with
  | [] => c.irq = none
  | _ => ∃ q : Irq, c.irq = some q ∧ (masking (opened rest) = true →
      Reserved p q ∧ n₀.getLsbD q.val = true)

theorem HandlerOk.congr {n₀ : BitVec 32} {c d : Context} {rest : List Context}
    (h : HandlerOk p n₀ c rest) (hirq : d.irq = c.irq) : HandlerOk p n₀ d rest := by
  cases rest with
  | nil => exact hirq.trans h
  | cons e rest =>
    obtain ⟨q, hq, hmask⟩ := h
    exact ⟨q, hirq.trans hq, hmask⟩

@[simp] theorem acquired_irq (k : Caller) (active : Bool) (c : Context) :
    (acquired k active c).irq = c.irq := by
  cases k <;> rfl

@[simp] theorem released_irq (k : Caller) (c : Context) : (released k c).irq = c.irq := by
  cases k <;> rfl

theorem advance_irq (h : advance p m c = some (m', c')) : c'.irq = c.irq := by
  cases hpc : c.pc
  all_goals simp only [advance, hpc, reduceCtorEq, Option.some.injEq, Prod.mk.injEq] at h
  all_goals obtain ⟨-, rfl⟩ := h
  case loadNested => split <;> rfl
  all_goals simp [Context.goto]

theorem startClose_irq (h : startClose c = some c') : c'.irq = c.irq := by
  obtain ⟨hw, active, T, -, rfl⟩ | ⟨op, T, -, rfl⟩ | ⟨op, T, -, rfl⟩ := startClose_cases h
  · rfl
  · rfl
  · rfl

/-- The preempted contexts: no NimBLE section is open in them, and each of
them finds on resuming what it left. -/
def Preempted (p : Interrupt) (n₀ : BitVec 32) : List Context → Prop
  | [] => True
  | c :: rest => (resumable c.pc = true ∧ Facts c (c.sections ++ opened rest) c.pc ∧
      WellTokened (c.sections ++ opened rest) ∧ nimbleOpen (c.sections ++ opened rest) = false ∧
      HandlerOk p n₀ c rest) ∧ Preempted p n₀ rest

/-- The invariant: the running context and the machine, then the rest. -/
def Inv (p : Interrupt) (n₀ n₁ : BitVec 32) (s : State) : Prop :=
  ∃ c rest, s.contexts = c :: rest ∧ Running p n₀ n₁ (opened rest) s.m c ∧
    HandlerOk p n₀ c rest ∧ Preempted p n₀ rest

theorem start_inv (v₀ v₁ n₀ n₁ : BitVec 32) : Inv p n₀ n₁ (start v₀ v₁ n₀ n₁) := by
  refine ⟨_, [], rfl, ⟨trivial, ⟨rfl, rfl, ?_⟩, trivial⟩, rfl, trivial⟩
  exact ⟨rfl, rfl, rfl, fun h => by cases h⟩

/-- Where PRIMASK is clear the running context can be preempted. -/
theorem Running.preemptible (h : Running p n₀ n₁ B m c) (hm : m.primask = false) :
    resumable c.pc = true ∧ Settled p n₀ n₁ (c.sections ++ B) m := by
  have hshape := h.shape
  cases hpc : c.pc
  all_goals rw [hpc] at hshape
  case idle | readPrimask | cpsid | loadNested | acquireLoadInternal | releaseLoadInternal =>
    exact ⟨rfl, hshape⟩
  case setInternal | clearInternal | cpsie | setImpl | clearImpl | saveMask0 =>
    rw [hshape.primask] at hm
    cases hm
  case saveMask1 | writeIcer0 | writeIcer1 | writeIser0 | writeIser1 =>
    rw [hshape.1.primask] at hm
    cases hm

theorem Running.of_settled (hpc : resumable c.pc = true) (hfacts : Facts c (c.sections ++ B) c.pc)
    (htokens : WellTokened (c.sections ++ B)) (h : Settled p n₀ n₁ (c.sections ++ B) m) :
    Running p n₀ n₁ B m c := by
  refine ⟨hfacts, ?_, htokens⟩
  cases hp : c.pc <;> rw [hp] at hpc <;> first | exact h | cases hpc

/-- With the NVIC masked only the reserved interrupts are enabled. -/
theorem masked_enabled {on : Bool} (h : Masked p n₀ n₁ on m) (hon : on = true) {q : Irq}
    (hq : m.enabled q = true) : Reserved p q ∧ n₀.getLsbD q.val = true := by
  subst hon
  unfold Machine.enabled at hq
  split at hq
  · rename_i hlt
    rw [h.nvic0, if_pos rfl, BitVec.getLsbD_and, Bool.and_eq_true] at hq
    refine ⟨?_, hq.1⟩
    simp only [reservedIrqs, BitVec.getLsbD_or, Bool.or_eq_true, BitVec.getLsbD_shiftLeft,
      BitVec.getLsbD_one, Bool.and_eq_true, decide_eq_true_eq, Bool.not_eq_true',
      decide_eq_false_iff_not] at hq
    unfold Reserved
    omega
  · rw [h.nvic1, if_pos rfl] at hq
    simp at hq

/-- The innermost section starts to close. -/
theorem startClose_running (hpc : c.pc = .idle) (h : Running p n₀ n₁ B m c)
    (hclose : startClose c = some c') : Running p n₀ n₁ B m c' := by
  obtain ⟨hfacts, hshape, htokens⟩ := h
  rw [hpc] at hshape
  obtain ⟨hw, active, T, hs, rfl⟩ | ⟨op, T, hs, rfl⟩ | ⟨op, T, hs, rfl⟩ := startClose_cases hclose
  · rw [releaseArg_eq]
    have hopen : nimbleOpen (c.sections ++ B) = true := by rw [hs]; rfl
    refine ⟨⟨hw, T, hs⟩, ⟨?_, ?_, hshape.masked⟩, htokens⟩
    · exact hshape.primask.trans hopen
    · exact hshape.internal.trans hopen
  · exact ⟨⟨op, T, hs⟩, hshape, htokens⟩
  · rw [hs] at htokens
    have hmask : true = masking (T ++ B) := htokens.1
    have htail : WellTokened (T ++ B) := htokens.2
    have hclosed : c.closed.sections = T := by simp [Context.closed, hs]
    refine ⟨trivial, ⟨?_, ?_, ?_⟩, ?_⟩
    · simpa [hclosed, hs] using hshape.primask
    · simpa [hclosed, hs] using hshape.internal
    · simpa [hclosed, hs, ← hmask] using hshape.masked
    · simpa only [hclosed] using htail

theorem interrupt_inv {c : Context} {rest : List Context} {q : Irq}
    (hrun : Running p n₀ n₁ (opened rest) m c) (hok : HandlerOk p n₀ c rest)
    (hpre : Preempted p n₀ rest) (hq : m.canStart q = true) :
    Inv p n₀ n₁ ⟨m, ⟨some q, [], .idle, none⟩ :: c :: rest⟩ := by
  simp only [Machine.canStart, Bool.and_eq_true, Bool.not_eq_true'] at hq
  obtain ⟨hresume, hsettled⟩ := hrun.preemptible hq.1
  have hopen : nimbleOpen (c.sections ++ opened rest) = false := hsettled.primask ▸ hq.1
  refine ⟨_, c :: rest, rfl, ⟨trivial, ?_, ?_⟩, ⟨q, rfl, ?_⟩, ⟨?_, hpre⟩⟩
  · rw [List.nil_append, opened_cons]
    exact hsettled
  · rw [List.nil_append, opened_cons]
    exact hrun.tokens
  · intro hmask
    rw [opened_cons] at hmask
    exact masked_enabled hsettled.masked hmask hq.2
  · exact ⟨hresume, hrun.facts, hrun.tokens, hopen, hok⟩

/-- A handler that has closed all its sections leaves the machine as it was. -/
theorem ret_inv {c : Context} {rest : List Context} (hrun : Running p n₀ n₁ (opened rest) m c)
    (hok : HandlerOk p n₀ c rest) (hpre : Preempted p n₀ rest) (hidle : c.pc = .idle)
    (hnone : c.sections = []) (hirq : c.irq.isSome) : Inv p n₀ n₁ ⟨m, rest⟩ := by
  cases rest with
  | nil =>
    rw [show c.irq = none from hok] at hirq
    cases hirq
  | cons d rest =>
    obtain ⟨⟨hresume, hfacts, htokens, -, hok'⟩, hpre'⟩ := hpre
    have hshape := hrun.shape
    rw [hidle, hnone, List.nil_append, opened_cons] at hshape
    exact ⟨d, rest, rfl, Running.of_settled hresume hfacts htokens hshape, hok', hpre'⟩

theorem step_inv (l : Label) (s t : State) (h : Inv p n₀ n₁ s) (hstep : step p l s = some t) :
    Inv p n₀ n₁ t := by
  obtain ⟨c, rest, hc, hrun, hok, hpre⟩ := h
  simp only [step, hc] at hstep
  cases l with
  | openNimble hw =>
    obtain ⟨hidle, ht⟩ := Option.ite_none_right_eq_some.mp hstep
    cases ht
    have hshape := hrun.shape
    rw [hidle] at hshape
    exact ⟨_, rest, rfl, ⟨trivial, hshape, hrun.tokens⟩, hok, hpre⟩
  | openApp op =>
    obtain ⟨hidle, ht⟩ := Option.ite_none_right_eq_some.mp hstep
    cases ht
    have hshape := hrun.shape
    rw [hidle] at hshape
    exact ⟨_, rest, rfl, ⟨trivial, hshape, hrun.tokens⟩, hok, hpre⟩
  | close =>
    obtain ⟨hidle, hclose⟩ := Option.ite_none_right_eq_some.mp hstep
    obtain ⟨c', hc', rfl⟩ := Option.map_eq_some_iff.mp hclose
    have hirq : c'.irq = c.irq := startClose_irq hc'
    exact ⟨c', rest, rfl, startClose_running hidle hrun hc', hok.congr hirq, hpre⟩
  | advance =>
    obtain ⟨⟨m', c'⟩, hadv, rfl⟩ := Option.map_eq_some_iff.mp hstep
    exact ⟨c', rest, rfl, advance_running hrun hadv, hok.congr (advance_irq hadv), hpre⟩
  | interrupt q =>
    obtain ⟨hq, ht⟩ := Option.ite_none_right_eq_some.mp hstep
    cases ht
    exact interrupt_inv hrun hok hpre hq
  | ret =>
    obtain ⟨⟨hidle, hnone, hirq⟩, ht⟩ := Option.ite_none_right_eq_some.mp hstep
    cases ht
    exact ret_inv hrun hok hpre hidle hnone hirq

theorem reachable_inv {v₀ v₁ : BitVec 32} {ls : List Label} {s : State}
    (h : run (step p) ls (start v₀ v₁ n₀ n₁) = some s) : Inv p n₀ n₁ s :=
  run_invariant step_inv (start_inv v₀ v₁ n₀ n₁) h

/-- The conditions under which a handler can start. -/
theorem interrupt_cases {s t : State} {q : Irq} (h : Inv p n₀ n₁ s)
    (hstep : step p (.interrupt q) s = some t) :
    nimbleOpen (opened s.contexts) = false ∧
      (masking (opened s.contexts) = true → Reserved p q ∧ n₀.getLsbD q.val = true) := by
  obtain ⟨c, rest, hc, hrun, -, -⟩ := h
  simp only [step, hc] at hstep
  obtain ⟨hq, -⟩ := Option.ite_none_right_eq_some.mp hstep
  simp only [Machine.canStart, Bool.and_eq_true, Bool.not_eq_true'] at hq
  obtain ⟨-, hsettled⟩ := hrun.preemptible hq.1
  rw [hc, opened_cons]
  exact ⟨hsettled.primask ▸ hq.1, fun hmask => masked_enabled hsettled.masked hmask hq.2⟩

/-- At every position the first NVIC word is the unmasked or the masked one. -/
theorem Running.nvic0 (h : Running p n₀ n₁ B m c) :
    m.nvic0 = n₀ ∨ m.nvic0 = n₀ &&& reservedIrqs p := by
  have hmasked : ∀ on, Masked p n₀ n₁ on m → m.nvic0 = n₀ ∨ m.nvic0 = n₀ &&& reservedIrqs p := by
    intro on hon
    rw [hon.nvic0]
    cases on
    · exact .inl rfl
    · exact .inr rfl
  have hshape := h.shape
  cases hpc : c.pc
  all_goals rw [hpc] at hshape
  case saveMask0 => exact .inl hshape.nvic0
  case saveMask1 | writeIcer0 | writeIser1 => exact .inl hshape.1.nvic0
  case writeIcer1 | writeIser0 => exact .inr hshape.1.nvic0
  all_goals exact hmasked _ hshape.masked

theorem reservedIrqs_getLsbD {q : Irq} (h : Reserved p q) :
    (reservedIrqs p).getLsbD q.val = true := by
  have h₁ := p.RADIO.isLt
  have h₂ := p.RTC0.isLt
  have h₃ := p.RNG.isLt
  simp only [reservedIrqs, BitVec.getLsbD_or, Bool.or_eq_true, BitVec.getLsbD_shiftLeft,
    BitVec.getLsbD_one, Bool.and_eq_true, decide_eq_true_eq, Bool.not_eq_true',
    decide_eq_false_iff_not]
  unfold Reserved at h
  omega

/-- No section changes whether a reserved interrupt is enabled. -/
theorem Running.reserved_enabled (h : Running p n₀ n₁ B m c) {q : Irq} (hq : Reserved p q) :
    m.enabled q = n₀.getLsbD q.val := by
  have hlt : q.val < 32 := by
    have h₁ := p.RADIO.isLt
    have h₂ := p.RTC0.isLt
    have h₃ := p.RNG.isLt
    unfold Reserved at hq
    omega
  rw [Machine.enabled, if_pos hlt]
  rcases h.nvic0 with h | h <;> rw [h]
  rw [BitVec.getLsbD_and, reservedIrqs_getLsbD hq, Bool.and_true]

/-- A context that has no section open is settled above what it preempted. -/
theorem Inv.settled {s : State} {c : Context} {rest : List Context} (h : Inv p n₀ n₁ s)
    (hc : s.contexts = c :: rest) (hidle : c.pc = .idle) (hnone : c.sections = []) :
    Settled p n₀ n₁ (opened rest) s.m ∧ nimbleOpen (opened rest) = false := by
  obtain ⟨d, rest', hd, hrun, -, hpre⟩ := h
  rw [hc] at hd
  cases hd
  have hshape := hrun.shape
  rw [hidle, hnone, List.nil_append] at hshape
  refine ⟨hshape, ?_⟩
  cases rest with
  | nil => rfl
  | cons e rest =>
    rw [opened_cons]
    exact hpre.1.2.2.2.1

/-- In every state of every run, whatever the mixture and depth of sections and
wherever handlers have preempted: (a) no handler starts while a NimBLE section
is open, (b) no handler of another interrupt than the reserved ones starts
while an application section is open, (c) the reserved interrupts are enabled
exactly when they were at first, (d) between acquires and releases the flag of
`cs_internal` says whether a NimBLE section is open, and (e) a context that has
closed its last section finds PRIMASK, both flags and the NVIC as they were
when it had not opened its first. -/
theorem mixed_nesting (p : Interrupt) (v₀ v₁ n₀ n₁ : BitVec 32) (ls : List Label) (s : State)
    (h : run (step p) ls (start v₀ v₁ n₀ n₁) = some s) :
    (nimbleOpen (opened s.contexts) = true → ∀ q, step p (.interrupt q) s = none) ∧
    (appOpen (opened s.contexts) = true → ∀ q, ¬ Reserved p q → step p (.interrupt q) s = none) ∧
    (∀ q, Reserved p q → s.m.enabled q = n₀.getLsbD q.val) ∧
    ((∀ c ∈ s.contexts, c.pc = .idle) →
      (s.m.internalFlag = true ↔ nimbleOpen (opened s.contexts) = true)) ∧
    ∀ ks t c d rest, run (step p) ks s = some t →
      s.contexts = c :: rest → c.pc = .idle → c.sections = [] →
      t.contexts = d :: rest → d.pc = .idle → d.sections = [] →
      s.m.primask = false ∧ t.m.primask = false ∧
      s.m.internalFlag = false ∧ t.m.internalFlag = false ∧
      t.m.implFlag = s.m.implFlag ∧ t.m.nvic0 = s.m.nvic0 ∧ t.m.nvic1 = s.m.nvic1 := by
  have hinv := reachable_inv h
  have hnimble : nimbleOpen (opened s.contexts) = true → ∀ q, step p (.interrupt q) s = none := by
    intro hopen q
    by_contra hne
    obtain ⟨t, ht⟩ := Option.ne_none_iff_exists'.mp hne
    have hclosed := (interrupt_cases hinv ht).1
    rw [hopen] at hclosed
    cases hclosed
  refine ⟨hnimble, ?_, ?_, ?_, ?_⟩
  · intro happ q hq
    by_contra hne
    obtain ⟨t, ht⟩ := Option.ne_none_iff_exists'.mp hne
    obtain ⟨hclosed, hmask⟩ := interrupt_cases hinv ht
    rw [masking_eq_appOpen hclosed] at hmask
    exact hq (hmask happ).1
  · intro q hq
    obtain ⟨c, rest, -, hrun, -, -⟩ := hinv
    exact hrun.reserved_enabled hq
  · intro hidle
    obtain ⟨c, rest, hc, hrun, -, -⟩ := hinv
    have hshape := hrun.shape
    rw [hidle c (by rw [hc]; exact List.mem_cons_self)] at hshape
    rw [hc, opened_cons, hshape.internal]
  · intro ks t c d rest hr hs hcidle hcnone ht hdidle hdnone
    obtain ⟨hset, hopen⟩ := hinv.settled hs hcidle hcnone
    obtain ⟨hset', -⟩ := (run_invariant step_inv hinv hr).settled ht hdidle hdnone
    refine ⟨hset.primask.trans hopen, hset'.primask.trans hopen, hset.internal.trans hopen,
      hset'.internal.trans hopen, ?_, ?_, ?_⟩
    · rw [hset.masked.impl, hset'.masked.impl]
    · rw [hset.masked.nvic0, hset'.masked.nvic0]
    · rw [hset.masked.nvic1, hset'.masked.nvic1]

/-- A RADIO handler opens a NimBLE section above an application section of the
thread. -/
def radioOpens : List Label :=
  .openApp none :: List.replicate 12 .advance ++ [.interrupt 1, .openNimble true] ++
    List.replicate 3 .advance

/-- It closes the section, opens and closes a nested application section and
returns, and the thread closes its own. -/
def radioCloses : List Label :=
  .close :: List.replicate 2 .advance ++ [.openApp none, .advance, .close, .ret, .close] ++
    List.replicate 9 .advance

theorem mixed_nesting_radio : ∃ s t,
    run (step ⟨1, 11, 13⟩) radioOpens (start 0 0 0xFFFFFFFF 0xFFFFFFFF) = some s ∧
    nimbleOpen (opened s.contexts) = true ∧ (∀ q, step ⟨1, 11, 13⟩ (.interrupt q) s = none) ∧
    s.m.nvic0 = 0x00002802 ∧ s.m.enabled 1 = true ∧
    run (step ⟨1, 11, 13⟩) radioCloses s = some t ∧ opened t.contexts = [] ∧
    t.m.primask = false ∧ t.m.internalFlag = false ∧ t.m.implFlag = false ∧
    t.m.nvic0 = 0xFFFFFFFF ∧ t.m.nvic1 = 0xFFFFFFFF := by
  obtain ⟨hnimble, -, hreserved, -, -⟩ :=
    mixed_nesting ⟨1, 11, 13⟩ 0 0 0xFFFFFFFF 0xFFFFFFFF radioOpens _ rfl
  obtain ⟨-, -, -, -, hrestored⟩ :=
    mixed_nesting ⟨1, 11, 13⟩ 0 0 0xFFFFFFFF 0xFFFFFFFF [] _ rfl
  obtain ⟨-, hprimask, -, hinternal, himpl, hnvic0, hnvic1⟩ :=
    hrestored (radioOpens ++ radioCloses) _ _ _ [] rfl rfl rfl rfl rfl rfl rfl
  exact ⟨_, _, rfl, rfl, hnimble rfl, rfl, hreserved 1 (by decide), rfl, rfl, hprimask, hinternal,
    himpl, hnvic0, hnvic1⟩

end SectionNesting
