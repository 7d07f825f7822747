import ApacheNimble.SectionNesting

/-!
# Sections that are entered with interrupts disabled

Other code may have set PRIMASK before the first section is entered. Then no
handler runs, no acquire finds PRIMASK clear, and no release clears the flag
that the acquires have set.
-/
namespace InitialPrimask

open CriticalSection SectionNesting Transition

variable {p : Interrupt} {primask : Bool} {v₀ v₁ n₀ n₁ : BitVec 32} {m m' : Machine}
  {c c' : Context}

/-- The thread before its first section, with any PRIMASK. -/
def startAt (primask : Bool) (csMask0 csMask1 nvic0 nvic1 : BitVec 32) : State :=
  ⟨⟨primask, false, false, csMask0, csMask1, nvic0, nvic1⟩, [⟨none, [], .idle, none⟩]⟩

def bleNplHwIsInCritical (m : Machine) : Bool := m.internalFlag

def opens : Label → Bool
  | .openNimble _ | .openApp _ => true
  | _ => false

/-- Both flags are clear, and PRIMASK and the NVIC are as they were found. -/
structure Restored (primask : Bool) (n₀ n₁ : BitVec 32) (m : Machine) : Prop where
  internal : m.internalFlag = false
  impl : m.implFlag = false
  primask : m.primask = primask
  nvic0 : m.nvic0 = n₀
  nvic1 : m.nvic1 = n₁

/-- What the acquire in progress has found and will return is that PRIMASK was
set. -/
def unarmed : Pc → Bool
  | .cpsid _ active | .setInternal _ active | .clearInternal _ active | .cpsie _ active
  | .setImpl active | .saveMask0 active | .saveMask1 active | .writeIcer0 active
  | .writeIcer1 active | .clearImpl active | .writeIser0 active | .writeIser1 active => !active
  | _ => true

/-- Positions before the flag of `cs_internal` is stored. -/
def early : Pc → Bool
  | .readPrimask _ | .cpsid _ _ | .setInternal _ _ | .loadNested | .acquireLoadInternal => true
  | _ => false

def Unarmed : Section → Prop
  | .nimble _ active => active = false
  | .app _ _ => True

/-- The thread with PRIMASK set for good, once it has started to open a
section: the flag of `cs_internal` has been set or is about to be. -/
structure Blocked (m : Machine) (c : Context) : Prop where
  irq : c.irq = none
  primask : m.primask = true
  sections : ∀ x ∈ c.sections, Unarmed x
  pc : unarmed c.pc = true
  impl : m.implFlag = true → m.internalFlag = true
  raised : m.internalFlag = true ∨ early c.pc = true

theorem Blocked.internal (h : Blocked m c) (hpc : early c.pc = false) : m.internalFlag = true := by
  obtain hraised | hearly := h.raised
  · exact hraised
  · rw [hpc] at hearly
    cases hearly

theorem unarmed_tail {S : List Section} (h : ∀ x ∈ S, Unarmed x) : ∀ x ∈ S.tail, Unarmed x :=
  fun x hx => h x (List.mem_of_mem_tail hx)

theorem acquired_blocked {k : Caller} (h : Blocked m c) :
    Blocked { m with internalFlag := true } (acquired k false c) := by
  obtain ⟨hirq, hprimask, hsections, -, -, -⟩ := h
  cases k with
  | nimble hw =>
    have hopened := List.forall_mem_cons.mpr ⟨show Unarmed (.nimble hw false) from rfl, hsections⟩
    exact ⟨hirq, hprimask, hopened, rfl, fun _ => rfl, .inl rfl⟩
  | mask i => cases i <;> exact ⟨hirq, hprimask, hsections, rfl, fun _ => rfl, .inl rfl⟩
  | unmask i => cases i <;> exact ⟨hirq, hprimask, hsections, rfl, fun _ => rfl, .inl rfl⟩

theorem released_blocked {k : Caller} (h : Blocked m c) (hinternal : m.internalFlag = true) :
    Blocked m (released k c) := by
  obtain ⟨hirq, hprimask, hsections, -, himpl, -⟩ := h
  cases k with
  | nimble hw => exact ⟨hirq, hprimask, unarmed_tail hsections, rfl, himpl, .inl hinternal⟩
  | mask i =>
    exact ⟨hirq, hprimask, List.forall_mem_cons.mpr ⟨trivial, hsections⟩, rfl, himpl,
      .inl hinternal⟩
  | unmask i => exact ⟨hirq, hprimask, unarmed_tail hsections, rfl, himpl, .inl hinternal⟩

/-- Each elementary step of acquire and release leaves the thread as it is. -/
theorem advance_blocked (h : Blocked m c) (hstep : advance p m c = some (m', c')) :
    Blocked m' c' := by
  have hpc := h.pc
  have hinternal := h.internal
  cases hp : c.pc
  all_goals simp only [advance, hp, reduceCtorEq, Option.some.injEq, Prod.mk.injEq] at hstep
  all_goals
    obtain ⟨rfl, rfl⟩ := hstep
    rw [hp] at hpc hinternal
  case readPrimask k =>
    refine ⟨h.irq, h.primask, h.sections, ?_, h.impl, .inr rfl⟩
    simp [Context.goto, unarmed, h.primask]
  case cpsid k active => exact ⟨h.irq, rfl, h.sections, hpc, h.impl, .inr rfl⟩
  case setInternal k active =>
    obtain rfl : active = false := by simpa [unarmed] using hpc
    exact acquired_blocked h
  case clearInternal k active =>
    obtain rfl : active = false := by simpa [unarmed] using hpc
    exact ⟨h.irq, h.primask, h.sections, rfl, h.impl, .inl (hinternal rfl)⟩
  case cpsie k active =>
    obtain rfl : active = false := by simpa [unarmed] using hpc
    exact released_blocked h (hinternal rfl)
  case loadNested =>
    by_cases himpl : m.implFlag = true
    · rw [if_pos himpl]
      exact ⟨h.irq, h.primask, List.forall_mem_cons.mpr ⟨trivial, h.sections⟩, rfl, h.impl,
        .inl (h.impl himpl)⟩
    · rw [if_neg himpl]
      exact ⟨h.irq, h.primask, h.sections, rfl, h.impl, .inr rfl⟩
  case acquireLoadInternal => exact ⟨h.irq, h.primask, h.sections, rfl, h.impl, .inr rfl⟩
  case setImpl active =>
    exact ⟨h.irq, h.primask, h.sections, hpc, fun _ => hinternal rfl, .inl (hinternal rfl)⟩
  case clearImpl active =>
    refine ⟨h.irq, h.primask, h.sections, hpc, ?_, .inl (hinternal rfl)⟩
    intro himpl
    cases himpl
  all_goals exact ⟨h.irq, h.primask, h.sections, hpc, h.impl, .inl (hinternal rfl)⟩

/-- A section starts to close, with the flag of `cs_internal` set. -/
theorem startClose_blocked (h : Blocked m c) (hidle : c.pc = .idle)
    (hclose : startClose c = some c') : Blocked m c' := by
  have hinternal : m.internalFlag = true := h.internal (by rw [hidle]; rfl)
  have hsections := h.sections
  obtain ⟨hw, active, T, hs, rfl⟩ | ⟨op, T, hs, rfl⟩ | ⟨op, T, hs, rfl⟩ := startClose_cases hclose
  · rw [hs] at hsections
    have hactive : active = false := hsections _ List.mem_cons_self
    refine ⟨h.irq, h.primask, h.sections, ?_, h.impl, .inl hinternal⟩
    simp [Context.goto, unarmed, hactive]
  · exact ⟨h.irq, h.primask, h.sections, rfl, h.impl, .inl hinternal⟩
  · exact ⟨h.irq, h.primask, unarmed_tail h.sections, rfl, h.impl, .inl hinternal⟩

/-- The thread is the only context, and blocked. -/
def BlockedState (s : State) : Prop := ∃ c, s.contexts = [c] ∧ Blocked s.m c

theorem step_blocked (l : Label) (s t : State) (h : BlockedState s)
    (hstep : step p l s = some t) : BlockedState t := by
  obtain ⟨c, hc, hb⟩ := h
  simp only [step, hc] at hstep
  cases l with
  | openNimble hw =>
    obtain ⟨hidle, ht⟩ := Option.ite_none_right_eq_some.mp hstep
    cases ht
    exact ⟨_, rfl, hb.irq, hb.primask, hb.sections, rfl, hb.impl, .inr rfl⟩
  | openApp op =>
    obtain ⟨hidle, ht⟩ := Option.ite_none_right_eq_some.mp hstep
    cases ht
    exact ⟨_, rfl, hb.irq, hb.primask, hb.sections, rfl, hb.impl, .inr rfl⟩
  | close =>
    obtain ⟨hidle, hclose⟩ := Option.ite_none_right_eq_some.mp hstep
    obtain ⟨c', hc', rfl⟩ := Option.map_eq_some_iff.mp hclose
    exact ⟨c', rfl, startClose_blocked hb hidle hc'⟩
  | advance =>
    obtain ⟨⟨m', c'⟩, hadv, rfl⟩ := Option.map_eq_some_iff.mp hstep
    exact ⟨c', rfl, advance_blocked hb hadv⟩
  | interrupt q =>
    obtain ⟨hq, -⟩ := Option.ite_none_right_eq_some.mp hstep
    simp [Machine.canStart, hb.primask] at hq
  | ret =>
    obtain ⟨⟨-, -, hirq⟩, -⟩ := Option.ite_none_right_eq_some.mp hstep
    rw [hb.irq] at hirq
    cases hirq

/-- With PRIMASK set, all that can happen first is that a section is opened. -/
theorem first_blocked {l : Label} {t : State}
    (hstep : step p l (startAt true v₀ v₁ n₀ n₁) = some t) : BlockedState t := by
  cases l with
  | openNimble hw =>
    cases hstep
    exact ⟨_, rfl, rfl, rfl, List.forall_mem_nil _, rfl, id, .inr rfl⟩
  | openApp op =>
    cases hstep
    exact ⟨_, rfl, rfl, rfl, List.forall_mem_nil _, rfl, id, .inr rfl⟩
  | close => cases hstep
  | advance => cases hstep
  | interrupt q => simp [step, startAt, Machine.canStart] at hstep
  | ret => cases hstep

/-- Once a section has been opened with PRIMASK set, the flag of `cs_internal`
is never clear again. -/
theorem run_raised {ls : List Label} {s : State}
    (h : run (step p) ls (startAt true v₀ v₁ n₀ n₁) = some s) (hopens : ∃ l ∈ ls, opens l = true)
    (hc : s.contexts = [c]) (hidle : c.pc = .idle) : s.m.internalFlag = true := by
  cases ls with
  | nil =>
    obtain ⟨l, hl, -⟩ := hopens
    cases hl
  | cons l ls =>
    obtain ⟨t, hstep, hrun⟩ := run_cons_some _ h
    obtain ⟨d, hd, hb⟩ := run_invariant step_blocked (first_blocked hstep) hrun
    rw [hc] at hd
    cases hd
    exact hb.internal (by rw [hidle]; rfl)

theorem run_restored {ls : List Label} {s : State}
    (h : run (step p) ls (startAt false v₀ v₁ n₀ n₁) = some s) (hc : s.contexts = [c])
    (hidle : c.pc = .idle) (hnone : c.sections = []) : Restored false n₀ n₁ s.m := by
  obtain ⟨hset, -⟩ := (reachable_inv h).settled hc hidle hnone
  exact ⟨hset.internal, hset.masked.impl, hset.primask, hset.masked.nvic0, hset.masked.nvic1⟩

theorem nimbleOpen_ne_nil {S : List Section} (h : nimbleOpen S = true) : S ≠ [] := by
  rintro rfl
  cases h

theorem appOpen_of_masking {S : List Section} (h : masking S = true) : appOpen S = true := by
  induction S with
  | nil => cases h
  | cons x S ih =>
    cases x with
    | nimble hw active => exact ih h
    | app nested op => rfl

/-- With PRIMASK clear at first, no context finds a flag set by a section that
has been closed. -/
theorem run_flags {ls : List Label} {s : State} {rest : List Context}
    (h : run (step p) ls (startAt false v₀ v₁ n₀ n₁) = some s) (hc : s.contexts = c :: rest) :
    (c.pc = .idle → bleNplHwIsInCritical s.m = true → opened s.contexts ≠ []) ∧
    (c.pc = .loadNested → s.m.implFlag = true → appOpen (opened s.contexts) = true) := by
  obtain ⟨d, rest', hd, hrun, -, -⟩ := reachable_inv h
  rw [hc] at hd
  cases hd
  have hshape := hrun.shape
  rw [hc, opened_cons]
  constructor
  · intro hpc hin
    rw [hpc] at hshape
    exact nimbleOpen_ne_nil (hshape.internal.symm.trans hin)
  · intro hpc himpl
    rw [hpc] at hshape
    exact appOpen_of_masking (hshape.masked.impl.symm.trans himpl)

/-- After any sections that were opened and closed, both flags are clear and
PRIMASK and the NVIC are as they were found exactly if PRIMASK was clear at
first. Then the flags are also right at every point of every run: `NimBLE` is
reported to be in a critical section only inside a section, and an application
section takes itself for a nested one only inside another. -/
theorem restored_iff_clear (p : Interrupt) (primask : Bool) (v₀ v₁ n₀ n₁ : BitVec 32)
    (ls : List Label) (s : State)
    (h : run (step p) ls (startAt primask v₀ v₁ n₀ n₁) = some s) :
    (∀ c, (∃ l ∈ ls, opens l = true) → s.contexts = [c] → c.pc = .idle → c.sections = [] →
      (Restored primask n₀ n₁ s.m ↔ primask = false)) ∧
    (primask = false → ∀ c rest, s.contexts = c :: rest →
      (c.pc = .idle → bleNplHwIsInCritical s.m = true → opened s.contexts ≠ []) ∧
      (c.pc = .loadNested → s.m.implFlag = true → appOpen (opened s.contexts) = true)) := by
  constructor
  · intro c hopens hc hidle hnone
    cases primask with
    | false => exact iff_of_true (run_restored h hc hidle hnone) rfl
    | true =>
      refine iff_of_false (fun hrestored => ?_) (fun htrue => by cases htrue)
      have hraised := run_raised h hopens hc hidle
      rw [hrestored.internal] at hraised
      cases hraised
  · rintro rfl c rest hc
    exact run_flags h hc

/-- A NimBLE section of the thread has been opened and closed. -/
theorem restored_iff_clear_nimble : ∃ s,
    run (step ⟨1, 11, 13⟩) (.openNimble true :: List.replicate 3 .advance ++
      .close :: List.replicate 2 .advance) (startAt false 0 0 0xFFFFFFFF 0xFFFFFFFF) = some s ∧
    Restored false 0xFFFFFFFF 0xFFFFFFFF s.m :=
  ⟨_, rfl, ((restored_iff_clear ⟨1, 11, 13⟩ false 0 0 0xFFFFFFFF 0xFFFFFFFF
    (.openNimble true :: List.replicate 3 .advance ++ .close :: List.replicate 2 .advance) _
    rfl).1 _ ⟨_, List.mem_cons_self, rfl⟩ rfl rfl rfl).mpr rfl⟩

/-- The same with PRIMASK set leaves NimBLE in a critical section. An
application section leaves its own flag set and the NVIC masked, and the next
one takes itself for a nested one. -/
theorem flags_left_set :
    (∃ s, run (step ⟨1, 11, 13⟩) (.openNimble true :: List.replicate 3 .advance ++
        .close :: List.replicate 2 .advance) (startAt true 0 0 0xFFFFFFFF 0xFFFFFFFF) = some s ∧
      opened s.contexts = [] ∧ bleNplHwIsInCritical s.m = true ∧
      ¬ Restored true 0xFFFFFFFF 0xFFFFFFFF s.m) ∧
    ∃ s, run (step ⟨1, 11, 13⟩) (.openApp none :: List.replicate 12 .advance ++
        .close :: List.replicate 6 .advance ++ [.openApp none])
        (startAt true 0 0 0xFFFFFFFF 0xFFFFFFFF) = some s ∧
      opened s.contexts = [] ∧ s.m.implFlag = true ∧ s.m.nvic1 = 0 := by
  refine ⟨⟨_, rfl, rfl, rfl, fun h => ?_⟩, _, rfl, rfl, rfl, by decide⟩
  cases h.internal

end InitialPrimask
