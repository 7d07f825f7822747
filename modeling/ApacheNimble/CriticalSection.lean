import Mathlib.Tactic.Common

/-!
# The two critical sections, one elementary step at a time

A thread and the interrupt handlers above it form a stack of contexts. The top
one runs: it opens and closes sections in a properly nested way, and `acquire`
and `release` of both implementations proceed by single loads, stores and
register writes. A handler may start between any two of them when PRIMASK is
clear and its interrupt is enabled, and it runs to completion.
-/
namespace CriticalSection

/-- The numbers of the interrupts the controller needs. -/
structure Interrupt where
  RADIO : Fin 32
  RTC0 : Fin 32
  RNG : Fin 32
  deriving DecidableEq, Repr

abbrev Irq := Fin 64

abbrev ChannelId := Nat

variable (p : Interrupt)

def reservedIrqs : BitVec 32 :=
  (1#32 <<< p.RADIO.val) ||| (1#32 <<< p.RTC0.val) ||| (1#32 <<< p.RNG.val)

def Reserved (q : Irq) : Prop := q.val = p.RADIO.val ∨ q.val = p.RTC0.val ∨ q.val = p.RNG.val

instance (q : Irq) : Decidable (Reserved p q) := inferInstanceAs (Decidable (_ ∨ _ ∨ _))

/-- `primask` is the bit that masks interrupts; `nvic` and `csMask` are two
words, one bit for each interrupt, set when it is enabled. -/
structure Machine where
  primask : Bool
  internalFlag : Bool
  implFlag : Bool
  csMask0 : BitVec 32
  csMask1 : BitVec 32
  nvic0 : BitVec 32
  nvic1 : BitVec 32
  deriving DecidableEq, Repr

def Machine.enabled (m : Machine) (q : Irq) : Bool :=
  if q.val < 32 then m.nvic0.getLsbD q.val else m.nvic1.getLsbD (q.val - 32)

/-- A handler of the interrupt can start. -/
def Machine.canStart (m : Machine) (q : Irq) : Bool := !m.primask && m.enabled q

/-- An open section with what its acquire returned: a NimBLE section, entered
by `ble_npl_hw_enter_critical` or `with_fn`, or an application section, which
may be the body of an operation on an event queue channel. -/
inductive Section where
  | nimble (hw : Bool) (active : Bool)
  | app (nestedCs : Bool) (op : Option ChannelId)
  deriving DecidableEq, Repr

/-- Who runs `cs_internal::acquire` and `release`: a NimBLE section, or the
`with_fn` inside acquire or release of the other implementation, which has
read `in_internal_cs` before. -/
inductive Caller where
  | nimble (hw : Bool)
  | mask (inInternalCs : Bool)
  | unmask (inInternalCs : Bool)
  deriving DecidableEq, Repr

/-- The next elementary step of an acquire or release in progress. -/
inductive Pc where
  | idle
  | readPrimask (k : Caller)
  | cpsid (k : Caller) (active : Bool)
  | setInternal (k : Caller) (active : Bool)
  | clearInternal (k : Caller) (active : Bool)
  | cpsie (k : Caller) (active : Bool)
  | loadNested
  | acquireLoadInternal
  | setImpl (active : Bool)
  | saveMask0 (active : Bool)
  | saveMask1 (active : Bool)
  | writeIcer0 (active : Bool)
  | writeIcer1 (active : Bool)
  | releaseLoadInternal
  | clearImpl (active : Bool)
  | writeIser0 (active : Bool)
  | writeIser1 (active : Bool)
  deriving DecidableEq, Repr

/-- A context: the thread, or a handler. Sections are listed innermost first;
`op` is what the application section now being entered is for. -/
structure Context where
  irq : Option Irq
  sections : List Section
  pc : Pc
  op : Option ChannelId
  deriving DecidableEq, Repr

/-- The running context comes first, then those it has preempted. -/
structure State where
  m : Machine
  contexts : List Context
  deriving DecidableEq, Repr

inductive Label where
  | openNimble (hw : Bool)
  | openApp (op : Option ChannelId)
  | close
  | advance
  | interrupt (q : Irq)
  | ret
  deriving DecidableEq, Repr

/-- `ble_npl_hw_enter_critical` turns the flag into a `u32`. -/
def bleNplHwEnterCritical (acquired : Bool) : UInt32 := if acquired then 1 else 0

/-- The argument `ble_npl_hw_exit_critical` passes to `release`. -/
def bleNplHwExitCritical (ctx : UInt32) : Bool := ctx == 1

@[simp] theorem exit_enter (active : Bool) :
    bleNplHwExitCritical (bleNplHwEnterCritical active) = active := by
  cases active <;> rfl

/-- What a NimBLE section hands back to `release`. -/
def releaseArg (hw active : Bool) : Bool :=
  if hw then bleNplHwExitCritical (bleNplHwEnterCritical active) else active

@[simp] theorem releaseArg_eq (hw active : Bool) : releaseArg hw active = active := by
  cases hw <;> simp [releaseArg]

def Context.goto (c : Context) (pc : Pc) : Context := { c with pc := pc }

def Context.opened (c : Context) (x : Section) : Context :=
  { c with sections := x :: c.sections, pc := .idle }

def Context.closed (c : Context) : Context := { c with sections := c.sections.tail, pc := .idle }

/-- What follows when `cs_internal::acquire` has returned. -/
def acquired (k : Caller) (active : Bool) (c : Context) : Context :=
  match k with
  | .nimble hw => c.opened (.nimble hw active)
  | .mask inInternalCs => c.goto (if inInternalCs then .clearInternal k active else .setImpl active)
  | .unmask inInternalCs =>
    c.goto (if inInternalCs then .clearInternal k active else .clearImpl active)

/-- What follows when `cs_internal::release` has returned. -/
def released (k : Caller) (c : Context) : Context :=
  match k with
  | .nimble _ => c.closed
  | .mask _ => c.opened (.app false c.op)
  | .unmask _ => c.closed

/-- One elementary step of the acquire or release in progress. -/
def advance (m : Machine) (c : Context) : Option (Machine × Context) :=
  match c.pc with
  | .idle => none
  | .readPrimask k => some (m, c.goto (.cpsid k (!m.primask)))
  | .cpsid k active => some ({ m with primask := true }, c.goto (.setInternal k active))
  | .setInternal k active => some ({ m with internalFlag := true }, acquired k active c)
  | .clearInternal k active =>
    some ({ m with internalFlag := if active then false else m.internalFlag },
      c.goto (.cpsie k active))
  | .cpsie k active =>
    some ({ m with primask := if active then false else m.primask }, released k c)
  | .loadNested =>
    some (m, if m.implFlag then c.opened (.app true c.op) else c.goto .acquireLoadInternal)
  | .acquireLoadInternal => some (m, c.goto (.readPrimask (.mask m.internalFlag)))
  | .setImpl active => some ({ m with implFlag := true }, c.goto (.saveMask0 active))
  | .saveMask0 active => some ({ m with csMask0 := m.nvic0 }, c.goto (.saveMask1 active))
  | .saveMask1 active => some ({ m with csMask1 := m.nvic1 }, c.goto (.writeIcer0 active))
  | .writeIcer0 active =>
    some ({ m with nvic0 := m.nvic0 &&& ~~~(~~~reservedIrqs p) }, c.goto (.writeIcer1 active))
  | .writeIcer1 active =>
    some ({ m with nvic1 := m.nvic1 &&& ~~~0xFFFFFFFF#32 },
      c.goto (.clearInternal (.mask false) active))
  | .releaseLoadInternal => some (m, c.goto (.readPrimask (.unmask m.internalFlag)))
  | .clearImpl active => some ({ m with implFlag := false }, c.goto (.writeIser0 active))
  | .writeIser0 active =>
    some ({ m with nvic0 := m.nvic0 ||| (m.csMask0 &&& ~~~reservedIrqs p) },
      c.goto (.writeIser1 active))
  | .writeIser1 active =>
    some ({ m with nvic1 := m.nvic1 ||| m.csMask1 }, c.goto (.clearInternal (.unmask false) active))

/-- Start releasing the innermost section. An application section that found
itself nested has nothing to release. -/
def startClose (c : Context) : Option Context :=
  match c.sections with
  | [] => none
  | .nimble hw active :: _ => some (c.goto (.clearInternal (.nimble hw) (releaseArg hw active)))
  | .app nestedCs _ :: _ => some (if nestedCs then c.closed else c.goto .releaseLoadInternal)

theorem startClose_cases {c c' : Context} (h : startClose c = some c') :
    (∃ hw active T, c.sections = .nimble hw active :: T ∧
      c' = c.goto (.clearInternal (.nimble hw) (releaseArg hw active))) ∨
    (∃ op T, c.sections = .app false op :: T ∧ c' = c.goto .releaseLoadInternal) ∨
    (∃ op T, c.sections = .app true op :: T ∧ c' = c.closed) := by
  unfold startClose at h
  split at h
  · cases h
  · rename_i hw active T hs
    cases h
    exact .inl ⟨hw, active, T, hs, rfl⟩
  · rename_i nested op T hs
    cases nested with
    | false =>
      cases h
      exact .inr (.inl ⟨op, T, hs, rfl⟩)
    | true =>
      cases h
      exact .inr (.inr ⟨op, T, hs, rfl⟩)

def step (l : Label) (s : State) : Option State :=
  match s.contexts with
  | [] => none
  | c :: rest =>
    match l with
    | .openNimble hw =>
      if c.pc = .idle then some { s with contexts := c.goto (.readPrimask (.nimble hw)) :: rest }
      else none
    | .openApp op =>
      if c.pc = .idle then
        some { s with contexts := { c with pc := .loadNested, op := op } :: rest }
      else none
    | .close =>
      if c.pc = .idle then (startClose c).map (fun c => { s with contexts := c :: rest }) else none
    | .advance => (advance p s.m c).map (fun r => ⟨r.1, r.2 :: rest⟩)
    | .interrupt q =>
      if s.m.canStart q then some { s with contexts := ⟨some q, [], .idle, none⟩ :: s.contexts }
      else none
    | .ret =>
      if c.pc = .idle ∧ c.sections = [] ∧ c.irq.isSome then some { s with contexts := rest }
      else none

/-- The thread before its first section, with any NVIC enable mask. -/
def start (csMask0 csMask1 nvic0 nvic1 : BitVec 32) : State :=
  ⟨⟨false, false, false, csMask0, csMask1, nvic0, nvic1⟩, [⟨none, [], .idle, none⟩]⟩

end CriticalSection
