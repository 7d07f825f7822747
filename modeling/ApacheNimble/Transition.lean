import Mathlib.Tactic.Common

/-!
# Runs of a partial step function

A step function takes a label and a state. It is undefined where the label is
not enabled or where the step fails. Runs are finite lists of labels, so every
run can be evaluated, and every quantifier over runs is one over lists.
-/
namespace Transition

variable {σ τ ℓ ο : Type*}

def run (step : ℓ → σ → Option σ) : List ℓ → σ → Option σ
  | [], s => some s
  | l :: ls, s => (step l s).bind (run step ls)

@[simp] theorem run_nil (step : ℓ → σ → Option σ) (s : σ) : run step [] s = some s := rfl

theorem run_cons (step : ℓ → σ → Option σ) (l : ℓ) (ls : List ℓ) (s : σ) :
    run step (l :: ls) s = (step l s).bind (run step ls) := rfl

theorem run_append (step : ℓ → σ → Option σ) (ls ms : List ℓ) (s : σ) :
    run step (ls ++ ms) s = (run step ls s).bind (run step ms) := by
  induction ls generalizing s with
  | nil => rfl
  | cons l ls ih =>
    simp only [List.cons_append, run_cons]
    cases step l s with
    | none => rfl
    | some t => exact ih t

/-- Two executions that meet are one execution. -/
theorem run_join (step : ℓ → σ → Option σ) {ls ms : List ℓ} {s t u : σ}
    (h₁ : run step ls s = some t) (h₂ : run step ms t = some u) :
    run step (ls ++ ms) s = some u := by
  rw [run_append, h₁]
  exact h₂

theorem run_cons_some (step : ℓ → σ → Option σ) {l : ℓ} {ls : List ℓ} {s u : σ}
    (h : run step (l :: ls) s = some u) : ∃ t, step l s = some t ∧ run step ls t = some u :=
  Option.bind_eq_some_iff.mp h

/-- Every step of the run meets the condition in the state it starts from. -/
def Along (step : ℓ → σ → Option σ) (G : ℓ → σ → Prop) : List ℓ → σ → Prop
  | [], _ => True
  | l :: ls, s => G l s ∧ ∀ t, step l s = some t → Along step G ls t

@[simp] theorem along_nil (step : ℓ → σ → Option σ) (G : ℓ → σ → Prop) (s : σ) :
    Along step G [] s := trivial

theorem along_cons (step : ℓ → σ → Option σ) (G : ℓ → σ → Prop) (l : ℓ) (ls : List ℓ) (s : σ) :
    Along step G (l :: ls) s ↔ G l s ∧ ∀ t, step l s = some t → Along step G ls t := Iff.rfl

theorem along_of_step {step : ℓ → σ → Option σ} {G : ℓ → σ → Prop} {l : ℓ} {ls : List ℓ}
    {s t : σ} (hG : G l s) (ht : step l s = some t) (hrest : Along step G ls t) :
    Along step G (l :: ls) s :=
  ⟨hG, fun u hu => by cases ht.symm.trans hu; exact hrest⟩

/-- The first part of a run that meets the condition meets it. -/
theorem Along.prefix {step : ℓ → σ → Option σ} {G : ℓ → σ → Prop} {ls ms : List ℓ} {s : σ}
    (h : Along step G (ls ++ ms) s) : Along step G ls s := by
  induction ls generalizing s with
  | nil => trivial
  | cons l ls ih => exact ⟨h.1, fun t ht => ih (h.2 t ht)⟩

theorem along_append (step : ℓ → σ → Option σ) (G : ℓ → σ → Prop) (ls ms : List ℓ) (s : σ) :
    Along step G (ls ++ ms) s ↔
      Along step G ls s ∧ ∀ t, run step ls s = some t → Along step G ms t := by
  induction ls generalizing s with
  | nil => simp
  | cons l ls ih =>
    simp only [List.cons_append, along_cons, run_cons, Option.bind_eq_some_iff]
    constructor
    · rintro ⟨hG, hnext⟩
      refine ⟨⟨hG, fun t ht => ((ih t).mp (hnext t ht)).1⟩, ?_⟩
      rintro t ⟨u, hu, hr⟩
      exact ((ih u).mp (hnext u hu)).2 t hr
    · rintro ⟨⟨hG, hnext⟩, hrest⟩
      exact ⟨hG, fun t ht => (ih t).mpr ⟨hnext t ht, fun u hr => hrest u ⟨t, ht, hr⟩⟩⟩

theorem Along.and {step : ℓ → σ → Option σ} {G H : ℓ → σ → Prop} {ls : List ℓ} {s : σ}
    (hg : Along step G ls s) (hh : Along step H ls s) :
    Along step (fun l s => G l s ∧ H l s) ls s := by
  induction ls generalizing s with
  | nil => trivial
  | cons l ls ih => exact ⟨⟨hg.1, hh.1⟩, fun t ht => ih (hg.2 t ht) (hh.2 t ht)⟩

/-- A condition that the labels meet in every state. -/
theorem along_of_forall {step : ℓ → σ → Option σ} {G : ℓ → σ → Prop} {ls : List ℓ}
    (h : ∀ l ∈ ls, ∀ s, G l s) (s : σ) : Along step G ls s := by
  induction ls generalizing s with
  | nil => trivial
  | cons l ls ih =>
    exact ⟨h l List.mem_cons_self s, fun t _ => ih (fun k hk => h k (List.mem_cons_of_mem l hk)) t⟩

/-- A run that ends is defined at every step. -/
theorem along_isSome_of_run {step : ℓ → σ → Option σ} {ls : List ℓ} {s t : σ}
    (h : run step ls s = some t) : Along step (fun l s => (step l s).isSome) ls s := by
  induction ls generalizing s with
  | nil => trivial
  | cons l ls ih =>
    obtain ⟨u, hu, ht⟩ := run_cons_some step h
    exact along_of_step (by rw [hu]; rfl) hu (ih ht)

/-- What every step meeting the condition preserves, every such run preserves. -/
theorem run_invariant_along {step : ℓ → σ → Option σ} {G : ℓ → σ → Prop} {I : σ → Prop}
    (hstep : ∀ l s t, I s → G l s → step l s = some t → I t)
    {ls : List ℓ} {s t : σ} (hs : I s) (hg : Along step G ls s)
    (h : run step ls s = some t) : I t := by
  induction ls generalizing s with
  | nil =>
    cases h
    exact hs
  | cons l ls ih =>
    obtain ⟨u, hu, ht⟩ := run_cons_some step h
    exact ih (hstep l s u hs hg.1 hu) (hg.2 u hu) ht

/-- What every step preserves, every run preserves. -/
theorem run_invariant {step : ℓ → σ → Option σ} {I : σ → Prop}
    (hstep : ∀ l s t, I s → step l s = some t → I t)
    {ls : List ℓ} {s t : σ} (hs : I s) (h : run step ls s = some t) : I t := by
  have hall : Along step (fun _ _ => True) ls s := along_of_forall (fun _ _ _ => trivial) s
  exact run_invariant_along (fun l s t hs _ => hstep l s t hs) hs hall h

/-- Some run whose steps meet the condition goes from the one state to the other. -/
def Leads (step : ℓ → σ → Option σ) (G : ℓ → σ → Prop) (s t : σ) : Prop :=
  ∃ ls, run step ls s = some t ∧ Along step G ls s

theorem Leads.refl (step : ℓ → σ → Option σ) (G : ℓ → σ → Prop) (s : σ) : Leads step G s s :=
  ⟨[], rfl, trivial⟩

theorem Leads.step {step : ℓ → σ → Option σ} {G : ℓ → σ → Prop} {l : ℓ} {s t : σ}
    (hG : G l s) (h : step l s = some t) : Leads step G s t := by
  refine ⟨[l], ?_, along_of_step hG h trivial⟩
  rw [run_cons, h]
  rfl

theorem Leads.trans {step : ℓ → σ → Option σ} {G : ℓ → σ → Prop} {s t u : σ}
    (h₁ : Leads step G s t) (h₂ : Leads step G t u) : Leads step G s u := by
  obtain ⟨ls, hls, hG⟩ := h₁
  obtain ⟨ms, hms, hH⟩ := h₂
  refine ⟨ls ++ ms, run_join step hls hms, (along_append ..).mpr ⟨hG, fun v hv => ?_⟩⟩
  cases hls.symm.trans hv
  exact hH

theorem Leads.invariant {step : ℓ → σ → Option σ} {G : ℓ → σ → Prop} {I : σ → Prop}
    (hstep : ∀ l s t, I s → G l s → step l s = some t → I t) {s t : σ} (hs : I s)
    (h : Leads step G s t) : I t := by
  obtain ⟨ls, hls, hG⟩ := h
  exact run_invariant_along hstep hs hG hls

/-- A condition on steps may be strengthened by an invariant that it keeps. -/
theorem along_of_invariant {step : ℓ → σ → Option σ} {G H : ℓ → σ → Prop} {I : σ → Prop}
    (hstep : ∀ l s t, I s → G l s → step l s = some t → I t)
    (himp : ∀ l s, I s → G l s → H l s)
    {ls : List ℓ} {s : σ} (hs : I s) (hg : Along step G ls s) : Along step H ls s := by
  induction ls generalizing s with
  | nil => trivial
  | cons l ls ih =>
    exact ⟨himp l s hs hg.1, fun t ht => ih (hstep l s t hs hg.1 ht) (hg.2 t ht)⟩

/-- Two conditions that an invariant of the legal steps makes the same. -/
theorem along_congr {step : ℓ → σ → Option σ} {L G H : ℓ → σ → Prop} {I : σ → Prop}
    (hstep : ∀ l s t, I s → L l s → step l s = some t → I t)
    (hiff : ∀ l s, I s → L l s → (G l s ↔ H l s))
    {ls : List ℓ} {s : σ} (hs : I s) (hL : Along step L ls s) :
    Along step G ls s ↔ Along step H ls s := by
  constructor
  · intro h
    exact along_of_invariant (fun l s t hs hG => hstep l s t hs hG.1)
      (fun l s hs hG => (hiff l s hs hG.1).mp hG.2) hs (hL.and h)
  · intro h
    exact along_of_invariant (fun l s t hs hH => hstep l s t hs hH.1)
      (fun l s hs hH => (hiff l s hs hH.1).mpr hH.2) hs (hL.and h)

/-- The property holds in every state the run passes through. -/
def Throughout (step : ℓ → σ → Option σ) (P : σ → Prop) : List ℓ → σ → Prop
  | [], s => P s
  | l :: ls, s => P s ∧ ∀ t, step l s = some t → Throughout step P ls t

theorem throughout_cons (step : ℓ → σ → Option σ) (P : σ → Prop) (l : ℓ) (ls : List ℓ) (s : σ) :
    Throughout step P (l :: ls) s ↔ P s ∧ ∀ t, step l s = some t → Throughout step P ls t := Iff.rfl

theorem Throughout.head {step : ℓ → σ → Option σ} {P : σ → Prop} {ls : List ℓ} {s : σ}
    (h : Throughout step P ls s) : P s := by
  cases ls with
  | nil => exact h
  | cons l ls => exact h.1

/-- Every state a part of the run ends in is one the run passes through. -/
theorem throughout_iff {step : ℓ → σ → Option σ} {P : σ → Prop} {ls : List ℓ} {s : σ} :
    Throughout step P ls s ↔ ∀ ks ms t, ls = ks ++ ms → run step ks s = some t → P t := by
  induction ls generalizing s with
  | nil =>
    constructor
    · intro h ks ms t he hr
      obtain ⟨rfl, -⟩ := List.append_eq_nil_iff.mp he.symm
      cases hr
      exact h
    · intro h
      exact h [] [] s rfl rfl
  | cons l ls ih =>
    rw [throughout_cons]
    constructor
    · rintro ⟨hs, hnext⟩ ks ms t he hr
      cases ks with
      | nil =>
        cases hr
        exact hs
      | cons k ks =>
        cases he
        obtain ⟨u, hu, hr⟩ := run_cons_some step hr
        exact ih.mp (hnext u hu) ks ms t rfl hr
    · intro h
      refine ⟨h [] _ s rfl rfl, fun u hu => ih.mpr ?_⟩
      intro ks ms t he hr
      exact h (l :: ks) ms t (by rw [he]; rfl) (by rw [run_cons, hu]; exact hr)

/-- What an invariant of the steps that meet the condition implies. -/
theorem throughout_of_along {step : ℓ → σ → Option σ} {G : ℓ → σ → Prop} {I P : σ → Prop}
    (hstep : ∀ l s t, I s → G l s → step l s = some t → I t) (himp : ∀ s, I s → P s)
    {ls : List ℓ} {s : σ} (hs : I s) (hG : Along step G ls s) : Throughout step P ls s := by
  induction ls generalizing s with
  | nil => exact himp s hs
  | cons l ls ih => exact ⟨himp s hs, fun t ht => ih (hstep l s t hs hG.1 ht) (hG.2 t ht)⟩

/-- The rule for a condition that is exactly what keeps a property: under an
invariant of all legal steps, a step keeps the property when it meets the
condition, and is stuck badly or loses the property when it does not. -/
theorem along_iff_throughout {step : ℓ → σ → Option σ} {L G B : ℓ → σ → Prop} {I P : σ → Prop}
    (hinv : ∀ l s t, I s → L l s → step l s = some t → I t)
    (hkeep : ∀ l s, I s → L l s → P s → G l s → B l s ∧ ∀ t, step l s = some t → P t)
    (hlose : ∀ l s, I s → L l s → P s → ¬ G l s → B l s → ∃ t, step l s = some t ∧ ¬ P t)
    {ls : List ℓ} {s : σ} (hI : I s) (hP : P s) (hL : Along step L ls s) :
    Along step G ls s ↔ Throughout step P ls s ∧ Along step B ls s := by
  induction ls generalizing s with
  | nil => simp [Throughout, hP]
  | cons l ls ih =>
    have hrest : ∀ t, step l s = some t → P t →
        (Along step G ls t ↔ Throughout step P ls t ∧ Along step B ls t) :=
      fun t ht hPt => ih (hinv l s t hI hL.1 ht) hPt (hL.2 t ht)
    simp only [along_cons, throughout_cons]
    constructor
    · rintro ⟨hG, hnext⟩
      obtain ⟨hB, hkept⟩ := hkeep l s hI hL.1 hP hG
      refine ⟨⟨hP, fun t ht => ?_⟩, hB, fun t ht => ?_⟩
      · exact ((hrest t ht (hkept t ht)).mp (hnext t ht)).1
      · exact ((hrest t ht (hkept t ht)).mp (hnext t ht)).2
    · rintro ⟨⟨-, hT⟩, hB, hBs⟩
      by_cases hG : G l s
      · refine ⟨hG, fun t ht => ?_⟩
        exact (hrest t ht (hT t ht).head).mpr ⟨hT t ht, hBs t ht⟩
      · obtain ⟨t, ht, hPt⟩ := hlose l s hI hL.1 hP hG hB
        exact absurd (hT t ht).head hPt

/-- A run that starts doomed, where a doomed state stays so or loses the
property, loses the property before it ends undoomed. -/
theorem not_throughout_of_doomed {step : ℓ → σ → Option σ} {P D : σ → Prop}
    (hstuck : ∀ l s t, D s → step l s = some t → D t ∨ ¬ P t)
    {ls : List ℓ} {s t : σ} (hs : D s) (h : run step ls s = some t) (hend : ¬ D t) :
    ¬ Throughout step P ls s := by
  induction ls generalizing s with
  | nil =>
    cases h
    exact absurd hs hend
  | cons l ls ih =>
    obtain ⟨u, hu, ht⟩ := run_cons_some step h
    intro hall
    obtain hD | hlost := hstuck l s u hs hu
    · exact ih hD ht (hall.2 u hu)
    · exact hlost (hall.2 u hu).head

/-- The rule for a condition whose violation shows later: where a step that
does not meet it dooms the state, a run that ends undoomed and never loses the
property has met it at every step. -/
theorem along_of_throughout {step : ℓ → σ → Option σ} {G : ℓ → σ → Prop} {I P D : σ → Prop}
    (hkeep : ∀ l s t, I s → G l s → step l s = some t → I t)
    (hdoom : ∀ l s t, I s → ¬ G l s → step l s = some t → D t)
    (hstuck : ∀ l s t, D s → step l s = some t → D t ∨ ¬ P t)
    {ls : List ℓ} {s t : σ} (hI : I s) (h : run step ls s = some t) (hend : ¬ D t)
    (hP : Throughout step P ls s) : Along step G ls s := by
  induction ls generalizing s with
  | nil => trivial
  | cons l ls ih =>
    obtain ⟨u, hu, ht⟩ := run_cons_some step h
    by_cases hG : G l s
    · exact along_of_step hG hu (ih (hkeep l s u hI hG hu) ht (hP.2 u hu))
    · exact absurd (hP.2 u hu) (not_throughout_of_doomed hstuck (hdoom l s u hI hG hu) ht hend)

/-- What goes down with each step that counts and never up has gone down by as
many as the run has of them. -/
theorem run_countdown {step : ℓ → σ → Option σ} {G : ℓ → σ → Prop} {counts : ℓ → Bool}
    {I : Nat → σ → Prop}
    (hstep : ∀ n l s t, I n s → G l s → step l s = some t →
      I (n - if counts l then 1 else 0) t)
    {n : Nat} {ls : List ℓ} {s t : σ} (hs : I n s) (hG : Along step G ls s)
    (h : run step ls s = some t) : I (n - ls.countP counts) t := by
  induction ls generalizing n s with
  | nil =>
    cases h
    exact hs
  | cons l ls ih =>
    obtain ⟨u, hu, ht⟩ := run_cons_some step h
    have hrest := ih (hstep n l s u hs hG.1 hu) (hG.2 u hu) ht
    rwa [Nat.sub_sub, Nat.add_comm, ← List.countP_cons] at hrest

/-- A step function with an output, made into one that collects its outputs. -/
def logged (step : ℓ → σ → Option (σ × ο)) (l : ℓ) (s : σ × List ο) : Option (σ × List ο) :=
  (step l s.1).map (fun r => (r.1, s.2 ++ [r.2]))

/-- Every defined step of the abstract system is matched by a step of the
concrete one with the same label and the same output. -/
def Simulates (cstep : ℓ → σ → Option (σ × ο)) (astep : ℓ → τ → Option (τ × ο))
    (R : σ → τ → Prop) : Prop :=
  ∀ l s t t' o, R s t → astep l t = some (t', o) → ∃ s', cstep l s = some (s', o) ∧ R s' t'

/-- A simulation of steps is a simulation of runs with their outputs. -/
theorem Simulates.run {cstep : ℓ → σ → Option (σ × ο)} {astep : ℓ → τ → Option (τ × ο)}
    {R : σ → τ → Prop} (hsim : Simulates cstep astep R) {ls : List ℓ} {s : σ} {t t' : τ}
    {os os' : List ο} (hR : R s t) (h : run (logged astep) ls (t, os) = some (t', os')) :
    ∃ s', run (logged cstep) ls (s, os) = some (s', os') ∧ R s' t' := by
  induction ls generalizing s t os with
  | nil =>
    cases h
    exact ⟨s, rfl, hR⟩
  | cons l ls ih =>
    obtain ⟨⟨u, us⟩, hu, hrest⟩ := run_cons_some _ h
    obtain ⟨⟨v, o⟩, hv, he⟩ := Option.map_eq_some_iff.mp hu
    cases he
    obtain ⟨s₁, hs₁, hR₁⟩ := hsim l s t _ o hR hv
    obtain ⟨s₂, hs₂, hR₂⟩ := ih hR₁ hrest
    refine ⟨s₂, ?_, hR₂⟩
    rw [run_cons]
    simpa [logged, hs₁] using hs₂

/-- Two systems that simulate each other and look alike in related states have
the same runs, as far as one can see: the same labels are stuck, and the
outputs are the same. -/
theorem run_eq_of_simulates {γ : Type*} {cstep : ℓ → σ → Option (σ × ο)}
    {astep : ℓ → τ → Option (τ × ο)} {R : σ → τ → Prop} {obs : σ → γ} {obs' : τ → γ}
    (hsim : Simulates cstep astep R) (hsim' : Simulates astep cstep (fun t s => R s t))
    (hobs : ∀ s t, R s t → obs s = obs' t) (ls : List ℓ) {s : σ} {t : τ} {os : List ο}
    (hR : R s t) :
    (run (logged cstep) ls (s, os)).map (Prod.map obs id) =
      (run (logged astep) ls (t, os)).map (Prod.map obs' id) := by
  cases ha : run (logged astep) ls (t, os) with
  | some r =>
    obtain ⟨t', os'⟩ := r
    obtain ⟨s', hs, hR'⟩ := hsim.run hR ha
    rw [hs]
    simp [hobs s' t' hR']
  | none =>
    cases hc : run (logged cstep) ls (s, os) with
    | none => rfl
    | some r =>
      obtain ⟨t', ht, -⟩ := hsim'.run hR hc
      rw [ha] at ht
      cases ht

/-- What the steps of a run show, one after the other. -/
def observed {α : Type*} (step : ℓ → σ → Option σ) (shown : σ → σ → List α) : List ℓ → σ → List α
  | [], _ => []
  | l :: ls, s => ((step l s).map (fun t => shown s t ++ observed step shown ls t)).getD []

theorem observed_cons {α : Type*} {step : ℓ → σ → Option σ} {shown : σ → σ → List α} {l : ℓ}
    {ls : List ℓ} {s t : σ} (h : step l s = some t) :
    observed step shown (l :: ls) s = shown s t ++ observed step shown ls t := by
  rw [observed, h]
  rfl

/-- Where the abstract system can take the steps that each concrete step shows,
it can take those that a run shows. -/
theorem run_observed {α : Type*} {step : ℓ → σ → Option σ} {astep : α → τ → Option τ}
    {shown : σ → σ → List α} {G : ℓ → σ → Prop} {R : σ → τ → Prop}
    (hsim : ∀ l s t a, R s a → G l s → step l s = some t →
      ∃ b, run astep (shown s t) a = some b ∧ R t b)
    {ls : List ℓ} {s t : σ} {a : τ} (hR : R s a) (hG : Along step G ls s)
    (h : run step ls s = some t) :
    ∃ b, run astep (observed step shown ls s) a = some b ∧ R t b := by
  induction ls generalizing s a with
  | nil =>
    cases h
    exact ⟨a, rfl, hR⟩
  | cons l ls ih =>
    obtain ⟨u, hu, ht⟩ := run_cons_some step h
    obtain ⟨b, hb, hRb⟩ := hsim l s u a hR hG.1 hu
    obtain ⟨c, hc, hRc⟩ := ih hRb (hG.2 u hu) ht
    rw [observed_cons hu]
    exact ⟨c, run_join astep hb hc, hRc⟩

/-- A log that grows by what each step shows has grown by what the run has shown. -/
theorem log_observed {α β : Type*} {step : ℓ → σ → Option σ} {shown : σ → σ → List α}
    {f : α → Option β} {log : σ → List β}
    (hstep : ∀ l s t, step l s = some t → log t = log s ++ (shown s t).filterMap f)
    {ls : List ℓ} {s t : σ} (h : run step ls s = some t) :
    log t = log s ++ (observed step shown ls s).filterMap f := by
  induction ls generalizing s with
  | nil =>
    cases h
    exact (List.append_nil _).symm
  | cons l ls ih =>
    obtain ⟨u, hu, ht⟩ := run_cons_some step h
    rw [ih ht, hstep l s u hu, observed_cons hu, List.filterMap_append, List.append_assoc]

/-- What each step keeps true of the labels so far and the state. -/
theorem run_history {step : ℓ → σ → Option σ} {H : List ℓ → σ → Prop}
    (hstep : ∀ ks l s t, H ks s → step l s = some t → H (ks ++ [l]) t)
    {ks ls : List ℓ} {s t : σ} (hs : H ks s) (h : run step ls s = some t) : H (ks ++ ls) t := by
  induction ls generalizing ks s with
  | nil =>
    cases h
    rwa [List.append_nil]
  | cons l ls ih =>
    obtain ⟨u, hu, ht⟩ := run_cons_some step h
    have := ih (hstep ks l s u hs hu) ht
    rwa [List.append_assoc, List.singleton_append] at this

end Transition
