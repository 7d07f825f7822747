import ApacheNimble.Callout

/-!
# The remaining time of a callout

The clock is cut to 32 bits when a reset adds to it and when it is read, and
the remaining time is a difference of two such values.
-/
namespace CalloutRemaining

open PortLayer Callout Transition

variable {profile : Profile} {s t : State} {c : Ptr}

/-- The label initialises the callout or begins a reset of it. -/
def Rearms (c : Ptr) : Label → Prop
  | .init d _ _ _ => d = c
  | .resetExpiresAt d _ => d = c
  | _ => False

def elapsed (s : State) (m : UInt64) : Nat := m.toNat - s.timed.now.toNat

/-- The reset does not trap, and whatever happens until the clock reads `m`,
unless the callout is reset again, the remaining time is what is left of the
ticks. -/
def CountsDown (profile : Profile) (c : Ptr) (ticks : UInt32) (m : UInt64) (s : State) : Prop :=
  ∃ t, step profile (.resetExpiresAt c ticks) s = some t ∧
    ∀ ls u, (∀ l ∈ ls, ¬ Rearms c l) → run (step profile) ls t = some u → u.timed.now = m →
      ∃ r, bleNplCalloutRemainingTicks profile c (bleNplTimeGet u.timed) u.timed.npl = some r ∧
        r.toNat = ticks.toNat - elapsed s m

/-- A step other than an initialisation or a reset keeps the deadline. -/
theorem step_expiresAt {l : Label} (hl : ¬ Rearms c l) (h : step profile l s = some t) :
    bleNplCalloutGetTicks c t.timed.npl = bleNplCalloutGetTicks c s.timed.npl := by
  unfold bleNplCalloutGetTicks
  cases step_effect h with
  | init d evq evCb evArg npl hidle hnpl =>
    have hdc : c ≠ d := fun he => hl he.symm
    simp [hnpl, hdc]
  | resetExpiresAt d ticks e npl hd hidle hadd hnpl =>
    have hdc : c ≠ d := fun he => hl he.symm
    simp [hnpl, hdc]
  | immediate d npl hpc hdue hnpl => simp [hnpl]
  | wake w npl hw hdue hnpl => simp [hnpl]
  | queue op npl hnpl => rw [hnpl]
  | recorded | merged | clock => rfl
  | resetActive | stop => simp

theorem run_expiresAt {ls : List Label} (hls : ∀ l ∈ ls, ¬ Rearms c l)
    (h : run (step profile) ls s = some t) :
    bleNplCalloutGetTicks c t.timed.npl = bleNplCalloutGetTicks c s.timed.npl := by
  refine run_invariant_along (G := fun l _ => ¬ Rearms c l)
    (I := fun u => bleNplCalloutGetTicks c u.timed.npl = bleNplCalloutGetTicks c s.timed.npl)
    ?_ rfl (along_of_forall (fun l hl _ => hls l hl) s) h
  intro l u v hu hl hstep
  exact (step_expiresAt hl hstep).trans hu

/-- The deadline is the sum that the reset has computed. -/
theorem resetExpiresAt_eq_some {ticks : UInt32}
    (h : step profile (.resetExpiresAt c ticks) s = some t) :
    profile.addU32 s.timed.now.toUInt32 ticks = some (bleNplCalloutGetTicks c t.timed.npl) ∧
      t.timed.now = s.timed.now := by
  obtain ⟨-, ht⟩ := Option.ite_none_right_eq_some.mp h
  obtain ⟨timed, htimed, he⟩ := Option.map_eq_some_iff.mp ht
  obtain ⟨e, hadd, hset⟩ := Option.bind_eq_some_iff.mp htimed
  cases hset
  cases he
  exact ⟨by simpa [bleNplCalloutGetTicks] using hadd, rfl⟩

theorem resetExpiresAt_isSome {ticks : UInt32} (hknown : c ∈ s.known) (hidle : s.pcs c = .idle) :
    (step profile (.resetExpiresAt c ticks) s).isSome =
      (profile.addU32 s.timed.now.toUInt32 ticks).isSome := by
  simp only [step, hknown, hidle, and_self, if_true, Option.isSome_map, setExpiresAt,
    Option.bind_eq_bind]
  cases profile.addU32 s.timed.now.toUInt32 ticks <;> rfl

theorem addU32_isSome (profile : Profile) (a b : UInt32) :
    (profile.addU32 a b).isSome = true ↔
      (profile = .debug → a.toNat + b.toNat < UInt32.size) := by
  cases profile with
  | debug => simp [Profile.addU32]
  | release => simp [Profile.addU32]

/-- The two readings differ the wrong way round: only at the deadline itself
is their difference the time that is left. -/
theorem subU32_remaining {n m : UInt64} {ticks e : UInt32} (hle : n.toNat ≤ m.toNat)
    (hticks : ticks.toNat < 2147483648) (hd : m.toNat - n.toNat < 2147483648)
    (he : e = n.toUInt32 + ticks) :
    (∃ r, profile.subU32 m.toUInt32 e = some r ∧ r.toNat = ticks.toNat - (m.toNat - n.toNat)) ↔
      m.toNat - n.toNat = ticks.toNat := by
  have hn : n.toUInt32.toNat = n.toNat % UInt32.size := n.toNat_toUInt32
  have hm : m.toUInt32.toNat = m.toNat % UInt32.size := m.toNat_toUInt32
  have hsum : e.toNat = (n.toNat % UInt32.size + ticks.toNat) % UInt32.size := by
    rw [he, UInt32.toNat_add, hn]
  have hsub : (m.toUInt32 - e).toNat =
      (UInt32.size - e.toNat + m.toNat % UInt32.size) % UInt32.size := by
    rw [UInt32.toNat_sub, hm]
  simp only [UInt32.size] at *
  cases profile with
  | debug =>
    simp only [Profile.subU32, Option.ite_none_right_eq_some, hm]
    constructor
    · rintro ⟨r, ⟨hsome, he⟩, hr⟩
      rw [← Option.some.inj he, hsub] at hr
      omega
    · intro h
      exact ⟨_, ⟨by omega, rfl⟩, by rw [hsub]; omega⟩
  | release =>
    simp only [Profile.subU32, Option.some.injEq, exists_eq_left', hsub]
    omega

/-- A callout counts down at the one moment at which its ticks have just
elapsed, and nowhere else; in a debug build only if the sum of the clock's low
half and the ticks does not trap. -/
theorem countsDown_iff (profile : Profile) (c : Ptr) (ticks : UInt32) (m : UInt64) (s : State)
    (hknown : c ∈ s.known) (hidle : s.pcs c = .idle) (hticks : ticks.toNat < 2147483648)
    (hlater : s.timed.now ≤ m) (hd : elapsed s m < 2147483648) :
    CountsDown profile c ticks m s ↔ elapsed s m = ticks.toNat ∧
      (profile = .debug → s.timed.now.toUInt32.toNat + ticks.toNat < UInt32.size) := by
  rw [← addU32_isSome, ← resetExpiresAt_isSome hknown hidle]
  have hle := UInt64.le_iff_toNat_le.mp hlater
  constructor
  · rintro ⟨t, ht, hcounts⟩
    obtain ⟨hadd, hnow⟩ := resetExpiresAt_eq_some ht
    have hclock : run (step profile) [.clock m] t =
        some { t with timed := { t.timed with now := m } } := by
      simp [run_cons, step, hnow, hlater]
    have hleft := hcounts [.clock m] _ (by simp [Rearms]) hclock rfl
    exact ⟨(subU32_remaining hle hticks hd (profile.addU32_eq hadd)).mp hleft, by rw [ht]; rfl⟩
  · rintro ⟨helapsed, hsome⟩
    obtain ⟨t, ht⟩ := Option.isSome_iff_exists.mp hsome
    obtain ⟨hadd, -⟩ := resetExpiresAt_eq_some ht
    refine ⟨t, ht, fun ls u hls hu hm => ?_⟩
    have he : (u.timed.npl.callouts c).expiresAt = s.timed.now.toUInt32 + ticks :=
      (run_expiresAt hls hu).trans (profile.addU32_eq hadd)
    rw [bleNplCalloutRemainingTicks, bleNplTimeGet, hm]
    exact (subU32_remaining hle hticks hd he).mpr helapsed

/-- The callout at address 100 has been initialised at the given time. -/
def initialised (now : UInt64) : State where
  timed := ⟨boot (fun _ => ⟨none, 0⟩) (fun _ => ⟨0, 0, false⟩) (fun _ => ⟨false, 0, 0⟩), now, []⟩
  pcs := fun _ => .idle
  latest := fun _ => none
  known := [100]

theorem countsDown_iff_elapsed : CountsDown .debug 100 10 15 (initialised 5) :=
  (countsDown_iff .debug 100 10 15 (initialised 5) (by decide) rfl (by decide) (by decide)
    (by decide)).mpr (by decide)

/-- With seven of ten ticks left a debug build traps and a release build reads
almost the whole range. A reset at the end of the range traps in a debug build. -/
theorem not_countsDown : ¬ CountsDown .debug 100 10 3 (initialised 0) ∧
    ¬ CountsDown .release 100 10 3 (initialised 0) ∧
    step .debug (.resetExpiresAt 100 10) (initialised 4294967290) = none := by
  refine ⟨?_, ?_, by rfl⟩
  · rintro ⟨t, ht, hcounts⟩
    cases ht
    obtain ⟨r, hr, -⟩ := hcounts [.clock 3] _ (by simp [Rearms]) rfl rfl
    cases hr
  · rintro ⟨t, ht, hcounts⟩
    cases ht
    obtain ⟨r, hr, hleft⟩ := hcounts [.clock 3] _ (by simp [Rearms]) rfl rfl
    cases hr
    revert hleft
    decide

end CalloutRemaining
