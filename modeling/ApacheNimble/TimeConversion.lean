import ApacheNimble.Rates
import ApacheNimble.Callout

/-!
# Milliseconds and ticks

The clock counts in 64 bits, `TICK_HZ` times a second. The four conversions go
through it and cut what they get to 32 bits.
-/
namespace TimeConversion

open Callout Rates

variable {tickHz : Nat} {ms ms' ticks : UInt32}

/-- A time of the 64-bit clock. -/
structure Instant where
  asTicks : UInt64

def Instant.fromTicks (ticks : UInt64) : Instant := ⟨ticks⟩

/-- Embassy's conversions round down, in 64 bits. -/
def Instant.fromMillis (tickHz : Nat) (millis : UInt64) : Instant :=
  ⟨UInt64.ofNat (convert tickHz 1000 millis.toNat)⟩

def Instant.asMillis (tickHz : Nat) (t : Instant) : UInt64 :=
  UInt64.ofNat (convert 1000 tickHz t.asTicks.toNat)

/-- The second component is what is written to `out_ticks`. -/
def bleNplTimeMsToTicks (tickHz : Nat) (ms : UInt32) : BleNplError × UInt32 :=
  (.OK, (Instant.fromMillis tickHz ms.toUInt64).asTicks.toUInt32)

def bleNplTimeTicksToMs (tickHz : Nat) (ticks : UInt32) : BleNplError × UInt32 :=
  (.OK, ((Instant.fromTicks ticks.toUInt64).asMillis tickHz).toUInt32)

def bleNplTimeMsToTicks32 (tickHz : Nat) (ms : UInt32) : UInt32 :=
  (Instant.fromMillis tickHz ms.toUInt64).asTicks.toUInt32

def bleNplTimeTicksToMs32 (tickHz : Nat) (ticks : UInt32) : UInt32 :=
  ((Instant.fromTicks ticks.toUInt64).asMillis tickHz).toUInt32

/-- If the answer is `OK`, what has been written is the value. -/
def Exact (answer : BleNplError × UInt32) (value : Nat) : Prop :=
  answer.1 = .OK → answer.2.toNat = value

/-- The conversions are exact or refused, the variants without an error agree
with them, longer times have no fewer ticks, and the way back from ticks loses
at most a millisecond. -/
structure Converts (tickHz : Nat) (ms ms' ticks : UInt32) : Prop where
  toTicks : ∀ m ∈ [ms, ms'], Exact (bleNplTimeMsToTicks tickHz m) (convert tickHz 1000 m.toNat)
  toMs : Exact (bleNplTimeTicksToMs tickHz ticks) (convert 1000 tickHz ticks.toNat)
  toTicks32 : (bleNplTimeMsToTicks tickHz ms).1 = .OK →
    bleNplTimeMsToTicks32 tickHz ms = (bleNplTimeMsToTicks tickHz ms).2
  toMs32 : (bleNplTimeTicksToMs tickHz ticks).1 = .OK →
    bleNplTimeTicksToMs32 tickHz ticks = (bleNplTimeTicksToMs tickHz ticks).2
  mono : ms ≤ ms' → (bleNplTimeMsToTicks tickHz ms).1 = .OK →
    (bleNplTimeMsToTicks tickHz ms').1 = .OK →
    (bleNplTimeMsToTicks tickHz ms).2 ≤ (bleNplTimeMsToTicks tickHz ms').2
  back : ∀ out out', bleNplTimeMsToTicks tickHz ms = (.OK, out) →
    bleNplTimeTicksToMs tickHz out = (.OK, out') →
    out'.toNat = ms.toNat ∨ out'.toNat + 1 = ms.toNat

/-- A number that goes through 64 bits is cut to 32. -/
theorem toUInt32_ofNat_toNat (n : Nat) : (UInt64.ofNat n).toUInt32.toNat = n % UInt32.size := by
  have hcut : UInt32.size ∣ UInt64.size := by decide
  rw [UInt64.toNat_toUInt32, UInt64.toNat_ofNat']
  exact Nat.mod_mod_of_dvd n hcut

theorem msToTicks_toNat (tickHz : Nat) (ms : UInt32) :
    (bleNplTimeMsToTicks tickHz ms).2.toNat = convert tickHz 1000 ms.toNat % UInt32.size := by
  simp only [bleNplTimeMsToTicks, Instant.fromMillis, UInt32.toNat_toUInt64]
  exact toUInt32_ofNat_toNat _

theorem ticksToMs_toNat (tickHz : Nat) (ticks : UInt32) :
    (bleNplTimeTicksToMs tickHz ticks).2.toNat = convert 1000 tickHz ticks.toNat % UInt32.size := by
  simp only [bleNplTimeTicksToMs, Instant.asMillis, Instant.fromTicks, UInt32.toNat_toUInt64]
  exact toUInt32_ofNat_toNat _

/-- The way to milliseconds always fits. -/
theorem ticksToMs_exact (hrate : 1000 ≤ tickHz) (ticks : UInt32) :
    (bleNplTimeTicksToMs tickHz ticks).2.toNat = convert 1000 tickHz ticks.toNat := by
  rw [ticksToMs_toNat]
  apply Nat.mod_eq_of_lt
  exact Nat.lt_of_le_of_lt (convert_le ticks.toNat hrate) ticks.toNat_lt_size

/-- The way to ticks is exact as long as the ticks fit. -/
theorem msToTicks_exact_iff (tickHz : Nat) (ms : UInt32) :
    (bleNplTimeMsToTicks tickHz ms).2.toNat = convert tickHz 1000 ms.toNat ↔
      ms.toNat * tickHz < 1000 * UInt32.size := by
  rw [msToTicks_toNat, ← convert_lt_iff (by decide)]
  constructor
  · intro h
    rw [← h]
    exact Nat.mod_lt _ (by decide)
  · exact Nat.mod_eq_of_lt

theorem msToTicks_mono (hexact : (bleNplTimeMsToTicks tickHz ms).2.toNat =
      convert tickHz 1000 ms.toNat)
    (hexact' : (bleNplTimeMsToTicks tickHz ms').2.toNat = convert tickHz 1000 ms'.toNat)
    (h : ms ≤ ms') :
    (bleNplTimeMsToTicks tickHz ms).2 ≤ (bleNplTimeMsToTicks tickHz ms').2 := by
  rw [UInt32.le_iff_toNat_le, hexact, hexact']
  exact convert_mono tickHz 1000 (UInt32.le_iff_toNat_le.mp h)

theorem ticksToMs_back (hrate : 1000 ≤ tickHz)
    (hexact : (bleNplTimeMsToTicks tickHz ms).2.toNat = convert tickHz 1000 ms.toNat) :
    (bleNplTimeTicksToMs tickHz (bleNplTimeMsToTicks tickHz ms).2).2.toNat = ms.toNat ∨
      (bleNplTimeTicksToMs tickHz (bleNplTimeMsToTicks tickHz ms).2).2.toNat + 1 = ms.toNat := by
  rw [ticksToMs_exact hrate, hexact]
  exact convert_back_bounds ms.toNat (by decide) hrate

/-- At any rate of at least a tick a millisecond, the conversions do what they
should on the milliseconds whose ticks fit in 32 bits, and only on those. -/
theorem converts_iff_fit (tickHz : Nat) (hrate : 1000 ≤ tickHz) (ms ms' ticks : UInt32) :
    Converts tickHz ms ms' ticks ↔ ms.toNat * tickHz < 1000 * UInt32.size ∧
      ms'.toNat * tickHz < 1000 * UInt32.size := by
  rw [← msToTicks_exact_iff, ← msToTicks_exact_iff]
  constructor
  · intro h
    exact ⟨h.toTicks ms (by simp) rfl, h.toTicks ms' (by simp) rfl⟩
  · intro ⟨hexact, hexact'⟩
    constructor
    · intro m hm _
      cases hm with
      | head => exact hexact
      | tail _ hm =>
        cases List.mem_singleton.mp hm
        exact hexact'
    · exact fun _ => ticksToMs_exact hrate ticks
    · exact fun _ => rfl
    · exact fun _ => rfl
    · exact fun h _ _ => msToTicks_mono hexact hexact' h
    · intro out out' hout hout'
      cases hout
      cases hout'
      exact ticksToMs_back hrate hexact

theorem converts_iff_fit_second : Converts 32768 1000 2000 5 :=
  (converts_iff_fit 32768 (by decide) 1000 2000 5).mpr (by decide)

/-- At 32768 ticks a second, 36 hours and some minutes are reported as no ticks
at all, and one millisecond less as almost the whole range. -/
theorem ticks_wrapped : bleNplTimeMsToTicks 32768 131072000 = (.OK, 0) ∧
    bleNplTimeMsToTicks 32768 131071999 = (.OK, 4294967263) ∧
    convert 32768 1000 131072000 = 4294967296 ∧
    ¬ Converts 32768 131071999 131072000 5 := by
  refine ⟨by decide, by decide, by decide, fun h => ?_⟩
  have hmono := h.mono (by decide) rfl rfl
  revert hmono
  decide

end TimeConversion
