import Mathlib.Data.List.Nodup
import Mathlib.Logic.Function.Basic

/-!
# Things that are acquired once and settled once

An account lists what has been acquired, with its owner, and counts how often
each thing has been settled.
-/
namespace Ledger

variable {β ο : Type*}

@[ext] structure Account (β ο : Type*) where
  acquired : List (β × ο)
  times : β → Nat

def Known (L : Account β ο) (b : β) : Prop := ∃ o, (b, o) ∈ L.acquired

def acquire (b : β) (o : ο) (L : Account β ο) : Account β ο := ⟨L.acquired ++ [(b, o)], L.times⟩

def settle [DecidableEq β] (b : β) (L : Account β ο) : Account β ο :=
  ⟨L.acquired, fun x => L.times x + if x = b then 1 else 0⟩

/-- Nothing is acquired twice, and only what has been acquired is settled. -/
structure Kept (L : Account β ο) : Prop where
  once : (L.acquired.map (·.1)).Nodup
  unknown : ∀ b, ¬ Known L b → L.times b = 0

/-- Nothing is settled twice, and what belongs to an owner that has returned
has been settled. -/
def Exact (returned : ο → Prop) (L : Account β ο) : Prop :=
  ∀ b o, (b, o) ∈ L.acquired → L.times b ≤ 1 ∧ (returned o → L.times b = 1)

variable {L : Account β ο} {b : β} {o o' : ο}

theorem mem_acquire {c : β} : (c, o') ∈ (acquire b o L).acquired ↔
    (c, o') ∈ L.acquired ∨ c = b ∧ o' = o := by
  simp [acquire]

theorem known_acquire {c : β} : Known (acquire b o L) c ↔ Known L c ∨ c = b := by
  simp [Known, acquire, exists_or]

theorem known_iff : Known L b ↔ b ∈ L.acquired.map (·.1) := by
  simp [Known]

theorem Kept.acquire (h : Kept L) (hb : ¬ Known L b) : Kept (acquire b o L) where
  once := by
    rw [known_iff] at hb
    simp only [Ledger.acquire, List.map_append, List.map_cons, List.map_nil]
    exact List.Nodup.append h.once (List.nodup_singleton b) (by simpa using hb)
  unknown c hc := h.unknown c (fun hk => hc (known_acquire.mpr (.inl hk)))

theorem Kept.settle [DecidableEq β] (h : Kept L) (hb : Known L b) : Kept (settle b L) where
  once := h.once
  unknown c hc := by
    have hne : c ≠ b := by
      rintro rfl
      exact hc hb
    simp only [Ledger.settle, hne, if_false, Nat.add_zero]
    exact h.unknown c hc

/-- What has been acquired once has one owner. -/
theorem Kept.owner (h : Kept L) (ho : (b, o) ∈ L.acquired) (ho' : (b, o') ∈ L.acquired) :
    o = o' :=
  congrArg Prod.snd (List.inj_on_of_nodup_map h.once ho ho' rfl)

/-- Each owner in progress holds at most one thing, which it has not settled
yet. What an owner no longer holds it has settled. -/
structure Held {ι : Type*} (holds : ι → Option β) (A : Account β (Option ι)) : Prop where
  kept : Kept A
  owned : ∀ i b, holds i = some b → (b, some i) ∈ A.acquired ∧ A.times b = 0
  given : ∀ i b, (b, some i) ∈ A.acquired → holds i = some b ∨ A.times b = 1

section Held

variable {ι : Type*} {holds : ι → Option β} {A : Account β (Option ι)} {i : ι}

/-- Who holds something else than the owner that changes goes on holding it. -/
theorem update_keeps [DecidableEq ι] {j : ι} {c : β} {x : Option β} (hi : holds i ≠ some c)
    (hj : holds j = some c) : Function.update holds i x j = some c := by
  rw [Function.update_of_ne]
  · exact hj
  · rintro rfl
    exact hi hj

theorem Held.borrow [DecidableEq ι] (h : Held holds A) (hb : ¬ Known A b) (hi : holds i = none) :
    Held (Function.update holds i (some b)) (acquire b (some i) A) where
  kept := h.kept.acquire hb
  owned := by
    intro j c hc
    rw [mem_acquire]
    by_cases hji : j = i
    · subst hji
      rw [Function.update_self] at hc
      cases hc
      exact ⟨.inr ⟨rfl, rfl⟩, h.kept.unknown b hb⟩
    · rw [Function.update_of_ne hji] at hc
      exact ⟨.inl (h.owned j c hc).1, (h.owned j c hc).2⟩
  given := by
    intro j c hc
    obtain hc | ⟨rfl, hj⟩ := mem_acquire.mp hc
    · refine (h.given j c hc).imp_left (update_keeps ?_)
      rw [hi]
      exact nofun
    · cases hj
      exact .inl (Function.update_self ..)

/-- An owner settles what it holds. -/
theorem Held.release [DecidableEq β] [DecidableEq ι] (h : Held holds A) (hi : holds i = some b) :
    Held (Function.update holds i none) (settle b A) where
  kept := h.kept.settle ⟨_, (h.owned i b hi).1⟩
  owned := by
    intro j c hc
    by_cases hji : j = i
    · subst hji
      rw [Function.update_self] at hc
      cases hc
    · rw [Function.update_of_ne hji] at hc
      obtain ⟨hmem, hzero⟩ := h.owned j c hc
      have hne : c ≠ b := by
        rintro rfl
        cases h.kept.owner hmem (h.owned i c hi).1
        exact hji rfl
      exact ⟨hmem, by simp [settle, hne, hzero]⟩
  given := by
    intro j c hc
    by_cases hcb : c = b
    · subst hcb
      refine .inr ?_
      simp [settle, (h.owned i c hi).2]
    · obtain hj | ht := h.given j c hc
      · refine .inl (update_keeps ?_ hj)
        rw [hi]
        exact fun he => hcb (Option.some.inj he).symm
      · exact .inr (by simp [settle, hcb, ht])

/-- Something comes to an owner that returns at once. -/
theorem Held.leave (h : Held holds A) (hb : ¬ Known A b) : Held holds (acquire b none A) where
  kept := h.kept.acquire hb
  owned i c hc := ⟨mem_acquire.mpr (.inl (h.owned i c hc).1), (h.owned i c hc).2⟩
  given := by
    intro i c hc
    obtain hc | ⟨-, hn⟩ := mem_acquire.mp hc
    · exact h.given i c hc
    · cases hn

/-- An owner that returns at once settles what has come to it. -/
theorem Held.pass [DecidableEq β] (h : Held holds A) (hb : ¬ Known A b) :
    Held holds (settle b (acquire b none A)) := by
  have hleft := h.leave hb
  have hne : ∀ i c, (c, some i) ∈ (acquire b none A).acquired → c ≠ b := by
    rintro i c hc rfl
    cases hleft.kept.owner hc (mem_acquire.mpr (.inr ⟨rfl, rfl⟩))
  constructor
  · exact hleft.kept.settle (known_acquire.mpr (.inr rfl))
  · intro i c hc
    obtain ⟨hmem, hzero⟩ := hleft.owned i c hc
    exact ⟨hmem, by simp [settle, hne i c hmem, hzero]⟩
  · intro i c hc
    exact (hleft.given i c hc).imp_right (fun ht => by simp [settle, hne i c hc, ht])

/-- What came to owners that returned at once has been settled once. -/
def Passed (A : Account β (Option ι)) : Prop := ∀ b, (b, none) ∈ A.acquired → A.times b = 1

/-- Once the owners in progress are accounted for, everything depends on the
things without one. -/
theorem Held.exact_iff {returned : Option ι → Prop} (h : Held holds A)
    (hidle : ∀ i, returned (some i) → holds i = none) (hnone : returned none) :
    Exact returned A ↔ Passed A := by
  constructor
  · intro hexact b hb
    exact (hexact b none hb).2 hnone
  · intro hall b o hb
    cases o with
    | none => exact ⟨Nat.le_of_eq (hall b hb), fun _ => hall b hb⟩
    | some i =>
      obtain hi | ht := h.given i b hb
      · refine ⟨by rw [(h.owned i b hi).2]; exact Nat.zero_le 1, fun hr => ?_⟩
        rw [hidle i hr] at hi
        cases hi
      · exact ⟨Nat.le_of_eq ht, fun _ => ht⟩

theorem Passed.borrow (h : Passed A) (i : ι) : Passed (acquire b (some i) A) := by
  intro c hc
  obtain hc | ⟨-, hn⟩ := mem_acquire.mp hc
  · exact h c hc
  · cases hn

theorem Passed.release [DecidableEq β] (h : Passed A) (hheld : Held holds A)
    (hi : holds i = some b) : Passed (settle b A) := by
  intro c hc
  have hne : c ≠ b := by
    rintro rfl
    cases hheld.kept.owner hc (hheld.owned i c hi).1
  simp [settle, hne, h c hc]

theorem Passed.pass [DecidableEq β] (h : Passed A) (hkept : Kept A) (hb : ¬ Known A b) :
    Passed (settle b (acquire b none A)) := by
  intro c hc
  obtain hold | ⟨rfl, -⟩ := mem_acquire.mp hc
  · have hne : c ≠ b := by
      rintro rfl
      exact hb ⟨none, hold⟩
    simp [settle, acquire, hne, h c hold]
  · simp [settle, acquire, hkept.unknown c hb]

/-- What is left unsettled shows. -/
theorem not_passed_leave (hkept : Kept A) (hb : ¬ Known A b) : ¬ Passed (acquire b none A) := by
  intro h
  have hone := h b (mem_acquire.mpr (.inr ⟨rfl, rfl⟩))
  rw [show (acquire b none A).times b = 0 from hkept.unknown b hb] at hone
  cases hone

end Held

end Ledger
