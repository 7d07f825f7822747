import Mathlib.Data.List.Basic
import Mathlib.Logic.Function.Basic

/-!
# Tickets that are issued, used in their order and voided

A history is a list of marks, the oldest first. Each use takes a ticket of its
own, and voiding spoils every ticket that has been issued and not yet used.
-/
namespace Tickets

inductive Mark where
  | issue | use | void
  deriving DecidableEq, Repr

/-- Every use has the position of a ticket that was issued before it and not
voided since, and later uses have later tickets. -/
structure Assigns (marks : List Mark) (f : Nat → Nat) : Prop where
  before : ∀ j, marks[j]? = some .use → f j < j
  issued : ∀ j, marks[j]? = some .use → marks[f j]? = some .issue
  valid : ∀ j, marks[j]? = some .use → ∀ k, f j < k → k < j → marks[k]? ≠ some .void
  ordered : ∀ j j', marks[j]? = some .use → marks[j']? = some .use → j < j' → f j < f j'

/-- Tickets that were issued after all that have been used, and are not void. -/
structure Left (marks : List Mark) (f : Nat → Nat) (ps : List Nat) : Prop where
  sorted : ps.Pairwise (· < ·)
  issued : ∀ p ∈ ps, marks[p]? = some .issue
  later : ∀ p ∈ ps, ∀ j, marks[j]? = some .use → f j < p
  valid : ∀ p ∈ ps, ∀ k, p < k → marks[k]? ≠ some .void

/-- The uses can be assigned so that `n` tickets are left. -/
def Spare (marks : List Mark) (n : Nat) : Prop :=
  ∃ f ps, Assigns marks f ∧ Left marks f ps ∧ ps.length = n ∧
    marks.count .use + n ≤ marks.count .issue

variable {marks : List Mark} {f : Nat → Nat} {ps : List Nat} {m x : Mark} {j n p : Nat}

theorem snoc_eq_some : (marks ++ [m])[j]? = some x ↔
    marks[j]? = some x ∨ j = marks.length ∧ m = x := by
  rw [List.getElem?_append]
  split
  · rename_i hlt
    constructor
    · exact .inl
    · rintro (h | ⟨rfl, -⟩)
      · exact h
      · omega
  · rename_i hge
    rw [List.getElem?_eq_none (by omega : marks.length ≤ j)]
    by_cases hj : j = marks.length
    · subst hj
      simp
    · rw [List.getElem?_eq_none (by simp; omega)]
      simp [hj]

theorem lt_of_eq_some (h : marks[j]? = some x) : j < marks.length :=
  (List.getElem?_eq_some_iff.mp h).1

theorem use_of_snoc (hm : m ≠ .use) (h : (marks ++ [m])[j]? = some .use) :
    marks[j]? = some .use := by
  obtain h | ⟨-, he⟩ := snoc_eq_some.mp h
  · exact h
  · exact absurd he hm

/-- A mark that is no use changes nothing for the uses before it. -/
theorem Assigns.snoc (h : Assigns marks f) (hm : m ≠ .use) : Assigns (marks ++ [m]) f := by
  constructor
  · exact fun j hj => h.before j (use_of_snoc hm hj)
  · exact fun j hj => snoc_eq_some.mpr (.inl (h.issued j (use_of_snoc hm hj)))
  · intro j hj k hk hkj hvoid
    obtain hvoid | ⟨rfl, -⟩ := snoc_eq_some.mp hvoid
    · exact h.valid j (use_of_snoc hm hj) k hk hkj hvoid
    · have := lt_of_eq_some (use_of_snoc hm hj)
      omega
  · exact fun j j' hj hj' => h.ordered j j' (use_of_snoc hm hj) (use_of_snoc hm hj')

/-- The first ticket that is left is used. -/
theorem Assigns.use (h : Assigns marks f) (hl : Left marks f (p :: ps)) :
    Assigns (marks ++ [.use]) (Function.update f marks.length p) := by
  have hp : marks[p]? = some .issue := hl.issued p List.mem_cons_self
  have hold : ∀ j, marks[j]? = some .use → Function.update f marks.length p j = f j := by
    intro j hj
    exact Function.update_of_ne (Nat.ne_of_lt (lt_of_eq_some hj)) ..
  constructor
  · intro j hj
    obtain hj | ⟨rfl, -⟩ := snoc_eq_some.mp hj
    · rw [hold j hj]
      exact h.before j hj
    · rw [Function.update_self]
      exact lt_of_eq_some hp
  · intro j hj
    obtain hj | ⟨rfl, -⟩ := snoc_eq_some.mp hj
    · rw [hold j hj]
      exact snoc_eq_some.mpr (.inl (h.issued j hj))
    · rw [Function.update_self]
      exact snoc_eq_some.mpr (.inl hp)
  · intro j hj k hk hkj hvoid
    obtain hvoid | ⟨-, hne⟩ := snoc_eq_some.mp hvoid
    · obtain hj | ⟨rfl, -⟩ := snoc_eq_some.mp hj
      · rw [hold j hj] at hk
        exact h.valid j hj k hk hkj hvoid
      · rw [Function.update_self] at hk
        exact hl.valid p List.mem_cons_self k hk hvoid
    · cases hne
  · intro j j' hj hj' hlt
    obtain hj' | ⟨rfl, -⟩ := snoc_eq_some.mp hj'
    · obtain hj | ⟨rfl, -⟩ := snoc_eq_some.mp hj
      · rw [hold j hj, hold j' hj']
        exact h.ordered j j' hj hj' hlt
      · have := lt_of_eq_some hj'
        omega
    · obtain hj | ⟨rfl, -⟩ := snoc_eq_some.mp hj
      · rw [hold j hj, Function.update_self]
        exact hl.later p List.mem_cons_self j hj
      · omega

theorem Left.use (h : Left marks f (p :: ps)) :
    Left (marks ++ [.use]) (Function.update f marks.length p) ps := by
  obtain ⟨hfirst, hsorted⟩ := List.pairwise_cons.mp h.sorted
  constructor
  · exact hsorted
  · exact fun q hq => snoc_eq_some.mpr (.inl (h.issued q (List.mem_cons_of_mem p hq)))
  · intro q hq j hj
    obtain hj | ⟨rfl, -⟩ := snoc_eq_some.mp hj
    · rw [Function.update_of_ne (Nat.ne_of_lt (lt_of_eq_some hj))]
      exact h.later q (List.mem_cons_of_mem p hq) j hj
    · rw [Function.update_self]
      exact hfirst q hq
  · intro q hq k hk hvoid
    obtain hvoid | ⟨-, hne⟩ := snoc_eq_some.mp hvoid
    · exact h.valid q (List.mem_cons_of_mem p hq) k hk hvoid
    · cases hne

theorem Left.issue (h : Left marks f ps) (ha : Assigns marks f) :
    Left (marks ++ [.issue]) f (ps ++ [marks.length]) := by
  constructor
  · refine List.pairwise_append.mpr ⟨h.sorted, List.pairwise_singleton .., ?_⟩
    intro q hq r hr
    obtain rfl := List.mem_singleton.mp hr
    exact lt_of_eq_some (h.issued q hq)
  · intro q hq
    obtain hq | hq := List.mem_append.mp hq
    · exact snoc_eq_some.mpr (.inl (h.issued q hq))
    · exact snoc_eq_some.mpr (.inr ⟨List.mem_singleton.mp hq, rfl⟩)
  · intro q hq j hj
    have hj := use_of_snoc (by decide) hj
    obtain hq | hq := List.mem_append.mp hq
    · exact h.later q hq j hj
    · rw [List.mem_singleton.mp hq]
      exact Nat.lt_trans (ha.before j hj) (lt_of_eq_some hj)
  · intro q hq k hk hvoid
    obtain hvoid | ⟨-, hne⟩ := snoc_eq_some.mp hvoid
    · obtain hq | hq := List.mem_append.mp hq
      · exact h.valid q hq k hk hvoid
      · rw [List.mem_singleton.mp hq] at hk
        have := lt_of_eq_some hvoid
        omega
    · cases hne

@[simp] theorem count_snoc : (marks ++ [m]).count x = marks.count x + if m = x then 1 else 0 := by
  by_cases hmx : m = x
  · simp [hmx]
  · simp [hmx]

theorem spare_nil : Spare [] 0 :=
  ⟨id, [], ⟨by simp, by simp, by simp, by simp⟩, ⟨.nil, by simp, by simp, by simp⟩, rfl, by simp⟩

theorem Spare.issue (h : Spare marks n) : Spare (marks ++ [.issue]) (n + 1) := by
  obtain ⟨f, ps, ha, hl, hlen, hcount⟩ := h
  refine ⟨f, ps ++ [marks.length], ha.snoc (by decide), hl.issue ha, by simp [hlen], ?_⟩
  simp only [count_snoc, if_true, reduceCtorEq, if_false]
  omega

theorem Spare.use (h : Spare marks (n + 1)) : Spare (marks ++ [.use]) n := by
  obtain ⟨f, ps, ha, hl, hlen, hcount⟩ := h
  obtain ⟨p, ps, rfl⟩ := List.exists_cons_of_length_eq_add_one hlen
  refine ⟨_, ps, ha.use hl, hl.use, by simpa using hlen, ?_⟩
  simp only [count_snoc, if_true, reduceCtorEq, if_false]
  omega

/-- After voiding, no ticket is left. -/
theorem Spare.void (h : Spare marks n) : Spare (marks ++ [.void]) 0 := by
  obtain ⟨f, ps, ha, hl, hlen, hcount⟩ := h
  refine ⟨f, [], ha.snoc (by decide), ⟨.nil, by simp, by simp, by simp⟩, rfl, ?_⟩
  simp only [count_snoc, reduceCtorEq, if_false]
  omega

/-- Tickets may be thrown away. -/
theorem Spare.mono {k : Nat} (h : Spare marks n) (hk : k ≤ n) : Spare marks k := by
  obtain ⟨f, ps, ha, hl, hlen, hcount⟩ := h
  refine ⟨f, ps.take k, ha, ⟨?_, ?_, ?_, ?_⟩, by simp; omega, by omega⟩
  · exact hl.sorted.sublist (List.take_sublist k ps)
  · exact fun p hp => hl.issued p (List.mem_of_mem_take hp)
  · exact fun p hp => hl.later p (List.mem_of_mem_take hp)
  · exact fun p hp => hl.valid p (List.mem_of_mem_take hp)

/-- Between voiding and a use, a ticket is issued. -/
theorem Assigns.issue_between {k : Nat} (h : Assigns marks f) (hk : marks[k]? = some .void)
    (hj : marks[j]? = some .use) (hlt : k < j) :
    ∃ i, k < i ∧ i < j ∧ marks[i]? = some .issue := by
  refine ⟨f j, ?_, h.before j hj, h.issued j hj⟩
  by_contra hle
  obtain heq | hlt' : f j = k ∨ f j < k := by omega
  · have hissued := h.issued j hj
    rw [heq, hk] at hissued
    cases hissued
  · exact h.valid j hj k hlt' hlt hk

end Tickets
