import Mathlib.Logic.Function.Basic

/-!
# Blocks that are asked for and given back with their layout

An allocator does not look up how large a block is, so a caller that resizes
or returns one has to say what it is. A call that breaks the contract has no
result. Where a block is put and what its new bytes hold is up to the
allocator.
-/
namespace GlobalAlloc

/-- A target with a largest `isize`, of at least 16 bits. -/
structure Target where
  isizeMax : Nat
  wide : 32767 ≤ isizeMax

variable {T : Target} {π : Type} {null : π}

/-- Rounded up to the alignment, the size is an `isize`. -/
@[ext] structure Layout (T : Target) where
  size : Nat
  align : Nat
  power : align.isPowerOfTwo
  fits : size + (align - 1) ≤ T.isizeMax
  deriving DecidableEq

def Layout.fromSizeAlign (T : Target) (size align : Nat) : Option (Layout T) :=
  if h : align.isPowerOfTwo ∧ size + (align - 1) ≤ T.isizeMax then
    some ⟨size, align, h.1, h.2⟩
  else none

theorem Layout.fromSizeAlign_eq {size align : Nat} (hpower : align.isPowerOfTwo)
    (hfits : size + (align - 1) ≤ T.isizeMax) :
    fromSizeAlign T size align = some ⟨size, align, hpower, hfits⟩ := by
  simp [fromSizeAlign, hpower, hfits]

structure Block (T : Target) where
  layout : Layout T
  bytes : List UInt8
  length : bytes.length = layout.size
  nonempty : 0 < layout.size

def Block.zeroed (layout : Layout T) (h : 0 < layout.size) : Block T :=
  ⟨layout, List.replicate layout.size 0, List.length_replicate, h⟩

def Block.set (b : Block T) (i : Nat) (byte : UInt8) : Block T :=
  ⟨b.layout, b.bytes.set i byte, by rw [List.length_set, b.length], b.nonempty⟩

/-- The block at another size, with the same alignment. -/
def Block.resize (b : Block T) (newSize : Nat) (fill : List UInt8) (hnew : 0 < newSize)
    (hfits : newSize + (b.layout.align - 1) ≤ T.isizeMax)
    (hfill : fill.length = newSize - b.layout.size) : Block T where
  layout := ⟨newSize, b.layout.align, b.layout.power, hfits⟩
  bytes := b.bytes.take newSize ++ fill
  length := by
    have := b.length
    simp only [List.length_append, List.length_take]
    omega
  nonempty := hnew

@[simp] theorem resize_bytes_take (b : Block T) {newSize : Nat} {fill : List UInt8} (hnew hfits)
    (hfill : fill.length = newSize - b.layout.size) :
    (b.resize newSize fill hnew hfits hfill).bytes.take (min b.layout.size newSize) =
      b.bytes.take (min b.layout.size newSize) := by
  have hlen := b.length
  rw [Block.resize, List.take_append_of_le_length, List.take_take]
  · congr 1
    omega
  · rw [List.length_take]
    omega

/-- The live blocks, none of them at the null pointer. -/
structure Heap (T : Target) {π : Type} (null : π) where
  block : π → Option (Block T)
  block_null : block null = none

namespace Heap

def empty : Heap T null := ⟨fun _ => none, rfl⟩

def layoutAt (s : Heap T null) (ptr : π) : Option (Layout T) := (s.block ptr).map (·.layout)

theorem layoutAt_eq_some {s : Heap T null} {ptr : π} {layout : Layout T} :
    s.layoutAt ptr = some layout ↔ ∃ b, s.block ptr = some b ∧ b.layout = layout := by
  simp [layoutAt]

variable [DecidableEq π]

def put (s : Heap T null) (ptr : π) (b : Block T) (h : ptr ≠ null) : Heap T null where
  block := Function.update s.block ptr (some b)
  block_null := by rw [Function.update_of_ne h.symm, s.block_null]

def remove (s : Heap T null) (ptr : π) : Heap T null where
  block := Function.update s.block ptr none
  block_null := by
    by_cases h : ptr = null
    · rw [h, Function.update_self]
    · rw [Function.update_of_ne (Ne.symm h), s.block_null]

/-- A byte of a block is stored to. -/
def store (s : Heap T null) (ptr : π) (i : Nat) (byte : UInt8) : Heap T null where
  block := Function.update s.block ptr ((s.block ptr).map (·.set i byte))
  block_null := by
    by_cases h : ptr = null
    · rw [h, Function.update_self, s.block_null]
      rfl
    · rw [Function.update_of_ne (Ne.symm h), s.block_null]

section Updates

variable (s : Heap T null) (ptr p : π) (b : Block T) (i : Nat) (byte : UInt8)

@[simp] theorem put_self (h : ptr ≠ null) : (s.put ptr b h).block ptr = some b :=
  Function.update_self ..

theorem put_other (h : ptr ≠ null) (hp : p ≠ ptr) : (s.put ptr b h).block p = s.block p :=
  Function.update_of_ne hp ..

@[simp] theorem remove_self : (s.remove ptr).block ptr = none := Function.update_self ..

theorem remove_other (hp : p ≠ ptr) : (s.remove ptr).block p = s.block p :=
  Function.update_of_ne hp ..

@[simp] theorem store_self :
    (s.store ptr i byte).block ptr = (s.block ptr).map (·.set i byte) := Function.update_self ..

theorem store_other (hp : p ≠ ptr) : (s.store ptr i byte).block p = s.block p :=
  Function.update_of_ne hp ..

/-- Storing to a block changes no layout. -/
@[simp] theorem store_layoutAt : (s.store ptr i byte).layoutAt p = s.layoutAt p := by
  by_cases hp : p = ptr
  · subst hp
    rw [layoutAt, layoutAt, store_self]
    cases s.block p <;> rfl
  · rw [layoutAt, layoutAt, store_other s ptr p i byte hp]

end Updates

end Heap

inductive Call (T : Target) (π : Type) where
  | allocZeroed (layout : Layout T)
  | dealloc (ptr : π) (layout : Layout T)
  | realloc (ptr : π) (layout : Layout T) (newSize : Nat)

def Call.layout : Call T π → Layout T
  | .allocZeroed layout | .dealloc _ layout | .realloc _ layout _ => layout

variable [DecidableEq π]

/-- The contract: no block is empty, and what is said of a block is what it is. -/
def Allowed (s : Heap T null) : Call T π → Prop
  | .allocZeroed layout => 0 < layout.size
  | .dealloc ptr layout => s.layoutAt ptr = some layout
  | .realloc ptr layout newSize => s.layoutAt ptr = some layout ∧ 0 < newSize ∧
    newSize + (layout.align - 1) ≤ T.isizeMax

instance (s : Heap T null) : (call : Call T π) → Decidable (Allowed s call)
  | .allocZeroed _ => inferInstanceAs (Decidable (_ < _))
  | .dealloc _ _ => inferInstanceAs (Decidable (_ = _))
  | .realloc _ _ _ => inferInstanceAs (Decidable (_ ∧ _))

/-- A null pointer says that there is no memory. The bytes are what a block
holds beyond its former size. -/
structure Answer (π : Type) where
  ptr : π
  fill : List UInt8

/-- What a call does to the heap, if it is allowed and the answer is one that
an allocator may give. -/
def perform (call : Call T π) (answer : Answer π) (s : Heap T null) : Option (Heap T null) :=
  match call with
  | .allocZeroed layout =>
    if h : 0 < layout.size then
      if hptr : answer.ptr = null then some s
      else if s.block answer.ptr = none then some (s.put answer.ptr (.zeroed layout h) hptr)
      else none
    else none
  | .dealloc ptr layout =>
    if s.layoutAt ptr = some layout then some (s.remove ptr) else none
  | .realloc ptr layout newSize =>
    match s.block ptr with
    | none => none
    | some b =>
      if h : b.layout = layout ∧ 0 < newSize ∧ newSize + (b.layout.align - 1) ≤ T.isizeMax then
        if hptr : answer.ptr = null then some s
        else if hans : (answer.ptr = ptr ∨ s.block answer.ptr = none) ∧
            answer.fill.length = newSize - b.layout.size then
          some ((s.remove ptr).put answer.ptr
            (b.resize newSize answer.fill h.2.1 h.2.2 hans.2) hptr)
        else none
      else none

variable {s t : Heap T null} {ptr p : π} {b old new : Block T} {layout : Layout T} {newSize : Nat}
  {answer : Answer π} {call : Call T π}

theorem allocZeroed_cases (h : perform (.allocZeroed layout) answer s = some t) :
    0 < layout.size ∧ (t = s ∨ ∃ hptr hsize, t = s.put answer.ptr (.zeroed layout hsize) hptr) := by
  rw [perform] at h
  split at h
  · rename_i hsize
    split at h
    · cases h
      exact ⟨hsize, .inl rfl⟩
    · rename_i hptr
      split at h
      · cases h
        exact ⟨hsize, .inr ⟨hptr, hsize, rfl⟩⟩
      · cases h
  · cases h

theorem realloc_cases (h : perform (.realloc ptr layout newSize) answer s = some t) :
    ∃ old, s.block ptr = some old ∧ old.layout = layout ∧ 0 < newSize ∧
      newSize + (layout.align - 1) ≤ T.isizeMax ∧ (answer.ptr = null ∧ t = s ∨
        ∃ hptr hnew hfits hfill, t = (s.remove ptr).put answer.ptr
          (old.resize newSize answer.fill hnew hfits hfill) hptr) := by
  rw [perform] at h
  split at h
  · cases h
  · rename_i old hold
    split at h
    · rename_i hallowed
      obtain ⟨rfl, hnew, hfits⟩ := hallowed
      split at h
      · rename_i hptr
        cases h
        exact ⟨old, hold, rfl, hnew, hfits, .inl ⟨hptr, rfl⟩⟩
      · rename_i hptr
        split at h
        · rename_i hans
          cases h
          exact ⟨old, hold, rfl, hnew, hfits, .inr ⟨hptr, hnew, hfits, hans.2, rfl⟩⟩
        · cases h
    · cases h

theorem put_block {h : ptr ≠ null} (hp : (s.put ptr b h).block p = some new) :
    s.block p = some new ∨ new = b := by
  by_cases hptr : p = ptr
  · subst hptr
    rw [Heap.put_self] at hp
    exact .inr (Option.some.inj hp).symm
  · rw [Heap.put_other s ptr p b h hptr] at hp
    exact .inl hp

theorem remove_block (hp : (s.remove ptr).block p = some b) : s.block p = some b := by
  by_cases hptr : p = ptr
  · subst hptr
    rw [Heap.remove_self] at hp
    cases hp
  · rwa [Heap.remove_other s ptr p hptr] at hp

/-- A call has a result for some answer exactly if it is allowed. -/
theorem allowed_iff : Allowed s call ↔ ∃ answer t, perform call answer s = some t := by
  cases call with
  | allocZeroed layout =>
    constructor
    · intro h
      exact ⟨⟨null, []⟩, s, by simp [perform, show 0 < layout.size from h]⟩
    · intro ⟨answer, t, h⟩
      exact (allocZeroed_cases h).1
  | dealloc ptr layout =>
    constructor
    · intro h
      exact ⟨⟨null, []⟩, s.remove ptr, if_pos h⟩
    · intro ⟨answer, t, h⟩
      exact (Option.ite_none_right_eq_some.mp h).1
  | realloc ptr layout newSize =>
    constructor
    · intro ⟨hlayout, hnew, hfits⟩
      obtain ⟨b, hb, rfl⟩ := Heap.layoutAt_eq_some.mp hlayout
      exact ⟨⟨null, []⟩, s, by simp [perform, hb, hnew, hfits]⟩
    · intro ⟨answer, t, h⟩
      obtain ⟨old, hold, hlayout, hnew, hfits, -⟩ := realloc_cases h
      exact ⟨Heap.layoutAt_eq_some.mpr ⟨old, hold, hlayout⟩, hnew, hfits⟩

/-- A block of which the heap did not know has the alignment asked for. -/
theorem perform_align (h : perform call answer s = some t) (hb : t.block p = some b) :
    s.block p = some b ∨ b.layout.align = call.layout.align := by
  cases call with
  | allocZeroed layout =>
    obtain ⟨-, rfl | ⟨hptr, hsize, rfl⟩⟩ := allocZeroed_cases h
    · exact .inl hb
    · apply (put_block hb).imp_right
      rintro rfl
      rfl
  | dealloc ptr layout =>
    cases (Option.ite_none_right_eq_some.mp h).2
    exact .inl (remove_block hb)
  | realloc ptr layout newSize =>
    obtain ⟨old, -, rfl, -, -, ⟨-, rfl⟩ | ⟨hptr, hnew, hfits, hfill, rfl⟩⟩ := realloc_cases h
    · exact .inl hb
    · apply (put_block hb).imp remove_block
      rintro rfl
      rfl

/-- What a block holds goes with it as far as it fits. -/
theorem realloc_keeps (h : perform (.realloc ptr layout newSize) answer s = some t)
    (hold : s.block ptr = some old) (hans : answer.ptr ≠ null)
    (hnew : t.block answer.ptr = some new) :
    new.bytes.take (min old.layout.size newSize) =
      old.bytes.take (min old.layout.size newSize) := by
  obtain ⟨old', hold', -, -, -, ⟨hnull, -⟩ | ⟨hptr, hpos, hfits, hfill, rfl⟩⟩ := realloc_cases h
  · exact absurd hnull hans
  · cases hold.symm.trans hold'
    rw [Heap.put_self] at hnew
    cases hnew
    exact resize_bytes_take old hpos hfits hfill

end GlobalAlloc
