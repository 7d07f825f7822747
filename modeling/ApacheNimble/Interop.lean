import ApacheNimble.Transition
import ApacheNimble.PortLayer
import ApacheNimble.GlobalAlloc

/-!
# `malloc`, `realloc` and `free` over the Rust allocator

C gives a block back by its pointer alone. The three functions have to say to
the allocator what the block is, and keep no record of it.
-/
namespace Interop

open PortLayer GlobalAlloc Transition

variable {T : Target} {s t : Heap T nullMut}

/-- `Layout::new::<u16>()` -/
def newU16 (T : Target) : Layout T :=
  ⟨2, 2, by decide, by have := T.wide; omega⟩

def free (T : Target) (ptr : Ptr) : Call T Ptr := .dealloc ptr (newU16 T)

/-- The layout is made of the new size, and the allocator is called with it. -/
def realloc (T : Target) (ptr : Ptr) (size : Nat) : Option (Call T Ptr) :=
  (Layout.fromSizeAlign T size 16).map (fun layout => .realloc ptr layout size)

def malloc (T : Target) (amt : Nat) : Option (Call T Ptr) :=
  (Layout.fromSizeAlign T amt 16).map (fun layout => .allocZeroed layout)

/-- The calls that a C program makes, with what the allocator answers, and its
stores to its blocks. -/
inductive Label where
  | malloc (amt : Nat) (answer : Answer Ptr)
  | realloc (ptr : Ptr) (size : Nat) (answer : Answer Ptr)
  | free (ptr : Ptr)
  | store (ptr : Ptr) (i : Nat) (byte : UInt8)

/-- Undefined where a function panics and where it breaks the contract of the
allocator. -/
def step (l : Label) (s : Heap T nullMut) : Option (Heap T nullMut) :=
  match l with
  | .malloc amt answer => (malloc T amt).bind (fun call => perform call answer s)
  | .realloc ptr size answer => (realloc T ptr size).bind (fun call => perform call answer s)
  | .free ptr => perform (free T ptr) ⟨nullMut, []⟩ s
  | .store ptr i byte => some (s.store ptr i byte)

/-- The pointer is null or that of a block. -/
def LegalPtr (ptr : Ptr) (s : Heap T nullMut) : Prop := ptr = nullMut ∨ (s.block ptr).isSome

instance (ptr : Ptr) (s : Heap T nullMut) : Decidable (LegalPtr ptr s) :=
  inferInstanceAs (Decidable (_ ∨ _))

/-- What C allows, with sizes that can be rounded up to the alignment. -/
def Legal (l : Label) (s : Heap T nullMut) : Prop :=
  match l with
  | .malloc amt _ => amt ≤ T.isizeMax - 15
  | .realloc ptr size _ => LegalPtr ptr s ∧ size ≤ T.isizeMax - 15
  | .free ptr => LegalPtr ptr s
  | .store ptr i _ => ∃ b ∈ s.block ptr, i < b.layout.size

instance (s : Heap T nullMut) : (l : Label) → Decidable (Legal l s)
  | .malloc _ _ => inferInstanceAs (Decidable (_ ≤ _))
  | .realloc _ _ _ => inferInstanceAs (Decidable (_ ∧ _))
  | .free ptr => inferInstanceAs (Decidable (LegalPtr ptr s))
  | .store ptr i _ => inferInstanceAs (Decidable (∃ b ∈ s.block ptr, i < b.layout.size))

/-- The block that a `realloc` returns begins with what the old one held. -/
def Keeps (ptr : Ptr) (size : Nat) (answer : Answer Ptr) (s : Heap T nullMut) : Prop :=
  ∀ t old new, step (.realloc ptr size answer) s = some t → answer.ptr ≠ nullMut →
    s.block ptr = some old → t.block answer.ptr = some new →
    new.bytes.take (min old.layout.size size) = old.bytes.take (min old.layout.size size)

/-- The call of the allocator that is made is allowed. -/
def Respects (l : Label) (s : Heap T nullMut) : Prop :=
  match l with
  | .malloc amt _ => ∃ call, malloc T amt = some call ∧ Allowed s call
  | .realloc ptr size answer =>
    (∃ call, realloc T ptr size = some call ∧ Allowed s call) ∧ Keeps ptr size answer s
  | .free ptr => Allowed s (free T ptr)
  | .store _ _ _ => True

/-- Something is allocated, or a block is resized to the size that it has. -/
def Harmless (l : Label) (s : Heap T nullMut) : Prop :=
  match l with
  | .malloc amt _ => 0 < amt
  | .realloc ptr size _ => ∃ b ∈ s.block ptr, b.layout.size = size
  | .free _ => False
  | .store _ _ _ => True

instance (s : Heap T nullMut) : (l : Label) → Decidable (Harmless l s)
  | .malloc _ _ => inferInstanceAs (Decidable (_ < _))
  | .realloc ptr size _ => inferInstanceAs (Decidable (∃ b ∈ s.block ptr, b.layout.size = size))
  | .free _ => inferInstanceAs (Decidable False)
  | .store _ _ _ => inferInstanceAs (Decidable True)

/-- Every block has been allocated with the alignment of `malloc`. -/
def Aligned (s : Heap T nullMut) : Prop :=
  ∀ ptr layout, s.layoutAt ptr = some layout → layout.align = 16

theorem fromSizeAlign_sixteen {size : Nat} (h : size ≤ T.isizeMax - 15) :
    ∃ layout, Layout.fromSizeAlign T size 16 = some layout ∧ layout.size = size ∧
      layout.align = 16 := by
  have hwide := T.wide
  have hfits : size + (16 - 1) ≤ T.isizeMax := by omega
  exact ⟨_, Layout.fromSizeAlign_eq (by decide) hfits, rfl, rfl⟩

theorem fromSizeAlign_align {size align : Nat} {layout : Layout T}
    (h : Layout.fromSizeAlign T size align = some layout) : layout.align = align := by
  unfold Layout.fromSizeAlign at h
  split at h
  · cases h
    rfl
  · cases h

theorem malloc_iff {amt : Nat} (h : amt ≤ T.isizeMax - 15) :
    (∃ call, malloc T amt = some call ∧ Allowed s call) ↔ 0 < amt := by
  obtain ⟨layout, hlayout, hsize, -⟩ := fromSizeAlign_sixteen h
  simp [malloc, hlayout, Allowed, hsize]

/-- What the allocator is told is the new size, so only that can be the old one. -/
theorem realloc_iff {ptr : Ptr} {size : Nat} (hs : Aligned s) (h : size ≤ T.isizeMax - 15) :
    (∃ call, realloc T ptr size = some call ∧ Allowed s call) ↔
      ∃ b ∈ s.block ptr, b.layout.size = size := by
  obtain ⟨layout, hlayout, hsize, halign⟩ := fromSizeAlign_sixteen h
  simp only [realloc, hlayout, Option.map_some, Option.some.injEq, exists_eq_left', Allowed]
  constructor
  · intro ⟨hat, _⟩
    obtain ⟨b, hb, rfl⟩ := Heap.layoutAt_eq_some.mp hat
    exact ⟨b, hb, hsize⟩
  · intro ⟨b, hb, hbsize⟩
    have hat : s.layoutAt ptr = some b.layout := Heap.layoutAt_eq_some.mpr ⟨b, hb, rfl⟩
    have hsame : b.layout = layout := by
      apply Layout.ext
      · rw [hbsize, hsize]
      · rw [hs ptr b.layout hat, halign]
    rw [← hsame]
    have hpos := b.nonempty
    have hfits := b.layout.fits
    rw [hbsize] at hpos hfits
    exact ⟨hat, hpos, hfits⟩

theorem realloc_keeps_bytes (ptr : Ptr) (size : Nat) (answer : Answer Ptr) (s : Heap T nullMut) :
    Keeps ptr size answer s := by
  intro t old new hstep hans hold hnew
  obtain ⟨call, hcall, hperform⟩ := Option.bind_eq_some_iff.mp hstep
  obtain ⟨layout, -, rfl⟩ := Option.map_eq_some_iff.mp hcall
  exact realloc_keeps hperform hold hans hnew

/-- No block has the layout of a `u16`. -/
theorem not_allowed_free (hs : Aligned s) (ptr : Ptr) : ¬ Allowed s (free T ptr) := by
  intro h
  have halign := hs ptr (newU16 T) h
  cases halign

/-- What a step of a legal program asks of the allocator is allowed exactly if
the step is harmless. -/
theorem respects_iff {l : Label} (hs : Aligned s) (hlegal : Legal l s) :
    Respects l s ↔ Harmless l s := by
  cases l with
  | malloc amt answer => exact malloc_iff hlegal
  | realloc ptr size answer =>
    rw [Respects, Harmless, realloc_iff hs hlegal.2]
    exact and_iff_left (realloc_keeps_bytes ptr size answer s)
  | free ptr => exact iff_of_false (not_allowed_free hs ptr) id
  | store ptr i byte => exact Iff.rfl

theorem perform_aligned {call : Call T Ptr} {answer : Answer Ptr} (hs : Aligned s)
    (hcall : call.layout.align = 16) (h : perform call answer s = some t) : Aligned t := by
  intro ptr layout hat
  obtain ⟨b, hb, rfl⟩ := Heap.layoutAt_eq_some.mp hat
  cases perform_align h hb with
  | inl hold => exact hs ptr b.layout (Heap.layoutAt_eq_some.mpr ⟨b, hold, rfl⟩)
  | inr hnew => rw [hnew, hcall]

/-- Whatever is asked for with a layout of 16 is aligned like the rest. -/
theorem sixteen_aligned {size : Nat} {toCall : Layout T → Call T Ptr} {answer : Answer Ptr}
    (hcall : ∀ layout, (toCall layout).layout = layout) (hs : Aligned s)
    (h : ((Layout.fromSizeAlign T size 16).map toCall).bind
      (fun call => perform call answer s) = some t) : Aligned t := by
  obtain ⟨call, hmap, hperform⟩ := Option.bind_eq_some_iff.mp h
  obtain ⟨layout, hlayout, rfl⟩ := Option.map_eq_some_iff.mp hmap
  apply perform_aligned hs _ hperform
  rw [hcall]
  exact fromSizeAlign_align hlayout

theorem step_aligned {l : Label} (hs : Aligned s) (hstep : step l s = some t) : Aligned t := by
  cases l with
  | malloc amt answer => exact sixteen_aligned (fun _ => rfl) hs hstep
  | realloc ptr size answer => exact sixteen_aligned (fun _ => rfl) hs hstep
  | free ptr =>
    have hallowed : Allowed s (free T ptr) := allowed_iff.mpr ⟨⟨nullMut, []⟩, t, hstep⟩
    exact absurd hallowed (not_allowed_free hs ptr)
  | store ptr i byte =>
    cases hstep
    intro p layout hat
    rw [Heap.store_layoutAt] at hat
    exact hs p layout hat

/-- A legal program breaks the contract of the allocator at its first call that
is a `free`, a `malloc` of nothing, or a `realloc` of null or to another size
than the block has, and nowhere else. -/
theorem respects_iff_harmless (T : Target) (ls : List Label)
    (hlegal : Along step Legal ls (Heap.empty : Heap T nullMut)) :
    Along step Respects ls (Heap.empty : Heap T nullMut) ↔
      Along step Harmless ls (Heap.empty : Heap T nullMut) := by
  have hstart : Aligned (Heap.empty : Heap T nullMut) := nofun
  exact along_congr (fun _ _ _ hs _ hstep => step_aligned hs hstep)
    (fun _ _ hs hlegal => respects_iff hs hlegal) hstart hlegal

def arm : Target := ⟨2147483647, by decide⟩

/-- A block is moved at its size, and there is no memory for another. -/
def sameSize : List Label :=
  [.malloc 8 ⟨16, []⟩, .store 16 0 7, .realloc 16 8 ⟨32, []⟩, .malloc 4 ⟨nullMut, []⟩]

theorem respects_iff_harmless_same :
    (run step sameSize (Heap.empty : Heap arm nullMut)).isSome ∧
    Along step Respects sameSize (Heap.empty : Heap arm nullMut) := by
  refine ⟨rfl, (respects_iff_harmless arm sameSize ?_).mpr ?_⟩
  · iterate 3 refine along_of_step (by decide) rfl ?_
    exact along_of_step (by decide) rfl trivial
  · iterate 3 refine along_of_step (by decide) rfl ?_
    exact along_of_step (by decide) rfl trivial

/-- A block of eight bytes is given back as one of two, or resized as if it had
sixteen already. -/
theorem layouts_differ :
    Along step Legal [.malloc 8 ⟨16, []⟩, .free 16] (Heap.empty : Heap arm nullMut) ∧
    ¬ Along step Respects [.malloc 8 ⟨16, []⟩, .free 16] (Heap.empty : Heap arm nullMut) ∧
    Along step Legal [.malloc 8 ⟨16, []⟩, .realloc 16 16 ⟨32, List.replicate 8 0⟩]
      (Heap.empty : Heap arm nullMut) ∧
    ¬ Along step Respects [.malloc 8 ⟨16, []⟩, .realloc 16 16 ⟨32, List.replicate 8 0⟩]
      (Heap.empty : Heap arm nullMut) := by
  constructor
  · exact along_of_step (by decide) rfl ⟨by decide, fun _ _ => trivial⟩
  constructor
  · intro h
    have hallowed : Allowed _ (free arm 16) := (h.2 _ rfl).1
    revert hallowed
    decide
  constructor
  · exact along_of_step (by decide) rfl ⟨by decide, fun _ _ => trivial⟩
  · intro h
    obtain ⟨⟨call, hcall, hallowed⟩, -⟩ := (h.2 _ rfl).1
    cases hcall
    revert hallowed
    decide

end Interop
