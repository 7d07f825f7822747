import ApacheNimble.Controller

/-!
# Data packets that the host sends

A packet is written into a fresh chain piece by piece, each piece by one
append, and the chain is offered to the controller.
-/
namespace Outbound

open Hci Controller

variable {μ : Type}

/-- The chains that are written to, of any type `μ`, and the numbers of the
errors. An append gives its return value and the chain after it. -/
structure Appender (μ : Type) where
  osError : OsError → UInt32
  ptr : μ → Ptr
  content : μ → Bytes
  osMbufAppend : μ → Bytes → UInt16 → Int × μ

/-- An append that returns zero has added as many bytes as it was told, and
with a null chain none does. -/
structure Appender.Documented (m : Appender μ) : Prop where
  append_ok : ∀ om data len, (m.osMbufAppend om data len).1 = 0 →
    m.content (m.osMbufAppend om data len).2 = m.content om ++ data.take len.toNat
  append_null : ∀ om data len, m.ptr om = nullMut → (m.osMbufAppend om data len).1 ≠ 0

def osErrorFrom (osError : OsError → UInt32) (value : UInt32) : OsError :=
  if value = osError .noMem then .noMem
  else if value = osError .invalid then .invalid
  else if value = osError .invalidParameter then .invalidParameter
  else if value = osError .notAligned then .notAligned
  else if value = osError .badMutex then .badMutex
  else if value = osError .timeout then .timeout
  else if value = osError .errInISR then .errInISR
  else if value = osError .errPriviliged then .errPriviliged
  else if value = osError .notStarted then .notStarted
  else if value = osError .noEnt then .noEnt
  else if value = osError .busy then .busy
  else if value = osError .error then .error
  else .error

/-- `OsMbuf::write`. The append is told the low 16 bits of the length. -/
def write (m : Appender μ) (om : μ) (buf : Bytes) : Except OsError Nat × μ :=
  let amt := buf.length
  let (ret, om) := m.osMbufAppend om buf (UInt16.ofNat amt)
  if ret = 0 then (.ok amt, om) else (.error (osErrorFrom m.osError (UInt32.ofInt ret)), om)

/-- `write` says that it has written everything or fails, and `write_all` of no
bytes does not call it. -/
def writeAll (m : Appender μ) (om : μ) (buf : Bytes) : Except OsError Unit × μ :=
  if buf = [] then (.ok (), om)
  else ((write m om buf).1.map (fun _ => ()), (write m om buf).2)

/-- The serialisation of a packet writes its pieces in order up to an error. -/
def writeHci (m : Appender μ) (om : μ) : List Bytes → Except OsError Unit × μ
  | [] => (.ok (), om)
  | piece :: pieces =>
    match writeAll m om piece with
    | (.ok (), om) => writeHci m om pieces
    | (.error e, om) => (.error e, om)

/-- `write_acl_data` with the chain that has been allocated for it. -/
def sendAcl (m : Appender μ) (om : μ) (pieces : List Bytes) (ret : Int) : Written :=
  writeAclData (m.ptr om) (writeHci m om pieces).1 ret

/-- `write_iso_data` with the chain that has been allocated for it. -/
def sendIso (m : Appender μ) (om : μ) (pieces : List Bytes) (ret : Int) : Written :=
  writeIsoData (m.ptr om) (writeHci m om pieces).1 ret

/-- The number that is returned is the number of bytes that have been added,
from the front of the argument. -/
def WriteHonest (m : Appender μ) (om : μ) (buf : Bytes) : Prop :=
  ∀ n, (write m om buf).1 = .ok n →
    n ≤ buf.length ∧ m.content (write m om buf).2 = m.content om ++ buf.take n

/-- Success is returned exactly if the controller has taken the chain and the
chain holds the packet, and otherwise the chain has been freed. -/
structure SendHonest (m : Appender μ) (om : μ) (pieces : List Bytes) (w : Written) : Prop where
  ok_iff : w.ret = .ok () ↔
    w.handedOver = [m.ptr om] ∧ m.content (writeHci m om pieces).2 = pieces.flatten
  freed : w.ret ≠ .ok () → m.ptr om ≠ nullMut → w.freed = [m.ptr om]

/-- Every append that writing the pieces makes returns zero. -/
def AppendsSucceed (m : Appender μ) : μ → List Bytes → Prop
  | _, [] => True
  | om, piece :: pieces =>
    if piece = [] then AppendsSucceed m om pieces
    else (m.osMbufAppend om piece (UInt16.ofNat piece.length)).1 = 0 ∧
      AppendsSucceed m (m.osMbufAppend om piece (UInt16.ofNat piece.length)).2 pieces

variable {m : Appender μ} {om : μ} {buf : Bytes} {pieces : List Bytes} {w : Written} {ret : Int}

theorem write_ok (h : (m.osMbufAppend om buf (UInt16.ofNat buf.length)).1 = 0) :
    write m om buf =
      (.ok buf.length, (m.osMbufAppend om buf (UInt16.ofNat buf.length)).2) := by
  simp [write, h]

theorem write_error (h : (m.osMbufAppend om buf (UInt16.ofNat buf.length)).1 ≠ 0) :
    ∃ e, (write m om buf).1 = .error e := by
  simp [write, h]

/-- What a successful append adds when it is told the low 16 bits of the length. -/
def added (buf : Bytes) : Bytes := buf.take (UInt16.ofNat buf.length).toNat

theorem added_eq_take (buf : Bytes) : added buf = buf.take (buf.length % UInt16.size) := by
  rw [added, UInt16.toNat_ofNat']

@[simp] theorem added_length (buf : Bytes) : (added buf).length = buf.length % UInt16.size := by
  rw [added_eq_take, List.length_take]
  exact Nat.min_eq_left (Nat.mod_le _ _)

/-- It is everything exactly if the length is a 16-bit number. -/
theorem added_eq_self (buf : Bytes) : added buf = buf ↔ buf.length < UInt16.size := by
  constructor
  · intro h
    have hlen := congrArg List.length h
    rw [added_length] at hlen
    rw [← hlen]
    exact Nat.mod_lt _ (by decide)
  · intro h
    rw [added_eq_take, Nat.mod_eq_of_lt h, List.take_length]

theorem append_added (hm : m.Documented)
    (h : (m.osMbufAppend om buf (UInt16.ofNat buf.length)).1 = 0) :
    m.content (m.osMbufAppend om buf (UInt16.ofNat buf.length)).2 = m.content om ++ added buf :=
  hm.append_ok om buf _ h

/-- What `write` returns is true unless an append is told to add less than the
whole argument and does. -/
theorem writeHonest_iff (hm : m.Documented) (om : μ) (buf : Bytes) : WriteHonest m om buf ↔
    ((m.osMbufAppend om buf (UInt16.ofNat buf.length)).1 = 0 → buf.length < UInt16.size) := by
  by_cases hret : (m.osMbufAppend om buf (UInt16.ofNat buf.length)).1 = 0
  · have hadded := append_added hm hret
    constructor
    · intro h _
      obtain ⟨-, hn⟩ := h buf.length (by rw [write_ok hret])
      rw [write_ok hret, hadded, List.take_length] at hn
      exact (added_eq_self buf).mp (List.append_cancel_left hn)
    · intro h n hn
      rw [write_ok hret] at hn
      cases hn
      rw [write_ok hret, hadded, (added_eq_self buf).mpr (h hret), List.take_length]
      exact ⟨Nat.le_refl _, rfl⟩
  · refine ⟨fun _ h => absurd h hret, fun _ n hn => ?_⟩
    obtain ⟨e, he⟩ := write_error hret
    rw [he] at hn
    cases hn

theorem writeHci_nil_cons : writeHci m om ([] :: pieces) = writeHci m om pieces := rfl

theorem writeHci_ok_cons {piece : Bytes} (hne : piece ≠ [])
    (h : (m.osMbufAppend om piece (UInt16.ofNat piece.length)).1 = 0) :
    writeHci m om (piece :: pieces) =
      writeHci m (m.osMbufAppend om piece (UInt16.ofNat piece.length)).2 pieces := by
  have hall : writeAll m om piece =
      (.ok (), (m.osMbufAppend om piece (UInt16.ofNat piece.length)).2) := by
    rw [writeAll, if_neg hne, write_ok h]
    rfl
  rw [writeHci, hall]

theorem writeHci_error_cons {piece : Bytes} (pieces : List Bytes) (hne : piece ≠ [])
    (h : (m.osMbufAppend om piece (UInt16.ofNat piece.length)).1 ≠ 0) :
    ∃ e, (writeHci m om (piece :: pieces)).1 = .error e := by
  obtain ⟨e, he⟩ := write_error h
  have hall : (writeAll m om piece).1 = .error e := by
    rw [writeAll, if_neg hne, he]
    rfl
  rw [writeHci]
  split
  · rename_i heq
    rw [heq] at hall
    cases hall
  · exact ⟨_, rfl⟩

/-- Writing the pieces fails as soon as an append does. -/
theorem writeHci_ok_iff (om : μ) (pieces : List Bytes) :
    (writeHci m om pieces).1 = .ok () ↔ AppendsSucceed m om pieces := by
  induction pieces generalizing om with
  | nil => simp [writeHci, AppendsSucceed]
  | cons piece pieces ih =>
    by_cases hne : piece = []
    · subst hne
      rw [writeHci_nil_cons, ih, AppendsSucceed, if_pos rfl]
    · rw [AppendsSucceed, if_neg hne]
      by_cases hret : (m.osMbufAppend om piece (UInt16.ofNat piece.length)).1 = 0
      · rw [writeHci_ok_cons hne hret, ih]
        simp [hret]
      · obtain ⟨e, he⟩ := writeHci_error_cons pieces hne hret
        simp [he, hret]

theorem writeHci_error (h : ¬ AppendsSucceed m om pieces) :
    ∃ e, (writeHci m om pieces).1 = .error e := by
  cases hret : (writeHci m om pieces).1 with
  | ok u => exact absurd ((writeHci_ok_iff om pieces).mp hret) h
  | error e => exact ⟨e, rfl⟩

/-- The bytes that successful appends add of each piece. -/
theorem writeHci_content (hm : m.Documented) (om : μ) (pieces : List Bytes)
    (h : AppendsSucceed m om pieces) :
    m.content (writeHci m om pieces).2 = m.content om ++ (pieces.map added).flatten := by
  induction pieces generalizing om with
  | nil => simp [writeHci]
  | cons piece pieces ih =>
    rw [AppendsSucceed] at h
    by_cases hne : piece = []
    · subst hne
      rw [if_pos rfl] at h
      rw [writeHci_nil_cons, ih om h]
      rfl
    · rw [if_neg hne] at h
      rw [writeHci_ok_cons hne h.1, ih _ h.2, append_added hm h.1]
      simp

theorem added_flatten_length_le (pieces : List Bytes) :
    (pieces.map added).flatten.length ≤ pieces.flatten.length := by
  induction pieces with
  | nil => exact Nat.le_refl 0
  | cons piece pieces ih =>
    have := Nat.mod_le piece.length UInt16.size
    simp only [List.map_cons, List.flatten_cons, List.length_append, added_length]
    omega

/-- They make the packet exactly if no piece is too long: no other piece makes
up for what one has lost. -/
theorem added_flatten_iff (pieces : List Bytes) :
    (pieces.map added).flatten = pieces.flatten ↔
      ∀ piece ∈ pieces, piece.length < UInt16.size := by
  induction pieces with
  | nil => simp
  | cons piece pieces ih =>
    simp only [List.map_cons, List.flatten_cons, List.mem_cons, forall_eq_or_imp]
    constructor
    · intro h
      have hlen := congrArg List.length h
      have hrest := added_flatten_length_le pieces
      have hmod := Nat.mod_le piece.length UInt16.size
      simp only [List.length_append, added_length] at hlen
      have hfirst : added piece = piece := by
        rw [added_eq_take, show piece.length % UInt16.size = piece.length by omega,
          List.take_length]
      rw [hfirst] at h
      exact ⟨(added_eq_self piece).mp hfirst, ih.mp (List.append_cancel_left h)⟩
    · rintro ⟨hpiece, hpieces⟩
      rw [(added_eq_self piece).mpr hpiece, ih.mpr hpieces]

/-- A null chain takes no packet. -/
theorem not_appendsSucceed_null (hm : m.Documented) (hnull : m.ptr om = nullMut)
    (hne : pieces.flatten ≠ []) : ¬ AppendsSucceed m om pieces := by
  induction pieces with
  | nil => simp at hne
  | cons piece pieces ih =>
    rw [AppendsSucceed]
    by_cases hpiece : piece = []
    · subst hpiece
      rw [if_pos rfl]
      exact ih hne
    · rw [if_neg hpiece]
      exact fun h => hm.append_null om piece _ hnull h.1

/-- What is left of either function when there is a chain: success is returned
whatever the controller does with it. -/
theorem writeChain_honest_iff (hm : m.Documented) (hfresh : m.content om = [])
    (hw : w = writeChain (m.ptr om) (writeHci m om pieces).1 ret) :
    SendHonest m om pieces w ↔ (AppendsSucceed m om pieces →
      ret = 0 ∧ ∀ piece ∈ pieces, piece.length < UInt16.size) := by
  subst hw
  by_cases hok : AppendsSucceed m om pieces
  · have hret := (writeHci_ok_iff om pieces).mpr hok
    have hcontent := writeHci_content hm om pieces hok
    rw [hfresh, List.nil_append] at hcontent
    constructor
    · intro h _
      rw [← added_flatten_iff, ← hcontent]
      have hboth := h.ok_iff.mp (by rw [hret, writeChain]; split <;> rfl)
      refine ⟨?_, hboth.2⟩
      by_contra hne
      simp [hret, writeChain, hne] at hboth
    · intro h
      obtain ⟨rfl, hshort⟩ := h hok
      rw [← added_flatten_iff, ← hcontent] at hshort
      constructor
      · simp [hret, writeChain, hshort]
      · simp [hret, writeChain]
  · obtain ⟨e, he⟩ := writeHci_error hok
    refine ⟨fun _ h => absurd h hok, fun _ => ⟨?_, ?_⟩⟩
    · simp [he, writeChain]
    · simp [he, writeChain]

theorem sendAcl_null (h : m.ptr om = nullMut) :
    sendAcl m om pieces ret = ⟨.error .noMem, [], []⟩ := if_pos h

/-- What `write` returns is true exactly if no argument longer than a 16-bit
number is appended. A packet with a chain that takes all of it is sent honestly
exactly if the controller accepts it and no piece of it is longer than that,
and every other packet is refused as it should be. -/
theorem honest_iff_accepted (hm : m.Documented) (om : μ) (pieces : List Bytes) (ret : Int)
    (hfresh : m.content om = []) (hpacket : pieces.flatten ≠ []) :
    (∀ buf, WriteHonest m om buf ↔
      ((m.osMbufAppend om buf (UInt16.ofNat buf.length)).1 = 0 → buf.length < UInt16.size)) ∧
    (SendHonest m om pieces (sendAcl m om pieces ret) ↔ (AppendsSucceed m om pieces →
      ret = 0 ∧ ∀ piece ∈ pieces, piece.length < UInt16.size)) ∧
    (SendHonest m om pieces (sendIso m om pieces ret) ↔ (AppendsSucceed m om pieces →
      ret = 0 ∧ ∀ piece ∈ pieces, piece.length < UInt16.size)) := by
  refine ⟨fun buf => writeHonest_iff hm om buf, ?_, writeChain_honest_iff hm hfresh rfl⟩
  by_cases hnull : m.ptr om = nullMut
  · have hfail := not_appendsSucceed_null hm hnull hpacket
    refine ⟨fun _ h => absurd h hfail, fun _ => ?_⟩
    rw [sendAcl_null hnull]
    exact ⟨by simp, fun _ h => absurd hnull h⟩
  · exact writeChain_honest_iff hm hfresh (if_neg hnull)

/-- Chains with room for everything, which a null chain has not. -/
def roomy : Appender (Ptr × Bytes) where
  osError
    | .noMem => 1
    | .invalid => 2
    | .invalidParameter => 3
    | .notAligned => 4
    | .badMutex => 5
    | .timeout => 6
    | .errInISR => 7
    | .errPriviliged => 8
    | .notStarted => 9
    | .noEnt => 10
    | .busy => 11
    | .error => 12
  ptr := Prod.fst
  content := Prod.snd
  osMbufAppend om data len :=
    if om.1 = nullMut then (2, om) else (0, (om.1, om.2 ++ data.take len.toNat))

theorem roomy_documented : roomy.Documented where
  append_ok om data len h := by
    by_cases hnull : om.1 = nullMut
    · simp [roomy, hnull] at h
    · simp [roomy, hnull]
  append_null om data len h := by
    have hnull : om.1 = nullMut := h
    simp [roomy, hnull]

theorem honest_iff_accepted_small :
    SendHonest roomy (64, []) [[1, 0, 2, 0], [7, 8]]
      (sendAcl roomy (64, []) [[1, 0, 2, 0], [7, 8]] 0) :=
  (honest_iff_accepted roomy_documented (64, []) [[1, 0, 2, 0], [7, 8]] 0 rfl
    (by decide)).2.1.mpr (fun _ => ⟨rfl, by decide⟩)

/-- A packet that the controller refuses is reported as sent. So are 65536
bytes of which none has been appended. -/
theorem refused_reported_ok :
    (sendAcl roomy (64, []) [[1, 0, 2, 0], [7, 8]] 1).ret = .ok () ∧
    (sendAcl roomy (64, []) [[1, 0, 2, 0], [7, 8]] 1).handedOver = [] ∧
    ¬ SendHonest roomy (64, []) [[1, 0, 2, 0], [7, 8]]
      (sendAcl roomy (64, []) [[1, 0, 2, 0], [7, 8]] 1) ∧
    ¬ WriteHonest roomy (64, []) (List.replicate UInt16.size 0) := by
  refine ⟨rfl, rfl, fun h => ?_, fun h => ?_⟩
  · have := (h.ok_iff.mp rfl).1
    simp [sendAcl, writeAclData, writeChain, writeHci, writeAll, write, roomy, nullMut,
      Except.map] at this
  · have := (writeHonest_iff roomy_documented _ _).mp h rfl
    simp at this

end Outbound
