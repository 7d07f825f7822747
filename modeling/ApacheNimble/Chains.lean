import ApacheNimble.AclInbound
import ApacheNimble.HostBufferSize
import ApacheNimble.Outbound
import ApacheNimble.ByteStream

/-!
# Chains of buffers written and read

An `OsMbuf` is written at the end of its chain and read at the front, so it is a
stream of bytes. A data packet that the host writes into a chain is the packet
that it reads when the controller hands it up again.
-/
namespace Chains

open Hci Fifo Controller Outbound ByteStream Transition HostBufferSize

variable {μ τ : Type} {lib : External μ} {m : Appender μ} {om om' : μ}

/-- Chains are written and read as documented, and both ends see one content. -/
structure Linked (lib : External μ) (m : Appender μ) : Prop where
  reading : lib.Documented
  writing : m.Documented
  same : ∀ om, m.content om = lib.content om

/-- `write_all` and `read_exact` on one chain. A read that fails leaves the chain
as it was, and after a write that fails the chain is not used. -/
def step (m : Appender μ) (lib : External μ) : Op UInt8 → μ → Option (μ × Option Bytes)
  | .write buf, om => match writeAll m om buf with
    | (.ok (), om) => some (om, none)
    | (.error _, _) => none
  | .read len, om => match readExact lib len om with
    | some (bytes, om) => some (om, some bytes)
    | none => some (om, none)

/-- What the append is told to add of each piece. -/
def told : Op UInt8 → Op UInt8
  | .write buf => .write (added buf)
  | .read len => .read len

theorem writeAll_added (hc : Linked lib m) {buf : Bytes} (h : writeAll m om buf = (.ok (), om')) :
    lib.content om' = lib.content om ++ added buf := by
  by_cases hne : buf = []
  · subst hne
    cases h
    simp [added]
  · by_cases hret : (m.osMbufAppend om buf (UInt16.ofNat buf.length)).1 = 0
    · rw [writeAll, if_neg hne, write_ok hret] at h
      cases h
      rw [← hc.same, ← hc.same, append_added hc.writing hret]
    · obtain ⟨e, he⟩ := write_error hret
      rw [writeAll, if_neg hne, he] at h
      cases h

/-- One call does to the content what the operation does to a stream. -/
theorem step_stream (hc : Linked lib m) {op : Op UInt8} {ret : Option Bytes}
    (h : step m lib op om = some (om', ret)) :
    ByteStream.step (told op) (lib.content om) = some (lib.content om', ret) := by
  cases op with
  | write buf =>
    simp only [step] at h
    split at h
    · rename_i om₁ hwrite
      cases h
      simp only [told, ByteStream.step, writeAll_added hc hwrite]
    · cases h
  | read len =>
    simp only [step] at h
    simp only [told, ByteStream.step]
    by_cases hlen : len ≤ (lib.content om).length
    · obtain ⟨om₁, hread, hcontent⟩ := AclInbound.readExact_long hc.reading hlen
      rw [hread] at h
      cases h
      rw [if_pos hlen, hcontent]
    · rw [AclInbound.readExact_short hc.reading (by omega)] at h
      cases h
      rw [if_neg hlen]

theorem run_stream (hc : Linked lib m) {ops : List (Op UInt8)} {rets rets' : List (Option Bytes)}
    (h : run (logged (step m lib)) ops (om, rets) = some (om', rets')) :
    run (logged ByteStream.step) (ops.map told) (lib.content om, rets) =
      some (lib.content om', rets') := by
  induction ops generalizing om rets with
  | nil =>
    cases h
    rfl
  | cons op ops ih =>
    obtain ⟨⟨u, us⟩, hu, hrest⟩ := run_cons_some _ h
    obtain ⟨⟨v, ret⟩, hv, he⟩ := Option.map_eq_some_iff.mp hu
    cases he
    rw [List.map_cons, run_cons, logged, step_stream hc hv]
    exact ih hrest

/-- Nothing is cut off pieces that a 16-bit length can tell. -/
theorem written_told {ops : List (Op UInt8)}
    (h : ∀ buf, .write buf ∈ ops → buf.length < UInt16.size) :
    written (ops.map told) = written ops := by
  induction ops with
  | nil => rfl
  | cons op ops ih =>
    have hrest := ih (fun buf hbuf => h buf (List.mem_cons_of_mem op hbuf))
    cases op with
    | write buf =>
      have hbuf := (added_eq_self buf).mpr (h buf List.mem_cons_self)
      simp only [List.map_cons, told, written, hbuf, hrest]
    | read len => simpa [told, written] using hrest

/-- However writes and reads on a chain follow each other, as long as no append
fails, every read returns what it returns on a stream that gets of each piece
what the low 16 bits of its length say. All that has been read and all that is
left is what was there and what has been added, in order. -/
theorem runs_as_stream (hc : Linked lib m) (ops : List (Op UInt8)) (om om' : μ)
    (rets : List (Option Bytes))
    (h : run (logged (step m lib)) ops (om, []) = some (om', rets)) :
    run (logged ByteStream.step) (ops.map told) (lib.content om, []) =
      some (lib.content om', rets) ∧
    taken rets ++ lib.content om' = lib.content om ++ written (ops.map told) ∧
    ((∀ buf, .write buf ∈ ops → buf.length < UInt16.size) →
      taken rets ++ lib.content om' = lib.content om ++ written ops) := by
  have hrun := run_stream hc h
  have hconserved := run_conserves hrun
  rw [taken_nil, List.nil_append] at hconserved
  refine ⟨hrun, hconserved, fun hshort => ?_⟩
  rw [hconserved, written_told hshort]

/-- Chains of one buffer and the pointer to it. -/
def pointed : External (Ptr × Bytes) where
  eventPacketHeader := plain.eventPacketHeader
  eventFromHciBytes := plain.eventFromHciBytes
  aclPacketHeader := plain.aclPacketHeader
  aclPacketFromHciBytes := plain.aclPacketFromHciBytes
  aclPacketFromHeader := plain.aclPacketFromHeader
  content := Prod.snd
  osMbufCopydata om len := plain.osMbufCopydata om.2 len
  osMbufAdj om len := (om.1, plain.osMbufAdj om.2 len)

theorem pointed_documented : pointed.Documented where
  event_front := plain_documented.event_front
  acl_front := plain_documented.acl_front
  copydata om len := plain_documented.copydata om.2 len
  adj om len := plain_documented.adj om.2 len

theorem pointed_linked : Linked pointed roomy :=
  ⟨pointed_documented, roomy_documented, fun _ => rfl⟩

/-- The third read asks for more than there is. -/
theorem runs_as_stream_thrice :
    taken [none, some [1, 2], none, some [3], none] ++ [4, 5] =
      ([] : Bytes) ++ written [.write [1, 2, 3], .read 2, .write [4, 5], .read 1, .read 7] :=
  (runs_as_stream pointed_linked
    [.write [1, 2, 3], .read 2, .write [4, 5], .read 1, .read 7] (64, []) (64, [4, 5])
    [none, some [1, 2], none, some [3], none] (by decide)).2.2 (by simp [UInt16.size])

section Packets

variable {n : Nat} {p : AclPacket}

/-- The bytes that a data packet is written as, every number with its low byte
first. -/
def wire (p : AclPacket) : Bytes :=
  [lo p.header.handle, hi p.header.handle, lo p.header.dataLen, hi p.header.dataLen] ++ p.data

/-- The parser reads a header as it is written, and as many bytes as it says are
the packet. -/
structure Faithful (lib : External μ) : Prop where
  header : ∀ a b c d, lib.aclPacketHeader [a, b, c, d] = some ⟨u16 a b, u16 c d⟩
  data : ∀ hdr data, data.length = hdr.dataLen.toNat →
    lib.aclPacketFromHeader hdr data = some ⟨hdr, data⟩

theorem Faithful.decodes (h : Faithful lib) : AclInbound.Decodes lib where
  header := h.header
  data hdr data hlen := by
    rw [h.data hdr data hlen]
    rfl

theorem Faithful.header_wire (h : Faithful lib) (p : AclPacket) :
    lib.aclPacketHeader
      [lo p.header.handle, hi p.header.handle, lo p.header.dataLen, hi p.header.dataLen] =
        some p.header := by
  rw [h.header, u16_lo_hi, u16_lo_hi]

theorem wire_length (p : AclPacket) : (wire p).length = 4 + p.data.length := by
  rw [wire, List.length_append]
  rfl

/-- What the bytes of a packet announce is the packet, whatever follows it. -/
theorem announced_wire (hsized : p.data.length = p.header.dataLen.toNat) (rest : Bytes) :
    4 + AclInbound.announced (wire p ++ rest) = (wire p).length := by
  rw [wire_length, hsized]
  simp only [wire, List.cons_append, AclInbound.announced, u16_lo_hi]

theorem parseAcl_wire (hlib : lib.Documented) (hdec : Faithful lib)
    (hsized : p.data.length = p.header.dataLen.toNat) (hn : (wire p).length ≤ n) (rest : Bytes)
    (hom : lib.content om = wire p ++ rest) : parseAcl lib n om = some (some (wire p)) := by
  have hlen : 4 + AclInbound.announced (lib.content om) = (wire p).length := by
    rw [hom, announced_wire hsized]
  have hlong : (wire p).length ≤ (lib.content om).length := by simp [hom]
  rw [AclInbound.parseAcl_whole hlib hdec.decodes (by rw [hlen]; exact hn)
    (by rw [hlen]; exact hlong), hlen, hom, List.take_left]

/-- A read with a buffer that is long enough gives the packet back. -/
theorem readBody_wire (hlib : lib.Documented) (hdec : Faithful lib)
    (hsized : p.data.length = p.header.dataLen.toNat) {data : Bytes} {len : Nat} (tag : τ)
    (hdata : copyToFront n (wire p) = some data) (hlen : (wire p).length ≤ len) (hn : len ≤ n) :
    ∃ buf, readBody lib len ⟨.aclData, data, tag⟩ = some (buf, .done (.ok (.acl p))) := by
  obtain ⟨tail, htail⟩ := copyToFront_take hdata hlen
  have hparse : lib.aclPacketFromHciBytes (wire p ++ tail) = some p := by
    rw [wire, hlib.acl_front _ p.header p.data tail rfl (hdec.header_wire p) hsized,
      hdec.data p.header p.data hsized]
  have hroom : len ≤ data.length := by rwa [copyToFront_length hdata]
  refine ⟨wire p ++ tail, ?_⟩
  simp only [readBody, if_pos hroom, htail, External.fromHciBytesWithKind, hparse, Option.map_some]
  rfl

theorem pointed_faithful : Faithful pointed where
  header _ _ _ _ := rfl
  data hdr data h := by simp [pointed, plain, Plain.aclPacketFromHeader, h]

end Packets

end Chains
