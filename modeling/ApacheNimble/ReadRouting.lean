import ApacheNimble.Controller

/-!
# Where `read` puts each packet

The host reads with buffers of any lengths. A read goes on receiving as long as
it receives responses to commands, and ends with the first other packet.
-/
namespace ReadRouting

open Hci Controller

variable {μ : Type} {lib : External μ} {n : Nat}

/-- A packet that is cut off before its end is refused. -/
def RefusesTruncated (lib : External μ) : Prop :=
  ∀ kind bytes, Complete lib kind bytes → ∀ len < bytes.length,
    lib.fromHciBytesWithKind kind (bytes.take len) = none

/-- A packet that has been put into the channel, whole. -/
structure Accepted (lib : External μ) (n : Nat) where
  kind : PacketKind
  bytes : Bytes
  complete : Complete lib kind bytes
  fits : bytes.length ≤ n

namespace Accepted

/-- The packet at the front of its array. -/
def packet (p : Accepted lib n) : HostPacket Unit :=
  ⟨p.kind, p.bytes ++ List.replicate (n - p.bytes.length) 0, ()⟩

def parse (p : Accepted lib n) : Option ControllerToHostPacket :=
  lib.fromHciBytesWithKind p.kind p.bytes

/-- The packet answers a command. -/
def isResponse (p : Accepted lib n) : Bool :=
  match p.parse with
  | some v => v.isResponse
  | none => false

end Accepted

/-- What a read with a buffer of `len` bytes has done with a packet, none where
it panicked. -/
structure Handled (lib : External μ) (n : Nat) where
  len : Nat
  packet : Accepted lib n
  body : Option ReadBody

/-- What becomes of the packets, in order, when the host reads with buffers of
the given lengths, one after the other. -/
def reads : List (Accepted lib n) → List Nat → List (Handled lib n)
  | [], _ => []
  | _ :: _, [] => []
  | p :: ps, len :: lens =>
    match readBody lib len p.packet with
    | none => [⟨len, p, none⟩]
    | some (_, .forward) => ⟨len, p, some .forward⟩ :: reads ps (len :: lens)
    | some (_, .done r) => ⟨len, p, some (.done r)⟩ :: reads ps lens

/-- The arrays that are sent into `CMD_SIGNAL`. -/
def sent : List (Handled lib n) → List Bytes
  | [] => []
  | h :: hs =>
    match h.body with
    | some .forward => h.packet.packet.data :: sent hs
    | _ => sent hs

/-- Where a packet belongs: a response is forwarded, and anything else is
returned if the buffer is long enough for it. -/
def destination (len : Nat) (p : Accepted lib n) : ReadBody :=
  if p.isResponse then .forward
  else if p.bytes.length ≤ len then route p.parse
  else .done (.error .invalid)

/-- No read panics, every packet goes where it belongs, and all the responses
are sent on as they were received. -/
structure Routes (log : List (Handled lib n)) : Prop where
  returns : ∀ h ∈ log, h.body ≠ none
  routed : ∀ h ∈ log, h.body = some (destination h.len h.packet)
  forwarded : sent log =
    ((log.map Handled.packet).filter Accepted.isResponse).map (fun p => p.packet.data)

/-- Every buffer that a packet is received with is no longer than the array,
and long enough if the packet is a response. -/
def Roomy : List (Accepted lib n) → List Nat → Prop
  | [], _ => True
  | _ :: _, [] => True
  | p :: ps, len :: lens => len ≤ n ∧
    if p.isResponse then p.bytes.length ≤ len ∧ Roomy ps (len :: lens) else Roomy ps lens

variable {p : Accepted lib n} {ps : List (Accepted lib n)} {len : Nat} {lens : List Nat}

@[simp] theorem packet_length (p : Accepted lib n) : p.packet.data.length = n := by
  have := p.fits
  simp only [Accepted.packet, List.length_append, List.length_replicate]
  omega

theorem packet_eq (p : Accepted lib n) : copyToFront n p.bytes = some p.packet.data :=
  copyToFront_eq_some.mpr ⟨p.fits, rfl⟩

/-- A buffer that is longer than the array panics. -/
theorem readBody_long (h : n < len) : readBody lib len p.packet = none := by
  have hlen : ¬ len ≤ p.packet.data.length := by
    rw [packet_length]
    omega
  rw [readBody, if_neg hlen]

theorem readBody_whole (hlib : lib.Documented) (hn : len ≤ n) (h : p.bytes.length ≤ len) :
    ∃ buf, readBody lib len p.packet = some (buf, route p.parse) := by
  have hlen : len ≤ p.packet.data.length := by rwa [packet_length]
  obtain ⟨tail, htail⟩ := copyToFront_take (packet_eq p) h
  refine ⟨p.bytes ++ tail, ?_⟩
  rw [readBody, if_pos hlen, htail]
  exact congrArg (fun v => some (p.bytes ++ tail, route v)) (parse_front hlib p.complete tail)

/-- A buffer that is too short cuts the packet off, and the read ends with an
error whatever the packet is. -/
theorem readBody_cut (htrunc : RefusesTruncated lib) (hn : len ≤ n) (h : len < p.bytes.length) :
    ∃ buf, readBody lib len p.packet = some (buf, .done (.error .invalid)) := by
  have hlen : len ≤ p.packet.data.length := by rwa [packet_length]
  have htake : p.packet.data.take len = p.bytes.take len := by
    rw [Accepted.packet, List.take_append_of_le_length (by omega)]
  refine ⟨p.bytes.take len, ?_⟩
  rw [readBody, if_pos hlen, htake]
  exact congrArg (fun v => some (p.bytes.take len, route v))
    (htrunc p.kind p.bytes p.complete len h)

theorem route_parse_of_response (h : p.isResponse = true) : route p.parse = .forward := by
  unfold Accepted.isResponse at h
  split at h
  · rename_i v hparse
    rw [hparse]
    exact if_pos h
  · cases h

theorem route_parse_of_not_response (h : p.isResponse = false) :
    ∃ r, route p.parse = .done r := by
  unfold Accepted.isResponse at h
  split at h
  · rename_i v hparse
    rw [hparse]
    exact ⟨.ok v, by simp [route, h]⟩
  · rename_i hparse
    rw [hparse]
    exact ⟨.error .invalid, rfl⟩

/-- What is returned is not forwarded. -/
theorem destination_of_not_response (len : Nat) (h : p.isResponse = false) :
    ∃ r, destination len p = .done r := by
  obtain ⟨r, hr⟩ := route_parse_of_not_response h
  by_cases hlen : p.bytes.length ≤ len
  · exact ⟨r, by simp [destination, h, hlen, hr]⟩
  · exact ⟨.error .invalid, by simp [destination, h, hlen]⟩

theorem destination_of_response (len : Nat) (h : p.isResponse = true) :
    destination len p = .forward :=
  if_pos h

/-- A packet goes where it belongs exactly if the buffer is long enough for a
response, and it does not panic exactly if the buffer is not too long. -/
theorem readBody_eq (hlib : lib.Documented) (htrunc : RefusesTruncated lib) (hn : len ≤ n)
    (hresponse : p.isResponse = true → p.bytes.length ≤ len) :
    ∃ buf, readBody lib len p.packet = some (buf, destination len p) := by
  by_cases hlen : p.bytes.length ≤ len
  · obtain ⟨buf, hbody⟩ := readBody_whole hlib hn hlen
    refine ⟨buf, ?_⟩
    cases h : p.isResponse with
    | true => rw [hbody, destination_of_response len h, route_parse_of_response h]
    | false => simp [hbody, destination, h, hlen]
  · obtain ⟨buf, hbody⟩ := readBody_cut (p := p) htrunc hn (by omega)
    refine ⟨buf, ?_⟩
    have h : p.isResponse = false := by
      by_contra h
      exact hlen (hresponse (by simpa using h))
    simp [hbody, destination, h, hlen]

theorem reads_panic (h : readBody lib len p.packet = none) :
    reads (p :: ps) (len :: lens) = [⟨len, p, none⟩] := by
  rw [reads, h]

theorem reads_forward {buf : Bytes} (h : readBody lib len p.packet = some (buf, .forward)) :
    reads (p :: ps) (len :: lens) = ⟨len, p, some .forward⟩ :: reads ps (len :: lens) := by
  rw [reads, h]

theorem reads_done {buf : Bytes} {r : Except OsError ControllerToHostPacket}
    (h : readBody lib len p.packet = some (buf, .done r)) :
    reads (p :: ps) (len :: lens) = ⟨len, p, some (.done r)⟩ :: reads ps lens := by
  rw [reads, h]

/-- When every packet goes where it belongs, what is sent on are the responses. -/
theorem sent_of_routed {log : List (Handled lib n)}
    (h : ∀ h ∈ log, h.body = some (destination h.len h.packet)) :
    sent log =
      ((log.map Handled.packet).filter Accepted.isResponse).map (fun p => p.packet.data) := by
  induction log with
  | nil => rfl
  | cons a log ih =>
    simp only [List.mem_cons, forall_eq_or_imp] at h
    have hrest := ih h.2
    cases hresponse : a.packet.isResponse with
    | true =>
      rw [destination_of_response a.len hresponse] at h
      simp [sent, h.1, hresponse, hrest]
    | false =>
      obtain ⟨r, hr⟩ := destination_of_not_response a.len hresponse
      rw [hr] at h
      simp [sent, h.1, hresponse, hrest]

theorem routes_iff_routed {log : List (Handled lib n)} :
    Routes log ↔ ∀ h ∈ log, h.body = some (destination h.len h.packet) :=
  ⟨fun h => h.routed, fun h => ⟨fun a ha => by simp [h a ha], h, sent_of_routed h⟩⟩

/-- Every packet goes where it belongs exactly if no buffer is longer than the
array and every response finds a buffer that it fits in. -/
theorem routes_iff_roomy (hlib : lib.Documented) (htrunc : RefusesTruncated lib)
    (ps : List (Accepted lib n)) (lens : List Nat) : Routes (reads ps lens) ↔ Roomy ps lens := by
  rw [routes_iff_routed]
  induction ps generalizing lens with
  | nil => simp [reads, Roomy]
  | cons p ps ih =>
    cases lens with
    | nil => simp [reads, Roomy]
    | cons len lens =>
      rw [Roomy]
      by_cases hn : len ≤ n
      · cases hresponse : p.isResponse with
        | true =>
          have hdest := destination_of_response len hresponse
          by_cases hlen : p.bytes.length ≤ len
          · obtain ⟨buf, hbody⟩ := readBody_eq hlib htrunc hn (fun _ => hlen)
            rw [hdest] at hbody
            rw [reads_forward hbody]
            simp [hdest, hn, hlen, ih]
          · obtain ⟨buf, hbody⟩ := readBody_cut (p := p) htrunc hn (by omega)
            rw [reads_done hbody]
            simp [hdest, hlen]
        | false =>
          obtain ⟨r, hdest⟩ := destination_of_not_response len hresponse
          obtain ⟨buf, hbody⟩ :=
            readBody_eq hlib htrunc hn (fun h => absurd (hresponse.symm.trans h) (by decide))
          rw [hdest] at hbody
          rw [reads_done hbody]
          simp [hdest, hn, ih]
      · rw [reads_panic (readBody_long (by omega))]
        simp [hn]

theorem plain_header_length {bytes : Bytes} {hdr : AclPacketHeader}
    (h : Plain.aclPacketHeader bytes = some hdr) : bytes.length = 4 := by
  unfold Plain.aclPacketHeader at h
  split at h
  · rfl
  · cases h

theorem plain_refusesTruncated : RefusesTruncated plain := by
  intro kind bytes hcomplete len hlen
  cases kind with
  | event =>
    obtain ⟨code, length, params, hparams, rfl⟩ := hcomplete
    simp only [List.length_cons] at hlen
    obtain _ | _ | len := len
    · rfl
    · rfl
    · have hcut : ¬ length.toNat ≤ (params.take len).length := by
        rw [List.length_take]
        omega
      simp only [External.fromHciBytesWithKind, plain, List.take_succ_cons,
        Plain.eventFromHciBytes, if_neg hcut, Option.map_none]
  | aclData =>
    obtain ⟨header, hdr, data, hheader, hhdr, hdata, rfl⟩ := hcomplete
    rw [List.length_append, hheader] at hlen
    simp only [External.fromHciBytesWithKind, plain, Plain.aclPacketFromHciBytes, List.take_take,
      Option.map_eq_none_iff, Option.bind_eq_bind, Option.bind_eq_none_iff]
    by_cases hfour : 4 ≤ len
    · rw [Nat.min_eq_left hfour, List.take_left' hheader]
      intro hdr' hhdr'
      cases hhdr.symm.trans hhdr'
      have hcut : ¬ (((header ++ data).take len).drop 4).length = hdr.dataLen.toNat := by
        rw [List.length_drop, List.length_take, List.length_append, hheader]
        omega
      rw [Plain.aclPacketFromHeader, if_neg]
      simp only [List.length_take, List.length_drop, List.length_append, hheader] at hcut ⊢
      omega
    · rw [Nat.min_eq_right (by omega)]
      intro hdr' hhdr'
      have hfour' := plain_header_length hhdr'
      rw [List.length_take] at hfour'
      omega

/-- The completion of a reset command. -/
def completion : Accepted plain 16 :=
  ⟨.event, resetComplete.bytes, resetComplete.complete plain, by decide⟩

/-- Another event follows the completion and is longer than the second buffer. -/
theorem routes_iff_roomy_twice :
    Routes (reads [completion, ⟨.event, leMeta.bytes, leMeta.complete plain, by decide⟩]
      [6, 2]) :=
  (routes_iff_roomy plain_documented plain_refusesTruncated _ _).mpr
    ⟨by decide, ⟨by decide, by decide, trivial⟩⟩

/-- A response of six bytes is dropped by a read with a buffer of four, and a
read with a buffer of seventeen panics. -/
theorem response_dropped :
    (∃ buf, readBody plain 4 completion.packet = some (buf, .done (.error .invalid))) ∧
    ¬ Routes (reads [completion] [4]) ∧
    readBody plain 17 completion.packet = none ∧ ¬ Routes (reads [completion] [17]) := by
  refine ⟨⟨_, rfl⟩, fun h => ?_, rfl, fun h => ?_⟩
  · cases h.forwarded
  · exact h.returns _ (List.mem_cons_self ..) rfl

end ReadRouting
