import ApacheNimble.Controller

/-!
# Data packets that the controller hands up

The header is read first and says how many bytes there are to read after it.
The array is cut at that length before anything is compared with it.
-/
namespace AclInbound

open Hci Fifo Controller

variable {μ τ : Type} {lib : External μ} {n : Nat} {tag : τ} {om : μ}
  {c : Channel (HostPacket τ) 1}

/-- Four bytes are always a header, its numbers with their low byte first, and
as many bytes as it says are always a packet. -/
structure Decodes (lib : External μ) : Prop where
  header : ∀ a b c d, lib.aclPacketHeader [a, b, c, d] = some ⟨u16 a b, u16 c d⟩
  data : ∀ hdr data, data.length = hdr.dataLen.toNat → (lib.aclPacketFromHeader hdr data).isSome

/-- The number of data bytes that the header at the front of the bytes says. -/
def announced : Bytes → Nat
  | _ :: _ :: lo :: hi :: _ => (u16 lo hi).toNat
  | _ => 0

/-- The bytes hold the header and the data that it announces, both fit in an
array of `n` bytes, and the channel has room for it. -/
def Acceptable (n : Nat) (bytes : Bytes) (readChannel : Channel (HostPacket τ) 1) : Prop :=
  4 + announced bytes ≤ bytes.length ∧ 4 + announced bytes ≤ n ∧ readChannel.items = []

/-- The function returns, with success exactly for what is acceptable. It has
then queued the packet, and nothing otherwise. -/
def Sorts (lib : External μ) (n : Nat) (tag : τ) (om : μ)
    (readChannel : Channel (HostPacket τ) 1) : Prop :=
  ∃ d ret freed, bleTransportToHsAclImpl lib n tag om readChannel = some (d, ret, freed) ∧
    (ret = .ok () ↔ Acceptable n (lib.content om) readChannel) ∧
    (ret = .ok () → ∃ data,
      copyToFront n ((lib.content om).take (4 + announced (lib.content om))) = some data ∧
      d.items = [⟨.aclData, data, tag⟩]) ∧
    (ret ≠ .ok () → d = readChannel)

theorem readExact_long (hlib : lib.Documented) {len : Nat} (h : len ≤ (lib.content om).length) :
    ∃ om', readExact lib len om = some ((lib.content om).take len, om') ∧
      lib.content om' = (lib.content om).drop len := by
  by_cases hlen : len = 0
  · subst hlen
    exact ⟨om, by simp [readExact], by simp⟩
  · exact ⟨_, by simp [readExact, hlen, hlib.copydata, h], hlib.adj om len⟩

theorem readExact_short (hlib : lib.Documented) {len : Nat} (h : (lib.content om).length < len) :
    readExact lib len om = none := by
  have hlen : len ≠ 0 := by omega
  simp [readExact, hlen, hlib.copydata, h]

theorem exists_header {bytes : Bytes} (h : 4 ≤ bytes.length) :
    ∃ a b lo hi rest, bytes = a :: b :: lo :: hi :: rest := by
  obtain _ | ⟨a, _ | ⟨b, _ | ⟨lo, _ | ⟨hi, rest⟩⟩⟩⟩ := bytes
  · simp at h
  · simp at h
  · simp at h
  · simp at h
  · exact ⟨a, b, lo, hi, rest, rfl⟩

theorem header_short (hlib : lib.Documented) (h : (lib.content om).length < 4) :
    aclPacketHeaderReadHci lib om = none := by
  simp [aclPacketHeaderReadHci, readExact_short hlib h]

theorem header_long (hlib : lib.Documented) (hdec : Decodes lib)
    (h : 4 ≤ (lib.content om).length) :
    ∃ hdr om', aclPacketHeaderReadHci lib om = some ((lib.content om).take 4, hdr, om') ∧
      hdr.dataLen.toNat = announced (lib.content om) ∧
      lib.content om' = (lib.content om).drop 4 := by
  obtain ⟨om', hread, hrest⟩ := readExact_long hlib h
  obtain ⟨a, b, lo, hi, rest, hbytes⟩ := exists_header h
  rw [hbytes] at hread hrest ⊢
  simp only [List.take_succ_cons, List.take_zero] at hread ⊢
  refine ⟨⟨u16 a b, u16 lo hi⟩, om', ?_, rfl, hrest⟩
  simp [aclPacketHeaderReadHci, hread, hdec.header]

/-- Without a whole header nothing is parsed. -/
theorem parseAcl_headless (hlib : lib.Documented) (h : (lib.content om).length < 4) :
    parseAcl lib n om = some none := by
  simp [parseAcl, header_short hlib h]

/-- Where the array is cut too short, the cut panics. -/
theorem parseAcl_oversized (hlib : lib.Documented) (hdec : Decodes lib)
    (h : 4 ≤ (lib.content om).length) (hn : n < 4 + announced (lib.content om)) :
    parseAcl lib n om = none := by
  obtain ⟨hdr, om', hread, hlen, -⟩ := header_long hlib hdec h
  have hcut : ¬ 4 + hdr.dataLen.toNat ≤ n := by omega
  simp [parseAcl, hread, hcut]

theorem parseAcl_truncated (hlib : lib.Documented) (hdec : Decodes lib)
    (h : 4 ≤ (lib.content om).length) (hn : 4 + announced (lib.content om) ≤ n)
    (hshort : (lib.content om).length < 4 + announced (lib.content om)) :
    parseAcl lib n om = some none := by
  obtain ⟨hdr, om', hread, hlen, hrest⟩ := header_long hlib hdec h
  have hdata : (lib.content om').length < hdr.dataLen.toNat := by
    rw [hrest, List.length_drop]
    omega
  rw [← hlen] at hn
  simp [parseAcl, hread, hn, readExact_short hlib hdata]

theorem parseAcl_whole (hlib : lib.Documented) (hdec : Decodes lib)
    (hn : 4 + announced (lib.content om) ≤ n)
    (hlong : 4 + announced (lib.content om) ≤ (lib.content om).length) :
    parseAcl lib n om =
      some (some ((lib.content om).take (4 + announced (lib.content om)))) := by
  have hheader : 4 ≤ (lib.content om).length := by omega
  obtain ⟨hdr, om', hread, hlen, hrest⟩ := header_long hlib hdec hheader
  have hdata : hdr.dataLen.toNat ≤ (lib.content om').length := by
    rw [hrest, List.length_drop]
    omega
  obtain ⟨om'', hread', -⟩ := readExact_long hlib hdata
  have hsome : (lib.aclPacketFromHeader hdr
      ((lib.content om').take hdr.dataLen.toNat)).isSome :=
    hdec.data _ _ (by rw [List.length_take]; omega)
  obtain ⟨p, hp⟩ := Option.isSome_iff_exists.mp hsome
  have htake : (lib.content om).take 4 ++ (lib.content om').take hdr.dataLen.toNat =
      (lib.content om).take (4 + announced (lib.content om)) := by
    rw [hrest, hlen, ← List.take_add]
  rw [← hlen] at hn
  simp [parseAcl, hread, hn, hread', hp, htake]

/-- What does not parse is dropped. -/
theorem impl_dropped (h : parseAcl lib n om = some none) :
    bleTransportToHsAclImpl lib n tag om c = some (c, .error .noMem, false) := by
  simp [bleTransportToHsAclImpl, h]

/-- What parses is queued if there is room. -/
theorem impl_parsed {bytes : Bytes} (tag : τ) (c : Channel (HostPacket τ) 1)
    (h : parseAcl lib n om = some (some bytes)) (hn : bytes.length ≤ n) :
    ∃ data, copyToFront n bytes = some data ∧
      (c.items = [] → ∃ d, bleTransportToHsAclImpl lib n tag om c = some (d, .ok (), true) ∧
        d.items = [⟨.aclData, data, tag⟩]) ∧
      (c.items ≠ [] →
        bleTransportToHsAclImpl lib n tag om c = some (c, .error .noMem, false)) := by
  obtain ⟨data, hdata⟩ : ∃ data, copyToFront n bytes = some data :=
    ⟨_, copyToFront_eq_some.mpr ⟨hn, rfl⟩⟩
  refine ⟨data, hdata, ?_, ?_⟩
  · intro hempty
    obtain ⟨d, hsend⟩ : ∃ d, c.trySend ⟨.aclData, data, tag⟩ = some d := by
      cases hsend : c.trySend ⟨.aclData, data, tag⟩ with
      | none => exact absurd hempty (Channel.trySend_one_none.mp hsend)
      | some d => exact ⟨d, rfl⟩
    exact ⟨d, by simp [bleTransportToHsAclImpl, h, hdata, hsend],
      (Channel.trySend_one.mp hsend).2⟩
  · intro hfull
    have hsend : c.trySend ⟨.aclData, data, tag⟩ = none := Channel.trySend_one_none.mpr hfull
    simp [bleTransportToHsAclImpl, h, hdata, hsend]

theorem sorts_of_dropped (h : parseAcl lib n om = some none)
    (hnot : ¬ Acceptable n (lib.content om) c) : Sorts lib n tag om c :=
  ⟨c, .error .noMem, false, impl_dropped h, by simp [hnot], by simp, fun _ => rfl⟩

/-- Every chain is sorted as it should be, and the call returns, exactly if the
header that it holds does not announce more than fits in the array. -/
theorem sorts_iff_fits (hlib : lib.Documented) (hdec : Decodes lib) (n : Nat) (tag : τ) (om : μ)
    (readChannel : Channel (HostPacket τ) 1) :
    Sorts lib n tag om readChannel ↔
      (4 ≤ (lib.content om).length → 4 + announced (lib.content om) ≤ n) := by
  constructor
  · rintro ⟨d, ret, freed, hret, -⟩ h
    by_contra hn
    have hparse : parseAcl lib n om = none := parseAcl_oversized hlib hdec h (by omega)
    simp [bleTransportToHsAclImpl, hparse] at hret
  · intro hfits
    by_cases h : 4 ≤ (lib.content om).length
    · have hn := hfits h
      by_cases hlong : 4 + announced (lib.content om) ≤ (lib.content om).length
      · have hbytes : ((lib.content om).take (4 + announced (lib.content om))).length ≤ n := by
          rw [List.length_take]
          omega
        obtain ⟨data, hdata, hroom, hfull⟩ :=
          impl_parsed tag readChannel (parseAcl_whole hlib hdec hn hlong) hbytes
        by_cases hempty : readChannel.items = []
        · obtain ⟨d, himpl, hitems⟩ := hroom hempty
          exact ⟨d, .ok (), true, himpl, by simp [Acceptable, hlong, hn, hempty],
            fun _ => ⟨data, hdata, hitems⟩, by simp⟩
        · exact ⟨readChannel, .error .noMem, false, hfull hempty, by simp [Acceptable, hempty],
            by simp, fun _ => rfl⟩
      · exact sorts_of_dropped (parseAcl_truncated hlib hdec h hn (by omega))
          (fun hacc => hlong hacc.1)
    · refine sorts_of_dropped (parseAcl_headless hlib (by omega)) (fun hacc => ?_)
      have := hacc.1
      omega

theorem plain_decodes : Decodes plain where
  header _ _ _ _ := rfl
  data hdr data h := by simp [plain, Plain.aclPacketFromHeader, h]

/-- Two bytes of data are announced and there are three. -/
theorem sorts_iff_fits_short :
    Sorts plain 16 () [1, 0, 2, 0, 7, 8, 9] (Channel.empty : Channel (HostPacket Unit) 1) :=
  (sorts_iff_fits plain_documented plain_decodes 16 () [1, 0, 2, 0, 7, 8, 9] Channel.empty).mpr
    (fun _ => by decide)

/-- A chain of four bytes announces 65535 more, and the call panics. -/
theorem oversized_panics :
    bleTransportToHsAclImpl plain 300 () [1, 0, 255, 255]
      (Channel.empty : Channel (HostPacket Unit) 1) = none ∧
    ¬ Sorts plain 300 () [1, 0, 255, 255] (Channel.empty : Channel (HostPacket Unit) 1) := by
  have hpanic : bleTransportToHsAclImpl plain 300 () [1, 0, 255, 255]
      (Channel.empty : Channel (HostPacket Unit) 1) = none := rfl
  refine ⟨hpanic, ?_⟩
  rintro ⟨d, ret, freed, hret, -⟩
  rw [hpanic] at hret
  cases hret

end AclInbound
