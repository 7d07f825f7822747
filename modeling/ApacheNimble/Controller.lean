import ApacheNimble.Hci
import ApacheNimble.Fifo

/-!
# The functions of the controller between their await points

A packet to the host is an array of `n` bytes, the packet at its front and
zeros after it. It carries a tag of any type, which no function reads.
-/
namespace Controller

open Hci Fifo

variable {μ τ : Type}

structure HostPacket (τ : Type) where
  kind : PacketKind
  data : Bytes
  tag : τ

/-- An event as the controller hands it up, with as many bytes as it says. -/
structure BleHciEv where
  opcode : UInt8
  length : UInt8
  data : Bytes
  sized : data.length = length.toNat

def BleHciEv.bytes (buf : BleHciEv) : Bytes := buf.opcode :: buf.length :: buf.data

/-- The completion of a reset command. -/
def resetComplete : BleHciEv := ⟨0x0E, 4, [1, 3, 12, 0], rfl⟩

/-- An event of the link layer that answers no command. -/
def leMeta : BleHciEv := ⟨0x3E, 2, [1, 0], rfl⟩

/-- The array of `n` zeros with the bytes copied to its front. -/
def copyToFront (n : Nat) (bytes : Bytes) : Option Bytes :=
  if bytes.length ≤ n then some (bytes ++ List.replicate (n - bytes.length) 0) else none

/-- The event completes no command at all. -/
def isNoOp (lib : External μ) (data : Bytes) : Bool :=
  match lib.fromHciBytesWithKind .event data with
  | some (.event (.commandComplete c)) => c.cmdOpcode == 0
  | _ => false

/-- Returning zero is `ok`. -/
def bleTransportToHsEvtImpl (lib : External μ) (n : Nat) (tag : τ) (buf : BleHciEv)
    (readChannel : Channel (HostPacket τ) 1) :
    Option (Channel (HostPacket τ) 1 × Except OsError Unit) := do
  let data ← copyToFront n buf.bytes
  if isNoOp lib data then
    return (readChannel, .ok ())
  else
    match readChannel.trySend ⟨.event, data, tag⟩ with
    | some ch => return (ch, .ok ())
    | none => return (readChannel, .error .noMem)

/-- `OsMbuf::read` takes all the bytes asked for, and `read_exact` of no bytes
does not call it. -/
def readExact (lib : External μ) (len : Nat) (om : μ) : Option (Bytes × μ) :=
  if len = 0 then some ([], om)
  else (lib.osMbufCopydata om len).map (fun bytes => (bytes, lib.osMbufAdj om len))

def aclPacketHeaderReadHci (lib : External μ) (om : μ) : Option (Bytes × AclPacketHeader × μ) := do
  let (header, om) ← readExact lib 4 om
  let hdr ← lib.aclPacketHeader header
  return (header, hdr, om)

/-- The bytes of a packet that parses. The slice panics when the length in the
header does not fit, which is the outer `none`. -/
def parseAcl (lib : External μ) (n : Nat) (om : μ) : Option (Option Bytes) :=
  match aclPacketHeaderReadHci lib om with
  | none => some none
  | some (header, hdr, om) =>
    if 4 + hdr.dataLen.toNat ≤ n then
      match readExact lib hdr.dataLen.toNat om with
      | none => some none
      | some (data, _) => some ((lib.aclPacketFromHeader hdr data).map (fun _ => header ++ data))
    else none

/-- The packet the controller supplies in a chain: as much of its content as
the header says. -/
def suppliedAcl (lib : External μ) (om : μ) : Bytes :=
  match lib.aclPacketHeader ((lib.content om).take 4) with
  | some hdr => (lib.content om).take (4 + hdr.dataLen.toNat)
  | none => lib.content om

/-- The flag says whether the chain has been freed. -/
def bleTransportToHsAclImpl (lib : External μ) (n : Nat) (tag : τ) (om : μ)
    (readChannel : Channel (HostPacket τ) 1) :
    Option (Channel (HostPacket τ) 1 × Except OsError Unit × Bool) := do
  match ← parseAcl lib n om with
  | none => return (readChannel, .error .noMem, false)
  | some bytes =>
    let data ← copyToFront n bytes
    match readChannel.trySend ⟨.aclData, data, tag⟩ with
    | some ch => return (ch, .ok (), true)
    | none => return (readChannel, .error .noMem, false)

abbrev Ptr := Nat

def nullMut : Ptr := 0

/-- What `write_acl_data` and `write_iso_data` return, and the chains they free
and leave to the controller. -/
structure Written where
  ret : Except OsError Unit
  freed : List Ptr
  handedOver : List Ptr

/-- Both functions from the serialisation on, which can fail; `ret` is what the
controller returns. -/
def writeChain (om : Ptr) (serialized : Except OsError Unit) (ret : Int) : Written :=
  match serialized with
  | .error e => ⟨.error e, [om], []⟩
  | .ok () => if ret ≠ 0 then ⟨.ok (), [om], []⟩ else ⟨.ok (), [], [om]⟩

def writeAclData (om : Ptr) (serialized : Except OsError Unit) (ret : Int) : Written :=
  if om = nullMut then ⟨.error .noMem, [], []⟩ else writeChain om serialized ret

/-- Here the chain is not compared with null. -/
def writeIsoData (om : Ptr) (serialized : Except OsError Unit) (ret : Int) : Written :=
  writeChain om serialized ret

/-- What the body of the loop in `read` does with a packet. -/
inductive ReadBody where
  | forward
  | done (r : Except OsError ControllerToHostPacket)
  deriving Repr

def route : Option ControllerToHostPacket → ReadBody
  | some v => if v.isResponse then .forward else .done (.ok v)
  | none => .done (.error .invalid)

/-- The caller's buffer has `len` bytes and is overwritten as a whole, which
panics when the array is shorter. -/
def readBody (lib : External μ) (len : Nat) (p : HostPacket τ) : Option (Bytes × ReadBody) :=
  if len ≤ p.data.length then
    some (p.data.take len, route (lib.fromHciBytesWithKind p.kind (p.data.take len)))
  else none

/-- One poll of `ReadyToSend`. -/
def readyToSend {α : Type} (ch : Channel α 1) : Bool := !ch.isFull

def HOST_BUFFER_SIZE : UInt16 := 0x0C33

/-- A command as its type describes it: the opcode, and what writing it into
a buffer of its size gives. -/
structure Cmd where
  opcode : UInt16
  writeHci : Option Bytes
  deriving DecidableEq, Repr

/-- Indexing past the end of the command panics. -/
def transform (cmd : Cmd) (cmdData : Bytes) : Option Bytes :=
  if cmd.opcode = HOST_BUFFER_SIZE then
    if 8 < cmdData.length then some ((cmdData.set 5 0).set 8 0) else none
  else some cmdData

/-- The end of `execute_command`, when the response has been copied. -/
def parseResponse (lib : External μ) (buf : Bytes) : Option (Except Error Event) :=
  match lib.eventPacketHeader buf with
  | none => some (.error (.hci INVALID_HCI_PARAMETERS))
  | some hdr =>
    if 2 + hdr.paramsLen.toNat ≤ buf.length then
      match lib.eventFromHciBytes (buf.take (2 + hdr.paramsLen.toNat)) with
      | some e => some (.ok e)
      | none => some (.error (.hci INVALID_HCI_PARAMETERS))
    else none

section Specs

/-- Whatever happens to it, the chain is freed or handed over, once. -/
theorem writeChain_settles (om : Ptr) (serialized : Except OsError Unit) (ret : Int) :
    (writeChain om serialized ret).freed = [om] ∧ (writeChain om serialized ret).handedOver = [] ∨
    (writeChain om serialized ret).freed = [] ∧
      (writeChain om serialized ret).handedOver = [om] := by
  cases serialized with
  | error e => exact .inl ⟨rfl, rfl⟩
  | ok u =>
    by_cases hret : ret ≠ 0
    · exact .inl (by simp [writeChain, hret])
    · exact .inr (by simp [writeChain, hret])

variable {lib : External μ} {n : Nat} {tag : τ}

theorem readyToSend_iff {α : Type} (ch : Channel α 1) : readyToSend ch = true ↔ ch.items = [] := by
  have := ch.isFull_iff
  cases hl : ch.items with
  | nil =>
    rw [hl] at this
    simpa [readyToSend] using this
  | cons a rest =>
    rw [hl] at this
    simpa [readyToSend] using this

theorem copyToFront_eq_some {bytes data : Bytes} :
    copyToFront n bytes = some data ↔
      bytes.length ≤ n ∧ data = bytes ++ List.replicate (n - bytes.length) 0 := by
  simp [copyToFront, eq_comm]

theorem copyToFront_length {bytes data : Bytes} (h : copyToFront n bytes = some data) :
    data.length = n := by
  obtain ⟨hle, rfl⟩ := copyToFront_eq_some.mp h
  simp
  omega

/-- A piece of the array that is long enough is the packet and what follows. -/
theorem copyToFront_take {bytes data : Bytes} {len : Nat} (h : copyToFront n bytes = some data)
    (hlen : bytes.length ≤ len) : ∃ tail, data.take len = bytes ++ tail := by
  obtain ⟨-, rfl⟩ := copyToFront_eq_some.mp h
  exact ⟨_, by rw [List.take_append, List.take_of_length_le hlen]⟩

/-- The bytes are a packet of the kind and nothing more. -/
def Complete (lib : External μ) : PacketKind → Bytes → Prop
  | .event, bytes => ∃ (code length : UInt8) (params : Bytes), params.length = length.toNat ∧
      bytes = code :: length :: params
  | .aclData, bytes => ∃ (header : Bytes) (hdr : AclPacketHeader) (data : Bytes),
      header.length = 4 ∧ lib.aclPacketHeader header = some hdr ∧
      data.length = hdr.dataLen.toNat ∧ bytes = header ++ data

theorem BleHciEv.complete (lib : External μ) (buf : BleHciEv) : Complete lib .event buf.bytes :=
  ⟨buf.opcode, buf.length, buf.data, buf.sized, rfl⟩

/-- What follows a packet does not matter to its parser. -/
theorem parse_front (hlib : lib.Documented) {kind : PacketKind} {bytes : Bytes}
    (h : Complete lib kind bytes) (tail : Bytes) :
    lib.fromHciBytesWithKind kind (bytes ++ tail) = lib.fromHciBytesWithKind kind bytes := by
  cases kind with
  | event =>
    obtain ⟨code, length, params, hlen, rfl⟩ := h
    exact congrArg (Option.map _) (hlib.event_front code length params tail hlen)
  | aclData =>
    obtain ⟨header, hdr, data, hheader, hhdr, hdata, rfl⟩ := h
    have htail := hlib.acl_front header hdr data tail hheader hhdr hdata
    have hnil := hlib.acl_front header hdr data [] hheader hhdr hdata
    rw [List.append_nil] at hnil
    exact congrArg (Option.map _) (htail.trans hnil.symm)

theorem isNoOp_front (hlib : lib.Documented) {bytes : Bytes} (h : Complete lib .event bytes)
    (tail : Bytes) : isNoOp lib (bytes ++ tail) = isNoOp lib bytes := by
  rw [isNoOp, isNoOp, parse_front hlib h]

/-- Everything handing up an event can do. -/
theorem evtImpl_cases {buf : BleHciEv} {c d : Channel (HostPacket τ) 1} {ret : Except OsError Unit}
    (h : bleTransportToHsEvtImpl lib n tag buf c = some (d, ret)) :
    ∃ data, copyToFront n buf.bytes = some data ∧
      (isNoOp lib data = true ∧ d = c ∧ ret = .ok () ∨
      isNoOp lib data = false ∧ c.items = [] ∧ d.items = [⟨.event, data, tag⟩] ∧ ret = .ok () ∨
      isNoOp lib data = false ∧ c.items ≠ [] ∧ d = c ∧ ret = .error .noMem) := by
  obtain ⟨data, hdata, h⟩ := Option.bind_eq_some_iff.mp h
  refine ⟨data, hdata, ?_⟩
  cases hop : isNoOp lib data with
  | true =>
    rw [if_pos hop] at h
    cases h
    exact .inl ⟨rfl, rfl, rfl⟩
  | false =>
    rw [if_neg (by simp [hop])] at h
    split at h
    · rename_i hsend
      cases h
      obtain ⟨hc, hd⟩ := Channel.trySend_one.mp hsend
      exact .inr (.inl ⟨rfl, hc, hd, rfl⟩)
    · rename_i hsend
      cases h
      exact .inr (.inr ⟨rfl, Channel.trySend_one_none.mp hsend, rfl, rfl⟩)

/-- Everything handing up a data packet can do. -/
theorem aclImpl_cases {om : μ} {c d : Channel (HostPacket τ) 1} {ret : Except OsError Unit}
    {freed : Bool} (h : bleTransportToHsAclImpl lib n tag om c = some (d, ret, freed)) :
    parseAcl lib n om = some none ∧ d = c ∧ ret = .error .noMem ∧ freed = false ∨
    ∃ bytes data, parseAcl lib n om = some (some bytes) ∧ copyToFront n bytes = some data ∧
      (c.items = [] ∧ d.items = [⟨.aclData, data, tag⟩] ∧ ret = .ok () ∧ freed = true ∨
      c.items ≠ [] ∧ d = c ∧ ret = .error .noMem ∧ freed = false) := by
  obtain ⟨parsed, hparse, h⟩ := Option.bind_eq_some_iff.mp h
  cases parsed with
  | none =>
    cases h
    exact .inl ⟨hparse, rfl, rfl, rfl⟩
  | some bytes =>
    obtain ⟨data, hdata, h⟩ := Option.bind_eq_some_iff.mp h
    refine .inr ⟨bytes, data, hparse, hdata, ?_⟩
    split at h
    · rename_i hsend
      cases h
      obtain ⟨hc, hd⟩ := Channel.trySend_one.mp hsend
      exact .inl ⟨hc, hd, rfl, rfl⟩
    · rename_i hsend
      cases h
      exact .inr ⟨Channel.trySend_one_none.mp hsend, rfl, rfl, rfl⟩

theorem readExact_eq_some (hlib : lib.Documented) {len : Nat} {om om' : μ} {bytes : Bytes}
    (h : readExact lib len om = some (bytes, om')) :
    bytes.length = len ∧ lib.content om = bytes ++ lib.content om' := by
  unfold readExact at h
  split at h
  · rename_i hlen
    cases h
    exact ⟨hlen.symm, rfl⟩
  · obtain ⟨taken, hcopy, he⟩ := Option.map_eq_some_iff.mp h
    rw [hlib.copydata] at hcopy
    obtain ⟨hle, htake⟩ := Option.ite_none_right_eq_some.mp hcopy
    cases htake
    cases he
    refine ⟨by simp [hle], ?_⟩
    rw [hlib.adj, List.take_append_drop]

/-- A packet that parses is complete and is the packet that was supplied. -/
theorem parseAcl_eq_some (hlib : lib.Documented) {om : μ} {bytes : Bytes}
    (h : parseAcl lib n om = some (some bytes)) :
    bytes = suppliedAcl lib om ∧ Complete lib .aclData bytes ∧
      (lib.fromHciBytesWithKind .aclData bytes).isSome := by
  unfold parseAcl at h
  split at h
  · cases h
  · rename_i header hdr om₁ hread
    obtain ⟨⟨header', om'⟩, hhead, hread⟩ := Option.bind_eq_some_iff.mp hread
    obtain ⟨hdr', hhdr, he⟩ := Option.bind_eq_some_iff.mp hread
    cases he
    obtain ⟨hheader, hcontent⟩ := readExact_eq_some hlib hhead
    obtain ⟨-, h⟩ := Option.ite_none_right_eq_some.mp h
    split at h
    · cases h
    · rename_i data om₂ hdata
      obtain ⟨hlen, hcontent'⟩ := readExact_eq_some hlib hdata
      obtain ⟨p, hp, hbytes⟩ := Option.map_eq_some_iff.mp (Option.some.inj h)
      subst hbytes
      have hfront := hlib.acl_front header hdr data [] hheader hhdr hlen
      rw [List.append_nil] at hfront
      refine ⟨?_, ⟨header, hdr, data, hheader, hhdr, hlen, rfl⟩, ?_⟩
      · have htake : (lib.content om).take 4 = header := by
          rw [hcontent]
          exact List.take_left' hheader
        have hall : (lib.content om).take (4 + hdr.dataLen.toNat) = header ++ data := by
          rw [hcontent, hcontent', ← List.append_assoc]
          exact List.take_left' (by rw [List.length_append, hheader, hlen])
        simp only [suppliedAcl, htake, hhdr, hall]
      · simp [External.fromHciBytesWithKind, hfront, hp]

/-- With a buffer that is long enough, what `read` does with a packet depends
on the packet alone. -/
theorem readBody_packet (hlib : lib.Documented) {kind : PacketKind} {bytes data buf : Bytes}
    {len : Nat} {b : ReadBody} (hcomplete : Complete lib kind bytes)
    (hdata : copyToFront n bytes = some data) (hlen : bytes.length ≤ len)
    (h : readBody lib len ⟨kind, data, tag⟩ = some (buf, b)) :
    b = route (lib.fromHciBytesWithKind kind bytes) ∧ ∃ tail, buf = bytes ++ tail := by
  obtain ⟨-, he⟩ := Option.ite_none_right_eq_some.mp h
  cases he
  obtain ⟨tail, htail⟩ := copyToFront_take hdata hlen
  simp only [htail]
  exact ⟨by rw [parse_front hlib hcomplete], tail, rfl⟩

theorem route_forward_iff {v : Option ControllerToHostPacket} :
    route v = .forward ↔ ∃ p, v = some p ∧ p.isResponse = true := by
  cases v with
  | none => simp [route]
  | some p => cases hp : p.isResponse <;> simp [route, hp]

end Specs

end Controller
