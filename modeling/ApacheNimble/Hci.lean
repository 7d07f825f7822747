import Mathlib.Tactic.Common

/-!
# What the controller gets from outside the crate

The parsers of the HCI library and the buffer chains of the C library are
parameters of everything that follows. `Documented` says what is relied on.
-/
namespace Hci

abbrev Bytes := List UInt8

inductive OsError where
  | noMem | invalid | invalidParameter | notAligned | badMutex | timeout
  | errInISR | errPriviliged | notStarted | noEnt | busy | error
  deriving DecidableEq, Repr

abbrev HciError := UInt8

def INVALID_HCI_PARAMETERS : HciError := 0x12

inductive Error where
  | io (e : OsError)
  | hci (e : HciError)
  deriving DecidableEq, Repr

/-- The kinds of packet that are sent to the host. -/
inductive PacketKind where
  | aclData | event
  deriving DecidableEq, Repr

structure CommandComplete where
  cmdOpcode : UInt16
  bytes : Bytes
  deriving DecidableEq, Repr

structure CommandStatus where
  cmdOpcode : UInt16
  status : UInt8
  deriving DecidableEq, Repr

inductive Event where
  | commandComplete (c : CommandComplete)
  | commandStatus (c : CommandStatus)
  | other (code : UInt8) (params : Bytes)
  deriving DecidableEq, Repr

structure EventPacketHeader where
  code : UInt8
  paramsLen : UInt8
  deriving DecidableEq, Repr

structure AclPacketHeader where
  handle : UInt16
  dataLen : UInt16
  deriving DecidableEq, Repr

structure AclPacket where
  header : AclPacketHeader
  data : Bytes
  deriving DecidableEq, Repr

inductive ControllerToHostPacket where
  | acl (p : AclPacket)
  | event (e : Event)
  deriving DecidableEq, Repr

/-- The events by which a controller answers a command. -/
def ControllerToHostPacket.isResponse : ControllerToHostPacket → Bool
  | .event (.commandComplete _) => true
  | .event (.commandStatus _) => true
  | _ => false

/-- Parsers give the value at the front of the bytes, or none. The chains of
type `μ` are read through `osMbufCopydata` from their front and cut by
`osMbufAdj`; `content` is what a chain holds. -/
structure External (μ : Type) where
  eventPacketHeader : Bytes → Option EventPacketHeader
  eventFromHciBytes : Bytes → Option Event
  aclPacketHeader : Bytes → Option AclPacketHeader
  aclPacketFromHciBytes : Bytes → Option AclPacket
  aclPacketFromHeader : AclPacketHeader → Bytes → Option AclPacket
  content : μ → Bytes
  osMbufCopydata : μ → Nat → Option Bytes
  osMbufAdj : μ → Nat → μ

def External.fromHciBytesWithKind {μ : Type} (lib : External μ) :
    PacketKind → Bytes → Option ControllerToHostPacket
  | .aclData, data => (lib.aclPacketFromHciBytes data).map .acl
  | .event, data => (lib.eventFromHciBytes data).map .event

/-- A parser reads the packet that is declared at the front and nothing after
it. Data is copied if the chain is long enough and cut off at the front. -/
structure External.Documented {μ : Type} (lib : External μ) : Prop where
  event_front : ∀ (code length : UInt8) (params tail : Bytes), params.length = length.toNat →
    lib.eventFromHciBytes (code :: length :: (params ++ tail)) =
      lib.eventFromHciBytes (code :: length :: params)
  acl_front : ∀ (header : Bytes) (hdr : AclPacketHeader) (data tail : Bytes), header.length = 4 →
    lib.aclPacketHeader header = some hdr → data.length = hdr.dataLen.toNat →
    lib.aclPacketFromHciBytes (header ++ data ++ tail) = lib.aclPacketFromHeader hdr data
  copydata : ∀ om len, lib.osMbufCopydata om len =
    if len ≤ (lib.content om).length then some ((lib.content om).take len) else none
  adj : ∀ om len, lib.content (lib.osMbufAdj om len) = (lib.content om).drop len

/-- A data packet is never taken for the answer to a command. -/
theorem External.aclData_isResponse {μ : Type} (lib : External μ) {data : Bytes}
    {p : ControllerToHostPacket} (h : lib.fromHciBytesWithKind .aclData data = some p) :
    p.isResponse = false := by
  obtain ⟨a, -, rfl⟩ := Option.map_eq_some_iff.mp h
  rfl

def u16 (lo hi : UInt8) : UInt16 := UInt16.ofNat (lo.toNat + 256 * hi.toNat)

namespace Plain

def event (code : UInt8) (params : Bytes) : Option Event :=
  if code = 0x0E then
    match params with
    | _ :: lo :: hi :: bytes => some (.commandComplete ⟨u16 lo hi, bytes⟩)
    | _ => none
  else if code = 0x0F then
    match params with
    | [status, _, lo, hi] => some (.commandStatus ⟨u16 lo hi, status⟩)
    | _ => none
  else some (.other code params)

def eventFromHciBytes : Bytes → Option Event
  | code :: length :: rest =>
    if length.toNat ≤ rest.length then event code (rest.take length.toNat) else none
  | _ => none

def aclPacketHeader : Bytes → Option AclPacketHeader
  | [a, b, c, d] => some ⟨u16 a b, u16 c d⟩
  | _ => none

def aclPacketFromHeader (hdr : AclPacketHeader) (data : Bytes) : Option AclPacket :=
  if data.length = hdr.dataLen.toNat then some ⟨hdr, data⟩ else none

def aclPacketFromHciBytes (bytes : Bytes) : Option AclPacket := do
  let hdr ← aclPacketHeader (bytes.take 4)
  aclPacketFromHeader hdr ((bytes.drop 4).take hdr.dataLen.toNat)

end Plain

/-- The packet formats read plainly, and chains of a single buffer. -/
def plain : External Bytes where
  eventPacketHeader
    | code :: paramsLen :: _ => some ⟨code, paramsLen⟩
    | _ => none
  eventFromHciBytes := Plain.eventFromHciBytes
  aclPacketHeader := Plain.aclPacketHeader
  aclPacketFromHciBytes := Plain.aclPacketFromHciBytes
  aclPacketFromHeader := Plain.aclPacketFromHeader
  content := id
  osMbufCopydata om len := if len ≤ om.length then some (om.take len) else none
  osMbufAdj om len := om.drop len

theorem plain_documented : plain.Documented where
  event_front code length params tail h := by
    simp [plain, Plain.eventFromHciBytes, ← h]
  acl_front header hdr data tail hheader hhdr hdata := by
    have htake : (header ++ data ++ tail).take 4 = header := by
      rw [List.append_assoc]
      exact List.take_left' hheader
    have hdrop : (header ++ data ++ tail).drop 4 = data ++ tail := by
      rw [List.append_assoc]
      exact List.drop_left' hheader
    simp only [plain] at hhdr ⊢
    simp only [Plain.aclPacketFromHciBytes, htake, hdrop, hhdr, Option.bind_eq_bind,
      Option.bind_some, List.take_left' hdata]
  copydata om len := rfl
  adj om len := rfl

end Hci
