import ApacheNimble.Transport

/-!
# The command that is changed before it is sent

`transform` patches a serialised command at two fixed positions. The
controller reads what it gets field by field, every number with its low byte
first.
-/
namespace HostBufferSize

open Hci Controller Transport

variable {μ : Type} {lib : External μ}

structure Params where
  hostAclDataPacketLen : UInt16
  hostSyncDataPacketLen : UInt8
  hostTotalAclDataPackets : UInt16
  hostTotalSyncDataPackets : UInt16
  deriving DecidableEq, Repr

def lo (v : UInt16) : UInt8 := UInt8.ofNat v.toNat

def hi (v : UInt16) : UInt8 := UInt8.ofNat (v.toNat / UInt8.size)

/-- The opcode, the number of bytes that follow, and the parameters. -/
def writeHci (params : Params) : Bytes :=
  [lo HOST_BUFFER_SIZE, hi HOST_BUFFER_SIZE, 7,
    lo params.hostAclDataPacketLen, hi params.hostAclDataPacketLen,
    params.hostSyncDataPacketLen,
    lo params.hostTotalAclDataPackets, hi params.hostTotalAclDataPackets,
    lo params.hostTotalSyncDataPackets, hi params.hostTotalSyncDataPackets]

def command (params : Params) : Cmd := ⟨HOST_BUFFER_SIZE, some (writeHci params)⟩

/-- A command as the controller reads it. -/
structure Received where
  opcode : UInt16
  length : UInt8
  params : Params
  deriving DecidableEq, Repr

def decode : Bytes → Option Received
  | [o₀, o₁, len, a₀, a₁, s, b₀, b₁, c₀, c₁] =>
    some ⟨u16 o₀ o₁, len, ⟨u16 a₀ a₁, s, u16 b₀ b₁, u16 c₀ c₁⟩⟩
  | _ => none

/-- The command without its synchronous fields. -/
def cleared (params : Params) : Received :=
  ⟨HOST_BUFFER_SIZE, 7,
    { params with hostSyncDataPacketLen := 0, hostTotalSyncDataPackets := 0 }⟩

theorem u16_toNat (a b : UInt8) : (u16 a b).toNat = a.toNat + 256 * b.toNat := by
  have ha := a.toNat_lt
  have hb := b.toNat_lt
  rw [u16, UInt16.toNat_ofNat']
  omega

theorem hi_toNat (v : UInt16) : (hi v).toNat = v.toNat / 256 := by
  have hv := v.toNat_lt
  rw [hi, UInt8.toNat_ofNat', UInt8.size]
  omega

/-- The two bytes of a number make the number. -/
@[simp] theorem u16_lo_hi (v : UInt16) : u16 (lo v) (hi v) = v := by
  apply UInt16.toNat_inj.mp
  rw [u16_toNat, hi_toNat, lo, UInt8.toNat_ofNat']
  omega

theorem decode_writeHci (params : Params) :
    decode (writeHci params) = some ⟨HOST_BUFFER_SIZE, 7, params⟩ := by
  simp [decode, writeHci]

theorem u16_zero_eq_zero (v : UInt16) : u16 0 (hi v) = 0 ↔ v.toNat < 256 := by
  rw [← UInt16.toNat_inj, u16_toNat, hi_toNat]
  simp only [UInt8.toNat_zero, UInt16.toNat_zero]
  omega

/-- The positions are inside the command, and what the controller reads has
kept the high byte of the last field. -/
theorem transform_command (params : Params) :
    ∃ cmdData, transform (command params) (writeHci params) = some cmdData ∧
      cmdData.length = (writeHci params).length ∧
      decode cmdData = some ⟨HOST_BUFFER_SIZE, 7, { params with
        hostSyncDataPacketLen := 0
        hostTotalSyncDataPackets := u16 0 (hi params.hostTotalSyncDataPackets) }⟩ :=
  ⟨_, rfl, rfl, by simp [decode, writeHci]⟩

theorem transform_other {cmd : Cmd} (h : cmd.opcode ≠ HOST_BUFFER_SIZE) (bytes : Bytes) :
    transform cmd bytes = some bytes := if_neg h

/-- What `execute_command` gives to the controller is what `transform` makes
of the bytes of the command. -/
theorem serialize_step {s : State} {i : CallId} {cmd : Cmd} {ptr : Ptr} {bytes cmdData : Bytes}
    (hpc : s.calls i = .allocated cmd ptr) (hwrite : cmd.writeHci = some bytes)
    (htransform : transform cmd bytes = some cmdData) :
    callStep lib (.serialize i) s = some (s.setCall i (.serialized ptr cmdData)) := by
  simp [callStep, hpc, hwrite, htransform]

/-- A host buffer size command reaches the controller with both synchronous
fields clear and nothing else changed exactly when the number of its
synchronous packets fits in one byte. The positions that are patched are
inside it, and every other command is sent as it is serialised. -/
theorem cleared_iff_fits (lib : External μ) (s : State) (i : CallId) (ptr : Ptr) :
    (∀ params, s.calls i = .allocated (command params) ptr →
      ∃ t cmdData, callStep lib (.serialize i) s = some t ∧
        t.calls i = .serialized ptr cmdData ∧ cmdData.length = (writeHci params).length ∧
        (decode cmdData = some (cleared params) ↔ params.hostTotalSyncDataPackets.toNat < 256)) ∧
    (∀ cmd bytes, s.calls i = .allocated cmd ptr → cmd.opcode ≠ HOST_BUFFER_SIZE →
      cmd.writeHci = some bytes →
      ∃ t, callStep lib (.serialize i) s = some t ∧ t.calls i = .serialized ptr bytes) := by
  constructor
  · intro params hpc
    obtain ⟨cmdData, htransform, hlen, hdecode⟩ := transform_command params
    refine ⟨_, cmdData, serialize_step hpc rfl htransform, by simp [State.setCall], hlen, ?_⟩
    rw [hdecode, ← u16_zero_eq_zero]
    simp [cleared]
  · intro cmd bytes hpc hop hwrite
    exact ⟨_, serialize_step hpc hwrite (transform_other hop bytes), by simp [State.setCall]⟩

theorem cleared_iff_fits_small :
    ∃ t cmdData, callStep plain (.serialize 0)
        (start.setCall 0 (.allocated (command ⟨251, 16, 20, 8⟩) 64)) = some t ∧
      t.calls 0 = .serialized 64 cmdData ∧ cmdData.length = 10 ∧
      decode cmdData = some (cleared ⟨251, 16, 20, 8⟩) := by
  obtain ⟨t, cmdData, hstep, hcall, hlen, hiff⟩ := (cleared_iff_fits plain
    (start.setCall 0 (.allocated (command ⟨251, 16, 20, 8⟩) 64)) 0 64).1 ⟨251, 16, 20, 8⟩ rfl
  exact ⟨t, cmdData, hstep, hcall, hlen, hiff.mpr (by decide)⟩

/-- Of 300 synchronous packets 256 are left. -/
theorem high_byte_left :
    ∃ t cmdData, callStep plain (.serialize 0)
        (start.setCall 0 (.allocated (command ⟨251, 16, 20, 300⟩) 64)) = some t ∧
      t.calls 0 = .serialized 64 cmdData ∧
      decode cmdData = some ⟨HOST_BUFFER_SIZE, 7, ⟨251, 0, 20, 256⟩⟩ ∧
      decode cmdData ≠ some (cleared ⟨251, 16, 20, 300⟩) :=
  ⟨_, _, rfl, rfl, by decide, by decide⟩

end HostBufferSize
