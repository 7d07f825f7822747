import ApacheNimble.Controller

/-!
# What `exec` makes of a response

There are two implementations, for the commands that a `CommandComplete` event
answers and for those that a `CommandStatus` event answers. Both look at the
event that `execute_command` has parsed.
-/
namespace CommandResult

open Hci Controller

variable {μ ρ : Type} {lib : External μ} {cmd : Cmd} {buf : Bytes} {event : Event}

def SUCCESS : HciError := 0

/-- What `exec` of a `SyncCmd` makes of the event. -/
def syncResult (toResult : CommandComplete → Except HciError ρ) (cmd : Cmd) :
    Event → Except Error ρ
  | .commandComplete c =>
    if c.cmdOpcode = cmd.opcode then (toResult c).mapError Error.hci
    else .error (.io .invalidParameter)
  | _ => .error (.io .invalidParameter)

/-- What `exec` of an `AsyncCmd` makes of the event. -/
def asyncResult (cmd : Cmd) : Event → Except Error Unit
  | .commandStatus c =>
    if c.cmdOpcode = cmd.opcode then .ok () else .error (.io .invalidParameter)
  | _ => .error (.io .invalidParameter)

/-- The end of `exec`, from the bytes that have been taken from `CMD_SIGNAL`. -/
def exec (lib : External μ) (result : Event → Except Error ρ) (buf : Bytes) :
    Option (Except Error ρ) :=
  (parseResponse lib buf).map (fun response => response.bind result)

/-- The opcode and the status of an event that completes a command. -/
def completion (status : CommandComplete → HciError) : Event → Option (UInt16 × HciError)
  | .commandComplete c => some (c.cmdOpcode, status c)
  | _ => none

/-- The opcode and the status of an event that acknowledges a command. -/
def acknowledgement : Event → Option (UInt16 × HciError)
  | .commandStatus c => some (c.cmdOpcode, c.status)
  | _ => none

/-- Success is returned only for an event of the expected kind that carries the
command's opcode and says so, and what else such an event says is returned as
an error. -/
structure Reports (lib : External μ) (answer : Event → Option (UInt16 × HciError)) (cmd : Cmd)
    (buf : Bytes) (returned : Option (Except Error ρ)) : Prop where
  success : ∀ r, returned = some (.ok r) → ∃ event, parseResponse lib buf = some (.ok event) ∧
    answer event = some (cmd.opcode, SUCCESS)
  failure : ∀ event e, parseResponse lib buf = some (.ok event) →
    answer event = some (cmd.opcode, e) → e ≠ SUCCESS → returned = some (.error (.hci e))

/-- The same of one event. -/
structure Honest (answer : Event → Option (UInt16 × HciError)) (cmd : Cmd)
    (result : Event → Except Error ρ) (event : Event) : Prop where
  success : ∀ r, result event = .ok r → answer event = some (cmd.opcode, SUCCESS)
  failure : ∀ e, answer event = some (cmd.opcode, e) → e ≠ SUCCESS →
    result event = .error (.hci e)

/-- Both implementations report what they make of the event they get. -/
theorem exec_reports_iff {answer : Event → Option (UInt16 × HciError)}
    {result : Event → Except Error ρ} :
    Reports lib answer cmd buf (exec lib result buf) ↔
      ∀ event, parseResponse lib buf = some (.ok event) → Honest answer cmd result event := by
  constructor
  · intro h event hparse
    have hexec : exec lib result buf = some (result event) := by
      rw [exec, hparse]
      rfl
    constructor
    · intro r hr
      obtain ⟨event', hparse', hanswer⟩ := h.success r (by rw [hexec, hr])
      cases hparse.symm.trans hparse'
      exact hanswer
    · intro e hanswer he
      have hreturned := h.failure event e hparse hanswer he
      rw [hexec] at hreturned
      exact Option.some.inj hreturned
  · intro h
    constructor
    · intro r hr
      obtain ⟨response, hparse, hresponse⟩ := Option.map_eq_some_iff.mp hr
      cases response with
      | error e => cases hresponse
      | ok event => exact ⟨event, hparse, (h event hparse).success r hresponse⟩
    · intro event e hparse hanswer he
      rw [exec, hparse]
      exact congrArg some ((h event hparse).failure e hanswer he)

theorem syncResult_honest {status : CommandComplete → HciError}
    {toResult : CommandComplete → Except HciError ρ}
    (hresult : ∀ c, status c ≠ SUCCESS → toResult c = .error (status c)) (event : Event) :
    Honest (completion status) cmd (syncResult toResult cmd) event := by
  cases event with
  | commandStatus c => exact ⟨nofun, nofun⟩
  | other code params => exact ⟨nofun, nofun⟩
  | commandComplete c =>
    by_cases hop : c.cmdOpcode = cmd.opcode
    · constructor
      · intro r hr
        rw [syncResult, if_pos hop] at hr
        by_cases hs : status c = SUCCESS
        · simp [completion, hop, hs]
        · rw [hresult c hs] at hr
          cases hr
      · intro e hanswer he
        simp only [completion, hop, Option.some.injEq, Prod.mk.injEq, true_and] at hanswer
        subst hanswer
        rw [syncResult, if_pos hop, hresult c he]
        rfl
    · constructor
      · intro r hr
        rw [syncResult, if_neg hop] at hr
        cases hr
      · intro e hanswer
        simp [completion, hop] at hanswer

/-- The status of the event is the one thing that is not looked at. -/
theorem asyncResult_honest_iff : Honest acknowledgement cmd (asyncResult cmd) event ↔
    ∀ c, event = .commandStatus c → c.cmdOpcode = cmd.opcode → c.status = SUCCESS := by
  constructor
  · rintro h c rfl hop
    have hanswer := h.success () (if_pos hop)
    simpa [acknowledgement, hop] using hanswer
  · intro h
    cases event with
    | commandComplete c => exact ⟨nofun, nofun⟩
    | other code params => exact ⟨nofun, nofun⟩
    | commandStatus c =>
      by_cases hop : c.cmdOpcode = cmd.opcode
      · have hs := h c rfl hop
        constructor
        · intro r _
          simp [acknowledgement, hop, hs]
        · intro e hanswer he
          simp only [acknowledgement, hop, hs, Option.some.injEq, Prod.mk.injEq,
            true_and] at hanswer
          exact absurd hanswer.symm he
      · constructor
        · intro r hr
          rw [asyncResult, if_neg hop] at hr
          cases hr
        · intro e hanswer
          simp [acknowledgement, hop] at hanswer

/-- A `SyncCmd` always reports the status of its response. An `AsyncCmd` does
exactly if the response is not one that acknowledges it with an error. -/
theorem reports_iff_not_rejected (lib : External μ) (status : CommandComplete → HciError)
    (toResult : CommandComplete → Except HciError ρ)
    (hresult : ∀ c, status c ≠ SUCCESS → toResult c = .error (status c)) (cmd : Cmd)
    (buf : Bytes) :
    Reports lib (completion status) cmd buf (exec lib (syncResult toResult cmd) buf) ∧
    (Reports lib acknowledgement cmd buf (exec lib (asyncResult cmd) buf) ↔
      ∀ c, parseResponse lib buf = some (.ok (.commandStatus c)) → c.cmdOpcode = cmd.opcode →
        c.status = SUCCESS) := by
  rw [exec_reports_iff, exec_reports_iff]
  refine ⟨fun event _ => syncResult_honest hresult event, ?_⟩
  simp only [asyncResult_honest_iff]
  constructor
  · intro h c hparse hop
    exact h _ hparse c rfl hop
  · rintro h event hparse c rfl hop
    exact h c hparse hop

/-- The status of a completion is the first of its return parameters. -/
theorem reports_iff_not_rejected_reset :
    Reports plain (completion (fun c => c.bytes.headD 0)) ⟨0x0C03, none⟩ [0x0E, 4, 1, 3, 12, 5]
      (exec plain (syncResult (fun c => if c.bytes.headD 0 = SUCCESS then .ok c.bytes
        else .error (c.bytes.headD 0)) ⟨0x0C03, none⟩) [0x0E, 4, 1, 3, 12, 5]) :=
  (reports_iff_not_rejected plain (fun c => c.bytes.headD 0)
    (fun c => if c.bytes.headD 0 = SUCCESS then .ok c.bytes else .error (c.bytes.headD 0))
    (fun _ h => if_neg h) ⟨0x0C03, none⟩ [0x0E, 4, 1, 3, 12, 5]).1

/-- The controller rejects a command, and the caller is told that it runs. -/
theorem rejected_reported_ok :
    parseResponse plain [0x0F, 4, 0x0C, 1, 5, 4] = some (.ok (.commandStatus ⟨0x0405, 0x0C⟩)) ∧
    exec plain (asyncResult ⟨0x0405, none⟩) [0x0F, 4, 0x0C, 1, 5, 4] = some (.ok ()) ∧
    ¬ Reports plain acknowledgement ⟨0x0405, none⟩ [0x0F, 4, 0x0C, 1, 5, 4]
      (exec plain (asyncResult ⟨0x0405, none⟩) [0x0F, 4, 0x0C, 1, 5, 4]) := by
  refine ⟨rfl, rfl, fun h => ?_⟩
  cases h.failure _ 0x0C rfl rfl (by decide)

end CommandResult
