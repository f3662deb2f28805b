import Derusting.Http.Stored

/-!
# Booking an upload

A new upload is answered before it is booked, and the answer does not wait for what comes of that.
The owner of the ledger lists the job if there is a slot; anybody else announces it if another machine
is known; and the job is queued for distribution if the queue has room.  A machine that is on its own
and does not own a ledger is meant to do nothing but queue it.
-/

namespace Derusting.Http

open Foundations.Bounded

/-- The job is listed in the machine's copy of the ledger or has been announced, and it is queued for
distribution. -/
def Booked (guid : Uuid) (world : World) : Prop :=
  (world.machine.Lists guid ∨ .newJob guid ∈ world.alerts) ∧
    guid ∈ world.machine.filesToDistribute.queue

/-- The machine owns its copy of the ledger under the address it reads. -/
def OwnsAs (myAddr : Option Ipv4Addr) (machine : Machine) : Prop :=
  ∃ addr, myAddr = some addr ∧ machine.Owns addr

/-- The owner has a slot for the job, and anybody else knows of another machine. -/
def CanFile (myAddr : Option Ipv4Addr) (guid : Uuid) (machine : Machine) : Prop :=
  machine.Lists guid ∨
    (OwnsAs myAddr machine ∧ ∃ state, machine.jobs = some state ∧
      state.ledger.jobs.toList.length < 8) ∨
    (¬ OwnsAs myAddr machine ∧ machine.addresses.keys ≠ [])

section Filing

variable {myAddr : Option Ipv4Addr} {machine : Machine}

theorem appendToLedger_of_not_ownsAs (guid : Uuid) (h : ¬ OwnsAs myAddr machine) :
    appendToLedger myAddr guid machine =
      (machine, if machine.addresses.isEmpty then none else some (.newJob guid)) := by
  cases hknown : myAddr with
  | none => cases hempty : machine.addresses.isEmpty <;> simp [appendToLedger, hempty]
  | some addr => exact appendToLedger_of_not_owns fun howns ↦ h ⟨addr, hknown, howns⟩

/-- Filing lists the job or announces it exactly if it can be filed. -/
theorem filed_iff (myAddr : Option Ipv4Addr) (guid : Uuid) (machine : Machine) :
    ((appendToLedger myAddr guid machine).1.Lists guid ∨
      .newJob guid ∈ (appendToLedger myAddr guid machine).2.toList) ↔
        CanFile myAddr guid machine := by
  by_cases howns : OwnsAs myAddr machine
  · obtain ⟨addr, rfl, state, hjobs, howner⟩ := howns
    have howns : OwnsAs (some addr) machine := ⟨addr, rfl, state, hjobs, howner⟩
    rw [appendToLedger_of_owner hjobs howner, CanFile, Machine.lists_iff hjobs,
      Machine.lists_iff rfl, IndexSet.mem_insert_self_iff, hjobs]
    simp [howns]
  · rw [appendToLedger_of_not_ownsAs guid howns, CanFile]
    cases hempty : machine.addresses.isEmpty with
    | true =>
        have hkeys := LinearMap.isEmpty_iff.mp hempty
        simp [howns, hkeys]
    | false =>
        have hkeys := LinearMap.isEmpty_eq_false_iff.mp hempty
        simp [howns, hkeys]

end Filing

namespace PutStream

variable {server : Server} {request : PutStream} {outcomes : Outcomes}
  {content : List Char → Option (List UInt8)} {machine : Machine}

/-- The state in which serving the connection ends. -/
def served (server : Server) (outcomes : Outcomes) (content : List Char → Option (List UInt8))
    (machine : Machine) (request : PutStream) : World :=
  (World.start content machine).run server outcomes
    (handleConn server outcomes.opened request.stream)

/-- Carrying out the two bookkeeping effects. -/
theorem run_booking (server : Server) (outcomes : Outcomes) (world : World) (guid : Uuid) :
    let filed := appendToLedger server.myAddr guid world.machine
    let final := world.run server outcomes [.appendToLedger guid, .distribute guid]
    final.alerts = world.alerts ++ filed.2.toList ∧
      final.machine = { filed.1 with filesToDistribute :=
        (filed.1.filesToDistribute.trySend guid).getD filed.1.filesToDistribute } ∧
      (filed.1.filesToDistribute.trySend guid = none →
        "Error sending on channel".toList ∈ final.logs) := by
  simp only [World.run, List.foldl_cons, List.foldl_nil, World.apply]
  cases hsent : (appendToLedger server.myAddr guid world.machine).1.filesToDistribute.trySend guid with
  | none => exact ⟨rfl, rfl, fun _ ↦ List.mem_append_right _ List.mem_cons_self⟩
  | some queue =>
      refine ⟨rfl, rfl, fun hnone ↦ ?_⟩
      cases hnone

/-- A new upload that is answered is booked after everything else. -/
theorem effects_of_answered
    (hanswered : ok ∈ (served server outcomes content machine request).responses)
    (hnew : (request.info server).guid = none) :
    ∃ quiet, handleConn server outcomes.opened request.stream =
        quiet ++ [.appendToLedger server.fresh, .distribute server.fresh] ∧
      ∀ effect ∈ quiet, ¬ effect.Books := by
  obtain ⟨size, haccepted, hopened, hcomplete⟩ := (answered_iff content machine).mp hanswered
  have hguid : request.guid server = server.fresh := by
    rw [PutStream.guid, hnew, Option.getD_none]
  refine ⟨beforeRename server request size ++
    [.rename (request.partialPath server) (request.gcodePath server), .respond ok,
      .log "File Received".toList], ?_, fun effect heffect ↦ ?_⟩
  · rw [hopened, handleConn_of_complete haccepted hcomplete, afterRename, hnew, hguid,
      List.append_assoc]
    rfl
  · rcases List.mem_append.mp heffect with hbefore | hafter
    · exact (beforeRename_quiet hbefore).2.1
    · simp only [List.mem_cons, List.not_mem_nil, or_false] at hafter
      rcases hafter with rfl | rfl | rfl <;> exact id

/-- What serving a new upload leaves behind, once it has been answered. -/
theorem served_of_answered
    (hanswered : ok ∈ (served server outcomes content machine request).responses)
    (hnew : (request.info server).guid = none) :
    let filed := appendToLedger server.myAddr server.fresh machine
    let final := served server outcomes content machine request
    final.alerts = filed.2.toList ∧
      final.machine = { filed.1 with filesToDistribute :=
        (filed.1.filesToDistribute.trySend server.fresh).getD filed.1.filesToDistribute } ∧
      (filed.1.filesToDistribute.trySend server.fresh = none →
        "Error sending on channel".toList ∈ final.logs) := by
  obtain ⟨quiet, heffects, hquiet⟩ := effects_of_answered hanswered hnew
  have hsame : ((World.start content machine).run server outcomes quiet).machine = machine ∧
      ((World.start content machine).run server outcomes quiet).alerts = [] :=
    World.machine_run _ hquiet
  have hbooking := run_booking server outcomes
    ((World.start content machine).run server outcomes quiet) server.fresh
  rw [hsame.1, hsame.2, ← World.run_append, ← heffects] at hbooking
  exact hbooking

/-- A new upload that has been answered is booked exactly if it can be filed and the distribution
queue has room. -/
theorem booked_iff (hanswered : ok ∈ (served server outcomes content machine request).responses)
    (hnew : (request.info server).guid = none) :
    Booked server.fresh (served server outcomes content machine request) ↔
      CanFile server.myAddr server.fresh machine ∧
        (server.fresh ∈ machine.filesToDistribute.queue ∨
          machine.filesToDistribute.queue.length < 4) := by
  obtain ⟨halerts, hmachine, -⟩ := served_of_answered hanswered hnew
  rw [Booked, halerts, hmachine, ← filed_iff, ← Channel.mem_trySend_iff]
  simp only [filesToDistribute_appendToLedger]
  exact Iff.rfl

/-- After a new upload has been answered, the owner of the ledger lists the job if it had a slot, and
any other machine has announced it if it knows another one; otherwise it alerts nobody and its ledger
stays as it was.  The job is queued for distribution, or the full queue is reported. -/
theorem booked_of_room (server : Server) (outcomes : Outcomes)
    (content : List Char → Option (List UInt8)) (machine : Machine) (request : PutStream)
    (hanswered : ok ∈ (served server outcomes content machine request).responses)
    (hnew : (request.info server).guid = none) :
    let final := served server outcomes content machine request
    (∀ addr state, server.myAddr = some addr → machine.jobs = some state →
        state.ledger.owner = addr → state.ledger.jobs.toList.length < 8 →
          final.machine.Lists server.fresh) ∧
      (¬ OwnsAs server.myAddr machine → machine.addresses.keys ≠ [] →
        .newJob server.fresh ∈ final.alerts) ∧
      (¬ OwnsAs server.myAddr machine → machine.addresses.keys = [] →
        final.alerts = [] ∧ final.machine.jobs = machine.jobs) ∧
      (machine.filesToDistribute.queue.length < 4 →
        server.fresh ∈ final.machine.filesToDistribute.queue) ∧
      (4 ≤ machine.filesToDistribute.queue.length →
        "Error sending on channel".toList ∈ final.logs) := by
  intro final
  obtain ⟨halerts, hmachine, hlogged⟩ := served_of_answered hanswered hnew
  rw [filesToDistribute_appendToLedger] at hmachine hlogged
  refine ⟨fun addr state hknown hjobs howner hroom ↦ ?_, fun howns hkeys ↦ ?_,
    fun howns hkeys ↦ ?_, fun hroom ↦ ?_, fun hfull ↦ ?_⟩
  · rw [hknown, appendToLedger_of_owner hjobs howner] at hmachine
    exact ⟨_, congrArg Machine.jobs hmachine, IndexSet.mem_insert_self _ _ (.inr hroom)⟩
  · have hempty := LinearMap.isEmpty_eq_false_iff.mpr hkeys
    rw [appendToLedger_of_not_ownsAs _ howns, hempty] at halerts
    exact halerts ▸ List.mem_cons_self
  · have hempty := LinearMap.isEmpty_iff.mpr hkeys
    rw [appendToLedger_of_not_ownsAs _ howns] at halerts hmachine
    rw [hempty] at halerts
    have hjobs := congrArg Machine.jobs hmachine
    exact ⟨halerts, hjobs⟩
  · have hqueue := congrArg (fun machine ↦ machine.filesToDistribute.queue) hmachine
    exact hqueue ▸ Channel.mem_trySend_iff.mpr (.inr hroom)
  · exact hlogged (Channel.trySend_eq_none_iff.mpr (decide_eq_true hfull))

/-- A machine that owns a ledger with one job, with three jobs waiting to be distributed. -/
def roomyOwner : Machine :=
  { Machine.boot with
    jobs := some ⟨⟨.new 10 0 0 1, .insert .empty ⟨1⟩⟩, 0⟩
    filesToDistribute := ⟨[⟨1⟩, ⟨2⟩, ⟨3⟩], by decide⟩ }

/-- Three bytes are uploaded to it. -/
theorem booked_of_room_threeBytes :
    let final := served plainServer .success (fun _ ↦ none) roomyOwner threeBytes
    final.machine.Lists ⟨7⟩ ∧ ⟨7⟩ ∈ final.machine.filesToDistribute.queue := by
  have hanswered : ok ∈ (served plainServer .success (fun _ ↦ none) roomyOwner threeBytes).responses :=
    (answered_iff _ _).mpr ⟨3, by decide +kernel, rfl, by decide +kernel⟩
  have hbooked := booked_of_room plainServer .success (fun _ ↦ none) roomyOwner threeBytes hanswered
    (by decide +kernel)
  exact ⟨hbooked.1 _ _ rfl rfl rfl (by decide), hbooked.2.2.2.1 (by decide)⟩

/-- A ledger of eight jobs. -/
def fullLedger : Ledger := ⟨.new 10 0 0 1, ⟨(List.range 8).map fun job ↦ ⟨100 + job⟩, by decide, by decide⟩⟩

/-- The machine answers the three bytes and does not book them. -/
def AnswersUnbooked (machine : Machine) : Prop :=
  ok ∈ (served plainServer .success (fun _ ↦ none) machine threeBytes).responses ∧
    ¬ Booked ⟨7⟩ (served plainServer .success (fun _ ↦ none) machine threeBytes)

theorem answersUnbooked_of (machine : Machine)
    (h : CanFile plainServer.myAddr ⟨7⟩ machine → ⟨7⟩ ∉ machine.filesToDistribute.queue ∧
      4 ≤ machine.filesToDistribute.queue.length) : AnswersUnbooked machine := by
  have hanswered : ok ∈ (served plainServer .success (fun _ ↦ none) machine threeBytes).responses :=
    (answered_iff _ _).mpr ⟨3, by decide +kernel, rfl, by decide +kernel⟩
  refine ⟨hanswered, fun hbooked ↦ ?_⟩
  obtain ⟨hfiled, hqueued⟩ := (booked_iff hanswered (by decide +kernel)).mp hbooked
  obtain ⟨hnew, hfull⟩ := h hfiled
  exact hqueued.elim hnew (Nat.not_lt.mpr hfull)

/-- Answered, but not booked: on a machine of its own without a ledger, in a full ledger, and with
a full distribution queue. -/
theorem answered_not_booked :
    AnswersUnbooked .boot ∧ AnswersUnbooked { Machine.boot with jobs := some ⟨fullLedger, 0⟩ } ∧
      AnswersUnbooked
        { roomyOwner with filesToDistribute := ⟨[⟨1⟩, ⟨2⟩, ⟨3⟩, ⟨4⟩], by decide⟩ } := by
  refine ⟨answersUnbooked_of _ fun hfiled ↦ ?_, answersUnbooked_of _ fun hfiled ↦ ?_,
    answersUnbooked_of _ fun _ ↦ ⟨by decide, by decide⟩⟩
  · rcases hfiled with ⟨state, hjobs, -⟩ | ⟨⟨addr, -, state, hjobs, -⟩, -⟩ | ⟨-, hkeys⟩
    · cases hjobs
    · cases hjobs
    · exact absurd rfl hkeys
  · rcases hfiled with ⟨state, hjobs, hlisted⟩ | ⟨-, state, hjobs, hroom⟩ | ⟨howns, -⟩
    · cases hjobs
      exact absurd hlisted (by decide)
    · cases hjobs
      exact absurd hroom (by decide)
    · exact absurd ⟨_, rfl, _, rfl, rfl⟩ howns

end PutStream

end Derusting.Http
