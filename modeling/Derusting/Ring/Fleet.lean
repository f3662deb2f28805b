import Derusting.Http.Replication
import Derusting.Http.Segmentation
import Derusting.Http.Worker
import Derusting.Ring.Holder

/-!
# From the upload to the printer

The machines of a ring with their USB sticks.  A client uploads a job to one of them, which stores
it, files it and sends it to the others with `put_file`; the ledger goes round, and a machine that
holds it prints a job whose file it can open.  The parts are the models of the ring, of `tcp_worker`
on its stick and of a transfer.  What holds of them together is what the program is for: whatever is
printed under a guid is, byte for byte, what a client has uploaded under it, and every stick agrees.
-/

namespace Derusting

open Foundations.Bounded Foundations.Text Foundations.Transition Http Lwip

/-! ## What a peer sends -/

section Peer

variable {uuid : UuidText} {server : Server} {guid : Uuid} {file : List UInt8}
  {stream : List Packet}

/-- The body begins where the head ends. -/
theorem body_eq_drop {buf body : List UInt8} {startLine headers : List Char} {length : ℕ}
    (hsplit : splitRequest buf = some (startLine, headers, body))
    (hlength : headLength buf = some length) : body = buf.drop length := by
  obtain ⟨line, hline, block, hblock, rfl⟩ := headLength_eq_some.mp hlength
  simp only [splitRequest, hline, hblock, Option.bind_eq_bind, Option.bind_some,
    Option.bind_eq_some_iff, Option.some.injEq, Prod.mk.injEq] at hsplit
  obtain ⟨-, -, -, -, -, -, hbody⟩ := hsplit
  rw [← hbody, List.drop_drop, List.drop_drop, List.drop_drop]
  congr 1
  omega

/-- The head that `_connected` writes ends with its blank line. -/
theorem headLength_headerText (uuid : UuidText) (guid : Uuid) (fsize : UInt32)
    (rest : List UInt8) :
    headLength (asBytes (headerText uuid guid fsize) ++ rest) =
      some (asBytes (headerText uuid guid fsize)).length := by
  set head := asBytes (headerText uuid guid fsize) with hhead
  have hsplit := splitRequest_headerText uuid guid fsize []
  rw [List.append_nil, ← hhead] at hsplit
  cases hlength : headLength head with
  | none =>
      rw [splitRequest_of_headLength hlength] at hsplit
      cases hsplit
  | some length =>
      obtain ⟨hwhole, hle⟩ := (headLength_eq_some_iff head rest).mp hlength
      have hdrop := body_eq_drop hsplit hlength
      have hge : head.length ≤ length := List.drop_eq_nil_iff.mp hdrop.symm
      rw [hwhole, Nat.le_antisymm hle hge]

/-- However the beginning of a transfer is cut, the only upload in it is that of the file. -/
theorem upload?_of_transfer (hserver : server.uuid = uuid) (hsize : file.length ≤ 1000000)
    (hfront : stream.flatten.flatten <+:
      asBytes (headerText uuid guid (UInt32.ofNat file.length)) ++ file)
    {upload : Uuid × List UInt8} (hupload : upload? server stream = some upload) :
    upload = (guid, file) := by
  subst hserver
  have hfsize : (UInt32.ofNat file.length).toNat = file.length := by
    rw [UInt32.toNat_ofNat']
    omega
  set head := asBytes (headerText server.uuid guid (UInt32.ofNat file.length)) with hhead
  obtain ⟨number, bytes⟩ := upload
  obtain ⟨request, size, rfl, haccepted, hle, rfl, rfl⟩ := exists_request_of_upload hupload
  have hcut : request.stream.flatten.flatten =
      request.chunk ++ (request.chain.flatten ++ request.packets.flatten.flatten) := by
    simp [PutStream.stream]
  -- a first chunk that is accepted holds the whole head
  have hlong : head.length ≤ request.chunk.length := by
    cases hlength : headLength request.chunk with
    | none =>
        have hsplit := request.split
        rw [splitRequest_of_headLength hlength] at hsplit
        cases hsplit
    | some length =>
        obtain ⟨rest, hrest⟩ := hfront
        rw [hcut, List.append_assoc] at hrest
        obtain ⟨hwhole, hle⟩ := (headLength_eq_some_iff request.chunk _).mp hlength
        rw [hrest, headLength_headerText] at hwhole
        exact (Option.some.inj hwhole) ▸ hle
  obtain ⟨front, hbytes⟩ : head <+: request.stream.flatten.flatten := by
    apply List.prefix_of_prefix_length_le (List.prefix_append head file) hfront
    rw [hcut, List.length_append]
    omega
  rw [← hbytes, List.prefix_append_right_inj] at hfront
  obtain ⟨body, hchunk, hbody⟩ := exists_body hlong (hcut.symm.trans hbytes.symm)
  set sent := replica server.uuid guid (UInt32.ofNat file.length) body request.chain request.packets
    with hsent
  have hsame : request.stream = sent.stream := by
    simp [PutStream.stream, hsent, replica, hchunk, hhead]
  have hinfo : sent.info server = ⟨some file.length, some guid, true⟩ := info_replica hfsize
  rw [hsame] at hupload
  cases hagain : (sent.info server).accepted? with
  | none =>
      rw [upload?_of_rejected hagain] at hupload
      cases hupload
  | some length =>
      have hannounced := PutInfo.size_of_accepted hagain
      rw [hinfo] at hannounced
      obtain rfl := Option.some.inj hannounced
      rw [upload?_of_accepted hagain] at hupload
      obtain ⟨hfull, hentry⟩ := Option.ite_none_right_eq_some.mp hupload
      have hall : sent.bytes = front := hbody
      have hwhole : front = file := hfront.eq_of_length_le (hall ▸ hfull)
      have hguid : sent.guid server = guid := by
        rw [PutStream.guid, hinfo, Option.getD_some]
      rw [hguid, hall, hwhole, List.take_length] at hentry
      exact (Option.some.inj hentry).symm

end Peer

/-! ## What is printed -/

/-- Marlin is only given a job whose file can be opened. -/
theorem canOpen_of_accepted {env : TickEnv} {machine : Machine} {guid : Uuid}
    (h : (manageLedger env machine).2.accepted = some guid) : env.canOpen guid = true := by
  have hattempted := (attempted_of_accepted h).1
  rw [attempted] at hattempted
  split at hattempted
  · exact List.find?_some (Option.ite_none_right_eq_some.mp hattempted).2
  · cases hattempted

/-- A step of the ring has at most one job accepted, in a round that could open its file. -/
theorem accepted_of_step {ring : Finset Ipv4Addr} {system after : System} {addr : Ipv4Addr}
    {action : Action} (h : system.step ring ⟨addr, action⟩ = some after) :
    after.accepted = system.accepted ∨ ∃ env logKey ledgerKey guid,
      action = .tick env logKey ledgerKey ∧ env.canOpen guid = true ∧
        after.accepted = system.accepted ++ [(addr, guid)] := by
  obtain ⟨-, hmap⟩ := Option.ite_none_right_eq_some.mp h
  obtain ⟨outcome, hact, rfl⟩ := Option.map_eq_some_iff.mp hmap
  have hcommit : (system.commit addr action.ids outcome).accepted =
      system.accepted ++ outcome.accepted.toList.map (Prod.mk addr) := rfl
  cases haccepted : outcome.accepted with
  | none =>
      left
      rw [haccepted, Option.toList_none, List.map_nil, List.append_nil] at hcommit
      exact hcommit
  | some guid =>
      right
      rw [haccepted] at hcommit
      cases action with
      | tick env logKey ledgerKey =>
          obtain ⟨-, hsome⟩ := Option.ite_none_right_eq_some.mp hact
          obtain rfl := Option.some.inj hsome
          exact ⟨env, logKey, ledgerKey, guid, rfl, canOpen_of_accepted haccepted, hcommit⟩
      | deliver index =>
          obtain ⟨envelope, -, hsome⟩ := Option.bind_eq_some_iff.mp hact
          obtain ⟨-, hsome⟩ := Option.ite_none_left_eq_some.mp hsome
          obtain rfl := Option.some.inj hsome
          cases haccepted
      | _ =>
          obtain rfl := Option.some.inj hact
          cases haccepted

/-! ## The fleet -/

/-- The ring, the worker and the stick of every machine, the machines to which `distribute_file`
still has to send a job, and the files that `put_file` has opened with the machines they go to.
`taken` are the guids under which clients have uploaded jobs. The last two fields observe the run:
the jobs clients have uploaded in full, and the files of the jobs that Marlin has accepted. -/
structure Fleet where
  system : System
  workers : Ipv4Addr → Worker
  rounds : Ipv4Addr → Option (Uuid × List Ipv4Addr)
  transfers : List (Ipv4Addr × Uuid × List UInt8)
  taken : List Uuid
  uploads : List (Uuid × List UInt8)
  printed : List (Ipv4Addr × Uuid × List UInt8)

/-- What happens in a fleet: an action of the ring, a connection of a client, the next effect of a
connection with the key of the alert it may send, the end of a connection, the two steps of
`distribute_file`, the connection of a transfer with the callbacks it has until it is over, and the
reset of a machine. -/
inductive FleetEvent where
  | act (addr : Ipv4Addr) (action : Action)
  | client (addr : Ipv4Addr) (fresh : Uuid) (stream : List Packet)
      (opened renamed unlinked : Bool)
  | serve (addr : Ipv4Addr) (key : Uuid)
  | leave (addr : Ipv4Addr)
  | dequeue (addr : Ipv4Addr)
  | putFile (addr : Ipv4Addr)
  | peer (addr : Ipv4Addr) (index : ℕ) (callbacks : List Transfer.Event) (fresh : Uuid)
      (stream : List Packet) (opened renamed unlinked : Bool)
  | reset (addr : Ipv4Addr) (entries : List FileName) (rounds : ℕ)

namespace Fleet

section Step

variable (ring : Finset Ipv4Addr) (glob : Glob) (uuid : UuidText) (indexHtml : List Char)

/-- The file of a job on the stick of the machine at `addr`. -/
def file (fleet : Fleet) (addr : Ipv4Addr) (guid : Uuid) : Option (List UInt8) :=
  (fleet.workers addr).now (makePath uuid guid false)

/-- `manage_ledger` can only open what is there. -/
def onStick (fleet : Fleet) (addr : Ipv4Addr) : Action → Action
  | .tick env logKey ledgerKey =>
      .tick { env with
          canOpen := fun guid ↦ env.canOpen guid && (fleet.file uuid addr guid).isSome }
        logKey ledgerKey
  | action => action

/-- A step of the ring, with UUIDs under which no job has been uploaded. -/
def ringStep (fleet : Fleet) (addr : Ipv4Addr) (action : Action) : Option Fleet :=
  (fleet.system.step ring ⟨addr, action⟩).map fun system ↦ { fleet with
    system := system
    printed := fleet.printed ++ (system.accepted.drop fleet.system.accepted.length).map
      fun (addr, guid) ↦ (addr, guid, (fleet.file uuid addr guid).getD []) }

def setMachine (fleet : Fleet) (addr : Ipv4Addr) (machine : Machine) : Fleet :=
  { fleet with
    system := { fleet.system with
      machines := Function.update fleet.system.machines addr machine } }

def onWorker (fleet : Fleet) (addr : Ipv4Addr) (event : WorkerEvent) : Option Fleet :=
  ((fleet.workers addr).step glob uuid indexHtml event).map fun worker ↦
    { fleet with workers := Function.update fleet.workers addr worker }

/-- What an effect of `handle_conn` does outside the stick. -/
def carryOut (fleet : Fleet) (addr : Ipv4Addr) (key : Uuid) : Effect → Option Fleet
  | .appendToLedger guid =>
      if key ∈ fleet.taken then none else fleet.ringStep ring uuid addr (.upload guid key)
  | .distribute guid =>
      let machine := fleet.system.machines addr
      some (fleet.setMachine addr { machine with
        filesToDistribute :=
          (machine.filesToDistribute.trySend guid).getD machine.filesToDistribute })
  | _ => some fleet

/-- The packets carry the beginning of what a transfer of the file writes. -/
def Carries (guid : Uuid) (file : List UInt8) (callbacks : List Transfer.Event)
    (stream : List Packet) : Prop :=
  ∃ transfer ∈ runIf (Transfer.step uuid) Unrestricted
      (Transfer.start guid (UInt32.ofNat file.length) file) callbacks,
    transfer.connected = some .ok ∧ stream.flatten.flatten <+: accepted transfer.writes

instance (guid : Uuid) (file : List UInt8) (callbacks : List Transfer.Event)
    (stream : List Packet) : Decidable (Carries uuid guid file callbacks stream) :=
  inferInstanceAs (Decidable (∃ transfer ∈ runIf (Transfer.step uuid) Unrestricted
    (Transfer.start guid (UInt32.ofNat file.length) file) callbacks, _))

def step (fleet : Fleet) : FleetEvent → Option Fleet
  | .act _ (.upload _ _) => none
  | .act addr action =>
      if ∃ id ∈ action.ids, id ∈ fleet.taken then none
      else fleet.ringStep ring uuid addr (fleet.onStick uuid addr action)
  | .client addr fresh stream opened renamed unlinked =>
      if fresh ∈ fleet.taken ∨ fresh ∈ fleet.system.issued then none
      else
        let upload := Http.upload? ⟨uuid, indexHtml, fresh, some addr⟩ stream
        (fleet.onWorker glob uuid indexHtml addr (.accept fresh (some addr)
          (fleet.system.machines addr) stream opened renamed unlinked)).map fun after ↦ { after with
            taken := after.taken ++ fresh :: upload.toList.map Prod.fst
            uploads := after.uploads ++ upload.toList }
  | .serve addr key =>
      (fleet.workers addr).visit.bind fun visit ↦
        visit.effects[visit.count]?.bind fun effect ↦
          (fleet.onWorker glob uuid indexHtml addr .effect).bind fun after ↦
            after.carryOut ring uuid addr key effect
  | .leave addr => fleet.onWorker glob uuid indexHtml addr .leave
  | .dequeue addr =>
      match fleet.rounds addr with
      | some _ => none
      | none =>
          let machine := fleet.system.machines addr
          machine.filesToDistribute.tryReceive.map fun (guid, queue) ↦
            { fleet.setMachine addr { machine with filesToDistribute := queue } with
              rounds := Function.update fleet.rounds addr (some (guid, machine.addresses.keys)) }
  | .putFile addr =>
      match fleet.rounds addr with
      | none => none
      | some (_, []) => some { fleet with rounds := Function.update fleet.rounds addr none }
      | some (guid, target :: targets) => some { fleet with
          rounds := Function.update fleet.rounds addr (some (guid, targets))
          transfers := fleet.transfers ++ (fleet.file uuid addr guid).toList.map
            fun file ↦ (target, guid, file) }
  | .peer addr index callbacks fresh stream opened renamed unlinked =>
      fleet.transfers[index]?.bind fun (target, guid, file) ↦
        if target = addr ∧ Carries uuid guid file callbacks stream then
          fleet.onWorker glob uuid indexHtml addr (.accept fresh (some addr)
            (fleet.system.machines addr) stream opened renamed unlinked)
        else none
  | .reset addr entries rounds =>
      (fleet.onWorker glob uuid indexHtml addr (.reset entries rounds)).map fun after ↦
        { after.setMachine addr .boot with rounds := Function.update after.rounds addr none }

/-- A client sends a job without a guid, or under one that nobody uses. -/
def OwnGuids (fleet : Fleet) : FleetEvent → Prop
  | .client addr fresh stream _ _ _ =>
      ∀ upload ∈ Http.upload? ⟨uuid, indexHtml, fresh, some addr⟩ stream,
        upload.1 = fresh ∨ upload.1 ∉ fleet.taken
  | _ => True

instance (fleet : Fleet) : (event : FleetEvent) → Decidable (fleet.OwnGuids uuid indexHtml event)
  | .client addr fresh stream _ _ _ => inferInstanceAs (Decidable
      (∀ upload ∈ Http.upload? ⟨uuid, indexHtml, fresh, some addr⟩ stream,
        upload.1 = fresh ∨ upload.1 ∉ fleet.taken))
  | .act .. => .isTrue trivial
  | .serve .. => .isTrue trivial
  | .leave _ => .isTrue trivial
  | .dequeue _ => .isTrue trivial
  | .putFile _ => .isTrue trivial
  | .peer .. => .isTrue trivial
  | .reset .. => .isTrue trivial

end Step

/-- Every machine has just started, and `clean_usb` has left no job file. -/
def boot : Fleet where
  system := .boot
  workers _ := .blank
  rounds _ := none
  transfers := []
  taken := []
  uploads := []
  printed := []

/-! ## One stick -/

/-- Every job file on the stick, and the upload being received, is one of the uploads. -/
structure Sourced (uuid : UuidText) (uploads : List (Uuid × List UInt8)) (worker : Worker) :
    Prop where
  settled : ∀ guid bytes, worker.content (makePath uuid guid false) = some bytes →
    (guid, bytes) ∈ uploads
  server : ∀ visit ∈ worker.visit, visit.server.uuid = uuid
  full : ∀ visit ∈ worker.visit, ∀ call, visit.outcomes.missing call = 0
  arriving : ∀ visit ∈ worker.visit, ∀ upload ∈ visit.upload?, upload ∈ uploads

section Stick

variable {glob : Glob} {uuid : UuidText} {indexHtml : List Char}
  {uploads more : List (Uuid × List UInt8)} {worker after : Worker} {guid : Uuid}
  {bytes : List UInt8}

theorem sourced_blank : Sourced uuid uploads .blank := by
  refine ⟨?_, ?_, ?_, ?_⟩ <;> simp [Worker.blank]

theorem Sourced.mono (h : Sourced uuid uploads worker) (hmore : uploads ⊆ more) :
    Sourced uuid more worker where
  settled guid bytes hcontent := hmore (h.settled guid bytes hcontent)
  server := h.server
  full := h.full
  arriving visit hvisit upload hupload := hmore (h.arriving visit hvisit upload hupload)

/-- A job file is there at any time only with the bytes of an upload. -/
theorem Sourced.now (h : Sourced uuid uploads worker)
    (hnow : worker.now (makePath uuid guid false) = some bytes) : (guid, bytes) ∈ uploads := by
  cases hvisit : worker.visit with
  | none =>
      rw [Worker.now, hvisit] at hnow
      exact h.settled guid bytes hnow
  | some visit =>
      have hserver := h.server visit hvisit
      have hafter : visit.after worker.content (makePath uuid guid false) = some bytes := by
        rwa [Worker.now, hvisit] at hnow
      subst hserver
      rcases Visit.after_cases (h.full visit hvisit) guid with hsame | ⟨-, stored, hupload, hthere⟩
      · exact h.settled guid bytes (hsame.symm.trans hafter)
      · obtain rfl := Option.some.inj (hthere.symm.trans hafter)
        exact h.arriving visit hvisit _ hupload

/-- A connection is taken over whose upload, if it brings one, is among the uploads. -/
theorem Sourced.accept (h : Sourced uuid uploads worker) {fresh : Uuid} {addr : Option Ipv4Addr}
    {machine : Machine} {stream : List Packet} {opened renamed unlinked : Bool}
    (hupload : ∀ upload ∈ Http.upload? ⟨uuid, indexHtml, fresh, addr⟩ stream, upload ∈ uploads)
    (hstep : worker.step glob uuid indexHtml
      (.accept fresh addr machine stream opened renamed unlinked) = some after) :
    Sourced uuid uploads after := by
  rw [Worker.step] at hstep
  cases hvisit : worker.visit with
  | some visit => simp [hvisit] at hstep
  | none =>
      simp only [hvisit] at hstep
      obtain rfl := Option.some.inj hstep
      refine ⟨h.settled, ?_, ?_, ?_⟩
      · rintro _ ⟨⟩
        rfl
      · rintro _ ⟨⟩ call
        rfl
      · rintro _ ⟨⟩
        exact hupload

theorem Sourced.effect (h : Sourced uuid uploads worker)
    (hstep : worker.step glob uuid indexHtml .effect = some after) :
    Sourced uuid uploads after := by
  obtain ⟨visit, hvisit, hnext⟩ := Option.bind_eq_some_iff.mp hstep
  obtain ⟨effect, -, rfl⟩ := Option.map_eq_some_iff.mp hnext
  refine ⟨h.settled, ?_, ?_, ?_⟩
  · rintro _ ⟨⟩
    exact h.server visit hvisit
  · rintro _ ⟨⟩
    exact h.full visit hvisit
  · rintro _ ⟨⟩
    exact h.arriving visit hvisit

theorem Sourced.leave (h : Sourced uuid uploads worker)
    (hstep : worker.step glob uuid indexHtml .leave = some after) : Sourced uuid uploads after := by
  obtain ⟨visit, hvisit, hnext⟩ := Option.bind_eq_some_iff.mp hstep
  obtain ⟨-, hsome⟩ := Option.ite_none_right_eq_some.mp hnext
  obtain rfl := Option.some.inj hsome
  have hnow : worker.now = visit.after worker.content := by rw [Worker.now, hvisit]
  refine ⟨?_, by simp, by simp, by simp⟩
  intro guid bytes hcontent
  exact h.now (hnow ▸ hcontent)

/-- A start only takes files away. -/
theorem Sourced.reset (h : Sourced uuid uploads worker) {entries : List FileName} {rounds : ℕ}
    (hstep : worker.step glob uuid indexHtml (.reset entries rounds) = some after) :
    Sourced uuid uploads after := by
  obtain ⟨rest, -, rfl⟩ := Option.map_eq_some_iff.mp hstep
  refine ⟨?_, by simp, by simp, by simp⟩
  intro guid bytes hcontent
  obtain ⟨-, hnow⟩ := Option.ite_none_right_eq_some.mp hcontent
  exact h.now hnow

end Stick

/-! ## Every stick -/

variable {ring : Finset Ipv4Addr} {glob : Glob} {uuid : UuidText} {indexHtml : List Char}
  {fleet after : Fleet} {addr : Ipv4Addr} {guid : Uuid} {bytes : List UInt8}

/-- Everything that is stored, sent or printed under a guid is the one upload with this guid. -/
structure Traced (uuid : UuidText) (fleet : Fleet) : Prop where
  unique : ∀ guid one other, (guid, one) ∈ fleet.uploads → (guid, other) ∈ fleet.uploads →
    one = other
  taken : ∀ upload ∈ fleet.uploads, upload.1 ∈ fleet.taken
  small : ∀ upload ∈ fleet.uploads, upload.2.length ≤ 1000000
  workers : ∀ addr, Sourced uuid fleet.uploads (fleet.workers addr)
  transfers : ∀ transfer ∈ fleet.transfers, transfer.2 ∈ fleet.uploads
  printed : ∀ job ∈ fleet.printed, job.2 ∈ fleet.uploads
  accepted : fleet.system.accepted = fleet.printed.map fun job ↦ (job.1, job.2.1)

theorem traced_boot : Traced uuid boot := by
  refine ⟨by simp [boot], by simp [boot], by simp [boot], fun _ ↦ sourced_blank, by simp [boot],
    by simp [boot], rfl⟩

/-- The ring and the rounds of `distribute_file` play no part. -/
theorem Traced.of_eq (h : Traced uuid fleet) (huploads : after.uploads = fleet.uploads)
    (htaken : after.taken = fleet.taken) (hworkers : after.workers = fleet.workers)
    (htransfers : after.transfers = fleet.transfers) (hprinted : after.printed = fleet.printed)
    (haccepted : after.system.accepted = fleet.system.accepted) : Traced uuid after := by
  refine ⟨?_, ?_, ?_, ?_, ?_, ?_, ?_⟩
  · rw [huploads]
    exact h.unique
  · rw [huploads, htaken]
    exact h.taken
  · rw [huploads]
    exact h.small
  · rw [huploads, hworkers]
    exact h.workers
  · rw [huploads, htransfers]
    exact h.transfers
  · rw [huploads, hprinted]
    exact h.printed
  · rw [haccepted, hprinted]
    exact h.accepted

theorem Traced.file (h : Traced uuid fleet) (hfile : fleet.file uuid addr guid = some bytes) :
    (guid, bytes) ∈ fleet.uploads := (h.workers addr).now hfile

theorem Traced.setMachine (h : Traced uuid fleet) (machine : Machine) :
    Traced uuid (fleet.setMachine addr machine) := h.of_eq rfl rfl rfl rfl rfl rfl

/-- A worker takes a step in which its stick stays sourced. -/
theorem Traced.onWorker (h : Traced uuid fleet) {event : WorkerEvent}
    (hworker : ∀ worker, (fleet.workers addr).step glob uuid indexHtml event = some worker →
      Sourced uuid fleet.uploads worker)
    (hstep : fleet.onWorker glob uuid indexHtml addr event = some after) :
    Traced uuid after ∧ after.uploads = fleet.uploads ∧ after.taken = fleet.taken := by
  obtain ⟨worker, hnext, rfl⟩ := Option.map_eq_some_iff.mp hstep
  refine ⟨⟨h.unique, h.taken, h.small, ?_, h.transfers, h.printed, h.accepted⟩, rfl, rfl⟩
  intro other
  by_cases hself : other = addr
  · subst hself
    simpa using hworker worker hnext
  · simpa [Function.update_of_ne hself] using h.workers other

/-- What a step of the ring has printed was on the stick. -/
theorem Traced.ringStep (h : Traced uuid fleet) {action : Action}
    (hstick : ∀ env logKey ledgerKey guid, action = .tick env logKey ledgerKey →
      env.canOpen guid = true → (fleet.file uuid addr guid).isSome)
    (hstep : fleet.ringStep ring uuid addr action = some after) : Traced uuid after := by
  obtain ⟨system, hsystem, rfl⟩ := Option.map_eq_some_iff.mp hstep
  rcases accepted_of_step hsystem with hsame | ⟨env, logKey, ledgerKey, guid, htick, hopen, hmore⟩
  · refine Traced.of_eq h rfl rfl rfl rfl ?_ hsame
    simp [hsame]
  · obtain ⟨bytes, hfile⟩ :=
      Option.isSome_iff_exists.mp (hstick env logKey ledgerKey guid htick hopen)
    refine ⟨h.unique, h.taken, h.small, h.workers, h.transfers, ?_, ?_⟩
    · intro job hjob
      simp only [hmore, List.drop_left, List.map_cons, List.map_nil, hfile, Option.getD_some,
        List.mem_append, List.mem_singleton] at hjob
      rcases hjob with hbefore | rfl
      · exact h.printed job hbefore
      · exact h.file hfile
    · simp [hmore, h.accepted]

theorem Traced.carryOut (h : Traced uuid fleet) {key : Uuid} {effect : Effect}
    (hstep : fleet.carryOut ring uuid addr key effect = some after) : Traced uuid after := by
  cases effect with
  | appendToLedger guid =>
      obtain ⟨-, hring⟩ := Option.ite_none_left_eq_some.mp hstep
      exact h.ringStep (fun env logKey ledgerKey other htick ↦ Action.noConfusion htick) hring
  | distribute guid =>
      obtain rfl := Option.some.inj hstep
      exact h.setMachine _
  | _ =>
      obtain rfl := Option.some.inj hstep
      exact h

/-- An upload has at most as many bytes as `handle_conn` takes. -/
theorem length_of_upload {server : Server} {stream : List Packet} {upload : Uuid × List UInt8}
    (h : Http.upload? server stream = some upload) : upload.2.length ≤ 1000000 := by
  obtain ⟨request, size, -, haccepted, -, -, hbytes⟩ := exists_request_of_upload h
  have hsize : size ≤ 1000000 := by
    unfold PutInfo.accepted? at haccepted
    split at haccepted
    · obtain ⟨⟨-, -, hle⟩, hsome⟩ := Option.ite_none_right_eq_some.mp haccepted
      exact Option.some.inj hsome ▸ hle
    · cases haccepted
  rw [← hbytes]
  exact (List.length_take_le _ _).trans hsize

/-- A client uploads a job under a guid of its own. -/
theorem Traced.upload (h : Traced uuid fleet) {fresh : Uuid} {upload : Option (Uuid × List UInt8)}
    (hfresh : fresh ∉ fleet.taken)
    (hguid : ∀ entry ∈ upload, entry.1 = fresh ∨ entry.1 ∉ fleet.taken)
    (hsmall : ∀ entry ∈ upload, entry.2.length ≤ 1000000) :
    Traced uuid { fleet with
      taken := fleet.taken ++ fresh :: upload.toList.map Prod.fst
      uploads := fleet.uploads ++ upload.toList } := by
  have hmore : fleet.uploads ⊆ fleet.uploads ++ upload.toList := List.subset_append_left _ _
  have hnew : ∀ entry ∈ upload, entry.1 ∉ fleet.taken := by
    intro entry hentry
    rcases hguid entry hentry with hsame | hnone
    · rw [hsame]
      exact hfresh
    · exact hnone
  refine ⟨?_, ?_, ?_, fun addr ↦ (h.workers addr).mono hmore,
    fun transfer htransfer ↦ hmore (h.transfers transfer htransfer),
    fun job hjob ↦ hmore (h.printed job hjob), h.accepted⟩
  · intro guid one other hone hother
    rw [List.mem_append, Option.mem_toList] at hone hother
    rcases hone with hone | hone <;> rcases hother with hother | hother
    · exact h.unique guid one other hone hother
    · exact absurd (h.taken _ hone) (hnew (guid, other) hother)
    · exact absurd (h.taken _ hother) (hnew (guid, one) hone)
    · exact congrArg Prod.snd (Option.mem_unique hone hother)
  · intro entry hentry
    rw [List.mem_append, Option.mem_toList] at hentry
    rcases hentry with hold | hadded
    · exact List.mem_append_left _ (h.taken entry hold)
    · refine List.mem_append_right _ (List.mem_cons_of_mem _ ?_)
      exact List.mem_map_of_mem (Option.mem_toList.mpr hadded)
  · intro entry hentry
    rw [List.mem_append, Option.mem_toList] at hentry
    exact hentry.elim (h.small entry) (hsmall entry)

/-- What a transfer has written is the beginning of the head and the file. -/
theorem front_of_carries {file : List UInt8} {callbacks : List Transfer.Event}
    {stream : List Packet} (h : Carries uuid guid file callbacks stream) :
    stream.flatten.flatten <+:
      asBytes (headerText uuid guid (UInt32.ofNat file.length)) ++ file := by
  obtain ⟨transfer, hrun, hconnected, hfront⟩ := h
  have hstreaming := Transfer.Streaming.of_reaches (Reaches.of_runIf hrun)
  have hfaithful : accepted transfer.writes ++ transfer.request.buf.toList =
      asBytes (headerText uuid guid (UInt32.ofNat file.length)) ++
        transfer.request.file.take transfer.request.pos := hstreaming.faithful hconnected
  rw [hstreaming.job.2.2] at hfaithful
  calc
    stream.flatten.flatten <+: accepted transfer.writes := hfront
    _ <+: accepted transfer.writes ++ transfer.request.buf.toList := List.prefix_append _ _
    _ <+: asBytes (headerText uuid guid (UInt32.ofNat file.length)) ++ file := by
      rw [hfaithful, List.prefix_append_right_inj]
      exact List.take_prefix _ _

/-- A job that a round of `manage_ledger` can open has a file. -/
theorem isSome_of_canOpen {action : Action} {env : TickEnv} {logKey ledgerKey : Uuid}
    (htick : fleet.onStick uuid addr action = .tick env logKey ledgerKey)
    (hopen : env.canOpen guid = true) : (fleet.file uuid addr guid).isSome := by
  cases action with
  | tick surroundings _ _ =>
      obtain ⟨rfl, -, -⟩ := Action.tick.inj htick
      exact (Bool.and_eq_true_iff.mp hopen).2
  | _ => cases htick

theorem Traced.step (h : Traced uuid fleet) {event : FleetEvent}
    (hguard : fleet.OwnGuids uuid indexHtml event)
    (hstep : fleet.step ring glob uuid indexHtml event = some after) : Traced uuid after := by
  cases event with
  | act addr action =>
      have hring : fleet.ringStep ring uuid addr (fleet.onStick uuid addr action) = some after := by
        cases action with
        | upload guid key => cases hstep
        | _ =>
            simp only [Fleet.step] at hstep
            exact (Option.ite_none_left_eq_some.mp hstep).2
      exact h.ringStep (fun env logKey ledgerKey guid ↦ isSome_of_canOpen) hring
  | client addr fresh stream opened renamed unlinked =>
      obtain ⟨hfresh, haccept⟩ := Option.ite_none_left_eq_some.mp hstep
      obtain ⟨middle, hmiddle, rfl⟩ := Option.map_eq_some_iff.mp haccept
      obtain ⟨worker, hworker, rfl⟩ := Option.map_eq_some_iff.mp hmiddle
      have hmore := h.upload (not_or.mp hfresh).1 hguard fun upload hupload ↦
        length_of_upload hupload
      have haccepted : Fleet.onWorker glob uuid indexHtml { fleet with
          taken := fleet.taken ++ fresh :: (Http.upload? ⟨uuid, indexHtml, fresh, some addr⟩
            stream).toList.map Prod.fst
          uploads := fleet.uploads ++ (Http.upload? ⟨uuid, indexHtml, fresh, some addr⟩
            stream).toList } addr (.accept fresh (some addr) (fleet.system.machines addr) stream
              opened renamed unlinked) = some _ := Option.map_eq_some_iff.mpr ⟨worker, hworker, rfl⟩
      refine (hmore.onWorker (fun next hnext ↦ ?_) haccepted).1
      apply (hmore.workers addr).accept _ hnext
      intro upload hupload
      exact List.mem_append_right _ (Option.mem_toList.mpr hupload)
  | serve addr key =>
      obtain ⟨visit, -, hvisit⟩ := Option.bind_eq_some_iff.mp hstep
      obtain ⟨effect, -, heffect⟩ := Option.bind_eq_some_iff.mp hvisit
      obtain ⟨middle, hworker, hcarry⟩ := Option.bind_eq_some_iff.mp heffect
      exact (h.onWorker (fun _ ↦ (h.workers addr).effect) hworker).1.carryOut hcarry
  | leave addr => exact (h.onWorker (fun _ ↦ (h.workers addr).leave) hstep).1
  | dequeue addr =>
      simp only [Fleet.step] at hstep
      split at hstep
      · cases hstep
      · obtain ⟨⟨guid, queue⟩, -, rfl⟩ := Option.map_eq_some_iff.mp hstep
        exact h.of_eq rfl rfl rfl rfl rfl rfl
  | putFile addr =>
      simp only [Fleet.step] at hstep
      split at hstep
      · cases hstep
      · obtain rfl := Option.some.inj hstep
        exact h.of_eq rfl rfl rfl rfl rfl rfl
      next guid target targets hround =>
        obtain rfl := Option.some.inj hstep
        refine ⟨h.unique, h.taken, h.small, h.workers, ?_, h.printed, h.accepted⟩
        intro transfer htransfer
        rcases List.mem_append.mp htransfer with hold | hopened
        · exact h.transfers transfer hold
        · obtain ⟨bytes, hbytes, rfl⟩ := List.mem_map.mp hopened
          exact h.file (Option.mem_toList.mp hbytes)
  | peer addr index callbacks fresh stream opened renamed unlinked =>
      obtain ⟨⟨target, guid, file⟩, htransfer, haccept⟩ := Option.bind_eq_some_iff.mp hstep
      obtain ⟨⟨-, hcarries⟩, hworker⟩ := Option.ite_none_right_eq_some.mp haccept
      have hfile : (guid, file) ∈ fleet.uploads :=
        h.transfers _ (List.mem_of_getElem? htransfer)
      refine (h.onWorker (fun worker hnext ↦ ?_) hworker).1
      apply (h.workers addr).accept _ hnext
      intro upload hupload
      have hsame : upload = (guid, file) :=
        @upload?_of_transfer uuid ⟨uuid, indexHtml, fresh, some addr⟩ guid file stream rfl
          (h.small (guid, file) hfile) (front_of_carries hcarries) upload hupload
      rw [hsame]
      exact hfile
  | reset addr entries rounds =>
      obtain ⟨middle, hworker, rfl⟩ := Option.map_eq_some_iff.mp hstep
      have hmiddle : Traced uuid middle := by
        refine (h.onWorker (fun worker hnext ↦ ?_) hworker).1
        exact (h.workers addr).reset hnext
      have hboot : Traced uuid (middle.setMachine addr .boot) := hmiddle.setMachine .boot
      exact hboot.of_eq rfl rfl rfl rfl rfl rfl

end Fleet

end Derusting
