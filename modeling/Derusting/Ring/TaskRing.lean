import Derusting.Ring.Interleaving
import Derusting.Ring.WellFormed

/-!
# A ring of machines whose tasks take turns

`System` lets a machine do a whole round of `manage_ledger` in one step and draws both keys of the
round then.  In a `TaskRing` every machine runs its tasks as `Firmware` does: a round waits for its
broadcasts while the other machines go on, and a key is drawn when its message is made.

A step of `System` is taken when the round begins, so the key of a ledger that is broadcast at the
end of the round has to be known in advance.  `Foresees` is an assignment of keys that the rounds
under way have not drawn yet; the simulation holds for all of them.
-/

namespace Derusting

open Foundations.Bounded Foundations.Transition

/-! ## What a step of the tasks adds -/

/-- The message that `udp_receiver` waits with for its first mutex. -/
def ReceiverStage.held : ReceiverStage → Option Envelope
  | .addresses sender message => some ⟨sender, message⟩
  | .receiving | .jobs _ => none

/-- The job that `append_to_ledger` waits with. -/
def FilerStage.pending : FilerStage → Option Uuid
  | .idle => none
  | .addresses guid | .jobs guid _ => some guid

/-- The job that is uploaded. -/
def TaskEvent.guids : TaskEvent → List Uuid
  | .upload guid _ => [guid]
  | .arrive .. | .distribute _ | .pollReceiver | .pollFiler _ | .pollChecker | .pollDistributor
  | .pollManager .. | .elapse _ => []

namespace Firmware

variable {addr sender : Ipv4Addr} {firmware after : Firmware} {atomic : Atomic} {message : Message}
  {guid : Uuid} {env : TickEnv} {event : TaskEvent}

/-- What the round under way will still broadcast. -/
def rest (firmware : Firmware) : List Payload :=
  firmware.settled.broadcast.drop firmware.broadcast.length

theorem broadcast_append_rest (firmware : Firmware) :
    firmware.broadcast ++ firmware.rest = firmware.settled.broadcast :=
  List.prefix_append_drop (broadcast_settled firmware) |>.symm

theorem rest_of_free (h : firmware.manager.midRound = false) : firmware.rest = [] := by
  rw [rest, settled_of_free h, List.drop_length]

/-- At the end of a round there is at most one ledger to broadcast. -/
theorem rest_cases (firmware : Firmware) :
    firmware.rest = [] ∨ ∃ ledger, firmware.rest = [.ledger ledger] := by
  cases hmid : firmware.manager.midRound with
  | false => exact .inl (rest_of_free hmid)
  | true =>
      rcases ManagerStage.cases_of_midRound hmid with
        ⟨myAddr, text, stage, hmanager⟩ | ⟨ledger, passing, stage, hmanager⟩
      · rw [rest, settled_of_logging hmanager, List.drop_left, passed]
        split
        next ledger passing _ => exact .inr ⟨ledger, rfl⟩
        next => exact .inl rfl
      · rw [rest, settled_of_broadcasting hmanager, List.drop_length]
        exact .inl rfl

/-- `manage_ledger` is polled: it leaves the other tasks alone. -/
theorem Refines.managed (h : firmware.Refines addr atomic) (hknown : KnownAs addr env.myAddr)
    (answered : Bool) (allocated : Payload → Bool) :
    Managed addr firmware (Firmware.manage env answered allocated firmware) := by
  have hunchanged {stage : ManagerStage} (hlogs : stage.LogsAs addr) :
      Managed addr firmware { firmware with manager := stage } :=
    ⟨rfl, rfl, rfl, rfl, rfl, rfl, List.prefix_rfl, hlogs⟩
  have hwaits := h.orderly.manager
  have hlogs := h.manager
  cases hmanager : firmware.manager with
  | starting wakeAt =>
      simp only [Firmware.manage, hmanager]
      split
      · exact hunchanged trivial
      · exact ⟨rfl, rfl, rfl, rfl, rfl, rfl, List.prefix_rfl, hlogs⟩
  | sleeping wakeAt =>
      have hfree : firmware.manager.midRound = false := by rw [hmanager]; rfl
      simp only [Firmware.manage, hmanager]
      split
      · cases haddr : env.myAddr with
        | none => exact hunchanged trivial
        | some myAddr =>
            obtain rfl : myAddr = addr := by
              rcases hknown with hnone | hsome
              · cases haddr.symm.trans hnone
              · exact Option.some.inj (haddr.symm.trans hsome)
            simp only
            rw [manageAddresses_of_free (h.orderly.addressesLocked.trans hfree)
              (h.orderly.jobsLocked.trans hfree)]
            apply Managed.of_eq (managed_round myAddr env allocated _)
            exacts [rfl, rfl, rfl, rfl, rfl, rfl, List.prefix_rfl]
      · exact ⟨rfl, rfl, rfl, rfl, rfl, rfl, List.prefix_rfl, hlogs⟩
  | addresses _ =>
      rw [hmanager] at hwaits
      cases hwaits
  | jobs _ =>
      rw [hmanager] at hwaits
      cases hwaits
  | logging myAddr text stage =>
      rw [hmanager] at hlogs
      simp only [Firmware.manage, hmanager]
      split
      · exact hunchanged hlogs
      · exact managed_pass _ _ _ _ _
  | broadcasting ledger passing stage =>
      simp only [Firmware.manage, hmanager]
      split
      · exact hunchanged trivial
      · exact ⟨rfl, rfl, rfl, rfl, rfl, rfl, List.prefix_rfl, trivial⟩

/-- Nothing that has been broadcast is taken back. What a task waits with it waited with before, or
has just got. -/
structure Onward (event : TaskEvent) (firmware after : Firmware) : Prop where
  broadcast : firmware.broadcast <+: after.broadcast
  held : ∀ envelope ∈ after.receiver.held,
    envelope ∈ firmware.receiver.held ∨ event = .arrive envelope.src envelope.message
  pending : ∀ guid ∈ after.filer.pending, guid ∈ firmware.filer.pending ∨ guid ∈ event.guids

theorem Onward.of_eq (hbroadcast : after.broadcast = firmware.broadcast)
    (hreceiver : after.receiver = firmware.receiver) (hfiler : after.filer = firmware.filer) :
    Onward event firmware after where
  broadcast := by rw [hbroadcast]
  held := by
    rw [hreceiver]
    exact fun _ ↦ .inl
  pending := by
    rw [hfiler]
    exact fun _ ↦ .inl

theorem held_receiveJobs (message : Message) (firmware : Firmware) :
    (receiveJobs message firmware).receiver.held = none := by
  unfold receiveJobs
  cases message.payload with
  | newJob guid =>
      dsimp only
      split <;> rfl
  | ledger ledger =>
      dsimp only
      split <;> rfl
  | heartbeat alive => rfl
  | log text => rfl

/-- `udp_receiver` waits for its first mutex with the message, or with none. -/
theorem onward_receiveAddresses
    (h : ⟨sender, message⟩ ∈ firmware.receiver.held ∨ event = .arrive sender message) :
    Onward event firmware (receiveAddresses sender message firmware) := by
  unfold receiveAddresses
  split
  · refine ⟨List.prefix_rfl, ?_, fun _ ↦ .inl⟩
    intro envelope henvelope
    obtain rfl : ⟨sender, message⟩ = envelope := Option.some.inj henvelope
    exact h
  · have hreceived := received_receiveJobs message { firmware with
      machine := { firmware.machine with
        addresses := firmware.machine.addresses.insert sender firmware.machine.clock } }
    refine ⟨by rw [hreceived.broadcast], ?_, ?_⟩
    · rw [held_receiveJobs]
      simp
    · rw [hreceived.filer]
      exact fun _ ↦ .inl

theorem onward_fileJobs (addressBookIsEmpty : Bool) (myAddr : Option Ipv4Addr)
    (h : guid ∈ firmware.filer.pending ∨ guid ∈ event.guids) :
    Onward event firmware (fileJobs guid addressBookIsEmpty myAddr firmware) := by
  unfold fileJobs
  split
  · refine ⟨List.prefix_rfl, fun _ ↦ .inl, ?_⟩
    intro other hother
    obtain rfl : guid = other := Option.some.inj hother
    exact h
  · exact ⟨List.prefix_append _ _, fun _ ↦ .inl, by simp [FilerStage.pending]⟩

theorem onward_fileAddresses (myAddr : Option Ipv4Addr)
    (h : guid ∈ firmware.filer.pending ∨ guid ∈ event.guids) :
    Onward event firmware (fileAddresses guid myAddr firmware) := by
  unfold fileAddresses
  split
  · refine ⟨List.prefix_rfl, fun _ ↦ .inl, ?_⟩
    intro other hother
    obtain rfl : guid = other := Option.some.inj hother
    exact h
  · exact onward_fileJobs _ _ h

theorem onward_putNext (guid : Uuid) (targets : List Ipv4Addr) :
    Onward event firmware (putNext guid targets firmware) := by
  cases targets with
  | nil => exact .of_eq rfl rfl rfl
  | cons target left => exact .of_eq rfl rfl rfl

/-- `append_to_ledger` files a job that it has waited with, or that has just been uploaded. -/
theorem pending_of_single {myAddr : Option Ipv4Addr}
    (h : firmware.single event = some (.upload guid myAddr)) :
    guid ∈ firmware.filer.pending ∨ guid ∈ event.guids := by
  rcases upload_cases h with rfl | ⟨rfl, hstage⟩
  · exact .inr (List.mem_singleton_self _)
  · exact .inl (by rw [hstage]; rfl)

theorem Refines.onward (h : firmware.Refines addr atomic)
    (hstep : firmware.step addr event = some after) : Onward event firmware after := by
  cases steps_of_step hstep with
  | @received sender message hstage hsender =>
      rw [Firmware.receive]
      split
      · exact .of_eq rfl rfl rfl
      · have hnext := @onward_receiveAddresses sender { firmware with machine :=
          { firmware.machine with
            history := firmware.machine.history.write message.idempotency } } message
          (.arrive sender message) (.inr rfl)
        exact ⟨hnext.broadcast, hnext.held, hnext.pending⟩
  | noted hstage => exact onward_receiveAddresses (.inl (by rw [hstage]; rfl))
  | adopted hstage =>
      have hwaits := h.orderly.receiver
      rw [hstage] at hwaits
      cases hwaits
  | filed hsingle hknown =>
      apply onward_fileAddresses
      exact pending_of_single hsingle
  | filedLate hstage => exact onward_fileJobs _ _ (.inl (by rw [hstage]; rfl))
  | checked =>
      unfold Firmware.checkAddresses
      split <;> exact .of_eq rfl rfl rfl
  | distributed =>
      unfold Firmware.distributeAddresses
      split
      · exact .of_eq rfl rfl rfl
      · exact onward_putNext _ _
  | put hstage => exact onward_putNext _ _
  | managed hknown =>
      have hmanaged := h.managed hknown
      refine ⟨(hmanaged _ _).broadcast, ?_, ?_⟩
      · rw [(hmanaged _ _).receiver]
        exact fun _ ↦ .inl
      · rw [(hmanaged _ _).filer]
        exact fun _ ↦ .inl
  | elapsed => exact .of_eq rfl rfl rfl

/-- A job that finds the mutexes free is filed at once. -/
theorem Refines.pending_of_free (h : firmware.Refines addr atomic)
    (hfree : firmware.manager.midRound = false) {myAddr : Option Ipv4Addr}
    (hsingle : firmware.single event = some (.upload guid myAddr))
    (hstep : firmware.step addr event = some after) : after.filer.pending = none := by
  cases steps_of_step hstep with
  | received hstage hsender => cases hsingle
  | noted hstage =>
      rw [single, hstage] at hsingle
      cases hsingle
  | adopted hstage =>
      rw [single, hstage] at hsingle
      cases hsingle
  | filed hfiled hknown =>
      rw [fileAddresses_of_free (h.orderly.addressesLocked.trans hfree)
        (h.orderly.jobsLocked.trans hfree)]
      rfl
  | filedLate hstage =>
      rw [single, hstage] at hsingle
      cases hsingle
  | checked => cases hsingle
  | distributed hnone => cases hnone.symm.trans hsingle
  | put hstage => cases hsingle
  | managed hknown => cases hsingle
  | elapsed => cases hsingle

/-- What was still to come and what the step adds to it has been broadcast or is still to come. -/
theorem Refines.rest_append {next : Atomic} {sent : List Payload}
    (h : firmware.Refines addr atomic) (hafter : after.Refines addr next)
    (honward : Onward event firmware after) (hsent : next.broadcast = atomic.broadcast ++ sent) :
    firmware.rest ++ sent = after.broadcast.drop firmware.broadcast.length ++ after.rest := by
  have hbefore : firmware.broadcast ++ firmware.rest = atomic.broadcast := by
    rw [broadcast_append_rest, h.settled, Atomic.remember]
  have hend : after.broadcast ++ after.rest = next.broadcast := by
    rw [broadcast_append_rest, hafter.settled, Atomic.remember]
  have hgrown : after.broadcast =
      firmware.broadcast ++ after.broadcast.drop firmware.broadcast.length :=
    List.prefix_append_drop honward.broadcast
  apply @List.append_cancel_left _ firmware.broadcast
  calc
    firmware.broadcast ++ (firmware.rest ++ sent) = atomic.broadcast ++ sent := by
      rw [← List.append_assoc, hbefore]
    _ = after.broadcast ++ after.rest := by rw [hend, hsent]
    _ = _ := by
      conv_lhs => rw [hgrown]
      exact List.append_assoc _ _ _

end Firmware

/-- All payloads but the last are logs. -/
def LogsFirst (payloads : List Payload) : Prop :=
  ∀ payload ∈ payloads.dropLast, ∃ text, payload = .log text

/-- A machine logs an accepted job before it broadcasts the ledger. -/
theorem LocalEvent.logsFirst_output (event : LocalEvent) (machine : Machine) :
    LogsFirst (event.output machine).sent := by
  have hsingle (payload : Payload) : LogsFirst [payload] := by
    intro other hother
    cases hother
  cases event with
  | tick env =>
      cases haddr : env.myAddr with
      | none =>
          rw [output, manageLedger_of_unknown haddr]
          intro payload hpayload
          cases hpayload
      | some myAddr =>
          rcases (manageLedger_outcome haddr machine).broadcast with
            ⟨hquiet, -⟩ | ⟨state, -, hledger | ⟨text, hledger⟩, -⟩
          · rw [output, hquiet]
            intro payload hpayload
            cases hpayload
          · rw [output, hledger]
            exact hsingle _
          · rw [output, hledger]
            intro payload hpayload
            exact ⟨text, List.mem_singleton.mp hpayload⟩
  | upload guid myAddr =>
      rw [output]
      cases (appendToLedger myAddr guid machine).2 with
      | none =>
          intro payload hpayload
          cases hpayload
      | some alert => exact hsingle alert
  | receive sender message =>
      intro payload hpayload
      cases hpayload
  | lifetimeCheck =>
      intro payload hpayload
      cases hpayload
  | elapse ticks =>
      intro payload hpayload
      cases hpayload

/-- Only the last message of a step has not been made yet. -/
theorem stamp_append {payloads made rest : List Payload} (hsplit : payloads = made ++ rest)
    (hrest : rest = [] ∨ ∃ ledger, rest = [.ledger ledger]) (hlogs : LogsFirst payloads)
    (logKey key laterKey : Uuid) :
    payloads.map (System.stamp logKey (if rest.isEmpty then key else laterKey)) =
      made.map (System.stamp logKey key) ++ rest.map (Message.mk laterKey) := by
  subst hsplit
  rcases hrest with rfl | ⟨ledger, rfl⟩
  · simp
  · rw [LogsFirst, List.dropLast_concat] at hlogs
    rw [List.map_append]
    congr 1
    apply List.map_congr_left
    intro payload hpayload
    obtain ⟨text, rfl⟩ := hlogs payload hpayload
    rfl

/-! ## Steps of the network -/

/-- The UUIDs that the network draws for a step of one of its machines. -/
def LocalEvent.ids (logKey key : Uuid) : LocalEvent → List Uuid
  | .upload guid _ => [guid, key]
  | .tick _ => [logKey, key]
  | .receive .. | .lifetimeCheck | .elapse _ => []

theorem alert_appendToLedger (myAddr : Option Ipv4Addr) (guid : Uuid) (machine : Machine) :
    (appendToLedger myAddr guid machine).2 = none ∨
      (appendToLedger myAddr guid machine).2 = some (.newJob guid) := by
  cases myAddr with
  | none => cases hempty : machine.addresses.isEmpty <;> simp [appendToLedger, hempty]
  | some addr =>
      by_cases howns : machine.Owns addr
      · obtain ⟨state, hjobs, howner⟩ := howns
        rw [appendToLedger_of_owner hjobs howner]
        exact .inl rfl
      · rw [appendToLedger_of_not_owns howns]
        cases machine.addresses.isEmpty
        · exact .inr rfl
        · exact .inl rfl

namespace System

/-- The step of the network in which nothing happens. -/
theorem commit_idle (system : System) (addr : Ipv4Addr) :
    system.commit addr [] ⟨system.machines addr, [], none, none, none⟩ = system := by
  simp [commit]

/-- A machine takes a step: so does the network, or nothing happens. -/
theorem reaches_of_local {ring : Finset Ipv4Addr} {system : System} {addr : Ipv4Addr}
    {event : LocalEvent} {machine : Machine} {logKey key : Uuid} (haddr : addr ∈ ring)
    (hstep : (system.machines addr).step addr event = some machine)
    (hsent : ∀ sender message, event = .receive sender message → ⟨sender, message⟩ ∈ system.sent)
    (hknown : ∀ guid myAddr, event = .upload guid myAddr → myAddr = some addr)
    (hnodup : (event.ids logKey key).Nodup)
    (hfresh : ∀ id ∈ event.ids logKey key, id ∉ system.issued) :
    ∃ ids outcome, Reaches (System.step ring) Unrestricted system (system.commit addr ids outcome) ∧
      ids ⊆ event.ids logKey key ∧ outcome.machine = machine ∧
      outcome.sent = (event.output (system.machines addr)).sent.map (stamp logKey key) ∧
      outcome.accepted = (event.output (system.machines addr)).accepted := by
  have hreaches {action : Action} {outcome : Outcome} (hact : system.act addr action = some outcome)
      (hids : action.ids = event.ids logKey key) :
      Reaches (System.step ring) Unrestricted system
        (system.commit addr (event.ids logKey key) outcome) := by
    have hnext : system.step ring ⟨addr, action⟩ =
        some (system.commit addr (event.ids logKey key) outcome) := by
      rw [System.step, if_pos ⟨haddr, by rwa [hids], by rwa [hids]⟩, hact, Option.map_some, hids]
    exact .tail .refl trivial hnext
  cases event with
  | receive sender message =>
      obtain ⟨hne, hsome⟩ := Option.ite_none_left_eq_some.mp hstep
      obtain ⟨index, hindex⟩ := List.mem_iff_getElem?.mp (hsent sender message rfl)
      have hact : system.act addr (.deliver index) =
          some ⟨receiveMessage sender message (system.machines addr), [], none, none,
            some index⟩ := by
        rw [act, hindex, Option.bind_some, if_neg hne]
      exact ⟨[], _, hreaches hact rfl, List.Subset.refl _, Option.some.inj hsome, rfl, rfl⟩
  | upload guid myAddr =>
      obtain rfl := hknown guid myAddr rfl
      obtain ⟨-, hsome⟩ := Option.ite_none_right_eq_some.mp hstep
      obtain ⟨outcome, hact, hmachine, hmade, haccepted⟩ :
          ∃ outcome, system.act addr (.upload guid key) = some outcome ∧
            outcome.machine = (appendToLedger (some addr) guid (system.machines addr)).1 ∧
            outcome.sent = (appendToLedger (some addr) guid (system.machines addr)).2.toList.map
              (Message.mk key) ∧
            outcome.accepted = none := ⟨_, rfl, rfl, rfl, rfl⟩
      refine ⟨_, outcome, hreaches hact rfl, List.Subset.refl _,
        hmachine.trans (Option.some.inj hsome), hmade.trans ?_, haccepted⟩
      rw [LocalEvent.output]
      rcases alert_appendToLedger (some addr) guid (system.machines addr) with hnone | hsome
      · rw [hnone]
        rfl
      · rw [hsome]
        rfl
  | tick env =>
      obtain ⟨hknown, hsome⟩ := Option.ite_none_right_eq_some.mp hstep
      rcases hknown with hnone | hself
      · rw [manageLedger_of_unknown hnone] at hsome
        have houtput : (LocalEvent.tick env).output (system.machines addr) = .quiet := by
          rw [LocalEvent.output, manageLedger_of_unknown hnone]
        refine ⟨[], ⟨system.machines addr, [], none, none, none⟩, ?_, List.nil_subset _,
          Option.some.inj hsome, by rw [houtput]; rfl, by rw [houtput]; rfl⟩
        rw [commit_idle]
        exact .refl
      · have hact : system.act addr (.tick env logKey key) =
            some ⟨(manageLedger env (system.machines addr)).1,
              (manageLedger env (system.machines addr)).2.sent.map (stamp logKey key), none,
              (manageLedger env (system.machines addr)).2.accepted, none⟩ := by
          rw [act, if_pos hself]
        exact ⟨_, _, hreaches hact rfl, List.Subset.refl _, Option.some.inj hsome, rfl, rfl⟩
  | lifetimeCheck =>
      have hact : system.act addr .lifetimeCheck = some ⟨_, _, _, _, _⟩ := rfl
      exact ⟨_, _, hreaches hact rfl, List.Subset.refl _, Option.some.inj hstep, rfl, rfl⟩
  | elapse ticks =>
      have hact : system.act addr (.elapse ticks) = some ⟨_, _, _, _, _⟩ := rfl
      exact ⟨_, _, hreaches hact rfl, List.Subset.refl _, Option.some.inj hstep, rfl, rfl⟩

end System

/-! ## The ring -/

deriving instance DecidableEq for Envelope

/-- All machines with their tasks, the messages they have made, the UUIDs that `generate_uuid_v7`
has returned and the jobs that Marlin has accepted. -/
structure TaskRing where
  firmwares : Ipv4Addr → Firmware
  sent : List Envelope
  issued : List Uuid
  accepted : List (Ipv4Addr × Uuid)

/-- A step of the tasks of `Firmware`, with the UUIDs for the messages that it makes, or of a task
that shares nothing with them. -/
inductive TaskAction where
  | task (event : TaskEvent) (logKey key : Uuid)
  | heartbeat (key : Uuid)
  | log (text : List Char) (key : Uuid)

def TaskAction.ids : TaskAction → List Uuid
  | .task event logKey key => event.guids ++ [logKey, key]
  | .heartbeat key | .log _ key => [key]

/-- A machine has its turn. -/
structure Turn where
  addr : Ipv4Addr
  action : TaskAction

namespace TaskRing

def boot : TaskRing := ⟨fun _ ↦ .boot, [], [], []⟩

/-- Only messages that have been made arrive. -/
def Arrives (tasks : TaskRing) : TaskEvent → Prop
  | .arrive sender message => ⟨sender, message⟩ ∈ tasks.sent
  | .upload .. | .distribute _ | .pollReceiver | .pollFiler _ | .pollChecker | .pollDistributor
  | .pollManager .. | .elapse _ => True

instance (tasks : TaskRing) : DecidablePred tasks.Arrives
  | .arrive sender message => inferInstanceAs (Decidable (⟨sender, message⟩ ∈ tasks.sent))
  | .upload .. | .distribute _ | .pollReceiver | .pollFiler _ | .pollChecker | .pollDistributor
  | .pollManager .. | .elapse _ => .isTrue trivial

/-- Record a turn of the machine at `addr`. -/
def commit (tasks : TaskRing) (addr : Ipv4Addr) (ids : List Uuid) (after : Firmware)
    (messages : List Message) : TaskRing where
  firmwares := Function.update tasks.firmwares addr after
  sent := tasks.sent ++ messages.map (Envelope.mk addr)
  issued := tasks.issued ++ ids
  accepted := tasks.accepted ++
    (after.accepted.drop (tasks.firmwares addr).accepted.length).map (Prod.mk addr)

/-- The ring after a step of the tasks of the machine at `addr`: what they begin to broadcast is
made into messages. -/
def advance (tasks : TaskRing) (addr : Ipv4Addr) (event : TaskEvent) (logKey key : Uuid)
    (after : Firmware) : TaskRing :=
  tasks.commit addr (event.guids ++ [logKey, key]) after
    ((after.broadcast.drop (tasks.firmwares addr).broadcast.length).map (System.stamp logKey key))

/-- The effect of a turn; `none` when it is not enabled. -/
def act (tasks : TaskRing) (addr : Ipv4Addr) : TaskAction → Option TaskRing
  | .task event logKey key =>
      if tasks.Arrives event then
        ((tasks.firmwares addr).step addr event).map (tasks.advance addr event logKey key)
      else none
  | .heartbeat key =>
      some (tasks.commit addr [key] (tasks.firmwares addr) [⟨key, .heartbeat true⟩])
  | .log text key => some (tasks.commit addr [key] (tasks.firmwares addr) [⟨key, .log text⟩])

/-- One turn, with UUIDs that are new. -/
def step (ring : Finset Ipv4Addr) (tasks : TaskRing) (turn : Turn) : Option TaskRing :=
  if turn.addr ∈ ring ∧ turn.action.ids.Nodup ∧ ∀ id ∈ turn.action.ids, id ∉ tasks.issued then
    tasks.act turn.addr turn.action
  else none

/-- A machine that a job is uploaded to knows its address, and so does one that goes on with a round
that has accepted a job. -/
def Addressed (tasks : TaskRing) (turn : Turn) : Prop :=
  match turn.action with
  | .task (.upload _ myAddr) _ _ | .task (.pollFiler myAddr) _ _ => myAddr = some turn.addr
  | .task event _ _ => (tasks.firmwares turn.addr).Steady event
  | .heartbeat _ | .log _ _ => True

instance (tasks : TaskRing) : DecidablePred tasks.Addressed
  | ⟨addr, .task (.upload _ myAddr) _ _⟩ | ⟨addr, .task (.pollFiler myAddr) _ _⟩ =>
      inferInstanceAs (Decidable (myAddr = some addr))
  | ⟨addr, .task (.pollManager env answered allocated) _ _⟩ =>
      inferInstanceAs (Decidable
        ((tasks.firmwares addr).Steady (.pollManager env answered allocated)))
  | ⟨_, .task (.arrive ..) _ _⟩ | ⟨_, .task (.distribute _) _ _⟩ | ⟨_, .task .pollReceiver _ _⟩
  | ⟨_, .task .pollChecker _ _⟩ | ⟨_, .task .pollDistributor _ _⟩ | ⟨_, .task (.elapse _) _ _⟩
  | ⟨_, .heartbeat _⟩ | ⟨_, .log _ _⟩ => .isTrue trivial

/-! ## The keys to come -/

/-- Keys that the rounds under way may draw for the ledgers that end them. -/
structure Foresees (ring : Finset Ipv4Addr) (later : Ipv4Addr → Uuid) (tasks : TaskRing) :
    Prop where
  unused : ∀ addr ∈ ring, later addr ∉ tasks.issued
  injective : Set.InjOn later ring

/-- The messages that the round under way will still make. -/
def owed (tasks : TaskRing) (later : Ipv4Addr → Uuid) (addr : Ipv4Addr) : List Message :=
  (tasks.firmwares addr).rest.map (Message.mk (later addr))

/-- Before a turn that ends a round with `key`, this was the key to come. -/
def sooner (later : Ipv4Addr → Uuid) (addr : Ipv4Addr) (key : Uuid) (after : Firmware) :
    Ipv4Addr → Uuid :=
  if after.rest.isEmpty then Function.update later addr key else later

variable {ring : Finset Ipv4Addr} {tasks : TaskRing} {system : System} {addr other : Ipv4Addr}
  {before later : Ipv4Addr → Uuid} {key logKey : Uuid} {after : Firmware} {ids : List Uuid}
  {event : TaskEvent}

theorem sooner_self : sooner later addr key after addr =
    if after.rest.isEmpty then key else later addr := by
  unfold sooner
  split
  · exact Function.update_self ..
  · rfl

theorem sooner_of_ne (h : other ≠ addr) : sooner later addr key after other = later other := by
  unfold sooner
  split
  · exact Function.update_of_ne h ..
  · rfl

theorem sooner_cases : sooner later addr key after addr = key ∨
    after.rest ≠ [] ∧ sooner later addr key after addr = later addr := by
  rw [sooner_self]
  split
  next hempty => exact .inl rfl
  next hrest => exact .inr ⟨fun hnil ↦ hrest (List.isEmpty_iff.mpr hnil), rfl⟩

/-- A UUID that has been drawn is no key to come. -/
theorem Foresees.ne_later {messages : List Message} {id : Uuid}
    (h : (tasks.commit addr ids after messages).Foresees ring later) (hother : other ∈ ring)
    (hid : id ∈ tasks.issued ∨ id ∈ ids) : id ≠ later other := by
  rintro rfl
  exact h.unused other hother (List.mem_append.mpr hid)

theorem Foresees.of_commit {messages : List Message}
    (h : (tasks.commit addr ids after messages).Foresees ring later)
    (hkey : key ∈ ids) (hfresh : ∀ id ∈ ids, id ∉ tasks.issued) :
    tasks.Foresees ring (sooner later addr key after) where
  unused := by
    intro other hother
    have hlater : later other ∉ tasks.issued :=
      fun hissued ↦ h.unused other hother (List.mem_append_left _ hissued)
    by_cases hsame : other = addr
    · subst hsame
      rcases @sooner_cases other later key after with hself | ⟨-, hself⟩
      · rw [hself]
        exact hfresh key hkey
      · rw [hself]
        exact hlater
    · rw [sooner_of_ne hsame]
      exact hlater
  injective := by
    have hcross : ∀ other ∈ ring, other ≠ addr → addr ∈ ring →
        sooner later addr key after addr ≠ sooner later addr key after other := by
      intro other hother hne haddr
      rw [sooner_of_ne hne]
      rcases @sooner_cases addr later key after with hself | ⟨-, hself⟩
      · rw [hself]
        exact h.ne_later hother (.inr hkey)
      · rw [hself]
        exact fun hsame ↦ hne (h.injective haddr hother hsame).symm
    intro left hleft right hright hsame
    by_cases hself : left = addr
    · subst hself
      by_contra hne
      exact hcross right hright (Ne.symm hne) hleft hsame
    · by_cases hother : right = addr
      · subst hother
        exact absurd hsame.symm (hcross left hleft hself hright)
      · rw [sooner_of_ne hself, sooner_of_ne hother] at hsame
        exact h.injective hleft hright hsame

/-- The network in single steps is where the machines will be once the rounds under way are over, if
these draw the keys `later`. -/
structure Refines (ring : Finset Ipv4Addr) (later : Ipv4Addr → Uuid) (tasks : TaskRing)
    (system : System) : Prop where
  machines : ∀ addr ∈ ring, ∃ broadcast accepted,
    (tasks.firmwares addr).Refines addr ⟨system.machines addr, broadcast, accepted⟩
  sent : ∀ addr message, ⟨addr, message⟩ ∈ system.sent ↔
    ⟨addr, message⟩ ∈ tasks.sent ∨ addr ∈ ring ∧ message ∈ tasks.owed later addr
  issued : ∀ id ∈ system.issued, id ∈ tasks.issued ∨
    ∃ addr ∈ ring, (tasks.firmwares addr).rest ≠ [] ∧ id = later addr
  accepted : tasks.accepted = system.accepted
  held : ∀ addr ∈ ring, ∀ envelope ∈ (tasks.firmwares addr).receiver.held, envelope ∈ tasks.sent
  pending : ∀ addr ∈ ring, ∀ guid ∈ (tasks.firmwares addr).filer.pending,
    guid ∈ tasks.issued ∧ guid ∉ system.issued
  distinct : ∀ left ∈ ring, ∀ right ∈ ring, ∀ guid ∈ (tasks.firmwares left).filer.pending,
    guid ∈ (tasks.firmwares right).filer.pending → left = right

theorem refines_boot (ring : Finset Ipv4Addr) (later : Ipv4Addr → Uuid) :
    boot.Refines ring later System.boot where
  machines := fun addr _ ↦ ⟨[], [], Firmware.refines_boot addr⟩
  sent := by
    intro addr message
    simp only [System.boot, List.not_mem_nil, false_iff, not_or, not_and]
    exact ⟨List.not_mem_nil, fun _ ↦ List.not_mem_nil⟩
  issued := by simp [System.boot]
  accepted := rfl
  held := by
    intro addr _ envelope henvelope
    cases henvelope
  pending := by
    intro addr _ guid hguid
    cases hguid
  distinct := by
    intro left _ right _ guid hguid
    cases hguid

/-- What a turn of the machine at `addr` and a step of the network have to agree on. -/
structure Agree (before later : Ipv4Addr → Uuid) (tasks : TaskRing) (system : System)
    (addr : Ipv4Addr) (ids drawn : List Uuid) (after : Firmware) (messages : List Message)
    (outcome : Outcome) : Prop where
  others : ∀ other, other ≠ addr → before other = later other
  machine : ∃ broadcast accepted, after.Refines addr ⟨outcome.machine, broadcast, accepted⟩
  sent : ∀ message, message ∈ tasks.owed before addr ∨ message ∈ outcome.sent ↔
    message ∈ messages ∨ message ∈ after.rest.map (Message.mk (later addr))
  kept : (tasks.firmwares addr).rest ≠ [] →
    before addr ∈ ids ∨ after.rest ≠ [] ∧ before addr = later addr
  source : ∀ id ∈ drawn, id ∈ ids ∨ id ∈ (tasks.firmwares addr).filer.pending ∨
    after.rest ≠ [] ∧ id = later addr
  accepted : after.accepted.drop (tasks.firmwares addr).accepted.length = outcome.accepted.toList
  held : ∀ envelope ∈ after.receiver.held, envelope ∈ tasks.sent
  pending : ∀ guid ∈ after.filer.pending,
    (guid ∈ (tasks.firmwares addr).filer.pending ∨ guid ∈ ids) ∧ guid ∉ system.issued ∧ guid ∉ drawn

section Commit

variable {messages : List Message}

theorem firmwares_commit_self : (tasks.commit addr ids after messages).firmwares addr = after :=
  Function.update_self ..

theorem firmwares_commit_of_ne (h : other ≠ addr) :
    (tasks.commit addr ids after messages).firmwares other = tasks.firmwares other :=
  Function.update_of_ne h ..

theorem owed_commit_self :
    (tasks.commit addr ids after messages).owed later addr =
      after.rest.map (Message.mk (later addr)) := by
  rw [owed, firmwares_commit_self]

theorem owed_commit_of_ne (h : other ≠ addr) :
    (tasks.commit addr ids after messages).owed later other = tasks.owed later other := by
  rw [owed, owed, firmwares_commit_of_ne h]

theorem Refines.commit {outcome : Outcome} {drawn : List Uuid}
    (h : tasks.Refines ring before system) (haddr : addr ∈ ring)
    (hlater : (tasks.commit addr ids after messages).Foresees ring later)
    (hfresh : ∀ id ∈ ids, id ∉ tasks.issued)
    (hagree : Agree before later tasks system addr ids drawn after messages outcome) :
    (tasks.commit addr ids after messages).Refines ring later
      (system.commit addr drawn outcome) where
  machines := by
    intro other hother
    by_cases hsame : other = addr
    · subst hsame
      rw [System.machines_commit_self, firmwares_commit_self]
      exact hagree.machine
    · rw [System.machines_commit_of_ne hsame, firmwares_commit_of_ne hsame]
      exact h.machines other hother
  sent := by
    intro other message
    by_cases hsame : other = addr
    · subst hsame
      have hmade (made : List Message) :
          ⟨other, message⟩ ∈ made.map (Envelope.mk other) ↔ message ∈ made := by
        simp
      rw [owed_commit_self]
      simp only [System.commit, TaskRing.commit, List.mem_append, hmade,
        h.sent other message, haddr, true_and, or_assoc, hagree.sent message]
    · have howed : tasks.owed before other = tasks.owed later other := by
        rw [owed, owed, hagree.others other hsame]
      have hnothing (made : List Message) : ⟨other, message⟩ ∉ made.map (Envelope.mk addr) := by
        intro hmem
        obtain ⟨_, -, heq⟩ := List.mem_map.mp hmem
        exact hsame (congrArg Envelope.src heq).symm
      rw [owed_commit_of_ne hsame, ← howed]
      simp only [System.commit, TaskRing.commit, List.mem_append, hnothing, or_false]
      exact h.sent other message
  issued := by
    intro id hid
    rcases List.mem_append.mp hid with hold | hnew
    · rcases h.issued id hold with hissued | ⟨other, hother, hrest, rfl⟩
      · exact .inl (List.mem_append_left _ hissued)
      · by_cases hsame : other = addr
        · subst hsame
          rcases hagree.kept hrest with hmade | ⟨hstill, hkey⟩
          · exact .inl (List.mem_append_right _ hmade)
          · exact .inr ⟨other, hother, by rwa [firmwares_commit_self], hkey⟩
        · exact .inr ⟨other, hother, by rwa [firmwares_commit_of_ne hsame],
            hagree.others other hsame⟩
    · rcases hagree.source id hnew with hmade | hpending | ⟨hrest, hkey⟩
      · exact .inl (List.mem_append_right _ hmade)
      · exact .inl (List.mem_append_left _ (h.pending addr haddr id hpending).1)
      · exact .inr ⟨addr, haddr, by rwa [firmwares_commit_self], hkey⟩
  accepted := by
    rw [TaskRing.commit, System.commit, h.accepted, hagree.accepted]
  held := by
    intro other hother envelope henvelope
    apply List.mem_append_left
    by_cases hsame : other = addr
    · subst hsame
      rw [firmwares_commit_self] at henvelope
      exact hagree.held envelope henvelope
    · rw [firmwares_commit_of_ne hsame] at henvelope
      exact h.held other hother envelope henvelope
  pending := by
    intro other hother guid hguid
    by_cases hsame : other = addr
    · subst hsame
      rw [firmwares_commit_self] at hguid
      obtain ⟨hfrom, hsystem, hdrawn⟩ := hagree.pending guid hguid
      refine ⟨List.mem_append.mpr ?_, List.not_mem_append hsystem hdrawn⟩
      exact hfrom.imp_left fun hpending ↦ (h.pending other hother guid hpending).1
    · rw [firmwares_commit_of_ne hsame] at hguid
      obtain ⟨hissued, hsystem⟩ := h.pending other hother guid hguid
      refine ⟨List.mem_append_left _ hissued, List.not_mem_append hsystem ?_⟩
      intro hdrawn
      rcases hagree.source guid hdrawn with hmade | hpending | ⟨-, hkey⟩
      · exact hfresh guid hmade hissued
      · exact hsame (h.distinct other hother addr haddr guid hguid hpending)
      · exact hlater.ne_later haddr (.inl hissued) hkey
  distinct := by
    -- a job that has just been uploaded is no other machine's
    have hcross : ∀ other ∈ ring, other ≠ addr → ∀ guid ∈ after.filer.pending,
        guid ∉ (tasks.firmwares other).filer.pending := by
      intro other hother hsame guid hguid hpending
      rcases (hagree.pending guid hguid).1 with hold | hmade
      · exact hsame (h.distinct other hother addr haddr guid hpending hold)
      · exact hfresh guid hmade (h.pending other hother guid hpending).1
    intro left hleft right hright guid hguid hother
    by_cases hsame : left = addr
    · subst hsame
      rw [firmwares_commit_self] at hguid
      by_contra hne
      rw [firmwares_commit_of_ne (Ne.symm hne)] at hother
      exact hcross right hright (Ne.symm hne) guid hguid hother
    · rw [firmwares_commit_of_ne hsame] at hguid
      by_cases hself : right = addr
      · subst hself
        rw [firmwares_commit_self] at hother
        exact absurd hguid (hcross left hleft hsame guid hother)
      · rw [firmwares_commit_of_ne hself] at hother
        exact h.distinct left hleft right hright guid hguid hother

end Commit

/-! ## The simulation -/

section Simulation

variable {broadcast made : List Payload} {accepted drawn : List Uuid} {outcome : Outcome}

theorem steady_of_addressed (h : tasks.Addressed ⟨addr, .task event logKey key⟩) :
    (tasks.firmwares addr).Steady event := by
  cases event with
  | upload guid myAddr => trivial
  | pollFiler myAddr => trivial
  | pollManager env answered allocated => exact h
  | arrive sender message => trivial
  | distribute guid => trivial
  | pollReceiver => trivial
  | pollChecker => trivial
  | pollDistributor => trivial
  | elapse ticks => trivial

theorem known_of_addressed {guid : Uuid} {myAddr : Option Ipv4Addr}
    (h : tasks.Addressed ⟨addr, .task event logKey key⟩)
    (hsingle : (tasks.firmwares addr).single event = some (.upload guid myAddr)) :
    myAddr = some addr := by
  rcases Firmware.upload_cases hsingle with rfl | ⟨rfl, -⟩
  · exact h
  · exact h

/-- A message that is processed has been made. -/
theorem Refines.sent_of_single {sender : Ipv4Addr} {message : Message}
    (h : tasks.Refines ring before system) (haddr : addr ∈ ring) (harrives : tasks.Arrives event)
    (hsingle : (tasks.firmwares addr).single event = some (.receive sender message)) :
    ⟨sender, message⟩ ∈ system.sent := by
  apply (h.sent sender message).mpr
  left
  rcases Firmware.receive_cases hsingle with rfl | ⟨rfl, hstage⟩
  · exact harrives
  · exact h.held addr haddr _ (by rw [hstage]; rfl)

/-- The network has made what the turn makes, or makes it now. -/
theorem Refines.agree (h : tasks.Refines ring (sooner later addr key after) system)
    (haddr : addr ∈ ring) (harrives : tasks.Arrives event) (hkey : key ∈ ids)
    (hbefore : (tasks.firmwares addr).Refines addr ⟨system.machines addr, broadcast, accepted⟩)
    (honward : Firmware.Onward event (tasks.firmwares addr) after)
    (hafter : after.Refines addr
      ⟨outcome.machine, broadcast ++ made, accepted ++ outcome.accepted.toList⟩)
    (hmade : outcome.sent = made.map (System.stamp logKey (sooner later addr key after addr)))
    (hlogs : LogsFirst ((tasks.firmwares addr).rest ++ made))
    (hsource : ∀ id ∈ drawn, id ∈ ids ∨ id ∈ (tasks.firmwares addr).filer.pending ∨
      id = sooner later addr key after addr)
    (hpending : ∀ guid ∈ after.filer.pending,
      (guid ∈ (tasks.firmwares addr).filer.pending ∨ guid ∈ ids) ∧
        guid ∉ system.issued ∧ guid ∉ drawn) :
    Agree (sooner later addr key after) later tasks system addr ids drawn after
      ((after.broadcast.drop (tasks.firmwares addr).broadcast.length).map
        (System.stamp logKey key)) outcome where
  others := fun other hother ↦ sooner_of_ne hother
  machine := ⟨_, _, hafter⟩
  sent := by
    have hrest : tasks.owed (sooner later addr key after) addr = (tasks.firmwares addr).rest.map
        (System.stamp logKey (sooner later addr key after addr)) := by
      rw [owed]
      rcases (tasks.firmwares addr).rest_cases with hnil | ⟨ledger, hledger⟩
      · rw [hnil]
        rfl
      · rw [hledger]
        rfl
    have hstamped := stamp_append (hbefore.rest_append hafter honward rfl) after.rest_cases hlogs
      logKey key (later addr)
    intro message
    rw [hrest, hmade, ← List.mem_append, ← List.map_append, sooner_self, hstamped, List.mem_append]
  kept := by
    intro _
    rcases @sooner_cases addr later key after with hself | hself
    · exact .inl (by rwa [hself])
    · exact .inr hself
  source := by
    intro id hid
    rcases hsource id hid with hnew | hold | rfl
    · exact .inl hnew
    · exact .inr (.inl hold)
    · rcases @sooner_cases addr later key after with hself | hself
      · exact .inl (by rwa [hself])
      · exact .inr (.inr hself)
  accepted := by
    have haccepted : after.accepted = accepted ++ outcome.accepted.toList := hafter.shows.accepted
    have hbegun : (tasks.firmwares addr).accepted = accepted := hbefore.shows.accepted
    rw [haccepted, hbegun, List.drop_left]
  held := by
    intro envelope henvelope
    rcases honward.held envelope henvelope with hold | harrived
    · exact h.held addr haddr envelope hold
    · rw [harrived] at harrives
      exact harrives
  pending := hpending

theorem Foresees.of_append {messages : List Message}
    (h : (tasks.commit addr ids after messages).Foresees ring later) :
    tasks.Foresees ring later where
  unused := fun other hother hissued ↦ h.unused other hother (List.mem_append_left _ hissued)
  injective := h.injective

/-- What the network has not drawn yet. -/
theorem Refines.unissued (h : tasks.Refines ring before system) {id : Uuid}
    (hid : id ∉ tasks.issued)
    (hne : ∀ other ∈ ring, (tasks.firmwares other).rest ≠ [] → id ≠ before other) :
    id ∉ system.issued := by
  intro hissued
  rcases h.issued id hissued with hdrawn | ⟨other, hother, hrest, heq⟩
  · exact hid hdrawn
  · exact hne other hother hrest heq

theorem logsFirst_rest (firmware : Firmware) : LogsFirst firmware.rest := by
  intro payload hpayload
  rcases firmware.rest_cases with hnil | ⟨ledger, hledger⟩
  · rw [hnil] at hpayload
    cases hpayload
  · rw [hledger] at hpayload
    cases hpayload

/-- What the network draws is new in the turn, or waits to be filed, or is the key that a round will
end with. -/
theorem ids_cases {single : LocalEvent} {laterKey id : Uuid}
    (hsingle : (tasks.firmwares addr).single event = some single)
    (hid : id ∈ single.ids logKey laterKey) :
    id ∈ event.guids ++ [logKey] ∨ id ∈ (tasks.firmwares addr).filer.pending ∨ id = laterKey := by
  cases single with
  | upload guid myAddr =>
      rcases List.mem_cons.mp hid with rfl | hlast
      · rcases Firmware.pending_of_single hsingle with hpending | hnew
        · exact .inr (.inl hpending)
        · exact .inl (List.mem_append_left _ hnew)
      · exact .inr (.inr (List.mem_singleton.mp hlast))
  | tick env =>
      rcases List.mem_cons.mp hid with rfl | hlast
      · exact .inl (List.mem_append_right _ (List.mem_singleton_self _))
      · exact .inr (.inr (List.mem_singleton.mp hlast))
  | receive sender message => cases hid
  | lifetimeCheck => cases hid
  | elapse ticks => cases hid

section Turn

variable (h : tasks.Refines ring (sooner later addr key after) system) (haddr : addr ∈ ring)
  (hnodup : (event.guids ++ [logKey, key]).Nodup)
  (hfresh : ∀ id ∈ event.guids ++ [logKey, key], id ∉ tasks.issued)
  (hlater : (tasks.advance addr event logKey key after).Foresees ring later)

include h haddr hnodup hfresh hlater

/-- What is new, and not the key that a round will end with, is new to the network. -/
theorem new_of_turn {id : Uuid} (hid : id ∈ event.guids ++ [logKey]) :
    id ∉ system.issued ∧ id ≠ sooner later addr key after addr := by
  rw [List.append_cons] at hnodup
  have hdrawn : id ∈ event.guids ++ [logKey, key] := by
    rw [List.append_cons]
    exact List.mem_append_left _ hid
  have hne : id ≠ key :=
    (List.nodup_append.mp hnodup).2.2 id hid key (List.mem_singleton_self key)
  have hself : id ≠ sooner later addr key after addr := by
    rcases @sooner_cases addr later key after with hkey | ⟨-, hkey⟩
    · rwa [hkey]
    · rw [hkey]
      exact hlater.ne_later haddr (.inr hdrawn)
  refine ⟨h.unissued (hfresh id hdrawn) ?_, hself⟩
  intro other hother _
  by_cases hsame : other = addr
  · rwa [hsame]
  · rw [sooner_of_ne hsame]
    exact hlater.ne_later hother (.inr hdrawn)

omit hnodup in
/-- A job that waits to be filed is new to the network. -/
theorem waiting_of_turn {id : Uuid} (hid : id ∈ (tasks.firmwares addr).filer.pending) :
    id ∉ system.issued ∧ id ≠ sooner later addr key after addr := by
  obtain ⟨hissued, hsystem⟩ := h.pending addr haddr id hid
  refine ⟨hsystem, ?_⟩
  rintro rfl
  exact (hlater.of_commit (by simp) hfresh).unused addr haddr hissued

/-- The network stands still while a round goes on or a task waits. -/
theorem still_of_turn {broadcast : List Payload} {accepted : List Uuid}
    (harrives : tasks.Arrives event)
    (hbefore : (tasks.firmwares addr).Refines addr ⟨system.machines addr, broadcast, accepted⟩)
    (honward : Firmware.Onward event (tasks.firmwares addr) after)
    (hafter : after.Refines addr ⟨system.machines addr, broadcast, accepted⟩) :
    (tasks.advance addr event logKey key after).Refines ring later system := by
  rw [← System.commit_idle system addr]
  apply h.commit haddr hlater hfresh
  apply @Refines.agree ring tasks system addr later key logKey after _ event broadcast [] accepted
    [] _ h haddr harrives (by simp) hbefore honward
  · simpa using hafter
  · rfl
  · rw [List.append_nil]
    exact logsFirst_rest _
  · intro id hid
    cases hid
  · intro guid hguid
    rcases honward.pending guid hguid with hold | hnew
    · exact ⟨.inl hold, (waiting_of_turn h haddr hfresh hlater hold).1, List.not_mem_nil⟩
    · exact ⟨.inr (List.mem_append_left _ hnew),
        (new_of_turn h haddr hnodup hfresh hlater (List.mem_append_left _ hnew)).1,
        List.not_mem_nil⟩

/-- The UUIDs of a step of the network are new. Only a machine that is in no round draws any. -/
theorem ids_of_turn {single : LocalEvent}
    (hsingle : (tasks.firmwares addr).single event = some single)
    (hfree : (tasks.firmwares addr).manager.midRound = false ∨ ∃ ticks, single = .elapse ticks) :
    (single.ids logKey (sooner later addr key after addr)).Nodup ∧
      ∀ id ∈ single.ids logKey (sooner later addr key after addr), id ∉ system.issued := by
  have hforesees : tasks.Foresees ring (sooner later addr key after) :=
    hlater.of_commit (by simp) hfresh
  constructor
  · cases single with
    | upload guid myAddr =>
        refine List.nodup_cons.mpr ⟨?_, List.nodup_singleton _⟩
        rw [List.mem_singleton]
        rcases Firmware.pending_of_single hsingle with hpending | hnew
        · exact (waiting_of_turn h haddr hfresh hlater hpending).2
        · exact (new_of_turn h haddr hnodup hfresh hlater (List.mem_append_left _ hnew)).2
    | tick env =>
        refine List.nodup_cons.mpr ⟨?_, List.nodup_singleton _⟩
        rw [List.mem_singleton]
        exact (new_of_turn h haddr hnodup hfresh hlater
          (List.mem_append_right _ (List.mem_singleton_self _))).2
    | receive sender message => exact List.nodup_nil
    | lifetimeCheck => exact List.nodup_nil
    | elapse ticks => exact List.nodup_nil
  · intro id hid
    rcases ids_cases hsingle hid with hnew | hpending | rfl
    · exact (new_of_turn h haddr hnodup hfresh hlater hnew).1
    · exact (waiting_of_turn h haddr hfresh hlater hpending).1
    · rcases hfree with hfree | ⟨ticks, rfl⟩
      · apply h.unissued (hforesees.unused addr haddr)
        intro other hother hrest hsame
        obtain rfl := hforesees.injective haddr hother hsame
        exact hrest (Firmware.rest_of_free hfree)
      · cases hid

/-- A job that waits after the turn is new to the network, and the network does not draw it now. -/
theorem pending_of_turn {atomic : Atomic} {single : LocalEvent} {guid : Uuid}
    (hbefore : (tasks.firmwares addr).Refines addr atomic)
    (hstep : (tasks.firmwares addr).step addr event = some after)
    (hsingle : (tasks.firmwares addr).single event = some single)
    (hfree : (tasks.firmwares addr).manager.midRound = false ∨ ∃ ticks, single = .elapse ticks)
    (hguid : guid ∈ after.filer.pending) :
    (guid ∈ (tasks.firmwares addr).filer.pending ∨ guid ∈ event.guids) ∧ guid ∉ system.issued ∧
      guid ∉ single.ids logKey (sooner later addr key after addr) := by
  have hfrom := (hbefore.onward hstep).pending guid hguid
  have hnew : guid ∉ system.issued ∧ guid ≠ sooner later addr key after addr := by
    rcases hfrom with hold | hnew
    · exact waiting_of_turn h haddr hfresh hlater hold
    · exact new_of_turn h haddr hnodup hfresh hlater (List.mem_append_left _ hnew)
  refine ⟨hfrom, hnew.1, ?_⟩
  cases single with
  | upload filed myAddr =>
      rcases hfree with hfree | ⟨ticks, hticks⟩
      · rw [hbefore.pending_of_free hfree hsingle hstep] at hguid
        cases hguid
      · cases hticks
  | tick env =>
      have hlog : guid ≠ logKey := by
        rcases hfrom with hold | hnew
        · rintro rfl
          exact hfresh guid (by simp) (h.pending addr haddr guid hold).1
        · exact (List.nodup_append.mp hnodup).2.2 guid hnew logKey List.mem_cons_self
      rw [LocalEvent.ids, List.mem_pair, not_or]
      exact ⟨hlog, hnew.2⟩
  | receive sender message => exact List.not_mem_nil
  | lifetimeCheck => exact List.not_mem_nil
  | elapse ticks => exact List.not_mem_nil

/-- The network takes the step that the machine takes. -/
theorem reaches_of_turn {broadcast : List Payload} {accepted : List Uuid} {single : LocalEvent}
    {next : Atomic} (harrives : tasks.Arrives event)
    (haddressed : tasks.Addressed ⟨addr, .task event logKey key⟩)
    (hstep : (tasks.firmwares addr).step addr event = some after)
    (hbefore : (tasks.firmwares addr).Refines addr ⟨system.machines addr, broadcast, accepted⟩)
    (hsingle : (tasks.firmwares addr).single event = some single)
    (hfree : (tasks.firmwares addr).manager.midRound = false ∨ ∃ ticks, single = .elapse ticks)
    (hnext : Atomic.step addr ⟨system.machines addr, broadcast, accepted⟩ single = some next)
    (hafter : after.Refines addr next) :
    ∃ final, Reaches (System.step ring) Unrestricted system final ∧
      (tasks.advance addr event logKey key after).Refines ring later final := by
  obtain ⟨hdistinct, hunissued⟩ := ids_of_turn h haddr hnodup hfresh hlater hsingle hfree
  have honward := hbefore.onward hstep
  have hsent : ∀ sender message, single = .receive sender message →
      ⟨sender, message⟩ ∈ system.sent := by
    rintro sender message rfl
    exact h.sent_of_single haddr harrives hsingle
  have hknown : ∀ guid myAddr, single = .upload guid myAddr → myAddr = some addr := by
    rintro guid myAddr rfl
    exact known_of_addressed haddressed hsingle
  obtain ⟨machine, hmachine, rfl⟩ := Option.map_eq_some_iff.mp hnext
  obtain ⟨drawn, outcome, hreaches, hdrawn, rfl, hmade, haccepted⟩ :=
    System.reaches_of_local haddr hmachine hsent hknown hdistinct hunissued
  refine ⟨_, hreaches, h.commit haddr hlater hfresh ?_⟩
  refine @Refines.agree ring tasks system addr later key logKey after _ event broadcast _ accepted
    drawn outcome h haddr harrives (by simp) hbefore honward ?_ hmade ?_ ?_ ?_
  · rw [haccepted]
    exact hafter
  · rcases hfree with hfree | ⟨ticks, rfl⟩
    · rw [Firmware.rest_of_free hfree]
      exact single.logsFirst_output _
    · rw [LocalEvent.output, TickOutput.quiet, List.append_nil]
      exact logsFirst_rest _
  · intro id hid
    rcases ids_cases hsingle (hdrawn hid) with hnew | hpending | hends
    · rw [List.append_cons]
      exact .inl (List.mem_append_left _ hnew)
    · exact .inr (.inl hpending)
    · exact .inr (.inr hends)
  · intro guid hguid
    obtain ⟨hfrom, hsystem, hnot⟩ :=
      pending_of_turn h haddr hnodup hfresh hlater hbefore hstep hsingle hfree hguid
    exact ⟨hfrom.imp_right (List.mem_append_left _), hsystem, fun hmem ↦ hnot (hdrawn hmem)⟩

end Turn

end Simulation

/-- A task that shares nothing with the others sends its message above too. -/
theorem Refines.single {message : Message} (action : Action) (h : tasks.Refines ring later system)
    (haddr : addr ∈ ring) (hfresh : message.idempotency ∉ tasks.issued)
    (hlater : (tasks.commit addr [message.idempotency] (tasks.firmwares addr) [message]).Foresees
      ring later)
    (hids : action.ids = [message.idempotency])
    (hact : system.act addr action = some ⟨system.machines addr, [message], none, none, none⟩) :
    ∃ final, Reaches (System.step ring) Unrestricted system final ∧
      (tasks.commit addr [message.idempotency] (tasks.firmwares addr) [message]).Refines ring later
        final := by
  obtain ⟨broadcast, accepted, hmachine⟩ := h.machines addr haddr
  have hnew : ∀ id ∈ [message.idempotency], id ∉ tasks.issued := by
    intro id hid
    rwa [List.mem_singleton.mp hid]
  have hunissued : ∀ id ∈ action.ids, id ∉ system.issued := by
    intro id hid
    rw [hids] at hid
    exact h.unissued (hnew id hid) fun other hother _ ↦ hlater.ne_later hother (.inr hid)
  have hnext : system.step ring ⟨addr, action⟩ = some (system.commit addr [message.idempotency]
      ⟨system.machines addr, [message], none, none, none⟩) := by
    rw [System.step, if_pos ⟨haddr, by rw [hids]; exact List.nodup_singleton _, hunissued⟩, hact,
      Option.map_some, hids]
  refine ⟨_, .tail .refl trivial hnext, h.commit haddr hlater hnew ?_⟩
  exact {
    others := fun _ _ ↦ rfl
    machine := ⟨broadcast, accepted, hmachine⟩
    sent := fun _ ↦ or_comm
    kept := fun hrest ↦ .inr ⟨hrest, rfl⟩
    source := fun _ hid ↦ .inl hid
    accepted := List.drop_length
    held := h.held addr haddr
    pending := by
      intro guid hguid
      obtain ⟨hissued, hsystem⟩ := h.pending addr haddr guid hguid
      exact ⟨.inl hguid, hsystem, fun hmem ↦ hnew guid hmem hissued⟩ }

/-- Every turn is followed, whatever keys are still to come after it. -/
theorem exists_sooner {next : TaskRing} {turn : Turn} (haddressed : tasks.Addressed turn)
    (hstep : tasks.step ring turn = some next) (hlater : next.Foresees ring later) :
    ∃ sooner, tasks.Foresees ring sooner ∧ ∀ system, tasks.Refines ring sooner system →
      ∃ final, Reaches (System.step ring) Unrestricted system final ∧
        next.Refines ring later final := by
  obtain ⟨addr, action⟩ := turn
  obtain ⟨⟨haddr, hnodup, hfresh⟩, hact⟩ := Option.ite_none_right_eq_some.mp hstep
  cases action with
  | task event logKey key =>
      obtain ⟨harrives, hsome⟩ := Option.ite_none_right_eq_some.mp hact
      obtain ⟨after, hafter, rfl⟩ := Option.map_eq_some_iff.mp hsome
      refine ⟨sooner later addr key after, hlater.of_commit (by simp) hfresh, ?_⟩
      intro system h
      obtain ⟨broadcast, accepted, hbefore⟩ := h.machines addr haddr
      have hstill := still_of_turn h haddr hnodup hfresh hlater harrives hbefore
        (hbefore.onward hafter)
      rcases hbefore.step (steady_of_addressed haddressed) hafter with
        hsame | ⟨single, hsingle, hsame | ⟨hfree, later, hnext, hrefines⟩⟩
      · exact ⟨system, .refl, hstill hsame⟩
      · exact ⟨system, .refl, hstill hsame⟩
      · exact reaches_of_turn h haddr hnodup hfresh hlater harrives haddressed hafter hbefore
          hsingle hfree hnext hrefines
  | heartbeat key =>
      obtain rfl := Option.some.inj hact
      refine ⟨later, hlater.of_append, ?_⟩
      intro system h
      have hnew := hfresh key (List.mem_singleton_self key)
      exact h.single (.heartbeat key) haddr hnew hlater rfl rfl
  | log text key =>
      obtain rfl := Option.some.inj hact
      refine ⟨later, hlater.of_append, ?_⟩
      intro system h
      have hnew := hfresh key (List.mem_singleton_self key)
      exact h.single (.log text key) haddr hnew hlater rfl rfl

/-- The network in single steps shows what the tasks of the machines have done. Whoever gets hold of
the mutexes of a machine sees its book and its copy of the ledger, and every message but the ledgers
that rounds under way will end with has been made. -/
structure Shows (ring : Finset Ipv4Addr) (later : Ipv4Addr → Uuid) (tasks : TaskRing)
    (system : System) : Prop where
  accepted : tasks.accepted = system.accepted
  sent : ∀ envelope ∈ tasks.sent, envelope ∈ system.sent
  owed : ∀ envelope ∈ system.sent, envelope ∈ tasks.sent ∨
    (tasks.firmwares envelope.src).addressesLocked = true ∧
      ∃ ledger, envelope.message = ⟨later envelope.src, .ledger ledger⟩
  unlocked : ∀ addr ∈ ring, (tasks.firmwares addr).addressesLocked = false →
    (tasks.firmwares addr).machine.addresses = (system.machines addr).addresses ∧
      (tasks.firmwares addr).machine.jobs = (system.machines addr).jobs
  resting : ∀ addr ∈ ring, (tasks.firmwares addr).addressesLocked = false →
    (tasks.firmwares addr).receiver = .receiving →
      (tasks.firmwares addr).machine = system.machines addr

theorem Refines.shows (h : tasks.Refines ring later system) : tasks.Shows ring later system where
  accepted := h.accepted
  sent := fun envelope henvelope ↦ (h.sent envelope.src envelope.message).mpr (.inl henvelope)
  owed := by
    intro envelope henvelope
    rcases (h.sent envelope.src envelope.message).mp henvelope with hmade | ⟨haddr, howed⟩
    · exact .inl hmade
    · right
      obtain ⟨broadcast, accepted, hmachine⟩ := h.machines envelope.src haddr
      obtain ⟨payload, hpayload, hmessage⟩ := List.mem_map.mp howed
      constructor
      · rw [hmachine.orderly.addressesLocked]
        by_contra hfree
        rw [Firmware.rest_of_free (Bool.eq_false_iff.mpr hfree)] at hpayload
        cases hpayload
      · rcases (tasks.firmwares envelope.src).rest_cases with hnil | ⟨ledger, hledger⟩
        · rw [hnil] at hpayload
          cases hpayload
        · rw [hledger, List.mem_singleton] at hpayload
          exact ⟨ledger, by rw [← hmessage, hpayload]⟩
  unlocked := by
    intro addr haddr hunlocked
    obtain ⟨broadcast, accepted, hmachine⟩ := h.machines addr haddr
    obtain ⟨haddresses, hjobs, -⟩ := hmachine.shows.unlocked hunlocked
    exact ⟨haddresses, hjobs⟩
  resting := by
    intro addr haddr hunlocked hreceiving
    obtain ⟨broadcast, accepted, hmachine⟩ := h.machines addr haddr
    exact hmachine.shows.resting hunlocked hreceiving

/-- However the tasks of the machines take turns, the ring is one whose machines do a whole round
in a single step: the same jobs are accepted by the same machines in the same order and the same
messages are sent, for any keys that the rounds under way may still draw. -/
theorem network_of_tasks {ring : Finset Ipv4Addr} {tasks : TaskRing} {later : Ipv4Addr → Uuid}
    (h : Reaches (TaskRing.step ring) Addressed boot tasks) (hlater : tasks.Foresees ring later) :
    ∃ system, Reaches (System.step ring) Unrestricted System.boot system ∧
      tasks.Shows ring later system := by
  obtain ⟨system, hreach, hrefines⟩ := h.simulates_foreseeing (fun later ↦ Foresees ring later)
    (fun later ↦ Refines ring later) (fun later _ ↦ refines_boot ring later)
    (fun _ _ _ _ haddressed hstep hopen ↦ exists_sooner haddressed hstep hopen) later hlater
  exact ⟨system, hreach, hrefines.shows⟩

/-- Give the `n`-th step the UUIDs `2 * n` and `2 * n + 1`. -/
def numbered (events : List (Ipv4Addr × TaskEvent)) : List Turn :=
  events.zipIdx.map fun ((addr, event), index) ↦
    ⟨addr, .task event ⟨.ofNat 128 (2 * index)⟩ ⟨.ofNat 128 (2 * index + 1)⟩⟩

/-- `alpha` knows `beta`, creates a ledger, files a job and hands it to Marlin two rounds later.
While it still has to pass the ledger on, its log has already reached `beta`. -/
def caughtPrinting : List Turn :=
  let manager := (System.alpha,
    TaskEvent.pollManager (System.printer System.alpha true) true fun _ ↦ true)
  let wait (ticks : ℕ) := (System.alpha, TaskEvent.elapse ticks)
  ⟨System.beta, .heartbeat ⟨1000⟩⟩ :: numbered
    [(System.alpha, .arrive System.beta ⟨⟨1000⟩, .heartbeat true⟩), wait 20000, manager, wait 5000,
      manager, manager, wait 100, manager, manager, wait 100, manager, manager, wait 100, manager,
      (System.alpha, .upload ⟨2000⟩ (some System.alpha)), wait 5000, manager, wait 5000, manager,
      (System.beta, .arrive System.alpha ⟨⟨36⟩, .log "Job Accepted: ".toList⟩)]

/-- One key for each machine. -/
def ownKey (addr : Ipv4Addr) : Uuid := ⟨.ofNat 128 addr.bits.toNat⟩

theorem network_of_tasks_caughtPrinting :
    ∃ tasks system, TaskRing.Shows {System.alpha, System.beta} ownKey tasks system ∧
      system.accepted = [(System.alpha, ⟨2000⟩)] ∧
      (tasks.firmwares System.alpha).addressesLocked = true ∧
      (tasks.firmwares System.beta).machine.addresses.keys = [System.alpha] := by
  obtain ⟨tasks, hreach, haccepted, hlocked, hheard, hunused⟩ := exists_reaches_of_runIf
    (TaskRing.step {System.alpha, System.beta}) Addressed boot caughtPrinting
    (fun tasks ↦ tasks.accepted = [(System.alpha, ⟨2000⟩)] ∧
      (tasks.firmwares System.alpha).addressesLocked = true ∧
      (tasks.firmwares System.beta).machine.addresses.keys = [System.alpha] ∧
      ∀ addr ∈ ({System.alpha, System.beta} : Finset Ipv4Addr), ownKey addr ∉ tasks.issued)
    (by decide +kernel)
  have hinjective : ∀ left ∈ ({System.alpha, System.beta} : Finset Ipv4Addr),
      ∀ right ∈ ({System.alpha, System.beta} : Finset Ipv4Addr),
        ownKey left = ownKey right → left = right := by
    decide
  obtain ⟨system, -, hshows⟩ := network_of_tasks hreach
    ⟨hunused, fun left hleft right hright ↦ hinjective left hleft right hright⟩
  exact ⟨tasks, system, hshows, hshows.accepted.symm.trans haccepted, hlocked, hheard⟩

end TaskRing

end Derusting
