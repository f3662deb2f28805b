import Derusting.Ring.Locks

/-!
# Interleaved tasks and single steps

`Machine.step` has every task run through in a single step.  The tasks of `Firmware.step` take
turns, but the outcome of a round is settled as soon as it begins: nobody else can read or write the
book and the ledger until it is over.  So every run of the tasks is followed by a run of `Machine.step`
that is ahead by the rest of the round under way, and behind by the key that `udp_receiver` has
written down before it got hold of the book.
-/

namespace Derusting

open Foundations.Bounded Foundations.Transition

/-! ## The machine in single steps -/

/-- What a step hands to Marlin and what it broadcasts. -/
def LocalEvent.output (machine : Machine) : LocalEvent → TickOutput
  | .tick env => (manageLedger env machine).2
  | .upload guid myAddr => ⟨none, (appendToLedger myAddr guid machine).2.toList⟩
  | .receive .. | .lifetimeCheck | .elapse _ => .quiet

/-- A machine whose tasks never wait inside a step, with what it has done. -/
structure Atomic where
  machine : Machine
  broadcast : List Payload
  accepted : List Uuid

namespace Atomic

def boot : Atomic := ⟨.boot, [], []⟩

def step (addr : Ipv4Addr) (atomic : Atomic) (event : LocalEvent) : Option Atomic :=
  (atomic.machine.step addr event).map fun machine ↦
    let output := event.output atomic.machine
    ⟨machine, atomic.broadcast ++ output.sent, atomic.accepted ++ output.accepted.toList⟩

/-- The same with the history that `udp_receiver` has by now. -/
def remember (atomic : Atomic) (history : HistoryBuf Uuid 24) : Atomic :=
  { atomic with machine := { atomic.machine with history := history } }

end Atomic

/-- The end of a round that runs through: what the machine is then, and what it has broadcast. -/
def passed (myAddr : Ipv4Addr) (machine : Machine) : Machine × List Payload :=
  match passOn myAddr (some myAddr) machine with
  | (machine, some (ledger, passing)) => (machine.afterBroadcast passing, [.ledger ledger])
  | (machine, none) => (machine, [])

/-- A round that runs through. -/
def concluded (myAddr : Ipv4Addr) : Machine × Head → Machine × TickOutput
  | (machine, .waits) => (machine, .quiet)
  | (machine, .creates ledger) => (machine, ⟨none, [.ledger ledger]⟩)
  | (machine, .prints guid text) =>
      ((passed myAddr machine).1, ⟨some guid, .log text :: (passed myAddr machine).2⟩)
  | (machine, .goesOn) => ((passed myAddr machine).1, ⟨none, (passed myAddr machine).2⟩)

/-- What the end of a round comes to. -/
theorem passed_eq {myAddr : Ipv4Addr} {machine : Machine} {state : LedgerState}
    (hjobs : machine.jobs = some state) :
    passed myAddr machine =
      if state.isOwner (some myAddr) && machine.observedOwnership then
        if machine.addresses.isEmpty then (machine, [.ledger state.ledger])
        else
          let owner := (nextOwner myAddr machine.addresses.keys).getD myAddr
          let ledger := { state.ledger with owner := owner }
          ({ machine with
              jobs := some { state with ledger := ledger }
              observedOwnership := false }, [.ledger ledger])
      else (machine, []) := by
  simp only [passed, passOn, hjobs]
  cases hgate : state.isOwner (some myAddr) && machine.observedOwnership with
  | false => rfl
  | true =>
      cases hempty : machine.addresses.isEmpty <;>
        simp [Machine.afterBroadcast]

/-- The print stage hands a job over and says so, or does nothing. -/
theorem manufacture_cases (env : TickEnv) (observed : Bool) (state : LedgerState) :
    (∃ guid made, manufacture env observed state =
      (made, ⟨some guid, [.log ("Job Accepted: ".toList ++ env.display guid)]⟩)) ∨
    manufacture env observed state = (state, .quiet) := by
  rw [manufacture_eq]
  cases printable env observed state with
  | none => exact .inr rfl
  | some guid =>
      cases hprint : env.print guid with
      | ok _ => exact .inl ⟨guid, _, by simp only [hprint]; rfl⟩
      | error err => exact .inr (by simp only [hprint])

/-- The parts of a round make up the round. -/
theorem manageLedger_eq_concluded {env : TickEnv} {myAddr : Ipv4Addr}
    (haddr : env.myAddr = some myAddr) (machine : Machine) :
    manageLedger env machine = concluded myAddr (roundHead myAddr env machine) := by
  cases hjobs : machine.jobs with
  | none =>
      simp [manageLedger, roundHead, concluded, haddr, hjobs, TickOutput.quiet, TickOutput.send]
  | some before =>
      obtain ⟨state, htaken⟩ : ∃ state, state = staleTakeover myAddr machine.addresses
        machine.clock before := ⟨_, rfl⟩
      simp only [manageLedger, roundHead, haddr, hjobs, ← htaken]
      cases hwaits : state.isOwner (some myAddr) && !machine.observedOwnership with
      | true => rfl
      | false =>
          simp only [Bool.false_eq_true, if_false]
          rcases manufacture_cases env machine.observedOwnership state with
            ⟨guid, made, hmade⟩ | hmade
          · simp only [hmade, concluded, TickOutput.send]
            rw [passed_eq rfl]
            split
            · split <;> rfl
            · rfl
          · simp only [hmade, concluded, TickOutput.quiet, TickOutput.send, List.nil_append]
            rw [passed_eq rfl]
            split
            · split <;> rfl
            · rfl

/-! ## The tasks and the machine in single steps -/

/-- `udp_receiver` has written down the key of the message that it waits with, and no other. -/
def ReceiverStage.Wrote (addr : Ipv4Addr) (before after : HistoryBuf Uuid 24) :
    ReceiverStage → Prop
  | .addresses sender message =>
      sender ≠ addr ∧ message.idempotency ∉ before ∧ after = before.write message.idempotency
  | .receiving | .jobs _ => after = before

/-- No file is put to the machine itself. -/
def DistributorStage.Avoids (addr : Ipv4Addr) : DistributorStage → Prop
  | .putting _ left => addr ∉ left
  | .receiving | .addresses _ => True

/-- A round that has printed goes by the address of the machine. -/
def ManagerStage.LogsAs (addr : Ipv4Addr) : ManagerStage → Prop
  | .logging myAddr _ _ => myAddr = addr
  | .starting _ | .sleeping _ | .addresses _ | .jobs _ | .broadcasting .. => True

/-- The end of a round sees neither the history nor the clock. -/
theorem passed_change (myAddr : Ipv4Addr) (machine : Machine) (history : HistoryBuf Uuid 24)
    (clock : Instant) :
    passed myAddr { machine with history := history, clock := clock } =
      ({ (passed myAddr machine).1 with history := history, clock := clock },
        (passed myAddr machine).2) := by
  obtain ⟨addresses, jobs, queue, before, observed, time⟩ := machine
  cases jobs with
  | none => rfl
  | some state =>
      rw [passed_eq rfl, passed_eq rfl]
      split
      · split <;> rfl
      · rfl

theorem appendToLedger_remember (myAddr : Option Ipv4Addr) (guid : Uuid) (machine : Machine)
    (history : HistoryBuf Uuid 24) :
    appendToLedger myAddr guid { machine with history := history } =
      ({ (appendToLedger myAddr guid machine).1 with history := history },
        (appendToLedger myAddr guid machine).2) := by
  simp only [appendToLedger]
  split
  · split
    · split <;> rfl
    · split <;> rfl
  · split <;> rfl

theorem manageLedger_remember (env : TickEnv) (machine : Machine)
    (history : HistoryBuf Uuid 24) :
    manageLedger env { machine with history := history } =
      ({ (manageLedger env machine).1 with history := history }, (manageLedger env machine).2) := by
  cases haddr : env.myAddr with
  | none => simp only [manageLedger, haddr]
  | some myAddr =>
      cases hjobs : machine.jobs with
      | none => simp only [manageLedger, haddr, hjobs]
      | some state =>
          simp only [manageLedger, haddr, hjobs]
          split
          · rfl
          · split
            · split <;> rfl
            · rfl

namespace Firmware

/-- Take the round that is under way as over. -/
def settled (firmware : Firmware) : Atomic :=
  match firmware.manager with
  | .logging myAddr _ _ =>
      let rest := passed myAddr firmware.machine
      ⟨rest.1, firmware.broadcast ++ rest.2, firmware.accepted⟩
  | .broadcasting _ passing _ =>
      ⟨firmware.machine.afterBroadcast passing, firmware.broadcast, firmware.accepted⟩
  | .starting _ | .sleeping _ | .addresses _ | .jobs _ =>
      ⟨firmware.machine, firmware.broadcast, firmware.accepted⟩

variable {addr sender : Ipv4Addr} {firmware after : Firmware} {atomic : Atomic} {message : Message}
  {env : TickEnv}

theorem settled_of_free (h : firmware.manager.midRound = false) :
    firmware.settled = ⟨firmware.machine, firmware.broadcast, firmware.accepted⟩ := by
  rw [settled]
  cases hmanager : firmware.manager with
  | logging _ _ _ =>
      rw [hmanager] at h
      cases h
  | broadcasting _ _ _ =>
      rw [hmanager] at h
      cases h
  | starting _ => rfl
  | sleeping _ => rfl
  | addresses _ => rfl
  | jobs _ => rfl

theorem settled_of_logging {myAddr : Ipv4Addr} {text : List Char} {stage : SendStage}
    (h : firmware.manager = .logging myAddr text stage) :
    firmware.settled =
      ⟨(passed myAddr firmware.machine).1, firmware.broadcast ++ (passed myAddr firmware.machine).2,
        firmware.accepted⟩ := by
  rw [settled, h]

theorem settled_of_broadcasting {ledger : Ledger} {passing : Bool} {stage : SendStage}
    (h : firmware.manager = .broadcasting ledger passing stage) :
    firmware.settled =
      ⟨firmware.machine.afterBroadcast passing, firmware.broadcast, firmware.accepted⟩ := by
  rw [settled, h]

theorem settled_change (firmware : Firmware) (history : HistoryBuf Uuid 24) (clock : Instant) :
    settled { firmware with
      machine := { firmware.machine with history := history, clock := clock } } =
    { firmware.settled with
      machine := { firmware.settled.machine with history := history, clock := clock } } := by
  simp only [settled]
  cases firmware.manager with
  | logging myAddr _ _ => simp only [passed_change]
  | broadcasting _ _ _ => rfl
  | starting _ => rfl
  | sleeping _ => rfl
  | addresses _ => rfl
  | jobs _ => rfl

theorem accepted_settled (firmware : Firmware) : firmware.settled.accepted = firmware.accepted := by
  rw [settled]
  cases firmware.manager <;> rfl

theorem broadcast_settled (firmware : Firmware) :
    firmware.broadcast <+: firmware.settled.broadcast := by
  rw [settled]
  cases firmware.manager with
  | logging myAddr _ _ => exact List.prefix_append _ _
  | broadcasting _ _ _ => exact List.prefix_rfl
  | starting _ => exact List.prefix_rfl
  | sleeping _ => exact List.prefix_rfl
  | addresses _ => exact List.prefix_rfl
  | jobs _ => exact List.prefix_rfl

theorem settled_sendLedger (ledger : Ledger) (passing : Bool) (allocated : Payload → Bool)
    (firmware : Firmware) :
    (sendLedger ledger passing allocated firmware).settled =
      ⟨firmware.machine.afterBroadcast passing, firmware.broadcast ++ [.ledger ledger],
        firmware.accepted⟩ := by
  simp only [sendLedger]
  cases SendStage.start (allocated (.ledger ledger)) 3 <;> rfl

theorem settled_pass (myAddr : Ipv4Addr) (allocated : Payload → Bool) (firmware : Firmware) :
    (pass myAddr (some myAddr) allocated firmware).settled =
      ⟨(passed myAddr firmware.machine).1, firmware.broadcast ++ (passed myAddr firmware.machine).2,
        firmware.accepted⟩ := by
  rw [pass, passed]
  cases passOn myAddr (some myAddr) firmware.machine with
  | mk machine announced =>
      cases announced with
      | none =>
          rw [List.append_nil]
          rfl
      | some announced => exact settled_sendLedger _ _ _ _

theorem settled_sendLog (myAddr : Ipv4Addr) (text : List Char) (allocated : Payload → Bool)
    (firmware : Firmware) :
    (sendLog myAddr (some myAddr) text allocated firmware).settled =
      ⟨(passed myAddr firmware.machine).1,
        firmware.broadcast ++ (.log text :: (passed myAddr firmware.machine).2),
        firmware.accepted⟩ := by
  rw [List.append_cons]
  simp only [sendLog]
  cases SendStage.start (allocated (.log text)) 2 with
  | none => exact settled_pass _ _ _
  | some stage => rfl

/-- A round that has begun comes to what `manageLedger` says. -/
theorem settled_round {myAddr : Ipv4Addr} (haddr : env.myAddr = some myAddr)
    (allocated : Payload → Bool) (firmware : Firmware) :
    (round myAddr env allocated firmware).settled =
      ⟨(manageLedger env firmware.machine).1,
        firmware.broadcast ++ (manageLedger env firmware.machine).2.sent,
        firmware.accepted ++ (manageLedger env firmware.machine).2.accepted.toList⟩ := by
  rw [manageLedger_eq_concluded haddr, round, haddr]
  cases hhead : roundHead myAddr env firmware.machine with
  | mk machine head =>
      cases head with
      | waits =>
          simp only [concluded, TickOutput.quiet, List.append_nil, Option.toList_none]
          rfl
      | creates ledger =>
          simp only [concluded, Option.toList_none, List.append_nil, settled_sendLedger,
            Machine.afterBroadcast, Bool.not_false, Bool.and_true]
      | prints guid text =>
          simp only [concluded, settled_sendLog, Option.toList_some]
      | goesOn =>
          simp only [concluded, settled_pass, Option.toList_none, List.append_nil]

/-- The machine in single steps is where the tasks will be once the round under way is over, but for
the key that `udp_receiver` has already written down. -/
structure Refines (addr : Ipv4Addr) (firmware : Firmware) (atomic : Atomic) : Prop where
  orderly : firmware.Orderly
  settled : firmware.settled = atomic.remember firmware.machine.history
  receiver : firmware.receiver.Wrote addr atomic.machine.history firmware.machine.history
  manager : firmware.manager.LogsAs addr
  absent : atomic.machine.Absent addr
  distributor : firmware.distributor.Avoids addr
  puts : ∀ put ∈ firmware.puts, put.2 ≠ addr

theorem refines_boot (addr : Ipv4Addr) : boot.Refines addr .boot where
  orderly := orderly_boot
  settled := rfl
  receiver := rfl
  manager := trivial
  absent := by simp [Atomic.boot, Machine.Absent, Machine.boot]
  distributor := trivial
  puts := by simp [boot]

end Firmware

namespace Firmware

section Simulation

variable {addr sender : Ipv4Addr} {firmware after : Firmware} {atomic : Atomic} {message : Message}
  {guid : Uuid} {env : TickEnv}

/-- The machine in single steps has followed the tasks from `firmware` to `after`: it has stood
still, or taken `event`. While a round is under way nothing but time goes on. -/
def Followed (addr : Ipv4Addr) (event : LocalEvent) (atomic : Atomic) (firmware after : Firmware) :
    Prop :=
  after.Refines addr atomic ∨
    (firmware.manager.midRound = false ∨ ∃ ticks, event = .elapse ticks) ∧
      ∃ next, atomic.step addr event = some next ∧ after.Refines addr next

theorem Refines.followed (h : after.Refines addr atomic) (event : LocalEvent) :
    Followed addr event atomic firmware after := .inl h

theorem followed_of_step {event : LocalEvent} {machine : Machine}
    (hstep : atomic.machine.step addr event = some machine)
    (hfree : firmware.manager.midRound = false ∨ ∃ ticks, event = .elapse ticks)
    (h : after.Refines addr
      ⟨machine, atomic.broadcast ++ (event.output atomic.machine).sent,
        atomic.accepted ++ (event.output atomic.machine).accepted.toList⟩) :
    Followed addr event atomic firmware after := by
  have hnext : atomic.step addr event = some ⟨machine,
      atomic.broadcast ++ (event.output atomic.machine).sent,
      atomic.accepted ++ (event.output atomic.machine).accepted.toList⟩ := by
    rw [Atomic.step, hstep]
    rfl
  exact .inr ⟨hfree, _, hnext, h⟩

/-- Between rounds the tasks and the machine in single steps agree. -/
theorem Refines.view (h : firmware.Refines addr atomic)
    (hfree : firmware.manager.midRound = false) :
    firmware.machine = { atomic.machine with history := firmware.machine.history } ∧
      firmware.broadcast = atomic.broadcast ∧ firmware.accepted = atomic.accepted := by
  have hsettled := h.settled
  rw [settled_of_free hfree, Atomic.remember, Atomic.mk.injEq] at hsettled
  exact hsettled

theorem settled_eq_remember (hfree : firmware.manager.midRound = false)
    (hmachine : firmware.machine = { atomic.machine with history := firmware.machine.history })
    (hbroadcast : firmware.broadcast = atomic.broadcast)
    (haccepted : firmware.accepted = atomic.accepted) :
    firmware.settled = atomic.remember firmware.machine.history := by
  rw [settled_of_free hfree, Atomic.remember, Atomic.mk.injEq]
  exact ⟨hmachine, hbroadcast, haccepted⟩

/-! Each task in turn: what it does is a single step if no round is under way. -/

theorem receiveMessage_eq_noted {machine : Machine} (sender : Ipv4Addr)
    (hnew : message.idempotency ∉ machine.history) :
    receiveMessage sender message machine =
      noted sender message
        { machine with history := machine.history.write message.idempotency } := by
  rw [receiveMessage, if_neg hnew]
  rfl

theorem history_appendToLedger (myAddr : Option Ipv4Addr) (guid : Uuid) (machine : Machine) :
    (appendToLedger myAddr guid machine).1.history = machine.history := by
  obtain ⟨jobs, hjobs⟩ := appendToLedger_eq myAddr guid machine
  rw [hjobs]

theorem Refines.receiveAddresses
    (h : Refines addr { firmware with receiver := .addresses sender message } atomic) :
    Followed addr (.receive sender message) atomic firmware
      (receiveAddresses sender message firmware) := by
  have haddresses : firmware.addressesLocked = firmware.manager.midRound :=
    h.orderly.addressesLocked
  have hjobs : firmware.jobsLocked = firmware.manager.midRound := h.orderly.jobsLocked
  cases hmid : firmware.manager.midRound with
  | true =>
      rw [Firmware.receiveAddresses, if_pos (haddresses.trans hmid)]
      exact h.followed _
  | false =>
      obtain ⟨hsender, hnew, hwrote⟩ := h.receiver
      obtain ⟨hmachine, hbroadcast, haccepted⟩ := h.view hmid
      simp only at hwrote hmachine
      have hnoted : noted sender message firmware.machine =
          receiveMessage sender message atomic.machine := by
        rw [receiveMessage_eq_noted sender hnew, ← hwrote, ← hmachine]
      have hstep : atomic.machine.step addr (.receive sender message) =
          some (receiveMessage sender message atomic.machine) := by
        rw [Machine.step, if_neg hsender]
      have hclock : firmware.machine.clock ≤
          (receiveMessage sender message atomic.machine).clock := by
        rw [← hnoted, clock_noted]
      rw [receiveAddresses_of_free (haddresses.trans hmid) (hjobs.trans hmid), hnoted]
      apply followed_of_step hstep (.inl hmid)
      exact {
        orderly := h.orderly.of_eq rfl rfl rfl hclock rfl h.orderly.filer
        settled := settled_eq_remember hmid rfl (hbroadcast.trans (List.append_nil _).symm)
          (haccepted.trans (List.append_nil _).symm)
        receiver := rfl
        manager := h.manager
        absent := h.absent.step hstep
        distributor := h.distributor
        puts := h.puts }

theorem Refines.fileAddresses (h : firmware.Refines addr atomic) {myAddr : Option Ipv4Addr}
    (hknown : KnownAs addr myAddr) (guid : Uuid) :
    Followed addr (.upload guid myAddr) atomic firmware (fileAddresses guid myAddr firmware) := by
  have horderly := h.orderly.fileAddresses guid myAddr
  cases hmid : firmware.manager.midRound with
  | true =>
      rw [Firmware.fileAddresses, if_pos (h.orderly.addressesLocked.trans hmid)] at horderly ⊢
      exact .inl ⟨horderly, h.settled, h.receiver, h.manager, h.absent, h.distributor, h.puts⟩
  | false =>
      obtain ⟨hmachine, hbroadcast, haccepted⟩ := h.view hmid
      have hfiled : appendToLedger myAddr guid firmware.machine =
          ({ (appendToLedger myAddr guid atomic.machine).1 with
              history := firmware.machine.history },
            (appendToLedger myAddr guid atomic.machine).2) := by
        conv_lhs => rw [hmachine]
        exact appendToLedger_remember _ _ _ _
      have hstep : atomic.machine.step addr (.upload guid myAddr) =
          some (appendToLedger myAddr guid atomic.machine).1 := by
        rw [Machine.step, if_pos hknown]
      rw [fileAddresses_of_free (h.orderly.addressesLocked.trans hmid)
        (h.orderly.jobsLocked.trans hmid)] at horderly ⊢
      rw [hfiled] at horderly ⊢
      apply followed_of_step hstep (.inl hmid)
      exact {
        orderly := horderly
        settled := settled_eq_remember hmid rfl (congrArg (· ++ _) hbroadcast)
          (haccepted.trans (List.append_nil _).symm)
        receiver := by
          simp only [history_appendToLedger]
          exact h.receiver
        manager := h.manager
        absent := h.absent.step hstep
        distributor := h.distributor
        puts := h.puts }

theorem Refines.checkAddresses (h : firmware.Refines addr atomic) :
    Followed addr .lifetimeCheck atomic firmware firmware.checkAddresses := by
  have horderly := h.orderly.checkAddresses
  cases hmid : firmware.manager.midRound with
  | true =>
      rw [Firmware.checkAddresses, if_pos (h.orderly.addressesLocked.trans hmid)] at horderly ⊢
      exact .inl ⟨horderly, h.settled, h.receiver, h.manager, h.absent, h.distributor, h.puts⟩
  | false =>
      obtain ⟨hmachine, hbroadcast, haccepted⟩ := h.view hmid
      have hlocked : firmware.addressesLocked ≠ true := by
        rw [h.orderly.addressesLocked, hmid]
        decide
      have hchecked : addressBookLifetimeCheck firmware.machine =
          { addressBookLifetimeCheck atomic.machine with history := firmware.machine.history } := by
        conv_lhs => rw [hmachine]
        rfl
      have hstep : atomic.machine.step addr .lifetimeCheck =
          some (addressBookLifetimeCheck atomic.machine) := rfl
      rw [Firmware.checkAddresses, if_neg hlocked] at horderly ⊢
      rw [hchecked] at horderly ⊢
      apply followed_of_step hstep (.inl hmid)
      exact {
        orderly := horderly
        settled := settled_eq_remember hmid rfl (hbroadcast.trans (List.append_nil _).symm)
          (haccepted.trans (List.append_nil _).symm)
        receiver := h.receiver
        manager := h.manager
        absent := h.absent.step hstep
        distributor := h.distributor
        puts := h.puts }

theorem Refines.putNext (h : firmware.Refines addr atomic) (guid : Uuid) {targets : List Ipv4Addr}
    (htargets : addr ∉ targets) : (putNext guid targets firmware).Refines addr atomic := by
  have horderly := h.orderly.putNext guid targets
  cases targets with
  | nil => exact ⟨horderly, h.settled, h.receiver, h.manager, h.absent, trivial, h.puts⟩
  | cons target left =>
      rw [List.mem_cons, not_or] at htargets
      refine ⟨horderly, h.settled, h.receiver, h.manager, h.absent, htargets.2, ?_⟩
      intro put hput
      rcases List.mem_append.mp hput with hold | hnew
      · exact h.puts put hold
      · rw [List.mem_singleton.mp hnew]
        exact Ne.symm htargets.1

theorem Refines.distributeAddresses (h : firmware.Refines addr atomic) (guid : Uuid) :
    (distributeAddresses guid firmware).Refines addr atomic := by
  have horderly := h.orderly.distributeAddresses guid
  cases hmid : firmware.manager.midRound with
  | true =>
      rw [Firmware.distributeAddresses, if_pos (h.orderly.addressesLocked.trans hmid)] at horderly ⊢
      exact ⟨horderly, h.settled, h.receiver, h.manager, h.absent, trivial, h.puts⟩
  | false =>
      have hlocked : firmware.addressesLocked ≠ true := by
        rw [h.orderly.addressesLocked, hmid]
        decide
      rw [Firmware.distributeAddresses, if_neg hlocked]
      apply h.putNext guid
      rw [(h.view hmid).1]
      exact h.absent

/-- What `manage_ledger` leaves alone; it adds to the broadcasts. -/
structure Managed (addr : Ipv4Addr) (firmware later : Firmware) : Prop where
  history : later.machine.history = firmware.machine.history
  receiver : later.receiver = firmware.receiver
  filer : later.filer = firmware.filer
  distributor : later.distributor = firmware.distributor
  puts : later.puts = firmware.puts
  channel : later.machine.filesToDistribute = firmware.machine.filesToDistribute
  broadcast : firmware.broadcast <+: later.broadcast
  manager : later.manager.LogsAs addr

/-- What `manage_ledger` leaves alone after a change to what it does not leave alone. -/
theorem Managed.of_eq {begun later : Firmware} (h : Managed addr begun later)
    (hhistory : begun.machine.history = firmware.machine.history)
    (hreceiver : begun.receiver = firmware.receiver) (hfiler : begun.filer = firmware.filer)
    (hdistributor : begun.distributor = firmware.distributor) (hputs : begun.puts = firmware.puts)
    (hchannel : begun.machine.filesToDistribute = firmware.machine.filesToDistribute)
    (hbroadcast : firmware.broadcast <+: begun.broadcast) : Managed addr firmware later where
  history := h.history.trans hhistory
  receiver := h.receiver.trans hreceiver
  filer := h.filer.trans hfiler
  distributor := h.distributor.trans hdistributor
  puts := h.puts.trans hputs
  channel := h.channel.trans hchannel
  broadcast := hbroadcast.trans h.broadcast
  manager := h.manager

theorem managed_sendLedger (addr : Ipv4Addr) (ledger : Ledger) (passing : Bool)
    (allocated : Payload → Bool) (firmware : Firmware) :
    Managed addr firmware (sendLedger ledger passing allocated firmware) := by
  simp only [sendLedger]
  cases SendStage.start (allocated (.ledger ledger)) 3 <;>
    exact ⟨rfl, rfl, rfl, rfl, rfl, rfl, List.prefix_append _ _, trivial⟩

theorem passOn_frame (myAddr : Ipv4Addr) (now : Option Ipv4Addr) (machine : Machine) :
    (passOn myAddr now machine).1.history = machine.history ∧
      (passOn myAddr now machine).1.filesToDistribute = machine.filesToDistribute := by
  unfold passOn
  split
  · exact ⟨rfl, rfl⟩
  · split
    · split <;> exact ⟨rfl, rfl⟩
    · exact ⟨rfl, rfl⟩

theorem managed_pass (addr myAddr : Ipv4Addr) (now : Option Ipv4Addr)
    (allocated : Payload → Bool) (firmware : Firmware) :
    Managed addr firmware (pass myAddr now allocated firmware) := by
  obtain ⟨hhistory, hchannel⟩ := passOn_frame myAddr now firmware.machine
  simp only [pass]
  split
  next machine ledger passing hpassed =>
    rw [hpassed] at hhistory hchannel
    apply Managed.of_eq (managed_sendLedger addr ledger passing allocated
      { firmware with machine := machine })
    exacts [hhistory, rfl, rfl, rfl, rfl, hchannel, List.prefix_rfl]
  next machine hpassed =>
    rw [hpassed] at hhistory hchannel
    exact ⟨hhistory, rfl, rfl, rfl, rfl, hchannel, List.prefix_rfl, trivial⟩

theorem managed_sendLog (addr : Ipv4Addr) (now : Option Ipv4Addr) (text : List Char)
    (allocated : Payload → Bool) (firmware : Firmware) :
    Managed addr firmware (sendLog addr now text allocated firmware) := by
  simp only [sendLog]
  cases SendStage.start (allocated (.log text)) 2 with
  | none =>
      apply Managed.of_eq (managed_pass addr addr now allocated
        { firmware with broadcast := firmware.broadcast ++ [.log text] })
      exacts [rfl, rfl, rfl, rfl, rfl, rfl, List.prefix_append _ _]
  | some stage => exact ⟨rfl, rfl, rfl, rfl, rfl, rfl, List.prefix_append _ _, rfl⟩

theorem roundHead_frame (myAddr : Ipv4Addr) (env : TickEnv) (machine : Machine) :
    (roundHead myAddr env machine).1.history = machine.history ∧
      (roundHead myAddr env machine).1.filesToDistribute = machine.filesToDistribute := by
  simp only [roundHead]
  split
  · exact ⟨rfl, rfl⟩
  · split
    · exact ⟨rfl, rfl⟩
    · split <;> exact ⟨rfl, rfl⟩

theorem managed_round (addr : Ipv4Addr) (env : TickEnv) (allocated : Payload → Bool)
    (firmware : Firmware) : Managed addr firmware (round addr env allocated firmware) := by
  obtain ⟨hhistory, hchannel⟩ := roundHead_frame addr env firmware.machine
  rw [round]
  cases hhead : roundHead addr env firmware.machine with
  | mk machine head =>
      rw [hhead] at hhistory hchannel
      cases head with
      | waits => exact ⟨hhistory, rfl, rfl, rfl, rfl, hchannel, List.prefix_rfl, trivial⟩
      | creates ledger =>
          apply Managed.of_eq (managed_sendLedger addr ledger false allocated
            { firmware with machine := machine })
          exacts [hhistory, rfl, rfl, rfl, rfl, hchannel, List.prefix_rfl]
      | prints guid text =>
          apply Managed.of_eq (managed_sendLog addr env.myAddr text allocated
            { firmware with machine := machine, accepted := firmware.accepted ++ [guid] })
          exacts [hhistory, rfl, rfl, rfl, rfl, hchannel, List.prefix_rfl]
      | goesOn =>
          apply Managed.of_eq (managed_pass addr addr env.myAddr allocated
            { firmware with machine := machine })
          exacts [hhistory, rfl, rfl, rfl, rfl, hchannel, List.prefix_rfl]

/-- The end of a round is no step of its own: its outcome has been there since the round began. -/
theorem Refines.over (h : firmware.Refines addr atomic) (horderly : after.Orderly)
    (hsettled : after.settled = firmware.settled) (hmanaged : Managed addr firmware after) :
    after.Refines addr atomic where
  orderly := horderly
  settled := by rw [hsettled, hmanaged.history, h.settled]
  receiver := by
    rw [hmanaged.receiver, hmanaged.history]
    exact h.receiver
  manager := hmanaged.manager
  absent := h.absent
  distributor := by
    rw [hmanaged.distributor]
    exact h.distributor
  puts := by
    rw [hmanaged.puts]
    exact h.puts

/-- The round begins: a single step does all of it. -/
theorem Refines.round (h : firmware.Refines addr atomic)
    (hfree : firmware.manager.midRound = false) (haddr : env.myAddr = some addr)
    (allocated : Payload → Bool) :
    Followed addr (.tick env) atomic firmware (round addr env allocated
      { firmware with addressesLocked := true, jobsLocked := true }) := by
  obtain ⟨hmachine, hbroadcast, haccepted⟩ := h.view hfree
  have hround : manageLedger env firmware.machine =
      ({ (manageLedger env atomic.machine).1 with history := firmware.machine.history },
        (manageLedger env atomic.machine).2) := by
    conv_lhs => rw [hmachine]
    exact manageLedger_remember _ _ _
  have hstep : atomic.machine.step addr (.tick env) = some (manageLedger env atomic.machine).1 := by
    rw [Machine.step, if_pos (.inr haddr)]
  have hhistory : (manageLedger env atomic.machine).1.history = atomic.machine.history :=
    (manageLedger_outcome haddr atomic.machine).frame.2
  have hmanaged := managed_round addr env allocated
    { firmware with addressesLocked := true, jobsLocked := true }
  apply followed_of_step hstep (.inl hfree)
  exact {
    orderly := by
      apply Holding.round
      exact ⟨rfl, rfl, h.orderly.receiver, h.orderly.filer⟩
    settled := by
      rw [settled_round haddr, hmanaged.history]
      simp only [hround, hbroadcast, haccepted]
      rfl
    receiver := by
      rw [hmanaged.receiver, hmanaged.history]
      simp only [hhistory]
      exact h.receiver
    manager := hmanaged.manager
    absent := h.absent.step hstep
    distributor := by
      rw [hmanaged.distributor]
      exact h.distributor
    puts := by
      rw [hmanaged.puts]
      exact h.puts }

/-- A round that has logged an accepted job goes on under the address it began with. -/
def Steady (firmware : Firmware) : TaskEvent → Prop
  | .pollManager env _ _ =>
      match firmware.manager with
      | .logging myAddr _ _ => env.myAddr = some myAddr
      | .starting _ | .sleeping _ | .addresses _ | .jobs _ | .broadcasting .. => True
  | _ => True

theorem Refines.manage (h : firmware.Refines addr atomic) {answered : Bool}
    {allocated : Payload → Bool} (hknown : KnownAs addr env.myAddr)
    (hsteady : firmware.Steady (.pollManager env answered allocated)) :
    Followed addr (.tick env) atomic firmware (manage env answered allocated firmware) := by
  have horderly := h.orderly.manage env answered allocated
  cases hmanager : firmware.manager with
  | starting wakeAt =>
      have hfree : firmware.manager.midRound = false := by rw [hmanager]; rfl
      simp only [Firmware.manage, hmanager] at horderly ⊢
      split at horderly
      next hdue =>
        rw [if_pos hdue]
        apply Refines.followed
        apply h.over horderly _ ⟨rfl, rfl, rfl, rfl, rfl, rfl, List.prefix_rfl, trivial⟩
        exact (settled_of_free rfl).trans (settled_of_free hfree).symm
      next hearly =>
        rw [if_neg hearly]
        exact h.followed _
  | sleeping wakeAt =>
      have hfree : firmware.manager.midRound = false := by rw [hmanager]; rfl
      simp only [Firmware.manage, hmanager] at horderly ⊢
      split at horderly
      next hdue =>
        rw [if_pos hdue]
        cases haddr : env.myAddr with
        | none =>
            simp only [haddr] at horderly ⊢
            apply Refines.followed
            apply h.over horderly _ ⟨rfl, rfl, rfl, rfl, rfl, rfl, List.prefix_rfl, trivial⟩
            exact (settled_of_free rfl).trans (settled_of_free hfree).symm
        | some myAddr =>
            obtain rfl : myAddr = addr := by
              rcases hknown with hnone | hsome
              · cases haddr.symm.trans hnone
              · exact Option.some.inj (haddr.symm.trans hsome)
            simp only
            rw [manageAddresses_of_free (h.orderly.addressesLocked.trans hfree)
              (h.orderly.jobsLocked.trans hfree)]
            exact h.round hfree haddr allocated
      next hearly =>
        rw [if_neg hearly]
        exact h.followed _
  | addresses _ =>
      have hwaits := h.orderly.manager
      rw [hmanager] at hwaits
      cases hwaits
  | jobs _ =>
      have hwaits := h.orderly.manager
      rw [hmanager] at hwaits
      cases hwaits
  | logging myAddr text stage =>
      have hlogs := h.manager
      rw [hmanager] at hlogs
      rw [Steady, hmanager] at hsteady
      apply Refines.followed
      simp only [Firmware.manage, hmanager] at horderly ⊢
      cases hresume : stage.resume firmware.machine.clock answered (allocated (.log text)) with
      | none =>
          simp only [hresume] at horderly
          apply h.over horderly _ (managed_pass _ _ _ _ _)
          rw [settled_of_logging hmanager, show env.myAddr = some myAddr from hsteady]
          exact settled_pass _ _ _
      | some later =>
          simp only [hresume] at horderly
          apply h.over horderly _ ⟨rfl, rfl, rfl, rfl, rfl, rfl, List.prefix_rfl, hlogs⟩
          rw [settled_of_logging hmanager, settled_of_logging rfl]
  | broadcasting ledger passing stage =>
      apply Refines.followed
      simp only [Firmware.manage, hmanager] at horderly ⊢
      cases hresume : stage.resume firmware.machine.clock answered
          (allocated (.ledger ledger)) with
      | none =>
          simp only [hresume] at horderly
          apply h.over horderly _ ⟨rfl, rfl, rfl, rfl, rfl, rfl, List.prefix_rfl, trivial⟩
          rw [settled_of_broadcasting hmanager]
          exact settled_of_free rfl
      | some later =>
          simp only [hresume] at horderly
          apply h.over horderly _ ⟨rfl, rfl, rfl, rfl, rfl, rfl, List.prefix_rfl, trivial⟩
          rw [settled_of_broadcasting hmanager, settled_of_broadcasting rfl]

theorem Refines.clock (h : firmware.Refines addr atomic) :
    firmware.machine.clock = atomic.machine.clock := by
  calc
    firmware.machine.clock = firmware.settled.machine.clock :=
      (congrArg (fun settled ↦ settled.machine.clock)
        (settled_change firmware firmware.machine.history firmware.machine.clock)).symm
    _ = atomic.machine.clock := by rw [h.settled, Atomic.remember]

/-- Time passes for the tasks and for the machine alike. -/
theorem Refines.elapse (h : firmware.Refines addr atomic) (ticks : ℕ) :
    Followed addr (.elapse ticks) atomic firmware { firmware with
      machine := { firmware.machine with clock := firmware.machine.clock + ticks } } := by
  have hstep : atomic.machine.step addr (.elapse ticks) =
      some { atomic.machine with clock := atomic.machine.clock + ticks } := rfl
  apply followed_of_step hstep (.inr ⟨ticks, rfl⟩)
  exact {
    orderly := h.orderly.of_eq rfl rfl rfl (Nat.le_add_right _ _) h.orderly.receiver
      h.orderly.filer
    settled := by
      calc
        _ = { firmware.settled with
              machine := { firmware.settled.machine with
                history := firmware.machine.history
                clock := firmware.machine.clock + ticks } } := settled_change _ _ _
        _ = _ := by
          rw [h.settled, h.clock, LocalEvent.output, TickOutput.quiet, List.append_nil,
            Option.toList_none, List.append_nil]
          rfl
    receiver := h.receiver
    manager := h.manager
    absent := h.absent.step hstep
    distributor := h.distributor
    puts := h.puts }

/-- A message arrives while `udp_receiver` waits for one. -/
theorem Refines.receive (h : firmware.Refines addr atomic)
    (hreceiving : firmware.receiver = .receiving) (hsender : sender ≠ addr) (message : Message) :
    Followed addr (.receive sender message) atomic firmware (receive sender message firmware) := by
  have hhistory : firmware.machine.history = atomic.machine.history := by
    have hwrote := h.receiver
    rw [hreceiving] at hwrote
    exact hwrote
  rw [Firmware.receive]
  split
  next => exact h.followed _
  next hnew =>
    rw [hhistory] at hnew
    refine @Refines.receiveAddresses addr sender _ atomic message ?_
    exact {
      orderly := h.orderly.of_eq rfl rfl rfl le_rfl rfl h.orderly.filer
      settled := by
        calc
          _ = { firmware.settled with
                machine := { firmware.settled.machine with
                  history := firmware.machine.history.write message.idempotency
                  clock := firmware.machine.clock } } := settled_change _ _ _
          _ = atomic.remember (firmware.machine.history.write message.idempotency) := by
            rw [h.settled, h.clock]
            rfl
      receiver := ⟨hsender, hnew, congrArg (·.write message.idempotency) hhistory⟩
      manager := h.manager
      absent := h.absent
      distributor := h.distributor
      puts := h.puts }

/-- The machine in single steps follows every step of the tasks. -/
theorem Refines.step (h : firmware.Refines addr atomic) {event : TaskEvent}
    (hsteady : firmware.Steady event) (hstep : firmware.step addr event = some after) :
    after.Refines addr atomic ∨
      ∃ single ∈ firmware.single event, Followed addr single atomic firmware after := by
  cases steps_of_step hstep with
  | received hstage hsender => exact .inr ⟨_, rfl, h.receive hstage hsender _⟩
  | noted hstage =>
      refine .inr ⟨_, by rw [single, hstage]; rfl, Refines.receiveAddresses ?_⟩
      rw [← hstage]
      exact h
  | adopted hstage =>
      have hwaits := h.orderly.receiver
      rw [hstage] at hwaits
      cases hwaits
  | filed hsingle hknown => exact .inr ⟨_, hsingle, h.fileAddresses hknown _⟩
  | filedLate hstage =>
      have hwaits := h.orderly.filer
      rw [hstage] at hwaits
      cases hwaits
  | checked => exact .inr ⟨_, rfl, h.checkAddresses⟩
  | distributed => exact .inl (h.distributeAddresses _)
  | put hstage =>
      have havoids := h.distributor
      rw [hstage] at havoids
      exact .inl (h.putNext _ havoids)
  | managed hknown => exact .inr ⟨_, rfl, h.manage hknown hsteady⟩
  | elapsed => exact .inr ⟨_, rfl, h.elapse _⟩

theorem Refines.reaches (h : firmware.Refines addr atomic) {event : TaskEvent}
    (hsteady : firmware.Steady event) (hstep : firmware.step addr event = some after) :
    ∃ next, Reaches (Atomic.step addr) Unrestricted atomic next ∧ after.Refines addr next := by
  rcases h.step hsteady hstep with hsame | ⟨single, -, hsame | ⟨-, next, hnext, hafter⟩⟩
  · exact ⟨atomic, .refl, hsame⟩
  · exact ⟨atomic, .refl, hsame⟩
  · exact ⟨next, Reaches.refl.tail trivial hnext, hafter⟩

end Simulation

/-- The machine in single steps shows what the tasks have done. Whoever gets hold of the mutexes
sees its book and its copy of the ledger. -/
structure Shows (firmware : Firmware) (atomic : Atomic) : Prop where
  accepted : firmware.accepted = atomic.accepted
  broadcast : firmware.broadcast <+: atomic.broadcast
  unlocked : firmware.addressesLocked = false →
    firmware.machine.addresses = atomic.machine.addresses ∧
      firmware.machine.jobs = atomic.machine.jobs ∧ firmware.broadcast = atomic.broadcast
  resting : firmware.addressesLocked = false → firmware.receiver = .receiving →
    firmware.machine = atomic.machine

theorem Refines.shows {addr : Ipv4Addr} {firmware : Firmware} {atomic : Atomic}
    (h : firmware.Refines addr atomic) : firmware.Shows atomic := by
  have hfree (hunlocked : firmware.addressesLocked = false) :
      firmware.manager.midRound = false := by
    rw [← h.orderly.addressesLocked, hunlocked]
  have haccepted : firmware.settled.accepted = firmware.accepted := accepted_settled firmware
  have hbegun : firmware.broadcast <+: firmware.settled.broadcast := broadcast_settled firmware
  rw [h.settled] at haccepted hbegun
  refine ⟨haccepted.symm, hbegun, ?_, ?_⟩
  · intro hunlocked
    obtain ⟨hmachine, hbroadcast, -⟩ := h.view (hfree hunlocked)
    rw [hmachine]
    exact ⟨rfl, rfl, hbroadcast⟩
  · intro hunlocked hreceiving
    have hwrote := h.receiver
    rw [hreceiving] at hwrote
    rw [(h.view (hfree hunlocked)).1, show firmware.machine.history = _ from hwrote]

instance (firmware : Firmware) : DecidablePred firmware.Steady
  | .pollManager env _ _ =>
      match h : firmware.manager with
      | .logging myAddr _ _ => decidable_of_iff (env.myAddr = some myAddr) (by rw [Steady, h])
      | .starting _ | .sleeping _ | .addresses _ | .jobs _ | .broadcasting .. =>
          .isTrue (by rw [Steady, h]; trivial)
  | .arrive .. | .upload .. | .distribute _ | .pollReceiver | .pollFiler _ | .pollChecker
  | .pollDistributor | .elapse _ => .isTrue trivial

/-- Every run of the tasks in which the machine keeps its address while it logs an accepted job is a
run of the machine in single steps: the same jobs are accepted, the same ledgers and alerts are
broadcast in the same order, and a task that gets hold of the mutexes finds what it would find
there. No file is put to the machine itself. -/
theorem atomic_of_tasks {addr : Ipv4Addr} {firmware : Firmware}
    (h : Reaches (step addr) Steady boot firmware) :
    (∃ atomic, Reaches (Atomic.step addr) Unrestricted .boot atomic ∧ firmware.Shows atomic) ∧
      ∀ put ∈ firmware.puts, put.2 ≠ addr := by
  obtain ⟨atomic, hreach, hrefines⟩ := h.simulates (Refines addr) (refines_boot addr)
    fun _ _ _ _ hrefines hsteady hstep ↦ hrefines.reaches hsteady hstep
  exact ⟨⟨atomic, hreach, hrefines.shows⟩, hrefines.puts⟩

theorem atomic_of_tasks_crowdedRound :
    ∃ firmware atomic, Firmware.Shows firmware atomic ∧ firmware.machine.Lists ⟨7⟩ ∧
      firmware.machine.addresses.keys = [System.beta] ∧ firmware.broadcast ≠ [] := by
  obtain ⟨firmware, hreach, hend⟩ := exists_reaches_of_runIf (step System.alpha) Steady boot
    crowdedRound (fun firmware ↦ firmware.machine.Lists ⟨7⟩ ∧
      firmware.machine.addresses.keys = [System.beta] ∧ firmware.broadcast ≠ []) (by decide +kernel)
  obtain ⟨⟨atomic, -, hshows⟩, -⟩ := atomic_of_tasks hreach
  exact ⟨firmware, atomic, hshows, hend⟩

end Firmware

end Derusting
