import Derusting.Ring.Holder

/-!
# Tasks that take turns

The embassy tasks of one machine between the points at which they wait.  `udp_receiver`,
`append_to_ledger`, `address_book_lifetime_check`, `manage_ledger` and `distribute_file` share the
mutexes `addresses` and `jobs`.  A task that finds a mutex free goes on at once; one that finds it
locked is polled again later, and so is one that waits for a timer, for lwIP or for a message.  The
clock stands still while a task runs.

A round of `manage_ledger` is cut where it waits for its broadcasts.  `steps_of_step` lists what a
step can do.
-/

namespace Derusting

open Foundations.Bounded Foundations.Transition

/-! ## The parts of a round -/

/-- How the first part of a round ends: up to the job that may be printed. -/
inductive Head where
  | waits
  | creates (ledger : Ledger)
  | prints (guid : Uuid) (text : List Char)
  | goesOn

/-- A round up to the print stage. Everything behind the locks is read without waiting. -/
def roundHead (myAddr : Ipv4Addr) (env : TickEnv) (machine : Machine) : Machine × Head :=
  match machine.jobs with
  | none =>
      let ledger : Ledger := { owner := myAddr, jobs := .empty }
      ({ machine with jobs := some (.new ledger machine.clock) }, .creates ledger)
  | some state =>
      let state := staleTakeover myAddr machine.addresses machine.clock state
      if state.isOwner env.myAddr && !machine.observedOwnership then
        ({ machine with jobs := some state, observedOwnership := true }, .waits)
      else
        let (state, output) := manufacture env machine.observedOwnership state
        let machine := { machine with jobs := some state }
        match output.accepted with
        | some guid => (machine, .prints guid ("Job Accepted: ".toList ++ env.display guid))
        | none => (machine, .goesOn)

/-- The rest of a round: name the next owner. The ledger to broadcast comes with whether it is being
passed on; `now` is the address that `is_owner` reads. -/
def passOn (myAddr : Ipv4Addr) (now : Option Ipv4Addr) (machine : Machine) :
    Machine × Option (Ledger × Bool) :=
  match machine.jobs with
  | none => (machine, none)
  | some state =>
      if state.isOwner now && machine.observedOwnership then
        if machine.addresses.isEmpty then (machine, some (state.ledger, false))
        else
          -- the book is not empty here, so the default is never used
          let owner := (nextOwner myAddr machine.addresses.keys).getD myAddr
          let ledger := { state.ledger with owner := owner }
          ({ machine with jobs := some { state with ledger := ledger } }, some (ledger, true))
      else (machine, none)

/-- A machine that has passed the ledger on forgets that it has observed it. -/
def Machine.afterBroadcast (machine : Machine) (passing : Bool) : Machine :=
  { machine with observedOwnership := machine.observedOwnership && !passing }

/-! ## Where the tasks wait -/

/-- Where `Message::send` waits: for lwIP to send the packet, or for 100 ms to pass. The number is
that of the repeats still to come. -/
inductive SendStage where
  | sending (left : ℕ)
  | pausing (left : ℕ) (wakeAt : Instant)

namespace SendStage

/-- The head of the loop in `Message::send`; without a packet it returns. -/
def start (allocated : Bool) : ℕ → Option SendStage
  | 0 => none
  | left + 1 => if allocated then some (.sending left) else none

/-- Poll `Message::send`; the result is `none` once it has returned. -/
def resume (clock : Instant) (answered allocated : Bool) : SendStage → Option SendStage
  | .sending left => some (if answered then .pausing left (clock + 100) else .sending left)
  | .pausing left wakeAt =>
      if wakeAt ≤ clock then start allocated left else some (.pausing left wakeAt)

end SendStage

/-- Where `udp_receiver` waits: for a message or for a mutex. -/
inductive ReceiverStage where
  | receiving
  | addresses (sender : Ipv4Addr) (message : Message)
  | jobs (message : Message)

/-- Where `append_to_ledger` waits, while it runs. -/
inductive FilerStage where
  | idle
  | addresses (guid : Uuid)
  | jobs (guid : Uuid) (addressBookIsEmpty : Bool)

/-- Where `address_book_lifetime_check` waits. -/
inductive CheckerStage where
  | sleeping (wakeAt : Instant)
  | addresses

/-- Where `distribute_file` waits: for a guid, for the mutex or for the end of a `put_file`. -/
inductive DistributorStage where
  | receiving
  | addresses (guid : Uuid)
  | putting (guid : Uuid) (left : List Ipv4Addr)

/-- Where `manage_ledger` waits: for its two timers, for a mutex or for the end of a broadcast. -/
inductive ManagerStage where
  | starting (wakeAt : Instant)
  | sleeping (wakeAt : Instant)
  | addresses (myAddr : Ipv4Addr)
  | jobs (myAddr : Ipv4Addr)
  | logging (myAddr : Ipv4Addr) (text : List Char) (stage : SendStage)
  | broadcasting (ledger : Ledger) (passing : Bool) (stage : SendStage)

/-- `manage_ledger` waits in the middle of a round. -/
def ManagerStage.midRound : ManagerStage → Bool
  | .logging .. | .broadcasting .. => true
  | .starting _ | .sleeping _ | .addresses _ | .jobs _ => false

/-- The tasks of one machine, what they share and what they have done: the ledgers, alerts and logs
of accepted jobs they began to broadcast, the jobs Marlin accepted and the files they began to
put. -/
structure Firmware where
  machine : Machine
  addressesLocked : Bool
  jobsLocked : Bool
  receiver : ReceiverStage
  filer : FilerStage
  checker : CheckerStage
  distributor : DistributorStage
  manager : ManagerStage
  broadcast : List Payload
  accepted : List Uuid
  puts : List (Uuid × Ipv4Addr)

namespace Firmware

/-- The tasks have just been spawned. -/
def boot : Firmware where
  machine := .boot
  addressesLocked := false
  jobsLocked := false
  receiver := .receiving
  filer := .idle
  checker := .sleeping (fromSecs 10)
  distributor := .receiving
  manager := .starting (fromSecs 20)
  broadcast := []
  accepted := []
  puts := []

/-! ## What a task does until it waits -/

/-- `udp_receiver` from its second mutex on. -/
def receiveJobs (message : Message) (firmware : Firmware) : Firmware :=
  match message.payload with
  | .newJob guid =>
      if firmware.jobsLocked then { firmware with receiver := .jobs message }
      else
        { firmware with
          machine := { firmware.machine with jobs := firmware.machine.jobs.map fun state ↦
            { state with ledger := { state.ledger with jobs := state.ledger.jobs.insert guid } } }
          receiver := .receiving }
  | .ledger ledger =>
      if firmware.jobsLocked then { firmware with receiver := .jobs message }
      else
        { firmware with
          machine := { firmware.machine with jobs := some (.new ledger firmware.machine.clock) }
          receiver := .receiving }
  | .heartbeat _ | .log _ => { firmware with receiver := .receiving }

/-- `udp_receiver` from its first mutex on; the guard of the book is dropped before the second. -/
def receiveAddresses (sender : Ipv4Addr) (message : Message) (firmware : Firmware) : Firmware :=
  if firmware.addressesLocked then { firmware with receiver := .addresses sender message }
  else
    receiveJobs message { firmware with machine := { firmware.machine with
      addresses := firmware.machine.addresses.insert sender firmware.machine.clock } }

/-- What `udp_receiver` leaves alone. -/
structure Received (firmware after : Firmware) : Prop where
  filer : after.filer = firmware.filer
  distributor : after.distributor = firmware.distributor
  broadcast : after.broadcast = firmware.broadcast
  puts : after.puts = firmware.puts
  channel : after.machine.filesToDistribute = firmware.machine.filesToDistribute

theorem received_receiveJobs (message : Message) (firmware : Firmware) :
    Received firmware (receiveJobs message firmware) := by
  unfold receiveJobs
  cases message.payload with
  | newJob guid =>
      dsimp only
      split <;> exact ⟨rfl, rfl, rfl, rfl, rfl⟩
  | ledger ledger =>
      dsimp only
      split <;> exact ⟨rfl, rfl, rfl, rfl, rfl⟩
  | heartbeat alive => exact ⟨rfl, rfl, rfl, rfl, rfl⟩
  | log text => exact ⟨rfl, rfl, rfl, rfl, rfl⟩

theorem received_receiveAddresses (sender : Ipv4Addr) (message : Message) (firmware : Firmware) :
    Received firmware (receiveAddresses sender message firmware) := by
  unfold receiveAddresses
  split
  · exact ⟨rfl, rfl, rfl, rfl, rfl⟩
  · have hjobs := received_receiveJobs message { firmware with
      machine := { firmware.machine with
        addresses := firmware.machine.addresses.insert sender firmware.machine.clock } }
    exact ⟨hjobs.filer, hjobs.distributor, hjobs.broadcast, hjobs.puts, hjobs.channel⟩

/-- `udp_receiver` with a message from its channel. -/
def receive (sender : Ipv4Addr) (message : Message) (firmware : Firmware) : Firmware :=
  if message.idempotency ∈ firmware.machine.history then firmware
  else
    receiveAddresses sender message { firmware with machine := { firmware.machine with
      history := firmware.machine.history.write message.idempotency } }

theorem received_receive (sender : Ipv4Addr) (message : Message) (firmware : Firmware) :
    Received firmware (receive sender message firmware) := by
  unfold receive
  split
  · exact ⟨rfl, rfl, rfl, rfl, rfl⟩
  · have haddresses := received_receiveAddresses sender message { firmware with
      machine := { firmware.machine with
        history := firmware.machine.history.write message.idempotency } }
    exact ⟨haddresses.filer, haddresses.distributor, haddresses.broadcast, haddresses.puts,
      haddresses.channel⟩

/-- `append_to_ledger` from its second mutex on. -/
def fileJobs (guid : Uuid) (addressBookIsEmpty : Bool) (myAddr : Option Ipv4Addr)
    (firmware : Firmware) : Firmware :=
  if firmware.jobsLocked then { firmware with filer := .jobs guid addressBookIsEmpty }
  else
    let (machine, isOwner) : Machine × Bool :=
      match firmware.machine.jobs, myAddr with
      | some state, some addr =>
          if addr = state.ledger.owner then
            ({ firmware.machine with jobs := some { state with
                ledger := { state.ledger with jobs := state.ledger.jobs.insert guid } } }, true)
          else (firmware.machine, false)
      | _, _ => (firmware.machine, false)
    let alert : List Payload := if !isOwner && !addressBookIsEmpty then [.newJob guid] else []
    { firmware with
      machine := machine
      filer := .idle
      broadcast := firmware.broadcast ++ alert }

/-- `append_to_ledger`. -/
def fileAddresses (guid : Uuid) (myAddr : Option Ipv4Addr) (firmware : Firmware) : Firmware :=
  if firmware.addressesLocked then { firmware with filer := .addresses guid }
  else fileJobs guid firmware.machine.addresses.isEmpty myAddr firmware

/-- `address_book_lifetime_check` after its timer. -/
def checkAddresses (firmware : Firmware) : Firmware :=
  if firmware.addressesLocked then { firmware with checker := .addresses }
  else
    { firmware with
      machine := addressBookLifetimeCheck firmware.machine
      checker := .sleeping (firmware.machine.clock + fromSecs 10) }

/-- The loop of `distribute_file` over its copy of the book. -/
def putNext (guid : Uuid) (targets : List Ipv4Addr) (firmware : Firmware) : Firmware :=
  match targets with
  | [] => { firmware with distributor := .receiving }
  | target :: left =>
      { firmware with
        distributor := .putting guid left
        puts := firmware.puts ++ [(guid, target)] }

/-- `distribute_file` with a guid from its channel: the book is copied and unlocked again. -/
def distributeAddresses (guid : Uuid) (firmware : Firmware) : Firmware :=
  if firmware.addressesLocked then { firmware with distributor := .addresses guid }
  else putNext guid firmware.machine.addresses.keys firmware

/-- Both guards are dropped and the next round comes five seconds later. -/
def endRound (firmware : Firmware) : Firmware :=
  { firmware with
    addressesLocked := false
    jobsLocked := false
    manager := .sleeping (firmware.machine.clock + fromSecs 5) }

/-- `Message::send_ledger` and what follows it. Whether lwIP has a packet may depend on the
payload. -/
def sendLedger (ledger : Ledger) (passing : Bool) (allocated : Payload → Bool)
    (firmware : Firmware) : Firmware :=
  let firmware := { firmware with broadcast := firmware.broadcast ++ [Payload.ledger ledger] }
  match SendStage.start (allocated (.ledger ledger)) 3 with
  | some stage => { firmware with manager := .broadcasting ledger passing stage }
  | none => endRound { firmware with machine := firmware.machine.afterBroadcast passing }

/-- The rest of a round behind the print stage. -/
def pass (myAddr : Ipv4Addr) (now : Option Ipv4Addr) (allocated : Payload → Bool)
    (firmware : Firmware) : Firmware :=
  match passOn myAddr now firmware.machine with
  | (machine, some (ledger, passing)) =>
      sendLedger ledger passing allocated { firmware with machine := machine }
  | (machine, none) => endRound { firmware with machine := machine }

/-- `Message::send_log` for an accepted job and the rest of the round. -/
def sendLog (myAddr : Ipv4Addr) (now : Option Ipv4Addr) (text : List Char)
    (allocated : Payload → Bool) (firmware : Firmware) : Firmware :=
  let firmware := { firmware with broadcast := firmware.broadcast ++ [Payload.log text] }
  match SendStage.start (allocated (.log text)) 2 with
  | some stage => { firmware with manager := .logging myAddr text stage }
  | none => pass myAddr now allocated firmware

/-- A round of `manage_ledger` that holds both mutexes. -/
def round (myAddr : Ipv4Addr) (env : TickEnv) (allocated : Payload → Bool) (firmware : Firmware) :
    Firmware :=
  match roundHead myAddr env firmware.machine with
  | (machine, .waits) => endRound { firmware with machine := machine }
  | (machine, .creates ledger) =>
      sendLedger ledger false allocated { firmware with machine := machine }
  | (machine, .prints guid text) =>
      sendLog myAddr env.myAddr text allocated
        { firmware with machine := machine, accepted := firmware.accepted ++ [guid] }
  | (machine, .goesOn) => pass myAddr env.myAddr allocated { firmware with machine := machine }

/-- `manage_ledger` from its second mutex on. -/
def manageJobs (myAddr : Ipv4Addr) (env : TickEnv) (allocated : Payload → Bool)
    (firmware : Firmware) : Firmware :=
  if firmware.jobsLocked then { firmware with manager := .jobs myAddr }
  else round myAddr env allocated { firmware with jobsLocked := true }

/-- `manage_ledger` from its first mutex on; it keeps the guard. -/
def manageAddresses (myAddr : Ipv4Addr) (env : TickEnv) (allocated : Payload → Bool)
    (firmware : Firmware) : Firmware :=
  if firmware.addressesLocked then { firmware with manager := .addresses myAddr }
  else manageJobs myAddr env allocated { firmware with addressesLocked := true }

/-- `manage_ledger` is polled. Nothing happens to a timer that has not expired. -/
def manage (env : TickEnv) (answered : Bool) (allocated : Payload → Bool) (firmware : Firmware) :
    Firmware :=
  match firmware.manager with
  | .starting wakeAt =>
      if wakeAt ≤ firmware.machine.clock then
        { firmware with manager := .sleeping (firmware.machine.clock + fromSecs 5) }
      else firmware
  | .sleeping wakeAt =>
      if wakeAt ≤ firmware.machine.clock then
        match env.myAddr with
        | none => { firmware with manager := .sleeping (firmware.machine.clock + fromSecs 5) }
        | some myAddr => manageAddresses myAddr env allocated firmware
      else firmware
  | .addresses myAddr => manageAddresses myAddr env allocated firmware
  | .jobs myAddr => manageJobs myAddr env allocated firmware
  | .logging myAddr text stage =>
      match stage.resume firmware.machine.clock answered (allocated (.log text)) with
      | some stage => { firmware with manager := .logging myAddr text stage }
      | none => pass myAddr env.myAddr allocated firmware
  | .broadcasting ledger passing stage =>
      match stage.resume firmware.machine.clock answered (allocated (.ledger ledger)) with
      | some stage => { firmware with manager := .broadcasting ledger passing stage }
      | none => endRound { firmware with machine := firmware.machine.afterBroadcast passing }

end Firmware

/-- What happens to the tasks: something for them to do arrives, one of them is polled, or time
passes. -/
inductive TaskEvent where
  | arrive (sender : Ipv4Addr) (message : Message)
  | upload (guid : Uuid) (myAddr : Option Ipv4Addr)
  | distribute (guid : Uuid)
  | pollReceiver
  | pollFiler (myAddr : Option Ipv4Addr)
  | pollChecker
  | pollDistributor
  | pollManager (env : TickEnv) (answered : Bool) (allocated : Payload → Bool)
  | elapse (ticks : ℕ)

namespace Firmware

/-- One step of the tasks of the machine at `addr`, which receives none of its own broadcasts. -/
def step (addr : Ipv4Addr) (firmware : Firmware) : TaskEvent → Option Firmware
  | .arrive sender message =>
      match firmware.receiver with
      | .receiving => if sender = addr then none else some (receive sender message firmware)
      | .addresses .. | .jobs _ => none
  | .upload guid myAddr =>
      match firmware.filer with
      | .idle => if KnownAs addr myAddr then some (fileAddresses guid myAddr firmware) else none
      | .addresses _ | .jobs .. => none
  | .distribute guid =>
      match firmware.distributor with
      | .receiving => some (distributeAddresses guid firmware)
      | .addresses _ | .putting .. => none
  | .pollReceiver =>
      match firmware.receiver with
      | .receiving => none
      | .addresses sender message => some (receiveAddresses sender message firmware)
      | .jobs message => some (receiveJobs message firmware)
  | .pollFiler myAddr =>
      if KnownAs addr myAddr then
        match firmware.filer with
        | .idle => none
        | .addresses guid => some (fileAddresses guid myAddr firmware)
        | .jobs guid addressBookIsEmpty => some (fileJobs guid addressBookIsEmpty myAddr firmware)
      else none
  | .pollChecker =>
      match firmware.checker with
      | .sleeping wakeAt =>
          if wakeAt ≤ firmware.machine.clock then some (checkAddresses firmware) else none
      | .addresses => some (checkAddresses firmware)
  | .pollDistributor =>
      match firmware.distributor with
      | .receiving => none
      | .addresses guid => some (distributeAddresses guid firmware)
      | .putting guid left => some (putNext guid left firmware)
  | .pollManager env answered allocated =>
      if KnownAs addr env.myAddr then some (manage env answered allocated firmware) else none
  | .elapse ticks =>
      some { firmware with
        machine := { firmware.machine with clock := firmware.machine.clock + ticks } }

/-- What an event comes to as a step of the machine, if the task it is for gets the mutexes. -/
def single (firmware : Firmware) : TaskEvent → Option LocalEvent
  | .arrive sender message => some (.receive sender message)
  | .upload guid myAddr => some (.upload guid myAddr)
  | .pollReceiver =>
      match firmware.receiver with
      | .addresses sender message => some (.receive sender message)
      | .receiving | .jobs _ => none
  | .pollFiler myAddr =>
      match firmware.filer with
      | .addresses guid => some (.upload guid myAddr)
      | .idle | .jobs .. => none
  | .pollChecker => some .lifetimeCheck
  | .pollManager env _ _ => some (.tick env)
  | .elapse ticks => some (.elapse ticks)
  | .distribute _ | .pollDistributor => none

/-- A message is processed when it arrives, or later, after the wait for the book. -/
theorem receive_cases {firmware : Firmware} {event : TaskEvent} {sender : Ipv4Addr}
    {message : Message} (h : firmware.single event = some (.receive sender message)) :
    event = .arrive sender message ∨
      event = .pollReceiver ∧ firmware.receiver = .addresses sender message := by
  cases event with
  | arrive source arrived =>
      obtain ⟨rfl, rfl⟩ := LocalEvent.receive.inj (Option.some.inj h)
      exact .inl rfl
  | pollReceiver =>
      rw [single] at h
      split at h
      next hstage =>
        obtain ⟨rfl, rfl⟩ := LocalEvent.receive.inj (Option.some.inj h)
        exact .inr ⟨rfl, hstage⟩
      all_goals cases h
  | pollFiler myAddr =>
      rw [single] at h
      split at h <;> cases h
  | upload guid myAddr => cases h
  | distribute guid => cases h
  | pollChecker => cases h
  | pollDistributor => cases h
  | pollManager env answered allocated => cases h
  | elapse ticks => cases h

/-- A job is filed when it is uploaded, or later, after the wait for the book. -/
theorem upload_cases {firmware : Firmware} {event : TaskEvent} {guid : Uuid}
    {myAddr : Option Ipv4Addr} (h : firmware.single event = some (.upload guid myAddr)) :
    event = .upload guid myAddr ∨
      event = .pollFiler myAddr ∧ firmware.filer = .addresses guid := by
  cases event with
  | upload uploaded known =>
      obtain ⟨rfl, rfl⟩ := LocalEvent.upload.inj (Option.some.inj h)
      exact .inl rfl
  | pollFiler known =>
      rw [single] at h
      split at h
      next hstage =>
        obtain ⟨rfl, rfl⟩ := LocalEvent.upload.inj (Option.some.inj h)
        exact .inr ⟨rfl, hstage⟩
      all_goals cases h
  | pollReceiver =>
      rw [single] at h
      split at h <;> cases h
  | arrive sender message => cases h
  | distribute file => cases h
  | pollChecker => cases h
  | pollDistributor => cases h
  | pollManager env answered allocated => cases h
  | elapse ticks => cases h

/-- What a step can do. -/
inductive Steps (addr : Ipv4Addr) (firmware : Firmware) : TaskEvent → Firmware → Prop
  | received {sender : Ipv4Addr} {message : Message} (hstage : firmware.receiver = .receiving)
      (hsender : sender ≠ addr) :
      Steps addr firmware (.arrive sender message) (receive sender message firmware)
  | noted {sender : Ipv4Addr} {message : Message}
      (hstage : firmware.receiver = .addresses sender message) :
      Steps addr firmware .pollReceiver (receiveAddresses sender message firmware)
  | adopted {message : Message} (hstage : firmware.receiver = .jobs message) :
      Steps addr firmware .pollReceiver (receiveJobs message firmware)
  | filed {event : TaskEvent} {guid : Uuid} {myAddr : Option Ipv4Addr}
      (hsingle : firmware.single event = some (.upload guid myAddr))
      (hknown : KnownAs addr myAddr) :
      Steps addr firmware event (fileAddresses guid myAddr firmware)
  | filedLate {guid : Uuid} {addressBookIsEmpty : Bool} {myAddr : Option Ipv4Addr}
      (hstage : firmware.filer = .jobs guid addressBookIsEmpty) :
      Steps addr firmware (.pollFiler myAddr) (fileJobs guid addressBookIsEmpty myAddr firmware)
  | checked : Steps addr firmware .pollChecker firmware.checkAddresses
  | distributed {event : TaskEvent} {guid : Uuid} (hsingle : firmware.single event = none) :
      Steps addr firmware event (distributeAddresses guid firmware)
  | put {guid : Uuid} {left : List Ipv4Addr}
      (hstage : firmware.distributor = .putting guid left) :
      Steps addr firmware .pollDistributor (putNext guid left firmware)
  | managed {env : TickEnv} {answered : Bool} {allocated : Payload → Bool}
      (hknown : KnownAs addr env.myAddr) :
      Steps addr firmware (.pollManager env answered allocated)
        (manage env answered allocated firmware)
  | elapsed {ticks : ℕ} :
      Steps addr firmware (.elapse ticks) { firmware with
        machine := { firmware.machine with clock := firmware.machine.clock + ticks } }

theorem steps_of_step {addr : Ipv4Addr} {firmware after : Firmware} {event : TaskEvent}
    (h : firmware.step addr event = some after) : Steps addr firmware event after := by
  cases event with
  | arrive sender message =>
      simp only [step] at h
      split at h
      next hstage =>
        obtain ⟨hsender, hsome⟩ := Option.ite_none_left_eq_some.mp h
        obtain rfl := Option.some.inj hsome
        exact .received hstage hsender
      all_goals cases h
  | upload guid myAddr =>
      simp only [step] at h
      split at h
      · obtain ⟨hknown, hsome⟩ := Option.ite_none_right_eq_some.mp h
        obtain rfl := Option.some.inj hsome
        exact .filed rfl hknown
      all_goals cases h
  | distribute guid =>
      simp only [step] at h
      split at h
      · obtain rfl := Option.some.inj h
        exact .distributed rfl
      all_goals cases h
  | pollReceiver =>
      simp only [step] at h
      split at h
      next => cases h
      next hstage =>
        obtain rfl := Option.some.inj h
        exact .noted hstage
      next hstage =>
        obtain rfl := Option.some.inj h
        exact .adopted hstage
  | pollFiler myAddr =>
      obtain ⟨hknown, hsome⟩ := Option.ite_none_right_eq_some.mp h
      split at hsome
      next => cases hsome
      next hstage =>
        obtain rfl := Option.some.inj hsome
        exact .filed (by rw [single, hstage]) hknown
      next hstage =>
        obtain rfl := Option.some.inj hsome
        exact .filedLate hstage
  | pollChecker =>
      simp only [step] at h
      split at h
      · obtain ⟨-, hsome⟩ := Option.ite_none_right_eq_some.mp h
        obtain rfl := Option.some.inj hsome
        exact .checked
      · obtain rfl := Option.some.inj h
        exact .checked
  | pollDistributor =>
      simp only [step] at h
      split at h
      next => cases h
      next =>
        obtain rfl := Option.some.inj h
        exact .distributed rfl
      next hstage =>
        obtain rfl := Option.some.inj h
        exact .put hstage
  | pollManager env answered allocated =>
      obtain ⟨hknown, hsome⟩ := Option.ite_none_right_eq_some.mp h
      obtain rfl := Option.some.inj hsome
      exact .managed hknown
  | elapse ticks =>
      obtain rfl := Option.some.inj h
      exact .elapsed

end Firmware

end Derusting
