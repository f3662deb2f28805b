import Derusting.Ring.Kinds

/-!
# The ledger tasks of one machine

`udp_receiver`, `address_book_lifetime_check` and one round of `manage_ledger` from `tasks/udp.rs`,
and `append_to_ledger` from `tasks/tcp.rs`, as functions on the state of a machine.  A round of
`manage_ledger` holds both mutexes from its first read to its last broadcast, so it is one atomic
step.  What it asks of its surroundings (the own address, the ready flag, Marlin, the USB stick) is
the `TickEnv`; what it does to them is the `TickOutput`.

`TickOutcome` lists everything a round can do, and `manageLedger_outcome` is the only place where
`manageLedger` is unfolded.
-/

namespace Derusting

open Foundations.Bounded

/-! ## Receiving messages -/

/-- The part of `udp_receiver` after decoding: drop recent duplicates, note the sender in the
address book, then insert a new job or adopt a ledger. -/
def receiveMessage (sender : Ipv4Addr) (message : Message) (machine : Machine) : Machine :=
  if message.idempotency ∈ machine.history then machine
  else
    let machine := { machine with
      history := machine.history.write message.idempotency
      addresses := machine.addresses.insert sender machine.clock }
    match message.payload with
    | .newJob guid =>
        { machine with jobs := machine.jobs.map fun state ↦
            { state with ledger := { state.ledger with jobs := state.ledger.jobs.insert guid } } }
    | .ledger ledger => { machine with jobs := some (.new ledger machine.clock) }
    | .heartbeat _ | .log _ => machine

/-- One round of `udp_receiver`: only the first chunk of the packet is decoded, and an empty chain
or an undecodable chunk is skipped. -/
def udpReceiver (decode : List UInt8 → Option Message) (sender : Ipv4Addr)
    (packet : List (List UInt8)) (machine : Machine) : Machine :=
  match packet.head? with
  | none => machine
  | some chunk =>
      match decode chunk with
      | none => machine
      | some message => receiveMessage sender message machine

/-- `address_book_lifetime_check`: forget the machines not heard from for 20 whole seconds. -/
def addressBookLifetimeCheck (machine : Machine) : Machine :=
  let recent := fun (_ : Ipv4Addr) (heard : Instant) ↦ decide ((machine.clock - heard) / 1000 < 20)
  { machine with addresses := machine.addresses.retain recent }

theorem receiveMessage_of_mem {sender : Ipv4Addr} {message : Message} {machine : Machine}
    (h : message.idempotency ∈ machine.history) : receiveMessage sender message machine = machine :=
  if_pos h

/-- Only a ledger message that is not a recent duplicate replaces the copy of the ledger. -/
theorem jobs_receiveMessage_ledger (sender : Ipv4Addr) {message : Message} {machine : Machine}
    {ledger : Ledger} (hnew : message.idempotency ∉ machine.history)
    (hpayload : message.payload = .ledger ledger) :
    (receiveMessage sender message machine).jobs = some (.new ledger machine.clock) := by
  simp [receiveMessage, hnew, hpayload]

theorem jobs_receiveMessage_newJob (sender : Ipv4Addr) {message : Message} {machine : Machine}
    {guid : Uuid} (hnew : message.idempotency ∉ machine.history)
    (hpayload : message.payload = .newJob guid) :
    (receiveMessage sender message machine).jobs = machine.jobs.map fun state ↦
      { state with ledger := { state.ledger with jobs := state.ledger.jobs.insert guid } } := by
  simp [receiveMessage, hnew, hpayload]

/-- A message that is processed names the owner, or leaves it as it was. -/
theorem owner?_receiveMessage (sender : Ipv4Addr) {message : Message} {machine : Machine}
    (h : message.idempotency ∉ machine.history) :
    (receiveMessage sender message machine).owner? =
      message.payload.owner?.or machine.owner? := by
  cases hpayload : message.payload with
  | ledger carried =>
      rw [Machine.owner?, jobs_receiveMessage_ledger sender h hpayload]
      rfl
  | newJob guid =>
      rw [Machine.owner?, jobs_receiveMessage_newJob sender h hpayload, Option.map_map]
      rfl
  | heartbeat alive => simp [receiveMessage, h, hpayload, Machine.owner?, Payload.owner?]
  | log text => simp [receiveMessage, h, hpayload, Machine.owner?, Payload.owner?]

theorem mem_keys_receiveMessage {sender other : Ipv4Addr} {message : Message} {machine : Machine}
    (h : other ∈ (receiveMessage sender message machine).addresses.keys) :
    other = sender ∨ other ∈ machine.addresses.keys := by
  unfold receiveMessage at h
  split at h
  · exact .inr h
  · have hkeys : other ∈ (machine.addresses.insert sender machine.clock).keys := by
      cases hpayload : message.payload <;> simpa [hpayload] using h
    exact LinearMap.eq_or_mem_of_mem_keys_insert hkeys

theorem observedOwnership_receiveMessage (sender : Ipv4Addr) (message : Message)
    (machine : Machine) :
    (receiveMessage sender message machine).observedOwnership = machine.observedOwnership := by
  unfold receiveMessage
  split
  · rfl
  · cases hpayload : message.payload <;> rfl

theorem mem_history_receiveMessage {sender : Ipv4Addr} {message : Message} {machine : Machine}
    {key : Uuid} (h : key ∈ (receiveMessage sender message machine).history) :
    key = message.idempotency ∨ key ∈ machine.history := by
  unfold receiveMessage at h
  split at h
  · exact .inr h
  · apply HistoryBuf.eq_or_mem_of_mem_write
    cases hpayload : message.payload <;> simpa [hpayload] using h

/-! ## Filing an uploaded job -/

/-- `append_to_ledger`: the owner inserts the job; anybody else alerts the network, unless nobody
is known to be there. The second component is the broadcast payload. -/
def appendToLedger (myAddr : Option Ipv4Addr) (guid : Uuid) (machine : Machine) :
    Machine × Option Payload :=
  let addressBookIsEmpty := machine.addresses.isEmpty
  let (machine, isOwner) : Machine × Bool :=
    match machine.jobs, myAddr with
    | some state, some addr =>
        if addr = state.ledger.owner then
          ({ machine with jobs := some { state with
              ledger := { state.ledger with jobs := state.ledger.jobs.insert guid } } }, true)
        else (machine, false)
    | _, _ => (machine, false)
  if !isOwner && !addressBookIsEmpty then (machine, some (.newJob guid)) else (machine, none)

theorem appendToLedger_of_owner {addr : Ipv4Addr} {guid : Uuid} {machine : Machine}
    {state : LedgerState} (hjobs : machine.jobs = some state) (howner : state.ledger.owner = addr) :
    appendToLedger (some addr) guid machine =
      ({ machine with jobs := some { state with
          ledger := { state.ledger with jobs := state.ledger.jobs.insert guid } } }, none) := by
  simp [appendToLedger, hjobs, howner]

theorem appendToLedger_of_not_owns {addr : Ipv4Addr} {guid : Uuid} {machine : Machine}
    (h : ¬ machine.Owns addr) :
    appendToLedger (some addr) guid machine =
      (machine, if machine.addresses.isEmpty then none else some (.newJob guid)) := by
  cases hjobs : machine.jobs with
  | none => cases hempty : machine.addresses.isEmpty <;> simp [appendToLedger, hjobs, hempty]
  | some state =>
      have hne : addr ≠ state.ledger.owner := fun heq ↦ h ⟨state, hjobs, heq.symm⟩
      cases hempty : machine.addresses.isEmpty <;> simp [appendToLedger, hjobs, hne, hempty]

/-- Filing a job leaves the owner, the address book and the observation flag as they are. -/
theorem appendToLedger_frame (myAddr : Option Ipv4Addr) (guid : Uuid) (machine : Machine) :
    (appendToLedger myAddr guid machine).1.owner? = machine.owner? ∧
      (appendToLedger myAddr guid machine).1.addresses = machine.addresses ∧
      (appendToLedger myAddr guid machine).1.observedOwnership = machine.observedOwnership := by
  cases myAddr with
  | none => cases hempty : machine.addresses.isEmpty <;> simp [appendToLedger, hempty]
  | some addr =>
      by_cases howns : machine.Owns addr
      · obtain ⟨state, hjobs, howner⟩ := howns
        rw [appendToLedger_of_owner hjobs howner, Machine.owner?, Machine.owner?, hjobs]
        exact ⟨rfl, rfl, rfl⟩
      · rw [appendToLedger_of_not_owns howns]
        exact ⟨rfl, rfl, rfl⟩

/-- Filing a job touches nothing but the copy of the ledger. -/
theorem appendToLedger_eq (myAddr : Option Ipv4Addr) (guid : Uuid) (machine : Machine) :
    ∃ jobs, (appendToLedger myAddr guid machine).1 = { machine with jobs := jobs } := by
  cases myAddr with
  | none =>
      refine ⟨machine.jobs, ?_⟩
      cases hempty : machine.addresses.isEmpty <;> simp [appendToLedger, hempty]
  | some addr =>
      by_cases howns : machine.Owns addr
      · obtain ⟨state, hjobs, howner⟩ := howns
        rw [appendToLedger_of_owner hjobs howner]
        exact ⟨_, rfl⟩
      · rw [appendToLedger_of_not_owns howns]
        exact ⟨machine.jobs, rfl⟩

theorem filesToDistribute_appendToLedger (myAddr : Option Ipv4Addr) (guid : Uuid)
    (machine : Machine) :
    (appendToLedger myAddr guid machine).1.filesToDistribute = machine.filesToDistribute := by
  obtain ⟨jobs, hjobs⟩ := appendToLedger_eq myAddr guid machine
  rw [hjobs]

/-! ## One round of `manage_ledger` -/

/-- `marlin::Error`. -/
inductive MarlinError where
  | marlinReturnedFalse
  | extendError
  | busy
deriving DecidableEq

/-- What a round of `manage_ledger` reads from its surroundings. -/
structure TickEnv where
  myAddr : Option Ipv4Addr
  isReady : Bool
  isIdle : Bool
  /-- Whether `fs::open` of the job's `.gcode` path succeeds. -/
  canOpen : Uuid → Bool
  /-- The result of `marlin::print` on that path. -/
  print : Uuid → Except MarlinError Unit
  /-- `Uuid`'s `Display`, used in the log line. -/
  display : Uuid → List Char

/-- What a round of `manage_ledger` does: the job `marlin::print` accepted, if any (the ready flag
is then cleared), and the payloads broadcast, in order. -/
structure TickOutput where
  accepted : Option Uuid
  sent : List Payload

namespace TickOutput

def quiet : TickOutput := ⟨none, []⟩

def send (output : TickOutput) (payload : Payload) : TickOutput :=
  { output with sent := output.sent ++ [payload] }

end TickOutput

/-- Whether the ledger is stale and the address book lets this machine take it over. -/
def takesOver (myAddr : Ipv4Addr) (addresses : AddressBook) (now : Instant)
    (state : LedgerState) : Bool :=
  decide (now - state.received > fromSecs 45) &&
    match addresses.keys.min? with
    | some minAddr => minAddr = myAddr
    | none => true

/-- The stale takeover at the head of a round. -/
def staleTakeover (myAddr : Ipv4Addr) (addresses : AddressBook) (now : Instant)
    (state : LedgerState) : LedgerState :=
  if takesOver myAddr addresses now state then
    { state with ledger := { state.ledger with owner := myAddr } }
  else state

/-- Print the first job of the ledger whose file can be opened, and take it off the ledger when
Marlin accepts it. -/
def manufacture (env : TickEnv) (observed : Bool) (state : LedgerState) :
    LedgerState × TickOutput :=
  if state.isOwner env.myAddr && observed && env.isReady && env.isIdle then
    match state.ledger.jobs.toList.find? env.canOpen with
    | none => (state, .quiet)
    | some guid =>
        match env.print guid with
        | .ok _ =>
            ({ state with ledger := { state.ledger with jobs := state.ledger.jobs.remove guid } },
              ⟨some guid, [.log ("Job Accepted: ".toList ++ env.display guid)]⟩)
        | .error _ => (state, .quiet)
  else (state, .quiet)

/-- `u8::saturating_sub`. -/
def saturatingSub (left right : UInt8) : UInt8 := if right ≤ left then left - right else 0

/-- One step of the successor scan over `(next_highest, next_addr)`. -/
def closer (myAddr : Ipv4Addr) (best : UInt8 × Ipv4Addr) (addr : Ipv4Addr) : UInt8 × Ipv4Addr :=
  let diff := saturatingSub addr.lastOctet myAddr.lastOctet
  if diff > 0 && diff < best.1 then (diff, addr) else best

/-- The machine the ledger is passed to: the next higher last octet of the book, else the lowest
address. `none` stands for the panic of `min().unwrap()` on an empty book. -/
def nextOwner (myAddr : Ipv4Addr) (keys : List Ipv4Addr) : Option Ipv4Addr :=
  let best := keys.foldl (closer myAddr) (255, Ipv4Addr.new 255 255 255 255)
  if best.1 > 0 && best.1 < 255 then some best.2 else keys.min?

/-- One round of the `manage_ledger` loop after its five second delay. -/
def manageLedger (env : TickEnv) (machine : Machine) : Machine × TickOutput :=
  match env.myAddr with
  | none => (machine, .quiet)
  | some myAddr =>
      match machine.jobs with
      | none =>
          -- nobody has told us of a ledger, so we make one
          let ledger : Ledger := { owner := myAddr, jobs := .empty }
          ({ machine with jobs := some (.new ledger machine.clock) },
            TickOutput.quiet.send (.ledger ledger))
      | some state =>
          let state := staleTakeover myAddr machine.addresses machine.clock state
          if state.isOwner env.myAddr && !machine.observedOwnership then
            ({ machine with jobs := some state, observedOwnership := true }, .quiet)
          else
            let (state, output) := manufacture env machine.observedOwnership state
            if state.isOwner env.myAddr && machine.observedOwnership then
              if machine.addresses.isEmpty then
                ({ machine with jobs := some state }, output.send (.ledger state.ledger))
              else
                -- the book is not empty here, so the default is never used
                let owner := (nextOwner myAddr machine.addresses.keys).getD myAddr
                let ledger := { state.ledger with owner := owner }
                ({ machine with
                    jobs := some { state with ledger := ledger }
                    observedOwnership := false }, output.send (.ledger ledger))
            else ({ machine with jobs := some state }, output)

/-! ## What a round can do -/

theorem jobs_staleTakeover (myAddr : Ipv4Addr) (addresses : AddressBook) (now : Instant)
    (state : LedgerState) :
    (staleTakeover myAddr addresses now state).ledger.jobs = state.ledger.jobs := by
  unfold staleTakeover
  split <;> rfl

theorem staleTakeover_of_not {myAddr : Ipv4Addr} {addresses : AddressBook} {now : Instant}
    {state : LedgerState} (h : takesOver myAddr addresses now state = false) :
    staleTakeover myAddr addresses now state = state := by
  simp [staleTakeover, h]

/-- The two outcomes of the print stage. -/
inductive Manufactured (env : TickEnv) (state : LedgerState) : LedgerState → TickOutput → Prop
  | nothing : Manufactured env state state .quiet
  | accepted (guid : Uuid) (hlisted : guid ∈ state.ledger.jobs) (hready : env.isReady = true)
      (hidle : env.isIdle = true) (hprint : env.print guid = .ok ()) :
      Manufactured env state
        { state with ledger := { state.ledger with jobs := state.ledger.jobs.remove guid } }
        ⟨some guid, [.log ("Job Accepted: ".toList ++ env.display guid)]⟩

theorem manufacture_outcome (env : TickEnv) (observed : Bool) (state : LedgerState) :
    Manufactured env state (manufacture env observed state).1
      (manufacture env observed state).2 := by
  unfold manufacture
  split
  next hgate =>
    simp only [Bool.and_eq_true] at hgate
    split
    · exact .nothing
    next guid hfind =>
      split
      next hprint => exact .accepted guid (List.mem_of_find?_eq_some hfind) hgate.1.2 hgate.2 hprint
      · exact .nothing
  · exact .nothing

/-- Without ownership the print stage does nothing. -/
theorem manufacture_of_not_owner {env : TickEnv} {observed : Bool} {state : LedgerState}
    (h : state.isOwner env.myAddr = false) : manufacture env observed state = (state, .quiet) := by
  simp [manufacture, h]

theorem owner_of_manufactured {env : TickEnv} {state made : LedgerState} {output : TickOutput}
    (h : Manufactured env state made output) : made.ledger.owner = state.ledger.owner := by
  cases h <;> rfl

theorem min?_mem_of_ne_nil {keys : List Ipv4Addr} (h : keys ≠ []) :
    ∃ addr, keys.min? = some addr ∧ addr ∈ keys := by
  cases hmin : keys.min? with
  | none => exact absurd (List.min?_eq_none_iff.mp hmin) h
  | some addr => exact ⟨addr, rfl, List.min?_mem hmin⟩

/-- The scan ends on its starting value or on an address it has seen. -/
theorem foldl_closer (myAddr : Ipv4Addr) (keys : List Ipv4Addr) (best : UInt8 × Ipv4Addr) :
    keys.foldl (closer myAddr) best = best ∨ (keys.foldl (closer myAddr) best).2 ∈ keys := by
  induction keys generalizing best with
  | nil => exact .inl rfl
  | cons addr keys ih =>
      rw [List.foldl_cons]
      have hstep : closer myAddr best addr = best ∨ (closer myAddr best addr).2 = addr := by
        simp only [closer]
        split
        · exact .inr rfl
        · exact .inl rfl
      rcases ih (closer myAddr best addr) with hsame | hmem
      · rcases hstep with hkept | htaken
        · exact .inl (hsame.trans hkept)
        · exact .inr (by rw [hsame, htaken]; exact List.mem_cons_self)
      · exact .inr (List.mem_cons_of_mem addr hmem)

/-- For a book that is not empty the next owner is one of its members. -/
theorem nextOwner_mem (myAddr : Ipv4Addr) {keys : List Ipv4Addr} (h : keys ≠ []) :
    ∃ addr, nextOwner myAddr keys = some addr ∧ addr ∈ keys := by
  simp only [nextOwner]
  split
  next hfound =>
    refine ⟨_, rfl, ?_⟩
    rcases foldl_closer myAddr keys (255, Ipv4Addr.new 255 255 255 255) with hsame | hmem
    · rw [hsame] at hfound
      exact absurd hfound (by decide)
    · exact hmem
  next => exact min?_mem_of_ne_nil h

/-- Everything one round of `manage_ledger` can do on a machine that knows its address. -/
inductive TickOutcome (env : TickEnv) (myAddr : Ipv4Addr) (machine : Machine) :
    Machine → TickOutput → Prop
  | created (hjobs : machine.jobs = none) :
      TickOutcome env myAddr machine
        { machine with jobs := some (.new ⟨myAddr, .empty⟩ machine.clock) }
        ⟨none, [.ledger ⟨myAddr, .empty⟩]⟩
  | waited {state before : LedgerState} (hjobs : machine.jobs = some before)
      (htaken : state = staleTakeover myAddr machine.addresses machine.clock before)
      (hidle : ¬ (state.ledger.owner = myAddr ∧ machine.observedOwnership = true)) :
      TickOutcome env myAddr machine
        { machine with
          jobs := some state
          observedOwnership := machine.observedOwnership || decide (state.ledger.owner = myAddr) }
        .quiet
  | kept {state before made : LedgerState} {output : TickOutput}
      (hjobs : machine.jobs = some before)
      (htaken : state = staleTakeover myAddr machine.addresses machine.clock before)
      (howner : state.ledger.owner = myAddr) (hobserved : machine.observedOwnership = true)
      (hmade : Manufactured env state made output) (halone : machine.addresses.keys = []) :
      TickOutcome env myAddr machine { machine with jobs := some made }
        (output.send (.ledger made.ledger))
  | passed {state before made : LedgerState} {output : TickOutput} {next : Ipv4Addr}
      (hjobs : machine.jobs = some before)
      (htaken : state = staleTakeover myAddr machine.addresses machine.clock before)
      (howner : state.ledger.owner = myAddr) (hobserved : machine.observedOwnership = true)
      (hmade : Manufactured env state made output)
      (hnext : nextOwner myAddr machine.addresses.keys = some next)
      (hmem : next ∈ machine.addresses.keys) :
      TickOutcome env myAddr machine
        { machine with
          jobs := some { made with ledger := { made.ledger with owner := next } }
          observedOwnership := false }
        (output.send (.ledger { made.ledger with owner := next }))

theorem manageLedger_outcome {env : TickEnv} {myAddr : Ipv4Addr} (haddr : env.myAddr = some myAddr)
    (machine : Machine) :
    TickOutcome env myAddr machine (manageLedger env machine).1 (manageLedger env machine).2 := by
  cases hjobs : machine.jobs with
  | none =>
      simp only [manageLedger, haddr, hjobs]
      exact .created hjobs
  | some before =>
      obtain ⟨state, htaken⟩ : ∃ state, state = staleTakeover myAddr machine.addresses
        machine.clock before := ⟨_, rfl⟩
      have hmade := manufacture_outcome env machine.observedOwnership state
      simp only [manageLedger, haddr, hjobs, ← htaken]
      by_cases howner : state.ledger.owner = myAddr
      · have hself : state.isOwner (some myAddr) = true := LedgerState.isOwner_some.mpr howner
        cases hobserved : machine.observedOwnership with
        | false =>
            have hwait : TickOutcome env myAddr machine _ _ :=
              .waited hjobs htaken (by simp [hobserved])
            simpa [hself, howner, hobserved] using hwait
        | true =>
            rw [hobserved] at hmade
            have hstill : (manufacture env true state).1.isOwner (some myAddr) = true := by
              rw [LedgerState.isOwner_some, owner_of_manufactured hmade, howner]
            cases hempty : machine.addresses.isEmpty with
            | true =>
                have halone : machine.addresses.keys = [] := by
                  by_contra hkeys
                  rw [LinearMap.isEmpty_eq_false_iff.mpr hkeys] at hempty
                  cases hempty
                have hkept := TickOutcome.kept hjobs htaken howner hobserved hmade halone
                simpa [hself, hstill, hempty, hobserved] using hkept
            | false =>
                obtain ⟨next, hnext, hmem⟩ :=
                  nextOwner_mem myAddr (LinearMap.isEmpty_eq_false_iff.mp hempty)
                have hpassed := TickOutcome.passed hjobs htaken howner hobserved hmade hnext hmem
                simpa [hself, hstill, hempty, hobserved, hnext] using hpassed
      · have hself : state.isOwner (some myAddr) = false := by
          rw [Bool.eq_false_iff, ne_eq, LedgerState.isOwner_some]
          exact howner
        have hwait : TickOutcome env myAddr machine _ _ :=
          .waited hjobs htaken (by simp [howner])
        have hnothing : manufacture env machine.observedOwnership state = (state, .quiet) :=
          manufacture_of_not_owner (by rw [haddr]; exact hself)
        simpa [hself, hnothing, howner] using hwait

theorem TickOutcome.machine_eq {env : TickEnv} {addr : Ipv4Addr} {machine after : Machine}
    {output : TickOutput} (h : TickOutcome env addr machine after output) :
    ∃ jobs observed, after = { machine with jobs := jobs, observedOwnership := observed } := by
  cases h with
  | created _ => exact ⟨_, machine.observedOwnership, rfl⟩
  | waited _ _ _ => exact ⟨_, _, rfl⟩
  | kept _ _ _ _ _ _ => exact ⟨_, machine.observedOwnership, rfl⟩
  | passed _ _ _ _ _ _ _ => exact ⟨_, _, rfl⟩

/-- A round touches nothing but the copy of the ledger and the observation flag. -/
theorem manageLedger_eq (env : TickEnv) (machine : Machine) :
    ∃ jobs observed,
      (manageLedger env machine).1 = { machine with jobs := jobs, observedOwnership := observed } := by
  cases haddr : env.myAddr with
  | none =>
      rw [manageLedger, haddr]
      exact ⟨machine.jobs, machine.observedOwnership, rfl⟩
  | some addr => exact (manageLedger_outcome haddr machine).machine_eq

/-- A round leaves the address book and the history alone. -/
theorem TickOutcome.frame {env : TickEnv} {addr : Ipv4Addr} {machine after : Machine}
    {output : TickOutput} (h : TickOutcome env addr machine after output) :
    after.addresses = machine.addresses ∧ after.history = machine.history := by
  cases h <;> exact ⟨rfl, rfl⟩

end Derusting
