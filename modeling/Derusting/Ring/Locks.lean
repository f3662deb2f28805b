import Derusting.Ring.Firmware

/-!
# The order of the locks

Everybody takes `addresses` before `jobs`, and all but `manage_ledger` give the first mutex back
before they ask for the second one and hold neither while they wait.  So only a round of
`manage_ledger` that waits for a broadcast keeps the others waiting, and it does not wait for them:
a round that has to broadcast a log and a ledger is over after five pauses of 100 ms.
-/

namespace Derusting

open Foundations.Bounded Foundations.Transition

namespace SendStage

/-- The time that a broadcast still needs at most, if lwIP answers at once. -/
def owed (clock : Instant) : SendStage → ℕ
  | .sending left => 100 * (left + 1)
  | .pausing left wakeAt => 100 * left + (wakeAt - clock)

/-- How often `Message::send` has to be polled until it returns. -/
def polls : SendStage → ℕ
  | .sending left => 2 * left + 2
  | .pausing left _ => 2 * left + 1

variable {clock : Instant} {stage later : SendStage} {answered allocated : Bool}

theorem start_cases {repeats : ℕ} (h : start allocated repeats = some stage) :
    ∃ left, repeats = left + 1 ∧ stage = .sending left := by
  cases repeats with
  | zero => cases h
  | succ left => exact ⟨left, rfl, (Option.some.inj (Option.ite_none_right_eq_some.mp h).2).symm⟩

/-- Polling does not make a broadcast longer. -/
theorem owed_resume (h : stage.resume clock answered allocated = some later) :
    later.owed clock ≤ stage.owed clock ∧ later.polls ≤ stage.polls := by
  cases stage with
  | sending left =>
      rw [resume, Option.some.injEq] at h
      subst h
      cases answered with
      | false => exact ⟨le_rfl, le_rfl⟩
      | true =>
          simp only [owed, polls, if_true]
          omega
  | pausing left wakeAt =>
      by_cases hdue : wakeAt ≤ clock
      · rw [resume, if_pos hdue] at h
        obtain ⟨before, rfl, rfl⟩ := start_cases h
        simp only [owed, polls]
        omega
      · rw [resume, if_neg hdue, Option.some.injEq] at h
        subst h
        exact ⟨le_rfl, le_rfl⟩

/-- The time at which the pause is over. -/
def wakeAt : SendStage → Instant
  | .sending _ => 0
  | .pausing _ wakeAt => wakeAt

theorem polls_pos (stage : SendStage) : 0 < stage.polls := by
  cases stage <;> exact Nat.succ_pos _

/-- A broadcast that is polled with lwIP's answer or at the end of its pause gets on. -/
theorem polls_resume (hdue : stage.wakeAt ≤ clock)
    (h : stage.resume clock true allocated = some later) : later.polls < stage.polls := by
  cases stage with
  | sending left =>
      rw [resume, if_pos rfl, Option.some.injEq] at h
      subst h
      exact Nat.lt_succ_self _
  | pausing left wakeAt =>
      have hdue : wakeAt ≤ clock := hdue
      rw [resume, if_pos hdue] at h
      obtain ⟨before, rfl, rfl⟩ := start_cases h
      exact Nat.lt_succ_self _

/-- The pause is part of the time that is owed. -/
theorem owed_await (stage : SendStage) (clock : Instant) :
    max clock stage.wakeAt + stage.owed (max clock stage.wakeAt) ≤ clock + stage.owed clock := by
  cases stage with
  | sending left =>
      rw [wakeAt, Nat.max_zero]
  | pausing left wakeAt =>
      have hpause : max clock wakeAt = clock + (wakeAt - clock) := add_tsub_eq_max.symm
      calc
        max clock wakeAt + (100 * left + (wakeAt - max clock wakeAt))
            = clock + (wakeAt - clock) + 100 * left := by
          rw [Nat.sub_eq_zero_of_le (le_max_right _ _), hpause, Nat.add_zero]
        _ ≤ clock + (100 * left + (wakeAt - clock)) := by
          rw [Nat.add_assoc, Nat.add_comm (wakeAt - clock)]

theorem owed_mono (stage : SendStage) {other : Instant} (h : clock ≤ other) :
    stage.owed other ≤ stage.owed clock := by
  cases stage with
  | sending left => exact le_rfl
  | pausing left wakeAt => exact Nat.add_le_add_left (Nat.sub_le_sub_left h wakeAt) (100 * left)

end SendStage

/-- `udp_receiver` waits for its second mutex. -/
def ReceiverStage.waitsForJobs : ReceiverStage → Bool
  | .jobs _ => true
  | .receiving | .addresses .. => false

/-- `append_to_ledger` waits for its second mutex. -/
def FilerStage.waitsForJobs : FilerStage → Bool
  | .jobs .. => true
  | .idle | .addresses _ => false

namespace ManagerStage

/-- `manage_ledger` waits for a mutex. -/
def waitsForLock : ManagerStage → Bool
  | .addresses _ | .jobs _ => true
  | .starting _ | .sleeping _ | .logging .. | .broadcasting .. => false

/-- The time that the round under way still needs at most, if lwIP answers at once. -/
def owed (clock : Instant) : ManagerStage → ℕ
  | .logging _ _ stage => stage.owed clock + 300
  | .broadcasting _ _ stage => stage.owed clock
  | .starting _ | .sleeping _ | .addresses _ | .jobs _ => 0

/-- How often `manage_ledger` has to be polled until the round under way is over. -/
def polls : ManagerStage → ℕ
  | .logging _ _ stage => stage.polls + 6
  | .broadcasting _ _ stage => stage.polls
  | .starting _ | .sleeping _ | .addresses _ | .jobs _ => 0

/-- The time at which the pause of a broadcast is over. -/
def wakeAt : ManagerStage → Instant
  | .logging _ _ stage | .broadcasting _ _ stage => stage.wakeAt
  | .starting _ | .sleeping _ | .addresses _ | .jobs _ => 0

variable {manager : ManagerStage}

/-- In a round `manage_ledger` waits for a broadcast. -/
theorem cases_of_midRound (h : manager.midRound = true) :
    (∃ myAddr text stage, manager = .logging myAddr text stage) ∨
      ∃ ledger passing stage, manager = .broadcasting ledger passing stage := by
  cases manager with
  | logging myAddr text stage => exact .inl ⟨myAddr, text, stage, rfl⟩
  | broadcasting ledger passing stage => exact .inr ⟨ledger, passing, stage, rfl⟩
  | starting _ => cases h
  | sleeping _ => cases h
  | addresses _ => cases h
  | jobs _ => cases h

/-- The pause is part of the time that the round needs. -/
theorem owed_await (manager : ManagerStage) (clock : Instant) :
    max clock manager.wakeAt + manager.owed (max clock manager.wakeAt) ≤
      clock + manager.owed clock := by
  cases manager with
  | logging myAddr text stage =>
      rw [owed, owed, ← Nat.add_assoc, ← Nat.add_assoc]
      exact Nat.add_le_add_right (stage.owed_await clock) 300
  | broadcasting ledger passing stage => exact stage.owed_await clock
  | starting _ => exact (Nat.max_zero clock).le
  | sleeping _ => exact (Nat.max_zero clock).le
  | addresses _ => exact (Nat.max_zero clock).le
  | jobs _ => exact (Nat.max_zero clock).le

theorem owed_mono (manager : ManagerStage) {clock other : Instant} (h : clock ≤ other) :
    manager.owed other ≤ manager.owed clock := by
  cases manager with
  | logging myAddr text stage => exact Nat.add_le_add_right (stage.owed_mono h) 300
  | broadcasting ledger passing stage => exact stage.owed_mono h
  | starting _ => exact le_rfl
  | sleeping _ => exact le_rfl
  | addresses _ => exact le_rfl
  | jobs _ => exact le_rfl

end ManagerStage

namespace Firmware

/-- Both mutexes are locked exactly during a round; nobody waits for the second one, and
`manage_ledger` for none of them; and the round is over soon. -/
structure Orderly (firmware : Firmware) : Prop where
  addressesLocked : firmware.addressesLocked = firmware.manager.midRound
  jobsLocked : firmware.jobsLocked = firmware.manager.midRound
  receiver : firmware.receiver.waitsForJobs = false
  filer : firmware.filer.waitsForJobs = false
  manager : firmware.manager.waitsForLock = false
  owed : firmware.manager.owed firmware.machine.clock ≤ 500
  polls : firmware.manager.polls ≤ 10

/-- `manage_ledger` runs with both guards. -/
structure Holding (firmware : Firmware) : Prop where
  addressesLocked : firmware.addressesLocked = true
  jobsLocked : firmware.jobsLocked = true
  receiver : firmware.receiver.waitsForJobs = false
  filer : firmware.filer.waitsForJobs = false

variable {addr : Ipv4Addr} {firmware after : Firmware}

/-! Between rounds a task runs through. -/

section Free

variable (haddresses : firmware.addressesLocked = false) (hjobs : firmware.jobsLocked = false)

/-- What `udp_receiver` does with a message once it has noted its key. -/
def noted (sender : Ipv4Addr) (message : Message) (machine : Machine) : Machine :=
  let machine := { machine with addresses := machine.addresses.insert sender machine.clock }
  match message.payload with
  | .newJob guid =>
      { machine with jobs := machine.jobs.map fun state ↦
          { state with ledger := { state.ledger with jobs := state.ledger.jobs.insert guid } } }
  | .ledger ledger => { machine with jobs := some (.new ledger machine.clock) }
  | .heartbeat _ | .log _ => machine

include haddresses hjobs

theorem receiveAddresses_of_free (sender : Ipv4Addr) (message : Message) :
    receiveAddresses sender message firmware =
      { firmware with
        machine := noted sender message firmware.machine
        receiver := .receiving } := by
  cases hpayload : message.payload <;>
    simp [receiveAddresses, receiveJobs, noted, haddresses, hjobs, hpayload]

theorem fileAddresses_of_free (guid : Uuid) (myAddr : Option Ipv4Addr) :
    fileAddresses guid myAddr firmware =
      { firmware with
        machine := (appendToLedger myAddr guid firmware.machine).1
        filer := .idle
        broadcast := firmware.broadcast ++
          (appendToLedger myAddr guid firmware.machine).2.toList } := by
  cases hcopy : firmware.machine.jobs with
  | none =>
      cases hempty : firmware.machine.addresses.isEmpty <;>
        simp [fileAddresses, fileJobs, appendToLedger, haddresses, hjobs, hcopy, hempty]
  | some state =>
      cases myAddr with
      | none =>
          cases hempty : firmware.machine.addresses.isEmpty <;>
            simp [fileAddresses, fileJobs, appendToLedger, haddresses, hjobs, hcopy, hempty]
      | some addr =>
          by_cases howner : addr = state.ledger.owner <;>
            cases hempty : firmware.machine.addresses.isEmpty <;>
              simp [fileAddresses, fileJobs, appendToLedger, haddresses, hjobs, hcopy, hempty,
                howner]

end Free

/-! In a round `manage_ledger` keeps both guards until it is over. -/

theorem Holding.of_eq (h : firmware.Holding)
    (haddresses : after.addressesLocked = firmware.addressesLocked)
    (hjobs : after.jobsLocked = firmware.jobsLocked)
    (hreceiver : after.receiver = firmware.receiver) (hfiler : after.filer = firmware.filer) :
    after.Holding where
  addressesLocked := haddresses.trans h.addressesLocked
  jobsLocked := hjobs.trans h.jobsLocked
  receiver := by rw [hreceiver, h.receiver]
  filer := by rw [hfiler, h.filer]

theorem Holding.endRound (h : firmware.Holding) : firmware.endRound.Orderly where
  addressesLocked := rfl
  jobsLocked := rfl
  receiver := h.receiver
  filer := h.filer
  manager := rfl
  owed := Nat.zero_le _
  polls := Nat.zero_le _

theorem Holding.sendLedger (h : firmware.Holding) (ledger : Ledger) (passing : Bool)
    (allocated : Payload → Bool) : (sendLedger ledger passing allocated firmware).Orderly := by
  simp only [Firmware.sendLedger]
  cases hstart : SendStage.start (allocated (.ledger ledger)) 3 with
  | none =>
      apply Holding.endRound
      exact h.of_eq rfl rfl rfl rfl
  | some stage =>
      obtain ⟨left, hleft, rfl⟩ := SendStage.start_cases hstart
      obtain rfl : left = 2 := (Nat.succ.inj hleft).symm
      exact ⟨h.addressesLocked, h.jobsLocked, h.receiver, h.filer, rfl,
        (by decide : 100 * (2 + 1) ≤ 500), (by decide : 2 * 2 + 2 ≤ 10)⟩

theorem Holding.pass (h : firmware.Holding) (myAddr : Ipv4Addr) (now : Option Ipv4Addr)
    (allocated : Payload → Bool) : (pass myAddr now allocated firmware).Orderly := by
  rw [Firmware.pass]
  split
  · apply Holding.sendLedger
    exact h.of_eq rfl rfl rfl rfl
  · apply Holding.endRound
    exact h.of_eq rfl rfl rfl rfl

theorem Holding.sendLog (h : firmware.Holding) (myAddr : Ipv4Addr) (now : Option Ipv4Addr)
    (text : List Char) (allocated : Payload → Bool) :
    (sendLog myAddr now text allocated firmware).Orderly := by
  simp only [Firmware.sendLog]
  cases hstart : SendStage.start (allocated (.log text)) 2 with
  | none =>
      apply Holding.pass
      exact h.of_eq rfl rfl rfl rfl
  | some stage =>
      obtain ⟨left, hleft, rfl⟩ := SendStage.start_cases hstart
      obtain rfl : left = 1 := (Nat.succ.inj hleft).symm
      exact ⟨h.addressesLocked, h.jobsLocked, h.receiver, h.filer, rfl,
        (by decide : 100 * (1 + 1) + 300 ≤ 500), (by decide : 2 * 1 + 2 + 6 ≤ 10)⟩

theorem Holding.round (h : firmware.Holding) (myAddr : Ipv4Addr) (env : TickEnv)
    (allocated : Payload → Bool) : (round myAddr env allocated firmware).Orderly := by
  rw [Firmware.round]
  split
  · apply Holding.endRound
    exact h.of_eq rfl rfl rfl rfl
  · apply Holding.sendLedger
    exact h.of_eq rfl rfl rfl rfl
  · apply Holding.sendLog
    exact h.of_eq rfl rfl rfl rfl
  · apply Holding.pass
    exact h.of_eq rfl rfl rfl rfl

theorem Orderly.holding (h : firmware.Orderly) (hmid : firmware.manager.midRound = true) :
    firmware.Holding :=
  ⟨h.addressesLocked.trans hmid, h.jobsLocked.trans hmid, h.receiver, h.filer⟩

/-- Nothing but the manager's stage and the clock decides how long a round lasts. -/
theorem Orderly.of_eq (h : firmware.Orderly)
    (haddresses : after.addressesLocked = firmware.addressesLocked)
    (hjobs : after.jobsLocked = firmware.jobsLocked) (hmanager : after.manager = firmware.manager)
    (hclock : firmware.machine.clock ≤ after.machine.clock)
    (hreceiver : after.receiver.waitsForJobs = false) (hfiler : after.filer.waitsForJobs = false) :
    after.Orderly where
  addressesLocked := by rw [haddresses, hmanager, h.addressesLocked]
  jobsLocked := by rw [hjobs, hmanager, h.jobsLocked]
  receiver := hreceiver
  filer := hfiler
  manager := by rw [hmanager, h.manager]
  owed := by
    rw [hmanager]
    exact (firmware.manager.owed_mono hclock).trans h.owed
  polls := by rw [hmanager]; exact h.polls

theorem clock_noted (sender : Ipv4Addr) (message : Message) (machine : Machine) :
    (noted sender message machine).clock = machine.clock := by
  cases hpayload : message.payload <;> simp [noted, hpayload]

theorem clock_appendToLedger (myAddr : Option Ipv4Addr) (guid : Uuid) (machine : Machine) :
    (appendToLedger myAddr guid machine).1.clock = machine.clock := by
  obtain ⟨jobs, hjobs⟩ := appendToLedger_eq myAddr guid machine
  rw [hjobs]

theorem Orderly.receiveAddresses (h : firmware.Orderly) (sender : Ipv4Addr) (message : Message) :
    (receiveAddresses sender message firmware).Orderly := by
  cases hmid : firmware.manager.midRound with
  | true =>
      rw [Firmware.receiveAddresses, if_pos (h.addressesLocked.trans hmid)]
      exact h.of_eq rfl rfl rfl le_rfl rfl h.filer
  | false =>
      rw [receiveAddresses_of_free (h.addressesLocked.trans hmid) (h.jobsLocked.trans hmid)]
      exact h.of_eq rfl rfl rfl (clock_noted _ _ _).ge rfl h.filer

theorem Orderly.fileAddresses (h : firmware.Orderly) (guid : Uuid) (myAddr : Option Ipv4Addr) :
    (fileAddresses guid myAddr firmware).Orderly := by
  cases hmid : firmware.manager.midRound with
  | true =>
      rw [Firmware.fileAddresses, if_pos (h.addressesLocked.trans hmid)]
      exact h.of_eq rfl rfl rfl le_rfl h.receiver rfl
  | false =>
      rw [fileAddresses_of_free (h.addressesLocked.trans hmid) (h.jobsLocked.trans hmid)]
      exact h.of_eq rfl rfl rfl (clock_appendToLedger _ _ _).ge h.receiver rfl

theorem Orderly.checkAddresses (h : firmware.Orderly) : firmware.checkAddresses.Orderly := by
  rw [Firmware.checkAddresses]
  split <;> exact h.of_eq rfl rfl rfl le_rfl h.receiver h.filer

theorem Orderly.putNext (h : firmware.Orderly) (guid : Uuid) (targets : List Ipv4Addr) :
    (putNext guid targets firmware).Orderly := by
  cases targets <;> exact h.of_eq rfl rfl rfl le_rfl h.receiver h.filer

theorem Orderly.distributeAddresses (h : firmware.Orderly) (guid : Uuid) :
    (distributeAddresses guid firmware).Orderly := by
  rw [Firmware.distributeAddresses]
  split
  · exact h.of_eq rfl rfl rfl le_rfl h.receiver h.filer
  · exact h.putNext guid _

/-- Between rounds `manage_ledger` takes both mutexes at once. -/
theorem manageAddresses_of_free (haddresses : firmware.addressesLocked = false)
    (hjobs : firmware.jobsLocked = false) (myAddr : Ipv4Addr) (env : TickEnv)
    (allocated : Payload → Bool) :
    manageAddresses myAddr env allocated firmware =
      round myAddr env allocated
        { firmware with addressesLocked := true, jobsLocked := true } := by
  simp [manageAddresses, manageJobs, haddresses, hjobs]

theorem Orderly.manage (h : firmware.Orderly) (env : TickEnv) (answered : Bool)
    (allocated : Payload → Bool) : (manage env answered allocated firmware).Orderly := by
  have hasleep (wakeAt : Instant) (hfree : firmware.manager.midRound = false) :
      Orderly { firmware with manager := .sleeping wakeAt } :=
    ⟨h.addressesLocked.trans hfree, h.jobsLocked.trans hfree, h.receiver, h.filer, rfl,
      Nat.zero_le _, Nat.zero_le _⟩
  cases hmanager : firmware.manager with
  | starting wakeAt =>
      simp only [Firmware.manage, hmanager]
      split
      · exact hasleep _ (by rw [hmanager]; rfl)
      · exact h
  | sleeping wakeAt =>
      have hfree : firmware.manager.midRound = false := by rw [hmanager]; rfl
      simp only [Firmware.manage, hmanager]
      split
      · cases env.myAddr with
        | none => exact hasleep _ hfree
        | some myAddr =>
            simp only
            rw [manageAddresses_of_free (h.addressesLocked.trans hfree)
              (h.jobsLocked.trans hfree)]
            apply Holding.round
            exact ⟨rfl, rfl, h.receiver, h.filer⟩
      · exact h
  | addresses myAddr =>
      have hwaits := h.manager
      rw [hmanager] at hwaits
      cases hwaits
  | jobs myAddr =>
      have hwaits := h.manager
      rw [hmanager] at hwaits
      cases hwaits
  | logging myAddr text stage =>
      have hholding := h.holding (by rw [hmanager]; rfl)
      simp only [Firmware.manage, hmanager]
      cases hresume : stage.resume firmware.machine.clock answered (allocated (.log text)) with
      | none => exact hholding.pass _ _ _
      | some later =>
          obtain ⟨howed, hpolls⟩ := SendStage.owed_resume hresume
          have howed' := h.owed
          have hpolls' := h.polls
          rw [hmanager] at howed' hpolls'
          exact ⟨hholding.addressesLocked, hholding.jobsLocked, h.receiver, h.filer, rfl,
            (Nat.add_le_add_right howed 300).trans howed',
            (Nat.add_le_add_right hpolls 6).trans hpolls'⟩
  | broadcasting ledger passing stage =>
      have hholding := h.holding (by rw [hmanager]; rfl)
      simp only [Firmware.manage, hmanager]
      cases hresume : stage.resume firmware.machine.clock answered (allocated (.ledger ledger)) with
      | none =>
          apply Holding.endRound
          exact hholding.of_eq rfl rfl rfl rfl
      | some later =>
          obtain ⟨howed, hpolls⟩ := SendStage.owed_resume hresume
          have howed' := h.owed
          have hpolls' := h.polls
          rw [hmanager] at howed' hpolls'
          exact ⟨hholding.addressesLocked, hholding.jobsLocked, h.receiver, h.filer, rfl,
            howed.trans howed', hpolls.trans hpolls'⟩

theorem orderly_boot : boot.Orderly :=
  ⟨rfl, rfl, rfl, rfl, rfl, by decide, by decide⟩

theorem Orderly.step (h : firmware.Orderly) {event : TaskEvent}
    (hstep : firmware.step addr event = some after) : after.Orderly := by
  cases steps_of_step hstep with
  | @received sender message _ _ =>
      rw [receive]
      split
      · exact h
      · apply Orderly.receiveAddresses
        exact h.of_eq rfl rfl rfl le_rfl h.receiver h.filer
  | noted _ => exact h.receiveAddresses _ _
  | adopted hstage =>
      have hwaits := h.receiver
      rw [hstage] at hwaits
      cases hwaits
  | filed _ _ => exact h.fileAddresses _ _
  | filedLate hstage =>
      have hwaits := h.filer
      rw [hstage] at hwaits
      cases hwaits
  | checked => exact h.checkAddresses
  | distributed => exact h.distributeAddresses _
  | put _ => exact h.putNext _ _
  | managed _ => exact h.manage _ _ _
  | elapsed => exact h.of_eq rfl rfl rfl (Nat.le_add_right _ _) h.receiver h.filer

theorem Orderly.reaches {guard : Firmware → TaskEvent → Prop} (h : firmware.Orderly)
    (hreach : Reaches (Firmware.step addr) guard firmware after) : after.Orderly :=
  hreach.invariant Orderly h fun _ _ _ hbefore _ hstep ↦ hbefore.step hstep

theorem Orderly.of_reaches (h : Reaches (Firmware.step addr) Unrestricted boot firmware) :
    firmware.Orderly :=
  orderly_boot.reaches h

/-! ## A round is over soon -/

/-- Wait for the end of the pause. -/
def await (firmware : Firmware) : Firmware :=
  { firmware with machine := { firmware.machine with
      clock := max firmware.machine.clock firmware.manager.wakeAt } }

/-- Wait for the end of the pause, or for lwIP, and poll `manage_ledger`; what it then finds may
depend on the state. -/
def attend (finds : Firmware → TickEnv × (Payload → Bool)) (firmware : Firmware) : Firmware :=
  manage (finds firmware).1 true (finds firmware).2 firmware.await

/-- Time passes and `manage_ledger` goes on, and nothing else does. -/
def Attending (_ : Firmware) : TaskEvent → Prop
  | .pollManager .. | .elapse _ => True
  | .arrive .. | .upload .. | .distribute _ | .pollReceiver | .pollFiler _ | .pollChecker
  | .pollDistributor => False

theorem reaches_attend {finds : Firmware → TickEnv × (Payload → Bool)}
    (hknown : KnownAs addr (finds firmware).1.myAddr) :
    Reaches (step addr) Attending firmware (attend finds firmware) := by
  have hawait : firmware.step addr (.elapse (firmware.manager.wakeAt - firmware.machine.clock)) =
      some firmware.await := by
    rw [step, add_tsub_eq_max, await]
  have hpoll : firmware.await.step addr (.pollManager (finds firmware).1 true (finds firmware).2) =
      some (attend finds firmware) := by
    rw [step, if_pos hknown, attend]
  have hpolled : firmware.await.Attending
      (.pollManager (finds firmware).1 true (finds firmware).2) := trivial
  exact (Reaches.refl.tail trivial hawait).tail hpolled hpoll

theorem clock_passOn (myAddr : Ipv4Addr) (now : Option Ipv4Addr) (machine : Machine) :
    (passOn myAddr now machine).1.clock = machine.clock := by
  unfold passOn
  split
  · rfl
  · split
    · split <;> rfl
    · rfl

/-- A ledger is broadcast within 300 ms. -/
theorem sendLedger_owed (ledger : Ledger) (passing : Bool) (allocated : Payload → Bool)
    (firmware : Firmware) :
    let later := sendLedger ledger passing allocated firmware
    later.machine.clock = firmware.machine.clock ∧ later.manager.owed later.machine.clock ≤ 300 ∧
      later.manager.polls ≤ 6 := by
  simp only [sendLedger]
  cases hstart : SendStage.start (allocated (.ledger ledger)) 3 with
  | none => exact ⟨rfl, Nat.zero_le _, Nat.zero_le _⟩
  | some stage =>
      obtain ⟨left, hleft, rfl⟩ := SendStage.start_cases hstart
      obtain rfl : left = 2 := (Nat.succ.inj hleft).symm
      exact ⟨rfl, (by decide : 100 * (2 + 1) ≤ 300), (by decide : 2 * 2 + 2 ≤ 6)⟩

theorem pass_owed (myAddr : Ipv4Addr) (now : Option Ipv4Addr) (allocated : Payload → Bool)
    (firmware : Firmware) :
    let later := pass myAddr now allocated firmware
    later.machine.clock = firmware.machine.clock ∧ later.manager.owed later.machine.clock ≤ 300 ∧
      later.manager.polls ≤ 6 := by
  have hclock := clock_passOn myAddr now firmware.machine
  simp only [pass]
  split
  next machine ledger passing hpassed =>
    rw [hpassed] at hclock
    obtain ⟨hkept, howed⟩ := sendLedger_owed ledger passing allocated
      { firmware with machine := machine }
    exact ⟨hkept.trans hclock, howed⟩
  next machine hpassed =>
    rw [hpassed] at hclock
    exact ⟨hclock, Nat.zero_le _, Nat.zero_le _⟩

/-- Polled at the end of a pause, or with lwIP's answer, a round gets on. -/
theorem manage_owed (hmid : firmware.manager.midRound = true)
    (hdue : firmware.manager.wakeAt ≤ firmware.machine.clock) (env : TickEnv)
    (allocated : Payload → Bool) :
    let later := manage env true allocated firmware
    later.machine.clock = firmware.machine.clock ∧
      later.manager.owed later.machine.clock ≤
        firmware.manager.owed firmware.machine.clock ∧
      later.manager.polls < firmware.manager.polls := by
  rcases ManagerStage.cases_of_midRound hmid with
    ⟨myAddr, text, stage, hmanager⟩ | ⟨ledger, passing, stage, hmanager⟩
  · rw [hmanager] at hdue
    simp only [manage, hmanager]
    cases hresume : stage.resume firmware.machine.clock true (allocated (.log text)) with
    | none =>
        obtain ⟨hkept, howed, hpolls⟩ := pass_owed myAddr env.myAddr allocated firmware
        exact ⟨hkept, howed.trans (Nat.le_add_left _ _),
          hpolls.trans_lt (Nat.lt_add_of_pos_left stage.polls_pos)⟩
    | some later =>
        exact ⟨rfl, Nat.add_le_add_right (SendStage.owed_resume hresume).1 300,
          Nat.add_lt_add_right (SendStage.polls_resume hdue hresume) 6⟩
  · rw [hmanager] at hdue
    simp only [manage, hmanager]
    cases hresume : stage.resume firmware.machine.clock true (allocated (.ledger ledger)) with
    | none => exact ⟨rfl, Nat.zero_le _, stage.polls_pos⟩
    | some later =>
        exact ⟨rfl, (SendStage.owed_resume hresume).1, SendStage.polls_resume hdue hresume⟩

/-- A round that is attended to gets on, and in time. -/
theorem attend_owed (finds : Firmware → TickEnv × (Payload → Bool))
    (hmid : firmware.manager.midRound = true) :
    let later := attend finds firmware
    later.machine.clock + later.manager.owed later.machine.clock ≤
        firmware.machine.clock + firmware.manager.owed firmware.machine.clock ∧
      later.manager.polls < firmware.manager.polls := by
  have hdue : firmware.await.manager.wakeAt ≤ firmware.await.machine.clock := le_max_right _ _
  obtain ⟨hclock, howed, hpolls⟩ := @manage_owed firmware.await hmid hdue (finds firmware).1
    (finds firmware).2
  have htime := firmware.manager.owed_await firmware.machine.clock
  exact ⟨(Nat.add_le_add hclock.le howed).trans htime, hpolls⟩

/-- Whatever the round finds, it is over before long. -/
theorem exists_free {finds : Firmware → TickEnv × (Payload → Bool)}
    (hknown : ∀ firmware, KnownAs addr (finds firmware).1.myAddr) (firmware : Firmware) :
    ∃ count ≤ firmware.manager.polls,
      Reaches (step addr) Attending firmware ((attend finds)^[count] firmware) ∧
      ((attend finds)^[count] firmware).manager.midRound = false ∧
      ((attend finds)^[count] firmware).machine.clock ≤
        firmware.machine.clock + firmware.manager.owed firmware.machine.clock := by
  induction hcount : firmware.manager.polls using Nat.strong_induction_on generalizing firmware with
  | _ polls ih =>
      cases hmid : firmware.manager.midRound with
      | false => exact ⟨0, Nat.zero_le _, .refl, hmid, Nat.le_add_right _ _⟩
      | true =>
          obtain ⟨htime, hpolls⟩ := attend_owed finds hmid
          obtain ⟨count, hle, hreach, hfree, hclock⟩ := ih _ (hcount ▸ hpolls) _ rfl
          refine ⟨count + 1, ?_, ?_, ?_, ?_⟩
          · exact hle.trans_lt (hcount ▸ hpolls)
          · exact (reaches_attend (hknown firmware)).trans hreach
          · exact hfree
          · exact hclock.trans htime

/-- In every run of the tasks: both mutexes are locked exactly while a round of `manage_ledger`
waits for a broadcast, so nobody waits for `jobs`, and `manage_ledger` for no mutex; and whatever
lwIP, Marlin and the interface then say, the round gives both of them back within ten polls and
500 ms, if lwIP answers. -/
theorem locks_given_back (h : Reaches (step addr) Unrestricted boot firmware)
    (finds : Firmware → TickEnv × (Payload → Bool))
    (hknown : ∀ firmware, KnownAs addr (finds firmware).1.myAddr) :
    (firmware.addressesLocked = firmware.manager.midRound ∧
      firmware.jobsLocked = firmware.manager.midRound) ∧
    (firmware.receiver.waitsForJobs = false ∧ firmware.filer.waitsForJobs = false ∧
      firmware.manager.waitsForLock = false) ∧
    ∃ count ≤ 10, let later := (attend finds)^[count] firmware
      Reaches (step addr) Unrestricted boot later ∧ later.addressesLocked = false ∧
        later.jobsLocked = false ∧ later.machine.clock ≤ firmware.machine.clock + 500 := by
  have horderly := Orderly.of_reaches h
  refine ⟨⟨horderly.addressesLocked, horderly.jobsLocked⟩,
    ⟨horderly.receiver, horderly.filer, horderly.manager⟩, ?_⟩
  obtain ⟨count, hcount, hreach, hfree, hclock⟩ := exists_free hknown firmware
  have hlater : Reaches (step addr) Unrestricted boot ((attend finds)^[count] firmware) :=
    h.trans (hreach.mono fun _ _ _ ↦ trivial)
  have hafter := Orderly.of_reaches hlater
  exact ⟨count, hcount.trans horderly.polls, hlater, hafter.addressesLocked.trans hfree,
    hafter.jobsLocked.trans hfree, hclock.trans (Nat.add_le_add_left horderly.owed _)⟩

/-- `alpha` creates a ledger. While it tells everybody, a heartbeat arrives and a job is uploaded;
both wait for the end of the round. -/
def crowdedRound : List TaskEvent :=
  let manager := .pollManager (System.printer System.alpha true) true fun _ ↦ true
  [.elapse 20000, manager, .elapse 5000, manager,
    .arrive System.beta ⟨⟨1⟩, .heartbeat true⟩, .upload ⟨7⟩ (some System.alpha),
    manager, .elapse 100, manager, manager, .elapse 100, manager, manager, .elapse 100, manager,
    .pollFiler (some System.alpha), .pollReceiver]

/-- In the middle of that round both mutexes are locked. -/
theorem locks_given_back_crowdedRound :
    ∃ firmware count, Firmware.addressesLocked firmware = true ∧
      ((attend fun _ ↦ (System.printer System.alpha true, fun _ ↦ true))^[count]
        firmware).addressesLocked = false := by
  obtain ⟨firmware, hreach, hlocked⟩ := exists_reaches_of_runIf (step System.alpha) Unrestricted
    boot (crowdedRound.take 7) (fun firmware ↦ firmware.addressesLocked = true) (by decide +kernel)
  obtain ⟨-, -, count, -, -, hfree, -⟩ := locks_given_back hreach
    (fun _ ↦ (System.printer System.alpha true, fun _ ↦ true)) (fun _ ↦ .inr rfl)
  exact ⟨firmware, count, hlocked, hfree⟩

end Firmware

end Derusting
