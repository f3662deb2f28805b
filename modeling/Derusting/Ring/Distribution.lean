import Derusting.Ring.Interleaving

/-!
# Every machine in the book is put the file

`distribute_file` copies the address book when it gets hold of its mutex and puts the file to one
machine of its copy after another.  Meanwhile the other tasks add machines to the book and remove
them, and more guids wait in the channel.  A `Courier` records the guids that have got into the
channel and the copies that the task has made.
-/

namespace Derusting

open Foundations.Transition

/-- What is left to put of a copy of the book. -/
def DistributorStage.left : DistributorStage → List (Uuid × Ipv4Addr)
  | .putting guid targets => targets.map (Prod.mk guid)
  | .receiving | .addresses _ => []

/-- The guid that waits for a copy of the book. -/
def DistributorStage.waiting : DistributorStage → Option Uuid
  | .addresses guid => some guid
  | .receiving | .putting .. => none

/-- The guid that `distribute_file` takes from its channel. -/
def TaskEvent.taken : TaskEvent → Option Uuid
  | .distribute guid => some guid
  | .arrive .. | .upload .. | .pollReceiver | .pollFiler _ | .pollChecker | .pollDistributor
  | .pollManager .. | .elapse _ => none

namespace Firmware

/-- The guid for which a step of the tasks copies the book. -/
def copiesFor (firmware : Firmware) (event : TaskEvent) : Option Uuid :=
  if firmware.addressesLocked then none
  else
    match event with
    | .distribute guid => some guid
    | .pollDistributor => firmware.distributor.waiting
    | .arrive .. | .upload .. | .pollReceiver | .pollFiler _ | .pollChecker | .pollManager ..
    | .elapse _ => none

variable {addr : Ipv4Addr} {firmware after : Firmware} {guid : Uuid} {event : TaskEvent}

/-! ## What the other tasks leave alone -/

/-- What every task but `distribute_file` leaves alone. -/
structure LeavesFiles (firmware after : Firmware) : Prop where
  distributor : after.distributor = firmware.distributor
  puts : after.puts = firmware.puts
  channel : after.machine.filesToDistribute = firmware.machine.filesToDistribute

theorem Received.leavesFiles (h : Received firmware after) : LeavesFiles firmware after :=
  ⟨h.distributor, h.puts, h.channel⟩

theorem Managed.leavesFiles (h : Managed addr firmware after) : LeavesFiles firmware after :=
  ⟨h.distributor, h.puts, h.channel⟩

theorem leavesFiles_fileJobs (guid : Uuid) (addressBookIsEmpty : Bool) (myAddr : Option Ipv4Addr)
    (firmware : Firmware) :
    LeavesFiles firmware (fileJobs guid addressBookIsEmpty myAddr firmware) := by
  unfold fileJobs
  split
  · exact ⟨rfl, rfl, rfl⟩
  · refine ⟨rfl, rfl, ?_⟩
    cases hjobs : firmware.machine.jobs with
    | none => rfl
    | some state =>
        cases myAddr with
        | none => rfl
        | some addr =>
            dsimp only
            split <;> rfl

theorem leavesFiles_fileAddresses (guid : Uuid) (myAddr : Option Ipv4Addr) (firmware : Firmware) :
    LeavesFiles firmware (fileAddresses guid myAddr firmware) := by
  unfold fileAddresses
  split
  · exact ⟨rfl, rfl, rfl⟩
  · exact leavesFiles_fileJobs guid _ myAddr firmware

theorem leavesFiles_checkAddresses (firmware : Firmware) :
    LeavesFiles firmware firmware.checkAddresses := by
  unfold checkAddresses
  split <;> exact ⟨rfl, rfl, rfl⟩

theorem leavesFiles_manageJobs (myAddr : Ipv4Addr) (env : TickEnv) (allocated : Payload → Bool)
    (firmware : Firmware) : LeavesFiles firmware (manageJobs myAddr env allocated firmware) := by
  unfold manageJobs
  split
  · exact ⟨rfl, rfl, rfl⟩
  · have hround := managed_round myAddr env allocated { firmware with jobsLocked := true }
    exact ⟨hround.distributor, hround.puts, hround.channel⟩

theorem leavesFiles_manageAddresses (myAddr : Ipv4Addr) (env : TickEnv)
    (allocated : Payload → Bool) (firmware : Firmware) :
    LeavesFiles firmware (manageAddresses myAddr env allocated firmware) := by
  unfold manageAddresses
  split
  · exact ⟨rfl, rfl, rfl⟩
  · have hjobs :=
      leavesFiles_manageJobs myAddr env allocated { firmware with addressesLocked := true }
    exact ⟨hjobs.distributor, hjobs.puts, hjobs.channel⟩

theorem leavesFiles_manage (env : TickEnv) (answered : Bool) (allocated : Payload → Bool)
    (firmware : Firmware) : LeavesFiles firmware (manage env answered allocated firmware) := by
  cases hmanager : firmware.manager with
  | starting wakeAt =>
      simp only [manage, hmanager]
      split <;> exact ⟨rfl, rfl, rfl⟩
  | sleeping wakeAt =>
      simp only [manage, hmanager]
      split
      · cases env.myAddr with
        | none => exact ⟨rfl, rfl, rfl⟩
        | some myAddr => exact leavesFiles_manageAddresses myAddr env allocated firmware
      · exact ⟨rfl, rfl, rfl⟩
  | addresses myAddr =>
      simp only [manage, hmanager]
      exact leavesFiles_manageAddresses myAddr env allocated firmware
  | jobs myAddr =>
      simp only [manage, hmanager]
      exact leavesFiles_manageJobs myAddr env allocated firmware
  | logging myAddr text stage =>
      simp only [manage, hmanager]
      split
      · exact ⟨rfl, rfl, rfl⟩
      · exact (managed_pass myAddr myAddr env.myAddr allocated firmware).leavesFiles
  | broadcasting ledger passing stage =>
      simp only [manage, hmanager]
      split <;> exact ⟨rfl, rfl, rfl⟩

theorem leavesFiles_of_step (hstep : firmware.step addr event = some after)
    (htaken : event.taken = none) (hpoll : event ≠ .pollDistributor) :
    LeavesFiles firmware after := by
  cases event with
  | distribute file => cases htaken
  | pollDistributor => exact absurd rfl hpoll
  | arrive sender message =>
      cases hstage : firmware.receiver with
      | receiving =>
          simp only [step, hstage] at hstep
          obtain ⟨-, hsome⟩ := Option.ite_none_left_eq_some.mp hstep
          obtain rfl := Option.some.inj hsome
          exact (received_receive sender message firmware).leavesFiles
      | addresses source waiting => simp [step, hstage] at hstep
      | jobs waiting => simp [step, hstage] at hstep
  | pollReceiver =>
      cases hstage : firmware.receiver with
      | receiving => simp [step, hstage] at hstep
      | addresses sender message =>
          simp only [step, hstage] at hstep
          obtain rfl := Option.some.inj hstep
          exact (received_receiveAddresses sender message firmware).leavesFiles
      | jobs message =>
          simp only [step, hstage] at hstep
          obtain rfl := Option.some.inj hstep
          exact (received_receiveJobs message firmware).leavesFiles
  | upload guid myAddr =>
      cases hstage : firmware.filer with
      | idle =>
          simp only [step, hstage] at hstep
          obtain ⟨-, hsome⟩ := Option.ite_none_right_eq_some.mp hstep
          obtain rfl := Option.some.inj hsome
          exact leavesFiles_fileAddresses guid myAddr firmware
      | addresses waiting => simp [step, hstage] at hstep
      | jobs waiting addressBookIsEmpty => simp [step, hstage] at hstep
  | pollFiler myAddr =>
      obtain ⟨-, hpolled⟩ := Option.ite_none_right_eq_some.mp hstep
      cases hstage : firmware.filer with
      | idle => simp [hstage] at hpolled
      | addresses guid =>
          simp only [hstage] at hpolled
          obtain rfl := Option.some.inj hpolled
          exact leavesFiles_fileAddresses guid myAddr firmware
      | jobs guid addressBookIsEmpty =>
          simp only [hstage] at hpolled
          obtain rfl := Option.some.inj hpolled
          exact leavesFiles_fileJobs guid addressBookIsEmpty myAddr firmware
  | pollChecker =>
      have hchecked := leavesFiles_checkAddresses firmware
      cases hstage : firmware.checker with
      | sleeping wakeAt =>
          simp only [step, hstage] at hstep
          obtain ⟨-, hsome⟩ := Option.ite_none_right_eq_some.mp hstep
          obtain rfl := Option.some.inj hsome
          exact hchecked
      | addresses =>
          simp only [step, hstage] at hstep
          obtain rfl := Option.some.inj hstep
          exact hchecked
  | pollManager env answered allocated =>
      obtain ⟨-, hsome⟩ := Option.ite_none_right_eq_some.mp hstep
      obtain rfl := Option.some.inj hsome
      exact leavesFiles_manage env answered allocated firmware
  | elapse ticks =>
      obtain rfl := Option.some.inj hstep
      exact ⟨rfl, rfl, rfl⟩

theorem copiesFor_of_other (htaken : event.taken = none) (hpoll : event ≠ .pollDistributor) :
    firmware.copiesFor event = none := by
  cases event with
  | distribute file => cases htaken
  | pollDistributor => exact absurd rfl hpoll
  | arrive _ _ | upload _ _ | pollReceiver | pollFiler _ | pollChecker | pollManager _ _ _
  | elapse _ => exact ite_self none

/-! ## What a step adds to the files -/

/-- A copy of the book adds its machines to those that the file is put to, and ends the wait of the
guid that it was made for. -/
structure Advances (event : TaskEvent) (firmware after : Firmware) : Prop where
  puts : after.puts ++ after.distributor.left =
    firmware.puts ++ firmware.distributor.left ++
      (firmware.copiesFor event).toList.flatMap fun guid ↦
        firmware.machine.addresses.keys.map (Prod.mk guid)
  waiting : (firmware.copiesFor event).toList ++ after.distributor.waiting.toList =
    firmware.distributor.waiting.toList ++ event.taken.toList
  channel : after.machine.filesToDistribute = firmware.machine.filesToDistribute

theorem LeavesFiles.advances (h : LeavesFiles firmware after)
    (hcopies : firmware.copiesFor event = none) (htaken : event.taken = none) :
    Advances event firmware after where
  puts := by simp [h.puts, h.distributor, hcopies]
  waiting := by simp [h.distributor, hcopies, htaken]
  channel := h.channel

theorem left_putNext (guid : Uuid) (targets : List Ipv4Addr) (firmware : Firmware) :
    (putNext guid targets firmware).puts ++ (putNext guid targets firmware).distributor.left =
      firmware.puts ++ targets.map (Prod.mk guid) := by
  cases targets with
  | nil => rfl
  | cons target left =>
      simp only [putNext, DistributorStage.left, List.append_assoc, List.map_cons,
        List.singleton_append]

theorem waiting_putNext (guid : Uuid) (targets : List Ipv4Addr) (firmware : Firmware) :
    (putNext guid targets firmware).distributor.waiting = none := by
  cases targets <;> rfl

theorem machine_putNext (guid : Uuid) (targets : List Ipv4Addr) (firmware : Firmware) :
    (putNext guid targets firmware).machine = firmware.machine := by
  cases targets <;> rfl

/-- `distribute_file` asks for the mutex of the book with nothing left to put. -/
theorem advances_distributeAddresses (hleft : firmware.distributor.left = [])
    (hcopies : firmware.copiesFor event =
      if firmware.addressesLocked then none else some guid)
    (hwaiting : firmware.distributor.waiting.toList ++ event.taken.toList = [guid]) :
    Advances event firmware (distributeAddresses guid firmware) := by
  cases hlocked : firmware.addressesLocked with
  | true =>
      rw [hlocked, if_pos rfl] at hcopies
      rw [distributeAddresses, if_pos hlocked]
      refine ⟨?_, ?_, rfl⟩
      · rw [hcopies, hleft]
        exact (List.append_nil _).symm
      · rw [hcopies, hwaiting]
        rfl
  | false =>
      rw [hlocked, if_neg Bool.false_ne_true] at hcopies
      rw [distributeAddresses, if_neg (by rw [hlocked]; decide)]
      refine ⟨?_, ?_, by rw [machine_putNext]⟩
      · rw [left_putNext, hcopies, hleft]
        simp
      · rw [waiting_putNext, hcopies, hwaiting]
        rfl

theorem advances_distribute (hstep : firmware.step addr (.distribute guid) = some after) :
    Advances (.distribute guid) firmware after := by
  cases hstage : firmware.distributor with
  | receiving =>
      simp only [step, hstage] at hstep
      obtain rfl := Option.some.inj hstep
      apply advances_distributeAddresses
      · rw [hstage]
        rfl
      · rfl
      · rw [hstage]
        rfl
  | addresses waiting => simp [step, hstage] at hstep
  | putting waiting left => simp [step, hstage] at hstep

theorem advances_pollDistributor (hstep : firmware.step addr .pollDistributor = some after) :
    Advances .pollDistributor firmware after := by
  cases hstage : firmware.distributor with
  | receiving => simp [step, hstage] at hstep
  | addresses waiting =>
      simp only [step, hstage] at hstep
      obtain rfl := Option.some.inj hstep
      apply advances_distributeAddresses
      · rw [hstage]
        rfl
      · rw [copiesFor, hstage]
        rfl
      · rw [hstage]
        rfl
  | putting waiting left =>
      simp only [step, hstage] at hstep
      obtain rfl := Option.some.inj hstep
      have hcopies : firmware.copiesFor .pollDistributor = none := by
        simp [copiesFor, hstage, DistributorStage.waiting]
      refine ⟨?_, ?_, by rw [machine_putNext]⟩
      · rw [left_putNext, hcopies, hstage]
        simp [DistributorStage.left]
      · rw [waiting_putNext, hcopies, hstage]
        rfl

/-- No step of the tasks loses a file or puts it twice. -/
theorem advances_of_step (hstep : firmware.step addr event = some after) :
    Advances event firmware after := by
  cases event with
  | distribute file => exact advances_distribute hstep
  | pollDistributor => exact advances_pollDistributor hstep
  | arrive _ _ | upload _ _ | pollReceiver | pollFiler _ | pollChecker | pollManager _ _ _
  | elapse _ =>
      exact (leavesFiles_of_step hstep rfl nofun).advances (copiesFor_of_other rfl nofun) rfl

/-! ## The end of a round of `distribute_file` -/

/-- `distribute_file` takes no guid from its channel. -/
def TakesNone (_ : Firmware) (event : TaskEvent) : Prop := event.taken = none

/-- A loop over a copy of the book ends, whatever `put_file` returns. -/
theorem exists_receiving_of_putting (left : List Ipv4Addr)
    (hstage : firmware.distributor = .putting guid left) :
    ∃ later, Reaches (step addr) TakesNone firmware later ∧ later.distributor = .receiving := by
  have hstep : firmware.step addr .pollDistributor = some (putNext guid left firmware) := by
    simp only [step, hstage]
  have hnone : firmware.TakesNone .pollDistributor := rfl
  induction left generalizing firmware with
  | nil => exact ⟨_, .tail .refl hnone hstep, rfl⟩
  | cons target left ih =>
      have hnext : (putNext guid (target :: left) firmware).distributor = .putting guid left := rfl
      obtain ⟨later, hreach, hreceiving⟩ := ih hnext (by simp only [step, hnext]) rfl
      exact ⟨later, (Reaches.refl.tail hnone hstep).trans hreach, hreceiving⟩

theorem exists_receiving_of_unlocked (hunlocked : firmware.addressesLocked = false) :
    ∃ later, Reaches (step addr) TakesNone firmware later ∧ later.distributor = .receiving := by
  have hnone : firmware.TakesNone .pollDistributor := rfl
  cases hstage : firmware.distributor with
  | receiving => exact ⟨firmware, .refl, hstage⟩
  | putting guid left => exact exists_receiving_of_putting left hstage
  | addresses guid =>
      have hstep : firmware.step addr .pollDistributor =
          some (putNext guid firmware.machine.addresses.keys firmware) := by
        simp only [step, hstage]
        rw [distributeAddresses, if_neg (by rw [hunlocked]; decide)]
      cases hkeys : firmware.machine.addresses.keys with
      | nil =>
          rw [hkeys] at hstep
          exact ⟨_, .tail .refl hnone hstep, rfl⟩
      | cons target left =>
          rw [hkeys] at hstep
          have hnext : (putNext guid (target :: left) firmware).distributor = .putting guid left :=
            rfl
          obtain ⟨later, hreach, hreceiving⟩ := exists_receiving_of_putting left hnext
          exact ⟨later, (Reaches.refl.tail hnone hstep).trans hreach, hreceiving⟩

/-- Whatever the tasks wait for, `distribute_file` comes to wait for the next guid. -/
theorem exists_receiving (h : firmware.Orderly) :
    ∃ later, Reaches (step addr) TakesNone firmware later ∧ later.distributor = .receiving := by
  let finds (_ : Firmware) : TickEnv × (Payload → Bool) :=
    (System.printer addr true, fun _ ↦ true)
  have hknown (firmware : Firmware) : KnownAs addr (finds firmware).1.myAddr := .inr rfl
  obtain ⟨count, -, hreach, hfree, -⟩ := exists_free hknown firmware
  have hunlocked := (h.reaches hreach).addressesLocked.trans hfree
  obtain ⟨later, hlater, hreceiving⟩ := exists_receiving_of_unlocked hunlocked
  refine ⟨later, (hreach.mono ?_).trans hlater, hreceiving⟩
  intro before event hattending
  cases event with
  | pollManager env answered allocated => rfl
  | elapse ticks => rfl
  | distribute guid => cases hattending
  | arrive _ _ | upload _ _ | pollReceiver | pollFiler _ | pollChecker | pollDistributor => rfl

/-- Change what the channel of `distribute_file` holds. -/
def setChannel (channel : DistributionQueue) (firmware : Firmware) : Firmware :=
  { firmware with machine := { firmware.machine with filesToDistribute := channel } }

end Firmware

/-! ## From the channel to the machines of the book -/

/-- The tasks of a machine, the guids that `handle_conn` has got into the channel and the copies of
the book that `distribute_file` has made. -/
structure Courier where
  firmware : Firmware
  submitted : List Uuid
  copies : List (Uuid × List Ipv4Addr)

/-- `handle_conn` sends a guid to the channel, `distribute_file` takes one from it, or another step
of the tasks. -/
inductive CourierEvent where
  | trySend (guid : Uuid)
  | receive
  | task (event : TaskEvent)

namespace Courier

def boot : Courier := ⟨.boot, [], []⟩

/-- The guids in the channel. -/
def queue (courier : Courier) : List Uuid := courier.firmware.machine.filesToDistribute.queue

/-- A step of the tasks, with the copy of the book that it makes. -/
def advance (addr : Ipv4Addr) (courier : Courier) (event : TaskEvent) : Option Courier :=
  (courier.firmware.step addr event).map fun after ↦
    { firmware := after
      submitted := courier.submitted
      copies := courier.copies ++ (courier.firmware.copiesFor event).toList.map fun guid ↦
        (guid, courier.firmware.machine.addresses.keys) }

def step (addr : Ipv4Addr) (courier : Courier) : CourierEvent → Option Courier
  | .trySend guid =>
      match courier.firmware.machine.filesToDistribute.trySend guid with
      | some channel => some { courier with
          firmware := courier.firmware.setChannel channel
          submitted := courier.submitted ++ [guid] }
      -- a full channel is only logged
      | none => some courier
  | .receive =>
      courier.firmware.machine.filesToDistribute.tryReceive.bind fun (guid, channel) ↦
        advance addr { courier with firmware := courier.firmware.setChannel channel }
          (.distribute guid)
  | .task event => if event.taken = none then courier.advance addr event else none

/-- The file goes to each machine of the copy. -/
def files (copy : Uuid × List Ipv4Addr) : List (Uuid × Ipv4Addr) := copy.2.map (Prod.mk copy.1)

/-- Everything that has been put and is left to put comes from the copies, and every guid that got
into the channel has a copy, waits for one, has just been taken or is still in the channel. -/
structure Kept (taken : Option Uuid) (courier : Courier) : Prop where
  orderly : courier.firmware.Orderly
  puts : courier.firmware.puts ++ courier.firmware.distributor.left =
    courier.copies.flatMap files
  submitted : courier.copies.map Prod.fst ++ courier.firmware.distributor.waiting.toList ++
    taken.toList ++ courier.queue = courier.submitted
  nodup : ∀ copy ∈ courier.copies, copy.2.Nodup

variable {addr : Ipv4Addr} {courier after later : Courier} {event : TaskEvent}

theorem kept_boot : boot.Kept none := ⟨Firmware.orderly_boot, rfl, rfl, by simp [boot]⟩

theorem Kept.advance (h : courier.Kept event.taken)
    (hadvance : courier.advance addr event = some after) : after.Kept none := by
  obtain ⟨firmware, hfirmware, rfl⟩ := Option.map_eq_some_iff.mp hadvance
  have hadvances := Firmware.advances_of_step hfirmware
  refine ⟨h.orderly.step hfirmware, ?_, ?_, ?_⟩
  · rw [hadvances.puts, h.puts, List.flatMap_append, List.flatMap_map]
    rfl
  · have hguids : Prod.fst ∘ (fun guid : Uuid ↦
        (guid, courier.firmware.machine.addresses.keys)) = id := rfl
    simp only [queue, hadvances.channel, Option.toList_none, List.append_nil, List.map_append,
      List.map_map, hguids, List.map_id]
    rw [List.append_assoc (courier.copies.map Prod.fst), hadvances.waiting, ← List.append_assoc]
    exact h.submitted
  · intro copy hcopy
    rcases List.mem_append.mp hcopy with hold | hnew
    · exact h.nodup copy hold
    · obtain ⟨guid, -, rfl⟩ := List.mem_map.mp hnew
      exact courier.firmware.machine.addresses.nodup

theorem Kept.step {event : CourierEvent} (h : courier.Kept none)
    (hstep : courier.step addr event = some after) : after.Kept none := by
  cases event with
  | trySend guid =>
      rw [Courier.step] at hstep
      split at hstep
      next channel hsent =>
        obtain rfl := Option.some.inj hstep
        refine ⟨?_, h.puts, ?_, h.nodup⟩
        · exact h.orderly.of_eq rfl rfl rfl le_rfl h.orderly.receiver h.orderly.filer
        · rw [← h.submitted, queue, queue, List.append_assoc _ _ [guid]]
          exact congrArg _ (Foundations.Bounded.Channel.queue_of_trySend hsent)
      next =>
        obtain rfl := Option.some.inj hstep
        exact h
  | receive =>
      obtain ⟨⟨guid, channel⟩, hreceived, hadvance⟩ := Option.bind_eq_some_iff.mp hstep
      have htaken : Kept (TaskEvent.distribute guid).taken
          { courier with firmware := courier.firmware.setChannel channel } := by
        refine ⟨?_, h.puts, ?_, h.nodup⟩
        · exact h.orderly.of_eq rfl rfl rfl le_rfl h.orderly.receiver h.orderly.filer
        · rw [← h.submitted, queue, queue,
            Foundations.Bounded.Channel.queue_of_tryReceive hreceived]
          simp [Firmware.setChannel, TaskEvent.taken]
      exact Kept.advance htaken hadvance
  | task event =>
      obtain ⟨hnone, hadvance⟩ := Option.ite_none_right_eq_some.mp hstep
      exact Kept.advance (by rwa [hnone]) hadvance

theorem Kept.of_reaches {start : Courier} (h : start.Kept none)
    (hreach : Reaches (Courier.step addr) Unrestricted start courier) : courier.Kept none :=
  hreach.invariant (Kept none) h fun _ _ _ hbefore _ hstep ↦ hbefore.step hstep

/-- What the tasks can do without the channel they can do with it. -/
theorem exists_of_firmware {firmware : Firmware}
    (h : Reaches (Firmware.step addr) Firmware.TakesNone courier.firmware firmware) :
    ∃ later, Reaches (step addr) Unrestricted courier later ∧ later.firmware = firmware ∧
      later.submitted = courier.submitted ∧ later.queue = courier.queue := by
  induction h with
  | refl => exact ⟨courier, .refl, rfl, rfl, rfl⟩
  | @tail _ next event _ hnone hstep ih =>
      obtain ⟨later, hreach, rfl, hsubmitted, hqueue⟩ := ih
      obtain ⟨final, hadvance, hfirmware, hsame⟩ : ∃ final, later.advance addr event = some final ∧
          final.firmware = next ∧ final.submitted = later.submitted := by
        rw [advance, hstep]
        exact ⟨_, rfl, rfl, rfl⟩
      have hnext : later.step addr (.task event) = some final := by
        rw [step, if_pos (show event.taken = none from hnone), hadvance]
      have hchannel := (Firmware.advances_of_step hstep).channel
      refine ⟨final, hreach.tail trivial hnext, hfirmware, hsame.trans hsubmitted, ?_⟩
      rw [queue, hfirmware, hchannel, ← queue, hqueue]

/-- A task that waits for a guid takes the first one in the channel. -/
theorem exists_received (addr : Ipv4Addr) {guid : Uuid} {rest : List Uuid}
    (hqueue : courier.queue = guid :: rest)
    (hreceiving : courier.firmware.distributor = .receiving) :
    ∃ later, courier.step addr .receive = some later ∧ later.submitted = courier.submitted ∧
      later.queue = rest := by
  cases hreceived : courier.firmware.machine.filesToDistribute.tryReceive with
  | none =>
      rw [Foundations.Bounded.Channel.tryReceive_eq_none_iff, ← queue, hqueue] at hreceived
      cases hreceived
  | some received =>
      obtain ⟨taken, channel⟩ := received
      have hsplit := Foundations.Bounded.Channel.queue_of_tryReceive hreceived
      rw [← queue, hqueue] at hsplit
      obtain ⟨rfl, rfl⟩ := List.cons.inj hsplit
      have hstep : (courier.firmware.setChannel channel).step addr (.distribute guid) =
          some (Firmware.distributeAddresses guid (courier.firmware.setChannel channel)) := by
        simp only [Firmware.step, Firmware.setChannel, hreceiving]
      obtain ⟨later, hadvance, hfirmware, hsubmitted⟩ : ∃ later,
          advance addr { courier with firmware := courier.firmware.setChannel channel }
            (.distribute guid) = some later ∧
          later.firmware = Firmware.distributeAddresses guid (courier.firmware.setChannel channel) ∧
          later.submitted = courier.submitted := by
        simp only [advance, hstep]
        exact ⟨_, rfl, rfl, rfl⟩
      refine ⟨later, ?_, hsubmitted, ?_⟩
      · rw [step, hreceived, Option.bind_some]
        exact hadvance
      · rw [queue, hfirmware, (Firmware.advances_of_step hstep).channel]
        rfl

/-- Whatever the tasks wait for, `distribute_file` comes to wait for the channel. -/
theorem exists_waiting (addr : Ipv4Addr) (h : courier.Kept none) :
    ∃ later, Reaches (step addr) Unrestricted courier later ∧
      later.submitted = courier.submitted ∧ later.queue = courier.queue ∧
      later.firmware.distributor = .receiving := by
  obtain ⟨firmware, hfirmware, hreceiving⟩ := Firmware.exists_receiving h.orderly
  obtain ⟨later, hreach, rfl, hsubmitted, hqueue⟩ := @exists_of_firmware addr _ _ hfirmware
  exact ⟨later, hreach, hsubmitted, hqueue, hreceiving⟩

/-- The tasks can go on until the channel is empty and every file has been put. -/
theorem exists_emptied (h : courier.Kept none) :
    ∃ later, Reaches (step addr) Unrestricted courier later ∧
      later.submitted = courier.submitted ∧ later.queue = [] ∧
      later.firmware.distributor = .receiving := by
  induction hqueue : courier.queue generalizing courier with
  | nil =>
      obtain ⟨later, hreach, hsubmitted, hsame, hreceiving⟩ := exists_waiting addr h
      exact ⟨later, hreach, hsubmitted, hsame.trans hqueue, hreceiving⟩
  | cons guid rest ih =>
      obtain ⟨waiting, hwaiting, hsubmitted, hsame, hreceiving⟩ := exists_waiting addr h
      obtain ⟨taken, hstep, htaken, hrest⟩ :=
        exists_received addr (hsame.trans hqueue) hreceiving
      have hreach := hwaiting.tail trivial hstep
      obtain ⟨later, hlater, hsent, hdone⟩ := ih (h.of_reaches hreach) hrest
      exact ⟨later, hreach.trans hlater, hsent.trans (htaken.trans hsubmitted), hdone⟩

/-- However the tasks take turns: of the guids that `handle_conn` gets into the channel none is lost
and none overtakes another. Each one gets one copy of the book, and the file is put once to each
machine of each copy, in the order of the copy, and to nobody else. From every state reached the
tasks can go on until everything that got into the channel has been put. -/
theorem put_to_everybody (h : Reaches (step addr) Unrestricted boot courier) :
    courier.copies.map Prod.fst ++ courier.firmware.distributor.waiting.toList ++ courier.queue =
        courier.submitted ∧
      courier.firmware.puts ++ courier.firmware.distributor.left =
        courier.copies.flatMap files ∧
      (∀ copy ∈ courier.copies, copy.2.Nodup) ∧
      ∃ later, Reaches (step addr) Unrestricted courier later ∧
        later.submitted = courier.submitted ∧ later.copies.map Prod.fst = courier.submitted ∧
        later.firmware.puts = later.copies.flatMap files := by
  have hkept : courier.Kept none := kept_boot.of_reaches h
  have hsubmitted := hkept.submitted
  rw [Option.toList_none, List.append_nil] at hsubmitted
  refine ⟨hsubmitted, hkept.puts, hkept.nodup, ?_⟩
  obtain ⟨later, hreach, hsame, hqueue, hreceiving⟩ := exists_emptied hkept
  have hlater := hkept.of_reaches hreach
  have hall := hlater.submitted
  have hputs := hlater.puts
  rw [hreceiving, hqueue, hsame] at hall
  rw [hreceiving] at hputs
  refine ⟨later, hreach, hsame, ?_, ?_⟩
  · simpa [DistributorStage.waiting] using hall
  · simpa [DistributorStage.left] using hputs

/-- A guid is taken in the middle of a round. When the round is over, a machine that was heard of
meanwhile enters the book first and is put the file. -/
def takenMidRound : List CourierEvent :=
  (Firmware.crowdedRound.take 7).map .task ++ [.trySend ⟨7⟩, .trySend ⟨8⟩, .receive] ++
    (Firmware.crowdedRound.drop 7 ++ [TaskEvent.pollDistributor]).map .task

theorem put_to_everybody_takenMidRound :
    ∃ courier, Courier.queue courier = [⟨8⟩] ∧ courier.submitted = [⟨7⟩, ⟨8⟩] ∧
      courier.firmware.puts ++ courier.firmware.distributor.left = [(⟨7⟩, System.beta)] := by
  obtain ⟨courier, hreach, hqueue, hcopies, hwaiting⟩ := exists_reaches_of_runIf
    (step System.alpha) Unrestricted boot takenMidRound (fun courier ↦ courier.queue = [⟨8⟩] ∧
      courier.copies = [(⟨7⟩, [System.beta])] ∧
      courier.firmware.distributor.waiting = none) (by decide +kernel)
  obtain ⟨hsubmitted, hputs, -⟩ := put_to_everybody hreach
  rw [hcopies] at hsubmitted hputs
  rw [hqueue, hwaiting] at hsubmitted
  exact ⟨courier, hqueue, hsubmitted.symm, hputs⟩

end Courier

end Derusting
