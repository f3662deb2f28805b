import Derusting.Ring.Reception
import Mathlib.Data.Finset.Card

/-!
# Duplicate deliveries

Every broadcast is repeated, so a receiver drops the messages it has processed recently.  The
history holds the keys of the last 24 processed messages; a packet is processed exactly if its key
is not among them.  A dropped copy is not written to the history again, so what counts for a later
copy is how much has been processed since the copy that was processed, not since the last one that
arrived.
-/

namespace Derusting

open Foundations.Bounded

namespace Reception

variable {decode : List UInt8 → Option Message} {reception : Reception}

/-! ## The history -/

/-- The keys of the last 24 processed messages. -/
def recentKeys (reception : Reception) : List Uuid := reception.keys.take 24

/-- The history is the recent part of the record, without repetitions. -/
structure Recorded (reception : Reception) : Prop where
  history : reception.machine.history.toList = reception.recentKeys
  nodup : reception.machine.history.toList.Nodup

theorem recorded_boot : boot.Recorded := ⟨rfl, List.nodup_nil⟩

theorem Recorded.mem_history_iff (h : reception.Recorded) {key : Uuid} :
    key ∈ reception.machine.history ↔ key ∈ reception.recentKeys := by
  rw [← h.history]
  rfl

theorem Recorded.happens (h : reception.Recorded) {event : Happening} {later : Reception}
    (hstep : Happens decode reception event later) : later.Recorded := by
  cases hstep with
  | purged => exact ⟨h.history, h.nodup⟩
  | passed _ _ _ _ => exact ⟨h.history, h.nodup⟩
  | processed message _ hnew =>
      refine ⟨?_, HistoryBuf.nodup_write h.nodup hnew⟩
      have hrecent : reception.recentKeys = reception.keys.take 24 := rfl
      rw [HistoryBuf.toList_write, h.history, hrecent, ← List.take_succ_cons, List.take_take]
      rfl

/-! ## Runs -/

/-- The state after a sequence of happenings. -/
def run (decode : List UInt8 → Option Message) (start : Reception) (events : List Happening) :
    Reception :=
  events.foldl (happen decode) start

theorem run_append (start : Reception) (events more : List Happening) :
    run decode start (events ++ more) = run decode (run decode start events) more :=
  List.foldl_append

theorem run_cons (start : Reception) (event : Happening) (events : List Happening) :
    run decode start (event :: events) = run decode (start.happen decode event) events := rfl

theorem Recorded.run (h : reception.Recorded) (events : List Happening) :
    (run decode reception events).Recorded := by
  induction events generalizing reception with
  | nil => exact h
  | cons event events ih => exact ih (h.happens (happens_happen decode reception event))

theorem Happens.suffix_processed {event : Happening} {later : Reception}
    (h : Happens decode reception event later) : reception.processed <:+ later.processed := by
  cases h with
  | processed _ _ _ => exact List.suffix_cons _ _
  | purged => exact List.suffix_refl _
  | passed _ _ _ _ => exact List.suffix_refl _

/-- Nothing is taken off the record. -/
theorem suffix_processed_run (events : List Happening) :
    reception.processed <:+ (run decode reception events).processed := by
  induction events generalizing reception with
  | nil => exact List.suffix_refl _
  | cons event events ih => exact (happens_happen decode reception event).suffix_processed.trans ih

/-- The messages processed on the way from `earlier` to `later`, the latest first. -/
def processedSince (earlier later : Reception) : List Message :=
  (later.processed.take (later.processed.length - earlier.processed.length)).map Processed.message

theorem keys_eq_append {earlier later : Reception}
    (h : earlier.processed <:+ later.processed) :
    later.keys = (processedSince earlier later).map Message.idempotency ++ earlier.keys := by
  obtain ⟨since, hsince⟩ := h
  have hkeys : later.keys = (since ++ earlier.processed).map fun entry ↦
      entry.message.idempotency := by rw [hsince]; rfl
  have htake : processedSince earlier later = since.map Processed.message := by
    rw [processedSince, ← hsince, List.length_append, Nat.add_sub_cancel_right, List.take_left]
  rw [hkeys, htake, List.map_append, List.map_map]
  rfl

/-! ## The window -/

/-- While fewer than 24 other messages have been processed since, the key of a processed message is
among the recent ones. -/
theorem mem_recentKeys_of_few {earlier later : Reception} {message : Message} {older : List Uuid}
    (hlater : later.Recorded) (hsuffix : earlier.processed <:+ later.processed)
    (hkeys : earlier.keys = message.idempotency :: older)
    (hfew : ((processedSince earlier later).toFinset.erase message).card < 24) :
    message.idempotency ∈ later.recentKeys := by
  set since := processedSince earlier later with hsince
  have hrecent : later.recentKeys =
      (since.map Message.idempotency ++ message.idempotency :: older).take 24 := by
    rw [recentKeys, keys_eq_append hsuffix, hkeys]
  by_cases hshort : since.length < 24
  · rw [hrecent, List.take_append, List.take_of_length_le (by simpa using hshort.le)]
    apply List.mem_append_right
    obtain ⟨room, hroom⟩ : ∃ room, 24 - (since.map Message.idempotency).length = room + 1 :=
      ⟨23 - since.length, by rw [List.length_map]; omega⟩
    rw [hroom, List.take_succ_cons]
    exact List.mem_cons_self
  · -- otherwise the history consists of 24 other messages that came since
    by_contra hgone
    have hfull : 24 ≤ (since.map Message.idempotency).length := by
      rw [List.length_map]
      exact Nat.not_lt.mp hshort
    rw [List.take_append_of_le_length hfull, ← List.map_take] at hrecent
    have hnodup : (since.take 24).Nodup := by
      apply List.Nodup.of_map Message.idempotency
      rw [← hrecent, ← hlater.history]
      exact hlater.nodup
    have hothers : (since.take 24).toFinset ⊆ since.toFinset.erase message := by
      intro other hother
      rw [List.mem_toFinset] at hother
      refine Finset.mem_erase.mpr ⟨?_, List.mem_toFinset.mpr (List.mem_of_mem_take hother)⟩
      rintro rfl
      exact hgone (hrecent ▸ List.mem_map_of_mem hother)
    have hcount := Finset.card_le_card hothers
    rw [List.toFinset_card_of_nodup hnodup, List.length_take] at hcount
    omega

/-! ## Deleting a copy -/

/-- The packet gets past the history. -/
def Processes (decode : List UInt8 → Option Message) (reception : Reception)
    (packet : List (List UInt8)) : Prop :=
  ∃ message, message? decode packet = some message ∧
    message.idempotency ∉ reception.machine.history

theorem happen_of_not_processes {sender : Ipv4Addr} {packet : List (List UInt8)}
    (h : ¬ Processes decode reception packet) :
    reception.happen decode (.packet sender packet) = reception := by
  apply happen_of_dropped
  cases hmessage : message? decode packet with
  | none => simp [accepted?, hmessage]
  | some message =>
      have hold : message.idempotency ∈ reception.machine.history := by
        by_contra hnew
        exact h ⟨message, hmessage, hnew⟩
      simp [accepted?, hmessage, hold]

/-- In `events` a copy of `message` is processed, and fewer than 24 other messages after it. -/
def RecentlyProcessed (decode : List UInt8 → Option Message) (message : Message)
    (events : List Happening) : Prop :=
  ∃ before between sender packet, events = before ++ .packet sender packet :: between ∧
    message? decode packet = some message ∧ Processes decode (run decode boot before) packet ∧
    ((processedSince (run decode boot (before ++ [.packet sender packet]))
      (run decode boot events)).toFinset.erase message).card < 24

theorem RecentlyProcessed.mem_history {message : Message} {events : List Happening}
    (h : RecentlyProcessed decode message events) :
    message.idempotency ∈ (run decode boot events).machine.history := by
  obtain ⟨before, between, sender, packet, rfl, hmessage, ⟨found, hfound, hnew⟩, hfew⟩ := h
  obtain rfl : found = message := Option.some.inj (hfound.symm.trans hmessage)
  set copied := run decode boot (before ++ [.packet sender packet]) with hcopied
  have hlater : run decode boot (before ++ .packet sender packet :: between) =
      run decode copied between := by
    rw [hcopied, ← run_append, List.append_assoc, List.singleton_append]
  have hrecorded : (run decode copied between).Recorded :=
    (recorded_boot.run (before ++ [.packet sender packet])).run between
  have hkeys : copied.keys = found.idempotency :: (run decode boot before).keys := by
    have haccepted : accepted? decode sender packet (run decode boot before).machine =
        some ⟨sender, found, (run decode boot before).machine.clock⟩ := by
      rw [accepted?, hmessage, Option.bind_some, if_neg hnew]
    rw [hcopied, run_append, run_cons, keys, happen, haccepted]
    rfl
  rw [hlater] at hfew ⊢
  exact hrecorded.mem_history_iff.mpr
    (mem_recentKeys_of_few hrecorded (suffix_processed_run between) hkeys hfew)

/-- After any deliveries a message is processed exactly if its key differs from those of the last 24
processed messages, the history holds no key twice, and a copy of a message that was processed fewer
than 24 other messages ago can be deleted without any difference. -/
theorem duplicates_without_effect (decode : List UInt8 → Option Message)
    (events : List Happening) :
    (∀ sender packet message, message? decode packet = some message →
      run decode boot (events ++ [.packet sender packet]) =
        let heard := run decode boot events
        if message.idempotency ∈ heard.recentKeys then heard
        else
          { machine := { heard.machine with
              history := heard.machine.history.write message.idempotency
              addresses := heard.machine.addresses.insert sender heard.machine.clock
              jobs := message.payload.update heard.machine.clock heard.machine.jobs }
            processed := ⟨sender, message, heard.machine.clock⟩ :: heard.processed }) ∧
    (run decode boot events).machine.history.toList.Nodup ∧
    ∀ sender packet message, message? decode packet = some message →
      RecentlyProcessed decode message events → ∀ after,
        run decode boot (events ++ .packet sender packet :: after) =
          run decode boot (events ++ after) := by
  have hrecorded : (run decode boot events).Recorded := recorded_boot.run events
  refine ⟨?_, hrecorded.nodup, ?_⟩
  · intro sender packet message hmessage
    rw [run_append, run_cons, run, List.foldl_nil]
    by_cases hold : message.idempotency ∈ (run decode boot events).recentKeys
    · rw [if_pos hold]
      apply happen_of_not_processes
      rintro ⟨found, hfound, hnew⟩
      obtain rfl := Option.some.inj (hfound.symm.trans hmessage)
      exact hnew (hrecorded.mem_history_iff.mpr hold)
    · rw [if_neg hold]
      have hnew := mt hrecorded.mem_history_iff.mp hold
      rw [happen, accepted?, hmessage, Option.bind_some, if_neg hnew, udpReceiver_eq, hmessage]
      simp only [receiveMessage_of_notMem _ hnew]
      rfl
  · intro sender packet message hmessage hrecent after
    rw [run_append, run_cons, run_append, happen_of_not_processes]
    rintro ⟨found, hfound, hnew⟩
    obtain rfl := Option.some.inj (hfound.symm.trans hmessage)
    exact hnew hrecent.mem_history

/-- Packets from one machine: a ledger it owns, one its neighbour owns, and heartbeats. -/
def sample (key : UInt8) (payload : List UInt8) : Happening :=
  .packet (.new 10 0 0 1) (samplePacket key payload)

def sampleLedger : Happening := sample 0 [2, 10, 0, 0, 1, 0]

def sampleHeartbeats (first count : ℕ) : List Happening :=
  (List.range' first count).map fun key ↦ sample (UInt8.ofNat key) [0, 1]

/-- The second copy of a message is dropped, and twelve other messages are processed before it and
twelve after it, the last of them another ledger. -/
def droppedCopy : List Happening := sampleLedger :: sampleHeartbeats 1 12

def afterDroppedCopy : List Happening := sampleHeartbeats 13 11 ++ [sample 24 [2, 10, 0, 0, 2, 0]]

/-- The third copy comes only twelve messages after the second one, and still is processed. -/
theorem processed_behind_droppedCopy :
    ((processedSince (run sampleDecode boot (droppedCopy ++ [sampleLedger]))
      (run sampleDecode boot (droppedCopy ++ sampleLedger :: afterDroppedCopy))).toFinset.erase
        ⟨⟨0⟩, .ledger ⟨.new 10 0 0 1, .empty⟩⟩).card = 12 ∧
    (run sampleDecode boot
      (droppedCopy ++ sampleLedger :: afterDroppedCopy ++ [sampleLedger])).machine.owner? =
        some (.new 10 0 0 1) ∧
    (run sampleDecode boot (droppedCopy ++ sampleLedger :: afterDroppedCopy)).machine.owner? =
      some (.new 10 0 0 2) := by
  decide +kernel

/-- The second copy itself can be deleted. -/
theorem duplicates_without_effect_droppedCopy :
    run sampleDecode boot (droppedCopy ++ sampleLedger :: afterDroppedCopy) =
      run sampleDecode boot (droppedCopy ++ afterDroppedCopy) := by
  have hmessage : message? sampleDecode (samplePacket 0 [2, 10, 0, 0, 1, 0]) =
      some ⟨⟨0⟩, .ledger ⟨.new 10 0 0 1, .empty⟩⟩ := by decide
  refine (duplicates_without_effect sampleDecode droppedCopy).2.2 _ _ _ hmessage ?_
    afterDroppedCopy
  refine ⟨[], sampleHeartbeats 1 12, _, _, rfl, hmessage, ⟨_, hmessage, ?_⟩, ?_⟩
  · exact HistoryBuf.notMem_empty _
  · decide +kernel

end Reception

end Derusting
