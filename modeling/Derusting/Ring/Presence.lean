import Derusting.Ring.Reception

/-!
# The machines that are present

The address book against the record of processed messages.  Between two purges the book may hold
machines that have fallen silent; right after a purge it holds exactly the machines a message was
processed from in the last 20 seconds, each with the time of its latest message.  The book takes 32
machines, so this is about runs in which no other one speaks while it is full.
-/

namespace Derusting

open Foundations.Bounded Foundations.Transition

namespace Reception

variable {decode : List UInt8 → Option Message} {reception : Reception}

/-- The time of the latest processed message from `addr`. -/
def latest (reception : Reception) (addr : Ipv4Addr) : Option Instant :=
  (reception.processed.find? fun entry ↦ entry.sender = addr).map Processed.time

/-- No message from a new machine is processed while the book is full. -/
def Admits (decode : List UInt8 → Option Message) (reception : Reception) : Happening → Prop
  | .packet sender packet => (accepted? decode sender packet reception.machine).isSome →
      sender ∈ reception.machine.addresses.keys ∨
        reception.machine.addresses.entries.length < addressBookEntries
  | .upload _ _ | .lifetimeCheck | .elapse _ | .tick _ => True

instance (reception : Reception) : DecidablePred (reception.Admits decode)
  | .packet sender packet =>
      inferInstanceAs (Decidable ((accepted? decode sender packet reception.machine).isSome → _ ∨ _))
  | .upload _ _ | .lifetimeCheck | .elapse _ | .tick _ => inferInstanceAs (Decidable True)

/-- The book lists machines with the time of their latest message, and misses none that has spoken
in the last 20 seconds. -/
structure Current (reception : Reception) : Prop where
  past : ∀ entry ∈ reception.processed, entry.time ≤ reception.machine.clock
  sorted : reception.processed.Pairwise fun entry older ↦ older.time ≤ entry.time
  listed : ∀ addr heard, (addr, heard) ∈ reception.machine.addresses.entries →
    reception.latest addr = some heard
  missed : ∀ addr heard, reception.latest addr = some heard →
    (addr, heard) ∉ reception.machine.addresses.entries →
      heard + fromSecs 20 ≤ reception.machine.clock

theorem current_boot : boot.Current where
  past _ hmem := nomatch hmem
  sorted := .nil
  listed _ _ hmem := nomatch hmem
  missed _ _ hlatest := nomatch hlatest

theorem Current.latest_le (h : reception.Current) {addr : Ipv4Addr} {heard : Instant}
    (hlatest : reception.latest addr = some heard) : heard ≤ reception.machine.clock := by
  obtain ⟨entry, hfind, rfl⟩ := Option.map_eq_some_iff.mp hlatest
  exact h.past entry (List.mem_of_find?_eq_some hfind)

/-- A message from `addr` is not later than the latest one. -/
theorem Current.exists_latest (h : reception.Current) {entry : Processed}
    (hentry : entry ∈ reception.processed) :
    ∃ heard, reception.latest entry.sender = some heard ∧ entry.time ≤ heard := by
  have hfound : (reception.processed.find? fun other ↦ other.sender = entry.sender).isSome := by
    rw [List.find?_isSome]
    exact ⟨entry, hentry, decide_eq_true rfl⟩
  obtain ⟨first, hfirst⟩ := Option.isSome_iff_exists.mp hfound
  refine ⟨first.time, by rw [latest, hfirst, Option.map_some], ?_⟩
  obtain ⟨-, newer, older, hsplit, hnewer⟩ := List.find?_eq_some_iff_append.mp hfirst
  have hsorted := h.sorted
  rw [hsplit] at hentry hsorted
  rcases List.mem_append.mp hentry with hleft | hright
  · have hne := hnewer entry hleft
    simp at hne
  · rcases List.mem_cons.mp hright with rfl | holder
    · exact le_rfl
    · exact (List.pairwise_cons.mp (List.pairwise_append.mp hsorted).2.1).1 entry holder

/-- The test of `address_book_lifetime_check` counts whole seconds. -/
theorem div_lt_twenty_iff {now heard : Instant} (h : heard ≤ now) :
    (now - heard) / 1000 < 20 ↔ now < heard + fromSecs 20 := by
  rw [Nat.div_lt_iff_lt_mul (by decide), fromSecs, Nat.sub_lt_iff_lt_add h, Nat.add_comm]

/-- Of the listed machines a purge keeps those heard from in the last 20 seconds. -/
theorem Current.mem_entries_check (h : reception.Current) {addr : Ipv4Addr} {heard : Instant} :
    (addr, heard) ∈ (addressBookLifetimeCheck reception.machine).addresses.entries ↔
      reception.latest addr = some heard ∧ reception.machine.clock < heard + fromSecs 20 := by
  rw [addressBookLifetimeCheck, LinearMap.mem_entries_retain, decide_eq_true_iff]
  constructor
  · rintro ⟨hmem, hrecent⟩
    have hlatest := h.listed addr heard hmem
    exact ⟨hlatest, (div_lt_twenty_iff (h.latest_le hlatest)).mp hrecent⟩
  · rintro ⟨hlatest, hrecent⟩
    refine ⟨?_, (div_lt_twenty_iff (h.latest_le hlatest)).mpr hrecent⟩
    by_contra hmem
    exact absurd (h.missed addr heard hlatest hmem) (Nat.not_le.mpr hrecent)

theorem Current.purged (h : reception.Current) :
    Current { reception with machine := addressBookLifetimeCheck reception.machine } := by
  refine ⟨h.past, h.sorted, ?_, ?_⟩
  · intro addr heard hmem
    exact (h.mem_entries_check.mp hmem).1
  · intro addr heard hlatest hmem
    by_contra hrecent
    exact hmem (h.mem_entries_check.mpr ⟨hlatest, Nat.not_le.mp hrecent⟩)

theorem latest_cons (machine : Machine) (entry : Processed) (older : List Processed)
    (addr : Ipv4Addr) :
    latest ⟨machine, entry :: older⟩ addr =
      if entry.sender = addr then some entry.time else latest ⟨machine, older⟩ addr := by
  rw [latest, List.find?_cons]
  by_cases hsender : entry.sender = addr <;> simp [hsender, latest]

/-- A message refreshes the entry of its sender, or adds one. -/
theorem Current.processed (h : reception.Current) {sender : Ipv4Addr} (message : Message)
    {history : HistoryBuf Uuid 24} {jobs : Option LedgerState}
    (hroom : sender ∈ reception.machine.addresses.keys ∨
      reception.machine.addresses.entries.length < addressBookEntries) :
    Current ⟨{ reception.machine with
        history := history
        addresses := reception.machine.addresses.insert sender reception.machine.clock
        jobs := jobs },
      ⟨sender, message, reception.machine.clock⟩ :: reception.processed⟩ := by
  refine ⟨?_, List.pairwise_cons.mpr ⟨fun entry hentry ↦ h.past entry hentry, h.sorted⟩, ?_, ?_⟩
  · intro entry hentry
    rcases List.mem_cons.mp hentry with rfl | hold
    · exact le_rfl
    · exact h.past entry hold
  · intro addr heard hmem
    rw [latest_cons]
    rcases (LinearMap.mem_entries_insert hroom).mp hmem with hnew | ⟨hne, hold⟩
    · obtain ⟨rfl, rfl⟩ := Prod.mk.inj hnew
      rw [if_pos rfl]
    · rw [if_neg (Ne.symm hne)]
      exact h.listed addr heard hold
  · intro addr heard hlatest hmem
    rw [latest_cons] at hlatest
    have hentry := mt (LinearMap.mem_entries_insert hroom).mpr hmem
    by_cases hsender : sender = addr
    · rw [if_pos hsender, Option.some.injEq] at hlatest
      exact absurd (.inl (Prod.ext hsender.symm hlatest.symm)) hentry
    · rw [if_neg hsender] at hlatest
      apply h.missed addr heard hlatest
      exact fun hold ↦ hentry (.inr ⟨Ne.symm hsender, hold⟩)

theorem Current.happens (h : reception.Current) {event : Happening} {later : Reception}
    (hadmits : reception.Admits decode event) (hstep : Happens decode reception event later) :
    later.Current := by
  cases hstep with
  | processed message haccepted _ => exact h.processed message (hadmits haccepted)
  | purged => exact h.purged
  | passed now _ _ hlater =>
      refine ⟨?_, h.sorted, h.listed, ?_⟩
      · exact fun entry hentry ↦ (h.past entry hentry).trans hlater
      · exact fun addr heard hlatest hmem ↦ (h.missed addr heard hlatest hmem).trans hlater

/-- One step of a run, as a transition that is always enabled. -/
def step (decode : List UInt8 → Option Message) (reception : Reception) (event : Happening) :
    Option Reception :=
  some (reception.happen decode event)

theorem Current.of_reaches (h : Reaches (step decode) (Admits decode) boot reception) :
    reception.Current := by
  apply h.invariant Current current_boot
  intro before event after hbefore hadmits hstep
  rw [← Option.some.inj hstep]
  exact hbefore.happens hadmits (happens_happen decode before event)

/-- In every run in which no message from a new machine is processed while the book is full, right
after a purge the book holds no address twice, and it holds an address exactly if a message from it
was processed in the last 20 seconds, with the time of the latest one. -/
theorem present_after_check (decode : List UInt8 → Option Message)
    (h : Reaches (step decode) (Admits decode) boot reception) :
    let purged := reception.happen decode .lifetimeCheck
    purged.machine.addresses.keys.Nodup ∧
    (∀ addr heard, (addr, heard) ∈ purged.machine.addresses.entries ↔
      purged.latest addr = some heard ∧ purged.machine.clock < heard + fromSecs 20) ∧
    ∀ addr, addr ∈ purged.machine.addresses.keys ↔
      ∃ entry ∈ purged.processed, entry.sender = addr ∧
        purged.machine.clock < entry.time + fromSecs 20 := by
  have hcurrent := Current.of_reaches h
  intro purged
  have hentries (addr : Ipv4Addr) (heard : Instant) :
      (addr, heard) ∈ purged.machine.addresses.entries ↔
        purged.latest addr = some heard ∧ purged.machine.clock < heard + fromSecs 20 :=
    hcurrent.mem_entries_check
  refine ⟨purged.machine.addresses.nodup, hentries, ?_⟩
  intro addr
  constructor
  · intro hmem
    obtain ⟨⟨_, heard⟩, hentry, rfl⟩ := List.mem_map.mp hmem
    obtain ⟨hlatest, hrecent⟩ := (hentries _ heard).mp hentry
    obtain ⟨entry, hfind, rfl⟩ := Option.map_eq_some_iff.mp hlatest
    exact ⟨entry, List.mem_of_find?_eq_some hfind, by simpa using List.find?_some hfind, hrecent⟩
  · rintro ⟨entry, hentry, rfl, hrecent⟩
    obtain ⟨heard, hlatest, hle⟩ := hcurrent.purged.exists_latest hentry
    have hmem := (hentries entry.sender heard).mpr
      ⟨hlatest, hrecent.trans_le (Nat.add_le_add_right hle _)⟩
    exact List.mem_map_of_mem hmem

/-- A machine that is heard of, is silent for 20 seconds and speaks again just before the purge. -/
def heardAgain : List Happening :=
  [.packet (.new 10 0 0 2) (samplePacket 1 [0, 1]), .elapse (fromSecs 20), .lifetimeCheck,
    .packet (.new 10 0 0 2) (samplePacket 2 [0, 1]), .elapse 19999]

theorem present_after_check_heardAgain :
    ∃ reception, Reaches (step sampleDecode) (Admits sampleDecode) boot reception ∧
      .new 10 0 0 2 ∈ (reception.happen sampleDecode .lifetimeCheck).machine.addresses.keys := by
  obtain ⟨reception, hreach, entry, hentry, hsender, hrecent⟩ := exists_reaches_of_runIf
    (step sampleDecode) (Admits sampleDecode) boot heardAgain
    (fun reception ↦ ∃ entry ∈ reception.processed, entry.sender = .new 10 0 0 2 ∧
      reception.machine.clock < entry.time + fromSecs 20) (by decide +kernel)
  exact ⟨reception, hreach,
    ((present_after_check sampleDecode hreach).2.2 _).mpr ⟨entry, hentry, hsender, hrecent⟩⟩

end Reception

end Derusting
