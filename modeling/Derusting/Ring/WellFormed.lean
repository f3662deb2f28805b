import Derusting.Ring.Network

/-!
# What every run of the network keeps

`WellFormed` collects the facts that hold in every state of every run, whatever the guard of the
run: idempotency keys are never reused, a machine's history only holds keys of messages that were
delivered to it, and address books only hold other machines of the ring.  The first delivery of a
message is therefore never mistaken for a duplicate (`WellFormed.fresh_of_undelivered`).
-/

namespace Derusting

open Foundations.Bounded Foundations.Transition

/-! ## The round of `manage_ledger`, seen from the network -/

/-- A round either broadcasts no message and keeps its (possibly taken over) copy, or its last
broadcast is the copy it then holds, whose owner is the machine itself or in its address book. -/
theorem TickOutcome.broadcast {env : TickEnv} {addr : Ipv4Addr} {machine after : Machine}
    {output : TickOutput} (h : TickOutcome env addr machine after output) :
    (output = .quiet ∧ ∃ before, machine.jobs = some before ∧
      after.jobs = some (staleTakeover addr machine.addresses machine.clock before)) ∨
    ∃ state, after.jobs = some state ∧
      (output.sent = [.ledger state.ledger] ∨
        ∃ text, output.sent = [.log text, .ledger state.ledger]) ∧
      (state.ledger.owner = addr ∨ state.ledger.owner ∈ machine.addresses.keys) := by
  cases h with
  | created hjobs => exact .inr ⟨_, rfl, .inl rfl, .inl rfl⟩
  | waited hjobs htaken hidle => exact .inl ⟨rfl, _, hjobs, by rw [htaken]⟩
  | kept hjobs htaken howner hobserved hmade halone =>
      have howner' := (owner_of_manufactured hmade).trans howner
      cases hmade with
      | nothing => exact .inr ⟨_, rfl, .inl rfl, .inl howner'⟩
      | accepted guid _ _ _ _ => exact .inr ⟨_, rfl, .inr ⟨_, rfl⟩, .inl howner'⟩
  | passed hjobs htaken howner hobserved hmade hnext hmem =>
      cases hmade with
      | nothing => exact .inr ⟨_, rfl, .inl rfl, .inr hmem⟩
      | accepted guid _ _ _ _ => exact .inr ⟨_, rfl, .inr ⟨_, rfl⟩, .inr hmem⟩

namespace System

variable {ring : Finset Ipv4Addr} {system after : System} {addr other : Ipv4Addr}
  {action : Action} {outcome : Outcome} {ids : List Uuid} {index : ℕ}

/-! ## Messages after a step -/

@[simp]
theorem machines_commit_self : (system.commit addr ids outcome).machines addr = outcome.machine :=
  Function.update_self ..

theorem machines_commit_of_ne (h : other ≠ addr) :
    (system.commit addr ids outcome).machines other = system.machines other :=
  Function.update_of_ne h ..

/-- A message after a step was there before, or the step has just sent it. -/
theorem mem_sent_commit {envelope : Envelope}
    (h : envelope ∈ (system.commit addr ids outcome).sent[index]?) :
    envelope ∈ system.sent[index]? ∨
      system.sent.length ≤ index ∧ envelope.src = addr ∧ envelope.message ∈ outcome.sent := by
  rw [commit, List.getElem?_append] at h
  split at h
  · exact .inl h
  next hge =>
    have hmem := List.mem_of_getElem? h
    obtain ⟨message, hmessage, rfl⟩ := List.mem_map.mp hmem
    exact .inr ⟨Nat.le_of_not_lt hge, rfl, hmessage⟩

theorem mem_sent_commit_of_mem {envelope : Envelope} (h : envelope ∈ system.sent[index]?) :
    envelope ∈ (system.commit addr ids outcome).sent[index]? := by
  obtain ⟨hlt, rfl⟩ := List.getElem?_eq_some_iff.mp h
  rw [commit, Option.mem_def, List.getElem?_append_left hlt]
  exact h

/-- The last message a step sends is the last of all. -/
theorem sent_commit_concat {earlier : List Message} {last : Message}
    (h : outcome.sent = earlier ++ [last]) :
    (system.commit addr ids outcome).sent =
      (system.sent ++ earlier.map (Envelope.mk addr)) ++ [⟨addr, last⟩] := by
  simp [commit, h]

theorem mem_sent_commit_last {earlier : List Message} {last : Message}
    (h : outcome.sent = earlier ++ [last]) :
    (⟨addr, last⟩ : Envelope) ∈ (system.commit addr ids outcome).sent[
      (system.sent ++ earlier.map (Envelope.mk addr)).length]? := by
  rw [sent_commit_concat h, Option.mem_def, List.getElem?_concat_length]

theorem length_sent_commit {earlier : List Message} {last : Message}
    (h : outcome.sent = earlier ++ [last]) :
    (system.commit addr ids outcome).sent.length =
      (system.sent ++ earlier.map (Envelope.mk addr)).length + 1 := by
  rw [sent_commit_concat h, List.length_append, List.length_singleton]

theorem LedgerAt.commit {ledger : Ledger} (h : system.LedgerAt index ledger) :
    (system.commit addr ids outcome).LedgerAt index ledger := by
  obtain ⟨envelope, henvelope, hpayload⟩ := h
  exact ⟨envelope, mem_sent_commit_of_mem henvelope, hpayload⟩

theorem ledgerAt_of_commit {ledger : Ledger}
    (h : (system.commit addr ids outcome).LedgerAt index ledger) :
    system.LedgerAt index ledger ∨ system.sent.length ≤ index ∧
      ∃ message ∈ outcome.sent, message.payload = .ledger ledger := by
  obtain ⟨envelope, henvelope, hpayload⟩ := h
  rcases mem_sent_commit henvelope with hold | ⟨hge, _, hnew⟩
  · exact .inl ⟨envelope, hold, hpayload⟩
  · exact .inr ⟨hge, _, hnew, hpayload⟩

theorem mem_delivered_commit {index : ℕ} :
    (other, index) ∈ (system.commit addr ids outcome).delivered ↔
      (other, index) ∈ system.delivered ∨ other = addr ∧ outcome.delivered = some index := by
  cases hdelivered : outcome.delivered <;>
    simp [commit, hdelivered, eq_comm]

theorem Knows.commit (h : system.Knows other index) :
    (system.commit addr ids outcome).Knows other index := by
  rcases h with ⟨envelope, henvelope, hsrc⟩ | hdelivered
  · exact .inl ⟨envelope, mem_sent_commit_of_mem henvelope, hsrc⟩
  · exact .inr (mem_delivered_commit.mpr (.inl hdelivered))

/-- A step teaches nobody but its own machine anything. -/
theorem knows_of_commit (h : (system.commit addr ids outcome).Knows other index) :
    system.Knows other index ∨
      other = addr ∧ (outcome.delivered = some index ∨ system.sent.length ≤ index) := by
  rcases h with ⟨envelope, henvelope, hsrc⟩ | hdelivered
  · rcases mem_sent_commit henvelope with hold | ⟨hge, hself, _⟩
    · exact .inl (.inl ⟨envelope, hold, hsrc⟩)
    · exact .inr ⟨hsrc.symm.trans hself, .inr hge⟩
  · rcases mem_delivered_commit.mp hdelivered with hold | ⟨hself, hnew⟩
    · exact .inl (.inr hold)
    · exact .inr ⟨hself, .inl hnew⟩

/-! ## What an action sends and learns -/

theorem Acts.of_delivered (h : Acts system addr action outcome)
    (hdelivered : outcome.delivered = some index) :
    action = .deliver index ∧ outcome.sent = [] ∧ ∃ envelope ∈ system.sent[index]?,
      envelope.src ≠ addr ∧
        outcome.machine = receiveMessage envelope.src envelope.message (system.machines addr) := by
  cases h with
  | delivered hsent hsrc =>
      obtain rfl := Option.some.inj hdelivered
      exact ⟨rfl, rfl, _, hsent, hsrc, rfl⟩
  | _ => cases hdelivered

/-- Messages carry the keys the action has generated. -/
theorem Acts.key_mem (h : Acts system addr action outcome) :
    ∀ message ∈ outcome.sent, message.idempotency ∈ action.ids := by
  intro message hmem
  cases h with
  | alerted _ => simp_all [Action.ids]
  | @ticked _ logKey ledgerKey _ output _ =>
      obtain ⟨payload, _, rfl⟩ := List.mem_map.mp hmem
      cases payload <;> simp [stamp, Action.ids]
  | greeted => simp_all [Action.ids]
  | logged => simp_all [Action.ids]
  | _ => cases hmem

theorem Acts.keys_nodup (h : Acts system addr action outcome) (hids : action.ids.Nodup) :
    (outcome.sent.map Message.idempotency).Nodup := by
  cases h with
  | ticked houtcome =>
      rcases houtcome.broadcast with ⟨rfl, _⟩ | ⟨state, _, hsent | ⟨text, hsent⟩, _⟩
      · exact List.nodup_nil
      · rw [hsent]
        exact List.nodup_singleton _
      · rw [hsent]
        exact hids
  | _ => simp

/-- A ledger is only broadcast by a round, and names the sender or one of its address book. -/
theorem Acts.ledger_sent (h : Acts system addr action outcome) {message : Message}
    {ledger : Ledger} (hmem : message ∈ outcome.sent) (hpayload : message.payload = .ledger ledger) :
    ∃ state, outcome.machine.jobs = some state ∧ state.ledger = ledger ∧
      (ledger.owner = addr ∨ ledger.owner ∈ (system.machines addr).addresses.keys) := by
  cases h with
  | alerted _ => simp_all
  | greeted => simp_all
  | logged => simp_all
  | ticked houtcome =>
      obtain ⟨payload, hsent, rfl⟩ := List.mem_map.mp hmem
      obtain rfl : payload = .ledger ledger := by cases payload <;> simp_all [stamp]
      rcases houtcome.broadcast with ⟨rfl, _⟩ | ⟨state, hjobs, hlist, howner⟩
      · cases hsent
      · obtain rfl : ledger = state.ledger := by
          rcases hlist with hlist | ⟨text, hlist⟩ <;> simpa [hlist] using hsent
        exact ⟨state, hjobs, rfl, howner⟩
  | _ => cases hmem

theorem Acts.mem_keys (h : Acts system addr action outcome)
    (hmem : other ∈ outcome.machine.addresses.keys) :
    other ∈ (system.machines addr).addresses.keys ∨
      ∃ position : ℕ, ∃ envelope ∈ system.sent[position]?,
        envelope.src ≠ addr ∧ other = envelope.src := by
  cases h with
  | @delivered index envelope hsent hsrc =>
      rcases mem_keys_receiveMessage hmem with hself | hold
      · exact .inr ⟨index, envelope, hsent, hsrc, hself⟩
      · exact .inl hold
  | ticked houtcome => exact .inl (houtcome.frame.1 ▸ hmem)
  | purged => exact .inl (LinearMap.mem_keys_of_mem_keys_retain hmem)
  | _ => exact .inl hmem

theorem Acts.mem_history (h : Acts system addr action outcome) {key : Uuid}
    (hmem : key ∈ outcome.machine.history) :
    key ∈ (system.machines addr).history ∨
      ∃ position, outcome.delivered = some position ∧
        ∃ envelope ∈ system.sent[position]?, key = envelope.message.idempotency := by
  cases h with
  | @delivered index envelope hsent hsrc =>
      rcases mem_history_receiveMessage hmem with hnew | hold
      · exact .inr ⟨index, rfl, envelope, hsent, hnew⟩
      · exact .inl hold
  | ticked houtcome => exact .inl (houtcome.frame.2 ▸ hmem)
  | _ => exact .inl hmem

/-! ## The invariant -/

/-- Facts about messages, histories and address books that no step can break. -/
structure WellFormed (ring : Finset Ipv4Addr) (system : System) : Prop where
  src_mem : ∀ index : ℕ, ∀ envelope ∈ system.sent[index]?, envelope.src ∈ ring
  key_issued : ∀ index : ℕ, ∀ envelope ∈ system.sent[index]?,
    envelope.message.idempotency ∈ system.issued
  key_nodup : (system.sent.map fun envelope ↦ envelope.message.idempotency).Nodup
  owner_mem : ∀ index ledger, system.LedgerAt index ledger → ledger.owner ∈ ring
  delivered_lt : ∀ addr index, (addr, index) ∈ system.delivered → index < system.sent.length
  history_issued : ∀ addr ∈ ring, ∀ key ∈ (system.machines addr).history, key ∈ system.issued
  history_delivered : ∀ addr ∈ ring, ∀ index : ℕ, ∀ envelope ∈ system.sent[index]?,
    envelope.message.idempotency ∈ (system.machines addr).history →
      (addr, index) ∈ system.delivered
  book_mem : ∀ addr ∈ ring, ∀ other ∈ (system.machines addr).addresses.keys,
    other ∈ ring ∧ other ≠ addr

namespace WellFormed

/-- Two messages with one key are one message. -/
theorem key_inj (h : WellFormed ring system) {left right : ℕ} {first second : Envelope}
    (hfirst : first ∈ system.sent[left]?) (hsecond : second ∈ system.sent[right]?)
    (hkey : first.message.idempotency = second.message.idempotency) : left = right := by
  obtain ⟨hleft, rfl⟩ := List.getElem?_eq_some_iff.mp hfirst
  obtain ⟨hright, rfl⟩ := List.getElem?_eq_some_iff.mp hsecond
  refine (List.getElem?_inj (by simpa using hleft) h.key_nodup).mp ?_
  simp [hleft, hright, hkey]

/-- The first copy of a message that reaches a machine is not taken for a duplicate. -/
theorem fresh_of_undelivered (h : WellFormed ring system) (haddr : addr ∈ ring)
    {envelope : Envelope} (henvelope : envelope ∈ system.sent[index]?)
    (hnew : (addr, index) ∉ system.delivered) :
    envelope.message.idempotency ∉ (system.machines addr).history :=
  fun hmem ↦ hnew (h.history_delivered addr haddr index envelope henvelope hmem)

theorem boot (ring : Finset Ipv4Addr) : WellFormed ring System.boot where
  src_mem := by simp [System.boot]
  key_issued := by simp [System.boot]
  key_nodup := by simp [System.boot]
  owner_mem := by simp [System.boot, LedgerAt]
  delivered_lt := by simp [System.boot]
  history_issued := by simp [System.boot, Machine.boot]
  history_delivered := by simp [System.boot]
  book_mem := by simp [System.boot, Machine.boot]

/-- What a history holds after a step had been issued before it. -/
theorem issued_of_mem_history (h : WellFormed ring system) (haddr : addr ∈ ring)
    (hacts : Acts system addr action outcome) {machine : Ipv4Addr} (hmachine : machine ∈ ring)
    {key : Uuid} (hkey : key ∈ ((system.commit addr action.ids outcome).machines machine).history) :
    key ∈ system.issued := by
  by_cases hself : machine = addr
  · subst hself
    rw [machines_commit_self] at hkey
    rcases hacts.mem_history hkey with hold | ⟨index, _, envelope, henvelope, rfl⟩
    · exact h.history_issued _ haddr key hold
    · exact h.key_issued index envelope henvelope
  · rw [machines_commit_of_ne hself] at hkey
    exact h.history_issued machine hmachine key hkey

theorem commit (h : WellFormed ring system) (haddr : addr ∈ ring) (hids : action.ids.Nodup)
    (hfresh : ∀ id ∈ action.ids, id ∉ system.issued) (hacts : Acts system addr action outcome) :
    WellFormed ring (system.commit addr action.ids outcome) where
  src_mem := by
    intro index envelope henvelope
    rcases mem_sent_commit henvelope with hold | ⟨_, hself, _⟩
    · exact h.src_mem index envelope hold
    · exact hself ▸ haddr
  key_issued := by
    intro index envelope henvelope
    rcases mem_sent_commit henvelope with hold | ⟨_, _, hnew⟩
    · exact List.mem_append_left _ (h.key_issued index envelope hold)
    · exact List.mem_append_right _ (hacts.key_mem _ hnew)
  key_nodup := by
    change ((system.sent ++ outcome.sent.map (Envelope.mk addr)).map _).Nodup
    rw [List.map_append, List.map_map, List.nodup_append]
    refine ⟨h.key_nodup, hacts.keys_nodup hids, ?_⟩
    rintro _ hold _ hnew rfl
    obtain ⟨envelope, henvelope, hkey⟩ := List.mem_map.mp hold
    obtain ⟨message, hmessage, hsame⟩ := List.mem_map.mp hnew
    obtain ⟨position, hposition⟩ := List.getElem?_of_mem henvelope
    have hissued := h.key_issued position envelope hposition
    rw [hkey, ← hsame] at hissued
    exact hfresh _ (hacts.key_mem message hmessage) hissued
  owner_mem := by
    intro index ledger hledger
    rcases ledgerAt_of_commit hledger with hold | ⟨_, message, hmem, hpayload⟩
    · exact h.owner_mem index ledger hold
    · obtain ⟨_, _, _, hself | hbook⟩ := hacts.ledger_sent hmem hpayload
      · exact hself ▸ haddr
      · exact (h.book_mem addr haddr _ hbook).1
  delivered_lt := by
    intro machine index hdelivered
    have hlt : index < system.sent.length := by
      rcases mem_delivered_commit.mp hdelivered with hold | ⟨_, hnew⟩
      · exact h.delivered_lt machine index hold
      · obtain ⟨_, _, envelope, henvelope, _⟩ := hacts.of_delivered hnew
        exact (List.getElem?_eq_some_iff.mp henvelope).1
    rw [System.commit, List.length_append]
    omega
  history_issued := by
    intro machine hmachine key hkey
    apply List.mem_append_left
    exact h.issued_of_mem_history haddr hacts hmachine hkey
  history_delivered := by
    intro machine hmachine index envelope henvelope hkey
    -- a message sent by this very step carries a key no history can hold
    have hissued : envelope.message.idempotency ∈ system.issued :=
      h.issued_of_mem_history haddr hacts hmachine hkey
    have hold : envelope ∈ system.sent[index]? := by
      rcases mem_sent_commit henvelope with hold | ⟨_, _, hnew⟩
      · exact hold
      · exact absurd hissued (hfresh _ (hacts.key_mem _ hnew))
    apply mem_delivered_commit.mpr
    by_cases hself : machine = addr
    · subst hself
      rw [machines_commit_self] at hkey
      rcases hacts.mem_history hkey with hpast | ⟨position, hdelivered, earlier, hearlier, hsame⟩
      · exact .inl (h.history_delivered _ haddr index envelope hold hpast)
      · obtain rfl := h.key_inj hold hearlier hsame
        exact .inr ⟨rfl, hdelivered⟩
    · rw [machines_commit_of_ne hself] at hkey
      exact .inl (h.history_delivered machine hmachine index envelope hold hkey)
  book_mem := by
    intro machine hmachine known hknown
    by_cases hself : machine = addr
    · subst hself
      rw [machines_commit_self] at hknown
      rcases hacts.mem_keys hknown with hold | ⟨index, envelope, henvelope, hsrc, rfl⟩
      · exact h.book_mem _ haddr known hold
      · exact ⟨h.src_mem index envelope henvelope, hsrc⟩
    · rw [machines_commit_of_ne hself] at hknown
      exact h.book_mem machine hmachine known hknown

theorem step (h : WellFormed ring system) {event : Event}
    (hstep : system.step ring event = some after) : WellFormed ring after := by
  obtain ⟨haddr, hids, hfresh, outcome, hacts, rfl⟩ := exists_of_step hstep
  exact h.commit haddr hids hfresh hacts

end WellFormed

end System

end Derusting
