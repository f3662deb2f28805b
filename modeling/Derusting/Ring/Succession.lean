import Derusting.Foundations.Cyclic
import Derusting.Ring.Tasks

/-!
# Passing the ledger around

The pass step of `manage_ledger` looks for the next higher last octet among the addresses of the
book and falls back to the lowest address.  It always names a member of the book.  When the
addresses share their first three octets and every machine's book lists all the others, it names the
cyclic successor by last octet, so that the ledger visits every machine before it comes back.
-/

namespace Derusting

open Foundations.Bounded Foundations.Cyclic

namespace Ipv4Addr

/-- The first three octets. -/
def network (addr : Ipv4Addr) : UInt32 := addr.bits >>> 8

theorem toNat_bits (addr : Ipv4Addr) :
    addr.bits.toNat = 256 * addr.network.toNat + addr.lastOctet.toNat := by
  have hnetwork : addr.network.toNat = addr.bits.toNat / 256 := by
    simp [network, Nat.shiftRight_eq_div_pow]
  have hoctet : addr.lastOctet.toNat = addr.bits.toNat % 256 := by
    simp [lastOctet]
  rw [hnetwork, hoctet, Nat.div_add_mod]

variable {left right : Ipv4Addr}

/-- Within one network addresses are ordered by their last octets. -/
theorem le_iff_lastOctet (h : left.network = right.network) :
    left ≤ right ↔ left.lastOctet.toNat ≤ right.lastOctet.toNat := by
  change left.bits.toNat ≤ right.bits.toNat ↔ _
  rw [toNat_bits left, toNat_bits right, h]
  omega

theorem eq_of_lastOctet (h : left.network = right.network)
    (hoctet : left.lastOctet.toNat = right.lastOctet.toNat) : left = right := by
  apply le_antisymm
  · exact (le_iff_lastOctet h).mpr hoctet.le
  · exact (le_iff_lastOctet h.symm).mpr hoctet.ge

end Ipv4Addr

/-! ## The scan for the next higher octet -/

theorem toNat_saturatingSub (left right : UInt8) :
    (saturatingSub left right).toNat = left.toNat - right.toNat := by
  unfold saturatingSub
  split
  next hle => exact UInt8.toNat_sub_of_le left right hle
  next hlt =>
    rw [UInt8.le_iff_toNat_le] at hlt
    change 0 = _
    omega

/-- `diff` in the scan: how far the last octet of `addr` lies above that of `myAddr`. -/
def distance (myAddr addr : Ipv4Addr) : UInt8 := saturatingSub addr.lastOctet myAddr.lastOctet

theorem toNat_distance (myAddr addr : Ipv4Addr) :
    (distance myAddr addr).toNat = addr.lastOctet.toNat - myAddr.lastOctet.toNat :=
  toNat_saturatingSub _ _

/-- The scan ends on its starting value or on a higher address that beats it. -/
theorem foldl_closer_cases (myAddr : Ipv4Addr) (keys : List Ipv4Addr) (best : UInt8 × Ipv4Addr) :
    keys.foldl (closer myAddr) best = best ∨
      ∃ addr ∈ keys, keys.foldl (closer myAddr) best = (distance myAddr addr, addr) ∧
        0 < (distance myAddr addr).toNat ∧ (distance myAddr addr).toNat < best.1.toNat := by
  induction keys generalizing best with
  | nil => exact .inl rfl
  | cons head keys ih =>
      rw [List.foldl_cons]
      have hstep : closer myAddr best head = best ∨
          closer myAddr best head = (distance myAddr head, head) ∧
            0 < (distance myAddr head).toNat ∧ (distance myAddr head).toNat < best.1.toNat := by
        simp only [closer]
        split
        next hbeats =>
          rw [Bool.and_eq_true, decide_eq_true_eq, decide_eq_true_eq] at hbeats
          exact .inr ⟨rfl, hbeats⟩
        next => exact .inl rfl
      rcases ih (closer myAddr best head) with hkept | ⟨addr, hmem, hfound, hpos, hless⟩
      · rw [hkept]
        exact hstep.imp_right fun htaken ↦ ⟨head, List.mem_cons_self, htaken⟩
      · refine .inr ⟨addr, List.mem_cons_of_mem _ hmem, hfound, hpos, ?_⟩
        rcases hstep with hsame | ⟨htaken, _, hbeats⟩
        · rwa [hsame] at hless
        · rw [htaken] at hless
          exact hless.trans hbeats

/-- No higher address is closer than the one the scan ends on. -/
theorem foldl_closer_le (myAddr : Ipv4Addr) (keys : List Ipv4Addr) (best : UInt8 × Ipv4Addr) :
    (keys.foldl (closer myAddr) best).1.toNat ≤ best.1.toNat ∧
      ∀ addr ∈ keys, 0 < (distance myAddr addr).toNat →
        (keys.foldl (closer myAddr) best).1.toNat ≤ (distance myAddr addr).toNat := by
  induction keys generalizing best with
  | nil => exact ⟨le_rfl, fun _ hmem ↦ absurd hmem List.not_mem_nil⟩
  | cons head keys ih =>
      rw [List.foldl_cons]
      obtain ⟨hbest, hrest⟩ := ih (closer myAddr best head)
      have hstep : (closer myAddr best head).1.toNat ≤ best.1.toNat ∧
          (0 < (distance myAddr head).toNat →
            (closer myAddr best head).1.toNat ≤ (distance myAddr head).toNat) := by
        simp only [closer]
        split
        next hbeats =>
          rw [Bool.and_eq_true, decide_eq_true_eq, decide_eq_true_eq] at hbeats
          exact ⟨hbeats.2.le, fun _ ↦ le_rfl⟩
        next hkept =>
          refine ⟨le_rfl, fun hpos ↦ Nat.le_of_not_lt fun hless ↦ hkept ?_⟩
          rw [Bool.and_eq_true, decide_eq_true_eq, decide_eq_true_eq]
          exact ⟨hpos, hless⟩
      refine ⟨hbest.trans hstep.1, fun addr hmem hpos ↦ ?_⟩
      rcases List.mem_cons.mp hmem with rfl | hold
      · exact hbest.trans (hstep.2 hpos)
      · exact hrest addr hold hpos

/-- The two ways in which the pass step chooses. -/
theorem nextOwner_cases (myAddr : Ipv4Addr) (keys : List Ipv4Addr) :
    (∃ addr ∈ keys, nextOwner myAddr keys = some addr ∧ 0 < (distance myAddr addr).toNat ∧
      ∀ other ∈ keys, 0 < (distance myAddr other).toNat →
        (distance myAddr addr).toNat ≤ (distance myAddr other).toNat) ∨
    (nextOwner myAddr keys = keys.min? ∧
      ∀ other ∈ keys, 0 < (distance myAddr other).toNat → 255 ≤ (distance myAddr other).toNat) := by
  obtain ⟨-, hleast⟩ := foldl_closer_le myAddr keys (255, Ipv4Addr.new 255 255 255 255)
  rcases foldl_closer_cases myAddr keys (255, Ipv4Addr.new 255 255 255 255) with
    hkept | ⟨addr, hmem, hfound, hpos, hless⟩
  · rw [hkept] at hleast
    refine .inr ⟨?_, hleast⟩
    simp only [nextOwner, hkept]
    exact if_neg (by decide)
  · rw [hfound] at hleast
    refine .inl ⟨addr, hmem, ?_, hpos, hleast⟩
    simp only [nextOwner, hfound]
    apply if_pos
    rw [Bool.and_eq_true, decide_eq_true_eq, decide_eq_true_eq]
    exact ⟨hpos, hless⟩

/-! ## A ring within one network -/

/-- At least two machines that share their first three octets, each with a book that lists all the
others, in whatever order. -/
structure Subnet where
  machines : Finset Ipv4Addr
  two_le_card : 2 ≤ machines.card
  shared : ∀ left ∈ machines, ∀ right ∈ machines, left.network = right.network
  books : Ipv4Addr → List Ipv4Addr
  mem_books : ∀ addr ∈ machines, ∀ other, other ∈ books addr ↔ other ∈ machines ∧ other ≠ addr

namespace Subnet

variable (subnet : Subnet) {addr : Ipv4Addr}

/-- The last octet, by which the ring is ordered. -/
def octet (addr : Ipv4Addr) : ℕ := addr.lastOctet.toNat

theorem octet_injOn : Set.InjOn octet subnet.machines :=
  fun left hleft right hright ↦ Ipv4Addr.eq_of_lastOctet (subnet.shared left hleft right hright)

/-- Every machine knows another one. -/
theorem books_ne_nil (h : addr ∈ subnet.machines) : subnet.books addr ≠ [] := by
  obtain ⟨other, hother, hne⟩ := Finset.exists_mem_ne subnet.two_le_card addr
  exact List.ne_nil_of_mem ((subnet.mem_books addr h other).mpr ⟨hother, hne⟩)

/-- The machine to which `addr` passes the ledger. -/
def pass (addr : Ipv4Addr) : Ipv4Addr := (nextOwner addr (subnet.books addr)).getD addr

theorem nextOwner_eq (h : addr ∈ subnet.machines) :
    nextOwner addr (subnet.books addr) = some (subnet.pass addr) := by
  obtain ⟨next, hnext, -⟩ := nextOwner_mem addr (subnet.books_ne_nil h)
  rw [pass, hnext, Option.getD_some]

/-- The lowest address of a book has the least octet in it. -/
theorem octet_min?_le (h : addr ∈ subnet.machines) {lowest other : Ipv4Addr}
    (hlowest : (subnet.books addr).min? = some lowest) (hother : other ∈ subnet.books addr) :
    octet lowest ≤ octet other := by
  have hle : lowest ≤ other := (List.le_min?_iff hlowest).mp le_rfl other hother
  have hlowestMem := ((subnet.mem_books addr h lowest).mp (List.min?_mem hlowest)).1
  have hotherMem := ((subnet.mem_books addr h other).mp hother).1
  exact (Ipv4Addr.le_iff_lastOctet (subnet.shared _ hlowestMem _ hotherMem)).mp hle

/-- The pass step chooses the cyclic successor by last octet. -/
theorem isSuccessor_pass (h : addr ∈ subnet.machines) :
    IsSuccessor subnet.machines octet addr (subnet.pass addr) := by
  have hknown {other : Ipv4Addr} (hother : other ∈ subnet.machines) (hne : octet other ≠ octet addr) :
      other ∈ subnet.books addr :=
    (subnet.mem_books addr h other).mpr ⟨hother, fun hsame ↦ hne (congrArg octet hsame)⟩
  have hdistance (other : Ipv4Addr) :
      (distance addr other).toNat = octet other - octet addr := toNat_distance addr other
  have hnext := subnet.nextOwner_eq h
  rcases nextOwner_cases addr (subnet.books addr) with
    ⟨found, hmem, hfound, hpos, hleast⟩ | ⟨hfallback, hfar⟩
  · obtain rfl : found = subnet.pass addr := Option.some.inj (hfound.symm.trans hnext)
    refine ⟨((subnet.mem_books addr h _).mp hmem).1, .inl ⟨?_, fun other hother habove ↦ ?_⟩⟩
    · rw [hdistance] at hpos
      omega
    · have hcloser := hleast other (hknown hother habove.ne') (by rw [hdistance]; omega)
      rw [hdistance, hdistance] at hcloser
      omega
  · rw [hfallback] at hnext
    have hmem := (subnet.mem_books addr h _).mp (List.min?_mem hnext)
    refine ⟨hmem.1, ?_⟩
    by_cases habove : octet addr < octet (subnet.pass addr)
    · -- only 0 and 255 are so far apart, so nothing lies between
      refine .inl ⟨habove, fun other hother hless ↦ ?_⟩
      exact subnet.octet_min?_le h hnext (hknown hother hless.ne')
    · have hlargest (other : Ipv4Addr) (hother : other ∈ subnet.machines) :
          octet other ≤ octet addr := by
        by_contra hless
        have hmemOther := hknown hother (by omega)
        have hgap := hfar other hmemOther (by rw [hdistance]; omega)
        rw [hdistance] at hgap
        have hbound : octet other < 256 := other.lastOctet.toNat_lt
        have hne : octet (subnet.pass addr) ≠ octet addr := fun hsame ↦
          hmem.2 (subnet.octet_injOn hmem.1 h hsame)
        omega
      refine .inr ⟨hlargest, fun other hother ↦ ?_⟩
      by_cases hself : octet other = octet addr
      · exact (hlargest _ hmem.1).trans hself.ge
      · exact subnet.octet_min?_le h hnext (hknown hother hself)

end Subnet

/-- A round that passes the ledger on names the chosen member of the book as owner. -/
theorem TickOutcome.owner?_of_pass {env : TickEnv} {myAddr : Ipv4Addr} {machine after : Machine}
    {output : TickOutput} {state : LedgerState} (h : TickOutcome env myAddr machine after output)
    (hjobs : machine.jobs = some state)
    (howner : (staleTakeover myAddr machine.addresses machine.clock state).ledger.owner = myAddr)
    (hobserved : machine.observedOwnership = true) (hbook : machine.addresses.keys ≠ []) :
    after.owner? = nextOwner myAddr machine.addresses.keys := by
  cases h with
  | created hnone => cases hjobs.symm.trans hnone
  | waited hbefore htaken hidle =>
      obtain rfl := Option.some.inj (hjobs.symm.trans hbefore)
      exact absurd ⟨htaken ▸ howner, hobserved⟩ hidle
  | kept _ _ _ _ _ halone => exact absurd halone hbook
  | passed _ _ _ _ _ hnext _ => exact hnext.symm

/-- The owner a machine passes the ledger to is always a member of its book; and in a ring within
one network it is the cyclic successor by last octet, so that from any machine on every machine
becomes owner exactly once before the first one does again. -/
theorem ring_visits_everyone :
    (∀ (env : TickEnv) (myAddr : Ipv4Addr) (machine : Machine) (state : LedgerState),
      env.myAddr = some myAddr → machine.jobs = some state →
      (staleTakeover myAddr machine.addresses machine.clock state).ledger.owner = myAddr →
      machine.observedOwnership = true → machine.addresses.keys ≠ [] →
      ∃ next ∈ machine.addresses.keys, nextOwner myAddr machine.addresses.keys = some next ∧
        (manageLedger env machine).1.owner? = some next) ∧
    ∀ (subnet : Subnet), ∀ addr ∈ subnet.machines,
      nextOwner addr (subnet.books addr) = some (subnet.pass addr) ∧
      IsSuccessor subnet.machines Subnet.octet addr (subnet.pass addr) ∧
      Set.BijOn (fun count ↦ subnet.pass^[count] addr) (Finset.range subnet.machines.card)
        subnet.machines ∧
      subnet.pass^[subnet.machines.card] addr = addr := by
  constructor
  · intro env myAddr machine state haddr hjobs howner hobserved hbook
    obtain ⟨next, hnext, hmem⟩ := nextOwner_mem myAddr hbook
    have hround := manageLedger_outcome haddr machine
    exact ⟨next, hmem, hnext, (hround.owner?_of_pass hjobs howner hobserved hbook).trans hnext⟩
  · intro subnet addr haddr
    have hpass : ∀ member ∈ subnet.machines,
        IsSuccessor subnet.machines Subnet.octet member (subnet.pass member) :=
      fun member ↦ subnet.isSuccessor_pass
    exact ⟨subnet.nextOwner_eq haddr, hpass addr haddr, bijOn_iterate subnet.octet_injOn hpass haddr,
      iterate_card subnet.octet_injOn hpass haddr⟩

/-- Last octets 0, 7 and 255: the pair whose distance is the starting value of the scan. -/
def Subnet.edges : Subnet where
  machines := {.new 10 0 0 0, .new 10 0 0 7, .new 10 0 0 255}
  two_le_card := by decide
  shared := by decide
  books addr := [.new 10 0 0 255, .new 10 0 0 0, .new 10 0 0 7].filter (· ≠ addr)
  mem_books := by
    intro addr haddr other
    simp only [List.mem_filter, List.mem_cons, List.not_mem_nil, or_false, Finset.mem_insert,
      Finset.mem_singleton, decide_eq_true_eq]
    tauto

/-- The owner at the lower edge with one other machine in its book. -/
def Machine.passing : Machine :=
  { boot with
    addresses := LinearMap.empty.insert (.new 10 0 0 255) 0
    jobs := some ⟨⟨.new 10 0 0 0, .empty⟩, 0⟩
    observedOwnership := true }

theorem ring_visits_everyone_edges :
    (∃ next ∈ Machine.passing.addresses.keys,
      nextOwner (.new 10 0 0 0) Machine.passing.addresses.keys = some next ∧
      (manageLedger ⟨some (.new 10 0 0 0), false, true, fun _ ↦ true, fun _ ↦ .ok (), fun _ ↦ []⟩
        Machine.passing).1.owner? = some next) ∧
    Set.BijOn (fun count ↦ Subnet.edges.pass^[count] (.new 10 0 0 255)) (Finset.range 3)
      Subnet.edges.machines ∧ Subnet.edges.pass^[3] (.new 10 0 0 255) = .new 10 0 0 255 :=
  ⟨ring_visits_everyone.1 _ (.new 10 0 0 0) Machine.passing _ rfl rfl (by decide) rfl (by decide),
    (ring_visits_everyone.2 Subnet.edges (.new 10 0 0 255) (by decide)).2.2⟩

end Derusting
