import Mathlib.Data.Finset.Card
import Mathlib.Data.Nat.ModEq
import Mathlib.Data.Set.Function

/-!
# Cyclic order on a finite set

A finite set whose members carry distinct keys of a linear order is arranged in a ring: each member
is followed by the one with the least larger key, and the largest by the least.  `rank` counts the
smaller members.  Going to the successor adds one to the rank modulo the number of members, so that
a function which picks successors visits every member exactly once before it comes back.
-/

namespace Foundations.Cyclic

variable {α κ : Type*} [LinearOrder κ]

/-- `next` comes after `member` in the ring of `members`: it has the least larger key or, when there
is none, the least key of all. -/
def IsSuccessor (members : Finset α) (key : α → κ) (member next : α) : Prop :=
  next ∈ members ∧
    ((key member < key next ∧ ∀ other ∈ members, key member < key other → key next ≤ key other) ∨
      ((∀ other ∈ members, key other ≤ key member) ∧ ∀ other ∈ members, key next ≤ key other))

/-- The number of members with a smaller key. -/
def rank (members : Finset α) (key : α → κ) (member : α) : ℕ :=
  (members.filter fun other ↦ key other < key member).card

variable {members : Finset α} {key : α → κ} {member next : α}

theorem rank_lt_card (h : member ∈ members) : rank members key member < members.card := by
  apply Finset.card_lt_card
  apply Finset.filter_ssubset.mpr
  exact ⟨member, h, lt_irrefl _⟩

theorem rank_lt_rank (h : member ∈ members) (hlt : key member < key next) :
    rank members key member < rank members key next := by
  apply Finset.card_lt_card
  refine (Finset.ssubset_iff_of_subset ?_).mpr ⟨member, ?_, ?_⟩
  · intro other hother
    rw [Finset.mem_filter] at hother ⊢
    exact ⟨hother.1, hother.2.trans hlt⟩
  · exact Finset.mem_filter.mpr ⟨h, hlt⟩
  · simp

/-- Members with distinct keys have distinct ranks. -/
theorem rank_injOn (hkey : Set.InjOn key members) : Set.InjOn (rank members key) members := by
  intro left hleft right hright hrank
  apply hkey hleft hright
  rcases lt_trichotomy (key left) (key right) with hlt | heq | hgt
  · exact absurd hrank (rank_lt_rank hleft hlt).ne
  · exact heq
  · exact absurd hrank (rank_lt_rank hright hgt).ne'

/-- The successor of a member that is not the largest. -/
theorem rank_of_least_above (hkey : Set.InjOn key members) (hmember : member ∈ members)
    (hlt : key member < key next)
    (hleast : ∀ other ∈ members, key member < key other → key next ≤ key other) :
    rank members key next = rank members key member + 1 := by
  classical
  have hsmaller : (members.filter fun other ↦ key other < key next) =
      insert member (members.filter fun other ↦ key other < key member) := by
    ext other
    rw [Finset.mem_insert, Finset.mem_filter, Finset.mem_filter]
    constructor
    · rintro ⟨hother, hless⟩
      rcases lt_trichotomy (key other) (key member) with hbelow | hsame | habove
      · exact .inr ⟨hother, hbelow⟩
      · exact .inl (hkey hother hmember hsame)
      · exact absurd hless (hleast other hother habove).not_gt
    · rintro (rfl | ⟨hother, hbelow⟩)
      · exact ⟨hmember, hlt⟩
      · exact ⟨hother, hbelow.trans hlt⟩
  rw [rank, hsmaller, Finset.card_insert_of_notMem (by simp), rank]

/-- The largest member has all others below it. -/
theorem rank_of_largest (hkey : Set.InjOn key members) (hmember : member ∈ members)
    (hlargest : ∀ other ∈ members, key other ≤ key member) :
    rank members key member + 1 = members.card := by
  classical
  have hsmaller : (members.filter fun other ↦ key other < key member) = members.erase member := by
    ext other
    rw [Finset.mem_filter, Finset.mem_erase, and_comm]
    apply and_congr_left
    intro hother
    constructor
    · rintro hless rfl
      exact lt_irrefl _ hless
    · intro hne
      exact (hlargest other hother).lt_of_ne fun hsame ↦ hne (hkey hother hmember hsame)
  rw [rank, hsmaller, Finset.card_erase_add_one hmember]

theorem rank_of_least (hleast : ∀ other ∈ members, key next ≤ key other) :
    rank members key next = 0 := by
  rw [rank, Finset.card_eq_zero, Finset.filter_eq_empty_iff]
  intro other hother
  exact (hleast other hother).not_gt

/-- Going to the successor adds one to the rank, modulo the size of the ring. -/
theorem IsSuccessor.rank_eq (h : IsSuccessor members key member next)
    (hkey : Set.InjOn key members) (hmember : member ∈ members) :
    rank members key next = (rank members key member + 1) % members.card := by
  obtain ⟨hnext, ⟨hlt, hleast⟩ | ⟨hlargest, hleast⟩⟩ := h
  · have hrank := rank_of_least_above hkey hmember hlt hleast
    rw [← hrank, Nat.mod_eq_of_lt (rank_lt_card hnext)]
  · rw [rank_of_least hleast, rank_of_largest hkey hmember hlargest, Nat.mod_self]

section Tour

variable {pass : α → α} (hkey : Set.InjOn key members)
  (hpass : ∀ member ∈ members, IsSuccessor members key member (pass member))

include hpass in
theorem iterate_mem (hmember : member ∈ members) (count : ℕ) : pass^[count] member ∈ members := by
  induction count with
  | zero => exact hmember
  | succ count ih =>
      rw [Function.iterate_succ_apply']
      exact (hpass _ ih).1

include hkey hpass in
theorem rank_iterate (hmember : member ∈ members) (count : ℕ) :
    rank members key (pass^[count] member) = (rank members key member + count) % members.card := by
  induction count with
  | zero => exact (Nat.mod_eq_of_lt (rank_lt_card hmember)).symm
  | succ count ih =>
      have hcurrent := iterate_mem hpass hmember count
      calc
        rank members key (pass^[count + 1] member) =
            (rank members key (pass^[count] member) + 1) % members.card := by
          rw [Function.iterate_succ_apply']
          exact (hpass _ hcurrent).rank_eq hkey hcurrent
        _ = (rank members key member + (count + 1)) % members.card := by
          rw [ih, Nat.mod_add_mod, Nat.add_assoc]

include hkey hpass in
/-- A tour of the ring comes back to where it started. -/
theorem iterate_card (hmember : member ∈ members) : pass^[members.card] member = member := by
  apply rank_injOn hkey (iterate_mem hpass hmember _) hmember
  rw [rank_iterate hkey hpass hmember, Nat.add_mod_right, Nat.mod_eq_of_lt (rank_lt_card hmember)]

include hkey hpass in
/-- Before it comes back the tour has visited every member exactly once. -/
theorem bijOn_iterate (hmember : member ∈ members) :
    Set.BijOn (fun count ↦ pass^[count] member) (Finset.range members.card) members := by
  have hmaps : Set.MapsTo (fun count ↦ pass^[count] member) (Finset.range members.card) members :=
    fun count _ ↦ iterate_mem hpass hmember count
  have hinj : Set.InjOn (fun count ↦ pass^[count] member) (Finset.range members.card) := by
    intro left hleft right hright hsame
    have hrank := congrArg (rank members key) hsame
    simp only [rank_iterate hkey hpass hmember] at hrank
    have hmod : Nat.ModEq members.card left right := Nat.ModEq.add_left_cancel' _ hrank
    rw [Finset.coe_range, Set.mem_Iio] at hleft hright
    exact hmod.eq_of_lt_of_lt hleft hright
  refine ⟨hmaps, hinj, ?_⟩
  apply Finset.surjOn_of_injOn_of_card_le _ hmaps hinj
  rw [Finset.card_range]

end Tour

end Foundations.Cyclic
