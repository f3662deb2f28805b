import Mathlib.Data.List.Nodup
import Mathlib.Data.List.Perm.Basic
import Mathlib.Tactic

/-!
# Containers of fixed capacity

Models of allocation-free containers.  Each one is a list that carries its own bound, and, where
the container is keyed, the absence of repeated keys.  An operation that meets a full container
leaves it unchanged; callers that look at the result see the refusal as `none`.

* `Vec`: a vector.
* `IndexSet`: a set iterated in insertion order whose removal is a swap-remove.
* `LinearMap`: an association list with one entry a key.
* `HistoryBuf`: the most recently written values.
* `Channel`: a first-in first-out queue.
-/

namespace Foundations.Bounded

variable {α β : Type*} {capacity : ℕ}

/-! ## Swap-remove on lists -/

/-- Remove `value`, moving the last element into its place. -/
def swapRemove [DecidableEq α] (values : List α) (value : α) : List α :=
  if value ∈ values then
    match values.getLast? with
    | none => []
    | some last => values.dropLast.set (values.idxOf value) last
  else values

/-- Up to order, swap-remove is the erasure of one occurrence. -/
theorem swapRemove_perm_erase [DecidableEq α] (values : List α) (value : α) :
    (swapRemove values value).Perm (values.erase value) := by
  rcases values.eq_nil_or_concat with rfl | ⟨front, last, rfl⟩
  · simp [swapRemove]
  · by_cases hfront : value ∈ front
    · obtain ⟨left, right, rfl, hleft⟩ := List.eq_append_cons_of_mem hfront
      have hindex : (left ++ value :: right ++ [last]).idxOf value = left.length := by
        simp [List.idxOf_append, hleft]
      have hset : (left ++ value :: right).set left.length last = left ++ last :: right := by
        simp
      have herase : (left ++ value :: right ++ [last]).erase value = left ++ right ++ [last] := by
        simp [List.erase_append_right, hleft]
      rw [swapRemove, if_pos (by simp), List.concat_eq_append, List.getLast?_concat]
      simp only [List.dropLast_concat, hindex, hset, herase]
      simpa using List.perm_middle.trans (List.perm_append_singleton last (left ++ right)).symm
    · by_cases hlast : value = last
      · subst hlast
        have hindex : (front ++ [value]).idxOf value = front.length := by
          simp [List.idxOf_append, hfront]
        rw [swapRemove, if_pos (by simp), List.concat_eq_append, List.getLast?_concat]
        simp only [List.dropLast_concat, hindex]
        rw [List.set_eq_of_length_le le_rfl, List.erase_append_right _ hfront]
        simp
      · have habsent : value ∉ front ++ [last] := by simp [hfront, hlast]
        rw [swapRemove, List.concat_eq_append, if_neg habsent, List.erase_of_not_mem habsent]

/-- Swap-remove of the first element puts the last one in front of all others. -/
theorem swapRemove_cons_concat [DecidableEq α] (first last : α) (middle : List α) :
    swapRemove (first :: (middle ++ [last])) first = last :: middle := by
  have hlast : (first :: (middle ++ [last])).getLast? = some last := by
    rw [← List.cons_append, List.getLast?_concat]
  have hfront : (first :: (middle ++ [last])).dropLast = first :: middle := by
    rw [← List.cons_append, List.dropLast_concat]
  rw [swapRemove, if_pos List.mem_cons_self, hlast]
  simp only [hfront, List.idxOf_cons_self, List.set_cons_zero]

theorem swapRemove_singleton [DecidableEq α] (value : α) : swapRemove [value] value = [] := by
  rw [swapRemove, if_pos List.mem_cons_self]
  rfl

/-! ## Vectors -/

/-- A vector of at most `capacity` elements. -/
@[ext]
structure Vec (α : Type*) (capacity : ℕ) where
  toList : List α
  length_le : toList.length ≤ capacity

namespace Vec

/-- The empty vector. -/
def empty : Vec α capacity := ⟨[], Nat.zero_le _⟩

/-- Number of elements that can still be appended. -/
def spare (vec : Vec α capacity) : ℕ := capacity - vec.toList.length

/-- Append a slice if all of it fits; otherwise refuse it as a whole. -/
def extendFromSlice (vec : Vec α capacity) (slice : List α) : Option (Vec α capacity) :=
  if h : (vec.toList ++ slice).length ≤ capacity then some ⟨vec.toList ++ slice, h⟩ else none

/-- Append as much of `slice` as the spare capacity holds. -/
def fill (vec : Vec α capacity) (slice : List α) : Vec α capacity :=
  ⟨vec.toList ++ slice.take vec.spare, by
    have hvec := vec.length_le
    simp only [spare, List.length_append, List.length_take]
    omega⟩

/-- Copy the elements from `start` on to the front: `copy_within(start.., 0)`. -/
def copyWithin (vec : Vec α capacity) (start : ℕ) : Vec α capacity :=
  ⟨vec.toList.drop start ++ vec.toList.drop (vec.toList.length - start), by
    have hvec := vec.length_le
    simp only [List.length_append, List.length_drop]
    omega⟩

/-- Shorten to the first `count` elements. -/
def truncate (vec : Vec α capacity) (count : ℕ) : Vec α capacity :=
  ⟨vec.toList.take count, (List.length_take_le' _ _).trans vec.length_le⟩

/-- Copying the rest to the front and cutting off what it leaves behind drops the front. -/
theorem toList_truncate_copyWithin (vec : Vec α capacity) (start : ℕ) :
    ((vec.copyWithin start).truncate (vec.toList.length - start)).toList =
      vec.toList.drop start := by
  rw [truncate, copyWithin]
  exact List.take_left' List.length_drop

theorem extendFromSlice_of_le (vec : Vec α capacity) (slice : List α)
    (h : (vec.toList ++ slice).length ≤ capacity) :
    vec.extendFromSlice slice = some ⟨vec.toList ++ slice, h⟩ := dif_pos h

/-- A slice no longer than the spare capacity is appended whole. -/
theorem toList_fill_of_le (vec : Vec α capacity) (slice : List α)
    (h : slice.length ≤ vec.spare) : (vec.fill slice).toList = vec.toList ++ slice := by
  simp [fill, List.take_of_length_le h]

end Vec

/-! ## Sets in insertion order -/

/-- A set of at most `capacity` elements, kept in insertion order. -/
@[ext]
structure IndexSet (α : Type*) (capacity : ℕ) where
  toList : List α
  nodup : toList.Nodup
  length_le : toList.length ≤ capacity

namespace IndexSet

instance [DecidableEq α] : DecidableEq (IndexSet α capacity) := fun left right ↦
  decidable_of_iff (left.toList = right.toList) IndexSet.ext_iff.symm

/-- The empty set. -/
def empty : IndexSet α capacity := ⟨[], List.nodup_nil, Nat.zero_le _⟩

instance : Membership α (IndexSet α capacity) := ⟨fun set value ↦ value ∈ set.toList⟩

instance [DecidableEq α] (value : α) (set : IndexSet α capacity) : Decidable (value ∈ set) :=
  inferInstanceAs (Decidable (value ∈ set.toList))

@[simp]
theorem mem_toList {set : IndexSet α capacity} {value : α} : value ∈ set.toList ↔ value ∈ set :=
  Iff.rfl

@[simp]
theorem notMem_empty (value : α) : value ∉ (empty : IndexSet α capacity) := List.not_mem_nil

variable [DecidableEq α]

/-- Insert `value` at the end; a value that is present, or a full set, changes nothing. -/
def insert (set : IndexSet α capacity) (value : α) : IndexSet α capacity :=
  if hmem : value ∈ set.toList then set
  else if hroom : set.toList.length < capacity then
    ⟨set.toList ++ [value], by simpa using set.nodup.concat hmem,
      by simpa using Nat.succ_le_of_lt hroom⟩
  else set

/-- Remove `value` by a swap-remove. -/
def remove (set : IndexSet α capacity) (value : α) : IndexSet α capacity where
  toList := swapRemove set.toList value
  nodup := (swapRemove_perm_erase set.toList value).nodup_iff.mpr (set.nodup.erase value)
  length_le := by
    rw [(swapRemove_perm_erase set.toList value).length_eq]
    exact List.length_erase_le.trans set.length_le

/-- An insertion takes effect when the value is already there or a slot is free. -/
theorem mem_insert_self (set : IndexSet α capacity) (value : α)
    (hroom : value ∈ set ∨ set.toList.length < capacity) : value ∈ set.insert value := by
  unfold insert
  split
  next hmem => exact hmem
  next hmem =>
    have hfree : set.toList.length < capacity := hroom.resolve_left hmem
    rw [dif_pos hfree]
    exact List.mem_append_right _ (List.mem_singleton_self value)

theorem insert_of_mem {set : IndexSet α capacity} {value : α} (h : value ∈ set) :
    set.insert value = set := dif_pos h

theorem insert_of_full {set : IndexSet α capacity} {value : α} (h : capacity ≤ set.toList.length) :
    set.insert value = set := by
  unfold insert
  split
  · rfl
  · exact dif_neg (Nat.not_lt.mpr h)

/-- After its insertion a value is in the set exactly if it was before or had room. -/
theorem mem_insert_self_iff {set : IndexSet α capacity} {value : α} :
    value ∈ set.insert value ↔ value ∈ set ∨ set.toList.length < capacity := by
  refine ⟨fun hmem ↦ ?_, mem_insert_self set value⟩
  by_contra hneither
  rw [not_or, Nat.not_lt] at hneither
  rw [insert_of_full hneither.2] at hmem
  exact hneither.1 hmem

/-- A value that is new and has room goes to the end. -/
theorem toList_insert {set : IndexSet α capacity} {value : α} (hnew : value ∉ set.toList)
    (hroom : set.toList.length < capacity) :
    (set.insert value).toList = set.toList ++ [value] := by
  rw [insert, dif_neg hnew, dif_pos hroom]

theorem mem_insert_of_mem {set : IndexSet α capacity} {value other : α} (h : other ∈ set) :
    other ∈ set.insert value := by
  unfold insert
  split
  · exact h
  · split
    · exact List.mem_append_left _ h
    · exact h

theorem eq_or_mem_of_mem_insert {set : IndexSet α capacity} {value other : α}
    (h : other ∈ set.insert value) : other = value ∨ other ∈ set := by
  unfold insert at h
  split at h
  · exact .inr h
  · split at h
    · rcases List.mem_append.mp h with hold | hnew
      · exact .inr hold
      · exact .inl (List.mem_singleton.mp hnew)
    · exact .inr h

@[simp]
theorem mem_remove {set : IndexSet α capacity} {value other : α} :
    other ∈ set.remove value ↔ other ≠ value ∧ other ∈ set := by
  change other ∈ swapRemove set.toList value ↔ _
  rw [(swapRemove_perm_erase set.toList value).mem_iff, set.nodup.mem_erase_iff]
  rfl

end IndexSet

/-! ## Association lists -/

/-- A map of at most `capacity` entries, one for each key. -/
structure LinearMap (α β : Type*) (capacity : ℕ) where
  entries : List (α × β)
  nodup : (entries.map Prod.fst).Nodup
  length_le : entries.length ≤ capacity

namespace LinearMap

/-- The empty map. -/
def empty : LinearMap α β capacity := ⟨[], List.nodup_nil, Nat.zero_le _⟩

/-- The keys in the order of their entries. -/
def keys (map : LinearMap α β capacity) : List α := map.entries.map Prod.fst

def isEmpty (map : LinearMap α β capacity) : Bool := map.entries.isEmpty

/-- Insert or replace; a new key that meets a full map is refused. -/
def insert [DecidableEq α] (map : LinearMap α β capacity) (key : α) (value : β) :
    LinearMap α β capacity :=
  if hmem : key ∈ map.keys then
    { entries := map.entries.map fun entry ↦ if entry.1 = key then (key, value) else entry
      nodup := by
        have hkeys : (map.entries.map fun entry ↦
            if entry.1 = key then (key, value) else entry).map Prod.fst =
              map.entries.map Prod.fst := by
          rw [List.map_map]
          apply List.map_congr_left
          intro entry _
          simp only [Function.comp_apply]
          split
          next h => exact h.symm
          next => rfl
        rw [hkeys]
        exact map.nodup
      length_le := by simpa using map.length_le }
  else if hroom : map.entries.length < capacity then
    { entries := map.entries ++ [(key, value)]
      nodup := by
        rw [List.map_append, List.map_singleton]
        simpa only [keys, List.concat_eq_append] using map.nodup.concat hmem
      length_le := by simpa using Nat.succ_le_of_lt hroom }
  else map

/-- Keep the entries that pass the test, in their order. -/
def retain (map : LinearMap α β capacity) (keep : α → β → Bool) : LinearMap α β capacity where
  entries := map.entries.filter fun entry ↦ keep entry.1 entry.2
  nodup := map.nodup.sublist (List.filter_sublist.map _)
  length_le := (List.length_filter_le _ _).trans map.length_le

@[simp]
theorem keys_empty : (empty : LinearMap α β capacity).keys = [] := rfl

@[simp]
theorem isEmpty_eq_false_iff {map : LinearMap α β capacity} :
    map.isEmpty = false ↔ map.keys ≠ [] := by
  simp [isEmpty, keys]

theorem isEmpty_iff {map : LinearMap α β capacity} : map.isEmpty = true ↔ map.keys = [] := by
  simp [isEmpty, keys]

theorem eq_or_mem_of_mem_keys_insert [DecidableEq α] {map : LinearMap α β capacity}
    {key other : α} {value : β} (h : other ∈ (map.insert key value).keys) :
    other = key ∨ other ∈ map.keys := by
  unfold insert at h
  split at h
  next hmem =>
    obtain ⟨entry, hentry, rfl⟩ := List.mem_map.mp h
    obtain ⟨old, hold, rfl⟩ := List.mem_map.mp hentry
    split
    · exact .inl rfl
    · exact .inr (List.mem_map_of_mem hold)
  next =>
    split at h
    · rw [keys, List.map_append, List.mem_append] at h
      rcases h with hold | hnew
      · exact .inr hold
      · exact .inl (List.mem_singleton.mp hnew)
    · exact .inr h

/-- An insertion that is not refused sets the value of its key and leaves the others alone. -/
theorem mem_entries_insert [DecidableEq α] {map : LinearMap α β capacity} {key : α} {value : β}
    (h : key ∈ map.keys ∨ map.entries.length < capacity) {entry : α × β} :
    entry ∈ (map.insert key value).entries ↔
      entry = (key, value) ∨ entry.1 ≠ key ∧ entry ∈ map.entries := by
  unfold insert
  split
  next hmem =>
    rw [List.mem_map]
    constructor
    · rintro ⟨old, hold, rfl⟩
      split
      · exact .inl rfl
      next hne => exact .inr ⟨hne, hold⟩
    · rintro (rfl | ⟨hne, hold⟩)
      · obtain ⟨old, hold, hkey⟩ := List.mem_map.mp hmem
        exact ⟨old, hold, if_pos hkey⟩
      · exact ⟨entry, hold, if_neg hne⟩
  next hmem =>
    rw [dif_pos (h.resolve_left hmem), List.mem_append, List.mem_singleton]
    constructor
    · rintro (hold | hnew)
      · refine .inr ⟨?_, hold⟩
        rintro rfl
        exact hmem (List.mem_map_of_mem hold)
      · exact .inl hnew
    · rintro (hnew | ⟨-, hold⟩)
      · exact .inr hnew
      · exact .inl hold

@[simp]
theorem mem_entries_retain {map : LinearMap α β capacity} {keep : α → β → Bool} {entry : α × β} :
    entry ∈ (map.retain keep).entries ↔ entry ∈ map.entries ∧ keep entry.1 entry.2 = true :=
  List.mem_filter

theorem mem_keys_of_mem_keys_retain {map : LinearMap α β capacity} {keep : α → β → Bool}
    {key : α} (h : key ∈ (map.retain keep).keys) : key ∈ map.keys := by
  obtain ⟨entry, hentry, rfl⟩ := List.mem_map.mp h
  exact List.mem_map_of_mem (List.mem_of_mem_filter hentry)

end LinearMap

/-! ## Recently written values -/

/-- The last `capacity` values written, the most recent first. -/
structure HistoryBuf (α : Type*) (capacity : ℕ) where
  toList : List α
  length_le : toList.length ≤ capacity

namespace HistoryBuf

/-- A buffer nothing has been written to. -/
def empty : HistoryBuf α capacity := ⟨[], Nat.zero_le _⟩

/-- Write a value over the oldest one. -/
def write (history : HistoryBuf α capacity) (value : α) : HistoryBuf α capacity :=
  ⟨(value :: history.toList).take capacity, List.length_take_le _ _⟩

instance : Membership α (HistoryBuf α capacity) := ⟨fun history value ↦ value ∈ history.toList⟩

instance [DecidableEq α] (value : α) (history : HistoryBuf α capacity) :
    Decidable (value ∈ history) :=
  inferInstanceAs (Decidable (value ∈ history.toList))

@[simp]
theorem notMem_empty (value : α) : value ∉ (empty : HistoryBuf α capacity) := List.not_mem_nil

theorem toList_write (history : HistoryBuf α capacity) (value : α) :
    (history.write value).toList = (value :: history.toList).take capacity := rfl

/-- A buffer without repetitions that a new value is written to has none either. -/
theorem nodup_write {history : HistoryBuf α capacity} {value : α} (h : history.toList.Nodup)
    (hnew : value ∉ history) : (history.write value).toList.Nodup :=
  (List.nodup_cons.mpr ⟨hnew, h⟩).sublist (List.take_sublist _ _)

theorem eq_or_mem_of_mem_write {history : HistoryBuf α capacity} {value other : α}
    (h : other ∈ history.write value) : other = value ∨ other ∈ history :=
  List.mem_cons.mp (List.mem_of_mem_take h)

end HistoryBuf

/-! ## Queues -/

/-- A queue of at most `capacity` values, the oldest first. -/
@[ext]
structure Channel (α : Type*) (capacity : ℕ) where
  queue : List α
  length_le : queue.length ≤ capacity

namespace Channel

/-- The empty queue. -/
def empty : Channel α capacity := ⟨[], Nat.zero_le _⟩

/-- Whether every slot is taken. -/
def isFull (channel : Channel α capacity) : Bool := decide (capacity ≤ channel.queue.length)

/-- Append a value; `none` when the queue is full and the value goes back to the caller. -/
def trySend (channel : Channel α capacity) (value : α) : Option (Channel α capacity) :=
  if h : channel.queue.length < capacity then
    some ⟨channel.queue ++ [value], by simpa using Nat.succ_le_of_lt h⟩
  else none

/-- Take the oldest value. -/
def tryReceive (channel : Channel α capacity) : Option (α × Channel α capacity) :=
  match h : channel.queue with
  | [] => none
  | value :: rest => some (value, ⟨rest, by
      have := channel.length_le
      rw [h, List.length_cons] at this
      omega⟩)

@[simp]
theorem queue_empty : (empty : Channel α capacity).queue = [] := rfl

theorem trySend_eq_none_iff {channel : Channel α capacity} {value : α} :
    channel.trySend value = none ↔ channel.isFull = true := by
  simp [trySend, isFull]

theorem queue_of_trySend {channel after : Channel α capacity} {value : α}
    (h : channel.trySend value = some after) : after.queue = channel.queue ++ [value] := by
  unfold trySend at h
  split at h
  · rw [← Option.some.inj h]
  · cases h

/-- After it is sent, a value is queued exactly if it was before or there was room. -/
theorem mem_trySend_iff {channel : Channel α capacity} {value : α} :
    value ∈ ((channel.trySend value).getD channel).queue ↔
      value ∈ channel.queue ∨ channel.queue.length < capacity := by
  cases hsent : channel.trySend value with
  | none =>
      have hfull : capacity ≤ channel.queue.length :=
        of_decide_eq_true (trySend_eq_none_iff.mp hsent)
      simp [Nat.not_lt.mpr hfull]
  | some after =>
      have hroom : channel.queue.length < capacity := by
        by_contra hfull
        have hnone : channel.trySend value = none :=
          trySend_eq_none_iff.mpr (decide_eq_true (Nat.not_lt.mp hfull))
        cases hnone.symm.trans hsent
      simp [queue_of_trySend hsent, hroom]

theorem queue_of_tryReceive {channel after : Channel α capacity} {value : α}
    (h : channel.tryReceive = some (value, after)) : channel.queue = value :: after.queue := by
  unfold tryReceive at h
  split at h
  · cases h
  next head rest hqueue =>
    obtain ⟨rfl, rfl⟩ := Prod.mk.inj (Option.some.inj h)
    exact hqueue

theorem tryReceive_eq_none_iff {channel : Channel α capacity} :
    channel.tryReceive = none ↔ channel.queue = [] := by
  unfold tryReceive
  split
  next h => simp [h]
  next head rest h => simp [h]

end Channel

end Foundations.Bounded
