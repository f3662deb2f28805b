import Mathlib.Data.List.Nodup

/-!
# Assigning entries to a record

A parser often collects keyed entries in a record: each entry overwrites what belongs to its key and
leaves the rest alone.  If no key occurs twice the order of the entries does not matter, and each
part of the record is determined by the entry with its key, or by the absence of one.
-/

namespace Foundations.Entries

universe u v w

variable {Record : Type u} {Key : Type v} {Value : Type w} {assign : Record → Key × Value → Record}
  {entries other : List (Key × Value)}

/-- Entries without repeated keys can be assigned in any order. -/
theorem foldl_eq_of_perm
    (hcomm : ∀ record first second, first.1 ≠ second.1 →
      assign (assign record first) second = assign (assign record second) first)
    (hnodup : (entries.map Prod.fst).Nodup) (hperm : entries.Perm other) (record : Record) :
    entries.foldl assign record = other.foldl assign record := by
  refine hperm.foldl_eq' (fun first hfirst second hsecond record ↦ ?_) record
  by_cases hkey : first.1 = second.1
  · rw [List.inj_on_of_nodup_map hnodup hfirst hsecond hkey]
  · exact hcomm record first second hkey

section Part

variable {Part : Type*} {part : Record → Part} {key : Key}

/-- Entries with other keys do not touch the part of a key. -/
theorem part_foldl_of_ne
    (hother : ∀ record entry, entry.1 ≠ key → part (assign record entry) = part record)
    (hne : ∀ entry ∈ entries, entry.1 ≠ key) (record : Record) :
    part (entries.foldl assign record) = part record := by
  induction entries generalizing record with
  | nil => rfl
  | cons entry entries ih =>
      rw [List.foldl_cons, ih fun later hlater ↦ hne later (List.mem_cons_of_mem _ hlater)]
      exact hother record entry (hne entry List.mem_cons_self)

/-- The only entry with a key determines its part. -/
theorem part_foldl_of_mem
    (hother : ∀ record entry, entry.1 ≠ key → part (assign record entry) = part record)
    (update : Value → Part → Part)
    (hkey : ∀ record value, part (assign record (key, value)) = update value (part record))
    (hnodup : (entries.map Prod.fst).Nodup) {value : Value} (hmem : (key, value) ∈ entries)
    (record : Record) :
    part (entries.foldl assign record) = update value (part record) := by
  obtain ⟨before, after, rfl⟩ := List.append_of_mem hmem
  rw [List.map_append, List.map_cons, List.nodup_middle, List.nodup_cons, List.mem_append,
    not_or] at hnodup
  obtain ⟨⟨hbefore, hafter⟩, -⟩ := hnodup
  have hne {part : List (Key × Value)} (h : key ∉ part.map Prod.fst) :
      ∀ entry ∈ part, entry.1 ≠ key := fun entry hentry hsame ↦
    h (hsame ▸ List.mem_map_of_mem hentry)
  rw [List.foldl_append, List.foldl_cons, part_foldl_of_ne hother (hne hafter), hkey,
    part_foldl_of_ne hother (hne hbefore)]

/-- A property the part did not have at first comes from the entry with the key. -/
theorem part_foldl_iff
    (hother : ∀ record entry, entry.1 ≠ key → part (assign record entry) = part record)
    (update : Value → Part → Part)
    (hkey : ∀ record value, part (assign record (key, value)) = update value (part record))
    (hnodup : (entries.map Prod.fst).Nodup) {record : Record} (Holds : Part → Prop)
    (hstart : ¬ Holds (part record)) :
    Holds (part (entries.foldl assign record)) ↔
      ∃ value, (key, value) ∈ entries ∧ Holds (update value (part record)) := by
  constructor
  · intro h
    by_contra hnone
    rw [not_exists] at hnone
    by_cases hmem : ∃ value, (key, value) ∈ entries
    · obtain ⟨value, hmem⟩ := hmem
      rw [part_foldl_of_mem hother update hkey hnodup hmem] at h
      exact hnone value ⟨hmem, h⟩
    · have hne : ∀ entry ∈ entries, entry.1 ≠ key := by
        rintro ⟨_, value⟩ hentry rfl
        exact hmem ⟨value, hentry⟩
      rw [part_foldl_of_ne hother hne] at h
      exact hstart h
  · rintro ⟨value, hmem, h⟩
    rwa [part_foldl_of_mem hother update hkey hnodup hmem]

end Part

end Foundations.Entries
