import Mathlib.Data.List.Basic
import Mathlib.Data.List.Count

/-!
# Uses covered by permits

A history records permits being granted and being used.  It is `Covered` when every use comes after a
grant that no earlier use has consumed, where any number of grants in a row are worth one use.  Then
there are at most as many uses as grants, and a grant stands between any two uses.
-/

namespace Foundations.Permits

universe u

variable {α : Type u} {grants uses : α → Bool}

/-- Every use in the history has a permit; the flag tells whether a permit is left at its end. -/
inductive Covered (grants uses : α → Bool) : Bool → List α → Prop
  | nil : Covered grants uses false []
  | grant {left : Bool} {history : List α} {entry : α} (hcovered : Covered grants uses left history)
      (hgrants : grants entry = true) (hunused : uses entry = false) :
      Covered grants uses true (history ++ [entry])
  | use {history : List α} {entry : α} (hcovered : Covered grants uses true history)
      (hungranted : grants entry = false) (huses : uses entry = true) :
      Covered grants uses false (history ++ [entry])

namespace Covered

variable {left : Bool} {history before middle after : List α} {first second : α}

/-- There are at most as many uses as grants. -/
theorem countP_le (h : Covered grants uses left history) :
    history.countP uses + left.toNat ≤ history.countP grants := by
  induction h with
  | nil => exact Nat.le_refl 0
  | @grant left _ _ _ hgrants hunused ih =>
      have hleft : left.toNat ≤ 1 := Bool.toNat_le left
      simp only [List.countP_append, List.countP_singleton, hgrants, hunused, if_true,
        Bool.false_eq_true, if_false, Bool.toNat_true]
      omega
  | use _ hungranted huses ih =>
      simp only [List.countP_append, List.countP_singleton, hungranted, huses, if_true,
        Bool.false_eq_true, if_false, Bool.toNat_true, Bool.toNat_false] at ih ⊢
      omega

/-- A list that ends in `entry` and splits at `first` either splits at its end or before it. -/
theorem split_concat {entry : α} (h : history ++ [entry] = before ++ first :: middle) :
    middle = [] ∧ first = entry ∨
      ∃ rest, middle = rest ++ [entry] ∧ history = before ++ first :: rest := by
  rcases middle.eq_nil_or_concat with rfl | ⟨rest, last, rfl⟩
  · obtain ⟨-, hlast⟩ := List.append_inj' h rfl
    exact .inl ⟨rfl, (List.cons.inj hlast).1.symm⟩
  · rw [List.concat_eq_append, ← List.cons_append, ← List.append_assoc] at h
    obtain ⟨hhistory, hlast⟩ := List.append_inj' h rfl
    obtain rfl : entry = last := (List.cons.inj hlast).1
    exact .inr ⟨rest, List.concat_eq_append, hhistory⟩

/-- A permit that is left was granted after every use. -/
theorem exists_grant_after (h : Covered grants uses true history)
    (hsplit : history = before ++ first :: middle) (hfirst : uses first = true) :
    ∃ entry ∈ middle, grants entry = true := by
  cases h with
  | grant _ hgrants hunused =>
      rcases split_concat hsplit with ⟨-, rfl⟩ | ⟨rest, rfl, -⟩
      · rw [hfirst] at hunused
        cases hunused
      · exact ⟨_, List.mem_append_right _ List.mem_cons_self, hgrants⟩

/-- A grant stands between any two uses. -/
theorem exists_grant_between (h : Covered grants uses left history)
    (hsplit : history = before ++ first :: (middle ++ second :: after))
    (hfirst : uses first = true) (hsecond : uses second = true) :
    ∃ entry ∈ middle, grants entry = true := by
  have hassoc : before ++ first :: (middle ++ second :: after) =
      (before ++ first :: middle) ++ second :: after := by simp
  rw [hassoc] at hsplit
  induction h generalizing after with
  | nil => simp at hsplit
  | grant _ _ hunused ih =>
      rcases split_concat hsplit with ⟨-, rfl⟩ | ⟨rest, -, hhistory⟩
      · rw [hsecond] at hunused
        cases hunused
      · exact ih hhistory (by simp)
  | use hcovered _ _ ih =>
      rcases split_concat hsplit with ⟨rfl, rfl⟩ | ⟨rest, -, hhistory⟩
      · -- the second use is the last entry, so a permit was left before it
        exact exists_grant_after hcovered (List.append_cancel_right hsplit) hfirst
      · exact ih hhistory (by simp)

end Covered

end Foundations.Permits
