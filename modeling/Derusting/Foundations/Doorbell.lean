import Mathlib.Data.Set.Insert
import Mathlib.Tactic

/-!
# A doorbell

Producers leave items and ring only when nothing was waiting; the consumer answers the bell, which
forgets how often it has rung, and collects everything later.  Between the two, items may wait in
silence, since they are about to be collected anyhow.  At any other time the bell has rung when
something waits, and it never rings more than twice before it is answered.
-/

namespace Foundations

universe u

/-- The items that wait, how often the bell has rung since it was last answered, and whether the
consumer has answered it without having collected the items since. -/
structure Doorbell (Item : Type u) where
  waiting : Set Item
  rung : ℕ
  answered : Bool

namespace Doorbell

variable {Item : Type u} {bell : Doorbell Item}

/-- The consumer answers the bell. -/
def answer (bell : Doorbell Item) : Doorbell Item := { bell with rung := 0, answered := true }

/-- The consumer takes everything. -/
def collect (bell : Doorbell Item) : Doorbell Item :=
  { bell with waiting := ∅, answered := false }

/-- Nothing waits unheard. -/
structure Heard (bell : Doorbell Item) : Prop where
  rung : bell.answered = false → bell.waiting.Nonempty → 0 < bell.rung
  few : bell.rung ≤ if bell.answered then 1 else 2
  idle : bell.waiting = ∅ → bell.rung ≤ if bell.answered then 0 else 1

theorem Heard.le_two (h : bell.Heard) : bell.rung ≤ 2 := by
  refine h.few.trans ?_
  cases bell.answered <;> simp

/-- An item is left where others wait. -/
theorem Heard.leave_silently (h : bell.Heard) (item : Item) (hwaiting : bell.waiting.Nonempty) :
    Heard { bell with waiting := insert item bell.waiting } where
  rung hanswered _ := h.rung hanswered hwaiting
  few := h.few
  idle hempty := absurd hempty (Set.insert_nonempty item bell.waiting).ne_empty

/-- The first item comes with a ring. -/
theorem Heard.leave_ringing (h : bell.Heard) (item : Item) (hempty : bell.waiting = ∅) :
    Heard { bell with waiting := insert item bell.waiting, rung := bell.rung + 1 } where
  rung _ _ := Nat.succ_pos bell.rung
  few := by
    have hidle := h.idle hempty
    cases hanswered : bell.answered with
    | false =>
        simp only [hanswered, Bool.false_eq_true, if_false] at hidle ⊢
        omega
    | true =>
        simp only [hanswered, if_true] at hidle ⊢
        omega
  idle hnone := absurd hnone (Set.insert_nonempty item bell.waiting).ne_empty

theorem heard_answer (bell : Doorbell Item) : bell.answer.Heard where
  rung hanswered := Bool.noConfusion hanswered
  few := Nat.zero_le _
  idle _ := Nat.zero_le _

theorem Heard.collect (h : bell.Heard) (hanswered : bell.answered = true) : bell.collect.Heard where
  rung _ hwaiting := absurd hwaiting Set.not_nonempty_empty
  few := h.few.trans (by simp [hanswered, Doorbell.collect])
  idle _ := h.few.trans (by simp [hanswered, Doorbell.collect])

end Doorbell

end Foundations
