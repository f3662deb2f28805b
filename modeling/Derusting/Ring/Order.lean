import Derusting.Ring.Holder

/-!
# The order of jobs

New jobs go to the end of the ledger and the first printable one is taken, but taking it is a
swap-remove: the job filed last moves to the front.  Jobs are taken in the order they were filed as
long as no more than two are listed when one is taken.  With a third one the newest job overtakes all
others, and a job behind it waits for as long as new ones keep coming.

The ledger is followed through the machines that hold it, so a step is one on the copy of whoever
holds it at the time.
-/

namespace Derusting

open Foundations.Bounded

/-! ## Filing and taking -/

/-- File a job at the end of the ledger. -/
def LedgerState.file (state : LedgerState) (guid : Uuid) : LedgerState :=
  { state with ledger := { state.ledger with jobs := state.ledger.jobs.insert guid } }

/-- A round of the holder when its machine is free, every file is there and Marlin accepts the
job. -/
def LedgerState.willing (state : LedgerState) (display : Uuid → List Char) : TickEnv where
  myAddr := some state.ledger.owner
  isReady := true
  isIdle := true
  canOpen _ := true
  print _ := .ok ()
  display := display

/-- What an upload at the holder does to its copy. -/
theorem jobs_appendToLedger_of_owner {machine : Machine} {state : LedgerState} (guid : Uuid)
    (h : machine.jobs = some state) :
    (appendToLedger (some state.ledger.owner) guid machine).1.jobs = some (state.file guid) := by
  rw [appendToLedger_of_owner h rfl]
  rfl

/-- What a new-job message does to a copy. -/
theorem jobs_receiveMessage_of_newJob (sender : Ipv4Addr) {message : Message} {machine : Machine}
    {state : LedgerState} {guid : Uuid} (h : machine.jobs = some state)
    (hnew : message.idempotency ∉ machine.history) (hpayload : message.payload = .newJob guid) :
    (receiveMessage sender message machine).jobs = some (state.file guid) := by
  rw [jobs_receiveMessage_newJob sender hnew hpayload, h]
  rfl

/-- A round of the holder takes the first job of the ledger. -/
theorem manufacture_willing (state : LedgerState) (display : Uuid → List Char) :
    manufacture (state.willing display) true state =
      match state.ledger.jobs.toList.head? with
      | none => (state, .quiet)
      | some guid =>
          ({ state with ledger := { state.ledger with jobs := state.ledger.jobs.remove guid } },
            ⟨some guid, [.log ("Job Accepted: ".toList ++ display guid)]⟩) := by
  have howner : state.isOwner (some state.ledger.owner) = true := LedgerState.isOwner_some.mpr rfl
  have hfirst : state.ledger.jobs.toList.find? (fun _ ↦ true) = state.ledger.jobs.toList.head? := by
    cases state.ledger.jobs.toList <;> rfl
  rw [manufacture, LedgerState.willing, howner, hfirst]
  cases state.ledger.jobs.toList.head? <;> rfl

/-! ## Runs of a ledger -/

/-- A ledger with its pending jobs in the order they were filed. -/
structure Filing where
  state : LedgerState
  filed : List Uuid

/-- What happens to a ledger: a job is filed, the holder takes one, the ledger is passed on. -/
inductive LedgerEvent where
  | file (guid : Uuid)
  | print (display : Uuid → List Char)
  | pass (owner : Ipv4Addr) (now : Instant)

namespace Filing

/-- The listed jobs, in the order of the ledger. -/
def listed (filing : Filing) : List Uuid := filing.state.ledger.jobs.toList

/-- A ledger whose jobs were filed in the order it lists them. -/
def start (state : LedgerState) : Filing := ⟨state, state.ledger.jobs.toList⟩

/-- One step, with the job that was taken. A job that is listed already or finds the ledger full is
not filed. -/
def step (filing : Filing) : LedgerEvent → Filing × Option Uuid
  | .file guid =>
      ({ state := filing.state.file guid
         filed :=
          if guid ∈ filing.listed ∨ 8 ≤ filing.listed.length then filing.filed
          else filing.filed ++ [guid] }, none)
  | .print display =>
      let (made, output) := manufacture (filing.state.willing display) true filing.state
      match output.accepted with
      | none => ({ filing with state := made }, none)
      | some guid => (⟨made, filing.filed.erase guid⟩, some guid)
  | .pass owner now =>
      ({ filing with state := .new { filing.state.ledger with owner := owner } now }, none)

/-- The jobs taken in a run. -/
def taken (filing : Filing) : List LedgerEvent → List Uuid
  | [] => []
  | event :: events => (filing.step event).2.toList ++ (filing.step event).1.taken events

/-- Whoever takes a job takes the pending one that was filed first. -/
def InOrder (filing : Filing) : List LedgerEvent → Prop
  | [] => True
  | event :: events =>
      ((filing.step event).2 = none ∨ (filing.step event).2 = filing.filed.head?) ∧
        (filing.step event).1.InOrder events

/-- A job is taken from among three or more only if it is the last one that is taken. -/
def Uncrowded (filing : Filing) : List LedgerEvent → Prop
  | [] => True
  | event :: events =>
      ((filing.step event).2 = none ∨ filing.listed.length ≤ 2 ∨
        (filing.step event).1.taken events = []) ∧
        (filing.step event).1.Uncrowded events

variable {filing : Filing}

theorem step_file_of_room {guid : Uuid} (hnew : guid ∉ filing.listed)
    (hroom : filing.listed.length < 8) :
    ((filing.step (.file guid)).1.listed = filing.listed ++ [guid]) ∧
      (filing.step (.file guid)).1.filed = filing.filed ++ [guid] := by
  refine ⟨IndexSet.toList_insert hnew hroom, ?_⟩
  exact if_neg (not_or.mpr ⟨hnew, Nat.not_le.mpr hroom⟩)

theorem step_file_of_refused {guid : Uuid} (h : guid ∈ filing.listed ∨ 8 ≤ filing.listed.length) :
    (filing.step (.file guid)).1.listed = filing.listed ∧
      (filing.step (.file guid)).1.filed = filing.filed := by
  refine ⟨?_, if_pos h⟩
  have hsame : filing.state.ledger.jobs.insert guid = filing.state.ledger.jobs := by
    rcases h with hmem | hfull
    · exact IndexSet.insert_of_mem hmem
    · exact IndexSet.insert_of_full hfull
  exact congrArg IndexSet.toList hsame

theorem step_print_of_nil {display : Uuid → List Char} (h : filing.listed = []) :
    filing.step (.print display) = (filing, none) := by
  have hhead : filing.state.ledger.jobs.toList.head? = none := List.head?_eq_none_iff.mpr h
  rw [step, manufacture_willing, hhead]
  rfl

/-- The first job is taken and the last one takes its place. -/
theorem step_print_of_cons (display : Uuid → List Char) {first : Uuid} {rest : List Uuid}
    (h : filing.listed = first :: rest) :
    (filing.step (.print display)).2 = some first ∧
      (filing.step (.print display)).1.listed = swapRemove (first :: rest) first ∧
      (filing.step (.print display)).1.filed = filing.filed.erase first := by
  have hhead : filing.state.ledger.jobs.toList.head? = some first := by
    rw [← listed, h, List.head?_cons]
  rw [step, manufacture_willing, hhead, ← h]
  exact ⟨rfl, rfl, rfl⟩

/-! ## Which runs keep the order -/

/-- Where nothing is taken the order is kept. -/
theorem inOrder_of_taken {events : List LedgerEvent} (h : filing.taken events = []) :
    filing.InOrder events ∧ filing.Uncrowded events := by
  induction events generalizing filing with
  | nil => exact ⟨trivial, trivial⟩
  | cons event events ih =>
      obtain ⟨hstep, hrest⟩ := List.append_eq_nil_iff.mp h
      have hnone : (filing.step event).2 = none := Option.toList_eq_nil_iff.mp hstep
      exact ⟨⟨.inl hnone, (ih hrest).1⟩, ⟨.inl hnone, (ih hrest).2⟩⟩

/-- The first job of the ledger is not the one that was filed first. -/
def Overtaken (filing : Filing) : Prop :=
  ∃ first rest oldest younger, filing.listed = first :: rest ∧
    filing.filed = oldest :: younger ∧ first ≠ oldest

/-- Filing and passing on does not undo an overtaking. -/
theorem Overtaken.step (h : filing.Overtaken) {event : LedgerEvent}
    (hnone : (filing.step event).2 = none) : (filing.step event).1.Overtaken := by
  obtain ⟨first, rest, oldest, younger, hlisted, hfiled, hne⟩ := h
  cases event with
  | file guid =>
      by_cases hrefused : guid ∈ filing.listed ∨ 8 ≤ filing.listed.length
      · obtain ⟨hsame, hstill⟩ := step_file_of_refused hrefused
        exact ⟨first, rest, oldest, younger, hsame.trans hlisted, hstill.trans hfiled, hne⟩
      · rw [not_or, Nat.not_le] at hrefused
        obtain ⟨hlonger, hlater⟩ := step_file_of_room hrefused.1 hrefused.2
        rw [hlisted] at hlonger
        rw [hfiled] at hlater
        exact ⟨first, _, oldest, _, hlonger, hlater, hne⟩
  | print display =>
      rw [(step_print_of_cons display hlisted).1] at hnone
      cases hnone
  | pass owner now => exact ⟨first, rest, oldest, younger, hlisted, hfiled, hne⟩

/-- After an overtaking the order is kept only as long as nothing more is taken. -/
theorem Overtaken.inOrder_iff (h : filing.Overtaken) {events : List LedgerEvent} :
    filing.InOrder events ↔ filing.taken events = [] := by
  refine ⟨?_, fun hnone ↦ (inOrder_of_taken hnone).1⟩
  induction events generalizing filing with
  | nil => exact fun _ ↦ rfl
  | cons event events ih =>
      rintro ⟨hnone | hfirst, hrest⟩
      · rw [taken, hnone, ih (h.step hnone) hrest]
        rfl
      · -- the job taken is the first of the ledger
        obtain ⟨first, rest, oldest, younger, hlisted, hfiled, hne⟩ := h
        cases event with
        | file guid => cases hfirst.trans (by rw [hfiled, List.head?_cons])
        | print display =>
            rw [(step_print_of_cons display hlisted).1, hfiled, List.head?_cons] at hfirst
            exact absurd (Option.some.inj hfirst) hne
        | pass owner now => cases hfirst.trans (by rw [hfiled, List.head?_cons])

/-- The job that is taken is the first one listed. -/
theorem taken_step_print (display : Uuid → List Char) :
    (filing.step (.print display)).2 = filing.listed.head? := by
  cases hlisted : filing.listed with
  | nil =>
      rw [step_print_of_nil hlisted]
      rfl
  | cons first rest => exact (step_print_of_cons display hlisted).1

/-- Taking a job from among two keeps the order of filing. -/
theorem filed_step_print_of_short (display : Uuid → List Char)
    (hfiled : filing.filed = filing.listed) (hshort : filing.listed.length ≤ 2) :
    (filing.step (.print display)).1.filed = (filing.step (.print display)).1.listed := by
  cases hlisted : filing.listed with
  | nil =>
      rw [step_print_of_nil hlisted]
      exact hfiled
  | cons first rest =>
      obtain ⟨-, hafter, hleft⟩ := step_print_of_cons display hlisted
      rw [hafter, hleft, hfiled, hlisted, List.erase_cons_head]
      rw [hlisted] at hshort
      match rest with
      | [] => exact (swapRemove_singleton first).symm
      | [second] => exact (swapRemove_cons_concat first second []).symm
      | _ :: _ :: _ => exact absurd hshort (by simp)

theorem exists_of_two_lt_length {jobs : List Uuid} (h : 2 < jobs.length) :
    ∃ first middle last, jobs = first :: (middle ++ [last]) ∧ middle ≠ [] := by
  match jobs with
  | first :: second :: third :: rest =>
      refine ⟨first, second :: (third :: rest).dropLast, (third :: rest).getLast (by simp), ?_,
        List.cons_ne_nil _ _⟩
      rw [List.cons_append, List.dropLast_append_getLast]

theorem step_print_of_three (display : Uuid → List Char) {first last : Uuid} {middle : List Uuid}
    (hlisted : filing.listed = first :: (middle ++ [last])) (hfiled : filing.filed = filing.listed)
    (hmiddle : middle ≠ []) : (filing.step (.print display)).1.Overtaken := by
  obtain ⟨-, hafter, hleft⟩ := step_print_of_cons display hlisted
  obtain ⟨oldest, younger, rfl⟩ := List.exists_cons_of_ne_nil hmiddle
  rw [swapRemove_cons_concat] at hafter
  rw [hfiled, hlisted, List.erase_cons_head] at hleft
  refine ⟨last, _, oldest, _, hafter, hleft, ?_⟩
  rintro rfl
  have hnodup := filing.state.ledger.jobs.nodup
  rw [← listed, hlisted] at hnodup
  simp at hnodup

/-- From a ledger in the order of filing, jobs are taken in that order exactly if none but the last
one that is taken is taken from among three or more. -/
theorem inOrder_iff_of_filed (hfiled : filing.filed = filing.listed) (events : List LedgerEvent) :
    filing.InOrder events ↔ filing.Uncrowded events := by
  induction events generalizing filing with
  | nil => exact Iff.rfl
  | cons event events ih =>
      cases event with
      | file guid =>
          apply and_congr (by simp [step])
          apply ih
          by_cases hrefused : guid ∈ filing.listed ∨ 8 ≤ filing.listed.length
          · obtain ⟨hsame, hstill⟩ := step_file_of_refused hrefused
            rw [hsame, hstill, hfiled]
          · rw [not_or, Nat.not_le] at hrefused
            obtain ⟨hlonger, hlater⟩ := step_file_of_room hrefused.1 hrefused.2
            rw [hlonger, hlater, hfiled]
      | pass owner now => exact and_congr (by simp [step]) (ih hfiled)
      | print display =>
          have hhead : (filing.step (.print display)).2 = filing.filed.head? := by
            rw [hfiled, taken_step_print]
          rcases Nat.lt_or_ge 2 filing.listed.length with hcrowded | hshort
          · obtain ⟨first, middle, last, hlisted, hmiddle⟩ := exists_of_two_lt_length hcrowded
            have hovertaken := step_print_of_three display hlisted hfiled hmiddle
            constructor
            · rintro ⟨-, hrest⟩
              have hlast := hovertaken.inOrder_iff.mp hrest
              exact ⟨.inr (.inr hlast), (inOrder_of_taken hlast).2⟩
            · rintro ⟨hnone | hshort | hlast, -⟩
              · rw [taken_step_print, hlisted] at hnone
                cases hnone
              · exact absurd hshort (Nat.not_le.mpr hcrowded)
              · exact ⟨.inr hhead, hovertaken.inOrder_iff.mpr hlast⟩
          · exact and_congr (iff_of_true (.inr hhead) (.inr (.inl hshort)))
              (ih (filed_step_print_of_short display hfiled hshort))

/-- For every ledger and every run, jobs are taken in the order they were filed exactly if none but
the last one that is taken is taken from among three or more. -/
theorem inOrder_iff_uncrowded (state : LedgerState) (events : List LedgerEvent) :
    (start state).InOrder events ↔ (start state).Uncrowded events :=
  inOrder_iff_of_filed rfl events

/-! ## Starvation -/

/-- While a new job is filed before each one that is taken, the second job of the ledger waits: the
new one overtakes it. -/
theorem taken_while_waiting (display : Uuid → List Char) {first waiting : Uuid} {later : List Uuid}
    (hlisted : filing.listed = [first, waiting]) (hnodup : (first :: waiting :: later).Nodup) :
    filing.taken (later.flatMap fun guid ↦ [.file guid, .print display]) =
      (first :: later).dropLast := by
  induction later generalizing filing first with
  | nil => rfl
  | cons guid later ih =>
      have hnew : guid ∉ filing.listed := by
        rw [hlisted]
        simp only [List.nodup_cons, List.mem_cons, not_or] at hnodup
        simp [Ne.symm hnodup.1.2.1, Ne.symm hnodup.2.1.1]
      have hroom : filing.listed.length < 8 := by
        rw [hlisted]
        exact (by decide : 2 < 8)
      have hfiled : (filing.step (.file guid)).1.listed = first :: ([waiting] ++ [guid]) := by
        rw [(step_file_of_room hnew hroom).1, hlisted]
        rfl
      obtain ⟨htaken, hafter, -⟩ := step_print_of_cons display hfiled
      rw [swapRemove_cons_concat] at hafter
      have hrest : (guid :: waiting :: later).Nodup := by
        simp only [List.nodup_cons, List.mem_cons, not_or] at hnodup ⊢
        exact ⟨⟨Ne.symm hnodup.2.1.1, hnodup.2.2.1⟩, hnodup.2.1.2, hnodup.2.2.2⟩
      calc
        filing.taken ((guid :: later).flatMap fun guid ↦ [.file guid, .print display]) =
            ((filing.step (.file guid)).1.step (.print display)).2.toList ++
              ((filing.step (.file guid)).1.step (.print display)).1.taken
                (later.flatMap fun guid ↦ [.file guid, .print display]) := rfl
        _ = first :: (guid :: later).dropLast := by
          rw [htaken, ih hafter hrest]
          rfl

/-! ## Three jobs -/

/-- A ledger of three jobs that are taken one after the other. -/
def three : LedgerState where
  ledger := { owner := .new 10 0 0 1, jobs := ⟨[⟨1⟩, ⟨2⟩, ⟨3⟩], by decide, by decide⟩ }
  received := 0

/-- The job filed last is taken before the second one. -/
theorem not_inOrder_three :
    (start three).taken [.print fun _ ↦ [], .print fun _ ↦ []] = [⟨1⟩, ⟨3⟩] ∧
      ¬ (start three).InOrder [.print fun _ ↦ [], .print fun _ ↦ []] := by
  have htaken : (start three).taken [.print fun _ ↦ [], .print fun _ ↦ []] = [⟨1⟩, ⟨3⟩] := by
    decide +kernel
  refine ⟨htaken, ?_⟩
  have hovertaken : ((start three).step (.print fun _ ↦ [])).1.Overtaken :=
    step_print_of_three _ (show (start three).listed = ⟨1⟩ :: ([⟨2⟩] ++ [⟨3⟩]) from rfl) rfl
      (by decide)
  rintro ⟨-, hrest⟩
  have hnone := hovertaken.inOrder_iff.mp hrest
  rw [taken, List.append_eq_nil_iff] at hnone
  exact absurd hnone.1 (by decide +kernel)

end Filing

end Derusting
