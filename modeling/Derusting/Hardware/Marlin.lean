import Derusting.Ring.Ready
import Derusting.Http.Storage

/-!
# What Marlin is told

`marlin::print` hands Marlin two lines of G-code, `M111 S8` for a dry run and `M32` with the path of
the job.  Marlin may be busy by then, and its queue may refuse either line.  A `Press` is a machine
with the lines that the queue has taken.
-/

namespace Derusting

open Foundations.Text Foundations.Transition

/-- How Marlin answers during one call of `marlin::print`: whether it is idle, and whether its queue
takes the first and the second line. -/
structure MarlinAnswers where
  isIdle : Bool
  takesDry : Bool
  takesPrint : Bool

namespace Marlin

/-- `CString::<64>::extend_from_bytes`. Only the last byte may be a nul. -/
def extendFromBytes (cmd bytes : List UInt8) : Except MarlinError (List UInt8) :=
  let text := if bytes.getLast? = some 0 then bytes.dropLast else bytes
  if 0 ∈ text then .error .extendError
  else if cmd.length + text.length < 64 then .ok (cmd ++ text)
  else .error .extendError

/-- `c"M111 S8"`. -/
def dryRun : List UInt8 := asBytes "M111 S8".toList

/-- `print`, with the lines that Marlin's queue takes. -/
def print (answers : MarlinAnswers) (path : List UInt8) (dry : Bool) :
    Except MarlinError Unit × List (List UInt8) :=
  if answers.isIdle then
    match extendFromBytes [] (asBytes "M32 ".toList) with
    | .error err => (.error err, [])
    | .ok start =>
        match extendFromBytes start path with
        | .error err => (.error err, [])
        | .ok cmd =>
            if dry && !answers.takesDry then (.error .marlinReturnedFalse, [])
            else
              let taken := if dry then [dryRun] else []
              if answers.takesPrint then (.ok (), taken ++ [cmd])
              else (.error .marlinReturnedFalse, taken)
  else (.error .busy, [])

variable (uuid : UuidText) (guid : Uuid)

/-- The line that prints a job. -/
def printLine : List UInt8 := asBytes ("M32 ".toList ++ makePath uuid guid false)

/-- Text of visible characters that a path is made of. -/
def Visible (text : List Char) : Prop := ∀ char ∈ text, 45 ≤ char.toNat ∧ char.toNat < 128

instance (text : List Char) : Decidable (Visible text) :=
  List.decidableBAll _ text

theorem visible_makePath : Visible (makePath uuid guid false) := by
  have hfolder : Visible "/usb/".toList := by decide
  have hsuffix : Visible ".gcode".toList := by decide
  intro char hchar
  rw [makePath, List.mem_append, List.mem_append] at hchar
  rcases hchar with (hfront | hguid) | hend
  · exact hfolder char hfront
  · obtain ⟨hlow, hhigh, -⟩ := uuid.toNat_of_mem_display hguid
    exact ⟨hlow, by omega⟩
  · exact hsuffix char hend

theorem ascii_makePath : Ascii (makePath uuid guid false) :=
  fun char hchar ↦ (visible_makePath uuid guid char hchar).2

theorem length_makePath : (makePath uuid guid false).length = 47 := by
  simp [makePath, uuid.length_display guid]

theorem length_path : (asBytes (makePath uuid guid false)).length = 47 :=
  (ascii_makePath uuid guid).length_asBytes.trans (length_makePath uuid guid)

theorem nul_notMem_path : 0 ∉ asBytes (makePath uuid guid false) := by
  have hnul : '\x00' ∉ makePath uuid guid false := fun hmem ↦
    absurd (visible_makePath uuid guid _ hmem).1 (by decide)
  exact (ascii_makePath uuid guid).notMem_asBytes (by decide) hnul

/-- The path of a job fits behind `M32`. -/
theorem extendFromBytes_path :
    extendFromBytes (asBytes "M32 ".toList) (asBytes (makePath uuid guid false)) =
      .ok (printLine uuid guid) := by
  have hnul := nul_notMem_path uuid guid
  have hlast : (asBytes (makePath uuid guid false)).getLast? ≠ some 0 :=
    fun hlast ↦ hnul (List.mem_of_getLast? hlast)
  have hstart : (asBytes "M32 ".toList).length = 4 := by decide
  simp only [extendFromBytes]
  rw [if_neg hlast, if_neg hnul, length_path, hstart, if_pos (by decide), printLine, asBytes_append]

/-- A job is printed as a dry run or not at all. -/
theorem print_job (answers : MarlinAnswers) :
    print answers (asBytes (makePath uuid guid false)) true =
      if answers.isIdle then
        if answers.takesDry then
          if answers.takesPrint then (.ok (), [dryRun, printLine uuid guid])
          else (.error .marlinReturnedFalse, [dryRun])
        else (.error .marlinReturnedFalse, [])
      else (.error .busy, []) := by
  have hstart : extendFromBytes [] (asBytes "M32 ".toList) = .ok (asBytes "M32 ".toList) := by
    rfl
  simp only [print, hstart, extendFromBytes_path]
  cases answers.takesDry <;> rfl

theorem printLine_ne_dryRun : printLine uuid guid ≠ dryRun := by
  intro hsame
  have hlength := congrArg List.length hsame
  have hascii : Ascii ("M32 ".toList ++ makePath uuid guid false) :=
    Ascii.append (by decide) (ascii_makePath uuid guid)
  rw [printLine, hascii.length_asBytes, List.length_append, length_makePath] at hlength
  exact absurd hlength (by decide)

/-- A job's line is a C string that fits its buffer, and so is `M111 S8`. -/
def Fits (line : List UInt8) : Prop := line.length < 64 ∧ 0 ∉ line

theorem fits_dryRun : Fits dryRun := by
  constructor <;> decide

theorem fits_printLine : Fits (printLine uuid guid) := by
  have hstart : Fits (asBytes "M32 ".toList) := by
    constructor <;> decide
  rw [Fits, printLine, asBytes_append, List.length_append, length_path, List.mem_append, not_or]
  exact ⟨by decide, hstart.2, nul_notMem_path uuid guid⟩

/-- The lines that Marlin's queue has taken, with the jobs that were accepted: dry runs, each with
the line of an accepted job right behind it or with none. -/
inductive Spooled : List (List UInt8) → List Uuid → Prop
  | nothing : Spooled [] []
  | refused {queue : List (List UInt8)} {accepted : List Uuid} (h : Spooled queue accepted) :
      Spooled (queue ++ [dryRun]) accepted
  | printed {queue : List (List UInt8)} {accepted : List Uuid} (guid : Uuid)
      (h : Spooled queue accepted) :
      Spooled (queue ++ [dryRun, printLine uuid guid]) (accepted ++ [guid])

variable {uuid} {guid}

section Spooled

variable {queue : List (List UInt8)} {accepted : List Uuid} (h : Spooled uuid queue accepted)

include h

theorem Spooled.filter : queue.filter (· ≠ dryRun) = accepted.map (printLine uuid) := by
  induction h with
  | nothing => rfl
  | refused h ih => rw [List.filter_append, ih, List.filter_singleton]; simp
  | printed guid h ih =>
      have hne := printLine_ne_dryRun uuid guid
      rw [List.filter_append, ih, List.map_append]
      simp [hne]

theorem Spooled.fits : ∀ line ∈ queue, Fits line := by
  induction h with
  | nothing => simp
  | refused h ih =>
      intro line hline
      rcases List.mem_append.mp hline with hold | hnew
      · exact ih line hold
      · rw [List.mem_singleton.mp hnew]
        exact fits_dryRun
  | printed guid h ih =>
      intro line hline
      rcases List.mem_append.mp hline with hold | hnew
      · exact ih line hold
      · rcases List.mem_pair.mp hnew with rfl | rfl
        · exact fits_dryRun
        · exact fits_printLine uuid guid

omit h in
/-- A line that is no dry run was there before a dry run was added. -/
theorem eq_of_concat_dryRun {front rest : List (List UInt8)} {line : List UInt8}
    (hqueue : queue ++ [dryRun] = front ++ line :: rest) (hline : line ≠ dryRun) :
    ∃ earlier, queue = front ++ line :: earlier := by
  rcases List.eq_nil_or_concat rest with rfl | ⟨earlier, last, rfl⟩
  · have hsame := (List.append_inj' hqueue rfl).2
    exact absurd (List.singleton_inj.mp hsame).symm hline
  · rw [List.concat_eq_append, ← List.cons_append, ← List.append_assoc] at hqueue
    exact ⟨earlier, (List.append_inj' hqueue rfl).1⟩

/-- Right before any other line stands a dry run. -/
theorem Spooled.dry {front rest : List (List UInt8)} {line : List UInt8}
    (hqueue : queue = front ++ line :: rest) (hline : line ≠ dryRun) :
    front.getLast? = some dryRun := by
  induction h generalizing rest with
  | nothing => simp at hqueue
  | refused h ih =>
      obtain ⟨earlier, hearlier⟩ := eq_of_concat_dryRun hqueue hline
      exact ih hearlier
  | printed guid h ih =>
      rw [List.append_cons] at hqueue
      rcases List.eq_nil_or_concat rest with rfl | ⟨middle, last, rfl⟩
      · rw [← (List.append_inj' hqueue rfl).1, List.getLast?_concat]
      · rw [List.concat_eq_append, ← List.cons_append, ← List.append_assoc] at hqueue
        obtain ⟨earlier, hearlier⟩ := eq_of_concat_dryRun (List.append_inj' hqueue rfl).1 hline
        exact ih hearlier

end Spooled

end Marlin

/-! ## A machine and its Marlin -/

/-- A machine with the lines that Marlin's queue has taken from it and the jobs it has accepted. -/
structure Press where
  machine : Machine
  queue : List (List UInt8)
  accepted : List Uuid

/-- A round of `manage_ledger` with Marlin's answers to `marlin::print`, or anything else that a
machine does. -/
inductive PressEvent where
  | round (env : TickEnv) (answers : MarlinAnswers)
  | other (event : LocalEvent)

namespace Press

open Marlin

def boot : Press := ⟨.boot, [], []⟩

/-- The surroundings of a round in which Marlin gives these answers. -/
def surroundings (uuid : UuidText) (env : TickEnv) (answers : MarlinAnswers) : TickEnv :=
  { env with
    print := fun guid ↦ (print answers (asBytes (makePath uuid guid false)) true).1
    display := uuid.display }

/-- The lines that Marlin's queue takes in a round. -/
def lines (uuid : UuidText) (env : TickEnv) (answers : MarlinAnswers) (machine : Machine) :
    List (List UInt8) :=
  match attempted (surroundings uuid env answers) machine with
  | none => []
  | some guid => (print answers (asBytes (makePath uuid guid false)) true).2

def step (uuid : UuidText) (addr : Ipv4Addr) (press : Press) : PressEvent → Option Press
  | .round env answers =>
      (press.machine.step addr (.tick (surroundings uuid env answers))).map fun machine ↦
        { machine := machine
          queue := press.queue ++ lines uuid env answers press.machine
          accepted := press.accepted ++
            (manageLedger (surroundings uuid env answers) press.machine).2.accepted.toList }
  | .other event =>
      if event.isTick then none
      else (press.machine.step addr event).map fun machine ↦ { press with machine := machine }

variable {uuid : UuidText} {addr : Ipv4Addr} {press after : Press} {env : TickEnv}
  {answers : MarlinAnswers} {machine : Machine}

/-- A round adds nothing to the queue, or a dry run, or a dry run and the line of the job that it
accepts. -/
theorem spooled_round {queue : List (List UInt8)} {accepted : List Uuid}
    (h : Spooled uuid queue accepted) (env : TickEnv) (answers : MarlinAnswers)
    (machine : Machine) :
    Spooled uuid (queue ++ lines uuid env answers machine)
      (accepted ++ (manageLedger (surroundings uuid env answers) machine).2.accepted.toList) := by
  rw [accepted_manageLedger, lines]
  cases attempted (surroundings uuid env answers) machine with
  | none => simpa using h
  | some guid =>
      have hresult : ((surroundings uuid env answers).print guid) =
          (print answers (asBytes (makePath uuid guid false)) true).1 := rfl
      simp only [Option.filter_some, hresult, print_job]
      cases answers.isIdle with
      | false => simpa [Except.toBool] using h
      | true =>
          cases answers.takesDry with
          | false => simpa [Except.toBool] using h
          | true =>
              cases answers.takesPrint with
              | false => simpa [Except.toBool] using h.refused
              | true => simpa [Except.toBool] using h.printed guid

theorem Spooled.step (h : Spooled uuid press.queue press.accepted) {event : PressEvent}
    (hstep : press.step uuid addr event = some after) :
    Spooled uuid after.queue after.accepted := by
  cases event with
  | round env answers =>
      obtain ⟨machine, -, rfl⟩ := Option.map_eq_some_iff.mp hstep
      exact spooled_round h env answers press.machine
  | other event =>
      obtain ⟨-, hsome⟩ := Option.ite_none_left_eq_some.mp hstep
      obtain ⟨machine, -, rfl⟩ := Option.map_eq_some_iff.mp hsome
      exact h

/-- A job that a round takes off the ledger has just been queued. -/
theorem queue_of_removed {guid : Uuid}
    (hstep : press.step uuid addr (.round env answers) = some after)
    (hlisted : press.machine.Lists guid) (hgone : ¬ after.machine.Lists guid) :
    after.queue = press.queue ++ [dryRun, printLine uuid guid] := by
  obtain ⟨machine, hmachine, rfl⟩ := Option.map_eq_some_iff.mp hstep
  obtain ⟨hknown, hsome⟩ := Option.ite_none_right_eq_some.mp hmachine
  obtain rfl := Option.some.inj hsome
  rcases hknown with hnone | haddr
  · rw [manageLedger_of_unknown hnone] at hgone
    exact absurd hlisted hgone
  · obtain ⟨hattempted, hprint⟩ := attempted_of_removed haddr hlisted hgone
    have hresult : (print answers (asBytes (makePath uuid guid false)) true).1 = .ok () := hprint
    simp only [lines, hattempted]
    rw [print_job] at hresult ⊢
    cases hidle : answers.isIdle <;> cases hdry : answers.takesDry <;>
      cases htaken : answers.takesPrint <;> simp [hidle, hdry, htaken] at hresult ⊢

/-- Marlin's queue takes from a machine the lines of exactly the jobs that are accepted, in that
order, each right behind a dry run and each a C string that fits its buffer; and no round takes a
job off the ledger without queueing its line. -/
theorem queued_as_accepted (h : Reaches (step uuid addr) Unrestricted boot press) :
    press.queue.filter (· ≠ dryRun) = press.accepted.map (printLine uuid) ∧
      (∀ front line rest, press.queue = front ++ line :: rest → line ≠ dryRun →
        front.getLast? = some dryRun) ∧
      (∀ line ∈ press.queue, Fits line) ∧
      ∀ env answers after guid, press.step uuid addr (.round env answers) = some after →
        press.machine.Lists guid → ¬ after.machine.Lists guid →
          after.queue = press.queue ++ [dryRun, printLine uuid guid] := by
  have hspooled : Spooled uuid press.queue press.accepted :=
    h.invariant (fun press ↦ Spooled uuid press.queue press.accepted) .nothing
      fun _ _ _ hbefore _ hstep ↦ Spooled.step hbefore hstep
  refine ⟨hspooled.filter, ?_, hspooled.fits, ?_⟩
  · intro front line rest hqueue hline
    exact hspooled.dry hqueue hline
  · intro env answers after guid hstep hlisted hgone
    exact queue_of_removed hstep hlisted hgone

/-- `alpha` creates a ledger and files a job. Marlin's queue has only room for the dry run at first
and takes both lines in the next round. -/
def refusedOnce : List PressEvent :=
  let round (takesPrint : Bool) : PressEvent :=
    .round (System.printer System.alpha true) ⟨true, true, takesPrint⟩
  [round true, .other (.upload ⟨7⟩ (some System.alpha)), round true, round false, round true]

theorem queued_as_accepted_refusedOnce :
    ∃ press, Press.accepted press = [⟨7⟩] ∧
      press.queue.filter (· ≠ dryRun) = [printLine .hyphenated ⟨7⟩] ∧ press.queue.length = 3 := by
  obtain ⟨press, hreach, haccepted, hlength⟩ := exists_reaches_of_runIf
    (step .hyphenated System.alpha) Unrestricted boot refusedOnce
    (fun press ↦ press.accepted = [⟨7⟩] ∧ press.queue.length = 3) (by decide +kernel)
  obtain ⟨hqueue, -⟩ := queued_as_accepted hreach
  rw [haccepted] at hqueue
  exact ⟨press, haccepted, hqueue, hlength⟩

end Press

end Derusting
