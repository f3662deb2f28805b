import Derusting.Foundations.Text
import Derusting.Foundations.Bounded

/-!
# Cleaning the USB stick

`find_and_delete` of `fs.rs` deletes the files that match a pattern, one in each round of its loop.
Every round searches the root directory from its beginning, so a round that neither deletes the
first match nor returns is repeated for ever.  The path of a match is built in a string of 64 bytes
and then copied to a C string of 64 bytes, which needs one more for the nul.  The loop cleans the
stick exactly if it meets no name of more than 58 bytes: it skips the names from 60 bytes on without
end, and panics on 59 bytes.
-/

namespace Derusting.Http

open Foundations.Text Foundations.Bounded

/-- A name in the root directory, as FatFs returns it. -/
structure FileName where
  bytes : List UInt8
  text : (fromUtf8 bytes).isSome = true
  ne_nil : bytes ≠ []
  zero_notMem : 0 ∉ bytes
  length_le : bytes.length ≤ 255
deriving DecidableEq

/-- How FatFs matches names with patterns: a `*` and what is behind it match, whatever else, the
names that end in the latter. -/
structure Glob where
  admits : List Char → FileName → Bool
  admits_star : ∀ {suffix name front}, name.bytes = front ++ asBytes suffix →
    admits ('*' :: suffix) name = true

/-- What the loop calls, in order. -/
inductive UsbCall where
  | findfirst
  | closedir
  | unlink (path : List UInt8) (ret : ℤ)
deriving DecidableEq

inductive LoopStatus where
  | running
  | returned
  | panicked
deriving DecidableEq

/-- The root directory, with the calls made so far and what has become of the loop. -/
structure Cleaning where
  entries : List FileName
  calls : List UsbCall
  status : LoopStatus

/-- What the stick answers in one round: whether `f_findfirst` succeeds, and the result of
`unlink`. -/
structure UsbAnswer where
  found : Bool
  ret : ℤ

/-- `/usb/`. -/
def usbPrefix : List UInt8 := [47, 117, 115, 98, 47]

/-- `name.to_str().unwrap_or("")`, as bytes. -/
def toStrOrEmpty (name : List UInt8) : List UInt8 := if (fromUtf8 name).isSome then name else []

/-- `write!(path, "/usb/{}", name)` into a `String<64>`. -/
def usbPath (name : List UInt8) : Option (Vec UInt8 64) :=
  ((Vec.empty : Vec UInt8 64).extendFromSlice usbPrefix).bind fun path ↦
    path.extendFromSlice (toStrOrEmpty name)

/-- `CString::<64>::from_bytes_with_nul`, which adds the nul. -/
def cString (bytes : List UInt8) : Option (Vec UInt8 64) :=
  (Vec.empty : Vec UInt8 64).extendFromSlice (bytes ++ [0])

/-- `unlink`: a result of zero means that the file is gone, any other that nothing has changed. -/
def unlink (path : List UInt8) (ret : ℤ) (entries : List FileName) : List FileName :=
  if ret = 0 then entries.eraseP fun entry ↦ usbPrefix ++ entry.bytes ++ [0] = path else entries

/-- One round of `find_and_delete`. The directory handle is closed when it is dropped, which a panic
does not come to. -/
def findAndDeleteRound (pattern : FileName → Bool) (answer : UsbAnswer) (cleaning : Cleaning) :
    Cleaning :=
  if answer.found then
    match cleaning.entries.find? pattern with
    | none =>
        { cleaning with calls := cleaning.calls ++ [.findfirst, .closedir], status := .returned }
    | some name =>
        match usbPath name.bytes with
        | none => { cleaning with calls := cleaning.calls ++ [.findfirst, .closedir] }
        | some path =>
            match cString path.toList with
            | none =>
                { cleaning with calls := cleaning.calls ++ [.findfirst], status := .panicked }
            | some path =>
                { entries := unlink path.toList answer.ret cleaning.entries
                  calls := cleaning.calls ++
                    [.findfirst, .closedir, .unlink path.toList answer.ret]
                  status := if answer.ret = 0 then .running else .returned }
  else { cleaning with status := .returned }

/-- `find_and_delete` after `count` rounds, or earlier if it has ended before. -/
def findAndDelete (pattern : FileName → Bool) (answers : ℕ → UsbAnswer) (entries : List FileName) :
    ℕ → Cleaning
  | 0 => ⟨entries, [], .running⟩
  | count + 1 =>
      let cleaning := findAndDelete pattern answers entries count
      if cleaning.status = .running then findAndDeleteRound pattern (answers count) cleaning
      else cleaning

/-! ## Paths -/

theorem FileName.toStrOrEmpty_bytes (name : FileName) : toStrOrEmpty name.bytes = name.bytes :=
  if_pos name.text

theorem FileName.ext_bytes {left right : FileName} (h : left.bytes = right.bytes) :
    left = right := by
  cases left
  cases right
  cases h
  rfl

theorem length_usbPrefix_append (name : List UInt8) :
    (usbPrefix ++ name).length = name.length + 5 := by
  rw [List.length_append, Nat.add_comm]
  rfl

theorem extendFromSlice_of_lt {vec : Vec UInt8 64} {slice : List UInt8}
    (h : 64 < (vec.toList ++ slice).length) : vec.extendFromSlice slice = none :=
  dif_neg (Nat.not_le.mpr h)

/-- The path of a name of up to 59 bytes fits into the string. -/
theorem FileName.usbPath_of_le {name : FileName} (h : name.bytes.length ≤ 59) :
    ∃ path, usbPath name.bytes = some path ∧ path.toList = usbPrefix ++ name.bytes := by
  have hfits : (usbPrefix ++ name.bytes).length ≤ 64 := by
    rw [length_usbPrefix_append]
    omega
  refine ⟨⟨usbPrefix ++ name.bytes, hfits⟩, ?_, rfl⟩
  rw [usbPath, name.toStrOrEmpty_bytes, Vec.extendFromSlice_of_le _ _ (by decide), Option.bind_some]
  exact Vec.extendFromSlice_of_le _ _ hfits

theorem FileName.usbPath_of_lt {name : FileName} (h : 59 < name.bytes.length) :
    usbPath name.bytes = none := by
  rw [usbPath, name.toStrOrEmpty_bytes, Vec.extendFromSlice_of_le _ _ (by decide), Option.bind_some]
  apply extendFromSlice_of_lt
  have hprefix : ((Vec.empty : Vec UInt8 64).toList ++ usbPrefix).length = 5 := rfl
  rw [List.length_append, hprefix]
  omega

/-- The C string needs one byte more than the text. -/
theorem cString_of_le {bytes : List UInt8} (h : bytes.length ≤ 63) :
    ∃ path, cString bytes = some path ∧ path.toList = bytes ++ [0] := by
  have hfits : (bytes ++ [0]).length ≤ 64 := by
    rw [List.length_append]
    exact Nat.add_le_add_right h 1
  exact ⟨⟨bytes ++ [0], hfits⟩, Vec.extendFromSlice_of_le _ _ hfits, rfl⟩

theorem cString_of_lt {bytes : List UInt8} (h : 63 < bytes.length) : cString bytes = none := by
  apply extendFromSlice_of_lt
  have hempty : (Vec.empty : Vec UInt8 64).toList = [] := rfl
  rw [hempty, List.nil_append, List.length_append]
  exact Nat.add_lt_add_right h 1

/-! ## One round -/

variable {pattern : FileName → Bool} {answer : UsbAnswer} {cleaning : Cleaning}

/-- The matching names, in the order of the directory. -/
def Cleaning.matching (pattern : FileName → Bool) (cleaning : Cleaning) : List FileName :=
  cleaning.entries.filter pattern

theorem find?_of_filter_eq_cons {entries rest : List FileName} {name : FileName}
    (h : entries.filter pattern = name :: rest) : entries.find? pattern = some name := by
  rw [← List.head?_filter, h, List.head?_cons]

/-- Deleting the first match takes it off the matching names. -/
theorem filter_unlink {entries rest : List FileName} {name : FileName}
    (h : entries.filter pattern = name :: rest) :
    (unlink (usbPrefix ++ name.bytes ++ [0]) 0 entries).filter pattern = rest := by
  obtain ⟨hname, left, right, rfl, hleft⟩ :=
    List.find?_eq_some_iff_append.mp (find?_of_filter_eq_cons h)
  have hnone : ∀ entry ∈ left, ¬ decide (usbPrefix ++ entry.bytes ++ [0] =
      usbPrefix ++ name.bytes ++ [0]) = true := by
    intro entry hentry hsame
    have hbytes := List.append_cancel_left (List.append_cancel_right (of_decide_eq_true hsame))
    have hmiss := hleft entry hentry
    rw [FileName.ext_bytes hbytes, hname] at hmiss
    cases hmiss
  have hfilter : left.filter pattern = [] := by
    rw [List.filter_eq_nil_iff]
    intro entry hentry hmatch
    have hmiss := hleft entry hentry
    rw [hmatch] at hmiss
    cases hmiss
  rw [List.filter_append, hfilter, List.filter_cons_of_pos hname, List.nil_append] at h
  rw [unlink, if_pos rfl, List.eraseP_append_right _ hnone, List.eraseP_cons_of_pos (by simp),
    List.filter_append, hfilter, List.nil_append]
  exact (List.cons.inj h).2

theorem findAndDeleteRound_of_nil (hfound : answer.found = true)
    (h : cleaning.matching pattern = []) :
    findAndDeleteRound pattern answer cleaning =
      { cleaning with calls := cleaning.calls ++ [.findfirst, .closedir], status := .returned } := by
  have hnone : cleaning.entries.find? pattern = none := by
    rw [← List.head?_filter]
    exact List.head?_eq_none_iff.mpr h
  rw [findAndDeleteRound, if_pos hfound, hnone]

theorem findAndDeleteRound_of_le {name : FileName} {rest : List FileName}
    (hfound : answer.found = true) (h : cleaning.matching pattern = name :: rest)
    (hle : name.bytes.length ≤ 58) :
    findAndDeleteRound pattern answer cleaning =
      { entries := unlink (usbPrefix ++ name.bytes ++ [0]) answer.ret cleaning.entries
        calls := cleaning.calls ++
          [.findfirst, .closedir, .unlink (usbPrefix ++ name.bytes ++ [0]) answer.ret]
        status := if answer.ret = 0 then .running else .returned } := by
  obtain ⟨path, hpath, hlist⟩ := FileName.usbPath_of_le (hle.trans (by decide))
  have hshort : path.toList.length ≤ 63 := by
    rw [hlist, length_usbPrefix_append]
    omega
  obtain ⟨copy, hcopy, hcopied⟩ := cString_of_le hshort
  rw [hlist] at hcopy hcopied
  rw [findAndDeleteRound, if_pos hfound, find?_of_filter_eq_cons h]
  simp only [hpath, hcopy, hcopied, hlist]

theorem findAndDeleteRound_of_eq {name : FileName} {rest : List FileName}
    (hfound : answer.found = true) (h : cleaning.matching pattern = name :: rest)
    (heq : name.bytes.length = 59) :
    findAndDeleteRound pattern answer cleaning =
      { cleaning with calls := cleaning.calls ++ [.findfirst], status := .panicked } := by
  obtain ⟨path, hpath, hlist⟩ := FileName.usbPath_of_le heq.le
  have hcstring : cString path.toList = none := by
    apply cString_of_lt
    rw [hlist, length_usbPrefix_append, heq]
    decide
  rw [findAndDeleteRound, if_pos hfound, find?_of_filter_eq_cons h]
  simp only [hpath, hcstring]

theorem findAndDeleteRound_of_lt {name : FileName} {rest : List FileName}
    (hfound : answer.found = true) (h : cleaning.matching pattern = name :: rest)
    (hlt : 59 < name.bytes.length) :
    findAndDeleteRound pattern answer cleaning =
      { cleaning with calls := cleaning.calls ++ [.findfirst, .closedir] } := by
  rw [findAndDeleteRound, if_pos hfound, find?_of_filter_eq_cons h]
  simp only [FileName.usbPath_of_lt hlt]

/-! ## Handles -/

/-- Whether every handle is closed exactly once and nothing is deleted while one is open, starting
with an open handle or with none. -/
def Disciplined : Bool → List UsbCall → Prop
  | opened, [] => opened = false
  | false, .findfirst :: calls => Disciplined true calls
  | true, .closedir :: calls => Disciplined false calls
  | false, .unlink _ _ :: calls => Disciplined false calls
  | _, _ :: _ => False

theorem Disciplined.append {opened : Bool} {calls more : List UsbCall} (h : Disciplined opened calls)
    (hmore : Disciplined false more) : Disciplined opened (calls ++ more) := by
  induction calls generalizing opened with
  | nil =>
      have hclosed : opened = false := h
      rw [hclosed]
      exact hmore
  | cons call calls ih =>
      cases opened <;> cases call
      case false.findfirst =>
        have hopened : Disciplined true calls := h
        exact ih hopened
      case false.closedir => exact h.elim
      case false.unlink path ret =>
        have hstill : Disciplined false calls := h
        exact ih hstill
      case true.findfirst => exact h.elim
      case true.closedir =>
        have hclosed : Disciplined false calls := h
        exact ih hclosed
      case true.unlink path ret => exact h.elim

/-! ## The loop -/

section Loop

variable (pattern : FileName → Bool) (answers : ℕ → UsbAnswer) (entries : List FileName)

/-- The loop returns without a panic, every round that goes on leaves fewer matching names, every
handle is closed once and before the deletion, and no match remains if every deletion succeeds. -/
structure Cleans : Prop where
  ends : ∃ count, (findAndDelete pattern answers entries count).status = .returned
  progress : ∀ count, (findAndDelete pattern answers entries (count + 1)).status = .running →
    ((findAndDelete pattern answers entries (count + 1)).matching pattern).length <
      ((findAndDelete pattern answers entries count).matching pattern).length
  closes : ∀ count, Disciplined false (findAndDelete pattern answers entries count).calls
  complete : ∀ count, (findAndDelete pattern answers entries count).status = .returned →
    (∀ path ret, .unlink path ret ∈ (findAndDelete pattern answers entries count).calls →
      ret = 0) →
    (findAndDelete pattern answers entries count).matching pattern = []

/-- The matching names up to the first one that cannot be deleted have at most 58 bytes. -/
def ShortNames : Prop :=
  ∀ index name, (entries.filter pattern)[index]? = some name →
    (∀ earlier < index, (answers earlier).ret = 0) → name.bytes.length ≤ 58

/-- After `count` rounds the loop has deleted the first `count` matches, or it has returned because
there were no more or because one could not be deleted. -/
inductive Advanced (count : ℕ) (cleaning : Cleaning) : Prop
  | running (hcalls : Disciplined false cleaning.calls) (hstatus : cleaning.status = .running)
      (hcount : count ≤ (entries.filter pattern).length)
      (hmatching : cleaning.matching pattern = (entries.filter pattern).drop count)
      (hdeleted : ∀ earlier < count, (answers earlier).ret = 0)
  | returned (hcalls : Disciplined false cleaning.calls) (hstatus : cleaning.status = .returned)
      (hended : (entries.filter pattern).length < count ∨
        ∃ earlier < count, (answers earlier).ret ≠ 0)
      (hcomplete : (∀ path ret, .unlink path ret ∈ cleaning.calls → ret = 0) →
        cleaning.matching pattern = [])

variable {pattern answers entries}

theorem findAndDelete_succ_of_running {count : ℕ}
    (h : (findAndDelete pattern answers entries count).status = .running) :
    findAndDelete pattern answers entries (count + 1) =
      findAndDeleteRound pattern (answers count) (findAndDelete pattern answers entries count) :=
  if_pos h

theorem findAndDelete_succ_of_ended {count : ℕ}
    (h : (findAndDelete pattern answers entries count).status ≠ .running) :
    findAndDelete pattern answers entries (count + 1) =
      findAndDelete pattern answers entries count :=
  if_neg h

/-- A round on a short name deletes it, or returns. -/
theorem Advanced.round {count : ℕ} {cleaning : Cleaning} (hfound : (answers count).found = true)
    (hshort : ∀ name, (entries.filter pattern)[count]? = some name →
      (∀ earlier < count, (answers earlier).ret = 0) → name.bytes.length ≤ 58)
    (h : Advanced pattern answers entries count cleaning) (hrunning : cleaning.status = .running) :
    Advanced pattern answers entries (count + 1)
      (findAndDeleteRound pattern (answers count) cleaning) := by
  cases h with
  | returned _ hstatus _ _ => cases hrunning.symm.trans hstatus
  | running hcalls _ hcount hmatching hdeleted =>
      cases hrest : (entries.filter pattern).drop count with
      | nil =>
          rw [findAndDeleteRound_of_nil hfound (hmatching.trans hrest)]
          have hlength := List.drop_eq_nil_iff.mp hrest
          exact .returned (hcalls.append rfl) rfl (.inl (Nat.lt_succ_of_le hlength))
            fun _ ↦ hmatching.trans hrest
      | cons name rest =>
          have hname : (entries.filter pattern)[count]? = some name := by
            rw [← List.head?_drop, hrest, List.head?_cons]
          rw [findAndDeleteRound_of_le hfound (hmatching.trans hrest) (hshort name hname hdeleted)]
          by_cases hret : (answers count).ret = 0
          · rw [hret, if_pos rfl]
            refine .running (hcalls.append rfl) rfl ?_ ?_ ?_
            · exact (List.getElem?_eq_some_iff.mp hname).1
            · rw [← List.tail_drop, hrest]
              exact filter_unlink (hmatching.trans hrest)
            · intro earlier hearlier
              rcases Nat.lt_succ_iff_lt_or_eq.mp hearlier with hbefore | rfl
              · exact hdeleted earlier hbefore
              · exact hret
          · rw [if_neg hret]
            refine .returned (hcalls.append rfl) rfl (.inr ⟨count, Nat.lt_succ_self count, hret⟩) ?_
            intro hzero
            apply absurd
              (hzero (usbPrefix ++ name.bytes ++ [0]) _ (List.mem_append_right _ ?_)) hret
            exact List.mem_cons_of_mem _ (List.mem_cons_of_mem _ (List.mem_singleton_self _))

theorem Advanced.succ {count : ℕ} {cleaning : Cleaning}
    (h : Advanced pattern answers entries count cleaning) (hended : cleaning.status ≠ .running) :
    Advanced pattern answers entries (count + 1) cleaning := by
  cases h with
  | running _ hstatus _ _ _ => exact absurd hstatus hended
  | returned hcalls hstatus hstop hcomplete =>
      refine .returned hcalls hstatus ?_ hcomplete
      rcases hstop with hlength | ⟨earlier, hearlier, hret⟩
      · exact .inl (Nat.lt_succ_of_lt hlength)
      · exact .inr ⟨earlier, Nat.lt_succ_of_lt hearlier, hret⟩

/-- While the names it meets are short, the loop advances. -/
theorem advanced_findAndDelete (hfound : ∀ round, (answers round).found = true) {count : ℕ}
    (hshort : ∀ index < count, ∀ name, (entries.filter pattern)[index]? = some name →
      (∀ earlier < index, (answers earlier).ret = 0) → name.bytes.length ≤ 58) :
    Advanced pattern answers entries count (findAndDelete pattern answers entries count) := by
  induction count with
  | zero =>
      exact .running rfl rfl (Nat.zero_le _) rfl fun _ hearlier ↦
        absurd hearlier (Nat.not_lt_zero _)
  | succ count ih =>
      have hbefore := ih fun index hindex ↦ hshort index (Nat.lt_succ_of_lt hindex)
      by_cases hrunning : (findAndDelete pattern answers entries count).status = .running
      · rw [findAndDelete_succ_of_running hrunning]
        exact hbefore.round (hfound count) (hshort count (Nat.lt_succ_self count)) hrunning
      · rw [findAndDelete_succ_of_ended hrunning]
        exact hbefore.succ hrunning

/-- A loop that has ended stays as it is. -/
theorem findAndDelete_add_of_ended {count : ℕ}
    (h : (findAndDelete pattern answers entries count).status ≠ .running) (more : ℕ) :
    findAndDelete pattern answers entries (count + more) =
      findAndDelete pattern answers entries count := by
  induction more with
  | zero => rfl
  | succ more ih =>
      rw [← ih] at h
      rw [← Nat.add_assoc, findAndDelete_succ_of_ended h, ih]

/-- The loop has panicked, or it still stands before the same match. -/
def Stuck (pattern : FileName → Bool) (name : FileName) (cleaning : Cleaning) : Prop :=
  cleaning.status = .panicked ∨
    cleaning.status = .running ∧ (cleaning.matching pattern).head? = some name

/-- A long name is never got past. -/
theorem stuck_add (hfound : ∀ round, (answers round).found = true) {name : FileName}
    (hlong : 58 < name.bytes.length) {count : ℕ}
    (h : Stuck pattern name (findAndDelete pattern answers entries count)) (more : ℕ) :
    Stuck pattern name (findAndDelete pattern answers entries (count + more)) := by
  induction more with
  | zero => exact h
  | succ more ih =>
      rw [← Nat.add_assoc]
      rcases ih with hpanicked | ⟨hrunning, hhead⟩
      · have hended : (findAndDelete pattern answers entries (count + more)).status ≠ .running := by
          rw [hpanicked]
          decide
        rw [findAndDelete_succ_of_ended hended]
        exact .inl hpanicked
      · obtain ⟨rest, hrest⟩ := List.head?_eq_some_iff.mp hhead
        rw [findAndDelete_succ_of_running hrunning]
        rcases Nat.lt_or_eq_of_le (Nat.succ_le_of_lt hlong) with hlonger | hpanic
        · rw [findAndDeleteRound_of_lt (hfound _) hrest hlonger]
          exact .inr ⟨hrunning, hhead⟩
        · rw [findAndDeleteRound_of_eq (hfound _) hrest hpanic.symm]
          exact .inl rfl

theorem ShortNames.cleans (hfound : ∀ round, (answers round).found = true)
    (h : ShortNames pattern answers entries) : Cleans pattern answers entries := by
  have hadvanced (count : ℕ) :
      Advanced pattern answers entries count (findAndDelete pattern answers entries count) :=
    advanced_findAndDelete hfound fun index _ ↦ h index
  refine ⟨⟨(entries.filter pattern).length + 1, ?_⟩, ?_, ?_, ?_⟩
  · cases hadvanced ((entries.filter pattern).length + 1) with
    | running _ _ hcount _ _ => exact absurd hcount (Nat.not_succ_le_self _)
    | returned _ hstatus _ _ => exact hstatus
  · intro count hrunning
    have hbefore : (findAndDelete pattern answers entries count).status = .running := by
      by_contra hended
      rw [findAndDelete_succ_of_ended hended] at hrunning
      exact hended hrunning
    cases hadvanced (count + 1) with
    | returned _ hstatus _ _ => cases hrunning.symm.trans hstatus
    | running _ _ hcount hafter _ =>
        cases hadvanced count with
        | returned _ hstatus _ _ => cases hbefore.symm.trans hstatus
        | running _ _ _ hmatching _ =>
            rw [hafter, hmatching, List.length_drop, List.length_drop]
            omega
  · intro count
    cases hadvanced count with
    | running hcalls _ _ _ _ => exact hcalls
    | returned hcalls _ _ _ => exact hcalls
  · intro count hreturned
    cases hadvanced count with
    | running _ hstatus _ _ _ => cases hreturned.symm.trans hstatus
    | returned _ _ _ hcomplete => exact hcomplete

/-- A loop that returns has met short names only. -/
theorem shortNames_of_returned (hfound : ∀ round, (answers round).found = true)
    (h : ∃ count, (findAndDelete pattern answers entries count).status = .returned) :
    ShortNames pattern answers entries := by
  intro index
  induction index using Nat.strong_induction_on with
  | _ index ih =>
      intro name hname hdeleted
      by_contra hlong
      have hadvanced : Advanced pattern answers entries index
          (findAndDelete pattern answers entries index) := advanced_findAndDelete hfound ih
      have hstuck : Stuck pattern name (findAndDelete pattern answers entries index) := by
        cases hadvanced with
        | running _ hstatus _ hmatching _ =>
            exact .inr ⟨hstatus, by rw [hmatching, List.head?_drop, hname]⟩
        | returned _ _ hended _ =>
            rcases hended with hlength | ⟨earlier, hearlier, hret⟩
            · exact absurd (List.getElem?_eq_some_iff.mp hname).1 hlength.not_gt
            · exact absurd (hdeleted earlier hearlier) hret
      obtain ⟨count, hreturned⟩ := h
      have hended : (findAndDelete pattern answers entries count).status ≠ .running := by
        rw [hreturned]
        decide
      have hlater := stuck_add hfound (Nat.not_le.mp hlong) hstuck count
      rw [Nat.add_comm, findAndDelete_add_of_ended hended] at hlater
      rcases hlater with hpanicked | ⟨hrunning, -⟩
      · cases hreturned.symm.trans hpanicked
      · exact hended hrunning

/-- The loop cleans the stick exactly if the matching names up to the first one that cannot be
deleted have at most 58 bytes. -/
theorem cleans_iff_shortNames (hfound : ∀ round, (answers round).found = true) :
    Cleans pattern answers entries ↔ ShortNames pattern answers entries :=
  ⟨fun hcleans ↦ shortNames_of_returned hfound hcleans.ends, fun hshort ↦ hshort.cleans hfound⟩

end Loop

/-- Ascii letters in lower case. -/
def lower (bytes : List UInt8) : List UInt8 :=
  bytes.map fun byte ↦ if 65 ≤ byte ∧ byte ≤ 90 then byte + 32 else byte

/-- Patterns of a `*` and a suffix, without regard to case; others match nothing. -/
def Glob.suffixes : Glob where
  admits pattern name :=
    match pattern with
    | '*' :: suffix => (lower (asBytes suffix)).isSuffixOf (lower name.bytes)
    | _ => false
  admits_star {suffix name front} h := by
    have hlower : lower name.bytes = lower front ++ lower (asBytes suffix) := by
      rw [h, lower, List.map_append]
      rfl
    exact List.isSuffixOf_iff_suffix.mpr ⟨lower front, hlower.symm⟩

/-- `*.gcode`, as a matching that knows such patterns takes it. -/
def gcodes : FileName → Bool := Glob.suffixes.admits "*.gcode".toList

/-- The name of a job file, with `count` letters before the `.gcode`. -/
def letters (count : ℕ) (hle : count ≤ 249)
    (htext : (fromUtf8 (List.replicate count 97 ++ asBytes ".gcode".toList)).isSome = true) :
    FileName where
  bytes := List.replicate count 97 ++ asBytes ".gcode".toList
  text := htext
  ne_nil := List.append_ne_nil_of_right_ne_nil _ (by decide)
  zero_notMem := by
    rw [List.mem_append, List.mem_replicate]
    exact not_or.mpr ⟨fun h ↦ absurd h.2 (by decide), by decide⟩
  length_le := by
    have hsuffix : (asBytes ".gcode".toList).length = 6 := by decide
    rw [List.length_append, List.length_replicate, hsuffix]
    omega

/-- A stick that answers every call. -/
def willing (_ : ℕ) : UsbAnswer := ⟨true, 0⟩

example : (findAndDelete gcodes willing [letters 53 (by decide) (by decide)] 1).status =
    .panicked := by decide

/-- A name of 60 bytes is skipped for ever. -/
theorem not_cleans_sixty : ¬ Cleans gcodes willing [letters 54 (by decide) (by decide)] := by
  intro hcleans
  have hshort := shortNames_of_returned (fun _ ↦ rfl) hcleans.ends 0 _ rfl
    fun _ hearlier ↦ absurd hearlier (Nat.not_lt_zero _)
  exact absurd hshort (by decide)

theorem cleans_iff_shortNames_fiftyEight :
    Cleans gcodes willing [letters 52 (by decide) (by decide)] := by
  refine (cleans_iff_shortNames fun _ ↦ rfl).mpr ?_
  intro index name hname _
  have hmem := List.mem_of_getElem? hname
  obtain rfl := List.mem_singleton.mp hmem
  decide

end Derusting.Http
