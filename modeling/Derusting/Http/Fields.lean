import Derusting.Http.Request
import Derusting.Foundations.Entries
import Mathlib.Logic.Relation

/-!
# The fields of a header block

What `check_put_header` reads from a header block, told without its loop: each line presents at most
one of three fields with a value, and the result is determined by which fields are presented.  Where
no field is presented twice, neither the order of the lines nor the way they are written matters.
-/

namespace Derusting.Http

open Foundations.Text Foundations.Entries

/-- The header fields `check_put_header` looks for. -/
inductive Field where
  | contentLength
  | contentType
  | guid
deriving DecidableEq

namespace Field

def name : Field → List Char
  | .contentLength => "content-length".toList
  | .contentType => "content-type".toList
  | .guid => "guid".toList

/-- The field with a name, which may be written with capitals. -/
def ofName? (text : List Char) : Option Field :=
  [contentLength, contentType, guid].find? fun field ↦ eqIgnoreAsciiCase text field.name

/-- The field a line presents, and its value. -/
def ofLine? (line : List Char) : Option (Field × List Char) :=
  (splitOnce ':' line).bind fun (key, value) ↦
    (ofName? (trim key)).map fun field ↦ (field, trim value)

theorem ofLine?_of_none {line : List Char} (h : splitOnce ':' line = none) :
    ofLine? line = none := by
  rw [ofLine?, h, Option.bind_none]

theorem ofLine?_of_some {line key value : List Char}
    (h : splitOnce ':' line = some (key, value)) :
    ofLine? line = (ofName? (trim key)).map fun field ↦ (field, trim value) := by
  rw [ofLine?, h]
  rfl

theorem ofName?_congr {text other : List Char} (h : eqIgnoreAsciiCase text other = true) :
    ofName? text = ofName? other := by
  have hsame : text.map Char.toLower = other.map Char.toLower := beq_iff_eq.mp h
  simp only [ofName?, eqIgnoreAsciiCase, hsame]

/-- The three names are told apart without their case. -/
theorem eq_of_name {text : List Char} {field other : Field}
    (hfield : eqIgnoreAsciiCase text field.name = true)
    (hother : eqIgnoreAsciiCase text other.name = true) : field = other := by
  have hsame : field.name.map Char.toLower = other.name.map Char.toLower :=
    (beq_iff_eq.mp hfield).symm.trans (beq_iff_eq.mp hother)
  revert hsame
  cases field <;> cases other <;> decide

theorem ofName?_eq_some_iff {text : List Char} {field : Field} :
    ofName? text = some field ↔ eqIgnoreAsciiCase text field.name = true := by
  have hname {field : Field} (h : ofName? text = some field) :
      eqIgnoreAsciiCase text field.name = true := by
    rw [ofName?] at h
    exact (List.find?_eq_some_iff_append.mp h).1
  constructor
  · exact hname
  · intro h
    have hmem : field ∈ [contentLength, contentType, guid] := by cases field <;> decide
    have hsome : (ofName? text).isSome := by
      rw [ofName?, List.find?_isSome]
      exact ⟨field, hmem, h⟩
    obtain ⟨found, hfound⟩ := Option.isSome_iff_exists.mp hsome
    obtain rfl : found = field := eq_of_name (hname hfound) h
    exact hfound

end Field

/-- The fields a header block presents, with their values. -/
def fields (block : List (List Char)) : List (Field × List Char) := block.filterMap Field.ofLine?

/-- No field is presented twice. -/
def Once (block : List (List Char)) : Prop := ((fields block).map Prod.fst).Nodup

instance (block : List (List Char)) : Decidable (Once block) :=
  inferInstanceAs (Decidable ((fields block).map Prod.fst).Nodup)

/-- What a field does to the result. -/
def PutInfo.assign (uuid : UuidText) (info : PutInfo) : Field × List Char → PutInfo
  | (.contentLength, value) => { info with size := parseUnsigned (2 ^ 32) value }
  | (.contentType, value) =>
      if value = "text/x.gcode".toList then { info with isGcode := true } else info
  | (.guid, value) => { info with guid := uuid.parse value }

/-- One round of the loop, by the field the name of a line stands for. -/
theorem checkLine_some (uuid : UuidText) (info : PutInfo) {line key value : List Char}
    (h : splitOnce ':' line = some (key, value)) :
    checkLine uuid info line =
      if Field.ofName? (trim key) = some .contentLength then
        info.assign uuid (.contentLength, trim value)
      else if Field.ofName? (trim key) = some .contentType ∧ trim value = "text/x.gcode".toList then
        { info with isGcode := true }
      else if Field.ofName? (trim key) = some .guid then info.assign uuid (.guid, trim value)
      else info := by
  have hround : checkLine uuid info line =
      if eqIgnoreAsciiCase (trim key) Field.contentLength.name then
        info.assign uuid (.contentLength, trim value)
      else if eqIgnoreAsciiCase (trim key) Field.contentType.name &&
          trim value == "text/x.gcode".toList then
        { info with isGcode := true }
      else if eqIgnoreAsciiCase (trim key) Field.guid.name then
        info.assign uuid (.guid, trim value)
      else info := by
    unfold checkLine
    rw [h]
    rfl
  rw [hround]
  simp only [Bool.and_eq_true, beq_iff_eq, ← Field.ofName?_eq_some_iff]

/-- One round of the loop assigns the field its line presents. -/
theorem checkLine_eq (uuid : UuidText) (info : PutInfo) (line : List Char) :
    checkLine uuid info line =
      match Field.ofLine? line with
      | some entry => info.assign uuid entry
      | none => info := by
  cases hsplit : splitOnce ':' line with
  | none =>
      rw [Field.ofLine?_of_none hsplit]
      unfold checkLine
      rw [hsplit]
  | some sides =>
      obtain ⟨key, value⟩ := sides
      rw [checkLine_some uuid info hsplit, Field.ofLine?_of_some hsplit]
      cases Field.ofName? (trim key) with
      | none => rfl
      | some field =>
          rw [Option.map_some]
          cases field with
          | contentLength => rfl
          | contentType =>
              -- another value falls through to the test for `guid`
              change _ = if trim value = "text/x.gcode".toList then _ else info
              rw [if_neg (by decide)]
              by_cases hvalue : trim value = "text/x.gcode".toList
              · rw [if_pos ⟨rfl, hvalue⟩, if_pos hvalue]
              · rw [if_neg fun h ↦ hvalue h.2, if_neg (by decide), if_neg hvalue]
          | guid => rfl

/-- The result is assembled from the fields of the lines. -/
theorem checkPutHeader_eq (uuid : UuidText) (headers : List Char) :
    checkPutHeader uuid headers =
      (fields (lines headers)).foldl (PutInfo.assign uuid) ⟨none, none, false⟩ := by
  rw [checkPutHeader, fields, List.foldl_filterMap]
  refine List.foldl_ext _ _ _ fun info line _ ↦ ?_
  rw [checkLine_eq]
  cases Field.ofLine? line <;> rfl

namespace PutInfo

variable {uuid : UuidText} {info : PutInfo} {first second entry : Field × List Char}

theorem assign_contentType (value : List Char) :
    info.assign uuid (.contentType, value) =
      { info with isGcode := decide (value = "text/x.gcode".toList) || info.isGcode } := by
  by_cases hvalue : value = "text/x.gcode".toList
  · rw [assign, if_pos hvalue, decide_eq_true hvalue, Bool.true_or]
  · rw [assign, if_neg hvalue, decide_eq_false hvalue, Bool.false_or]

theorem assign_comm (h : first.1 ≠ second.1) :
    (info.assign uuid first).assign uuid second = (info.assign uuid second).assign uuid first := by
  obtain ⟨field, value⟩ := first
  obtain ⟨other, text⟩ := second
  cases field <;> cases other
  case contentLength.contentLength | contentType.contentType | guid.guid => exact absurd rfl h
  case contentLength.guid | guid.contentLength => rfl
  all_goals
    rw [assign_contentType, assign_contentType]
    rfl

theorem size_assign_of_ne (h : entry.1 ≠ .contentLength) :
    (info.assign uuid entry).size = info.size := by
  obtain ⟨field, value⟩ := entry
  cases field with
  | contentLength => exact absurd rfl h
  | contentType => rw [assign_contentType]
  | guid => rfl

theorem guid_assign_of_ne (h : entry.1 ≠ .guid) :
    (info.assign uuid entry).guid = info.guid := by
  obtain ⟨field, value⟩ := entry
  cases field with
  | contentLength => rfl
  | contentType => rw [assign_contentType]
  | guid => exact absurd rfl h

theorem isGcode_assign_of_ne (h : entry.1 ≠ .contentType) :
    (info.assign uuid entry).isGcode = info.isGcode := by
  obtain ⟨field, value⟩ := entry
  cases field with
  | contentLength | guid => rfl
  | contentType => exact absurd rfl h

end PutInfo

/-! ## Writing a header block differently -/

/-- One change of a header block that the fields it presents survive. -/
inductive Rearranges : List (List Char) → List (List Char) → Prop
  | permute {block other : List (List Char)} (h : block.Perm other) : Rearranges block other
  /-- A name in other letters, and other blanks around the name and the value. -/
  | respell (before after : List (List Char)) (key other value text : List Char)
      (hkey : ':' ∉ key) (hother : ':' ∉ other)
      (hname : eqIgnoreAsciiCase (trim key) (trim other) = true) (hvalue : trim value = trim text) :
      Rearranges (before ++ (key ++ ':' :: value) :: after)
        (before ++ (other ++ ':' :: text) :: after)
  | insert (before after : List (List Char)) {line : List Char} (h : Field.ofLine? line = none) :
      Rearranges (before ++ after) (before ++ line :: after)
  | remove (before after : List (List Char)) {line : List Char} (h : Field.ofLine? line = none) :
      Rearranges (before ++ line :: after) (before ++ after)

/-- Other lines can stand anywhere. -/
theorem fields_insert (before after : List (List Char)) {line : List Char}
    (h : Field.ofLine? line = none) :
    fields (before ++ line :: after) = fields (before ++ after) := by
  rw [fields, List.filterMap_append, List.filterMap_cons_none h, ← List.filterMap_append, ← fields]

theorem Rearranges.perm {block other : List (List Char)} (h : Rearranges block other) :
    (fields block).Perm (fields other) := by
  cases h with
  | permute h => exact h.filterMap _
  | respell before after key other value text hkey hother hname hvalue =>
      rw [fields, fields, List.filterMap_append, List.filterMap_append, List.filterMap_cons,
        List.filterMap_cons, Field.ofLine?_of_some (splitOnce_append hkey),
        Field.ofLine?_of_some (splitOnce_append hother), Field.ofName?_congr hname, hvalue]
  | insert before after h => rw [fields_insert before after h]
  | remove before after h => rw [fields_insert before after h]

theorem perm_of_rearranges {block other : List (List Char)}
    (h : Relation.ReflTransGen Rearranges block other) : (fields block).Perm (fields other) := by
  induction h with
  | refl => exact .refl _
  | tail _ hlast ih => exact ih.trans hlast.perm

theorem mem_fields {block : List (List Char)} {entry : Field × List Char} :
    entry ∈ fields block ↔ ∃ line ∈ block, Field.ofLine? line = some entry :=
  List.mem_filterMap

theorem exists_mem_fields {block : List (List Char)} {field : Field} {Holds : List Char → Prop} :
    (∃ value, (field, value) ∈ fields block ∧ Holds value) ↔
      ∃ line ∈ block, ∃ value, Field.ofLine? line = some (field, value) ∧ Holds value := by
  constructor
  · rintro ⟨value, hmem, hvalue⟩
    obtain ⟨line, hline, hfield⟩ := mem_fields.mp hmem
    exact ⟨line, hline, value, hfield, hvalue⟩
  · rintro ⟨line, hline, value, hfield, hvalue⟩
    exact ⟨value, mem_fields.mpr ⟨line, hline, hfield⟩, hvalue⟩

section Presented

variable {uuid : UuidText} {headers : List Char}

theorem checkPutHeader_of_perm (honce : Once (lines headers)) {other : List Char}
    (h : (fields (lines headers)).Perm (fields (lines other))) :
    checkPutHeader uuid other = checkPutHeader uuid headers := by
  rw [checkPutHeader_eq, checkPutHeader_eq]
  exact (foldl_eq_of_perm (fun _ _ _ hne ↦ PutInfo.assign_comm hne) honce h _).symm

theorem size_eq_some_iff (honce : Once (lines headers)) {size : ℕ} :
    (checkPutHeader uuid headers).size = some size ↔
      ∃ value, (.contentLength, value) ∈ fields (lines headers) ∧
        parseUnsigned (2 ^ 32) value = some size := by
  rw [checkPutHeader_eq]
  exact part_foldl_iff (fun _ _ hne ↦ PutInfo.size_assign_of_ne hne)
    (fun value _ ↦ parseUnsigned (2 ^ 32) value) (fun _ _ ↦ rfl) honce (· = some size) nofun

theorem guid_eq_some_iff (honce : Once (lines headers)) {guid : Uuid} :
    (checkPutHeader uuid headers).guid = some guid ↔
      ∃ value, (.guid, value) ∈ fields (lines headers) ∧ uuid.parse value = some guid := by
  rw [checkPutHeader_eq]
  exact part_foldl_iff (fun _ _ hne ↦ PutInfo.guid_assign_of_ne hne)
    (fun value _ ↦ uuid.parse value) (fun _ _ ↦ rfl) honce (· = some guid) nofun

theorem isGcode_iff (honce : Once (lines headers)) :
    (checkPutHeader uuid headers).isGcode = true ↔
      (.contentType, "text/x.gcode".toList) ∈ fields (lines headers) := by
  rw [checkPutHeader_eq]
  refine (part_foldl_iff (fun _ _ hne ↦ PutInfo.isGcode_assign_of_ne hne)
    (fun value isGcode ↦ decide (value = "text/x.gcode".toList) || isGcode)
    (fun info value ↦ congrArg PutInfo.isGcode (PutInfo.assign_contentType value)) honce
    (· = true) Bool.false_ne_true).trans ⟨?_, fun hmem ↦ ⟨_, hmem, ?_⟩⟩
  · rintro ⟨value, hmem, hgcode⟩
    rw [Bool.or_false, decide_eq_true_iff] at hgcode
    rwa [hgcode] at hmem
  · rw [Bool.or_false, decide_eq_true_iff]

end Presented

/-- Where no field is presented twice, the result does not depend on the order of the lines, on the
letters and blanks they are written with, or on other lines, and each part of it comes from the line
that presents it. -/
theorem checkPutHeader_orderIndependent (uuid : UuidText) {headers : List Char}
    (honce : Once (lines headers)) :
    (∀ other, Relation.ReflTransGen Rearranges (lines headers) (lines other) →
        checkPutHeader uuid other = checkPutHeader uuid headers) ∧
      (∀ size, (checkPutHeader uuid headers).size = some size ↔
        ∃ line ∈ lines headers, ∃ value, Field.ofLine? line = some (.contentLength, value) ∧
          parseUnsigned (2 ^ 32) value = some size) ∧
      (∀ guid, (checkPutHeader uuid headers).guid = some guid ↔
        ∃ line ∈ lines headers, ∃ value, Field.ofLine? line = some (.guid, value) ∧
          uuid.parse value = some guid) ∧
      ((checkPutHeader uuid headers).isGcode = true ↔
        ∃ line ∈ lines headers,
          Field.ofLine? line = some (.contentType, "text/x.gcode".toList)) := by
  refine ⟨fun other h ↦ checkPutHeader_of_perm honce (perm_of_rearranges h), fun size ↦ ?_,
    fun guid ↦ ?_, (isGcode_iff honce).trans mem_fields⟩
  · exact (size_eq_some_iff honce).trans exists_mem_fields
  · exact (guid_eq_some_iff honce).trans exists_mem_fields

/-- The same two fields, in the other order, spelled differently and behind another line. -/
def sampleHeaders : List Char × List Char :=
  ("Content-Length: 5\r\nContent-Type: text/x.gcode".toList,
    "X: 1\r\ncontent-type :text/x.gcode\r\nContent-Length: 5".toList)

theorem checkPutHeader_orderIndependent_sampleHeaders :
    checkPutHeader .hyphenated sampleHeaders.2 = checkPutHeader .hyphenated sampleHeaders.1 ∧
      (checkPutHeader .hyphenated sampleHeaders.1).size = some 5 := by
  have honce : Once (lines sampleHeaders.1) := by decide
  have hindependent := checkPutHeader_orderIndependent .hyphenated honce
  have hlines : lines sampleHeaders.1 =
      ["Content-Length: 5".toList, "Content-Type: text/x.gcode".toList] := by decide
  have hother : lines sampleHeaders.2 =
      ["X: 1".toList, "content-type :text/x.gcode".toList, "Content-Length: 5".toList] := by
    decide
  refine ⟨hindependent.1 _ ?_, (hindependent.2.1 5).mpr ?_⟩
  · rw [hlines, hother]
    refine .tail (.tail (.tail .refl (.permute (.swap _ _ []))) ?_) (.insert [] _ (by decide))
    exact .respell [] _ "Content-Type".toList "content-type ".toList " text/x.gcode".toList
      "text/x.gcode".toList (by decide) (by decide) (by decide) (by decide)
  · exact ⟨"Content-Length: 5".toList, by decide, "5".toList, by decide, by decide⟩

end Derusting.Http
