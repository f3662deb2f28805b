import Derusting.Http.Storage

/-!
# Requests

`http.rs` and the head parsers of `tasks/tcp.rs`: `split_request` cuts a chunk into start line,
header block and body, `check_start_line` recognises the method and `check_put_header` collects the
three header fields a `PUT` is decided on.
-/

namespace Derusting.Http

open Foundations.Text

/-! ## Responses -/

def internalServerError : List Char :=
  "HTTP/1.1 500 Internal Server Error\r\nContent-length:0\r\nConnection: close\r\n\r\n".toList

def ok : List Char :=
  "HTTP/1.1 200 OK\r\nContent-length:4\r\nConnection: close\r\n\r\npong".toList

def badRequest : List Char :=
  "HTTP/1.1 400 Bad Request\r\nContent-length:0\r\nConnection: close\r\n\r\n".toList

def methodNotAllowed : List Char :=
  "HTTP/1.1 405 Method Not Allowed\r\nContent-length:0\r\nConnection: close\r\n\r\n".toList

/-- The methods the server understands. -/
inductive Method where
  | get
  | put
deriving DecidableEq

/-! ## The head of a request -/

/-- `\r\n`. -/
def crlf : List UInt8 := [13, 10]

/-- `\r\n\r\n`. -/
def blankLine : List UInt8 := [13, 10, 13, 10]

/-- `split_request`: start line, header block and body of a chunk that holds the whole head. -/
def splitRequest (buf : List UInt8) : Option (List Char × List Char × List UInt8) := do
  let index ← position crlf buf
  let startLine := buf.take index
  let rest := (buf.drop index).drop 2
  let index ← position blankLine rest
  let headers := rest.take index
  let body := (rest.drop index).drop 4
  let startLine ← fromUtf8 startLine
  let headers ← fromUtf8 headers
  some (startLine, headers, body)

/-- `check_start_line`: the method, or the response to send instead. -/
def checkStartLine (startLine : List Char) : Except (List Char) Method :=
  match startLine.splitOn ' ' with
  | [] => .error badRequest
  | method :: tokens =>
      if method = "GET".toList ∨ method = "PUT".toList then
        match tokens with
        | [] => .error badRequest
        | url :: _ =>
            if url ≠ "/".toList then .error badRequest
            else if method = "GET".toList then .ok .get
            else .ok .put
      else .error methodNotAllowed

theorem checkStartLine_error {startLine text : List Char}
    (h : checkStartLine startLine = .error text) : text = badRequest ∨ text = methodNotAllowed := by
  unfold checkStartLine at h
  split at h
  · exact .inl (Except.error.inj h).symm
  · split at h
    · split at h
      · exact .inl (Except.error.inj h).symm
      · split at h
        · exact .inl (Except.error.inj h).symm
        · split at h <;> cases h
    · exact .inr (Except.error.inj h).symm

/-- `PutInfo`. -/
structure PutInfo where
  size : Option ℕ
  guid : Option Uuid
  isGcode : Bool
deriving DecidableEq

/-- One round of the loop of `check_put_header`. A line without a colon is skipped, and a value
that does not parse overwrites an earlier one. -/
def checkLine (uuid : UuidText) (info : PutInfo) (line : List Char) : PutInfo :=
  match splitOnce ':' line with
  | none => info
  | some (key, value) =>
      let key := trim key
      let value := trim value
      if eqIgnoreAsciiCase key "content-length".toList then
        -- `usize` has 32 bits on the target
        { info with size := parseUnsigned (2 ^ 32) value }
      else if eqIgnoreAsciiCase key "content-type".toList && value == "text/x.gcode".toList then
        { info with isGcode := true }
      else if eqIgnoreAsciiCase key "guid".toList then { info with guid := uuid.parse value }
      else info

/-- `check_put_header`. -/
def checkPutHeader (uuid : UuidText) (headers : List Char) : PutInfo :=
  (lines headers).foldl (checkLine uuid) ⟨none, none, false⟩

/-- The content length of an upload that `handle_conn` goes on with. -/
def PutInfo.accepted? (info : PutInfo) : Option ℕ :=
  match info.size with
  | some size => if info.isGcode ∧ size ≠ 0 ∧ size ≤ 1000000 then some size else none
  | none => none

/-- The size an accepted upload was announced with. -/
theorem PutInfo.size_of_accepted {info : PutInfo} {size : ℕ} (h : info.accepted? = some size) :
    info.size = some size := by
  unfold PutInfo.accepted? at h
  split at h
  next announced hannounced =>
    split at h
    · rw [hannounced, ← h]
    · cases h
  next => cases h

/-- A line `key: value` with no blanks in the value is read as such. -/
theorem checkLine_field (uuid : UuidText) (info : PutInfo) {key value : List Char}
    (hkey : ':' ∉ key) (hvalue : Unblank value) :
    checkLine uuid info (key ++ ':' :: ' ' :: value) =
      if eqIgnoreAsciiCase (trim key) "content-length".toList then
        { info with size := parseUnsigned (2 ^ 32) value }
      else if eqIgnoreAsciiCase (trim key) "content-type".toList &&
          value == "text/x.gcode".toList then
        { info with isGcode := true }
      else if eqIgnoreAsciiCase (trim key) "guid".toList then
        { info with guid := uuid.parse value }
      else info := by
  simp only [checkLine, splitOnce_append hkey, hvalue.trim_cons_space]

/-- The end of a line that a further line follows is no blank line. -/
theorem position_blankLine_crlf {rest : List UInt8} (h : rest.head? ≠ some 13) :
    position blankLine (crlf ++ rest) = (position blankLine rest).map (· + 2) := by
  have hreturn : ¬ blankLine <+: 13 :: 10 :: rest := by
    intro hprefix
    have htail : [13, 10] <+: rest :=
      (List.cons_prefix_cons.mp (List.cons_prefix_cons.mp hprefix).2).2
    obtain ⟨more, rfl⟩ := htail
    exact h rfl
  have hfeed : ¬ blankLine <+: 10 :: rest := by
    intro hprefix
    exact absurd (List.cons_prefix_cons.mp hprefix).1 (by decide)
  rw [crlf, List.cons_append, List.cons_append, List.nil_append, position, if_neg hreturn, position,
    if_neg hfeed, Option.map_map]
  rfl

/-- The first blank line stands behind the lines of the header block, whatever the body holds. -/
theorem position_blankLine_joinLines {block : List (List Char)}
    (h : ∀ line ∈ block, line ≠ [] ∧ Ascii line ∧ '\r' ∉ line) (body : List UInt8) :
    position blankLine (asBytes (joinLines block) ++ (blankLine ++ body)) =
      some (asBytes (joinLines block)).length := by
  have hself : position blankLine (blankLine ++ body) = some 0 :=
    position_self blankLine body (by decide)
  have hbytes {line : List Char} (hline : line ∈ block) : (13 : UInt8) ∉ asBytes line :=
    (h line hline).2.1.notMem_asBytes (by decide) (h line hline).2.2
  induction block using joinLines.induct with
  | case1 => exact hself
  | case2 line =>
      rw [blankLine] at hself ⊢
      rw [joinLines, position_append_of_notMem (hbytes List.mem_cons_self), hself, Option.map_some,
        Nat.zero_add]
  | case3 line next rest ih =>
      have hrest := ih (fun other hother ↦ h other (List.mem_cons_of_mem _ hother))
        fun hother ↦ hbytes (List.mem_cons_of_mem _ hother)
      have hnext : next ∈ line :: next :: rest := List.mem_cons_of_mem _ List.mem_cons_self
      have hhead : (asBytes (joinLines (next :: rest)) ++ (blankLine ++ body)).head? ≠ some 13 := by
        obtain ⟨more, hmore⟩ := joinLines_cons next rest
        have hne : asBytes next ≠ [] := by
          rw [← List.length_pos_iff, (h next hnext).2.1.length_asBytes]
          exact List.length_pos_iff.mpr (h next hnext).1
        rw [hmore, asBytes_append, List.append_assoc, List.head?_append_of_ne_nil _ hne]
        exact fun hfirst ↦ hbytes hnext (List.mem_of_mem_head? hfirst)
      have hjoined : asBytes (joinLines (line :: next :: rest)) =
          asBytes line ++ (crlf ++ asBytes (joinLines (next :: rest))) := by
        rw [joinLines, asBytes_append]
        rfl
      calc
        position blankLine (asBytes (joinLines (line :: next :: rest)) ++ (blankLine ++ body)) =
            position blankLine (asBytes line ++
              (crlf ++ (asBytes (joinLines (next :: rest)) ++ (blankLine ++ body)))) := by
          rw [hjoined, List.append_assoc, List.append_assoc]
        _ = (position blankLine (crlf ++ (asBytes (joinLines (next :: rest)) ++
              (blankLine ++ body)))).map (· + (asBytes line).length) :=
          position_append_of_notMem (hbytes List.mem_cons_self)
        _ = some (asBytes (joinLines (line :: next :: rest))).length := by
          rw [position_blankLine_crlf hhead, hrest, hjoined, List.length_append, List.length_append]
          simp only [Option.map_some, crlf, List.length_cons, List.length_nil]
          rw [Nat.add_comm, Nat.add_comm _ (0 + 1 + 1)]

/-- A request that is put together from its lines is taken apart again. -/
theorem splitRequest_joinLines {startLine : List Char} {block : List (List Char)}
    {body : List UInt8} (hstart : Ascii startLine) (hreturn : '\r' ∉ startLine)
    (hblock : ∀ line ∈ block, line ≠ [] ∧ Ascii line ∧ '\r' ∉ line) :
    splitRequest (asBytes startLine ++ (crlf ++ (asBytes (joinLines block) ++ (blankLine ++ body)))) =
      some (startLine, joinLines block, body) := by
  set rest := asBytes (joinLines block) ++ (blankLine ++ body) with hrest
  have hfirst : position crlf (asBytes startLine ++ (crlf ++ rest)) =
      some (asBytes startLine).length := by
    have hnone : (13 : UInt8) ∉ asBytes startLine := hstart.notMem_asBytes (by decide) hreturn
    rw [crlf, position_append_of_notMem hnone]
    rw [position_self _ _ (by simp)]
    simp
  have hsecond : position blankLine rest = some (asBytes (joinLines block)).length :=
    position_blankLine_joinLines hblock body
  have hdrop : ((asBytes startLine ++ (crlf ++ rest)).drop (asBytes startLine).length).drop 2 =
      rest := by
    rw [List.drop_left]
    rfl
  have hbody : (rest.drop (asBytes (joinLines block)).length).drop 4 = body := by
    rw [hrest, List.drop_left]
    rfl
  have htake : rest.take (asBytes (joinLines block)).length = asBytes (joinLines block) := by
    rw [hrest, List.take_left]
  have hascii : Ascii (joinLines block) := ascii_joinLines fun line hline ↦ (hblock line hline).2.1
  simp only [splitRequest, hfirst, hdrop, hsecond, hbody, htake, List.take_left,
    hstart.fromUtf8_asBytes, hascii.fromUtf8_asBytes, Option.bind_eq_bind, Option.bind_some]

end Derusting.Http
