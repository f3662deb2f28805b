import Derusting.Http.Upload

/-!
# What an upload leaves on the USB stick

An upload is written to its `.partial` path and renamed when the body is complete.  With a file
system that does what it is asked, the `.gcode` file is therefore either untouched or complete at
every point of the run.  With one that does not, the answer does not change: `handle_conn` ignores
how much was written and whether the file was renamed, and `answered_means_stored_iff` says exactly
when a 200 is nevertheless true.
-/

namespace Derusting.Http

open Foundations.Bounded Foundations.Text

/-! ## Effects that leave things alone -/

/-- The effect names no call that changes the file at `path`. -/
def Effect.Spares (path : List Char) : Effect → Prop
  | .fopen other | .unlink other => other ≠ path
  | .rename old new => old ≠ path ∧ new ≠ path
  | _ => True

/-- The effect is an entry in the ledger or in the distribution queue. -/
def Effect.Books : Effect → Prop
  | .appendToLedger _ | .distribute _ => True
  | _ => False

/-- The answer an effect gives. -/
def Effect.answer? : Effect → Option (List Char)
  | .respond text => some text
  | _ => none

namespace World

variable {server : Server} {outcomes : Outcomes} {world : World} {effects : List Effect}
  {path : List Char}

theorem run_append (first second : List Effect) :
    world.run server outcomes (first ++ second) =
      (world.run server outcomes first).run server outcomes second :=
  List.foldl_append

/-- A file nobody names and that is not open stays as it is. -/
theorem content_apply {effect : Effect} (h : effect.Spares path)
    (hhandle : world.files.handle ≠ some path) :
    (world.apply server outcomes effect).files.content path = world.files.content path ∧
      (world.apply server outcomes effect).files.handle ≠ some path := by
  cases effect with
  | fopen other =>
      have hne : other ≠ path := h
      simp only [apply, Files.fopen]
      split
      · exact ⟨Function.update_of_ne (Ne.symm hne) _ _, by simpa using hne⟩
      · exact ⟨rfl, hhandle⟩
  | fwrite bytes =>
      simp only [apply, Files.fwrite]
      split
      · exact ⟨rfl, hhandle⟩
      next other hother =>
        have hne : path ≠ other := fun hsame ↦ hhandle (hsame ▸ hother)
        exact ⟨Function.update_of_ne hne _ _, hhandle⟩
  | unlink other =>
      have hne : other ≠ path := h
      simp only [apply, Files.unlink]
      split
      · exact ⟨Function.update_of_ne (Ne.symm hne) _ _, hhandle⟩
      · exact ⟨rfl, hhandle⟩
  | rename old new =>
      obtain ⟨hold, hnew⟩ : old ≠ path ∧ new ≠ path := h
      simp only [apply, Files.rename]
      split
      · refine ⟨?_, hhandle⟩
        exact (Function.update_of_ne (Ne.symm hold) _ _).trans
          (Function.update_of_ne (Ne.symm hnew) _ _)
      · exact ⟨rfl, hhandle⟩
  | fclose => exact ⟨rfl, by simp [apply, Files.fclose]⟩
  | distribute guid =>
      simp only [apply]
      split <;> exact ⟨rfl, hhandle⟩
  | log text => exact ⟨rfl, hhandle⟩
  | respond text => exact ⟨rfl, hhandle⟩
  | appendToLedger guid => exact ⟨rfl, hhandle⟩

theorem content_run (h : ∀ effect ∈ effects, effect.Spares path)
    (hhandle : world.files.handle ≠ some path) :
    (world.run server outcomes effects).files.content path = world.files.content path := by
  induction effects generalizing world with
  | nil => rfl
  | cons effect effects ih =>
      obtain ⟨hcontent, hstill⟩ := content_apply (h effect List.mem_cons_self) hhandle
      exact (ih (fun other hother ↦ h other (List.mem_cons_of_mem _ hother)) hstill).trans hcontent

/-- If one effect alone can change a file, every part of the run leaves the file as it was or as
that effect makes it. -/
theorem content_run_take {before after : List Effect} {effect : Effect}
    (hbefore : ∀ other ∈ before, other.Spares path) (hafter : ∀ other ∈ after, other.Spares path)
    (hhandle : world.files.handle ≠ some path)
    (hclosed : (world.run server outcomes (before ++ [effect])).files.handle ≠ some path)
    (count : ℕ) :
    (world.run server outcomes ((before ++ effect :: after).take count)).files.content path =
        world.files.content path ∨
      (world.run server outcomes ((before ++ effect :: after).take count)).files.content path =
        (world.run server outcomes (before ++ [effect])).files.content path := by
  rcases Nat.lt_or_ge before.length count with hlt | hle
  · right
    obtain ⟨rest, rfl⟩ := Nat.exists_eq_add_of_lt hlt
    have htake : (before ++ effect :: after).take (before.length + rest + 1) =
        (before ++ [effect]) ++ after.take rest := by
      rw [Nat.add_assoc, List.take_length_add_append, List.take_succ_cons, List.append_assoc,
        List.singleton_append]
    rw [htake, run_append]
    exact content_run (fun other hother ↦ hafter other (List.mem_of_mem_take hother)) hclosed
  · left
    rw [List.take_append_of_le_length hle]
    exact content_run (fun other hother ↦ hbefore other (List.mem_of_mem_take hother)) hhandle

/-- Only bookkeeping effects change the machine or alert anybody. -/
theorem machine_run (world : World) (h : ∀ effect ∈ effects, ¬ effect.Books) :
    (world.run server outcomes effects).machine = world.machine ∧
      (world.run server outcomes effects).alerts = world.alerts := by
  induction effects generalizing world with
  | nil => exact ⟨rfl, rfl⟩
  | cons effect effects ih =>
      have hrest := ih (world.apply server outcomes effect)
        fun other hother ↦ h other (List.mem_cons_of_mem _ hother)
      have hsame : (world.apply server outcomes effect).machine = world.machine ∧
          (world.apply server outcomes effect).alerts = world.alerts := by
        cases effect with
        | appendToLedger guid => exact absurd trivial (h _ List.mem_cons_self)
        | distribute guid => exact absurd trivial (h _ List.mem_cons_self)
        | _ => exact ⟨rfl, rfl⟩
      exact ⟨hrest.1.trans hsame.1, hrest.2.trans hsame.2⟩

theorem responses_run (world : World) (effects : List Effect) :
    (world.run server outcomes effects).responses =
      world.responses ++ effects.filterMap Effect.answer? := by
  induction effects generalizing world with
  | nil => simp [run]
  | cons effect effects ih =>
      have hrest := ih (world.apply server outcomes effect)
      rw [run, List.foldl_cons]
      rw [run] at hrest
      rw [hrest]
      cases effect with
      | respond text => simp [apply, Effect.answer?]
      | distribute guid =>
          simp only [apply, Effect.answer?, List.filterMap_cons]
          split <;> rfl
      | _ => rfl

end World

/-! ## Writing the body -/

/-- What the file system keeps of slices written from the `fwrite` call with number `call` on. -/
def kept (outcomes : Outcomes) : ℕ → List (List UInt8) → List UInt8
  | _, [] => []
  | call, slice :: slices =>
      if slice.isEmpty then kept outcomes call slices
      else slice.take (slice.length - outcomes.missing call) ++ kept outcomes (call + 1) slices

theorem content_run_fileWrite {server : Server} {outcomes : Outcomes} (world : World)
    {path : List Char} (written : List UInt8) {slices : List (List UInt8)}
    (hhandle : world.files.handle = some path)
    (hcontent : world.files.content path = some written) :
    (world.run server outcomes (slices.flatMap fileWrite)).files.content path =
      some (written ++ kept outcomes world.files.writes slices) ∧
    (world.run server outcomes (slices.flatMap fileWrite)).files.handle = some path := by
  induction slices generalizing world written with
  | nil => exact ⟨by simpa [World.run, kept] using hcontent, hhandle⟩
  | cons slice slices ih =>
      rw [List.flatMap_cons, World.run_append]
      cases hempty : slice.isEmpty with
      | true =>
          simp only [fileWrite, hempty, if_true, kept]
          exact ih world written hhandle hcontent
      | false =>
          have hstep := ih (world.apply server outcomes (.fwrite slice))
            (written ++ slice.take (slice.length - outcomes.missing world.files.writes))
            (by simp [World.apply, Files.fwrite, hhandle])
            (by simp [World.apply, Files.fwrite, hhandle, hcontent])
          have hwrites : (world.apply server outcomes (.fwrite slice)).files.writes =
              world.files.writes + 1 := by
            simp [World.apply, Files.fwrite, hhandle]
          rw [hwrites] at hstep
          simp only [fileWrite, hempty, Bool.false_eq_true, if_false, kept, ← List.append_assoc]
          exact hstep

theorem length_kept_le (outcomes : Outcomes) (call : ℕ) (slices : List (List UInt8)) :
    (kept outcomes call slices).length ≤ slices.flatten.length := by
  induction slices generalizing call with
  | nil => simp [kept]
  | cons slice slices ih =>
      rw [kept, List.flatten_cons, List.length_append]
      split
      · exact (ih call).trans (Nat.le_add_left _ _)
      · have hrest := ih (call + 1)
        simp only [List.length_append, List.length_take]
        omega

/-- A slice and what follows it are kept whole exactly if both are. -/
theorem take_append_eq_iff {slice rest whole : List UInt8} {missing : ℕ} (hslice : slice ≠ [])
    (hle : rest.length ≤ whole.length) :
    slice.take (slice.length - missing) ++ rest = slice ++ whole ↔ missing = 0 ∧ rest = whole := by
  constructor
  · intro hsame
    have hlength := congrArg List.length hsame
    have hpos : 0 < slice.length := List.length_pos_iff.mpr hslice
    simp only [List.length_append, List.length_take] at hlength
    have hmissing : missing = 0 := by omega
    subst hmissing
    rw [Nat.sub_zero, List.take_length] at hsame
    exact ⟨rfl, List.append_cancel_left hsame⟩
  · rintro ⟨rfl, rfl⟩
    simp

/-- Nothing is missing exactly if no call that was made has left bytes out. -/
theorem kept_eq_flatten_iff (outcomes : Outcomes) (call : ℕ) (slices : List (List UInt8)) :
    kept outcomes call slices = slices.flatten ↔
      ∀ later < slices.countP (fun slice ↦ !slice.isEmpty), outcomes.missing (call + later) = 0 := by
  induction slices generalizing call with
  | nil => simp [kept]
  | cons slice slices ih =>
      cases hempty : slice.isEmpty with
      | true =>
          obtain rfl := List.isEmpty_iff.mp hempty
          simpa [kept, List.countP_cons] using ih call
      | false =>
          have hslice : slice ≠ [] := by simpa using hempty
          have hle := length_kept_le outcomes (call + 1) slices
          simp only [kept, hempty, Bool.false_eq_true, if_false, List.flatten_cons,
            List.countP_cons, Bool.not_false, if_true]
          rw [take_append_eq_iff hslice hle, ih, Nat.forall_lt_succ_left]
          simp only [Nat.add_zero, Nat.add_assoc, Nat.add_comm 1]

/-- The number of `fwrite` calls for a body of `size` bytes: one for each chunk that is not empty
and begins before the body ends. -/
def fwriteCalls : ℕ → List (List UInt8) → ℕ
  | 0, _ => 0
  | _ + 1, [] => 0
  | size + 1, chunk :: chunks =>
      (if chunk.isEmpty then 0 else 1) + fwriteCalls (size + 1 - chunk.length) chunks

@[simp]
theorem fwriteCalls_zero (chunks : List (List UInt8)) : fwriteCalls 0 chunks = 0 := by
  rw [fwriteCalls]

@[simp]
theorem fwriteCalls_nil (size : ℕ) : fwriteCalls size [] = 0 := by
  cases size <;> rfl

theorem fwriteCalls_cons {size : ℕ} (hsize : size ≠ 0) (chunk : List UInt8)
    (chunks : List (List UInt8)) :
    fwriteCalls size (chunk :: chunks) =
      (if chunk.isEmpty then 0 else 1) + fwriteCalls (size - chunk.length) chunks := by
  cases size with
  | zero => exact absurd rfl hsize
  | succ size => rw [fwriteCalls]

theorem fwriteCalls_append (size : ℕ) (left right : List (List UInt8)) :
    fwriteCalls size (left ++ right) =
      fwriteCalls size left + fwriteCalls (size - left.flatten.length) right := by
  induction left generalizing size with
  | nil => simp
  | cons chunk left ih =>
      by_cases hsize : size = 0
      · simp [hsize]
      · rw [List.cons_append, fwriteCalls_cons hsize, fwriteCalls_cons hsize, ih, List.flatten_cons,
          List.length_append, Nat.sub_sub, Nat.add_assoc]

theorem countP_take (size : ℕ) (chunk : List UInt8) :
    [chunk.take size].countP (fun slice ↦ !slice.isEmpty) = fwriteCalls size [chunk] := by
  by_cases hsize : size = 0
  · simp [hsize]
  · cases chunk with
    | nil => simp [fwriteCalls_cons hsize]
    | cons head rest =>
        obtain ⟨size, rfl⟩ := Nat.exists_eq_succ_of_ne_zero hsize
        simp [fwriteCalls_cons hsize]

theorem countP_chunkLoop (contentLength : ℕ) (chunks : Packet) :
    (chunkLoop contentLength chunks).1.countP (fun slice ↦ !slice.isEmpty) =
      fwriteCalls contentLength chunks := by
  induction chunks generalizing contentLength with
  | nil => simp [chunkLoop]
  | cons chunk chunks ih =>
      have hsplit := fwriteCalls_append contentLength [chunk] chunks
      rw [List.singleton_append, List.flatten_singleton] at hsplit
      rw [hsplit, ← countP_take]
      rcases Nat.lt_or_ge chunk.length contentLength with hlt | hle
      · rw [chunkLoop_cons_of_lt chunks hlt, ← ih, List.take_of_length_le hlt.le]
        rw [← List.countP_append, List.singleton_append]
      · rw [chunkLoop_cons_of_le chunks hle, Nat.sub_eq_zero_of_le hle, fwriteCalls_zero,
          Nat.add_zero]

theorem countP_packetLoop (contentLength : ℕ) (packets : List Packet) :
    (packetLoop contentLength packets).1.countP (fun slice ↦ !slice.isEmpty) =
      fwriteCalls contentLength packets.flatten := by
  induction packets generalizing contentLength with
  | nil => cases contentLength <;> simp [packetLoop]
  | cons packet packets ih =>
      cases contentLength with
      | zero => simp [packetLoop]
      | succ contentLength =>
          simp only [packetLoop, List.countP_append, List.flatten_cons, fwriteCalls_append]
          rw [countP_chunkLoop, ih, chunkLoop_rest]

/-- The slices of the three loops make one call for each chunk that holds body bytes. -/
theorem countP_receiveBody (size : ℕ) (body : List UInt8) (chain : Packet)
    (packets : List Packet) :
    (receiveBody size body chain packets).1.countP (fun slice ↦ !slice.isEmpty) =
      fwriteCalls size (body :: (chain ++ packets.flatten)) := by
  have hsplit : fwriteCalls size (body :: (chain ++ packets.flatten)) =
      [body.take size].countP (fun slice ↦ !slice.isEmpty) +
        ((chunkLoop (size - body.length) chain).1.countP (fun slice ↦ !slice.isEmpty) +
          (packetLoop (chunkLoop (size - body.length) chain).2.1 packets).1.countP
            (fun slice ↦ !slice.isEmpty)) := by
    rw [countP_take, countP_chunkLoop, countP_packetLoop, chunkLoop_rest, ← fwriteCalls_append,
      ← List.singleton_append, fwriteCalls_append, List.flatten_singleton]
  rw [hsplit]
  cases hneeded : (chunkLoop (size - body.length) chain).2.2 with
  | true =>
      simp only [receiveBody, takeChunk_eq, hneeded, if_true]
      rw [← List.singleton_append, List.append_assoc, List.countP_append, List.countP_append]
  | false =>
      have hdone := chunkLoop_left _ _ hneeded
      simp only [receiveBody, takeChunk_eq, hneeded, Bool.false_eq_true, if_false, hdone,
        packetLoop, List.countP_nil, Nat.add_zero]
      rw [← List.singleton_append, List.countP_append]

/-! ## Uploads -/

/-- A `PUT` request whose head lies in the first chunk of its first packet. -/
structure PutStream where
  chunk : List UInt8
  chain : Packet
  packets : List Packet
  startLine : List Char
  headers : List Char
  body : List UInt8
  split : splitRequest chunk = some (startLine, headers, body)
  put : checkStartLine startLine = .ok .put

namespace PutStream

variable (server : Server) (request : PutStream)

/-- The packets `receive` hands out. -/
def stream : List Packet := (request.chunk :: request.chain) :: request.packets

/-- The bytes behind the head. -/
def bytes : List UInt8 := bodyStream request.body request.chain request.packets

/-- The chunks in which they arrive. -/
def chunks : List (List UInt8) := request.body :: (request.chain ++ request.packets.flatten)

def info : PutInfo := checkPutHeader server.uuid request.headers

def guid : Uuid := (request.info server).guid.getD server.fresh

def partialPath : List Char := makePath server.uuid (request.guid server) true

def gcodePath : List Char := makePath server.uuid (request.guid server) false

/-- The effects up to the point where the file is open. -/
def opening : List Effect :=
  [.log "Handling TCP Connection".toList, .log "/ PUT request received".toList] ++
    (if (request.info server).guid.isSome then [.log "Receiving file from machine".toList] else []) ++
      [.fopen (request.partialPath server)]

/-- The slices of a body of the given length. -/
def slices (size : ℕ) : List (List UInt8) :=
  (receiveBody size request.body request.chain request.packets).1

variable {server request} {size : ℕ} {outcomes : Outcomes}

theorem gcodePath_ne : request.partialPath server ≠ request.gcodePath server :=
  makePath_partial_ne _ _

/-- Serving a request that fails the header checks. -/
theorem handleConn_of_rejected (opened : Bool) (h : (request.info server).accepted? = none) :
    handleConn server opened request.stream =
      [.log "Handling TCP Connection".toList, .log "/ PUT request received".toList,
        .respond badRequest] := by
  have haccepted : (checkPutHeader server.uuid request.headers).accepted? = none := h
  simp only [handleConn, stream, request.split, request.put, haccepted]

/-- Serving a request that passes them, with a file that can be opened. -/
theorem handleConn_of_accepted (h : (request.info server).accepted? = some size) :
    handleConn server true request.stream =
      request.opening server ++ ((request.slices size).flatMap fileWrite ++
        if size ≤ request.bytes.length then
          finish server (request.info server) (request.guid server)
        else [.fclose, .unlink (request.partialPath server)]) := by
  have haccepted : (checkPutHeader server.uuid request.headers).accepted? = some size := h
  have hcomplete := receiveBody_complete size request.body request.chain request.packets
  simp only [handleConn, stream, request.split, request.put, haccepted, receiveFile, if_true,
    hcomplete, decide_eq_true_eq, bytes, opening, info, guid, partialPath, slices,
    List.append_assoc, List.cons_append, List.nil_append]
  rfl

theorem handleConn_of_unopened (h : (request.info server).accepted? = some size) :
    handleConn server false request.stream =
      request.opening server ++ [.respond internalServerError] := by
  have haccepted : (checkPutHeader server.uuid request.headers).accepted? = some size := h
  simp only [handleConn, stream, request.split, request.put, haccepted, receiveFile,
    Bool.false_eq_true, if_false, opening, info, guid, partialPath, List.append_assoc,
    List.cons_append, List.nil_append]
  rfl

/-- With the file open, everything else is as it was. -/
theorem run_opening (content : List Char → Option (List UInt8)) (machine : Machine)
    (hopened : outcomes.opened = true) :
    ((World.start content machine).run server outcomes (request.opening server)).files =
      ⟨Function.update content (request.partialPath server) (some []),
        some (request.partialPath server), 0⟩ := by
  rw [opening]
  split <;> simp [World.run, World.apply, World.start, Files.fopen, hopened]

/-- The effects of a complete upload before its file is renamed. -/
def beforeRename (server : Server) (request : PutStream) (size : ℕ) : List Effect :=
  request.opening server ++ (request.slices size).flatMap fileWrite ++ [.fclose]

/-- The effects after it. -/
def afterRename (server : Server) (request : PutStream) : List Effect :=
  [.respond ok, .log "File Received".toList] ++
    if (request.info server).guid.isNone then
      [.appendToLedger (request.guid server), .distribute (request.guid server)]
    else []

theorem handleConn_of_complete (h : (request.info server).accepted? = some size)
    (hcomplete : size ≤ request.bytes.length) :
    handleConn server true request.stream =
      beforeRename server request size ++
        .rename (request.partialPath server) (request.gcodePath server) ::
          afterRename server request := by
  rw [handleConn_of_accepted h, if_pos hcomplete, finish, beforeRename, afterRename]
  simp only [partialPath, gcodePath, List.append_assoc, List.cons_append, List.nil_append]

theorem handleConn_of_incomplete (h : (request.info server).accepted? = some size)
    (hincomplete : request.bytes.length < size) :
    handleConn server true request.stream =
      beforeRename server request size ++ [.unlink (request.partialPath server)] := by
  rw [handleConn_of_accepted h, if_neg (Nat.not_le.mpr hincomplete), beforeRename]
  simp only [List.append_assoc, List.cons_append, List.nil_append]

/-- Until the file is renamed only the `.partial` path is named, nothing is booked and nothing is
answered. -/
theorem beforeRename_quiet {effect : Effect} (h : effect ∈ beforeRename server request size) :
    effect.Spares (request.gcodePath server) ∧ ¬ effect.Books ∧ effect.answer? = none := by
  simp only [beforeRename, opening, List.mem_append, List.mem_cons, List.mem_flatMap,
    List.not_mem_nil, or_false] at h
  rcases h with ((((rfl | rfl) | hannounce) | rfl) | ⟨slice, -, hwrite⟩) | rfl
  · exact ⟨trivial, id, rfl⟩
  · exact ⟨trivial, id, rfl⟩
  · split at hannounce
    · rw [List.mem_singleton.mp hannounce]
      exact ⟨trivial, id, rfl⟩
    · cases hannounce
  · exact ⟨gcodePath_ne, id, rfl⟩
  · unfold fileWrite at hwrite
    split at hwrite
    · cases hwrite
    · rw [List.mem_singleton.mp hwrite]
      exact ⟨trivial, id, rfl⟩
  · exact ⟨trivial, id, rfl⟩

theorem afterRename_spares {effect : Effect} (h : effect ∈ afterRename server request) :
    effect.Spares (request.gcodePath server) := by
  simp only [afterRename, List.mem_append, List.mem_cons, List.not_mem_nil, or_false] at h
  rcases h with (rfl | rfl) | hnew
  · trivial
  · trivial
  · split at hnew
    · simp only [List.mem_cons, List.not_mem_nil, or_false] at hnew
      rcases hnew with rfl | rfl <;> trivial
    · cases hnew

section Files

variable (content : List Char → Option (List UInt8)) (machine : Machine)

/-- What stands in the `.partial` file when it is closed. -/
theorem content_beforeRename (hopened : outcomes.opened = true) :
    ((World.start content machine).run server outcomes
        (beforeRename server request size)).files.content (request.partialPath server) =
      some (kept outcomes 0 (request.slices size)) := by
  have hopening : ((World.start content machine).run server outcomes
      (request.opening server)).files = _ := run_opening content machine hopened
  have hwritten : (((World.start content machine).run server outcomes
      (request.opening server)).run server outcomes
        ((request.slices size).flatMap fileWrite)).files.content (request.partialPath server) = _ :=
    (content_run_fileWrite _ [] (by rw [hopening]) (by simp [hopening])).1
  rw [hopening] at hwritten
  rw [beforeRename, World.run_append, World.run_append]
  exact hwritten

theorem handle_beforeRename :
    ((World.start content machine).run server outcomes
        (beforeRename server request size)).files.handle = none := by
  rw [beforeRename, World.run_append]
  rfl

/-- The `.gcode` file from the renaming on. -/
theorem content_rename (hopened : outcomes.opened = true) :
    ((World.start content machine).run server outcomes (beforeRename server request size ++
        [.rename (request.partialPath server) (request.gcodePath server)])).files.content
          (request.gcodePath server) =
      if outcomes.renamed then some (kept outcomes 0 (request.slices size))
      else content (request.gcodePath server) := by
  have hgcode : ((World.start content machine).run server outcomes
      (beforeRename server request size)).files.content (request.gcodePath server) =
        content (request.gcodePath server) :=
    World.content_run (fun effect heffect ↦ (beforeRename_quiet heffect).1) (by simp [World.start])
  rw [World.run_append, ← hgcode, ← content_beforeRename content machine hopened]
  exact Files.content_rename_new _ _ gcodePath_ne

theorem handle_rename :
    ((World.start content machine).run server outcomes (beforeRename server request size ++
        [.rename (request.partialPath server) (request.gcodePath server)])).files.handle = none := by
  rw [World.run_append]
  exact (Files.handle_rename _ _ _ _).trans (handle_beforeRename content machine)

/-- The `.gcode` file in the course of a complete upload. -/
theorem content_take_of_complete (hopened : outcomes.opened = true)
    (h : (request.info server).accepted? = some size) (hcomplete : size ≤ request.bytes.length)
    (count : ℕ) :
    let after := (World.start content machine).run server outcomes
      ((handleConn server outcomes.opened request.stream).take count)
    after.files.content (request.gcodePath server) = content (request.gcodePath server) ∨
      after.files.content (request.gcodePath server) =
        if outcomes.renamed then some (kept outcomes 0 (request.slices size))
        else content (request.gcodePath server) := by
  rw [hopened, handleConn_of_complete h hcomplete, ← content_rename content machine hopened]
  apply World.content_run_take
  · exact fun effect heffect ↦ (beforeRename_quiet heffect).1
  · exact fun effect ↦ afterRename_spares
  · simp [World.start]
  · simp [handle_rename]

/-- The `.gcode` file after a complete upload. -/
theorem content_of_complete (hopened : outcomes.opened = true)
    (h : (request.info server).accepted? = some size) (hcomplete : size ≤ request.bytes.length) :
    ((World.start content machine).run server outcomes
        (handleConn server outcomes.opened request.stream)).files.content
          (request.gcodePath server) =
      if outcomes.renamed then some (kept outcomes 0 (request.slices size))
      else content (request.gcodePath server) := by
  rw [hopened, handleConn_of_complete h hcomplete, ← List.singleton_append, ← List.append_assoc,
    World.run_append, ← content_rename content machine hopened]
  apply World.content_run
  · exact fun effect ↦ afterRename_spares
  · simp [handle_rename]

/-- An upload that is not complete never touches the `.gcode` file. -/
theorem content_take_of_incomplete (hopened : outcomes.opened = true)
    (h : (request.info server).accepted? = some size) (hincomplete : request.bytes.length < size)
    (count : ℕ) :
    ((World.start content machine).run server outcomes
        ((handleConn server outcomes.opened request.stream).take count)).files.content
          (request.gcodePath server) =
      content (request.gcodePath server) := by
  rw [hopened, handleConn_of_incomplete h hincomplete]
  apply World.content_run
  · intro effect heffect
    rcases List.mem_append.mp (List.mem_of_mem_take heffect) with hbefore | hunlink
    · exact (beforeRename_quiet hbefore).1
    · rw [List.mem_singleton.mp hunlink]
      exact gcodePath_ne
  · simp [World.start]

/-- Its `.partial` file is removed. -/
theorem partial_of_incomplete (hopened : outcomes.opened = true) (hunlinked : outcomes.unlinked = true)
    (h : (request.info server).accepted? = some size) (hincomplete : request.bytes.length < size) :
    ((World.start content machine).run server outcomes
        (handleConn server outcomes.opened request.stream)).files.content
          (request.partialPath server) = none := by
  rw [hopened, handleConn_of_incomplete h hincomplete, World.run_append]
  simp [World.run, World.apply, Files.unlink, hunlinked]

/-- The slices of a complete upload are kept whole exactly if no call left bytes out. -/
theorem kept_slices_iff :
    kept outcomes 0 (request.slices size) = request.bytes.take size ↔
      ∀ call < fwriteCalls size request.chunks, outcomes.missing call = 0 := by
  have hflatten : (request.slices size).flatten = request.bytes.take size :=
    receiveBody_flatten _ _ _ _
  have hcount : (request.slices size).countP (fun slice ↦ !slice.isEmpty) =
      fwriteCalls size request.chunks := countP_receiveBody _ _ _ _
  rw [← hflatten, kept_eq_flatten_iff, hcount]
  simp only [Nat.zero_add]

theorem answers_beforeRename : (beforeRename server request size).filterMap Effect.answer? = [] :=
  List.filterMap_eq_nil_iff.mpr fun _ heffect ↦ (beforeRename_quiet heffect).2.2

theorem answers_afterRename : (afterRename server request).filterMap Effect.answer? = [ok] := by
  rw [afterRename]
  split <;> rfl

/-- A complete upload is answered with a 200, and with nothing else. -/
theorem responses_of_complete (hopened : outcomes.opened = true)
    (h : (request.info server).accepted? = some size) (hcomplete : size ≤ request.bytes.length) :
    ((World.start content machine).run server outcomes
      (handleConn server outcomes.opened request.stream)).responses = [ok] := by
  rw [hopened, handleConn_of_complete h hcomplete, World.responses_run, List.filterMap_append,
    answers_beforeRename, List.filterMap_cons, answers_afterRename]
  rfl

/-- An upload that came with a guid is neither filed nor distributed. -/
theorem machine_of_complete (hopened : outcomes.opened = true)
    (h : (request.info server).accepted? = some size) (hcomplete : size ≤ request.bytes.length)
    (hguid : (request.info server).guid.isNone = false) :
    let final := (World.start content machine).run server outcomes
      (handleConn server outcomes.opened request.stream)
    final.machine = machine ∧ final.alerts = [] := by
  apply World.machine_run
  rw [hopened, handleConn_of_complete h hcomplete, afterRename, hguid]
  intro effect heffect
  rcases List.mem_append.mp heffect with hbefore | hafter
  · exact (beforeRename_quiet hbefore).2.1
  · simp only [Bool.false_eq_true, if_false, List.append_nil, List.mem_cons, List.not_mem_nil,
      or_false] at hafter
    rcases hafter with rfl | rfl | rfl <;> exact id

/-- An upload that is not complete is dropped without an answer, and nobody hears of it. -/
theorem dropped_of_incomplete (hopened : outcomes.opened = true)
    (h : (request.info server).accepted? = some size) (hincomplete : request.bytes.length < size) :
    let final := (World.start content machine).run server outcomes
      (handleConn server outcomes.opened request.stream)
    final.responses = [] ∧ final.machine = machine ∧ final.alerts = [] := by
  have hquiet : ∀ effect ∈ handleConn server outcomes.opened request.stream,
      ¬ effect.Books ∧ effect.answer? = none := by
    rw [hopened, handleConn_of_incomplete h hincomplete]
    intro effect heffect
    rcases List.mem_append.mp heffect with hbefore | hunlink
    · exact (beforeRename_quiet hbefore).2
    · rw [List.mem_singleton.mp hunlink]
      exact ⟨id, rfl⟩
  refine ⟨?_, World.machine_run _ fun effect heffect ↦ (hquiet effect heffect).1⟩
  rw [World.responses_run, List.filterMap_eq_nil_iff.mpr fun effect heffect ↦
    (hquiet effect heffect).2]
  rfl

/-- A 200 is given to every upload that passes the header checks, whose file can be opened and
whose body arrives. -/
theorem answered_iff :
    ok ∈ ((World.start content machine).run server outcomes
        (handleConn server outcomes.opened request.stream)).responses ↔
      ∃ size, (request.info server).accepted? = some size ∧ outcomes.opened = true ∧
        size ≤ request.bytes.length := by
  constructor
  · intro hanswered
    cases haccepted : (request.info server).accepted? with
    | none =>
        rw [handleConn_of_rejected _ haccepted, World.responses_run] at hanswered
        have hanswer : ok = badRequest := List.mem_singleton.mp hanswered
        exact absurd hanswer (by decide)
    | some size =>
        cases hopened : outcomes.opened with
        | false =>
            have hanswers : (request.opening server ++
                [Effect.respond internalServerError]).filterMap Effect.answer? =
                  [internalServerError] := by
              rw [opening]
              split <;> rfl
            rw [hopened, handleConn_of_unopened haccepted, World.responses_run, hanswers] at hanswered
            have hanswer : ok = internalServerError := List.mem_singleton.mp hanswered
            exact absurd hanswer (by decide)
        | true =>
            rcases Nat.lt_or_ge request.bytes.length size with hlt | hle
            · have hdropped := (dropped_of_incomplete content machine hopened haccepted hlt).1
              rw [hdropped] at hanswered
              cases hanswered
            · exact ⟨size, rfl, rfl, hle⟩
  · rintro ⟨size, haccepted, hopened, hcomplete⟩
    rw [responses_of_complete content machine hopened haccepted hcomplete]
    exact List.mem_singleton_self ok

end Files

/-! ## The two results -/

/-- With a file system that does what it is asked, the `.gcode` file is at every point of the run
untouched or the first `size` bytes of the body.  The latter is reached, and a 200 answered, if so
many bytes arrive; otherwise the `.partial` file is gone and nobody has heard of the upload. -/
theorem gcode_appears_complete (server : Server) (request : PutStream)
    (content : List Char → Option (List UInt8)) (machine : Machine) (size : ℕ)
    (hsize : (request.info server).accepted? = some size) :
    let effects := handleConn server true request.stream
    let after := fun count ↦
      (World.start content machine).run server .success (effects.take count)
    let final := (World.start content machine).run server .success effects
    let gcode := request.gcodePath server
    (∀ count, (after count).files.content gcode = content gcode ∨
      (after count).files.content gcode = some (request.bytes.take size)) ∧
    (size ≤ request.bytes.length →
      final.files.content gcode = some (request.bytes.take size) ∧ final.responses = [ok]) ∧
    (request.bytes.length < size →
      (∀ count, (after count).files.content gcode = content gcode) ∧
        final.files.content (request.partialPath server) = none ∧ final.responses = [] ∧
          final.machine = machine ∧ final.alerts = []) := by
  intro effects after final gcode
  have hopened : Outcomes.success.opened = true := rfl
  have hkept : kept .success 0 (request.slices size) = request.bytes.take size :=
    kept_slices_iff.mpr fun _ _ ↦ rfl
  refine ⟨?_, ?_, ?_⟩
  · intro count
    rcases Nat.lt_or_ge request.bytes.length size with hlt | hle
    · exact .inl (content_take_of_incomplete content machine hopened hsize hlt count)
    · rw [← hkept]
      exact content_take_of_complete content machine hopened hsize hle count
  · intro hcomplete
    rw [← hkept]
    exact ⟨content_of_complete content machine hopened hsize hcomplete,
      responses_of_complete content machine hopened hsize hcomplete⟩
  · intro hincomplete
    exact ⟨content_take_of_incomplete content machine hopened hsize hincomplete,
      partial_of_incomplete content machine hopened rfl hsize hincomplete,
      dropped_of_incomplete content machine hopened hsize hincomplete⟩

/-- A new job of three bytes, the last one in a packet of its own behind an empty chunk. -/
def threeBytes : PutStream where
  chunk := asBytes "PUT / HTTP/1.1\r\nContent-Type: text/x.gcode\r\nContent-Length: 3\r\n\r\nG2".toList
  chain := [[]]
  packets := [[asBytes "8 ; home".toList]]
  startLine := "PUT / HTTP/1.1".toList
  headers := "Content-Type: text/x.gcode\r\nContent-Length: 3".toList
  body := asBytes "G2".toList
  split := by decide +kernel
  put := by decide +kernel

/-- A machine on an empty USB stick. -/
def plainServer : Server := ⟨.hyphenated, "<html></html>".toList, ⟨7⟩, some (.new 10 0 0 1)⟩

theorem gcode_appears_complete_threeBytes :
    ((World.start (fun _ ↦ none) .boot).run plainServer .success
        (handleConn plainServer true threeBytes.stream)).files.content
          (threeBytes.gcodePath plainServer) = some (asBytes "G28".toList) ∧
      ((World.start (fun _ ↦ none) .boot).run plainServer .success
        (handleConn plainServer true threeBytes.stream)).responses = [ok] := by
  have hstored := (gcode_appears_complete plainServer threeBytes (fun _ ↦ none) .boot 3
    (by decide +kernel)).2.1 (by decide +kernel)
  have hbytes : threeBytes.bytes.take 3 = asBytes "G28".toList := by decide +kernel
  rw [hbytes] at hstored
  exact hstored

/-- A 200 means that the upload is stored exactly if every `fwrite` wrote all it was given and the
file was renamed, or the renaming failed and the very same bytes stood there already. -/
theorem answered_means_stored_iff (server : Server) (request : PutStream)
    (content : List Char → Option (List UInt8)) (machine : Machine) (outcomes : Outcomes) :
    let final := (World.start content machine).run server outcomes
      (handleConn server outcomes.opened request.stream)
    let gcode := request.gcodePath server
    (ok ∈ final.responses → ∃ size, (request.info server).size = some size ∧
      final.files.content gcode = some (request.bytes.take size)) ↔
    ∀ size, (request.info server).accepted? = some size → outcomes.opened = true →
      size ≤ request.bytes.length →
        (outcomes.renamed = true ∧
          ∀ call < fwriteCalls size request.chunks, outcomes.missing call = 0) ∨
        (outcomes.renamed = false ∧ content gcode = some (request.bytes.take size)) := by
  intro final gcode
  have hstored {size : ℕ} (haccepted : (request.info server).accepted? = some size)
      (hopened : outcomes.opened = true) (hcomplete : size ≤ request.bytes.length) :
      final.files.content gcode = some (request.bytes.take size) ↔
        (outcomes.renamed = true ∧
          ∀ call < fwriteCalls size request.chunks, outcomes.missing call = 0) ∨
        (outcomes.renamed = false ∧ content gcode = some (request.bytes.take size)) := by
    rw [show final.files.content gcode = _ from
      content_of_complete content machine hopened haccepted hcomplete, ← kept_slices_iff]
    cases outcomes.renamed <;> simp [gcode]
  constructor
  · intro hmeans size haccepted hopened hcomplete
    obtain ⟨announced, hannounced, hcontent⟩ :=
      hmeans ((answered_iff content machine).mpr ⟨size, haccepted, hopened, hcomplete⟩)
    obtain rfl : announced = size :=
      Option.some.inj (hannounced.symm.trans (PutInfo.size_of_accepted haccepted))
    exact (hstored haccepted hopened hcomplete).mp hcontent
  · intro hcondition hanswered
    obtain ⟨size, haccepted, hopened, hcomplete⟩ := (answered_iff content machine).mp hanswered
    exact ⟨size, PutInfo.size_of_accepted haccepted,
      (hstored haccepted hopened hcomplete).mpr (hcondition size haccepted hopened hcomplete)⟩

/-- A full stick: the second `fwrite` writes nothing, the file is renamed and a 200 answered. -/
theorem answered_but_not_stored_threeBytes :
    let final := (World.start (fun _ ↦ none) .boot).run plainServer
      ⟨true, fun call ↦ call, true, true⟩ (handleConn plainServer true threeBytes.stream)
    ok ∈ final.responses ∧ ¬ ∃ size, (threeBytes.info plainServer).size = some size ∧
      final.files.content (threeBytes.gcodePath plainServer) =
        some (threeBytes.bytes.take size) := by
  refine ⟨by decide +kernel, ?_⟩
  rintro ⟨size, hsize, hcontent⟩
  have hthree : (threeBytes.info plainServer).size = some 3 := by decide +kernel
  obtain rfl : size = 3 := Option.some.inj (hsize.symm.trans hthree)
  revert hcontent
  decide +kernel

end PutStream

/-- Only a `PUT` request is answered with the 200 of an upload. -/
theorem exists_putStream_of_answered {server : Server} {opened : Bool} {stream : List Packet}
    (hpage : server.indexHtml ≠ ok) (h : .respond ok ∈ handleConn server opened stream) :
    ∃ request : PutStream, request.stream = stream := by
  have hbad : ok ≠ badRequest := by decide
  have hmethod : ok ≠ methodNotAllowed := by decide
  match stream with
  | [] => simp [handleConn] at h
  | [] :: _ => simp [handleConn, hbad] at h
  | (chunk :: chain) :: packets =>
      cases hsplit : splitRequest chunk with
      | none => simp [handleConn, hsplit, hbad] at h
      | some parts =>
          obtain ⟨startLine, headers, body⟩ := parts
          cases hstart : checkStartLine startLine with
          | error text =>
              have htext : ok = text := by simpa [handleConn, hsplit, hstart] using h
              rcases checkStartLine_error hstart with rfl | rfl
              · exact absurd htext hbad
              · exact absurd htext hmethod
          | ok method =>
              cases method with
              | get => simp [handleConn, hsplit, hstart, hpage.symm] at h
              | put => exact ⟨⟨chunk, chain, packets, startLine, headers, body, hsplit, hstart⟩, rfl⟩

end Derusting.Http
