import Derusting.Foundations.Transition
import Derusting.Http.CleanUsb
import Derusting.Http.Stored

/-!
# The life of a USB stick

`clean_usb` deletes the job files at start-up, and `tcp_worker` serves one connection after the
other until the power goes.  On a stick that is not full, whatever is sent to the machine and
whenever it is reset: a `.gcode` file is the whole body of an upload, and an upload that has been
answered with a 200 has its file until the next start.
-/

namespace Derusting.Http

open Foundations.Text Foundations.Transition

/-! ## Start-up -/

/-- The names that FatFs finds with `*.gcode`. -/
def Glob.gcodePattern (glob : Glob) : FileName → Bool := glob.admits "*.gcode".toList

/-- The names that FatFs finds with `*.partial`. -/
def Glob.partialPattern (glob : Glob) : FileName → Bool := glob.admits "*.partial".toList

/-- `clean_usb`: what is left in the root directory when both loops have returned after at most
`rounds` rounds each. -/
def cleanUsb (glob : Glob) (gcodes partials : ℕ → UsbAnswer) (entries : List FileName)
    (rounds : ℕ) : Option (List FileName) :=
  let first := findAndDelete glob.gcodePattern gcodes entries rounds
  let second := findAndDelete glob.partialPattern partials first.entries rounds
  if first.status = .returned ∧ second.status = .returned then some second.entries else none

section Clean

variable {pattern : FileName → Bool} {entries : List FileName}

/-- Deleting a match leaves the other names alone. -/
theorem filter_not_unlink {name : FileName} (hname : pattern name = true) (ret : ℤ) :
    (unlink (usbPrefix ++ name.bytes ++ [0]) ret entries).filter (!pattern ·) =
      entries.filter (!pattern ·) := by
  rw [unlink]
  by_cases hret : ret = 0
  · rw [if_pos hret]
    induction entries with
    | nil => rfl
    | cons entry entries ih =>
        by_cases hsame : usbPrefix ++ entry.bytes ++ [0] = usbPrefix ++ name.bytes ++ [0]
        · have hbytes := List.append_cancel_left (List.append_cancel_right hsame)
          obtain rfl := FileName.ext_bytes hbytes
          rw [List.eraseP_cons_of_pos (by simp), List.filter_cons_of_neg (by simp [hname])]
        · rw [List.eraseP_cons_of_neg (by simpa using hsame), List.filter_cons, List.filter_cons,
            ih]
  · rw [if_neg hret]

/-- A round on a stick that answers keeps the other names, and returns only when no match is
left. -/
theorem round_willing (pattern : FileName → Bool) {cleaning : Cleaning}
    (hstatus : cleaning.status = .running) (round : ℕ) :
    (findAndDeleteRound pattern (willing round) cleaning).entries.filter (!pattern ·) =
        cleaning.entries.filter (!pattern ·) ∧
      ((findAndDeleteRound pattern (willing round) cleaning).status = .returned →
        (findAndDeleteRound pattern (willing round) cleaning).matching pattern = []) := by
  cases hmatching : cleaning.matching pattern with
  | nil =>
      rw [findAndDeleteRound_of_nil rfl hmatching]
      exact ⟨rfl, fun _ ↦ hmatching⟩
  | cons name rest =>
      have hname : pattern name = true :=
        (List.mem_filter.mp (hmatching ▸ List.mem_cons_self : name ∈ cleaning.matching pattern)).2
      rcases Nat.lt_trichotomy name.bytes.length 59 with hlt | heq | hgt
      · rw [findAndDeleteRound_of_le rfl hmatching (Nat.le_of_lt_succ hlt)]
        exact ⟨filter_not_unlink hname 0, fun hreturned ↦ LoopStatus.noConfusion hreturned⟩
      · rw [findAndDeleteRound_of_eq rfl hmatching heq]
        exact ⟨rfl, fun hreturned ↦ LoopStatus.noConfusion hreturned⟩
      · rw [findAndDeleteRound_of_lt rfl hmatching hgt]
        exact ⟨rfl, fun hreturned ↦ LoopStatus.noConfusion (hstatus.symm.trans hreturned)⟩

theorem findAndDelete_willing (pattern : FileName → Bool) (entries : List FileName) (count : ℕ) :
    (findAndDelete pattern willing entries count).entries.filter (!pattern ·) =
        entries.filter (!pattern ·) ∧
      ((findAndDelete pattern willing entries count).status = .returned →
        (findAndDelete pattern willing entries count).matching pattern = []) := by
  induction count with
  | zero => exact ⟨rfl, fun hreturned ↦ LoopStatus.noConfusion hreturned⟩
  | succ count ih =>
      by_cases hrunning : (findAndDelete pattern willing entries count).status = .running
      · rw [findAndDelete_succ_of_running hrunning]
        obtain ⟨hkept, hdone⟩ := round_willing pattern hrunning count
        exact ⟨hkept.trans ih.1, hdone⟩
      · rw [findAndDelete_succ_of_ended hrunning]
        exact ih

/-- A loop that has returned has left exactly the other names. -/
theorem entries_of_returned {count : ℕ}
    (h : (findAndDelete pattern willing entries count).status = .returned) :
    (findAndDelete pattern willing entries count).entries = entries.filter (!pattern ·) := by
  obtain ⟨hkept, hdone⟩ := findAndDelete_willing pattern entries count
  rw [← hkept]
  symm
  apply List.filter_eq_self.mpr
  intro name hname
  have hnone := List.filter_eq_nil_iff.mp (hdone h) name hname
  simpa using hnone

/-- A loop returns exactly if no match is too long for its path. -/
theorem exists_returned_iff :
    (∃ count, (findAndDelete pattern willing entries count).status = .returned) ↔
      ∀ name ∈ entries, pattern name = true → name.bytes.length ≤ 58 := by
  constructor
  · intro hreturned name hmem hname
    obtain ⟨index, hindex⟩ := List.mem_iff_getElem?.mp (List.mem_filter.mpr ⟨hmem, hname⟩)
    exact shortNames_of_returned (fun _ ↦ rfl) hreturned index name hindex fun _ _ ↦ rfl
  · intro hshort
    have hcleans : Cleans pattern willing entries := by
      refine ShortNames.cleans (fun _ ↦ rfl) ?_
      intro index name hindex _
      obtain ⟨hmem, hname⟩ := List.mem_filter.mp (List.mem_of_getElem? hindex)
      exact hshort name hmem hname
    exact hcleans.ends

theorem returned_of_le {count more : ℕ} (hle : count ≤ more)
    (h : (findAndDelete pattern willing entries count).status = .returned) :
    (findAndDelete pattern willing entries more).status = .returned := by
  obtain ⟨rest, rfl⟩ := Nat.exists_eq_add_of_le hle
  have hended : (findAndDelete pattern willing entries count).status ≠ .running := by
    rw [h]
    decide
  rw [findAndDelete_add_of_ended hended, h]

/-- On a stick that answers, `clean_usb` returns exactly if no job file has a name of more than 58
bytes, and then it has deleted the job files and nothing else. -/
theorem cleanUsb_iff (glob : Glob) (entries rest : List FileName) :
    (∃ rounds, cleanUsb glob willing willing entries rounds = some rest) ↔
      (∀ name ∈ entries, glob.gcodePattern name = true ∨ glob.partialPattern name = true →
        name.bytes.length ≤ 58) ∧
      rest = entries.filter fun name ↦ !glob.gcodePattern name && !glob.partialPattern name := by
  have hboth : (entries.filter (!glob.gcodePattern ·)).filter (!glob.partialPattern ·) =
      entries.filter fun name ↦ !glob.gcodePattern name && !glob.partialPattern name := by
    rw [List.filter_filter]
    exact List.filter_congr fun name _ ↦ Bool.and_comm _ _
  constructor
  · rintro ⟨rounds, hclean⟩
    obtain ⟨⟨hfirst, hsecond⟩, hrest⟩ := Option.ite_none_right_eq_some.mp hclean
    have hrest := Option.some.inj hrest
    have hgcodes := exists_returned_iff.mp ⟨rounds, hfirst⟩
    have hpartials := exists_returned_iff.mp ⟨rounds, hsecond⟩
    rw [entries_of_returned hsecond, entries_of_returned hfirst, hboth] at hrest
    refine ⟨?_, hrest.symm⟩
    intro name hmem hname
    by_cases hgcode : glob.gcodePattern name = true
    · exact hgcodes name hmem hgcode
    · apply hpartials name _ (hname.resolve_left hgcode)
      rw [entries_of_returned hfirst]
      exact List.mem_filter.mpr ⟨hmem, by simpa using hgcode⟩
  · rintro ⟨hshort, rfl⟩
    obtain ⟨first, hfirst⟩ := exists_returned_iff.mpr fun name hmem hname ↦
      hshort name hmem (.inl hname)
    obtain ⟨second, hsecond⟩ : ∃ count, (findAndDelete glob.partialPattern willing
        (entries.filter (!glob.gcodePattern ·)) count).status = .returned :=
      exists_returned_iff.mpr fun name hmem hname ↦
        hshort name (List.mem_of_mem_filter hmem) (.inr hname)
    have hfirst := returned_of_le (Nat.le_max_left first second) hfirst
    have hsecond := returned_of_le (Nat.le_max_right first second) hsecond
    rw [← entries_of_returned hfirst] at hsecond
    refine ⟨max first second, ?_⟩
    rw [cleanUsb, if_pos ⟨hfirst, hsecond⟩, entries_of_returned hsecond,
      entries_of_returned hfirst, hboth]

end Clean

/-! ## The worker -/

/-- The upload in a stream that `handle_conn` accepts and that arrives in full: its guid and its
body. -/
def upload? (server : Server) : List Packet → Option (Uuid × List UInt8)
  | (chunk :: chain) :: packets =>
      match splitRequest chunk with
      | none => none
      | some (startLine, headers, body) =>
          match checkStartLine startLine with
          | .ok .put =>
              let info := checkPutHeader server.uuid headers
              let bytes := bodyStream body chain packets
              match info.accepted? with
              | some size =>
                  if size ≤ bytes.length then
                    some (info.guid.getD server.fresh, bytes.take size)
                  else none
              | none => none
          | _ => none
  | _ => none

/-- A connection that is being served, after `count` of its effects. -/
structure Visit where
  server : Server
  machine : Machine
  outcomes : Outcomes
  stream : List Packet
  count : ℕ

namespace Visit

def effects (visit : Visit) : List Effect :=
  handleConn visit.server visit.outcomes.opened visit.stream

def upload? (visit : Visit) : Option (Uuid × List UInt8) :=
  Http.upload? visit.server visit.stream

/-- The files, with `content` when the connection was taken over. -/
def after (visit : Visit) (content : List Char → Option (List UInt8)) :
    List Char → Option (List UInt8) :=
  ((World.start content visit.machine).run visit.server visit.outcomes
    (visit.effects.take visit.count)).files.content

end Visit

/-- `tcp_worker` with the files on the stick as they were before the connection it is serving, and
the upload, if any, that each 200 since the last start has answered. -/
structure Worker where
  content : List Char → Option (List UInt8)
  visit : Option Visit
  answered : List (Option (Uuid × List UInt8))

/-- What happens to the worker: a connection is taken over, with what FatFs will say to `fopen`,
`rename` and `unlink`; the next effect is carried out; the connection has been served; or the
machine is reset at any point, with `entries` in the root directory when it starts again. -/
inductive WorkerEvent where
  | accept (fresh : Uuid) (myAddr : Option Ipv4Addr) (machine : Machine) (stream : List Packet)
      (opened renamed unlinked : Bool)
  | effect
  | leave
  | reset (entries : List FileName) (rounds : ℕ)

namespace Worker

/-- The files as they are. -/
def now (worker : Worker) : List Char → Option (List UInt8) :=
  match worker.visit with
  | none => worker.content
  | some visit => visit.after worker.content

/-- One event. A stick that is not full takes all the bytes it is given. -/
def step (glob : Glob) (uuid : UuidText) (indexHtml : List Char) (worker : Worker) :
    WorkerEvent → Option Worker
  | .accept fresh myAddr machine stream opened renamed unlinked =>
      match worker.visit with
      | some _ => none
      | none => some { worker with
          visit := some ⟨⟨uuid, indexHtml, fresh, myAddr⟩, machine,
            ⟨opened, fun _ ↦ 0, renamed, unlinked⟩, stream, 0⟩ }
  | .effect =>
      worker.visit.bind fun visit ↦
        visit.effects[visit.count]?.map fun effect ↦ { worker with
          visit := some { visit with count := visit.count + 1 }
          answered := if effect = .respond ok then visit.upload? :: worker.answered
            else worker.answered }
  | .leave =>
      worker.visit.bind fun visit ↦
        if visit.count = visit.effects.length then
          some { worker with content := visit.after worker.content, visit := none }
        else none
  | .reset entries rounds =>
      (cleanUsb glob willing willing entries rounds).map fun rest ↦ {
        content := fun path ↦
          if ∃ name ∈ rest, asBytes path = usbPrefix ++ name.bytes then worker.now path else none
        visit := none
        answered := [] }

/-- A file is renamed unless there is one of the new name. -/
def Renames (uuid : UuidText) (indexHtml : List Char) (worker : Worker) : WorkerEvent → Prop
  | .accept fresh myAddr _ stream _ renamed _ => renamed = false →
      ∀ entry ∈ Http.upload? ⟨uuid, indexHtml, fresh, myAddr⟩ stream,
        worker.content (makePath uuid entry.1 false) ≠ none
  | .effect | .leave | .reset _ _ => True

instance (uuid : UuidText) (indexHtml : List Char) (worker : Worker) :
    (event : WorkerEvent) → Decidable (worker.Renames uuid indexHtml event)
  | .accept fresh myAddr _ stream _ renamed _ => inferInstanceAs (Decidable (renamed = false →
      ∀ entry ∈ Http.upload? ⟨uuid, indexHtml, fresh, myAddr⟩ stream,
        worker.content (makePath uuid entry.1 false) ≠ none))
  | .effect => .isTrue trivial
  | .leave => .isTrue trivial
  | .reset _ _ => .isTrue trivial

end Worker

/-! ## One connection -/

section Paths

variable (uuid : UuidText)

theorem makePath_partial_ne_gcode (guid other : Uuid) :
    makePath uuid guid true ≠ makePath uuid other false := by
  intro hsame
  have hlength := congrArg List.length hsame
  simp [makePath, uuid.length_display] at hlength

theorem makePath_injective {guid other : Uuid}
    (h : makePath uuid guid false = makePath uuid other false) : guid = other := by
  have hdisplay : uuid.display guid = uuid.display other :=
    List.append_cancel_left (List.append_cancel_right h)
  have hparse := uuid.parse_display guid
  rw [hdisplay, uuid.parse_display] at hparse
  exact (Option.some.inj hparse).symm

/-- `*.gcode` matches the names of job files. -/
theorem gcodePattern_of_path (glob : Glob) {name : FileName} {guid : Uuid}
    (h : asBytes (makePath uuid guid false) = usbPrefix ++ name.bytes) :
    glob.gcodePattern name = true := by
  have hprefix : asBytes "/usb/".toList = usbPrefix := by decide
  have hname : name.bytes = asBytes (uuid.display guid) ++ asBytes ".gcode".toList := by
    rw [makePath, if_neg Bool.false_ne_true, asBytes_append, asBytes_append, hprefix,
      List.append_assoc] at h
    exact (List.append_cancel_left h).symm
  exact glob.admits_star hname

end Paths

section Effects

variable {server : Server} {request : PutStream} {opened : Bool} {stream : List Packet}
  {guid : Uuid} {size : ℕ}

theorem upload?_of_accepted (h : (request.info server).accepted? = some size) :
    upload? server request.stream =
      if size ≤ request.bytes.length then some (request.guid server, request.bytes.take size)
      else none := by
  have haccepted : (checkPutHeader server.uuid request.headers).accepted? = some size := h
  simp only [upload?, PutStream.stream, request.split, request.put, haccepted]
  rfl

theorem upload?_of_rejected (h : (request.info server).accepted? = none) :
    upload? server request.stream = none := by
  have haccepted : (checkPutHeader server.uuid request.headers).accepted? = none := h
  simp only [upload?, PutStream.stream, request.split, request.put, haccepted]

/-- A stream that is no `PUT` request touches no file. -/
theorem spares_of_not_put {path : List Char} (h : ∀ request : PutStream, request.stream ≠ stream)
    {effect : Effect} (heffect : effect ∈ handleConn server opened stream) :
    effect.Spares path := by
  match stream with
  | [] =>
      rw [handleConn, List.mem_singleton] at heffect
      rw [heffect]
      trivial
  | [] :: _ =>
      simp only [handleConn, List.mem_cons, List.not_mem_nil, or_false] at heffect
      rcases heffect with rfl | rfl <;> trivial
  | (chunk :: chain) :: packets =>
      cases hsplit : splitRequest chunk with
      | none =>
          simp only [handleConn, hsplit, List.mem_cons, List.not_mem_nil, or_false] at heffect
          rcases heffect with rfl | rfl <;> trivial
      | some parts =>
          obtain ⟨startLine, headers, body⟩ := parts
          cases hstart : checkStartLine startLine with
          | error text =>
              simp only [handleConn, hsplit, hstart, List.mem_cons, List.not_mem_nil,
                or_false] at heffect
              rcases heffect with rfl | rfl <;> trivial
          | ok method =>
              cases method with
              | get =>
                  simp only [handleConn, hsplit, hstart, List.mem_cons, List.not_mem_nil,
                    or_false] at heffect
                  rcases heffect with rfl | rfl <;> trivial
              | put =>
                  exact absurd rfl
                    (h ⟨chunk, chain, packets, startLine, headers, body, hsplit, hstart⟩)

/-- Up to the renaming, only the `.partial` file is touched. -/
theorem spares_beforeRename {effect : Effect}
    (heffect : effect ∈ PutStream.beforeRename server request size) :
    effect.Spares (makePath server.uuid guid false) := by
  simp only [PutStream.beforeRename, PutStream.opening, List.mem_append, List.mem_cons,
    List.mem_flatMap, List.not_mem_nil, or_false] at heffect
  rcases heffect with ((((rfl | rfl) | hannounce) | rfl) | ⟨slice, -, hwrite⟩) | rfl
  · trivial
  · trivial
  · by_cases hguid : (request.info server).guid.isSome = true
    · rw [if_pos hguid, List.mem_singleton] at hannounce
      rw [hannounce]
      trivial
    · rw [if_neg hguid] at hannounce
      cases hannounce
  · exact makePath_partial_ne_gcode server.uuid _ guid
  · by_cases hempty : slice.isEmpty = true
    · rw [fileWrite, if_pos hempty] at hwrite
      cases hwrite
    · rw [fileWrite, if_neg hempty, List.mem_singleton] at hwrite
      rw [hwrite]
      trivial
  · trivial

theorem spares_afterRename {effect : Effect} {path : List Char}
    (heffect : effect ∈ PutStream.afterRename server request) : effect.Spares path := by
  by_cases hguid : (request.info server).guid.isNone = true
  · simp only [PutStream.afterRename, if_pos hguid, List.mem_append, List.mem_cons,
      List.not_mem_nil, or_false] at heffect
    rcases heffect with (rfl | rfl) | rfl | rfl <;> trivial
  · simp only [PutStream.afterRename, if_neg hguid, List.append_nil, List.mem_cons,
      List.not_mem_nil, or_false] at heffect
    rcases heffect with rfl | rfl <;> trivial

/-- No `.gcode` file is touched but that of an upload that is complete. -/
theorem spares_gcode (h : ∀ bytes, opened = true → upload? server stream ≠ some (guid, bytes))
    {effect : Effect} (heffect : effect ∈ handleConn server opened stream) :
    effect.Spares (makePath server.uuid guid false) := by
  by_cases hput : ∃ request : PutStream, request.stream = stream
  · obtain ⟨request, rfl⟩ := hput
    cases haccepted : (request.info server).accepted? with
    | none =>
        rw [PutStream.handleConn_of_rejected opened haccepted] at heffect
        simp only [List.mem_cons, List.not_mem_nil, or_false] at heffect
        rcases heffect with rfl | rfl | rfl <;> trivial
    | some size =>
        cases opened with
        | false =>
            rw [PutStream.handleConn_of_unopened haccepted] at heffect
            rcases List.mem_append.mp heffect with hopening | hanswer
            · exact spares_beforeRename (List.mem_append_left _ (List.mem_append_left
                ((request.slices size).flatMap fileWrite) hopening))
            · rw [List.mem_singleton.mp hanswer]
              trivial
        | true =>
            rcases Nat.lt_or_ge request.bytes.length size with hlt | hle
            · rw [PutStream.handleConn_of_incomplete haccepted hlt] at heffect
              rcases List.mem_append.mp heffect with hbefore | hunlink
              · exact spares_beforeRename hbefore
              · rw [List.mem_singleton.mp hunlink]
                exact makePath_partial_ne_gcode server.uuid _ guid
            · have hother : request.guid server ≠ guid := by
                intro hsame
                have hupload := upload?_of_accepted haccepted
                rw [if_pos hle, hsame] at hupload
                exact h _ rfl hupload
              rw [PutStream.handleConn_of_complete haccepted hle] at heffect
              rcases List.mem_append.mp heffect with hbefore | hafter
              · exact spares_beforeRename hbefore
              · rcases List.mem_cons.mp hafter with rfl | hafter
                · exact ⟨makePath_partial_ne_gcode server.uuid _ guid,
                    fun hsame ↦ hother (makePath_injective server.uuid hsame)⟩
                · exact spares_afterRename hafter
  · exact spares_of_not_put (fun request hsame ↦ hput ⟨request, hsame⟩) heffect

/-- A complete upload comes from a request that passes the header checks. -/
theorem exists_request_of_upload {bytes : List UInt8}
    (h : upload? server stream = some (guid, bytes)) :
    ∃ (request : PutStream) (size : ℕ), request.stream = stream ∧
      (request.info server).accepted? = some size ∧ size ≤ request.bytes.length ∧
      request.guid server = guid ∧ request.bytes.take size = bytes := by
  match stream with
  | [] => cases h
  | [] :: _ => cases h
  | (chunk :: chain) :: packets =>
      cases hsplit : splitRequest chunk with
      | none => simp [upload?, hsplit] at h
      | some parts =>
          obtain ⟨startLine, headers, body⟩ := parts
          cases hstart : checkStartLine startLine with
          | error text => simp [upload?, hsplit, hstart] at h
          | ok method =>
              cases method with
              | get => simp [upload?, hsplit, hstart] at h
              | put =>
                  set request : PutStream :=
                    ⟨chunk, chain, packets, startLine, headers, body, hsplit, hstart⟩
                  have hstream : request.stream = (chunk :: chain) :: packets := rfl
                  rw [← hstream] at h
                  cases haccepted : (request.info server).accepted? with
                  | none =>
                      rw [upload?_of_rejected haccepted] at h
                      cases h
                  | some size =>
                      rw [upload?_of_accepted haccepted] at h
                      obtain ⟨hle, hentry⟩ := Option.ite_none_right_eq_some.mp h
                      obtain ⟨hguid, hbytes⟩ := Prod.mk.inj (Option.some.inj hentry)
                      exact ⟨request, size, rfl, haccepted, hle, hguid, hbytes⟩

/-- A 200 answers a complete upload. -/
theorem exists_upload_of_answered (hpage : server.indexHtml ≠ ok)
    (h : .respond ok ∈ handleConn server opened stream) :
    opened = true ∧ ∃ entry, upload? server stream = some entry := by
  obtain ⟨request, rfl⟩ := exists_putStream_of_answered hpage h
  have hanswered : ok ∈ ((World.start (fun _ ↦ none) .boot).run server
      ⟨opened, fun _ ↦ 0, true, true⟩ (handleConn server opened request.stream)).responses := by
    rw [World.responses_run]
    exact List.mem_append_right _ (List.mem_filterMap.mpr ⟨_, h, rfl⟩)
  obtain ⟨size, haccepted, hopened, hle⟩ := (PutStream.answered_iff _ _).mp hanswered
  exact ⟨hopened, _, (upload?_of_accepted haccepted).trans (if_pos hle)⟩

end Effects

namespace Visit

variable {visit : Visit} {content : List Char → Option (List UInt8)} {guid : Uuid}
  {bytes : List UInt8}

theorem after_of_spares (h : ∀ effect ∈ visit.effects, effect.Spares
    (makePath visit.server.uuid guid false)) :
    visit.after content (makePath visit.server.uuid guid false) =
      content (makePath visit.server.uuid guid false) :=
  World.content_run (fun effect heffect ↦ h effect (List.mem_of_mem_take heffect))
    (by simp [World.start])

/-- At any point, the `.gcode` files are as before, but for that of the upload, which may be there
already. -/
theorem after_cases (hfull : ∀ call, visit.outcomes.missing call = 0) (guid : Uuid) :
    visit.after content (makePath visit.server.uuid guid false) =
        content (makePath visit.server.uuid guid false) ∨
      visit.outcomes.opened = true ∧ ∃ bytes, visit.upload? = some (guid, bytes) ∧
        visit.after content (makePath visit.server.uuid guid false) = some bytes := by
  by_cases hother : ∀ bytes, visit.outcomes.opened = true → visit.upload? ≠ some (guid, bytes)
  · exact .inl (after_of_spares fun effect heffect ↦ spares_gcode hother heffect)
  · push Not at hother
    obtain ⟨bytes, hopened, hupload⟩ := hother
    obtain ⟨request, size, hstream, haccepted, hle, rfl, rfl⟩ := exists_request_of_upload hupload
    have hkept : kept visit.outcomes 0 (request.slices size) = request.bytes.take size :=
      PutStream.kept_slices_iff.mpr fun call _ ↦ hfull call
    have hcases := PutStream.content_take_of_complete content visit.machine hopened haccepted hle
      visit.count
    rw [hstream] at hcases
    rcases hcases with hsame | hrenamed
    · exact .inl hsame
    · cases hname : visit.outcomes.renamed with
      | false =>
          rw [hname] at hrenamed
          exact .inl hrenamed
      | true =>
          rw [hname, hkept] at hrenamed
          exact .inr ⟨hopened, _, hupload, hrenamed⟩

/-- A complete upload is answered with a 200. -/
theorem answered_of_upload (hupload : visit.upload? = some (guid, bytes))
    (hopened : visit.outcomes.opened = true) : .respond ok ∈ visit.effects := by
  obtain ⟨request, size, hstream, haccepted, hle, -, -⟩ := exists_request_of_upload hupload
  rw [effects, hopened, ← hstream, PutStream.handleConn_of_complete haccepted hle]
  refine List.mem_append_right _ (List.mem_cons_of_mem _ (List.mem_append_left _ ?_))
  exact List.mem_cons_self

/-- Once the 200 is out, the file is there. -/
theorem after_ne_none (hupload : visit.upload? = some (guid, bytes))
    (hopened : visit.outcomes.opened = true)
    (hrename : visit.outcomes.renamed = false →
      content (makePath visit.server.uuid guid false) ≠ none)
    (hanswered : .respond ok ∈ visit.effects.take visit.count) :
    visit.after content (makePath visit.server.uuid guid false) ≠ none := by
  obtain ⟨request, size, hstream, haccepted, hle, rfl, rfl⟩ := exists_request_of_upload hupload
  set before : List Effect := PutStream.beforeRename visit.server request size ++
    [.rename (request.partialPath visit.server) (request.gcodePath visit.server)] with hbefore
  have heffects : visit.effects = before ++ PutStream.afterRename visit.server request := by
    rw [effects, hopened, ← hstream, PutStream.handleConn_of_complete haccepted hle, hbefore,
      List.append_assoc, List.singleton_append]
  have hquiet : ∀ effect ∈ before, effect.answer? = none := by
    intro effect heffect
    rcases List.mem_append.mp heffect with hearlier | hname
    · exact (PutStream.beforeRename_quiet hearlier).2.2
    · rw [List.mem_singleton.mp hname]
      rfl
  rw [heffects] at hanswered
  rcases Nat.le_total visit.count before.length with hearly | hlate
  · rw [List.take_append_of_le_length hearly] at hanswered
    cases hquiet _ (List.mem_of_mem_take hanswered)
  · obtain ⟨rest, hrest⟩ := Nat.exists_eq_add_of_le hlate
    have hlast : visit.after content (request.gcodePath visit.server) =
        ((World.start content visit.machine).run visit.server visit.outcomes before).files.content
          (request.gcodePath visit.server) := by
      rw [after, heffects, hrest, List.take_length_add_append, World.run_append]
      exact World.content_run
        (fun effect heffect ↦ spares_afterRename (List.mem_of_mem_take heffect))
        (by simp [hbefore, PutStream.handle_rename])
    have hthere : visit.after content (request.gcodePath visit.server) ≠ none := by
      rw [hlast, hbefore, PutStream.content_rename content visit.machine hopened]
      cases hname : visit.outcomes.renamed with
      | false => exact hrename hname
      | true => simp
    exact hthere

end Visit

/-! ## Every connection -/

namespace Worker

variable {glob : Glob} {uuid : UuidText} {indexHtml : List Char} {worker after : Worker}

/-- An upload that is answered has a file from before the connection being served, or it is the one
that this connection has brought. -/
def Stored (uuid : UuidText) (worker : Worker) (upload : Uuid × List UInt8) : Prop :=
  worker.content (makePath uuid upload.1 false) ≠ none ∨
    ∃ visit ∈ worker.visit, visit.upload? = some upload ∧
      .respond ok ∈ visit.effects.take visit.count

/-- Before the connection there were only files of answered uploads, every answered upload is
stored, and the connection being served is one that the worker has taken over; once it is answered,
its upload is among those that are. -/
structure Kept (uuid : UuidText) (indexHtml : List Char) (worker : Worker) : Prop where
  settled : ∀ guid bytes, worker.content (makePath uuid guid false) = some bytes →
    some (guid, bytes) ∈ worker.answered
  stored : ∀ entry ∈ worker.answered, ∃ upload, entry = some upload ∧ worker.Stored uuid upload
  server : ∀ visit ∈ worker.visit, visit.server.uuid = uuid ∧ visit.server.indexHtml = indexHtml
  full : ∀ visit ∈ worker.visit, ∀ call, visit.outcomes.missing call = 0
  renames : ∀ visit ∈ worker.visit, visit.outcomes.renamed = false → ∀ upload ∈ visit.upload?,
    worker.content (makePath uuid upload.1 false) ≠ none
  answers : ∀ visit ∈ worker.visit, .respond ok ∈ visit.effects.take visit.count →
    visit.upload? ∈ worker.answered

/-- After a start there are no job files. -/
theorem kept_of_reset {entries : List FileName} {rounds : ℕ}
    (h : worker.step glob uuid indexHtml (.reset entries rounds) = some after) :
    Kept uuid indexHtml after := by
  obtain ⟨rest, hclean, rfl⟩ := Option.map_eq_some_iff.mp h
  have hrest := ((cleanUsb_iff glob entries rest).mp ⟨rounds, hclean⟩).2
  refine ⟨?_, by simp, by simp, by simp, by simp, by simp⟩
  intro guid bytes hcontent
  obtain ⟨⟨name, hname, hpath⟩, -⟩ := Option.ite_none_right_eq_some.mp hcontent
  rw [hrest] at hname
  have hgcode := gcodePattern_of_path uuid glob hpath
  simp [hgcode] at hname

/-- The files of the connection being served. -/
theorem Kept.now_cases (h : worker.Kept uuid indexHtml) (guid : Uuid) :
    worker.now (makePath uuid guid false) = worker.content (makePath uuid guid false) ∨
      ∃ visit ∈ worker.visit, visit.outcomes.opened = true ∧ ∃ bytes,
        visit.upload? = some (guid, bytes) ∧
          worker.now (makePath uuid guid false) = some bytes := by
  cases hvisit : worker.visit with
  | none =>
      left
      rw [now, hvisit]
  | some visit =>
      obtain ⟨rfl, -⟩ := h.server visit hvisit
      have hnow : worker.now = visit.after worker.content := by rw [now, hvisit]
      rw [hnow]
      exact (Visit.after_cases (h.full visit hvisit) guid).imp_right
        fun ⟨hopened, bytes, hupload, hthere⟩ ↦ ⟨visit, rfl, hopened, bytes, hupload, hthere⟩

/-- What is stored is there. -/
theorem Kept.now_ne_none (h : worker.Kept uuid indexHtml) (hpage : indexHtml ≠ ok)
    {upload : Uuid × List UInt8} (hstored : worker.Stored uuid upload) :
    worker.now (makePath uuid upload.1 false) ≠ none := by
  rcases hstored with hbefore | ⟨visit, hvisit, hupload, hanswered⟩
  · rcases h.now_cases upload.1 with hsame | ⟨-, -, -, bytes, -, hthere⟩
    · rw [hsame]
      exact hbefore
    · rw [hthere]
      exact Option.some_ne_none bytes
  · obtain ⟨rfl, hpage'⟩ := h.server visit hvisit
    obtain ⟨hopened, -⟩ := exists_upload_of_answered (hpage' ▸ hpage)
      (List.mem_of_mem_take hanswered)
    have hnow : worker.now = visit.after worker.content := by rw [now, hvisit]
    rw [hnow]
    exact Visit.after_ne_none hupload hopened
      (fun hname ↦ h.renames visit hvisit hname upload hupload) hanswered

theorem Kept.accept (h : worker.Kept uuid indexHtml) (hidle : worker.visit = none)
    {visit : Visit} (hserver : visit.server.uuid = uuid ∧ visit.server.indexHtml = indexHtml)
    (hcount : visit.count = 0) (hfull : ∀ call, visit.outcomes.missing call = 0)
    (hrenames : visit.outcomes.renamed = false → ∀ upload ∈ visit.upload?,
      worker.content (makePath uuid upload.1 false) ≠ none) :
    Kept uuid indexHtml { worker with visit := some visit } := by
  refine ⟨h.settled, ?_, ?_, ?_, ?_, ?_⟩
  · intro entry hentry
    obtain ⟨upload, hsome, hstored⟩ := h.stored entry hentry
    refine ⟨upload, hsome, .inl ?_⟩
    rcases hstored with hbefore | ⟨other, hother, -⟩
    · exact hbefore
    · rw [hidle] at hother
      cases hother
  · rintro _ ⟨⟩
    exact hserver
  · rintro _ ⟨⟩
    exact hfull
  · rintro _ ⟨⟩
    exact hrenames
  · rintro _ ⟨⟩ hanswered
    rw [hcount, List.take_zero] at hanswered
    cases hanswered

/-- One more effect: what is stored stays, and a 200 answers an upload that is stored. -/
theorem Kept.effect (h : worker.Kept uuid indexHtml) (hpage : indexHtml ≠ ok)
    {visit : Visit} (hvisit : worker.visit = some visit) {effect : Effect}
    (heffect : visit.effects[visit.count]? = some effect) :
    Kept uuid indexHtml { worker with
      visit := some { visit with count := visit.count + 1 }
      answered := if effect = .respond ok then visit.upload? :: worker.answered
        else worker.answered } := by
  obtain ⟨hserver, hpage'⟩ := h.server visit hvisit
  have htake : visit.effects.take (visit.count + 1) =
      visit.effects.take visit.count ++ [effect] := by
    rw [List.take_add_one, heffect]
    rfl
  have hmono : ∀ entry ∈ worker.answered, entry ∈ if effect = .respond ok then
      visit.upload? :: worker.answered else worker.answered := by
    intro entry hentry
    by_cases hok : effect = .respond ok
    · rw [if_pos hok]
      exact List.mem_cons_of_mem _ hentry
    · rw [if_neg hok]
      exact hentry
  have hkept : ∀ upload, worker.Stored uuid upload → Stored uuid { worker with
      visit := some { visit with count := visit.count + 1 }
      answered := if effect = .respond ok then visit.upload? :: worker.answered
        else worker.answered } upload := by
    rintro upload (hbefore | ⟨other, hother, hupload, hanswered⟩)
    · exact .inl hbefore
    · obtain rfl := Option.some.inj (hvisit.symm.trans hother)
      refine .inr ⟨_, rfl, hupload, ?_⟩
      exact htake ▸ List.mem_append_left [effect] hanswered
  refine ⟨fun guid bytes hcontent ↦ hmono _ (h.settled guid bytes hcontent), ?_, ?_, ?_, ?_, ?_⟩
  · intro entry hentry
    by_cases hok : effect = .respond ok
    · simp only [if_pos hok] at hentry
      rcases List.mem_cons.mp hentry with rfl | hold
      · have hmem : Effect.respond ok ∈ visit.effects := hok ▸ List.mem_of_getElem? heffect
        obtain ⟨-, upload, hupload⟩ := exists_upload_of_answered (hpage' ▸ hpage) hmem
        refine ⟨upload, hupload, .inr ⟨_, rfl, hupload, ?_⟩⟩
        exact htake ▸ List.mem_append_right _ (hok ▸ List.mem_singleton_self _)
      · obtain ⟨upload, hsome, hstored⟩ := h.stored entry hold
        exact ⟨upload, hsome, hkept upload hstored⟩
    · simp only [if_neg hok] at hentry
      obtain ⟨upload, hsome, hstored⟩ := h.stored entry hentry
      exact ⟨upload, hsome, hkept upload hstored⟩
  · rintro _ ⟨⟩
    exact ⟨hserver, hpage'⟩
  · rintro _ ⟨⟩
    exact h.full visit hvisit
  · rintro _ ⟨⟩
    exact h.renames visit hvisit
  · rintro _ ⟨⟩ hanswered
    have hanswered : .respond ok ∈ visit.effects.take visit.count ++ [effect] := htake ▸ hanswered
    rcases List.mem_append.mp hanswered with hbefore | hnow
    · exact hmono _ (h.answers visit hvisit hbefore)
    · simp only [if_pos (List.mem_singleton.mp hnow).symm]
      exact List.mem_cons_self

/-- The connection has been served. -/
theorem Kept.leave (h : worker.Kept uuid indexHtml) (hpage : indexHtml ≠ ok)
    {visit : Visit} (hvisit : worker.visit = some visit)
    (hdone : visit.count = visit.effects.length) :
    Kept uuid indexHtml { worker with content := visit.after worker.content, visit := none } := by
  have hnow : worker.now = visit.after worker.content := by rw [now, hvisit]
  refine ⟨?_, ?_, by simp, by simp, by simp, by simp⟩
  · intro guid bytes hcontent
    have hcontent : worker.now (makePath uuid guid false) = some bytes := hnow ▸ hcontent
    rcases h.now_cases guid with hsame | ⟨other, hother, hopened, stored, hupload, hthere⟩
    · exact h.settled guid bytes (hsame ▸ hcontent)
    · obtain rfl := Option.some.inj (hvisit.symm.trans hother)
      obtain rfl := Option.some.inj (hthere.symm.trans hcontent)
      rw [← hupload]
      apply h.answers visit hvisit
      rw [hdone, List.take_length]
      exact Visit.answered_of_upload hupload hopened
  · intro entry hentry
    obtain ⟨upload, hsome, hstored⟩ := h.stored entry hentry
    refine ⟨upload, hsome, .inl ?_⟩
    have hthere := h.now_ne_none hpage hstored
    rw [hnow] at hthere
    exact hthere

theorem Kept.step (h : worker.Kept uuid indexHtml) (hpage : indexHtml ≠ ok) {event : WorkerEvent}
    (hrenames : worker.Renames uuid indexHtml event)
    (hstep : worker.step glob uuid indexHtml event = some after) : after.Kept uuid indexHtml := by
  cases event with
  | accept fresh myAddr machine stream opened renamed unlinked =>
      rw [Worker.step] at hstep
      cases hvisit : worker.visit with
      | some visit => simp [hvisit] at hstep
      | none =>
          simp only [hvisit] at hstep
          obtain rfl := Option.some.inj hstep
          exact h.accept hvisit ⟨rfl, rfl⟩ rfl (fun _ ↦ rfl) hrenames
  | effect =>
      obtain ⟨visit, hvisit, hnext⟩ := Option.bind_eq_some_iff.mp hstep
      obtain ⟨effect, heffect, rfl⟩ := Option.map_eq_some_iff.mp hnext
      exact h.effect hpage hvisit heffect
  | leave =>
      obtain ⟨visit, hvisit, hnext⟩ := Option.bind_eq_some_iff.mp hstep
      obtain ⟨hdone, hsome⟩ := Option.ite_none_right_eq_some.mp hnext
      obtain rfl := Option.some.inj hsome
      exact h.leave hpage hvisit hdone
  | reset entries rounds => exact kept_of_reset hstep

/-- On a stick that is not full and renames what it can, whatever is sent to the machine and
whenever it is reset: at any point between two starts, a `.gcode` file is the whole body of an
upload that has been answered with a 200 or is about to be, and every upload answered since the last
start has its file. -/
theorem job_files_complete {glob : Glob} {uuid : UuidText} {indexHtml : List Char}
    (hpage : indexHtml ≠ ok)
    {before first worker : Worker} {entries : List FileName} {rounds : ℕ}
    (hstart : before.step glob uuid indexHtml (.reset entries rounds) = some first)
    (h : Reaches (step glob uuid indexHtml) (Renames uuid indexHtml) first worker) :
    (∀ guid bytes, worker.now (makePath uuid guid false) = some bytes →
      some (guid, bytes) ∈ worker.answered ∨
        ∃ visit ∈ worker.visit, visit.upload? = some (guid, bytes)) ∧
    ∀ entry ∈ worker.answered, ∃ upload, entry = some upload ∧
      ∃ bytes, worker.now (makePath uuid upload.1 false) = some bytes := by
  have hkept : worker.Kept uuid indexHtml :=
    h.invariant (Kept uuid indexHtml) (kept_of_reset hstart) fun _ _ _ hbefore hrenames hstep ↦
      hbefore.step hpage hrenames hstep
  constructor
  · intro guid bytes hnow
    rcases hkept.now_cases guid with hsame | ⟨visit, hvisit, -, stored, hupload, hthere⟩
    · exact .inl (hkept.settled guid bytes (hsame ▸ hnow))
    · obtain rfl := Option.some.inj (hthere.symm.trans hnow)
      exact .inr ⟨visit, hvisit, hupload⟩
  · intro entry hentry
    obtain ⟨upload, hsome, hstored⟩ := hkept.stored entry hentry
    exact ⟨upload, hsome, Option.ne_none_iff_exists'.mp (hkept.now_ne_none hpage hstored)⟩

/-- A stick without files. -/
def blank : Worker := ⟨fun _ ↦ none, none, []⟩

/-- A job of three bytes is uploaded, and the connection left as soon as it is answered. -/
def uploading : List WorkerEvent :=
  .accept ⟨7⟩ none .boot PutStream.threeBytes.stream true true true :: List.replicate 8 .effect

theorem job_files_complete_threeBytes :
    ∃ worker, Reaches (step .suffixes .hyphenated "<html></html>".toList)
      (Renames .hyphenated "<html></html>".toList) blank worker ∧
        worker.answered = [some (⟨7⟩, asBytes "G28".toList)] ∧
        ∃ bytes, worker.now (makePath .hyphenated ⟨7⟩ false) = some bytes := by
  have hclean : cleanUsb .suffixes willing willing [] 1 = some [] := by decide
  have hstart : blank.step .suffixes .hyphenated "<html></html>".toList (.reset [] 1) =
      some blank := by
    simp [step, hclean, blank, now]
  obtain ⟨worker, hreach, hanswered⟩ := exists_reaches_of_runIf
    (step .suffixes .hyphenated "<html></html>".toList)
    (Renames .hyphenated "<html></html>".toList) blank uploading
    (fun worker ↦ worker.answered = [some (⟨7⟩, asBytes "G28".toList)]) (by decide +kernel)
  obtain ⟨-, hstored⟩ := job_files_complete (by decide) hstart hreach
  obtain ⟨upload, hsome, hthere⟩ := hstored (some (⟨7⟩, asBytes "G28".toList))
    (by rw [hanswered]; exact List.mem_singleton_self _)
  obtain rfl := Option.some.inj hsome
  exact ⟨worker, hreach, hanswered, hthere⟩

end Worker

end Derusting.Http
