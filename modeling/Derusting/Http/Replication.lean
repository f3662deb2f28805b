import Derusting.Http.Stored
import Derusting.Lwip.Put

/-!
# Replication

What one machine sends with `PutRequest` another one receives with `handle_conn`.  The head is
written as one format string and read by three parsers; the body goes through a staging buffer on
one side and through three loops on the other.  Both ends agree: the receiver stores the sender's
file under the sender's guid and tells nobody about it.
-/

namespace Derusting.Http

open Foundations.Text Foundations.Transition Lwip

section Head

variable (uuid : UuidText) (guid : Uuid) (fsize : UInt32)

/-- The lines of the header block `_connected` writes. -/
def headerLines : List (List Char) :=
  ["guid".toList ++ ':' :: ' ' :: uuid.display guid,
    "Content-Type".toList ++ ':' :: ' ' :: "text/x.gcode".toList,
    "Content-Length".toList ++ ':' :: ' ' :: Nat.toDigits 10 fsize.toNat,
    "Connection".toList ++ ':' :: ' ' :: "close".toList]

/-- The format string, line by line. -/
theorem headerText_eq :
    headerText uuid guid fsize = "PUT / HTTP/1.1".toList ++ ("\r\n".toList ++
      (joinLines (headerLines uuid guid fsize) ++ "\r\n\r\n".toList)) := by
  unfold headerText headerLines
  generalize Nat.toDigits 10 fsize.toNat = digits
  simp only [joinLines, List.append_assoc, List.cons_append]
  rfl

/-- The values are written with visible characters. -/
theorem visible_of_mem_value {char : Char}
    (h : char ∈ uuid.display guid ∨ char ∈ Nat.toDigits 10 fsize.toNat) :
    45 ≤ char.toNat ∧ char.toNat ≤ 102 := by
  rcases h with h | h
  · have hrange := uuid.toNat_of_mem_display h
    omega
  · have hrange := toNat_of_mem_toDigits h
    omega

/-- A header line whose name is harmless and whose value is visible. -/
theorem plain_field {key value : List Char} (hkey : Ascii key ∧ '\r' ∉ key ∧ '\n' ∉ key)
    (hvalue : ∀ char ∈ value, 45 ≤ char.toNat ∧ char.toNat ≤ 102) :
    key ++ ':' :: ' ' :: value ≠ [] ∧ Ascii (key ++ ':' :: ' ' :: value) ∧
      '\r' ∉ key ++ ':' :: ' ' :: value ∧ '\n' ∉ key ++ ':' :: ' ' :: value := by
  have hascii : Ascii value := fun char hmem ↦ by
    have := hvalue char hmem
    omega
  have hreturn : '\r' ∉ value := fun hmem ↦ absurd (hvalue _ hmem).1 (by decide)
  have hfeed : '\n' ∉ value := fun hmem ↦ absurd (hvalue _ hmem).1 (by decide)
  have hcolon : Ascii [':', ' '] := by decide
  refine ⟨by simp, hkey.1.append (hcolon.append hascii), ?_, ?_⟩
  · simpa using ⟨hkey.2.1, hreturn⟩
  · simpa using ⟨hkey.2.2, hfeed⟩

theorem headerLines_plain {line : List Char} (h : line ∈ headerLines uuid guid fsize) :
    line ≠ [] ∧ Ascii line ∧ '\r' ∉ line ∧ '\n' ∉ line := by
  simp only [headerLines, List.mem_cons, List.not_mem_nil, or_false] at h
  rcases h with rfl | rfl | rfl | rfl
  · exact plain_field (by decide) fun char hmem ↦ visible_of_mem_value uuid guid fsize (.inl hmem)
  · decide
  · exact plain_field (by decide) fun char hmem ↦ visible_of_mem_value uuid guid fsize (.inr hmem)
  · decide

/-- `check_put_header` reads what `_connected` has written. -/
theorem checkPutHeader_headerLines :
    checkPutHeader uuid (joinLines (headerLines uuid guid fsize)) =
      ⟨some fsize.toNat, some guid, true⟩ := by
  have hlines : lines (joinLines (headerLines uuid guid fsize)) = headerLines uuid guid fsize :=
    lines_joinLines fun line hline ↦ by
      have hplain := headerLines_plain uuid guid fsize hline
      exact ⟨hplain.1, hplain.2.2.2⟩
  have hblank {char : Char}
      (h : char ∈ uuid.display guid ∨ char ∈ Nat.toDigits 10 fsize.toNat) :
      isWhitespace char = false := by
    obtain ⟨hlow, hhigh⟩ := visible_of_mem_value uuid guid fsize h
    exact isWhitespace_of_visible (by omega) (by omega)
  have hguid (info : PutInfo) : checkLine uuid info ("guid".toList ++ ':' :: ' ' ::
      uuid.display guid) = { info with guid := some guid } := by
    rw [checkLine_field uuid info (by decide) fun char hmem ↦ hblank (.inl hmem),
      uuid.parse_display]
    rfl
  have htype (info : PutInfo) : checkLine uuid info ("Content-Type".toList ++ ':' :: ' ' ::
      "text/x.gcode".toList) = { info with isGcode := true } := by
    rw [checkLine_field uuid info (by decide) (by decide)]
    rfl
  have hlength (info : PutInfo) : checkLine uuid info ("Content-Length".toList ++ ':' :: ' ' ::
      Nat.toDigits 10 fsize.toNat) = { info with size := some fsize.toNat } := by
    rw [checkLine_field uuid info (by decide) fun char hmem ↦ hblank (.inr hmem),
      parseUnsigned_toDigits fsize.toNat_lt]
    rfl
  have hclose (info : PutInfo) : checkLine uuid info ("Connection".toList ++ ':' :: ' ' ::
      "close".toList) = info := by
    rw [checkLine_field uuid info (by decide) (by decide)]
    rfl
  rw [checkPutHeader, hlines, headerLines]
  simp only [List.foldl_cons, List.foldl_nil, hguid, htype, hlength, hclose]

/-- `split_request` finds the head whatever the first bytes of the file are. -/
theorem splitRequest_headerText (body : List UInt8) :
    splitRequest (asBytes (headerText uuid guid fsize) ++ body) =
      some ("PUT / HTTP/1.1".toList, joinLines (headerLines uuid guid fsize), body) := by
  have hcrlf : asBytes "\r\n".toList = crlf := by decide
  have hblank : asBytes "\r\n\r\n".toList = blankLine := by decide
  rw [headerText_eq, asBytes_append, asBytes_append, asBytes_append, hcrlf, hblank,
    List.append_assoc, List.append_assoc, List.append_assoc]
  apply splitRequest_joinLines
  · decide
  · decide
  · intro line hline
    obtain ⟨hne, hascii, hreturn, -⟩ := headerLines_plain uuid guid fsize hline
    exact ⟨hne, hascii, hreturn⟩

theorem checkStartLine_put : checkStartLine "PUT / HTTP/1.1".toList = .ok .put := by decide

/-- The sender's stream, with the head in the first chunk, as the receiver sees it. -/
def replica (body : List UInt8) (chain : Packet) (packets : List Packet) : PutStream where
  chunk := asBytes (headerText uuid guid fsize) ++ body
  chain := chain
  packets := packets
  startLine := "PUT / HTTP/1.1".toList
  headers := joinLines (headerLines uuid guid fsize)
  body := body
  split := splitRequest_headerText uuid guid fsize body
  put := checkStartLine_put

end Head

/-! ## From file to file -/

/-- The stream of a transfer that has come to its end. -/
theorem accepted_of_complete {uuid : UuidText} {guid : Uuid} {fsize : UInt32} {file : List UInt8}
    {transfer : Transfer}
    (hreach : Reaches (Transfer.step uuid) Unrestricted (Transfer.start guid fsize file) transfer)
    (hconnected : transfer.connected = some .ok) (hbuf : transfer.request.buf.toList = [])
    (hread : transfer.request.pos = file.length) :
    accepted transfer.writes = asBytes (headerText uuid guid fsize) ++ file := by
  have hinv := Transfer.Streaming.of_reaches hreach
  have hstream : accepted transfer.writes ++ transfer.request.buf.toList =
      asBytes (headerText uuid guid fsize) ++ transfer.request.file.take transfer.request.pos :=
    hinv.faithful hconnected
  rw [hbuf, hread, hinv.job.2.2, List.append_nil, List.take_length] at hstream
  exact hstream

section Receiver

variable {server : Server} {guid : Uuid} {fsize : UInt32} {file body : List UInt8} {chain : Packet}
  {packets : List Packet}

theorem info_replica (hsize : fsize.toNat = file.length) :
    (replica server.uuid guid fsize body chain packets).info server =
      ⟨some file.length, some guid, true⟩ := by
  rw [← hsize]
  exact checkPutHeader_headerLines server.uuid guid fsize

theorem accepted_replica (hsize : fsize.toNat = file.length) (hlow : 1 ≤ file.length)
    (hhigh : file.length ≤ 1000000) :
    ((replica server.uuid guid fsize body chain packets).info server).accepted? =
      some file.length := by
  rw [info_replica hsize, PutInfo.accepted?]
  exact if_pos ⟨rfl, Nat.one_le_iff_ne_zero.mp hlow, hhigh⟩

theorem gcodePath_replica (hsize : fsize.toNat = file.length) :
    (replica server.uuid guid fsize body chain packets).gcodePath server =
      makePath server.uuid guid false := by
  rw [PutStream.gcodePath, PutStream.guid, info_replica hsize]
  rfl

/-- Serving the stream leaves the file and nothing else. -/
theorem run_replica (hsize : fsize.toNat = file.length) (hlow : 1 ≤ file.length)
    (hhigh : file.length ≤ 1000000) (hbytes : bodyStream body chain packets = file)
    (content : List Char → Option (List UInt8)) (machine : Machine) :
    let final := (World.start content machine).run server .success
      (handleConn server true (replica server.uuid guid fsize body chain packets).stream)
    final.files.content (makePath server.uuid guid false) = some file ∧ final.responses = [ok] ∧
      final.machine = machine ∧ final.alerts = [] := by
  have hopened : Outcomes.success.opened = true := rfl
  have hall : (replica server.uuid guid fsize body chain packets).bytes = file := hbytes
  have haccepted : ((replica server.uuid guid fsize body chain packets).info server).accepted? =
      some file.length := accepted_replica hsize hlow hhigh
  have hcomplete : file.length ≤ (replica server.uuid guid fsize body chain packets).bytes.length := by
    rw [hall]
  have hkept : kept .success 0
      ((replica server.uuid guid fsize body chain packets).slices file.length) = file := by
    have hwhole : kept .success 0
        ((replica server.uuid guid fsize body chain packets).slices file.length) = _ :=
      PutStream.kept_slices_iff.mpr fun _ _ ↦ rfl
    rw [hwhole, hall, List.take_length]
  refine ⟨?_, PutStream.responses_of_complete content machine hopened haccepted hcomplete,
    PutStream.machine_of_complete content machine hopened haccepted hcomplete
      (by rw [info_replica hsize]; rfl)⟩
  have hcontent := PutStream.content_of_complete content machine hopened haccepted hcomplete
  rw [hkept, gcodePath_replica hsize] at hcontent
  exact hcontent

/-- A first chunk that holds the head is the head followed by the first bytes of the file. -/
theorem exists_body {head chunk : List UInt8} (hhead : head.length ≤ chunk.length)
    (hstream : chunk ++ (chain.flatten ++ packets.flatten.flatten) = head ++ file) :
    ∃ body, chunk = head ++ body ∧ bodyStream body chain packets = file := by
  obtain ⟨body, rfl⟩ : head <+: chunk :=
    List.prefix_of_prefix_length_le (List.prefix_append head file)
      (hstream ▸ List.prefix_append chunk _) hhead
  rw [List.append_assoc] at hstream
  exact ⟨body, rfl, List.append_cancel_left hstream⟩

end Receiver

/-- A peer that receives a complete transfer reads the sender's method, guid and size, stores the
very same file under the same guid, and neither files the job nor passes it on. -/
theorem replica_identical (server : Server) (guid : Uuid) (file : List UInt8)
    (hlow : 1 ≤ file.length) (hhigh : file.length ≤ 1000000) {transfer : Transfer}
    (hreach : Reaches (Transfer.step server.uuid) Unrestricted
      (Transfer.start guid (UInt32.ofNat file.length) file) transfer)
    (hconnected : transfer.connected = some .ok) (hbuf : transfer.request.buf.toList = [])
    (hread : transfer.request.pos = file.length)
    (chunk : List UInt8) (chain : Packet) (packets : List Packet)
    (hstream : chunk ++ (chain.flatten ++ packets.flatten.flatten) = accepted transfer.writes)
    (hhead : (asBytes (headerText server.uuid guid (UInt32.ofNat file.length))).length ≤
      chunk.length)
    (content : List Char → Option (List UInt8)) (machine : Machine) :
    (∃ startLine headers body, splitRequest chunk = some (startLine, headers, body) ∧
      checkStartLine startLine = .ok .put ∧
      checkPutHeader server.uuid headers = ⟨some file.length, some guid, true⟩) ∧
    let final := (World.start content machine).run server .success
      (handleConn server true ((chunk :: chain) :: packets))
    final.files.content (makePath server.uuid guid false) = some file ∧ final.responses = [ok] ∧
      final.machine = machine ∧ final.alerts = [] := by
  have hsize : (UInt32.ofNat file.length).toNat = file.length := by
    rw [UInt32.toNat_ofNat']
    omega
  rw [accepted_of_complete hreach hconnected hbuf hread] at hstream
  obtain ⟨body, rfl, hbytes⟩ := exists_body hhead hstream
  refine ⟨⟨_, _, _, splitRequest_headerText server.uuid guid _ body, checkStartLine_put, ?_⟩,
    run_replica hsize hlow hhigh hbytes content machine⟩
  rw [checkPutHeader_headerLines, hsize]

/-- The sender of `Transfer.retried`, received in four chunks of which one is empty. -/
theorem replica_identical_after_retried :
    let server := PutStream.plainServer
    let file := asBytes "G28\nG1".toList
    let head := asBytes (headerText server.uuid ⟨7⟩ (UInt32.ofNat file.length))
    ((World.start (fun _ ↦ none) .boot).run server .success (handleConn server true
        [[head ++ asBytes "G2".toList], [[]], [asBytes "8\n".toList, asBytes "G1".toList]])).files.content
          (makePath server.uuid ⟨7⟩ false) = some file := by
  intro server file head
  obtain ⟨transfer, hreach, hconnected, hbuf, hread, hstream⟩ := exists_reaches_of_runIf
    (Transfer.step server.uuid) Unrestricted
    (Transfer.start ⟨7⟩ (UInt32.ofNat file.length) file) Transfer.retried
    (fun transfer ↦ transfer.connected = some .ok ∧ transfer.request.buf.toList = [] ∧
      transfer.request.pos = file.length ∧
      head ++ asBytes "G2".toList ++ (([] : Packet).flatten ++
        [[[]], [asBytes "8\n".toList, asBytes "G1".toList]].flatten.flatten) =
          accepted transfer.writes) (by decide +kernel)
  have hidentical := replica_identical server ⟨7⟩ file (by decide +kernel) (by decide +kernel) hreach
    hconnected hbuf hread (head ++ asBytes "G2".toList) []
    [[[]], [asBytes "8\n".toList, asBytes "G1".toList]] hstream (by decide +kernel) (fun _ ↦ none) .boot
  exact hidentical.2.1

end Derusting.Http
