import Derusting.Http.Upload
import Derusting.Lwip.PacketBuffer

/-!
# The chunks of a request in memory

`handle_conn` once more, on the packets as they lie in memory.  Every use of a chunk or of a part of
it reads the memory again, and a packet is freed where the iterator that owns it goes out of scope:
the first one with the loop over its remaining chunks or with the function, the others with the loop
over their chunks.  `evaluates_handleConn` says that this is `Http.handleConn` on the bytes that
arrived.
-/

namespace Derusting.Http.InPlace

open Foundations.Regions Foundations.Text Lwip

/-- `split_request`: the parts are slices of the chunk. -/
def splitRequest (buf : Slice) : Routine (Option (Slice × Slice × Slice)) := do
  match position crlf (← buf.read) with
  | none => return none
  | some index =>
      let startLine := buf.take index
      let rest := (buf.drop index).drop 2
      match position blankLine (← rest.read) with
      | none => return none
      | some index =>
          let headers := rest.take index
          let body := (rest.drop index).drop 4
          match fromUtf8 (← startLine.read) with
          | none => return none
          | some _ =>
              match fromUtf8 (← headers.read) with
              | none => return none
              | some _ => return some (startLine, headers, body)

/-- The text of a slice that has been checked to be UTF-8. -/
def text (slice : Slice) : Routine (List Char) := do return (fromUtf8 (← slice.read)).getD []

/-- The loop over the chunks an iterator has yet to yield. -/
def chunkLoop : ℕ → List Segment → Routine (List (List UInt8) × ℕ × Bool)
  | contentLength, [] => return ([], contentLength, true)
  | contentLength, segment :: rest => do
      let chunk := segment.slice
      let toWrite := min contentLength chunk.len
      let slice ← (chunk.take toWrite).read
      if contentLength - toWrite = 0 then return ([slice], 0, false)
      else
        let (slices, contentLength, ranOut) ← chunkLoop (contentLength - toWrite) rest
        return (slice :: slices, contentLength, ranOut)

/-- The loop over further packets. -/
def packetLoop : ℕ → List PacketBuffer → Routine (List (List UInt8) × Bool)
  | 0, _ => return ([], true)
  | _ + 1, [] => return ([], false)
  | contentLength + 1, pbuf :: packets => do
      pbuf.received
      let iter := pbuf.intoIter
      let (slices, contentLength, _) ← chunkLoop (contentLength + 1) iter.current
      iter.inner.drop
      let (more, complete) ← packetLoop contentLength packets
      return (slices ++ more, complete)

/-- The three loops of the `PUT` branch; `for chunk in iter` takes the iterator over. -/
def receiveBody (size : ℕ) (body : Slice) (iter : PacketBufferIterator)
    (packets : List PacketBuffer) : Routine (List (List UInt8) × Bool) := do
  let toWrite := min size body.len
  let slice ← (body.take toWrite).read
  let (slices, contentLength, morePacketsNeeded) ← chunkLoop (size - toWrite) iter.current
  iter.inner.drop
  if morePacketsNeeded then
    let (more, complete) ← packetLoop contentLength packets
    return (slice :: slices ++ more, complete)
  else return (slice :: slices, true)

/-- The `PUT` branch once the header has passed its checks. -/
def receiveFile (server : Server) (opened : Bool) (info : PutInfo) (size : ℕ) (body : Slice)
    (iter : PacketBufferIterator) (packets : List PacketBuffer) : Routine (List Effect) := do
  let guid := info.guid.getD server.fresh
  let path := makePath server.uuid guid true
  let announce := if info.guid.isSome then [.log "Receiving file from machine".toList] else []
  if opened then
    let (slices, complete) ← receiveBody size body iter packets
    return announce ++ .fopen path :: (slices.flatMap fileWrite ++
      if complete then finish server info guid else [.fclose, .unlink path])
  else
    iter.inner.drop
    return announce ++ [.fopen path, .respond internalServerError]

/-- `handle_conn` from the first chunk on. -/
def serve (server : Server) (opened : Bool) (chunk : Slice) (iter : PacketBufferIterator)
    (packets : List PacketBuffer) : Routine (List Effect) := do
  match ← splitRequest chunk with
  | none =>
      iter.inner.drop
      return [.respond badRequest]
  | some (startLine, headers, body) =>
      match checkStartLine (← text startLine) with
      | .error answer =>
          iter.inner.drop
          return [.respond answer]
      | .ok .get =>
          iter.inner.drop
          return [.respond server.indexHtml]
      | .ok .put =>
          let info := checkPutHeader server.uuid (← text headers)
          match info.accepted? with
          | none =>
              iter.inner.drop
              return [.log "/ PUT request received".toList, .respond badRequest]
          | some size =>
              let effects ← receiveFile server opened info size body iter packets
              return .log "/ PUT request received".toList :: effects

/-- `handle_conn` on the packets `receive` returns before `None`. -/
def handleConn (server : Server) (opened : Bool) : List PacketBuffer → Routine (List Effect)
  | [] => return [.log "Handling TCP Connection".toList]
  | pbuf :: packets => do
      pbuf.received
      match pbuf.intoIter.next with
      | (none, iter) =>
          iter.inner.drop
          return [.log "Handling TCP Connection".toList, .respond badRequest]
      | (some chunk, iter) =>
          let effects ← serve server opened chunk iter packets
          return .log "Handling TCP Connection".toList :: effects

/-! ## On the bytes that arrived -/

variable {held : List (Region ℕ UInt8)} {slice : Slice} {bytes : List UInt8}

theorem evaluates_chunkLoop {segments : List Segment} (contentLength : ℕ)
    (hcovers : ∀ segment ∈ segments, Covers held segment.slice segment.bytes) :
    (chunkLoop contentLength segments).Evaluates held
      (Http.chunkLoop contentLength (segments.map Segment.bytes)) held := by
  induction segments generalizing contentLength with
  | nil => exact .done held _
  | cons segment rest ih =>
      have hread := ((hcovers segment List.mem_cons_self).take
        (min contentLength segment.bytes.length)).evaluates_read
      have hrest := ih (contentLength - min contentLength segment.bytes.length)
        fun other hother ↦ hcovers other (List.mem_cons_of_mem _ hother)
      refine hread.bind ?_
      have hlen : segment.slice.len = segment.bytes.length := rfl
      by_cases hlast : contentLength - min contentLength segment.bytes.length = 0
      · simp only [List.map_cons, Http.chunkLoop, takeChunk, hlen, hlast, if_true]
        exact .done held _
      · simp only [List.map_cons, Http.chunkLoop, takeChunk, hlen, hlast, if_false]
        exact hrest.bind (.done held _)

theorem evaluates_packetLoop (contentLength : ℕ) (packets : List PacketBuffer) :
    (packetLoop contentLength packets).Evaluates held
      (Http.packetLoop contentLength (packets.map PacketBuffer.chunks)) held := by
  induction packets generalizing contentLength with
  | nil => cases contentLength <;> exact .done held _
  | cons packet packets ih =>
      cases contentLength with
      | zero => exact .done held _
      | succ contentLength =>
          have hloop : (chunkLoop (contentLength + 1) packet.chain).Evaluates
              (packet.region :: held) (Http.chunkLoop (contentLength + 1) packet.chunks)
              (packet.region :: held) :=
            evaluates_chunkLoop _ fun _ ↦ covers_segment List.mem_cons_self
          exact (evaluates_received packet).bind (hloop.bind ((evaluates_drop packet).bind
            ((ih _).bind (.done held _))))

theorem evaluates_text (hcovers : Covers held slice bytes) {chars : List Char}
    (hutf8 : fromUtf8 bytes = some chars) : (text slice).Evaluates held chars held := by
  refine hcovers.evaluates_read.bind ?_
  rw [hutf8]
  exact .done held chars

/-- The slices of the parts of a head, and the parts of the bytes. -/
inductive Parts (held : List (Region ℕ UInt8)) :
    Option (Slice × Slice × Slice) → Option (List Char × List Char × List UInt8) → Prop
  | none : Parts held none none
  | some {startLine headers body : Slice} {startText headerText : List Char}
      {bodyBytes : List UInt8} (hstart : (text startLine).Evaluates held startText held)
      (hheaders : (text headers).Evaluates held headerText held)
      (hbody : Covers held body bodyBytes) :
      Parts held (some (startLine, headers, body)) (some (startText, headerText, bodyBytes))

theorem evaluates_splitRequest (hcovers : Covers held slice bytes) :
    ∃ parts, (splitRequest slice).Evaluates held parts held ∧
      Parts held parts (Http.splitRequest bytes) := by
  have hnone : ∃ parts, (Program.done none : Routine (Option (Slice × Slice × Slice))).Evaluates
      held parts held ∧ Parts held parts none := ⟨none, .done held none, .none⟩
  simp only [Http.splitRequest, Option.bind_eq_bind]
  refine hcovers.evaluates_read.exists_bind ?_
  cases hline : position crlf bytes with
  | none => exact hnone
  | some lineEnd =>
      have hstart := hcovers.take lineEnd
      have hrest := (hcovers.drop lineEnd).drop 2
      refine hrest.evaluates_read.exists_bind ?_
      rw [Option.bind_some]
      cases hblank : position blankLine ((bytes.drop lineEnd).drop 2) with
      | none => exact hnone
      | some length =>
          have hheaders := hrest.take length
          refine hstart.evaluates_read.exists_bind ?_
          rw [Option.bind_some]
          cases hstartText : fromUtf8 (bytes.take lineEnd) with
          | none => exact hnone
          | some startText =>
              refine hheaders.evaluates_read.exists_bind ?_
              rw [Option.bind_some]
              cases hheaderText : fromUtf8 (((bytes.drop lineEnd).drop 2).take length) with
              | none => exact hnone
              | some headerText =>
                  exact ⟨_, .done held _, .some (evaluates_text hstart hstartText)
                    (evaluates_text hheaders hheaderText) ((hrest.drop length).drop 4)⟩

variable {packet : PacketBuffer} {chain : List Segment}

/-- The first packet is freed behind the loop over its remaining chunks. -/
theorem evaluates_receiveBody (size : ℕ) (hbody : Covers (packet.region :: held) slice bytes)
    (hchain : ∀ segment ∈ chain, segment ∈ packet.chain) (packets : List PacketBuffer) :
    (receiveBody size slice ⟨packet, chain⟩ packets).Evaluates (packet.region :: held)
      (Http.receiveBody size bytes (chain.map Segment.bytes) (packets.map PacketBuffer.chunks))
      held := by
  have hread := (hbody.take (min size bytes.length)).evaluates_read
  have hloop : (chunkLoop (size - min size bytes.length) chain).Evaluates (packet.region :: held)
      (Http.chunkLoop (size - min size bytes.length) (chain.map Segment.bytes))
      (packet.region :: held) :=
    evaluates_chunkLoop _ fun segment hsegment ↦
      covers_segment List.mem_cons_self (hchain segment hsegment)
  rw [receiveBody, hbody.len]
  refine hread.bind (hloop.bind ((evaluates_drop packet).bind ?_))
  cases hneeded : (Http.chunkLoop (size - min size bytes.length) (chain.map Segment.bytes)).2.2 with
  | true =>
      simp only [Http.receiveBody, takeChunk, hneeded, if_true]
      exact (evaluates_packetLoop _ packets).bind (.done held _)
  | false =>
      simp only [Http.receiveBody, takeChunk, hneeded, Bool.false_eq_true, if_false]
      exact .done held _

theorem evaluates_receiveFile (server : Server) (opened : Bool) (info : PutInfo) (size : ℕ)
    (hbody : Covers (packet.region :: held) slice bytes)
    (hchain : ∀ segment ∈ chain, segment ∈ packet.chain) (packets : List PacketBuffer) :
    (receiveFile server opened info size slice ⟨packet, chain⟩ packets).Evaluates
      (packet.region :: held)
      (Http.receiveFile server opened info size bytes (chain.map Segment.bytes)
        (packets.map PacketBuffer.chunks)) held := by
  cases opened with
  | true => exact (evaluates_receiveBody size hbody hchain packets).bind (.done held _)
  | false => exact (evaluates_drop packet).bind (.done held _)

/-- Whatever the head says, the first packet is freed, and the effects are those on its bytes. -/
theorem evaluates_serve (server : Server) (opened : Bool)
    (hchunk : Covers (packet.region :: held) slice bytes)
    (hchain : ∀ segment ∈ chain, segment ∈ packet.chain) (packets : List PacketBuffer) :
    ∃ effects, (serve server opened slice ⟨packet, chain⟩ packets).Evaluates
        (packet.region :: held) effects held ∧
      .log "Handling TCP Connection".toList :: effects =
        Http.handleConn server opened
          ((bytes :: chain.map Segment.bytes) :: packets.map PacketBuffer.chunks) := by
  obtain ⟨parts, hsplit, hparts⟩ := evaluates_splitRequest hchunk
  have hdrop : packet.drop.Evaluates (packet.region :: held) () held := evaluates_drop packet
  refine hsplit.exists_bind ?_
  rw [Http.handleConn]
  generalize Http.splitRequest bytes = split at hparts
  cases hparts with
  | none => exact ⟨_, hdrop.bind (.done held _), rfl⟩
  | @some _ _ _ startText headerText _ hstart hheaders hbody =>
      refine hstart.exists_bind ?_
      simp only
      cases hmethod : checkStartLine startText with
      | error answer => exact ⟨_, hdrop.bind (.done held _), rfl⟩
      | ok method =>
          cases method with
          | get => exact ⟨_, hdrop.bind (.done held _), rfl⟩
          | put =>
              refine hheaders.exists_bind ?_
              simp only
              cases haccepted : (checkPutHeader server.uuid headerText).accepted? with
              | none => exact ⟨_, hdrop.bind (.done held _), rfl⟩
              | some size =>
                  have hfile := evaluates_receiveFile server opened
                    (checkPutHeader server.uuid headerText) size hbody hchain packets
                  exact ⟨_, hfile.bind (.done held _), rfl⟩

/-- On packets in memory, `handle_conn` is what it is on the bytes that arrived. -/
theorem evaluates_handleConn (server : Server) (opened : Bool) (stream : List PacketBuffer) :
    (handleConn server opened stream).Evaluates held
      (Http.handleConn server opened (stream.map PacketBuffer.chunks)) held := by
  cases stream with
  | nil => exact .done held _
  | cons packet packets =>
      have hdrop : packet.drop.Evaluates (packet.region :: held) () held := evaluates_drop packet
      refine (evaluates_received packet).bind ?_
      cases hchain : packet.chain with
      | nil =>
          simp only [PacketBuffer.intoIter, PacketBufferIterator.next, hchain, List.map_cons,
            PacketBuffer.chunks, List.map_nil]
          exact hdrop.bind (.done held _)
      | cons segment rest =>
          have hmem : ∀ other ∈ segment :: rest, other ∈ packet.chain :=
            fun _ hother ↦ hchain ▸ hother
          obtain ⟨effects, hserve, heffects⟩ := evaluates_serve server opened
            (covers_segment List.mem_cons_self (hmem segment List.mem_cons_self))
            (fun other hother ↦ hmem other (List.mem_cons_of_mem _ hother)) packets
          rw [List.map_cons, PacketBuffer.chunks, hchain, List.map_cons, ← heffects]
          simp only [PacketBuffer.intoIter, PacketBufferIterator.next, hchain]
          exact hserve.bind (.done held _)

end Derusting.Http.InPlace
