import Derusting.Http.Request
import Derusting.Ring.Tasks

/-!
# Handling a connection

`handle_conn` of `tasks/tcp.rs`.  A connection is the list of packets `receive` hands out before it
hands out `None`, each packet the list of its chunks.  `handleConn` computes the effects of serving
it, in order: what is logged and answered, the file-system calls, the ledger entry and the file
queued for distribution.  `World` is what these effects act on, where the outcomes of the
file-system calls are a parameter, since `handle_conn` looks at none of them but that of `fopen`.

Body bytes are consumed by three loops that share one countdown: over the rest of the first chunk,
over the rest of the first packet and over further packets.  `receiveBody_flatten` and
`receiveBody_complete` say what they amount to.
-/

namespace Derusting.Http

open Foundations.Bounded Foundations.Text

/-! ## Effects -/

/-- A packet, by the chunks of its pbuf chain. -/
abbrev Packet := List (List UInt8)

/-- What serving a connection does. -/
inductive Effect where
  | log (text : List Char)
  | respond (text : List Char)
  | fopen (path : List Char)
  | fwrite (bytes : List UInt8)
  | fclose
  | unlink (path : List Char)
  | rename (old new : List Char)
  | appendToLedger (guid : Uuid)
  | distribute (guid : Uuid)
deriving DecidableEq

/-- What `handle_conn` takes from its surroundings: how guids are written, the upload page, the next
result of `generate_uuid_v7` and the machine's address. -/
structure Server where
  uuid : UuidText
  indexHtml : List Char
  fresh : Uuid
  myAddr : Option Ipv4Addr

/-! ## Body bytes -/

/-- The part of a chunk that belongs to the body, and the countdown after it. -/
def takeChunk (contentLength : ℕ) (chunk : List UInt8) : List UInt8 × ℕ :=
  let toWrite := min contentLength chunk.length
  (chunk.take toWrite, contentLength - toWrite)

/-- The loop over a packet's chunks: the slices passed to `f.write`, the countdown after it, and
whether the loop ran to the end of the packet. -/
def chunkLoop : ℕ → Packet → List (List UInt8) × ℕ × Bool
  | contentLength, [] => ([], contentLength, true)
  | contentLength, chunk :: chunks =>
      let (slice, contentLength) := takeChunk contentLength chunk
      if contentLength = 0 then ([slice], 0, false)
      else
        let (slices, contentLength, ranOut) := chunkLoop contentLength chunks
        (slice :: slices, contentLength, ranOut)

/-- The loop over further packets: the slices passed to `f.write`, and whether the body was complete
before `receive` returned `None`. -/
def packetLoop : ℕ → List Packet → List (List UInt8) × Bool
  | 0, _ => ([], true)
  | _ + 1, [] => ([], false)
  | contentLength + 1, packet :: packets =>
      let (slices, contentLength, _) := chunkLoop (contentLength + 1) packet
      let (more, complete) := packetLoop contentLength packets
      (slices ++ more, complete)

/-- The three loops of the `PUT` branch. -/
def receiveBody (size : ℕ) (body : List UInt8) (chain : Packet) (packets : List Packet) :
    List (List UInt8) × Bool :=
  let (slice, contentLength) := takeChunk size body
  let (slices, contentLength, morePacketsNeeded) := chunkLoop contentLength chain
  if morePacketsNeeded then
    let (more, complete) := packetLoop contentLength packets
    (slice :: slices ++ more, complete)
  else (slice :: slices, true)

/-- `File::write`: an empty slice makes no call. -/
def fileWrite (slice : List UInt8) : List Effect := if slice.isEmpty then [] else [.fwrite slice]

/-! ## Serving a connection -/

/-- The effects after a complete body. -/
def finish (server : Server) (info : PutInfo) (guid : Uuid) : List Effect :=
  [.fclose, .rename (makePath server.uuid guid true) (makePath server.uuid guid false), .respond ok,
    .log "File Received".toList] ++
    -- a file that came without a guid is new to the network
    if info.guid.isNone then [.appendToLedger guid, .distribute guid] else []

/-- The `PUT` branch once the header has passed its checks. -/
def receiveFile (server : Server) (opened : Bool) (info : PutInfo) (size : ℕ) (body : List UInt8)
    (chain : Packet) (packets : List Packet) : List Effect :=
  let guid := info.guid.getD server.fresh
  let path := makePath server.uuid guid true
  let announce := if info.guid.isSome then [.log "Receiving file from machine".toList] else []
  announce ++ .fopen path ::
    if opened then
      let (slices, complete) := receiveBody size body chain packets
      slices.flatMap fileWrite ++
        if complete then finish server info guid else [.fclose, .unlink path]
    else [.respond internalServerError]

/-- `handle_conn` on the packets `receive` returns before `None`; `opened` is whether `fs::open`
succeeds. -/
def handleConn (server : Server) (opened : Bool) (stream : List Packet) : List Effect :=
  .log "Handling TCP Connection".toList ::
    match stream with
    | [] => []
    | [] :: _ => [.respond badRequest]
    | (chunk :: chain) :: packets =>
        match splitRequest chunk with
        | none => [.respond badRequest]
        | some (startLine, headers, body) =>
            match checkStartLine startLine with
            | .error text => [.respond text]
            | .ok .get => [.respond server.indexHtml]
            | .ok .put =>
                let info := checkPutHeader server.uuid headers
                .log "/ PUT request received".toList ::
                  match info.accepted? with
                  | none => [.respond badRequest]
                  | some size => receiveFile server opened info size body chain packets

/-! ## What the effects act on -/

/-- The machine with its USB stick, and what it has sent: alerts, answers and log lines. -/
structure World where
  files : Files
  machine : Machine
  alerts : List Payload
  responses : List (List Char)
  logs : List (List Char)

namespace World

/-- A connection is taken over with no file open. -/
def start (content : List Char → Option (List UInt8)) (machine : Machine) : World :=
  ⟨⟨content, none, 0⟩, machine, [], [], []⟩

def apply (server : Server) (outcomes : Outcomes) (world : World) : Effect → World
  | .log text => { world with logs := world.logs ++ [text] }
  | .respond text => { world with responses := world.responses ++ [text] }
  | .fopen path => { world with files := world.files.fopen outcomes path }
  | .fwrite bytes => { world with files := world.files.fwrite outcomes bytes }
  | .fclose => { world with files := world.files.fclose }
  | .unlink path => { world with files := world.files.unlink outcomes path }
  | .rename old new => { world with files := world.files.rename outcomes old new }
  | .appendToLedger guid =>
      let (machine, alert) := Derusting.appendToLedger server.myAddr guid world.machine
      { world with machine := machine, alerts := world.alerts ++ alert.toList }
  | .distribute guid =>
      match world.machine.filesToDistribute.trySend guid with
      | some queue => { world with machine := { world.machine with filesToDistribute := queue } }
      | none => { world with logs := world.logs ++ ["Error sending on channel".toList] }

/-- Carry out effects in order. -/
def run (server : Server) (outcomes : Outcomes) (world : World) (effects : List Effect) : World :=
  effects.foldl (apply server outcomes) world

end World

/-! ## What the loops amount to -/

/-- The chunk in which the body ends. -/
theorem chunkLoop_cons_of_le {contentLength : ℕ} {chunk : List UInt8} (chunks : Packet)
    (h : contentLength ≤ chunk.length) :
    chunkLoop contentLength (chunk :: chunks) = ([chunk.take contentLength], 0, false) := by
  simp [chunkLoop, takeChunk, h]

/-- A chunk that is all body, with more to come. -/
theorem chunkLoop_cons_of_lt {contentLength : ℕ} {chunk : List UInt8} (chunks : Packet)
    (h : chunk.length < contentLength) :
    chunkLoop contentLength (chunk :: chunks) =
      (chunk :: (chunkLoop (contentLength - chunk.length) chunks).1,
        (chunkLoop (contentLength - chunk.length) chunks).2) := by
  have hmore : ¬ contentLength - chunk.length = 0 := by omega
  simp [chunkLoop, takeChunk, Nat.min_eq_right h.le, hmore]

theorem chunkLoop_flatten (contentLength : ℕ) (chunks : Packet) :
    (chunkLoop contentLength chunks).1.flatten = chunks.flatten.take contentLength := by
  induction chunks generalizing contentLength with
  | nil => simp [chunkLoop]
  | cons chunk chunks ih =>
      rcases Nat.lt_or_ge chunk.length contentLength with hlt | hle
      · rw [chunkLoop_cons_of_lt chunks hlt, List.flatten_cons, ih, List.flatten_cons,
          List.take_append, List.take_of_length_le hlt.le]
      · rw [chunkLoop_cons_of_le chunks hle, List.flatten_singleton, List.flatten_cons,
          List.take_append_of_le_length hle]

theorem chunkLoop_rest (contentLength : ℕ) (chunks : Packet) :
    (chunkLoop contentLength chunks).2.1 = contentLength - chunks.flatten.length := by
  induction chunks generalizing contentLength with
  | nil => simp [chunkLoop]
  | cons chunk chunks ih =>
      rw [List.flatten_cons, List.length_append]
      rcases Nat.lt_or_ge chunk.length contentLength with hlt | hle
      · rw [chunkLoop_cons_of_lt chunks hlt, ih, Nat.sub_sub]
      · rw [chunkLoop_cons_of_le chunks hle]
        change 0 = _
        omega

/-- A loop that is left early has no bytes left to wait for. -/
theorem chunkLoop_left (contentLength : ℕ) (chunks : Packet)
    (h : (chunkLoop contentLength chunks).2.2 = false) :
    (chunkLoop contentLength chunks).2.1 = 0 := by
  induction chunks generalizing contentLength with
  | nil => cases h
  | cons chunk chunks ih =>
      rcases Nat.lt_or_ge chunk.length contentLength with hlt | hle
      · rw [chunkLoop_cons_of_lt chunks hlt] at h ⊢
        exact ih _ h
      · rw [chunkLoop_cons_of_le chunks hle]

theorem packetLoop_flatten (contentLength : ℕ) (packets : List Packet) :
    (packetLoop contentLength packets).1.flatten =
      packets.flatten.flatten.take contentLength := by
  induction packets generalizing contentLength with
  | nil => cases contentLength <;> simp [packetLoop]
  | cons packet packets ih =>
      cases contentLength with
      | zero => simp [packetLoop]
      | succ contentLength =>
          simp only [packetLoop, List.flatten_append, List.flatten_cons, List.take_append]
          rw [chunkLoop_flatten, ih, chunkLoop_rest]

theorem packetLoop_complete (contentLength : ℕ) (packets : List Packet) :
    (packetLoop contentLength packets).2 =
      decide (contentLength ≤ packets.flatten.flatten.length) := by
  induction packets generalizing contentLength with
  | nil => cases contentLength <;> simp [packetLoop]
  | cons packet packets ih =>
      cases contentLength with
      | zero => simp [packetLoop]
      | succ contentLength =>
          simp only [packetLoop, ih, chunkLoop_rest, List.flatten_cons, List.flatten_append,
            List.length_append, decide_eq_decide]
          omega

/-- All bytes of the body stream, however they are cut. -/
def bodyStream (body : List UInt8) (chain : Packet) (packets : List Packet) : List UInt8 :=
  body ++ (chain.flatten ++ packets.flatten.flatten)

theorem takeChunk_eq (contentLength : ℕ) (chunk : List UInt8) :
    takeChunk contentLength chunk = (chunk.take contentLength, contentLength - chunk.length) := by
  have hrest : contentLength - min contentLength chunk.length = contentLength - chunk.length := by
    omega
  rw [takeChunk, hrest]
  simp

/-- Together the slices are the first `size` bytes of the stream. -/
theorem receiveBody_flatten (size : ℕ) (body : List UInt8) (chain : Packet)
    (packets : List Packet) :
    (receiveBody size body chain packets).1.flatten =
      (bodyStream body chain packets).take size := by
  have hchain := chunkLoop_rest (size - body.length) chain
  cases hneeded : (chunkLoop (size - body.length) chain).2.2 with
  | true =>
      simp only [receiveBody, takeChunk_eq, hneeded, if_true, List.flatten_append,
        List.flatten_cons, bodyStream, List.take_append]
      rw [chunkLoop_flatten, packetLoop_flatten, hchain, List.append_assoc]
  | false =>
      have hdone := chunkLoop_left _ _ hneeded
      rw [hchain] at hdone
      simp only [receiveBody, takeChunk_eq, hneeded, Bool.false_eq_true, if_false,
        List.flatten_cons, bodyStream, List.take_append]
      rw [chunkLoop_flatten, hdone, List.take_zero, List.append_nil]

/-- The body is complete exactly if the stream has `size` bytes. -/
theorem receiveBody_complete (size : ℕ) (body : List UInt8) (chain : Packet)
    (packets : List Packet) :
    (receiveBody size body chain packets).2 =
      decide (size ≤ (bodyStream body chain packets).length) := by
  have hchain := chunkLoop_rest (size - body.length) chain
  cases hneeded : (chunkLoop (size - body.length) chain).2.2 with
  | true =>
      simp only [receiveBody, takeChunk_eq, hneeded, if_true, packetLoop_complete, hchain,
        bodyStream, List.length_append, decide_eq_decide]
      omega
  | false =>
      have hdone := chunkLoop_left _ _ hneeded
      rw [hchain] at hdone
      simp only [receiveBody, takeChunk_eq, hneeded, Bool.false_eq_true, if_false, bodyStream,
        List.length_append]
      symm
      rw [decide_eq_true_eq]
      omega

end Derusting.Http
