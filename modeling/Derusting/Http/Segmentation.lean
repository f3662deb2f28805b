import Derusting.Http.Stored

/-!
# Requests in pieces

TCP hands a request over in packets and lwIP each packet in chunks, cut wherever the network likes.
The body loops of `handle_conn` do not care: what they write is what one write of the whole body
would leave.  The head does: `split_request` sees the first chunk alone, so a request whose head does
not fit into it is answered with a 400.  `handled_same_iff` says for which cuts this shows.
-/

namespace Derusting.Http

open Foundations.Text

/-! ## Cuts -/

/-- A way to cut a byte stream into nonempty packets of nonempty chunks. -/
structure Cut (stream : List UInt8) where
  packets : List Packet
  packets_ne_nil : [] ∉ packets
  chunks_ne_nil : ∀ packet ∈ packets, [] ∉ packet
  flatten_flatten : packets.flatten.flatten = stream

/-- The length of the head: the start line with its line end and the header block with its blank
line. -/
def headLength (buf : List UInt8) : Option ℕ := do
  let startLine ← position crlf buf
  let headers ← position blankLine ((buf.drop startLine).drop 2)
  some (startLine + 2 + (headers + 4))

theorem headLength_eq_some {buf : List UInt8} {length : ℕ} :
    headLength buf = some length ↔ ∃ startLine, position crlf buf = some startLine ∧
      ∃ headers, position blankLine ((buf.drop startLine).drop 2) = some headers ∧
        startLine + 2 + (headers + 4) = length := by
  simp only [headLength, Option.bind_eq_bind, Option.bind_eq_some_iff, Option.some.injEq]

/-- Behind a line and its end the text goes on as it did. -/
theorem drop_drop_append {chunk : List UInt8} {line lineEnd : ℕ} (rest : List UInt8)
    (h : line + lineEnd ≤ chunk.length) :
    ((chunk ++ rest).drop line).drop lineEnd = (chunk.drop line).drop lineEnd ++ rest := by
  rw [List.drop_drop, List.drop_drop, List.drop_append_of_le_length h]

/-- A chunk holds the head exactly if the head of the stream is not longer. -/
theorem headLength_eq_some_iff (chunk rest : List UInt8) {length : ℕ} :
    headLength chunk = some length ↔
      headLength (chunk ++ rest) = some length ∧ length ≤ chunk.length := by
  have hcrlf : crlf ≠ [] := by decide
  have hblank : blankLine ≠ [] := by decide
  have htwo : crlf.length = 2 := rfl
  have hfour : blankLine.length = 4 := rfl
  rw [headLength_eq_some, headLength_eq_some]
  constructor
  · rintro ⟨startLine, hstart, headers, hheaders, rfl⟩
    obtain ⟨hstart, hline⟩ := (position_eq_some_iff rest hcrlf).mp hstart
    obtain ⟨hheaders, hblock⟩ := (position_eq_some_iff rest hblank).mp hheaders
    rw [htwo] at hline
    rw [← drop_drop_append rest hline] at hheaders
    rw [List.length_drop, List.length_drop] at hblock
    exact ⟨⟨startLine, hstart, headers, hheaders, rfl⟩, by omega⟩
  · rintro ⟨⟨startLine, hstart, headers, hheaders, rfl⟩, hlength⟩
    have hline : startLine + 2 ≤ chunk.length := by omega
    rw [drop_drop_append rest hline] at hheaders
    refine ⟨startLine, (position_eq_some_iff rest hcrlf).mpr ⟨hstart, hline⟩, headers, ?_, rfl⟩
    apply (position_eq_some_iff rest hblank).mpr
    refine ⟨hheaders, ?_⟩
    rw [List.length_drop, List.length_drop]
    omega

theorem splitRequest_of_headLength {buf : List UInt8} (h : headLength buf = none) :
    splitRequest buf = none := by
  cases hstart : position crlf buf with
  | none => simp [splitRequest, hstart]
  | some startLine =>
      cases hheaders : position blankLine ((buf.drop startLine).drop 2) with
      | none => simp only [splitRequest, hstart, hheaders, Option.bind_eq_bind, Option.bind_some,
          Option.bind_none]
      | some headers =>
          have hsome := headLength_eq_some.mpr ⟨startLine, hstart, headers, hheaders, rfl⟩
          rw [h] at hsome
          cases hsome

/-- What follows a chunk that holds the head belongs to the body. -/
theorem splitRequest_append {chunk : List UInt8} {length : ℕ} (h : headLength chunk = some length)
    (rest : List UInt8) :
    splitRequest (chunk ++ rest) =
      (splitRequest chunk).map fun (startLine, headers, body) ↦
        (startLine, headers, body ++ rest) := by
  obtain ⟨startLine, hstart, headers, hheaders, -⟩ := headLength_eq_some.mp h
  obtain ⟨hstart', hline⟩ := (position_eq_some_iff rest (by decide)).mp hstart
  obtain ⟨hheaders', hblock⟩ := (position_eq_some_iff rest (by decide)).mp hheaders
  have hline' : startLine + 2 ≤ chunk.length := hline
  have hblock' : headers + 4 ≤ ((chunk.drop startLine).drop 2).length := hblock
  have hfirst : (chunk ++ rest).take startLine = chunk.take startLine :=
    List.take_append_of_le_length (by omega)
  have hsecond : (((chunk.drop startLine).drop 2) ++ rest).take headers =
      ((chunk.drop startLine).drop 2).take headers :=
    List.take_append_of_le_length (by omega)
  simp only [splitRequest, hstart, hstart', Option.bind_eq_bind, Option.bind_some,
    drop_drop_append rest hline', hheaders, hheaders', hfirst, hsecond,
    drop_drop_append rest hblock']
  cases fromUtf8 (chunk.take startLine) with
  | none => rfl
  | some startText => cases fromUtf8 (((chunk.drop startLine).drop 2).take headers) <;> rfl

namespace Cut

variable {stream : List UInt8}

def firstChunk (cut : Cut stream) : List UInt8 := (cut.packets.head?.bind List.head?).getD []

/-- The first chunk holds the whole head. -/
def HeadFirst (cut : Cut stream) : Prop :=
  ∃ length ∈ headLength stream, length ≤ cut.firstChunk.length

instance (cut : Cut stream) : Decidable cut.HeadFirst :=
  inferInstanceAs (Decidable (∃ length ∈ headLength stream, _))

/-- There is a first chunk, unless there are no bytes at all. -/
theorem shape (cut : Cut stream) :
    cut.packets = [] ∧ stream = [] ∨ ∃ chunk chain packets,
      cut.packets = (chunk :: chain) :: packets ∧ cut.firstChunk = chunk ∧
        chunk ++ (chain.flatten ++ packets.flatten.flatten) = stream := by
  have hflatten := cut.flatten_flatten
  cases hpackets : cut.packets with
  | nil =>
      rw [hpackets] at hflatten
      exact .inl ⟨rfl, hflatten.symm⟩
  | cons packet packets =>
      cases packet with
      | nil => exact absurd (hpackets ▸ List.mem_cons_self) cut.packets_ne_nil
      | cons chunk chain =>
          refine .inr ⟨chunk, chain, packets, rfl, by simp [firstChunk, hpackets], ?_⟩
          rw [← hflatten, hpackets, List.flatten_cons, List.flatten_append, List.flatten_cons,
            List.append_assoc]

theorem packets_eq_nil (cut : Cut stream) (h : stream = []) : cut.packets = [] := by
  rcases cut.shape with ⟨hpackets, -⟩ | ⟨chunk, chain, packets, hpackets, -, hflatten⟩
  · exact hpackets
  · rw [h] at hflatten
    obtain ⟨rfl, -⟩ := List.append_eq_nil_iff.mp hflatten
    have hchunks := cut.chunks_ne_nil ([] :: chain) (hpackets ▸ List.mem_cons_self)
    exact absurd List.mem_cons_self hchunks

/-- A request that arrives at once. -/
def whole (stream : List UInt8) (h : stream ≠ []) : Cut stream where
  packets := [[stream]]
  packets_ne_nil := by simp
  chunks_ne_nil := by simpa using h
  flatten_flatten := by simp

/-- A request that arrives in two packets. -/
def inTwo (first second : List UInt8) (hfirst : first ≠ []) (hsecond : second ≠ []) :
    Cut (first ++ second) where
  packets := [[first], [second]]
  packets_ne_nil := by simp
  chunks_ne_nil := by simpa using ⟨hfirst, hsecond⟩
  flatten_flatten := by simp

end Cut

/-! ## Writing in pieces -/

namespace World

variable {server : Server} {outcomes : Outcomes} {left right : World}

/-- The world but for the count of `fwrite` calls. -/
def forgetWrites (world : World) : World := { world with files := { world.files with writes := 0 } }

/-- With a file system that writes all it is given, the count does not matter. -/
theorem forgetWrites_apply (hwrites : ∀ call, outcomes.missing call = 0) (world : World)
    (effect : Effect) :
    (world.apply server outcomes effect).forgetWrites =
      (world.forgetWrites.apply server outcomes effect).forgetWrites := by
  cases effect with
  | fopen path =>
      simp only [apply, forgetWrites, Files.fopen]
      split <;> rfl
  | fwrite bytes =>
      simp only [apply, forgetWrites, Files.fwrite, hwrites]
      split <;> rfl
  | unlink path =>
      simp only [apply, forgetWrites, Files.unlink]
      split <;> rfl
  | rename old new =>
      simp only [apply, forgetWrites, Files.rename]
      split <;> rfl
  | distribute guid =>
      simp only [apply, forgetWrites]
      split <;> rfl
  | log text => rfl
  | respond text => rfl
  | fclose => rfl
  | appendToLedger guid => rfl

theorem forgetWrites_run (hwrites : ∀ call, outcomes.missing call = 0) (effects : List Effect)
    (h : left.forgetWrites = right.forgetWrites) :
    (left.run server outcomes effects).forgetWrites =
      (right.run server outcomes effects).forgetWrites := by
  induction effects generalizing left right with
  | nil => exact h
  | cons effect effects ih =>
      apply ih
      rw [forgetWrites_apply hwrites left, h, ← forgetWrites_apply hwrites right]

/-- Two writes in a row are one. -/
theorem forgetWrites_fwrite (hwrites : ∀ call, outcomes.missing call = 0) (world : World)
    (first second : List UInt8) :
    ((world.apply server outcomes (.fwrite first)).apply server outcomes
        (.fwrite second)).forgetWrites =
      (world.apply server outcomes (.fwrite (first ++ second))).forgetWrites := by
  cases hhandle : world.files.handle with
  | none => simp [apply, Files.fwrite, hhandle, forgetWrites]
  | some path =>
      simp only [apply, Files.fwrite, hhandle, forgetWrites, hwrites, Nat.sub_zero,
        List.take_length, Function.update_self, Function.update_idem, Option.getD_some,
        List.append_assoc]

theorem run_fileWrite {bytes : List UInt8} (world : World) (h : bytes ≠ []) :
    world.run server outcomes (fileWrite bytes) = world.apply server outcomes (.fwrite bytes) := by
  rw [fileWrite, List.isEmpty_eq_false_iff.mpr h]
  rfl

/-- However the bytes are cut, writing the slices leaves what writing all at once does. -/
theorem forgetWrites_run_fileWrite (hwrites : ∀ call, outcomes.missing call = 0) (world : World)
    (slices : List (List UInt8)) :
    (world.run server outcomes (slices.flatMap fileWrite)).forgetWrites =
      (world.run server outcomes (fileWrite slices.flatten)).forgetWrites := by
  induction slices generalizing world with
  | nil => rfl
  | cons slice slices ih =>
      rw [List.flatMap_cons, run_append, ih, List.flatten_cons]
      by_cases hslice : slice = []
      · rw [hslice]
        rfl
      · by_cases hrest : slices.flatten = []
        · rw [hrest, List.append_nil]
          rfl
        · rw [run_fileWrite world hslice, run_fileWrite _ hrest,
            run_fileWrite world (List.append_ne_nil_of_left_ne_nil hslice _),
            forgetWrites_fwrite hwrites]

end World

/-! ## Serving a cut -/

/-- `INDEX_HTML` around the upload form. -/
def indexHtml (htmlStr : List Char) : List Char :=
  "HTTP/1.1 200 OK\r\nContent-Type: text/html\r\nContent-Length: ".toList ++
    Nat.toDigits 10 (asBytes htmlStr).length ++ "\r\nConnection: close\r\n\r\n".toList ++ htmlStr

/-- The request is answered with a 400 even if it arrives in one piece. -/
def Refused (server : Server) (stream : List UInt8) : Prop :=
  match splitRequest stream with
  | none => True
  | some (startLine, headers, _) =>
      match checkStartLine startLine with
      | .error text => text = badRequest
      | .ok .get => False
      | .ok .put => (checkPutHeader server.uuid headers).accepted? = none

/-- The same responses, the same files, the same ledger, distribution queue and alerts. -/
structure SameHandling (left right : World) : Prop where
  responses : left.responses = right.responses
  content : left.files.content = right.files.content
  machine : left.machine = right.machine
  alerts : left.alerts = right.alerts

namespace SameHandling

variable {left middle right : World}

theorem refl (world : World) : SameHandling world world := ⟨rfl, rfl, rfl, rfl⟩

theorem symm (h : SameHandling left right) : SameHandling right left :=
  ⟨h.responses.symm, h.content.symm, h.machine.symm, h.alerts.symm⟩

theorem comm : SameHandling left right ↔ SameHandling right left := ⟨symm, symm⟩

theorem trans (hfirst : SameHandling left middle) (hsecond : SameHandling middle right) :
    SameHandling left right :=
  ⟨hfirst.responses.trans hsecond.responses, hfirst.content.trans hsecond.content,
    hfirst.machine.trans hsecond.machine, hfirst.alerts.trans hsecond.alerts⟩

theorem of_forgetWrites (h : left.forgetWrites = right.forgetWrites) : SameHandling left right :=
  ⟨congrArg (fun world ↦ world.responses) h, congrArg (fun world ↦ world.files.content) h,
    congrArg (fun world ↦ world.machine) h, congrArg (fun world ↦ world.alerts) h⟩

end SameHandling

section Serving

variable (server : Server) (outcomes : Outcomes) (content : List Char → Option (List UInt8))
  (machine : Machine)

/-- What serving a connection leaves. -/
def handled (packets : List Packet) : World :=
  (World.start content machine).run server outcomes (handleConn server outcomes.opened packets)

/-- What a request that is answered with a 400 leaves: the answer. -/
def refusal : World := { World.start content machine with responses := [badRequest] }

variable {server outcomes content machine} {stream : List UInt8}

/-- An upload depends only on the bytes behind the head. -/
theorem forgetWrites_receiveFile (hwrites : ∀ call, outcomes.missing call = 0) (world : World)
    (info : PutInfo) (size : ℕ) {body body' : List UInt8} {chain chain' : Packet}
    {packets packets' : List Packet}
    (h : bodyStream body chain packets = bodyStream body' chain' packets') :
    (world.run server outcomes
        (receiveFile server outcomes.opened info size body chain packets)).forgetWrites =
      (world.run server outcomes
        (receiveFile server outcomes.opened info size body' chain' packets')).forgetWrites := by
  have hflatten : (receiveBody size body chain packets).1.flatten =
      (receiveBody size body' chain' packets').1.flatten := by
    rw [receiveBody_flatten, receiveBody_flatten, h]
  have hcomplete : (receiveBody size body chain packets).2 =
      (receiveBody size body' chain' packets').2 := by
    rw [receiveBody_complete, receiveBody_complete, h]
  have hrun (announce tail : List Effect) (opening : Effect) (slices : List (List UInt8)) :
      (world.run server outcomes
          (announce ++ opening :: (slices.flatMap fileWrite ++ tail))).forgetWrites =
        (world.run server outcomes
          (announce ++ opening :: (fileWrite slices.flatten ++ tail))).forgetWrites := by
    rw [List.append_cons, List.append_cons _ _ (fileWrite _ ++ _), World.run_append,
      World.run_append, World.run_append _ (fileWrite _ ++ _), World.run_append _ tail]
    exact World.forgetWrites_run hwrites tail (World.forgetWrites_run_fileWrite hwrites _ slices)
  cases hopened : outcomes.opened with
  | false => rfl
  | true =>
      simp only [receiveFile, if_true, hcomplete]
      rw [hrun, hrun, hflatten]

/-- A cut whose first chunk holds the head is as good as no cut. -/
theorem handled_of_headFirst (hwrites : ∀ call, outcomes.missing call = 0) (cut : Cut stream)
    (h : cut.HeadFirst) :
    (handled server outcomes content machine cut.packets).forgetWrites =
      (handled server outcomes content machine [[stream]]).forgetWrites := by
  obtain ⟨length, hlength, hle⟩ := h
  rcases cut.shape with ⟨-, rfl⟩ | ⟨chunk, chain, packets, hpackets, hfirst, hstream⟩
  · cases hlength
  · rw [hfirst] at hle
    rw [← hstream] at hlength
    have hchunk : headLength chunk = some length :=
      (headLength_eq_some_iff chunk _).mpr ⟨hlength, hle⟩
    have hwhole := splitRequest_append hchunk (chain.flatten ++ packets.flatten.flatten)
    rw [hstream] at hwhole
    cases hsplit : splitRequest chunk with
    | none => simp only [handled, hpackets, handleConn, hsplit, hwhole, Option.map_none]
    | some parts =>
        obtain ⟨startLine, headers, body⟩ := parts
        rw [hsplit, Option.map_some] at hwhole
        simp only [handled, hpackets, handleConn, hsplit, hwhole]
        cases checkStartLine startLine with
        | error text => rfl
        | ok method =>
            cases method with
            | get => rfl
            | put =>
                cases haccepted : (checkPutHeader server.uuid headers).accepted? with
                | none => rfl
                | some size =>
                    have hbytes : bodyStream body chain packets =
                        bodyStream (body ++ (chain.flatten ++ packets.flatten.flatten)) [] [] := by
                      simp [bodyStream]
                    exact forgetWrites_receiveFile hwrites _ _ size hbytes

/-- A request whose head does not fit into the first chunk is refused. -/
theorem handled_of_not_headFirst (cut : Cut stream) (h : ¬ cut.HeadFirst) (hstream : stream ≠ []) :
    SameHandling (handled server outcomes content machine cut.packets)
      (refusal content machine) := by
  rcases cut.shape with ⟨-, hnil⟩ | ⟨chunk, chain, packets, hpackets, hfirst, hflatten⟩
  · exact absurd hnil hstream
  · have hheadless : headLength chunk = none := by
      by_contra hsome
      obtain ⟨length, hlength⟩ := Option.ne_none_iff_exists'.mp hsome
      obtain ⟨hwhole, hle⟩ := (headLength_eq_some_iff chunk _).mp hlength
      rw [hflatten] at hwhole
      exact h ⟨length, hwhole, hfirst ▸ hle⟩
    rw [handled, hpackets]
    simp only [handleConn, splitRequest_of_headLength hheadless]
    exact ⟨rfl, rfl, rfl, rfl⟩

theorem handled_of_refused (h : Refused server stream) :
    SameHandling (handled server outcomes content machine [[stream]])
      (refusal content machine) := by
  unfold handled
  cases hsplit : splitRequest stream with
  | none =>
      simp only [handleConn, hsplit]
      exact ⟨rfl, rfl, rfl, rfl⟩
  | some parts =>
      obtain ⟨startLine, headers, body⟩ := parts
      cases hstart : checkStartLine startLine with
      | error text =>
          simp only [Refused, hsplit, hstart] at h
          simp only [handleConn, hsplit, hstart, h]
          exact ⟨rfl, rfl, rfl, rfl⟩
      | ok method =>
          cases method with
          | get => simp only [Refused, hsplit, hstart] at h
          | put =>
              simp only [Refused, hsplit, hstart] at h
              simp only [handleConn, hsplit, hstart, h]
              exact ⟨rfl, rfl, rfl, rfl⟩

/-- Once the header has passed its checks there is no 400. -/
theorem badRequest_notMem_receiveFile (opened : Bool) (info : PutInfo) (size : ℕ)
    (body : List UInt8) (chain : Packet) (packets : List Packet) :
    .respond badRequest ∉ receiveFile server opened info size body chain packets := by
  have hok : badRequest ≠ ok := by decide
  have herror : badRequest ≠ internalServerError := by decide
  intro hmem
  simp only [receiveFile, List.mem_append, List.mem_cons] at hmem
  rcases hmem with hannounce | hopen | hbody
  · split at hannounce <;> simp at hannounce
  · cases hopen
  · split at hbody
    · rcases List.mem_append.mp hbody with hwrite | hend
      · obtain ⟨slice, -, hslice⟩ := List.mem_flatMap.mp hwrite
        unfold fileWrite at hslice
        split at hslice <;> simp at hslice
      · split at hend
        · simp only [finish, List.mem_append, List.mem_cons, List.not_mem_nil, or_false,
            Effect.respond.injEq, reduceCtorEq, false_or] at hend
          rcases hend with hanswer | hnew
          · exact hok hanswer
          · split at hnew <;> simp at hnew
        · simp at hend
    · exact herror (Effect.respond.inj (List.mem_singleton.mp hbody))

theorem indexHtml_ne_badRequest (htmlStr : List Char) : indexHtml htmlStr ≠ badRequest := by
  intro hsame
  have hpage : (indexHtml htmlStr)[9]? = some '2' := rfl
  rw [hsame] at hpage
  exact absurd hpage (by decide)

/-- In one piece, only a request that is refused is answered with a 400. -/
theorem refused_of_responses {htmlStr : List Char} (hpage : server.indexHtml = indexHtml htmlStr)
    (h : (handled server outcomes content machine [[stream]]).responses = [badRequest]) :
    Refused server stream := by
  have hanswer : .respond badRequest ∈ handleConn server outcomes.opened [[stream]] := by
    have hmem : badRequest ∈ (handleConn server outcomes.opened [[stream]]).filterMap
        Effect.answer? := by
      rw [handled, World.responses_run, World.start, List.nil_append] at h
      exact h ▸ List.mem_singleton_self _
    obtain ⟨effect, heffect, hrespond⟩ := List.mem_filterMap.mp hmem
    cases effect with
    | respond text => exact Option.some.inj hrespond ▸ heffect
    | _ => cases hrespond
  cases hsplit : splitRequest stream with
  | none => simp only [Refused, hsplit]
  | some parts =>
      obtain ⟨startLine, headers, body⟩ := parts
      cases hstart : checkStartLine startLine with
      | error text =>
          simp only [handleConn, hsplit, hstart, List.mem_cons, reduceCtorEq, false_or,
            List.not_mem_nil, or_false, Effect.respond.injEq] at hanswer
          simp only [Refused, hsplit, hstart, hanswer]
      | ok method =>
          cases method with
          | get =>
              simp only [handleConn, hsplit, hstart, List.mem_cons, reduceCtorEq, false_or,
                List.not_mem_nil, or_false, Effect.respond.injEq] at hanswer
              exact absurd (hpage.symm.trans hanswer.symm) (indexHtml_ne_badRequest htmlStr)
          | put =>
              simp only [Refused, hsplit, hstart]
              cases haccepted : (checkPutHeader server.uuid headers).accepted? with
              | none => rfl
              | some size =>
                  simp only [handleConn, hsplit, hstart, haccepted, List.mem_cons, reduceCtorEq,
                    false_or] at hanswer
                  exact absurd hanswer (badRequest_notMem_receiveFile _ _ _ _ _ _)

/-- If the head fits into the first chunk of one cut only, the other one is refused. -/
theorem handled_same_of_differ {htmlStr : List Char}
    (hpage : server.indexHtml = indexHtml htmlStr) (hwrites : ∀ call, outcomes.missing call = 0)
    {first other : Cut stream} (hfirst : first.HeadFirst) (hother : ¬ other.HeadFirst) :
    SameHandling (handled server outcomes content machine first.packets)
        (handled server outcomes content machine other.packets) ↔
      Refused server stream := by
  have hstream : stream ≠ [] := by
    rintro rfl
    obtain ⟨length, hlength, -⟩ := hfirst
    cases hlength
  have hwhole : SameHandling (handled server outcomes content machine first.packets)
      (handled server outcomes content machine [[stream]]) :=
    .of_forgetWrites (handled_of_headFirst hwrites first hfirst)
  have hrefusal : SameHandling (handled server outcomes content machine other.packets)
      (refusal content machine) := handled_of_not_headFirst other hother hstream
  constructor
  · intro hsame
    apply refused_of_responses hpage
    calc
      (handled server outcomes content machine [[stream]]).responses =
          (handled server outcomes content machine first.packets).responses :=
        hwhole.responses.symm
      _ = (handled server outcomes content machine other.packets).responses := hsame.responses
      _ = [badRequest] := hrefusal.responses
  · intro hrefused
    exact hwhole.trans ((handled_of_refused hrefused).trans hrefusal.symm)

end Serving

/-- Two cuts of a request are handled in the same way exactly if its head fits into the first chunk
of both or of neither, or the request is refused anyhow. -/
theorem handled_same_iff (server : Server) (outcomes : Outcomes)
    (content : List Char → Option (List UInt8)) (machine : Machine) (htmlStr : List Char)
    (hpage : server.indexHtml = indexHtml htmlStr)
    (hwrites : ∀ call, outcomes.missing call = 0) {stream : List UInt8} (left right : Cut stream) :
    SameHandling (handled server outcomes content machine left.packets)
        (handled server outcomes content machine right.packets) ↔
      ((left.HeadFirst ↔ right.HeadFirst) ∨ Refused server stream) := by
  by_cases hleft : left.HeadFirst
  · by_cases hright : right.HeadFirst
    · refine iff_of_true ?_ (.inl (iff_of_true hleft hright))
      apply SameHandling.of_forgetWrites
      rw [handled_of_headFirst hwrites left hleft, handled_of_headFirst hwrites right hright]
    · rw [handled_same_of_differ hpage hwrites hleft hright]
      simp [hleft, hright]
  · by_cases hright : right.HeadFirst
    · rw [SameHandling.comm, handled_same_of_differ hpage hwrites hright hleft]
      simp [hleft, hright]
    · refine iff_of_true ?_ (.inl (iff_of_false hleft hright))
      by_cases hstream : stream = []
      · rw [left.packets_eq_nil hstream, right.packets_eq_nil hstream]
        exact .refl _
      · exact (handled_of_not_headFirst left hleft hstream).trans
          (handled_of_not_headFirst right hright hstream).symm

/-- A machine with an upload page. -/
def pageServer : Server :=
  { PutStream.plainServer with indexHtml := indexHtml "<html></html>".toList }

/-- The head of an upload of three bytes. -/
def uploadHead : List UInt8 :=
  asBytes "PUT / HTTP/1.1\r\nContent-Type: text/x.gcode\r\nContent-Length: 3\r\n\r\n".toList

/-- In one packet or cut behind the head, the upload is handled in the same way. -/
theorem handled_same_behind_head :
    SameHandling
      (handled pageServer .success (fun _ ↦ none) .boot
        (Cut.whole (uploadHead ++ asBytes "G28".toList) (by decide)).packets)
      (handled pageServer .success (fun _ ↦ none) .boot
        (Cut.inTwo uploadHead (asBytes "G28".toList) (by decide) (by decide)).packets) := by
  have hwhole : (Cut.whole (uploadHead ++ asBytes "G28".toList) (by decide)).HeadFirst := by
    decide +kernel
  have hinTwo : (Cut.inTwo uploadHead (asBytes "G28".toList) (by decide) (by decide)).HeadFirst := by
    decide +kernel
  exact (handled_same_iff pageServer .success (fun _ ↦ none) .boot "<html></html>".toList rfl
    (fun _ ↦ rfl) _ _).mpr (.inl (iff_of_true hwhole hinTwo))

/-- Cut inside the head, the same upload is answered with a 400 instead of being stored. -/
theorem handled_differs_inside_head :
    ¬ SameHandling
      (handled pageServer .success (fun _ ↦ none) .boot
        (Cut.whole (uploadHead.take 20 ++ (uploadHead.drop 20 ++ asBytes "G28".toList))
          (by decide)).packets)
      (handled pageServer .success (fun _ ↦ none) .boot
        (Cut.inTwo (uploadHead.take 20) (uploadHead.drop 20 ++ asBytes "G28".toList)
          (by decide) (by decide)).packets) := by
  intro hsame
  exact absurd hsame.responses (by decide +kernel)

end Derusting.Http
