import Magit.Client.Send
import Magit.Protocol.Answer
import Magit.Server.Parser
import Mathlib.Data.List.Flatten
import Mathlib.Data.List.Perm.Subperm

/-!
# Protocol/System — client and server joined by their byte streams

A `System` is one client process and one server process with the bytes each has written and how
many of them the other has read.  Requests are sent, bytes arrive in chunks of any size, and the
server's workers finish in any order.  `Matched` says what the exchange is for: the server receives
the requests in order, each response that has arrived completely called its own request's callback,
once and in order, and the callbacks left are those of the requests not answered
(`exchange_matched`).  It rests on `Sound`: every request's length is one that `magit-pack-message`
packs right.
-/

namespace Magit.Protocol

open Client Framing Git MsgpackObject Server

variable {κ δ ω : Type}

/-- The system, with a record of the payloads the server received and of the responses it sent. -/
structure System (κ ω : Type) where
  client : Connection κ (Outside κ ω)
  serverRead : ℕ := 0
  parser : Parser := .initial
  payloads : List (List UInt8) := []
  waiting : List GitRootReqT := []
  responses : List MagitResT := []
  serverWritten : List UInt8 := []
  clientRead : ℕ := 0

/-- A call of `magit-server-send-async`; bytes that arrive at the server; the `i`-th waiting job
that is worked on in a repository and then handed to `after_git_root`; bytes that arrive at the
client. -/
inductive Event (κ δ : Type)
  | send (msg : List (MsgpackObject × MsgpackObject)) (callback : κ)
  | toServer (n : ℕ)
  | finish (i : ℕ) (lg : Libgit2 δ) (status : ℤ)
  | toClient (n : ℕ)

/-- At most `n` elements of a list, after the first `k`. -/
def nextChunk {α : Type} (xs : List α) (k n : ℕ) : List α := (xs.drop k).take n

theorem take_add_length_nextChunk {α : Type} (xs : List α) (k n : ℕ) :
    xs.take (k + (nextChunk xs k n).length) = xs.take k ++ nextChunk xs k n := by
  rw [List.take_add, nextChunk, List.length_take, ← List.take_take, List.take_length]

theorem add_length_nextChunk_le {α : Type} {xs : List α} {k : ℕ} (h : k ≤ xs.length) (n : ℕ) :
    k + (nextChunk xs k n).length ≤ xs.length := by
  rw [nextChunk, List.length_take, List.length_drop]
  omega

/-- The packed map of a response. -/
def packedRes (M : Msgpack) (res : MagitResT) : List UInt8 :=
  M.sbuffer (msgpackHandlerBufCreate res)

/-- What a response puts on the stream. -/
def sentBytes (M : Msgpack) (res : MagitResT) : List UInt8 := msgpackHandlerSend (packedRes M res)

namespace System

/-- The requests sent so far. -/
def sent (s : System κ ω) : List (SentRequest κ) := s.client.session.world.sent

/-- The bytes passed to `process-send-string` so far. -/
def written (s : System κ ω) : List UInt8 := s.client.session.world.written

/-- The callbacks called so far, with their messages. -/
def calls (s : System κ ω) : List (κ × List (MsgpackObject × MsgpackObject)) :=
  s.client.session.world.calls

/-- The responses that have arrived completely. -/
def arrived (s : System κ ω) : List MagitResT := s.responses.take s.client.dispatched.length

/-- The bytes the client keeps. -/
def stored (gitRoot : Text) (s : System κ ω) : List UInt8 :=
  magitServerGetBuffer gitRoot s.client.buffers

/-- A process has just been started. -/
def initial (gitRoot : Text) (world : ω) : System κ ω where
  client := started gitRoot [] ⟨0, [], { world := world }⟩

variable [DecidableEq κ] (M : Msgpack)
variable (run : κ → List (MsgpackObject × MsgpackObject) → ω
  → ω × List (List (MsgpackObject × MsgpackObject) × κ))
variable (g : GitHandler δ) (gitRoot : Text)

/-- What an event does to the system. -/
def step (s : System κ ω) : Event κ δ → System κ ω
  | .send msg callback =>
    { s with client := { s.client with
        session := magitServerSendAsync M s.client.session msg callback } }
  | .toServer n =>
    let chunk := nextChunk s.written s.serverRead n
    match readStdin s.parser chunk.length chunk with
    | none => s
    | some r =>
      { s with
        serverRead := s.serverRead + chunk.length
        parser := r.parser
        payloads := s.payloads ++ r.recv
        waiting := s.waiting ++ r.recv.filterMap fun payload =>
          (msgpackHandlerRecv g (M.msgpackUnpackNext payload)).2 }
  | .finish i lg status =>
    match s.waiting[i]? with
    | none => s
    | some data =>
      let responses := afterGitRoot (gitRootWorker lg data) status
      { s with
        waiting := s.waiting.eraseIdx i
        responses := s.responses ++ responses
        serverWritten := s.serverWritten ++ responses.flatMap (sentBytes M) }
  | .toClient n =>
    let chunk := nextChunk s.serverWritten s.clientRead n
    { s with
      client := magitServerFilter (quietLisp M run) gitRoot s.client chunk
      clientRead := s.clientRead + chunk.length }

/-- A run from the start. -/
def runEvents (world : ω) (events : List (Event κ δ)) : System κ ω :=
  events.foldl (step M run g gitRoot) (initial gitRoot world)

end System

/-! ## What a run is for -/

/-- A call answers a request with a response: it is the request's callback, with the response's
message, which carries the request's id. -/
def Answers (sent : List (SentRequest κ)) (res : MagitResT)
    (call : κ × List (MsgpackObject × MsgpackObject)) : Prop :=
  ∃ r ∈ sent, res.id = UInt64.ofNat r.id ∧ call = (r.callback, resMsg res)
    ∧ assq 0 (resMsg res) = some (.positiveInteger (UInt64.ofNat r.id))

/-- Requests and responses are matched. -/
structure Matched (M : Msgpack) (gitRoot : Text) (s : System κ ω) : Prop where
  /-- The server has received the requests sent, in order, up to some point. -/
  received : s.payloads <+: s.sent.map (SentRequest.payload M)
  /-- …and all of them once all bytes have arrived. -/
  all_received : s.serverRead = s.written.length → s.payloads = s.sent.map (SentRequest.payload M)
  /-- SentRequest ids are distinct. -/
  ids : (s.sent.map SentRequest.id).Nodup
  /-- No two responses have the same id. -/
  responses : (s.responses.map MagitResT.id).Nodup
  /-- What has arrived at the client is complete responses, which have been dispatched, and the
  bytes it keeps, in which no response is complete. -/
  bytes : s.serverWritten.take s.clientRead = s.arrived.flatMap (sentBytes M) ++ s.stored gitRoot
  dispatched : s.client.dispatched = s.arrived.map (packedRes M)
  incomplete : responseFrames.next (s.stored gitRoot) = none
  /-- Once all bytes have arrived, so have all responses. -/
  all_arrived : s.clientRead = s.serverWritten.length
    → s.arrived = s.responses ∧ s.stored gitRoot = []
  /-- The calls are one for each response that has arrived, in that order, each of the callback of
  the request that is answered. -/
  calls : List.Forall₂ (Answers s.sent) s.arrived s.calls
  /-- The callbacks pending are those of the other requests. -/
  pending : s.client.session.pendingCallbacks
    = outstanding s.sent (s.arrived.map fun res => res.id.toNat)

/-- What is assumed of a run: payloads that a message may have, ids that an `int` holds, and that
each end reads what the other end encoded. -/
structure Assumed (M : Msgpack) (s : System κ ω) : Prop where
  payload : ∀ r ∈ s.sent, 1 ≤ (r.payload M).length ∧ (r.payload M).length ≤ maxMessageSize
  id : ∀ r ∈ s.sent, r.id < 2 ^ 31
  unpack : ∀ r ∈ s.sent, M.msgpackUnpackNext (r.payload M) = some (.map r.msgWithId)
  read : ∀ res ∈ s.responses,
    M.msgpackReadFromString (packedRes M res) = some (.map (resMsg res))

/-- The condition on the requests and responses of a run: no length byte of a request is 128 or
more, the id that is read from a message is the one it was given, and the length of every response
fits its prefix. -/
structure Sound (M : Msgpack) (s : System κ ω) : Prop where
  length : ∀ r ∈ s.sent, SevenBitLength (r.payload M).length
  msg : ∀ r ∈ s.sent, ∀ id, requestId r.msgWithId = some (.positiveInteger id) →
    id = UInt64.ofNat r.id
  response : ∀ res ∈ s.responses, (packedRes M res).length < 2 ^ 32

/-! ## The server's side -/

/-- The parser after the bytes `xs`, having handed on `payloads`: it keeps what follows the frames,
or it stands at a length after which there is no frame whatever comes. -/
structure ParserAt (p : Parser) (xs : List UInt8) (payloads : List (List UInt8)) : Prop where
  recv : payloads = reference.frames xs
  kept : p.Live ∧ p.kept = reference.rest xs
    ∨ p.Rejected ∧ ∀ ys, reference.next (reference.rest xs ++ ys) = none

theorem parserAt_initial : ParserAt .initial [] [] :=
  ⟨(FrameReader.frames_of_none (R := reference) rfl).symm, .inl ⟨.inl Parser.waiting_initial,
    (FrameReader.rest_of_none (R := reference) rfl).symm⟩⟩

/-- **A chunk takes the parser on to the bytes up to its end.** -/
theorem ParserAt.consume {p : Parser} {xs : List UInt8} {payloads : List (List UInt8)}
    (h : ParserAt p xs payloads) (chunk : List UInt8) :
    ∃ r, consumeBytes p chunk = some r
      ∧ ParserAt r.parser (xs ++ chunk) (payloads ++ r.recv) := by
  rcases h.kept with ⟨hlive, hkept⟩ | ⟨hrej, hnone⟩
  · obtain ⟨r, hr, htracks⟩ := consumeBytes_live p hlive chunk
    rw [hkept] at htracks
    refine ⟨r, hr, ?_, ?_⟩
    · rw [reference.frames_append, h.recv, htracks.recv]
    · rw [reference.rest_append]
      rcases htracks.kept with ⟨-, hlive', hkept'⟩ | ⟨-, hrej, lost, hlost⟩
      · exact .inl ⟨hlive', hkept'⟩
      · refine .inr ⟨hrej, fun ys => ?_⟩
        rw [hlost, List.append_assoc]
        exact hrej.next_kept _
  · obtain ⟨r, hr, hrecv, hrej'⟩ := consumeBytes_rejected hrej chunk
    have hrest : reference.rest (reference.rest xs ++ chunk) = reference.rest xs ++ chunk :=
      FrameReader.rest_of_none (hnone chunk)
    refine ⟨r, hr, ?_, .inr ⟨hrej', fun ys => ?_⟩⟩
    · rw [reference.frames_append, FrameReader.frames_of_none (hnone chunk), h.recv, hrecv]
    · rw [reference.rest_append, hrest, List.append_assoc]
      exact hnone _

/-- …and so does reading it. -/
theorem ParserAt.readStdin {p : Parser} {xs : List UInt8} {payloads : List (List UInt8)}
    (h : ParserAt p xs payloads) (chunk : List UInt8) :
    ∃ r, Server.readStdin p chunk.length chunk = some r
      ∧ ParserAt r.parser (xs ++ chunk) (payloads ++ r.recv) := by
  rw [Server.readStdin, if_neg (not_lt.mpr (Int.natCast_nonneg _))]
  split_ifs with hempty
  · obtain rfl := List.length_eq_zero_iff.mp (Int.natCast_eq_zero.mp hempty)
    rw [List.append_nil]
    exact ⟨_, rfl, by rw [List.append_nil]; exact h⟩
  · rw [Int.toNat_natCast, List.take_length]
    exact h.consume chunk

variable {M : Msgpack} {g : GitHandler δ} {s : System κ ω}

/-- What a request that was read right waits with. -/
theorem id_of_queued {r : SentRequest κ}
    (hread : M.msgpackUnpackNext (r.payload M) = some (.map r.msgWithId))
    (hmsg : ∀ id, requestId r.msgWithId = some (.positiveInteger id) → id = UInt64.ofNat r.id)
    {data : GitRootReqT}
    (h : (msgpackHandlerRecv g (M.msgpackUnpackNext (r.payload M))).2 = some data) :
    data.id = UInt64.ofNat r.id := by
  obtain ⟨entries, hentries, hid, -, -⟩ := queued_data h
  rw [hread, Option.some.injEq, MsgpackObject.map.injEq] at hentries
  rw [← hentries] at hid
  exact hmsg data.id hid

/-- The ids of the jobs that requests queue are ids of these requests, in order. -/
theorem ids_of_queued_sublist (rs : List (SentRequest κ))
    (hread : ∀ r ∈ rs, M.msgpackUnpackNext (r.payload M) = some (.map r.msgWithId))
    (hmsg : ∀ r ∈ rs, ∀ id, requestId r.msgWithId = some (.positiveInteger id) →
      id = UInt64.ofNat r.id) :
    (((rs.map (SentRequest.payload M)).filterMap fun payload =>
        (msgpackHandlerRecv g (M.msgpackUnpackNext payload)).2).map GitRootReqT.id).Sublist
      (rs.map fun r => UInt64.ofNat r.id) := by
  induction rs with
  | nil => exact List.Sublist.refl _
  | cons r rs ih =>
    have hrest := ih (fun r' h => hread r' (List.mem_cons_of_mem _ h)) fun r' h =>
      hmsg r' (List.mem_cons_of_mem _ h)
    rw [List.map_cons, List.map_cons, List.filterMap_cons]
    split
    · exact hrest.cons _
    · next data hdata =>
      rw [List.map_cons, id_of_queued (hread r List.mem_cons_self) (hmsg r List.mem_cons_self)
        hdata]
      exact hrest.cons_cons _

/-! ## The client's side -/

section

variable [DecidableEq κ]
variable {run : κ → List (MsgpackObject × MsgpackObject) → ω
  → ω × List (List (MsgpackObject × MsgpackObject) × κ)}

theorem assq_resMsg {res : MagitResT} (h : res.id.toNat < 2 ^ 31) :
    assq 0 (resMsg res) = some (.positiveInteger res.id) :=
  (assq_entries .id (resEntries res)).trans (congrArg some ((WireItem.ofInt_toCInt_eq_iff _).mpr h))

theorem toNat_ofNat_id {id : ℕ} (h : id < 2 ^ 31) : (UInt64.ofNat id).toNat = id := by
  rw [UInt64.toNat_ofNat']
  omega

omit [DecidableEq κ] in
/-- An answer to a request stays one when more requests are sent. -/
theorem Answers.mono {sent sent' : List (SentRequest κ)} (h : sent <+: sent') {res : MagitResT}
    {call : κ × List (MsgpackObject × MsgpackObject)} (ha : Answers sent res call) :
    Answers sent' res call := by
  obtain ⟨r, hr, hrest⟩ := ha
  exact ⟨r, h.subset hr, hrest⟩

variable (run) in
/-- **Responses to distinct unanswered requests are all dispatched**, each to the callback of its
own request. -/
theorem handle_responses {session : Session κ (Outside κ ω)} {answered : List ℕ}
    (h : Tracks M session answered) {rs : List MagitResT}
    (hread : ∀ res ∈ rs, M.msgpackReadFromString (packedRes M res) = some (.map (resMsg res)))
    (hsent : ∀ res ∈ rs, ∃ r ∈ session.world.sent, res.id = UInt64.ofNat r.id ∧ r.id < 2 ^ 31)
    (hnodup : (answered ++ rs.map fun res => res.id.toNat).Nodup) :
    let hd := handle (dispatch (quietLisp M run)) session (rs.map (packedRes M))
    hd.failed = false ∧ Tracks M hd.state (answered ++ rs.map fun res => res.id.toNat)
      ∧ session.world.sent <+: hd.state.world.sent
      ∧ ∃ calls, hd.state.world.calls = session.world.calls ++ calls
        ∧ List.Forall₂ (Answers hd.state.world.sent) rs calls := by
  induction rs generalizing session answered with
  | nil =>
    refine ⟨rfl, ?_, List.prefix_rfl, [], (List.append_nil _).symm, .nil⟩
    exact h.congr fun id => by rw [List.map_nil, List.append_nil]
  | cons res rs ih =>
    obtain ⟨r, hr, hid, hlt⟩ := hsent res List.mem_cons_self
    have hnat : res.id.toNat = r.id := by rw [hid, toNat_ofNat_id hlt]
    have hsplit : (answered ++ (res :: rs).map fun res => res.id.toNat)
        = answered ++ [r.id] ++ rs.map fun res => res.id.toNat := by
      rw [List.map_cons, hnat, List.append_assoc, List.singleton_append]
    rw [hsplit] at hnodup ⊢
    have hopen : r.id ∉ answered := fun hmem =>
      (List.nodup_append.mp (List.nodup_append.mp hnodup).1).2.2 _ hmem _
        (List.mem_singleton_self _) rfl
    have hassq : assq 0 (resMsg res) = some (.positiveInteger res.id) :=
      assq_resMsg (by rw [hnat]; exact hlt)
    obtain ⟨s₁, hdispatch, htracks, hfront, hcalls⟩ := h.dispatch run hr hopen
      (hread res List.mem_cons_self) hassq fun k => by
        rw [MsgpackObject.isNat_positiveInteger, beq_iff_eq, hnat, eq_comm]
    obtain ⟨hfailed, htracks', hfront', calls, hcalls', hanswers⟩ := ih htracks
      (fun res' h' => hread res' (List.mem_cons_of_mem _ h'))
      (fun res' h' => by
        obtain ⟨r', hr', hrest⟩ := hsent res' (List.mem_cons_of_mem _ h')
        exact ⟨r', hfront.subset hr', hrest⟩)
      hnodup
    have hhandle : handle (dispatch (quietLisp M run)) session ((res :: rs).map (packedRes M))
        = ⟨packedRes M res
            :: (handle (dispatch (quietLisp M run)) s₁ (rs.map (packedRes M))).handed,
          (handle (dispatch (quietLisp M run)) s₁ (rs.map (packedRes M))).state,
          (handle (dispatch (quietLisp M run)) s₁ (rs.map (packedRes M))).failed⟩ := by
      rw [List.map_cons, handle, hdispatch, if_neg Bool.false_ne_true]
    intro hd
    have hhd : hd = _ := hhandle
    rw [hhd]
    refine ⟨hfailed, ?_, hfront.trans hfront', (r.callback, resMsg res) :: calls, ?_, ?_⟩
    · exact htracks'
    · rw [hcalls', hcalls, List.append_assoc, List.singleton_append]
    · exact .cons ⟨r, (hfront.trans hfront').subset hr, hid, rfl, by rw [hassq, hid]⟩ hanswers

end

/-! ## The invariant -/

/-- Between two events, as far as nothing has gone wrong: the parser has read what arrived, each
response sent and each job waiting belongs to a different request received, and the client has
dispatched the complete responses that arrived. -/
structure Inv (M : Msgpack) (gitRoot : Text) (s : System κ ω) : Prop where
  server_read : s.serverRead ≤ s.written.length
  parser : ParserAt s.parser (s.written.take s.serverRead) s.payloads
  jobs : (s.responses.map MagitResT.id ++ s.waiting.map GitRootReqT.id).Subperm
    ((s.sent.take s.payloads.length).map fun r => UInt64.ofNat r.id)
  wrote : s.serverWritten = s.responses.flatMap (sentBytes M)
  client_read : s.clientRead ≤ s.serverWritten.length
  place : KeepsPlace gitRoot s.client (s.serverWritten.take s.clientRead)
  session : Tracks M s.client.session (s.arrived.map fun res => res.id.toNat)
  calls : List.Forall₂ (Answers s.sent) s.arrived s.calls

/-- At the start nothing is under way. -/
theorem Inv.initial (M : Msgpack) (gitRoot : Text) (world : ω) :
    Inv (κ := κ) M gitRoot (System.initial gitRoot world) where
  server_read := Nat.zero_le _
  parser := parserAt_initial
  jobs := List.nil_subperm
  wrote := rfl
  client_read := Nat.zero_le _
  place := keepsPlace_started gitRoot [] _
  session := ⟨rfl, rfl, rfl, fun _ h => absurd h (by simp [System.arrived, System.initial])⟩
  calls := .nil

variable {gitRoot : Text}

/-- **What a run has written is the encoding of its requests**, if their lengths are packed
right. -/
theorem Inv.written_eq (h : Inv M gitRoot s) (hs : Sound M s) :
    s.written = (s.sent.map (SentRequest.payload M)).flatMap encode := by
  rw [List.flatMap_map]
  refine h.session.written.trans (List.flatMap_congr fun r hr => ?_)
  exact (magitPackMessage_eq_encode_iff _).mpr (hs.length r hr)

/-- Every request is of a length that the server takes. -/
theorem Assumed.validLength (ha : Assumed M s) {b : List UInt8}
    (hb : b ∈ s.sent.map (SentRequest.payload M)) :
    b.length < 2 ^ 32 ∧ validLength b.length := by
  obtain ⟨r, hr, rfl⟩ := List.mem_map.mp hb
  obtain ⟨hpos, hle⟩ := ha.payload r hr
  refine ⟨?_, validLength_iff.mpr ⟨hpos, hle⟩⟩
  rw [maxMessageSize] at hle
  omega

/-- What was written to the server is the frames of the requests. -/
theorem Inv.frames_written (h : Inv M gitRoot s) (ha : Assumed M s) (hs : Sound M s) :
    reference.frames s.written = s.sent.map (SentRequest.payload M) := by
  have hframes := frames_encode_append Server.validLength (fun b hb => ha.validLength hb) []
  rw [List.append_nil, ← h.written_eq hs] at hframes
  refine hframes.trans ?_
  rw [FrameReader.frames_of_none rfl, List.append_nil]

/-- **The server has received a prefix of the requests**, and all of them once all bytes are
there. -/
theorem Inv.received (h : Inv M gitRoot s) (ha : Assumed M s) (hs : Sound M s) :
    s.payloads <+: s.sent.map (SentRequest.payload M) := by
  rw [h.parser.recv, ← h.frames_written ha hs]
  exact reference.frames_prefix (List.take_prefix _ _)

theorem Inv.all_received (h : Inv M gitRoot s) (ha : Assumed M s) (hs : Sound M s)
    (hall : s.serverRead = s.written.length) :
    s.payloads = s.sent.map (SentRequest.payload M) := by
  rw [h.parser.recv, ← h.frames_written ha hs, hall, List.take_length]

theorem Inv.payloads_length_le (h : Inv M gitRoot s) (ha : Assumed M s) (hs : Sound M s) :
    s.payloads.length ≤ s.sent.length := by
  simpa using (h.received ha hs).length_le

/-- What was written to the client is the frames of the responses. -/
theorem Inv.frames_serverWritten (h : Inv M gitRoot s) (hs : Sound M s) :
    responseFrames.frames s.serverWritten = s.responses.map (packedRes M)
      ∧ responseFrames.rest s.serverWritten = [] := by
  have hencode : s.serverWritten = (s.responses.map (packedRes M)).flatMap encode ++ [] := by
    rw [h.wrote, List.append_nil, List.flatMap_map]
    exact List.flatMap_congr fun res _ => msgpackHandlerSend_eq_encode _
  have hok : ∀ b ∈ s.responses.map (packedRes M), b.length < 2 ^ 32 ∧ (fun _ => true) b.length := by
    intro b hb
    obtain ⟨res, hres, rfl⟩ := List.mem_map.mp hb
    exact ⟨hs.response res hres, rfl⟩
  have hnone : responseFrames.next [] = none := rfl
  rw [hencode]
  constructor
  · rw [frames_encode_append _ hok, FrameReader.frames_of_none hnone, List.append_nil]
  · rw [rest_encode_append _ hok, FrameReader.rest_of_none hnone]

/-- What the client has dispatched are the responses that have arrived. -/
theorem Inv.dispatched (h : Inv M gitRoot s) (hs : Sound M s) :
    s.client.dispatched = s.arrived.map (packedRes M) := by
  have hfront : s.client.dispatched <+: s.responses.map (packedRes M) := by
    rw [h.place.1, ← (h.frames_serverWritten hs).1]
    exact responseFrames.frames_prefix (List.take_prefix _ _)
  rw [System.arrived, List.map_take]
  exact List.prefix_iff_eq_take.mp hfront

/-- The requests that the responses and jobs belong to are different ones. -/
theorem Inv.jobs_nodup (h : Inv M gitRoot s) (ha : Assumed M s) :
    (s.responses.map MagitResT.id ++ s.waiting.map GitRootReqT.id).Nodup := by
  obtain ⟨l, hperm, hsub⟩ := h.jobs
  refine hperm.nodup_iff.mp (hsub.nodup ?_)
  have hnodup : ((s.sent.map SentRequest.id).take s.payloads.length).Nodup :=
    h.session.nodup.sublist (List.take_sublist _ _)
  rw [← List.map_take] at hnodup
  have hinj : ((s.sent.take s.payloads.length).map fun r => UInt64.ofNat r.id)
      = ((s.sent.take s.payloads.length).map SentRequest.id).map UInt64.ofNat := by
    rw [List.map_map]; rfl
  rw [hinj]
  refine hnodup.map_on fun a hmem b hmem' hab => ?_
  have hlt : ∀ id ∈ (s.sent.take s.payloads.length).map SentRequest.id, id < 2 ^ 31 := by
    intro id hid
    obtain ⟨r, hr, rfl⟩ := List.mem_map.mp hid
    exact ha.id r (List.mem_of_mem_take hr)
  rw [← toNat_ofNat_id (hlt a hmem), hab, toNat_ofNat_id (hlt b hmem')]

/-- A response sent answers a request. -/
theorem Inv.exists_request (h : Inv M gitRoot s) (ha : Assumed M s) {res : MagitResT}
    (hres : res ∈ s.responses) :
    ∃ r ∈ s.sent, res.id = UInt64.ofNat r.id ∧ r.id < 2 ^ 31 := by
  have hmem := h.jobs.subset (List.mem_append_left _ (List.mem_map_of_mem hres))
  obtain ⟨r, hr, hid⟩ := List.mem_map.mp hmem
  have hsent := List.mem_of_mem_take hr
  exact ⟨r, hsent, hid.symm, ha.id r hsent⟩

/-! ## One event keeps the invariant -/

/-- A later system has at least the requests and the responses of an earlier one. -/
structure Grows (s s' : System κ ω) : Prop where
  sent : s.sent <+: s'.sent
  responses : s.responses <+: s'.responses

variable {s' : System κ ω}

/-- What is assumed later on was assumed before. -/
theorem Assumed.of_grows (hg : Grows s s') (ha : Assumed M s') : Assumed M s where
  payload r hr := ha.payload r (hg.sent.subset hr)
  id r hr := ha.id r (hg.sent.subset hr)
  unpack r hr := ha.unpack r (hg.sent.subset hr)
  read res hres := ha.read res (hg.responses.subset hres)

theorem Sound.of_grows (hg : Grows s s') (hs : Sound M s') : Sound M s where
  length r hr := hs.length r (hg.sent.subset hr)
  msg r hr := hs.msg r (hg.sent.subset hr)
  response res hres := hs.response res (hg.responses.subset hres)

theorem take_of_le_front {α : Type} {xs ys : List α} (h : xs <+: ys) {n : ℕ}
    (hn : n ≤ xs.length) : ys.take n = xs.take n := by
  obtain ⟨zs, rfl⟩ := h
  exact List.take_append_of_le_length hn

/-- More requests do not touch what the server has read. -/
theorem Inv.server_of_sent (h : Inv M gitRoot s) (ha : Assumed M s) (hs : Sound M s)
    {c : Connection κ (Outside κ ω)} (hsent : s.sent <+: c.session.world.sent)
    (hwritten : s.written <+: c.session.world.written) :
    s.serverRead ≤ c.session.world.written.length
      ∧ ParserAt s.parser (c.session.world.written.take s.serverRead) s.payloads
      ∧ (s.responses.map MagitResT.id ++ s.waiting.map GitRootReqT.id).Subperm
        ((c.session.world.sent.take s.payloads.length).map fun r => UInt64.ofNat r.id) := by
  refine ⟨h.server_read.trans hwritten.length_le, ?_, ?_⟩
  · rw [take_of_le_front hwritten h.server_read]
    exact h.parser
  · rw [take_of_le_front hsent (h.payloads_length_le ha hs)]
    exact h.jobs

/-- What follows `xs` at the front of a mapped list. -/
theorem eq_map_of_front {α β : Type} {f : α → β} {xs ys : List β} {zs : List α}
    (h : xs ++ ys <+: zs.map f) : ys = ((zs.drop xs.length).take ys.length).map f := by
  obtain ⟨ws, hws⟩ := h
  rw [List.map_take, List.map_drop, ← hws, List.append_assoc, List.drop_left, List.take_left]

/-- The payloads a chunk hands on are those of the requests that come next. -/
theorem Inv.recv_eq (h : Inv M gitRoot s) (ha : Assumed M s) (hs : Sound M s) {p : Parser} {n : ℕ}
    {recv : List (List UInt8)} (hparser : ParserAt p (s.written.take n) (s.payloads ++ recv)) :
    recv = ((s.sent.drop s.payloads.length).take recv.length).map (SentRequest.payload M) := by
  have hfront : s.payloads ++ recv <+: s.sent.map (SentRequest.payload M) := by
    rw [hparser.recv, ← h.frames_written ha hs]
    exact reference.frames_prefix (List.take_prefix _ _)
  exact eq_map_of_front hfront

/-- No more responses are dispatched than were written. -/
theorem Inv.dispatched_length_le (h : Inv M gitRoot s) (hs : Sound M s) :
    s.client.dispatched.length ≤ s.responses.length := by
  have hlen := congrArg List.length (h.dispatched hs)
  rw [List.length_map, System.arrived, List.length_take] at hlen
  omega

/-- What a finished job sends has the job's id. -/
theorem ids_afterGitRoot_sublist (lg : Libgit2 δ) (data : GitRootReqT) (status : ℤ) :
    ((afterGitRoot (gitRootWorker lg data) status).map MagitResT.id).Sublist [data.id] := by
  rw [afterGitRoot]
  split_ifs
  · exact List.nil_sublist _
  · exact List.nil_sublist _
  · rw [← id_gitRootWorker lg data]
    exact List.Sublist.refl _

/-- What was written to the server is only added to. -/
theorem Tracks.written_prefix {session session' : Session κ (Outside κ ω)}
    {answered answered' : List ℕ} (h : Tracks M session answered)
    (h' : Tracks M session' answered') (hsent : session.world.sent <+: session'.world.sent) :
    session.world.written <+: session'.world.written := by
  obtain ⟨rs, hrs⟩ := hsent
  rw [h.written, h'.written, ← hrs, List.flatMap_append]
  exact List.prefix_append _ _

section

variable [DecidableEq κ]
variable {run : κ → List (MsgpackObject × MsgpackObject) → ω
  → ω × List (List (MsgpackObject × MsgpackObject) × κ)}

/-- What was sent is only added to. -/
theorem sent_prefix_handle (session : Session κ (Outside κ ω)) (payloads : List (List UInt8)) :
    session.world.sent
      <+: (handle (dispatch (quietLisp M run)) session payloads).state.world.sent := by
  induction payloads generalizing session with
  | nil => exact List.prefix_rfl
  | cons payload payloads ih =>
    have hfirst := sent_prefix_dispatch run session (M := M) payload
    rw [handle]
    split
    · exact hfirst
    · exact hfirst.trans (ih _)

/-- What a filter call leaves of the session is what dispatching the complete responses leaves. -/
theorem session_magitServerFilter (c : Connection κ (Outside κ ω)) (chunk : List UInt8) :
    (magitServerFilter (quietLisp M run) gitRoot c chunk).session
      = (handle (dispatch (quietLisp M run)) c.session
        (responseFrames.frames (magitServerGetBuffer gitRoot c.buffers ++ chunk))).state :=
  congrArg Consumer.state (toConsumer_magitServerFilter (quietLisp M run) gitRoot c chunk)

/-- **No event takes back a request or a response.** -/
theorem grows_step (s : System κ ω) (e : Event κ δ) : Grows s (s.step M run g gitRoot e) := by
  cases e with
  | send msg callback => exact ⟨List.prefix_append _ _, List.prefix_rfl⟩
  | toServer n =>
    rw [System.step]
    split <;> exact ⟨List.prefix_rfl, List.prefix_rfl⟩
  | finish i lg status =>
    rw [System.step]
    split
    · exact ⟨List.prefix_rfl, List.prefix_rfl⟩
    · exact ⟨List.prefix_rfl, List.prefix_append _ _⟩
  | toClient n =>
    refine ⟨?_, List.prefix_rfl⟩
    rw [System.sent, System.sent, System.step, session_magitServerFilter]
    exact sent_prefix_handle _ _

/-- Sending a request keeps the invariant. -/
theorem Inv.send (h : Inv M gitRoot s) (ha : Assumed M s) (hs : Sound M s)
    (msg : List (MsgpackObject × MsgpackObject)) (callback : κ) :
    Inv M gitRoot (s.step M run g gitRoot (.send msg callback)) := by
  have hsent : s.sent <+: (magitServerSendAsync M s.client.session msg callback).world.sent :=
    List.prefix_append _ _
  have hwritten :
      s.written <+: (magitServerSendAsync M s.client.session msg callback).world.written :=
    List.prefix_append _ _
  obtain ⟨hread, hparser, hjobs⟩ := h.server_of_sent ha hs
    (c := { s.client with session := magitServerSendAsync M s.client.session msg callback })
    hsent hwritten
  exact ⟨hread, hparser, hjobs, h.wrote, h.client_read, h.place, h.session.send msg callback,
    h.calls.imp fun _ _ => Answers.mono hsent⟩

/-- A chunk that reaches the server keeps the invariant. -/
theorem Inv.toServer (h : Inv M gitRoot s) (ha : Assumed M s) (hs : Sound M s) (n : ℕ) :
    Inv M gitRoot (s.step M run g gitRoot (.toServer n)) := by
  obtain ⟨r, hr, hparser⟩ := h.parser.readStdin (nextChunk s.written s.serverRead n)
  rw [← take_add_length_nextChunk] at hparser
  have hrecv := h.recv_eq ha hs hparser
  set rs := (s.sent.drop s.payloads.length).take r.recv.length with hrs
  have hsub := ids_of_queued_sublist (g := g) rs
    (fun r' hr' => ha.unpack r' (List.mem_of_mem_drop (List.mem_of_mem_take hr')))
    (fun r' hr' => hs.msg r' (List.mem_of_mem_drop (List.mem_of_mem_take hr')))
  rw [← hrecv] at hsub
  have hjobs := h.jobs.append hsub.subperm
  rw [← List.map_append, hrs, ← List.take_add] at hjobs
  rw [System.step, hr]
  refine ⟨add_length_nextChunk_le h.server_read n, hparser, ?_, h.wrote, h.client_read, h.place,
    h.session, h.calls⟩
  rw [List.map_append, ← List.append_assoc, List.length_append]
  exact hjobs

/-- A request that is worked off keeps the invariant. -/
theorem Inv.finish (h : Inv M gitRoot s) (hs : Sound M s) (i : ℕ) (lg : Libgit2 δ) (status : ℤ) :
    Inv M gitRoot (s.step M run g gitRoot (.finish i lg status)) := by
  rw [System.step]
  cases hi : s.waiting[i]? with
  | none => exact h
  | some data =>
    obtain ⟨hlt, rfl⟩ := List.getElem?_eq_some_iff.mp hi
    dsimp only
    have hids := ids_afterGitRoot_sublist lg s.waiting[i] status
    have hperm := (List.getElem_cons_eraseIdx_perm hlt).map GitRootReqT.id
    have harrived : (s.responses ++ afterGitRoot (gitRootWorker lg s.waiting[i]) status).take
        s.client.dispatched.length = s.arrived :=
      List.take_append_of_le_length (h.dispatched_length_le hs)
    refine ⟨h.server_read, h.parser, ?_, ?_, ?_, ?_, ?_, ?_⟩
    · refine .trans ?_ h.jobs
      rw [List.map_append, List.append_assoc]
      refine (List.subperm_append_left _).mpr (.trans ?_ hperm.subperm)
      exact (List.subperm_append_right _).mpr hids.subperm
    · rw [h.wrote, List.flatMap_append]
    · rw [List.length_append]
      exact h.client_read.trans (Nat.le_add_right _ _)
    · rw [List.take_append_of_le_length h.client_read]
      exact h.place
    · rw [System.arrived, harrived]
      exact h.session
    · rw [System.arrived, harrived]
      exact h.calls

/-- A chunk that reaches the client keeps the invariant. -/
theorem Inv.toClient (h : Inv M gitRoot s) (ha : Assumed M s) (hs : Sound M s) (n : ℕ) :
    Inv M gitRoot (s.step M run g gitRoot (.toClient n)) := by
  set chunk := nextChunk s.serverWritten s.clientRead n with hchunk
  set frames := responseFrames.frames (s.stored gitRoot ++ chunk) with hframes
  have hreceived := take_add_length_nextChunk s.serverWritten s.clientRead n
  have hall : responseFrames.frames (s.serverWritten.take (s.clientRead + chunk.length))
      = s.client.dispatched ++ frames := by
    rw [hchunk, hreceived, responseFrames.frames_append, h.place.1, ← h.place.2]
    rfl
  set rs := (s.responses.drop s.client.dispatched.length).take frames.length with hrs
  have hrsframes : frames = rs.map (packedRes M) := by
    refine eq_map_of_front ?_
    rw [← hall, ← (h.frames_serverWritten hs).1]
    exact responseFrames.frames_prefix (List.take_prefix _ _)
  have harrived : s.responses.take (s.client.dispatched.length + frames.length) = s.arrived ++ rs :=
    List.take_add
  have hnodup : ((s.arrived.map fun res => res.id.toNat)
      ++ rs.map fun res => res.id.toNat).Nodup := by
    rw [← List.map_append, ← harrived]
    have hids := (List.nodup_append.mp (h.jobs_nodup ha)).1.sublist
      ((List.take_sublist (s.client.dispatched.length + frames.length) s.responses).map _)
    exact List.map_map (g := UInt64.toNat) ▸ hids.map fun _ _ => UInt64.toNat_inj.mp
  have hmem : ∀ res ∈ rs, res ∈ s.responses := fun res hres =>
    List.mem_of_mem_drop (List.mem_of_mem_take hres)
  obtain ⟨hfailed, htracks, hsent, calls, hcalls, hanswers⟩ := handle_responses run
    h.session (fun res hres => ha.read res (hmem res hres))
    (fun res hres => h.exists_request ha (hmem res hres)) hnodup
  rw [← hrsframes] at hfailed htracks hsent hcalls hanswers
  set c := magitServerFilter (quietLisp M run) gitRoot s.client chunk with hc
  have hsession : c.session = (handle (dispatch (quietLisp M run)) s.client.session frames).state :=
    session_magitServerFilter s.client chunk
  have hplace : KeepsPlace gitRoot c (s.serverWritten.take (s.clientRead + chunk.length)) := by
    have hharmless : (s.client.toConsumer gitRoot).Harmless (dispatch (quietLisp M run))
        responseFrames chunk := fun hf => absurd (hf.symm.trans hfailed) (by decide)
    have hin : (s.client.toConsumer gitRoot).InPlace responseFrames
        (s.serverWritten.take s.clientRead) := h.place
    have hnext := (Consumer.inPlace_take_iff hin chunk).mpr hharmless
    rw [← toConsumer_magitServerFilter, hchunk, ← hreceived] at hnext
    exact hnext
  have hdispatched : c.dispatched.length = s.client.dispatched.length + frames.length := by
    rw [hplace.1, hall, List.length_append]
  have harrived' : s.responses.take c.dispatched.length = s.arrived ++ rs := by
    rw [hdispatched, harrived]
  rw [← hsession] at htracks hsent hcalls hanswers
  obtain ⟨hread, hparser, hjobs⟩ := h.server_of_sent ha hs hsent
    (Tracks.written_prefix h.session htracks hsent)
  refine ⟨hread, hparser, hjobs, h.wrote, add_length_nextChunk_le h.client_read n, hplace, ?_, ?_⟩
  · rw [← List.map_append, ← harrived'] at htracks
    exact htracks
  · have hboth : List.Forall₂ (Answers c.session.world.sent) (s.arrived ++ rs) (s.calls ++ calls) :=
      List.rel_append (h.calls.imp fun _ _ => Answers.mono hsent) hanswers
    rw [← harrived', ← show c.session.world.calls = s.calls ++ calls from hcalls] at hboth
    exact hboth

/-- **The invariant holds in every run that meets the assumptions and the condition.** -/
theorem inv_runEvents (world : ω) (events : List (Event κ δ))
    (ha : Assumed M (System.runEvents M run g gitRoot world events))
    (hs : Sound M (System.runEvents M run g gitRoot world events)) :
    Inv M gitRoot (System.runEvents M run g gitRoot world events) := by
  induction events using List.reverseRecOn with
  | nil => exact Inv.initial M gitRoot world
  | append_singleton events e ih =>
    rw [System.runEvents, List.foldl_concat] at ha hs ⊢
    have hgrows : Grows (System.runEvents M run g gitRoot world events)
        ((System.runEvents M run g gitRoot world events).step M run g gitRoot e) := grows_step _ e
    have ha' := ha.of_grows hgrows
    have hs' := hs.of_grows hgrows
    have h := ih ha' hs'
    cases e with
    | send msg callback => exact h.send ha' hs' msg callback
    | toServer n => exact h.toServer ha' hs' n
    | finish i lg status => exact h.finish hs' i lg status
    | toClient n => exact h.toClient ha' hs' n

omit [DecidableEq κ] in
/-- **What the invariant is for.** -/
theorem Inv.matched (h : Inv M gitRoot s) (ha : Assumed M s) (hs : Sound M s) :
    Matched M gitRoot s where
  received := h.received ha hs
  all_received := h.all_received ha hs
  ids := h.session.nodup
  responses := (List.nodup_append.mp (h.jobs_nodup ha)).1
  bytes := by
    have hbytes := encode_frames_append_rest (fun _ => true) (s.serverWritten.take s.clientRead)
    have hframes : responseFrames.frames (s.serverWritten.take s.clientRead)
        = s.arrived.map (packedRes M) := h.place.1.symm.trans (h.dispatched hs)
    have hsent :
        s.arrived.flatMap (sentBytes M) = (s.arrived.map (packedRes M)).flatMap encode := by
      rw [List.flatMap_map]
      exact List.flatMap_congr fun res _ => msgpackHandlerSend_eq_encode _
    rw [hsent, ← hframes, System.stored, h.place.2]
    exact hbytes.symm
  dispatched := h.dispatched hs
  incomplete := by
    rw [System.stored, h.place.2]
    exact responseFrames.next_rest _
  all_arrived hall := by
    obtain ⟨hframes, hrest⟩ := h.frames_serverWritten hs
    have hplace := h.place
    rw [KeepsPlace, hall, List.take_length, hframes, hrest] at hplace
    refine ⟨?_, hplace.2⟩
    rw [System.arrived, hplace.1, List.length_map, List.take_length]
  calls := h.calls
  pending := h.session.pending

/-- **Requests and responses are matched.**  In every run in which each request is packed right and
read under its own id and each response fits its prefix, whatever the order in which workers finish
and however the streams are cut, requests, responses and callbacks are matched. -/
theorem exchange_matched (world : ω) (events : List (Event κ δ))
    (ha : Assumed M (System.runEvents M run g gitRoot world events))
    (hs : Sound M (System.runEvents M run g gitRoot world events)) :
    Matched M gitRoot (System.runEvents M run g gitRoot world events) :=
  (inv_runEvents world events ha hs).matched ha hs

end

/-! ## Two runs -/

/-- A packed item as msgpack spells it, for short strings and small integers. -/
def itemBytes : WireItem → List UInt8
  | .mapHeader n => [0xde, UInt8.ofNat (n / 256), UInt8.ofNat n]
  | .int d => [UInt8.ofNat d.toNat]
  | .strHeader l => if l < 32 then [UInt8.ofNat (0xa0 + l)] else [0xd9, UInt8.ofNat l]
  | .body c => [UInt8.ofNat c.toNat]

/-- A status request for a directory as msgpack spells it, for a small id. -/
def statusBytes (id : UInt64) (dir : Text) : List UInt8 :=
  [0x83, 0, id.toUInt8, 1, 1, 2] ++ itemBytes (.strHeader dir.length)
    ++ dir.flatMap fun c => itemBytes (.body c)

/-- Both ends of msgpack, as far as the requests 1 and 2 for `dir` and their responses go. -/
def statusMsgpack (dir : Text) : Msgpack where
  msgpackEncode msg :=
    match requestId msg with
    | some (.positiveInteger id) => .unibyte (statusBytes id dir)
    | _ => .unibyte []
  msgpackUnpackNext payload :=
    (([1, 2] : List UInt64).find? fun id => payload = statusBytes id dir).map fun id =>
      .map (statusRequest id dir)
  sbuffer items := items.flatMap itemBytes
  msgpackReadFromString payload :=
    (([1, 2] : List UInt64).find? fun id =>
      payload = (msgpackHandlerBufCreate (oneCommitRes id)).flatMap itemBytes).map fun id =>
        .map (resMsg (oneCommitRes id))

/-- The message of a status request. -/
def statusMsg (dir : Text) : List (MsgpackObject × MsgpackObject) :=
  [(.positiveInteger 1, .positiveInteger 1), (.positiveInteger 2, .str dir)]

/-- A callback, known by its number, that does nothing. -/
def noCallback (_ : ℕ) (_ : List (MsgpackObject × MsgpackObject)) (_ : Unit) :
    Unit × List (List (MsgpackObject × MsgpackObject) × ℕ) :=
  ((), [])

/-- A step of a system whose requests are for a directory. -/
def statusStep (dir : Text) (s : System ℕ Unit) (e : Event ℕ Unit) : System ℕ Unit :=
  s.step (statusMsgpack dir) noCallback (handler RefStore.oneCommit) "/work/".toList e

/-- A run of such a system. -/
def statusRun (dir : Text) (events : List (Event ℕ Unit)) : System ℕ Unit :=
  System.runEvents (statusMsgpack dir) noCallback (handler RefStore.oneCommit) "/work/".toList ()
    events

/-- The request that is sent under an id; its callback has the same number. -/
def theRequest (dir : Text) (id : ℕ) : SentRequest ℕ := ⟨id, statusMsg dir, id⟩

/-- After the first bytes have arrived the server has the frames in them, and the client is as
before. -/
theorem statusStep_toServer (dir : Text) {s : System ℕ Unit} (hparser : s.parser = .initial)
    (hread : s.serverRead = 0) (hpayloads : s.payloads = []) (hwaiting : s.waiting = []) (n : ℕ) :
    let s' := statusStep dir s (.toServer n)
    let chunk := nextChunk s.written 0 n
    s'.payloads = reference.frames chunk ∧ s'.serverRead = chunk.length
      ∧ s'.client = s.client ∧ s'.responses = s.responses
      ∧ s'.waiting = s'.payloads.filterMap fun payload => (msgpackHandlerRecv
        (handler RefStore.oneCommit) ((statusMsgpack dir).msgpackUnpackNext payload)).2 := by
  intro s' chunk
  obtain ⟨r, hr, hparsed⟩ := parserAt_initial.readStdin chunk
  have hs : s' = { s with
      serverRead := s.serverRead + chunk.length
      parser := r.parser
      payloads := s.payloads ++ r.recv
      waiting := s.waiting ++ r.recv.filterMap fun payload => (msgpackHandlerRecv
        (handler RefStore.oneCommit) ((statusMsgpack dir).msgpackUnpackNext payload)).2 } := by
    have hr' : readStdin s.parser (nextChunk s.written s.serverRead n).length
        (nextChunk s.written s.serverRead n) = some r := by
      rw [hparser, hread]
      exact hr
    show System.step _ _ _ _ s (.toServer n) = _
    rw [System.step, hr', hread]
  rw [hs, hpayloads, hwaiting, hread]
  exact ⟨hparsed.recv, Nat.zero_add _, rfl, rfl, rfl⟩

theorem statusBytes_inj {dir : Text} {id id' : UInt64}
    (h : statusBytes id dir = statusBytes id' dir) : id.toUInt8 = id'.toUInt8 := by
  simpa [statusBytes] using h

/-- The server reads a request as the map that was sent. -/
theorem unpack_statusBytes (dir : Text) {id : UInt64} (h : id = 1 ∨ id = 2) :
    (statusMsgpack dir).msgpackUnpackNext (statusBytes id dir)
      = some (.map (statusRequest id dir)) := by
  rcases h with rfl | rfl
  · simp [statusMsgpack]
  · have hne : statusBytes 2 dir ≠ statusBytes 1 dir := fun heq =>
      absurd (statusBytes_inj heq) (by decide)
    simp [statusMsgpack, hne]

/-- The client reads a response as the map that was packed. -/
theorem read_oneCommitRes (dir : Text) {id : UInt64} (h : id = 1 ∨ id = 2) :
    (statusMsgpack dir).msgpackReadFromString (packedRes (statusMsgpack dir) (oneCommitRes id))
      = some (.map (resMsg (oneCommitRes id))) := by
  have hne : (msgpackHandlerBufCreate (oneCommitRes 2)).flatMap itemBytes
      ≠ (msgpackHandlerBufCreate (oneCommitRes 1)).flatMap itemBytes := by decide +kernel
  rcases h with rfl | rfl
  · simp [packedRes, statusMsgpack]
  · simp [packedRes, statusMsgpack, hne]

theorem length_payload_theRequest (dir : Text) (id : ℕ) :
    ((theRequest dir id).payload (statusMsgpack dir)).length = (statusBytes 0 dir).length := rfl

theorem length_packedRes_lt (dir : Text) {id : UInt64} (h : id = 1 ∨ id = 2) :
    (packedRes (statusMsgpack dir) (oneCommitRes id)).length < 2 ^ 32 := by
  simp only [packedRes, statusMsgpack]
  rcases h with rfl | rfl <;> decide +kernel

/-- What is assumed of the requests holds for directories that make a message short enough. -/
theorem assumed_of_sent {dir : Text} {s : System ℕ Unit}
    (hsent : ∀ r ∈ s.sent, ∃ id, (id = 1 ∨ id = 2) ∧ r = theRequest dir id)
    (hres : ∀ res ∈ s.responses, ∃ id, (id = 1 ∨ id = 2) ∧ res = oneCommitRes id)
    (hlen : (statusBytes 0 dir).length ≤ maxMessageSize) : Assumed (statusMsgpack dir) s where
  payload r hr := by
    obtain ⟨id, -, rfl⟩ := hsent r hr
    rw [length_payload_theRequest]
    exact ⟨Nat.succ_le_of_lt (List.length_pos_of_ne_nil (List.cons_ne_nil _ _)), hlen⟩
  id r hr := by
    obtain ⟨id, rfl | rfl, rfl⟩ := hsent r hr
    · exact Nat.one_lt_two_pow (by decide)
    · exact lt_of_eq_of_lt (pow_one 2).symm (Nat.pow_lt_pow_right (by decide) (by decide))
  unpack r hr := by
    obtain ⟨id, hid, rfl⟩ := hsent r hr
    exact unpack_statusBytes dir (hid.imp (congrArg UInt64.ofNat) (congrArg UInt64.ofNat))
  read res hmem := by
    obtain ⟨id, hid, rfl⟩ := hres res hmem
    exact read_oneCommitRes dir hid

/-- …and the condition, for responses that fit their prefix. -/
theorem sound_of_sent {dir : Text} {s : System ℕ Unit}
    (hsent : ∀ r ∈ s.sent, ∃ id, (id = 1 ∨ id = 2) ∧ r = theRequest dir id)
    (hres : ∀ res ∈ s.responses, ∃ id, (id = 1 ∨ id = 2) ∧ res = oneCommitRes id)
    (hlen : SevenBitLength (statusBytes 0 dir).length) : Sound (statusMsgpack dir) s where
  length r hr := by
    obtain ⟨id, -, rfl⟩ := hsent r hr
    rw [length_payload_theRequest]
    exact hlen
  msg r hr id hid := by
    obtain ⟨n, -, rfl⟩ := hsent r hr
    exact (positiveInteger.inj (Option.some.inj hid)).symm
  response res hmem := by
    obtain ⟨id, hid, rfl⟩ := hres res hmem
    exact length_packedRes_lt dir hid

/-- A callback that sends nothing leaves the requests as they are. -/
theorem sent_handle_noCallback (dir : Text) (session : Session ℕ (Outside ℕ Unit))
    (payloads : List (List UInt8)) :
    (handle (dispatch (quietLisp (statusMsgpack dir) noCallback)) session payloads).state.world.sent
      = session.world.sent := by
  induction payloads generalizing session with
  | nil => rfl
  | cons payload payloads ih =>
    have hfirst : (dispatch (quietLisp (statusMsgpack dir) noCallback) session payload).1.world.sent
        = session.world.sent := by
      unfold dispatch
      split
      · split
        · rfl
        · split <;> rfl
      · rfl
    rw [handle]
    split
    · exact hfirst
    · exact (ih _).trans hfirst

/-- Nor do bytes that arrive at the client change the requests. -/
theorem sent_statusStep_toClient (dir : Text) (s : System ℕ Unit) (n : ℕ) :
    (statusStep dir s (.toClient n)).sent = s.sent := by
  rw [statusStep, System.sent, System.step, session_magitServerFilter, sent_handle_noCallback]
  rfl

/-- A job of request `id` that is done has its response. -/
theorem statusStep_finish (dir : Text) {s : System ℕ Unit} {i : ℕ} {id : UInt64}
    (h : s.waiting[i]? = some (statusData id)) :
    statusStep dir s (.finish i RefStore.oneCommit.libgit2 0)
      = { s with
          waiting := s.waiting.eraseIdx i
          responses := s.responses ++ [oneCommitRes id]
          serverWritten := s.serverWritten
            ++ [oneCommitRes id].flatMap (sentBytes (statusMsgpack dir)) } := by
  have hanswers : afterGitRoot (gitRootWorker RefStore.oneCommit.libgit2 (statusData id)) 0
      = [oneCommitRes id] := answers_oneCommit id
  rw [statusStep, System.step]
  simp only [h, hanswers]

/-- Two requests for a directory. -/
def twoSends (dir : Text) : List (Event ℕ Unit) :=
  [.send (statusMsg dir) 1, .send (statusMsg dir) 2]

/-- They arrive in one chunk and are queued. -/
theorem twoSends_toServer :
    let s := statusRun "/work/".toList (twoSends "/work/".toList ++ [.toServer 100])
    s.waiting = [statusData 1, statusData 2]
      ∧ s.sent = [1, 2].map (theRequest "/work/".toList) ∧ s.responses = [] := by
  intro s
  obtain ⟨hpayloads, -, hclient, hresponses, hwaiting⟩ := statusStep_toServer "/work/".toList
    (s := statusRun "/work/".toList (twoSends "/work/".toList)) rfl rfl rfl rfl 100
  have hchunk : nextChunk (statusRun "/work/".toList (twoSends "/work/".toList)).written 0 100
      = [statusBytes 1 "/work/".toList, statusBytes 2 "/work/".toList].flatMap encode ++ [] := by
    decide +kernel
  rw [hchunk, reference, frames_encode_append Server.validLength (by decide +kernel),
    FrameReader.frames_of_none rfl, List.append_nil] at hpayloads
  have hqueued {id : UInt64} (hid : id = 1 ∨ id = 2) :
      (msgpackHandlerRecv (handler RefStore.oneCommit)
        ((statusMsgpack "/work/".toList).msgpackUnpackNext (statusBytes id "/work/".toList))).2
          = some (statusData id) := by
    rw [unpack_statusBytes "/work/".toList hid]
    refine queued_handler RefStore.oneCommit ?_
    rcases hid with rfl | rfl <;> decide
  refine ⟨?_, congrArg (fun c => c.session.world.sent) hclient, hresponses⟩
  rw [hpayloads] at hwaiting
  exact hwaiting.trans (congrArg₂ (fun o o' => [o, o'].filterMap id)
    (hqueued (.inl rfl)) (hqueued (.inr rfl)))

/-- The worker of the second request finishes first. -/
theorem twoSends_finish :
    let s := statusRun "/work/".toList (twoSends "/work/".toList ++ [.toServer 100,
      .finish 1 RefStore.oneCommit.libgit2 0, .finish 0 RefStore.oneCommit.libgit2 0])
    s.sent = [1, 2].map (theRequest "/work/".toList)
      ∧ s.responses = [oneCommitRes 2, oneCommitRes 1] := by
  intro s
  obtain ⟨hwaiting, hsent, hresponses⟩ := twoSends_toServer
  set queued := statusRun "/work/".toList (twoSends "/work/".toList ++ [.toServer 100])
  have hs : s = statusStep "/work/".toList (statusStep "/work/".toList queued
      (.finish 1 RefStore.oneCommit.libgit2 0)) (.finish 0 RefStore.oneCommit.libgit2 0) := rfl
  have hsecond : queued.waiting[1]? = some (statusData 2) := by rw [hwaiting]; rfl
  rw [statusStep_finish _ hsecond, hwaiting, hresponses] at hs
  have hfirst := hs.trans (statusStep_finish _ rfl)
  rw [hfirst]
  exact ⟨hsent, rfl⟩

/-- Two requests and their responses, of which the second comes first. -/
theorem exchange_matched_two : Matched (statusMsgpack "/work/".toList) "/work/".toList
    (statusRun "/work/".toList (twoSends "/work/".toList ++ [.toServer 100,
      .finish 1 RefStore.oneCommit.libgit2 0, .finish 0 RefStore.oneCommit.libgit2 0,
      .toClient 2000])) := by
  obtain ⟨hsent, hresponses⟩ := twoSends_finish
  set finished := statusRun "/work/".toList (twoSends "/work/".toList ++ [.toServer 100,
    .finish 1 RefStore.oneCommit.libgit2 0, .finish 0 RefStore.oneCommit.libgit2 0])
  have hall : ∀ r ∈ (statusStep "/work/".toList finished (.toClient 2000)).sent,
      ∃ id, (id = 1 ∨ id = 2) ∧ r = theRequest "/work/".toList id := by
    rw [sent_statusStep_toClient, hsent]
    intro r hr
    obtain ⟨id, hid, rfl⟩ := List.mem_map.mp hr
    exact ⟨id, by simpa using hid, rfl⟩
  have hres : ∀ res ∈ (statusStep "/work/".toList finished (.toClient 2000)).responses,
      ∃ id, (id = 1 ∨ id = 2) ∧ res = oneCommitRes id := by
    intro res hmem
    have hmem' : res ∈ [oneCommitRes 2, oneCommitRes 1] := hresponses ▸ hmem
    rcases List.mem_pair.mp hmem' with rfl | rfl
    · exact ⟨2, .inr rfl, rfl⟩
    · exact ⟨1, .inl rfl, rfl⟩
  exact exchange_matched () _ (assumed_of_sent hall hres (by decide))
    (sound_of_sent hall hres (by decide))

/-- A request has arrived, or the first bytes of it. -/
theorem statusRun_toServer (dir : Text) (n : ℕ) :
    let s := statusRun dir [.send (statusMsg dir) 1, .toServer n]
    let chunk := nextChunk ((theRequest dir 1).packed (statusMsgpack dir)) 0 n
    s.payloads = reference.frames chunk ∧ s.serverRead = chunk.length
      ∧ s.sent = [theRequest dir 1] ∧ s.written = (theRequest dir 1).packed (statusMsgpack dir)
      ∧ s.responses = [] := by
  intro s chunk
  obtain ⟨hpayloads, hread, hclient, hresponses, -⟩ := statusStep_toServer dir
    (s := statusRun dir [.send (statusMsg dir) 1]) rfl rfl rfl rfl n
  exact ⟨hpayloads, hread, congrArg (fun c => c.session.world.sent) hclient,
    congrArg (fun c => c.session.world.written) hclient, hresponses⟩

/-- A directory of 192 characters makes a message of 200 bytes. -/
def longDir : Text := List.replicate 192 'a'

theorem length_longDir : (statusBytes 1 longDir).length = 200 := by decide +kernel

/-- The bytes of a message whose length byte 200 has become two. -/
theorem packed_longDir :
    (theRequest longDir 1).packed (statusMsgpack longDir)
      = [0, 0, 0, 0xc3, 0x88] ++ statusBytes 1 longDir := by decide +kernel

/-- The first frame in such bytes begins with the second of the two. -/
theorem next_of_two_bytes {body : List UInt8} (h : body.length = 200) :
    reference.next ([0, 0, 0, 0xc3, 0x88] ++ body)
      = some (0x88 :: body.take 194, body.drop 194) := by
  have hlen : (0x88 :: body.take 194).length = 195 := by
    rw [List.length_cons, List.length_take, h]
    rfl
  rw [reference, next_lengthPrefixed, nextFrame_eq_some, hlen]
  refine ⟨?_, ?_, ?_⟩
  · decide
  · rfl
  · have hsplit : 0x88 :: body.take 194 ++ body.drop 194 = 0x88 :: body :=
      congrArg (0x88 :: ·) (List.take_append_drop 194 body)
    rw [encode, hlen, List.append_assoc, hsplit]
    rfl

/-- A request of 200 bytes has arrived completely, and the server has not received it: it has read
a length of 195 and handed on 195 other bytes. -/
theorem two_byte_length_mismatched :
    let s := statusRun longDir [.send (statusMsg longDir) 1, .toServer 1000]
    Assumed (statusMsgpack longDir) s ∧ s.serverRead = s.written.length
      ∧ (0x88 :: (statusBytes 1 longDir).take 194) ∈ s.payloads
      ∧ ¬ Matched (statusMsgpack longDir) "/work/".toList s := by
  intro s
  obtain ⟨hpayloads, hread, hsent, hwritten, hresponses⟩ := statusRun_toServer longDir 1000
  have hchunk : nextChunk ((theRequest longDir 1).packed (statusMsgpack longDir)) 0 1000
      = [0, 0, 0, 0xc3, 0x88] ++ statusBytes 1 longDir := by
    rw [packed_longDir, nextChunk, List.drop_zero]
    refine List.take_of_length_le ?_
    rw [List.length_append, length_longDir]
    decide
  have hpayloads' := hpayloads.trans (congrArg reference.frames hchunk)
  rw [FrameReader.frames_of_some (next_of_two_bytes length_longDir)] at hpayloads'
  have hall : s.serverRead = s.written.length := by
    rw [hwritten, packed_longDir, ← hchunk]
    exact hread
  have hassumed : Assumed (statusMsgpack longDir) s := by
    refine assumed_of_sent (fun r hr => ⟨1, .inl rfl, ?_⟩) (fun res hmem => ?_) (by decide +kernel)
    · rw [hsent] at hr
      exact List.mem_singleton.mp hr
    · exact absurd (hresponses ▸ hmem) List.not_mem_nil
  refine ⟨hassumed, hall, ?_, fun h => ?_⟩
  · exact hpayloads' ▸ List.mem_cons_self
  · have hreceived := h.all_received hall
    rw [hsent] at hreceived
    have hlen := congrArg List.length (List.cons.inj (hpayloads'.symm.trans hreceived)).1
    rw [List.length_cons, List.length_take, length_longDir] at hlen
    exact absurd (hlen.trans length_longDir) (by decide)

end Magit.Protocol
