import Magit.Emacs.Alist
import Magit.Framing.Consumer
import Magit.Framing.LengthPrefix
import Magit.Msgpack.Object

/-!
# Client/Filter — the filter of a server process

`magit-server-filter` puts a chunk behind the bytes it stored for the git root, takes complete
frames off the front and calls the callback each response was requested with.  What is left goes
back into `magit-server-buffers` when the loop ends; a signal leaves the loop before that.  So the
filter is a consumer of frames that forgets its place when a dispatch fails
(`toConsumer_magitServerFilter`), and it keeps its place exactly as long as that does no harm
(`filter_keeps_place_iff`).
-/

namespace Magit.Client

open Emacs Framing MsgpackObject

/-! ## The stored buffers -/

/-- `magit-server-buffers`. -/
abbrev Buffers := List (Text × Option (List UInt8))

/-- The empty string if there is no entry, or nil in it. -/
def magitServerGetBuffer (gitRoot : Text) (buffers : Buffers) : List UInt8 :=
  ((assoc gitRoot buffers).getD none).getD []

/-- `magit-server-set-buffer` -/
def magitServerSetBuffer (gitRoot : Text) (buffer : Option (List UInt8)) (buffers : Buffers) :
    Buffers :=
  setAlistGet gitRoot buffer buffers

/-- Setting the buffer of one repository leaves those of the others alone. -/
theorem magitServerGetBuffer_setBuffer (gitRoot gitRoot' : Text) (buffer : Option (List UInt8))
    (buffers : Buffers) :
    magitServerGetBuffer gitRoot' (magitServerSetBuffer gitRoot buffer buffers)
      = if gitRoot = gitRoot' then buffer.getD [] else magitServerGetBuffer gitRoot' buffers := by
  rw [magitServerGetBuffer, magitServerSetBuffer, assoc_setAlistGet]
  split_ifs <;> rfl

/-! ## The dispatch of one response -/

/-- What a callback can change: the request counter of the process, its pending callbacks `κ`, and
whatever else is in the world `ω`, but not the buffer stored for the process. -/
structure Session (κ ω : Type) where
  requestCounter : ℕ
  pendingCallbacks : List (ℕ × κ)
  world : ω

/-- What the filter calls: the decoder, `none` being a signal, and a callback with a message, the
flag saying whether it signalled. -/
structure Lisp (κ ω : Type) where
  msgpackReadFromString : List UInt8 → Option MsgpackObject
  funcall : κ → List (MsgpackObject × MsgpackObject) → Session κ ω → Session κ ω × Bool

variable {κ ω : Type} [DecidableEq κ]

/-- The callback of a request, which is then no longer pending. -/
def magitServerFindCallback (pending : List (ℕ × κ)) (requestId : MsgpackObject) :
    Option κ × List (ℕ × κ) :=
  match pending.find? fun entry => requestId.isNat entry.1 with
  | none => (none, pending)
  | some entry => (some entry.2, pending.filter (· ≠ entry))

/-- The body of the loop once a payload has been cut off, and whether it signalled: the payload does
not decode, the message has no id so that nil is called, no callback is pending for its id so that
`cl-assert` fails, or the callback itself signals. -/
def dispatch (L : Lisp κ ω) (s : Session κ ω) (payload : List UInt8) : Session κ ω × Bool :=
  match L.msgpackReadFromString payload with
  | some (.map msg) =>
    match assq 0 msg with
    | none => (s, true)
    | some requestId =>
      match magitServerFindCallback s.pendingCallbacks requestId with
      | (none, _) => (s, true)
      | (some callback, pending) => L.funcall callback msg { s with pendingCallbacks := pending }
  | _ => (s, true)

/-! ## The filter -/

/-- How the loop ended: the buffer, the payloads that were dispatched, the session, and whether a
signal ended it. -/
structure Filtered (κ ω : Type) where
  buffer : List UInt8
  dispatched : List (List UInt8)
  session : Session κ ω
  signalled : Bool

/-- The loop of `magit-server-filter`, over the bytes that are kept. -/
def filterLoop (L : Lisp κ ω) (buffer : List UInt8) (s : Session κ ω) : Filtered κ ω :=
  if h : 4 ≤ buffer.length then
    let len := (buffer[0].toNat <<< 24) + (buffer[1].toNat <<< 16) + (buffer[2].toNat <<< 8)
      + buffer[3].toNat
    if buffer.length < 4 + len then ⟨buffer, [], s, false⟩
    else
      let payload := (buffer.drop 4).take len
      let remaining := buffer.drop (4 + len)
      let next := dispatch L s payload
      if next.2 then ⟨buffer, [payload], next.1, true⟩
      else
        let r := filterLoop L remaining next.1
        { r with dispatched := payload :: r.dispatched }
  else ⟨buffer, [], s, false⟩
termination_by buffer.length
decreasing_by
  rw [List.length_drop]
  omega

/-- The client as far as one server process goes; `dispatched` keeps a record of the payloads it has
dispatched. -/
structure Connection (κ ω : Type) where
  buffers : Buffers
  session : Session κ ω
  dispatched : List (List UInt8)

/-- A signal leaves `magit-server-buffers` as it was. -/
def magitServerFilter (L : Lisp κ ω) (gitRoot : Text) (c : Connection κ ω) (chunk : List UInt8) :
    Connection κ ω :=
  let r := filterLoop L (magitServerGetBuffer gitRoot c.buffers ++ chunk) c.session
  { buffers :=
      if r.signalled then c.buffers else magitServerSetBuffer gitRoot (some r.buffer) c.buffers
    session := r.session
    dispatched := c.dispatched ++ r.dispatched }

/-- The calls of the filter for the chunks a process writes. -/
def filterChunks (L : Lisp κ ω) (gitRoot : Text) (c : Connection κ ω) (chunks : List (List UInt8)) :
    Connection κ ω :=
  chunks.foldl (magitServerFilter L gitRoot) c

/-! ## The loop takes frames off -/

/-- The frames of a response stream; every length is taken. -/
abbrev responseFrames : FrameReader UInt8 (List UInt8) := lengthPrefixed fun _ => true

/-- The length that is read by shifts is the big-endian number of the first four bytes. -/
theorem ofBe32_eq_shiftLeft {buffer : List UInt8} (h : 4 ≤ buffer.length) :
    (buffer[0].toNat <<< 24) + (buffer[1].toNat <<< 16) + (buffer[2].toNat <<< 8)
      + buffer[3].toNat = ofBe32 buffer := by
  obtain _ | ⟨a, _ | ⟨b, _ | ⟨c, _ | ⟨d, r⟩⟩⟩⟩ := buffer <;>
    simp only [List.length_cons, List.length_nil] at h <;> try omega
  simp [ofBe32, Nat.shiftLeft_eq]

/-- A frame at the front is dispatched, and the loop goes on behind it. -/
theorem filterLoop_of_next {L : Lisp κ ω} {buffer payload remaining : List UInt8}
    (h : responseFrames.next buffer = some (payload, remaining)) (s : Session κ ω) :
    filterLoop L buffer s =
      if (dispatch L s payload).2 then ⟨buffer, [payload], (dispatch L s payload).1, true⟩
      else
        { filterLoop L remaining (dispatch L s payload).1 with
          dispatched :=
            payload :: (filterLoop L remaining (dispatch L s payload).1).dispatched } := by
  rw [next_lengthPrefixed, nextFrame] at h
  split_ifs at h with hc
  obtain ⟨rfl, rfl⟩ := Prod.mk.inj (Option.some.inj h)
  obtain ⟨h4, -, hlen⟩ := hc
  rw [filterLoop, dif_pos h4]
  dsimp only
  rw [ofBe32_eq_shiftLeft h4, if_neg (not_lt.mpr hlen)]

/-- Without a frame at the front the loop ends. -/
theorem filterLoop_of_none {L : Lisp κ ω} {buffer : List UInt8}
    (h : responseFrames.next buffer = none) (s : Session κ ω) :
    filterLoop L buffer s = ⟨buffer, [], s, false⟩ := by
  rw [next_lengthPrefixed, nextFrame] at h
  rw [filterLoop]
  split_ifs at h with hc
  split_ifs with h4
  · dsimp only
    rw [ofBe32_eq_shiftLeft h4, if_pos]
    exact not_le.mp fun hle => hc ⟨h4, rfl, hle⟩
  · rfl

/-- **The loop hands the frames of its buffer to the dispatch** and, unless one signals, leaves what
follows them. -/
theorem filterLoop_eq_handle (L : Lisp κ ω) (buffer : List UInt8) (s : Session κ ω) :
    let h := handle (dispatch L) s (responseFrames.frames buffer)
    (filterLoop L buffer s).dispatched = h.handed ∧ (filterLoop L buffer s).session = h.state
      ∧ (filterLoop L buffer s).signalled = h.failed
      ∧ (h.failed = false → (filterLoop L buffer s).buffer = responseFrames.rest buffer) := by
  induction buffer using responseFrames.drain_induction generalizing s with
  | stuck buffer hnone =>
    rw [filterLoop_of_none hnone, FrameReader.frames_of_none hnone,
      FrameReader.rest_of_none hnone]
    exact ⟨rfl, rfl, rfl, fun _ => rfl⟩
  | frame buffer payload remaining hnext ih =>
    rw [filterLoop_of_next hnext, FrameReader.frames_of_some hnext,
      FrameReader.rest_of_some hnext, handle]
    split
    · exact ⟨rfl, rfl, rfl, fun h => absurd h (by simp)⟩
    · obtain ⟨hdispatched, hsession, hsignalled, hbuffer⟩ := ih (dispatch L s payload).1
      exact ⟨congrArg (payload :: ·) hdispatched, hsession, hsignalled, hbuffer⟩

/-! ## The filter as a consumer -/

/-- **What the filter stores**: what is left, or after a signal what was stored before. -/
theorem magitServerGetBuffer_filter (L : Lisp κ ω) (gitRoot : Text) (c : Connection κ ω)
    (chunk : List UInt8) :
    magitServerGetBuffer gitRoot (magitServerFilter L gitRoot c chunk).buffers
      = if (filterLoop L (magitServerGetBuffer gitRoot c.buffers ++ chunk) c.session).signalled then
          magitServerGetBuffer gitRoot c.buffers
        else responseFrames.rest (magitServerGetBuffer gitRoot c.buffers ++ chunk) := by
  obtain ⟨-, -, hsignalled, hbuffer⟩ :=
    filterLoop_eq_handle L (magitServerGetBuffer gitRoot c.buffers ++ chunk) c.session
  rw [magitServerFilter]
  dsimp only
  split_ifs with h
  · rfl
  · rw [magitServerGetBuffer_setBuffer, if_pos rfl]
    exact hbuffer (by rw [← hsignalled]; simpa using h)

/-- The buffers of other git roots are left alone. -/
theorem magitServerGetBuffer_filter_of_ne (L : Lisp κ ω) {gitRoot gitRoot' : Text}
    (hne : gitRoot ≠ gitRoot') (c : Connection κ ω) (chunk : List UInt8) :
    magitServerGetBuffer gitRoot' (magitServerFilter L gitRoot c chunk).buffers
      = magitServerGetBuffer gitRoot' c.buffers := by
  rw [magitServerFilter]
  dsimp only
  split_ifs
  · rfl
  · rw [magitServerGetBuffer_setBuffer, if_neg hne]

/-- The client as a consumer of the frames of one git root's process. -/
def Connection.toConsumer (gitRoot : Text) (c : Connection κ ω) :
    Consumer UInt8 (List UInt8) (Session κ ω) where
  stored := magitServerGetBuffer gitRoot c.buffers
  handed := c.dispatched
  state := c.session

/-- **The filter is a consumer that stores what is left only if nothing signalled.** -/
theorem toConsumer_magitServerFilter (L : Lisp κ ω) (gitRoot : Text) (c : Connection κ ω)
    (chunk : List UInt8) :
    (magitServerFilter L gitRoot c chunk).toConsumer gitRoot
      = (c.toConsumer gitRoot).take (dispatch L) responseFrames chunk := by
  obtain ⟨hdispatched, hsession, hsignalled, -⟩ :=
    filterLoop_eq_handle L (magitServerGetBuffer gitRoot c.buffers ++ chunk) c.session
  rw [Connection.toConsumer, magitServerGetBuffer_filter, hsignalled, magitServerFilter,
    hdispatched, hsession]
  rfl

/-- **The filter consumes frames**: a run of it over chunks is one of the general consumer. -/
theorem toConsumer_filterChunks (L : Lisp κ ω) (gitRoot : Text) (c : Connection κ ω)
    (chunks : List (List UInt8)) :
    (filterChunks L gitRoot c chunks).toConsumer gitRoot
      = (c.toConsumer gitRoot).takeAll (dispatch L) responseFrames chunks := by
  induction chunks using List.reverseRecOn with
  | nil => rfl
  | append_singleton chunks chunk ih =>
    rw [filterChunks, List.foldl_concat, toConsumer_magitServerFilter, Consumer.takeAll_concat,
      ← ih]
    rfl

/-! ## Keeping the place -/

/-- Every complete response in the bytes received has been dispatched, once and in order, and the
stored buffer is what follows them. -/
def KeepsPlace (gitRoot : Text) (c : Connection κ ω) (received : List UInt8) : Prop :=
  c.dispatched = responseFrames.frames received
    ∧ magitServerGetBuffer gitRoot c.buffers = responseFrames.rest received

/-- No dispatch of the responses that are complete with this chunk signals, or only that of the last
one does and the bytes after it are those that were stored before the chunk. -/
def HarmlessChunk (L : Lisp κ ω) (gitRoot : Text) (c : Connection κ ω) (chunk : List UInt8) :
    Prop :=
  let buffer := magitServerGetBuffer gitRoot c.buffers ++ chunk
  let h := handle (dispatch L) c.session (responseFrames.frames buffer)
  h.failed = true → h.handed = responseFrames.frames buffer
    ∧ responseFrames.rest buffer = magitServerGetBuffer gitRoot c.buffers

/-- The client right after `magit-server-start`. -/
def started (gitRoot : Text) (buffers : Buffers) (s : Session κ ω) : Connection κ ω where
  buffers := magitServerSetBuffer gitRoot (some []) buffers
  session := s
  dispatched := []

omit [DecidableEq κ] in
/-- A session that has received nothing has kept its place. -/
theorem keepsPlace_started (gitRoot : Text) (buffers : Buffers) (s : Session κ ω) :
    KeepsPlace gitRoot (started gitRoot buffers s) [] := by
  have hnone : responseFrames.next [] = none := rfl
  rw [KeepsPlace, FrameReader.frames_of_none hnone, FrameReader.rest_of_none hnone, started,
    magitServerGetBuffer_setBuffer, if_pos rfl]
  exact ⟨rfl, rfl⟩

/-- **When the filter keeps its place.**  After every call, each complete response received has been
dispatched exactly once and in order and the stored buffer is the rest, if and only if no call meets
a harmful signal. -/
theorem filter_keeps_place_iff (L : Lisp κ ω) (gitRoot : Text) (buffers : Buffers)
    (s : Session κ ω) (chunks : List (List UInt8)) :
    (∀ cs, cs <+: chunks →
        KeepsPlace gitRoot (filterChunks L gitRoot (started gitRoot buffers s) cs) cs.flatten)
      ↔ ∀ cs chunk, cs ++ [chunk] <+: chunks →
        HarmlessChunk L gitRoot (filterChunks L gitRoot (started gitRoot buffers s) cs) chunk := by
  have hstart : ((started gitRoot buffers s).toConsumer gitRoot).InPlace responseFrames [] :=
    keepsPlace_started gitRoot buffers s
  have h := Consumer.inPlace_takeAll_iff (dispatch L) hstart chunks
  simp only [← toConsumer_filterChunks] at h
  exact h

/-- Messages of one byte, which is their id, and callbacks that signal or do nothing. -/
def byteLisp : Lisp Bool Unit where
  msgpackReadFromString payload :=
    some (.map [(.positiveInteger 0, .positiveInteger ((payload.headD 0).toUInt64))])
  funcall signals _ s := (s, signals)

/-- Two requests are pending, and the callback of the first will signal. -/
def twoPending : Connection Bool Unit :=
  started "/work/".toList [] ⟨2, [(2, false), (1, true)], ()⟩

/-- Two responses in one chunk: the signal of the first callback loses the second response, which is
neither dispatched nor stored. -/
theorem response_lost_after_signal :
    let chunk := encode [1] ++ encode [2]
    let c := magitServerFilter byteLisp "/work/".toList twoPending chunk
    c.dispatched = [[1]] ∧ magitServerGetBuffer "/work/".toList c.buffers = []
      ∧ responseFrames.frames chunk = [[1], [2]] ∧ ¬ KeepsPlace "/work/".toList c chunk := by
  intro chunk c
  have hframes : responseFrames.frames chunk = [[1], [2]] := by
    have h := frames_encode_append (fun _ => true)
      (by decide : ∀ b ∈ ([[1], [2]] : List (List UInt8)), b.length < 2 ^ 32 ∧ true = true) []
    have hnone : responseFrames.next [] = none := rfl
    rwa [FrameReader.frames_of_none hnone] at h
  have htake := toConsumer_magitServerFilter byteLisp "/work/".toList twoPending chunk
  have hhandling : ((twoPending.toConsumer "/work/".toList).handling (dispatch byteLisp)
      responseFrames chunk) = ⟨[[1]], ⟨2, [(2, false)], ()⟩, true⟩ := by
    rw [Consumer.handling]
    exact (congrArg (handle _ _) hframes).trans rfl
  rw [Consumer.take, hhandling] at htake
  have hdispatched : c.dispatched = [[1]] := congrArg Consumer.handed htake
  refine ⟨hdispatched, congrArg Consumer.stored htake, hframes, fun h => ?_⟩
  rw [KeepsPlace, hframes, hdispatched] at h
  exact absurd h.1 (by decide)

end Magit.Client
