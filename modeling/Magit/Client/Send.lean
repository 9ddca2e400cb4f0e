import Magit.Client.Filter
import Magit.Emacs.LispString

/-!
# Client/Send — requests on their way to the server

`magit-pack-message` puts a length of four bytes before an encoded message, building it with
`string`: a length byte from 128 on is a character there that `string-as-unibyte` turns into two
bytes, so that the prefix is right only for lengths without such a byte
(`magitPackMessage_eq_encode_iff`).

`magit-server-send-async` numbers the requests of a process and keeps their callbacks.  `Tracks`
says how these stand against the requests sent and answered so far; sending and dispatching keep it.
-/

namespace Magit.Client

open Emacs Framing LispString MsgpackObject

/-! ## Packing -/

/-- The arguments of `string`: the bytes of a length, most significant first. -/
def lengthCodes (len : ℕ) : List ℕ :=
  [(len >>> 24) &&& 0xff, (len >>> 16) &&& 0xff, (len >>> 8) &&& 0xff, len &&& 0xff]

/-- `magit-pack-message`, for an object that `msgpack-encode` spells as `encoded`. -/
def magitPackMessage (encoded : LispString) : List UInt8 :=
  let payload :=
    match encoded with
    | .multibyte _ => unibyte (stringAsUnibyte encoded)
    | .unibyte _ => encoded
  stringAsUnibyte (concat (string (lengthCodes payload.length)) payload)

/-- None of the four bytes of a length is 128 or more. -/
def SevenBitLength (len : ℕ) : Prop := ∀ c ∈ lengthCodes len, c < 0x80

instance (len : ℕ) : Decidable (SevenBitLength len) :=
  inferInstanceAs (Decidable (∀ c ∈ lengthCodes len, c < 0x80))

theorem lengthCodes_lt {len c : ℕ} (h : c ∈ lengthCodes len) : c < 0x100 := by
  have hmask (n : ℕ) : n &&& 0xff < 0x100 := Nat.lt_succ_of_le Nat.and_le_right
  simp only [lengthCodes, List.mem_cons, List.not_mem_nil, or_false] at h
  rcases h with rfl | rfl | rfl | rfl <;> exact hmask _

/-- The four characters of the length are its big-endian bytes. -/
theorem map_lengthCodes (len : ℕ) : (lengthCodes len).map UInt8.ofNat = be32 len := by
  have hmask (n : ℕ) : n &&& 0xff = n % 2 ^ 8 := Nat.and_two_pow_sub_one_eq_mod n 8
  simp only [lengthCodes, be32, hmask, Nat.shiftRight_eq_div_pow, List.map_cons, List.map_nil,
    List.cons.injEq, and_true, ← UInt8.toNat_inj, UInt8.toNat_ofNat']
  omega

/-- A packed message is its length, as the bytes of four characters, and its payload. -/
theorem magitPackMessage_eq (encoded : LispString) :
    magitPackMessage encoded
      = (lengthCodes (stringAsUnibyte encoded).length).flatMap charBytes
        ++ stringAsUnibyte encoded := by
  cases encoded with
  | unibyte bytes => exact stringAsUnibyte_concat_string _ bytes
  | multibyte chars => exact stringAsUnibyte_concat_string _ _

/-- **When the prefix is the length of the payload**: exactly if no byte of it is 128 or more. -/
theorem magitPackMessage_eq_encode_iff (encoded : LispString) :
    magitPackMessage encoded = encode (stringAsUnibyte encoded)
      ↔ SevenBitLength (stringAsUnibyte encoded).length := by
  rw [magitPackMessage_eq, encode, List.append_cancel_right_eq, ← map_lengthCodes]
  exact flatMap_charBytes_eq_map_iff fun c hc => lengthCodes_lt hc

/-! ## Sending -/

/-- What `msgpack-encode` and `msgpack-read-from-string` do at the client, and `msgpack_unpack_next`
and the packer at the server. -/
structure Msgpack where
  msgpackEncode : List (MsgpackObject × MsgpackObject) → LispString
  msgpackReadFromString : List UInt8 → Option MsgpackObject
  msgpackUnpackNext : List UInt8 → Option MsgpackObject
  sbuffer : List WireItem → List UInt8

/-- A call of `magit-server-send-async` with the id it got. -/
structure SentRequest (κ : Type) where
  id : ℕ
  msg : List (MsgpackObject × MsgpackObject)
  callback : κ

/-- `msg-with-id`. -/
def SentRequest.msgWithId {κ : Type} (r : SentRequest κ) : List (MsgpackObject × MsgpackObject) :=
  (.positiveInteger 0, .positiveInteger (UInt64.ofNat r.id)) :: r.msg

/-- The bytes of a request's message. -/
def SentRequest.payload {κ : Type} (M : Msgpack) (r : SentRequest κ) : List UInt8 :=
  stringAsUnibyte (M.msgpackEncode r.msgWithId)

/-- What is passed to `process-send-string`. -/
def SentRequest.packed {κ : Type} (M : Msgpack) (r : SentRequest κ) : List UInt8 :=
  magitPackMessage (M.msgpackEncode r.msgWithId)

/-- The rest of the world, the bytes written to the process, and a record of the requests sent and
of the callbacks called. -/
structure Outside (κ ω : Type) where
  world : ω
  written : List UInt8 := []
  sent : List (SentRequest κ) := []
  calls : List (κ × List (MsgpackObject × MsgpackObject)) := []

variable {κ ω : Type}

/-- `magit-server-send-async` -/
def magitServerSendAsync (M : Msgpack) (s : Session κ (Outside κ ω))
    (msg : List (MsgpackObject × MsgpackObject)) (callback : κ) : Session κ (Outside κ ω) :=
  let request : SentRequest κ := ⟨s.requestCounter + 1, msg, callback⟩
  { requestCounter := request.id
    pendingCallbacks := (request.id, callback) :: s.pendingCallbacks
    world := { s.world with
      written := s.world.written ++ request.packed M
      sent := s.world.sent ++ [request] } }

/-- Several requests one after another. -/
def sendAll (M : Msgpack) (s : Session κ (Outside κ ω))
    (requests : List (List (MsgpackObject × MsgpackObject) × κ)) : Session κ (Outside κ ω) :=
  requests.foldl (fun s r => magitServerSendAsync M s r.1 r.2) s

/-- A callback is called, with what it does to the rest of the world. -/
def recordCall (s : Session κ (Outside κ ω)) (callback : κ)
    (msg : List (MsgpackObject × MsgpackObject)) (world : ω) : Session κ (Outside κ ω) :=
  { s with world := { s.world with world := world, calls := s.world.calls ++ [(callback, msg)] } }

/-- A client whose callbacks neither signal nor re-enter the filter: each does something to the
world and then sends requests of its own. -/
def quietLisp (M : Msgpack)
    (run : κ → List (MsgpackObject × MsgpackObject) → ω
      → ω × List (List (MsgpackObject × MsgpackObject) × κ)) : Lisp κ (Outside κ ω) where
  msgpackReadFromString := M.msgpackReadFromString
  funcall callback msg s :=
    let r := run callback msg s.world.world
    (sendAll M (recordCall s callback msg r.1) r.2, false)

/-! ## Where a session stands -/

/-- The callbacks that wait for an answer, the newest first. -/
def outstanding (sent : List (SentRequest κ)) (answered : List ℕ) : List (ℕ × κ) :=
  (sent.reverse.filter fun r => r.id ∉ answered).map fun r => (r.id, r.callback)

theorem mem_outstanding {sent : List (SentRequest κ)} {answered : List ℕ} {entry : ℕ × κ} :
    entry ∈ outstanding sent answered
      ↔ ∃ r ∈ sent, r.id ∉ answered ∧ (r.id, r.callback) = entry := by
  simp [outstanding, and_assoc]

/-- The session when the requests of `answered` have been answered: requests are numbered from 1,
the process was sent all of them, and the callbacks pending are those of the others. -/
structure Tracks (M : Msgpack) (s : Session κ (Outside κ ω)) (answered : List ℕ) : Prop where
  ids : s.world.sent.map SentRequest.id = List.range' 1 s.requestCounter
  written : s.world.written = s.world.sent.flatMap (SentRequest.packed M)
  pending : s.pendingCallbacks = outstanding s.world.sent answered
  answered : ∀ id ∈ answered, id ∈ s.world.sent.map SentRequest.id

variable {M : Msgpack} {s : Session κ (Outside κ ω)} {answered : List ℕ}

/-- Only which ids were answered matters. -/
theorem Tracks.congr (h : Tracks M s answered) {answered' : List ℕ}
    (hmem : ∀ id, id ∈ answered' ↔ id ∈ answered) : Tracks M s answered' where
  ids := h.ids
  written := h.written
  pending := h.pending.trans (by simp only [outstanding, hmem])
  answered id hid := h.answered id ((hmem id).mp hid)

theorem Tracks.nodup (h : Tracks M s answered) : (s.world.sent.map SentRequest.id).Nodup := by
  rw [h.ids]
  exact List.nodup_range'

theorem Tracks.eq_of_id (h : Tracks M s answered) {r r' : SentRequest κ} (hr : r ∈ s.world.sent)
    (hr' : r' ∈ s.world.sent) (hid : r.id = r'.id) : r = r' :=
  List.inj_on_of_nodup_map h.nodup hr hr' hid

/-- A new request gets an id that no request has had. -/
theorem Tracks.send (h : Tracks M s answered) (msg : List (MsgpackObject × MsgpackObject))
    (callback : κ) : Tracks M (magitServerSendAsync M s msg callback) answered := by
  have hnew : s.requestCounter + 1 ∉ answered := by
    intro hmem
    have hid := h.answered _ hmem
    rw [h.ids, List.mem_range'_1] at hid
    omega
  refine ⟨?_, ?_, ?_, fun id hid => ?_⟩
  · simp only [magitServerSendAsync, List.map_append, h.ids, List.map_cons, List.map_nil]
    rw [List.range'_concat, Nat.one_mul, Nat.add_comm 1]
  · simp only [magitServerSendAsync, List.flatMap_append, h.written, List.flatMap_singleton]
  · simp only [magitServerSendAsync, h.pending, outstanding, List.reverse_append,
      List.reverse_cons, List.reverse_nil, List.nil_append, List.singleton_append]
    rw [List.filter_cons_of_pos (by simpa using hnew)]
    rfl
  · rw [magitServerSendAsync, List.map_append]
    exact List.mem_append_left _ (h.answered id hid)

/-- Any number of requests keep track. -/
theorem Tracks.sendAll (h : Tracks M s answered)
    (requests : List (List (MsgpackObject × MsgpackObject) × κ)) :
    Tracks M (sendAll M s requests) answered := by
  induction requests generalizing s with
  | nil => exact h
  | cons r requests ih => exact ih (h.send r.1 r.2)

/-- Sending only adds to what was sent. -/
theorem sent_prefix_sendAll (s : Session κ (Outside κ ω))
    (requests : List (List (MsgpackObject × MsgpackObject) × κ)) :
    s.world.sent <+: (sendAll M s requests).world.sent := by
  induction requests generalizing s with
  | nil => exact List.prefix_rfl
  | cons r requests ih =>
    exact (List.prefix_append s.world.sent [_]).trans (ih (magitServerSendAsync M s r.1 r.2))

/-- Sending calls nothing back. -/
theorem calls_sendAll (s : Session κ (Outside κ ω))
    (requests : List (List (MsgpackObject × MsgpackObject) × κ)) :
    (sendAll M s requests).world.calls = s.world.calls := by
  induction requests generalizing s with
  | nil => rfl
  | cons r requests ih => exact ih _

variable [DecidableEq κ]

/-- The callback found for an unanswered request is its own, and exactly that entry goes. -/
theorem Tracks.findCallback (h : Tracks M s answered) {r : SentRequest κ} (hr : r ∈ s.world.sent)
    (hopen : r.id ∉ answered) {requestId : MsgpackObject}
    (hid : ∀ k, requestId.isNat k = true ↔ k = r.id) :
    magitServerFindCallback s.pendingCallbacks requestId
      = (some r.callback, outstanding s.world.sent (r.id :: answered)) := by
  have hmem : (r.id, r.callback) ∈ s.pendingCallbacks := by
    rw [h.pending]
    exact mem_outstanding.mpr ⟨r, hr, hopen, rfl⟩
  have hfind : (s.pendingCallbacks.find? fun entry => requestId.isNat entry.1)
      = some (r.id, r.callback) := by
    cases hf : s.pendingCallbacks.find? fun entry => requestId.isNat entry.1 with
    | none => exact absurd ((hid r.id).mpr rfl) (List.find?_eq_none.mp hf _ hmem)
    | some entry =>
      have hentry := List.mem_of_find?_eq_some hf
      have hnat : requestId.isNat entry.1 = true := by simpa using List.find?_some hf
      rw [h.pending, mem_outstanding] at hentry
      obtain ⟨r', hsent, -, rfl⟩ := hentry
      rw [h.eq_of_id hsent hr ((hid r'.id).mp hnat)]
  rw [magitServerFindCallback, hfind]
  refine congrArg (Prod.mk _) ?_
  rw [h.pending, outstanding, outstanding, List.filter_map, List.filter_filter]
  refine congrArg _ (List.filter_congr fun r' hr' => ?_)
  have hne : (r'.id, r'.callback) ≠ (r.id, r.callback) ↔ r'.id ≠ r.id := by
    refine ⟨fun hne hid' => hne ?_, fun hne heq => hne (Prod.mk.inj heq).1⟩
    rw [h.eq_of_id (List.mem_reverse.mp hr') hr hid']
  rw [Bool.eq_iff_iff]
  simp only [Function.comp_apply, Bool.and_eq_true, decide_eq_true_eq, List.mem_cons, not_or, hne]

omit [DecidableEq κ] in
/-- A callback only adds to what was sent. -/
theorem sent_prefix_funcall (run : κ → List (MsgpackObject × MsgpackObject) → ω
      → ω × List (List (MsgpackObject × MsgpackObject) × κ)) (callback : κ)
    (msg : List (MsgpackObject × MsgpackObject)) (s : Session κ (Outside κ ω)) :
    s.world.sent <+: ((quietLisp M run).funcall callback msg s).1.world.sent :=
  sent_prefix_sendAll (recordCall s callback msg _) _

/-- Whatever arrives, a dispatch takes back no request. -/
theorem sent_prefix_dispatch (run : κ → List (MsgpackObject × MsgpackObject) → ω
      → ω × List (List (MsgpackObject × MsgpackObject) × κ)) (s : Session κ (Outside κ ω))
    (payload : List UInt8) :
    s.world.sent <+: (dispatch (quietLisp M run) s payload).1.world.sent := by
  unfold dispatch
  split
  · split
    · exact List.prefix_rfl
    · split
      · exact List.prefix_rfl
      · next pending _ =>
        exact sent_prefix_funcall run _ _ { s with pendingCallbacks := pending }
  · exact List.prefix_rfl

/-- **A response to an unanswered request is dispatched to that request's callback**, which is
called with it and is then no longer pending. -/
theorem Tracks.dispatch (h : Tracks M s answered) (run : κ → List (MsgpackObject × MsgpackObject)
      → ω → ω × List (List (MsgpackObject × MsgpackObject) × κ))
    {r : SentRequest κ} (hr : r ∈ s.world.sent) (hopen : r.id ∉ answered) {payload : List UInt8}
    {msg : List (MsgpackObject × MsgpackObject)} {requestId : MsgpackObject}
    (hread : M.msgpackReadFromString payload = some (.map msg)) (hmsg : assq 0 msg = some requestId)
    (hid : ∀ k, requestId.isNat k = true ↔ k = r.id) :
    ∃ s', Client.dispatch (quietLisp M run) s payload = (s', false)
      ∧ Tracks M s' (answered ++ [r.id]) ∧ s.world.sent <+: s'.world.sent
      ∧ s'.world.calls = s.world.calls ++ [(r.callback, msg)] := by
  have hdispatch : Client.dispatch (quietLisp M run) s payload
      = (quietLisp M run).funcall r.callback msg
          { s with pendingCallbacks := outstanding s.world.sent (r.id :: answered) } := by
    rw [Client.dispatch, show (quietLisp M run).msgpackReadFromString payload = _ from hread]
    dsimp only
    rw [hmsg]
    dsimp only
    rw [h.findCallback hr hopen hid]
  let s₁ := recordCall { s with pendingCallbacks := outstanding s.world.sent (r.id :: answered) }
    r.callback msg (run r.callback msg s.world.world).1
  have htracks : Tracks M s₁ (r.id :: answered) := by
    refine ⟨h.ids, h.written, rfl, fun id hmem => ?_⟩
    rcases List.mem_cons.mp hmem with rfl | hmem
    · exact List.mem_map_of_mem hr
    · exact h.answered id hmem
  have htracks' : Tracks M s₁ (answered ++ [r.id]) := htracks.congr fun id => by
    rw [List.mem_append, List.mem_singleton, List.mem_cons, or_comm]
  exact ⟨_, hdispatch, htracks'.sendAll _, sent_prefix_sendAll s₁ _, calls_sendAll s₁ _⟩

end Magit.Client
