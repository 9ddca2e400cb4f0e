import Mathlib.Tactic.Common
import Magit.Framing.LengthPrefix

/-!
# Server/Parser — the message parser on the server's standard input

`consume_bytes` of `magit_server.c` keeps its place in the byte stream in globals that survive
between calls: a four-byte length buffer, a payload buffer, and two counters.  `Parser` is those
globals, `iteration` one round of the `while` loop, `consumeBytes` the loop.

The invariant is `kept`: the bytes the globals hold are exactly the bytes of the stream that belong
to no delivered payload (`iteration_spec`).  Since an iteration neither loses nor invents a byte,
the payloads handed on are the reference framing of the whole stream, however it is cut.
-/

namespace Magit.Server

open Framing

/-- `MAX_MESSAGE_SIZE` -/
def maxMessageSize : ℕ := 64 * 1024

/-- The bytes of a length. -/
def lengthSize : ℕ := 4

/-- `parser_state` -/
inductive ParserState
  | readLength
  | readPayload
  deriving DecidableEq, Repr

/-- A `char` array of fixed size. -/
abbrev Buffer (n : ℕ) := { bytes : List UInt8 // bytes.length = n }

namespace Buffer

variable {n : ℕ}

/-- Copying `src` to `dst + off`; `none` where the copy would leave the array. -/
def memcpy (dst : Buffer n) (off : ℕ) (src : List UInt8) : Option (Buffer n) :=
  if h : off + src.length ≤ n then
    some ⟨dst.1.take off ++ (src ++ dst.1.drop (off + src.length)), by
      have := dst.2
      simp only [List.length_append, List.length_take, List.length_drop]
      omega⟩
  else none

/-- **A copy that fits extends the filled front of the array by what is copied.** -/
theorem exists_memcpy (dst : Buffer n) {off : ℕ} {src : List UInt8} (h : off + src.length ≤ n) :
    ∃ dst', dst.memcpy off src = some dst'
      ∧ dst'.1.take (off + src.length) = dst.1.take off ++ src := by
  have hoff : (dst.1.take off).length = off := by
    rw [List.length_take, dst.2]
    omega
  refine ⟨_, dif_pos h, ?_⟩
  change (dst.1.take off ++ (src ++ dst.1.drop (off + src.length))).take (off + src.length) = _
  rw [← List.append_assoc, List.take_left' (by rw [List.length_append, hoff])]

end Buffer

/-- The globals of the parser. -/
structure Parser where
  gState : ParserState
  gLengthBuf : Buffer lengthSize
  gLengthReceived : ℕ
  gPayloadBuf : Buffer maxMessageSize
  gPayloadLength : ℕ
  gPayloadReceived : ℕ

namespace Parser

/-- The globals when the program starts: zeroed, waiting for a length. -/
def initial : Parser where
  gState := .readLength
  gLengthBuf := ⟨List.replicate lengthSize 0, List.length_replicate⟩
  gLengthReceived := 0
  gPayloadBuf := ⟨List.replicate maxMessageSize 0, List.length_replicate⟩
  gPayloadLength := 0
  gPayloadReceived := 0

/-- `reset_parser`; the buffers keep their bytes. -/
def resetParser (p : Parser) : Parser :=
  { p with
    gState := .readLength
    gLengthReceived := 0
    gPayloadLength := 0
    gPayloadReceived := 0 }

end Parser

/-- How one round of the loop of `consume_bytes` ends: a copy left its buffer, `protocol_error` was
called and the function returned, or the loop goes on with the bytes not consumed, having handed
payloads to `msgpack_handler_recv`. -/
inductive Flow
  | fault
  | stop (p : Parser) (msg : String)
  | next (p : Parser) (data : List UInt8) (recv : List (List UInt8))

/-- The `READ_LENGTH` block of the loop body. -/
def lengthBlock (p : Parser) (data : List UInt8) : Flow :=
  let copy := min (lengthSize - p.gLengthReceived) data.length
  match p.gLengthBuf.memcpy p.gLengthReceived (data.take copy) with
  | none => .fault
  | some buf =>
    let p := { p with gLengthBuf := buf, gLengthReceived := p.gLengthReceived + copy }
    if p.gLengthReceived < lengthSize then
      .next p (data.drop copy) []
    else
      let p := { p with gPayloadLength := ofBe32 buf.1 }
      if p.gPayloadLength = 0 then
        .stop p "zero length message"
      else if p.gPayloadLength > maxMessageSize then
        .stop p "message too large"
      else
        .next { p with gPayloadReceived := 0, gState := .readPayload } (data.drop copy) []

/-- The `READ_PAYLOAD` block of the loop body. -/
def payloadBlock (p : Parser) (data : List UInt8) : Flow :=
  let copy := min (p.gPayloadLength - p.gPayloadReceived) data.length
  match p.gPayloadBuf.memcpy p.gPayloadReceived (data.take copy) with
  | none => .fault
  | some buf =>
    let p := { p with gPayloadBuf := buf, gPayloadReceived := p.gPayloadReceived + copy }
    if p.gPayloadReceived < p.gPayloadLength then
      .next p (data.drop copy) []
    else
      .next p.resetParser (data.drop copy) [buf.1.take p.gPayloadLength]

/-- One round of the loop: each block runs if its state is current when it is reached. -/
def iteration (p : Parser) (data : List UInt8) : Flow :=
  match p.gState with
  | .readPayload => payloadBlock p data
  | .readLength =>
    match lengthBlock p data with
    | .fault => .fault
    | .stop p msg => .stop p msg
    | .next p data recv =>
      match p.gState with
      | .readPayload => payloadBlock p data
      | .readLength => .next p data recv

/-! ## The loop ends

A round either consumes input or hands a payload on and goes back to reading a length. -/

/-- What a round lowers: the bytes left, and whether a payload is being read. -/
def loopMeasure (p : Parser) (data : List UInt8) : ℕ :=
  2 * data.length + (if p.gState = .readPayload then 1 else 0)

/-- What the length block can do. -/
theorem lengthBlock_next {p p' : Parser} {data data' : List UInt8} {recv : List (List UInt8)}
    (h : lengthBlock p data = .next p' data' recv) :
    ∃ copy buf, copy = min (lengthSize - p.gLengthReceived) data.length
      ∧ p.gLengthBuf.memcpy p.gLengthReceived (data.take copy) = some buf
      ∧ data' = data.drop copy ∧ recv = []
      ∧ ((p.gLengthReceived + copy < lengthSize
          ∧ p' = { p with gLengthBuf := buf, gLengthReceived := p.gLengthReceived + copy })
        ∨ (lengthSize ≤ p.gLengthReceived + copy ∧ 0 < ofBe32 buf.1
          ∧ ofBe32 buf.1 ≤ maxMessageSize
          ∧ p' = { p with
              gState := .readPayload
              gLengthBuf := buf
              gLengthReceived := p.gLengthReceived + copy
              gPayloadLength := ofBe32 buf.1
              gPayloadReceived := 0 })) := by
  unfold lengthBlock at h
  simp only at h
  split at h
  · cases h
  · next buf hbuf =>
    refine ⟨_, buf, rfl, hbuf, ?_⟩
    split at h
    · next hlt =>
      cases h
      exact ⟨rfl, rfl, .inl ⟨hlt, rfl⟩⟩
    · next hge =>
      split at h
      · cases h
      · split at h
        · cases h
        · cases h
          exact ⟨rfl, rfl, .inr ⟨by omega, by omega, by omega, rfl⟩⟩

/-- What the payload block can do; it never rejects anything. -/
theorem payloadBlock_next {p p' : Parser} {data data' : List UInt8} {recv : List (List UInt8)}
    (h : payloadBlock p data = .next p' data' recv) :
    ∃ copy buf, copy = min (p.gPayloadLength - p.gPayloadReceived) data.length
      ∧ p.gPayloadBuf.memcpy p.gPayloadReceived (data.take copy) = some buf
      ∧ data' = data.drop copy
      ∧ ((p.gPayloadReceived + copy < p.gPayloadLength ∧ recv = []
          ∧ p' = { p with gPayloadBuf := buf, gPayloadReceived := p.gPayloadReceived + copy })
        ∨ (p.gPayloadLength ≤ p.gPayloadReceived + copy
          ∧ recv = [buf.1.take p.gPayloadLength]
          ∧ p' = { p with gPayloadBuf := buf }.resetParser)) := by
  unfold payloadBlock at h
  simp only at h
  split at h
  · cases h
  · next buf hbuf =>
    refine ⟨_, buf, rfl, hbuf, ?_⟩
    split at h
    · next hlt =>
      cases h
      exact ⟨rfl, .inl ⟨hlt, rfl, rfl⟩⟩
    · next hge =>
      cases h
      exact ⟨rfl, .inr ⟨by omega, rfl, rfl⟩⟩

/-- **Every round of the loop makes progress**, from any globals. -/
theorem iteration_decreases {p p' : Parser} {data data' : List UInt8} {recv : List (List UInt8)}
    (hd : data ≠ []) (h : iteration p data = .next p' data' recv) :
    loopMeasure p' data' < loopMeasure p data := by
  have hpos : 0 < data.length := List.length_pos_iff.mpr hd
  unfold iteration at h
  split at h
  · next hs =>
    obtain ⟨copy, buf, hcopy, -, rfl, ⟨hlt, -, rfl⟩ | ⟨-, -, rfl⟩⟩ := payloadBlock_next h
    · simp only [loopMeasure, hs, if_true, List.length_drop]
      omega
    · simp only [loopMeasure, hs, if_true, List.length_drop, Parser.resetParser,
        reduceCtorEq, if_false]
      omega
  · next hs =>
    split at h
    · cases h
    · cases h
    · next p₁ data₁ recv₁ hl =>
      obtain ⟨copy, buf, hcopy, -, rfl, rfl, ⟨hlt, rfl⟩ | ⟨-, hpos', -, rfl⟩⟩ := lengthBlock_next hl
      · simp only [hs] at h
        cases h
        simp only [loopMeasure, hs, reduceCtorEq, if_false, List.length_drop]
        omega
      · obtain ⟨copy₂, buf₂, hcopy₂, -, rfl, ⟨hlt, -, rfl⟩ | ⟨hge, -, rfl⟩⟩ := payloadBlock_next h
        · simp only [loopMeasure, hs, if_true, reduceCtorEq, if_false, List.length_drop] at *
          omega
        · simp only [loopMeasure, hs, Parser.resetParser, reduceCtorEq, if_false,
            List.length_drop] at *
          omega

/-- What a call of `consume_bytes` leaves: the globals, the payloads handed to
`msgpack_handler_recv` in order, and the message of `protocol_error` if that ended the call. -/
structure Consumed where
  parser : Parser
  recv : List (List UInt8)
  error : Option String

/-- `consume_bytes`; `none` would be a copy outside its buffer. -/
def consumeBytes (p : Parser) (data : List UInt8) : Option Consumed :=
  if _hd : data = [] then some ⟨p, [], none⟩
  else
    match _h : iteration p data with
    | .fault => none
    | .stop p' msg => some ⟨p', [], some msg⟩
    | .next p' data' recv =>
      (consumeBytes p' data').map fun r => { r with recv := recv ++ r.recv }
termination_by loopMeasure p data
decreasing_by exact iteration_decreases ‹_› ‹_›

/-- `read_stdin`: an error or an empty read leaves the parser alone. -/
def readStdin (p : Parser) (nread : ℤ) (base : List UInt8) : Option Consumed :=
  if nread < 0 then some ⟨p, [], none⟩
  else if nread = 0 then some ⟨p, [], none⟩
  else consumeBytes p (base.take nread.toNat)

/-- Chunks consumed one after another: the globals and all payloads handed on. -/
def consumeChunks : Parser → List (List UInt8) → Option (Parser × List (List UInt8))
  | p, [] => some (p, [])
  | p, chunk :: chunks => do
    let r ← consumeBytes p chunk
    let (p', recv) ← consumeChunks r.parser chunks
    return (p', r.recv ++ recv)

/-! ## The bytes the globals hold

Between two rounds the globals are in one of three conditions.  `kept` reads off the bytes of the
stream they hold, and a round hands on exactly the bytes it removes from them. -/

/-- The lengths the parser goes on with. -/
def validLength (n : ℕ) : Bool := 0 < n && n ≤ maxMessageSize

theorem validLength_iff {n : ℕ} : validLength n ↔ 0 < n ∧ n ≤ maxMessageSize := by
  simp [validLength]

/-- The reference framing: four bytes of length, that many bytes of payload, and no frame at all
where the length is not valid. -/
def reference : FrameReader UInt8 (List UInt8) := lengthPrefixed validLength

namespace Parser

/-- Some of the four length bytes are there. -/
structure Waiting (p : Parser) : Prop where
  state : p.gState = .readLength
  length_received : p.gLengthReceived < lengthSize
  payload_length : p.gPayloadLength = 0
  payload_received : p.gPayloadReceived = 0

/-- A valid length is there and some of its payload. -/
structure Receiving (p : Parser) : Prop where
  state : p.gState = .readPayload
  length_received : p.gLengthReceived = lengthSize
  payload_length : p.gPayloadLength = ofBe32 p.gLengthBuf.1
  valid : validLength p.gPayloadLength
  payload_received : p.gPayloadReceived < p.gPayloadLength

/-- `protocol_error` was called on the length that is there. -/
structure Rejected (p : Parser) : Prop where
  state : p.gState = .readLength
  length_received : p.gLengthReceived = lengthSize
  payload_length : p.gPayloadLength = ofBe32 p.gLengthBuf.1
  invalid : ¬ validLength p.gPayloadLength
  payload_received : p.gPayloadReceived = 0

/-- The parser goes on reading. -/
def Live (p : Parser) : Prop := p.Waiting ∨ p.Receiving

/-- The bytes of the stream that the globals hold. -/
def kept (p : Parser) : List UInt8 :=
  match p.gState with
  | .readLength => p.gLengthBuf.1.take p.gLengthReceived
  | .readPayload => p.gLengthBuf.1 ++ p.gPayloadBuf.1.take p.gPayloadReceived

theorem kept_readLength {p : Parser} (h : p.gState = .readLength) :
    p.kept = p.gLengthBuf.1.take p.gLengthReceived := by rw [kept, h]

theorem kept_readPayload {p : Parser} (h : p.gState = .readPayload) :
    p.kept = p.gLengthBuf.1 ++ p.gPayloadBuf.1.take p.gPayloadReceived := by rw [kept, h]

theorem waiting_initial : initial.Waiting := ⟨rfl, by decide, rfl, rfl⟩

theorem waiting_resetParser (p : Parser) : p.resetParser.Waiting :=
  ⟨rfl, Nat.zero_lt_succ 3, rfl, rfl⟩

theorem kept_resetParser (p : Parser) : p.resetParser.kept = [] := rfl

end Parser

/-- The copy of the length block stays inside the length buffer. -/
theorem lengthCopy_le {p : Parser} (h : p.gLengthReceived ≤ lengthSize) (data : List UInt8) :
    p.gLengthReceived
      + (data.take (min (lengthSize - p.gLengthReceived) data.length)).length ≤ lengthSize := by
  rw [List.length_take]
  omega

/-- The copy of the payload block stays inside the payload buffer. -/
theorem payloadCopy_le {p : Parser} (h : p.Receiving) (data : List UInt8) :
    p.gPayloadReceived
      + (data.take (min (p.gPayloadLength - p.gPayloadReceived) data.length)).length
        ≤ maxMessageSize := by
  have hv := (validLength_iff.mp h.valid).2
  have hr := h.payload_received
  rw [List.length_take]
  omega

/-- **The payload block hands on exactly the bytes it takes off the kept ones.** -/
theorem payloadBlock_spec {p : Parser} (hp : p.Receiving) (data : List UInt8) :
    ∃ p' data' recv, payloadBlock p data = .next p' data' recv ∧ p'.Live
      ∧ (∀ b ∈ recv, validLength b.length)
      ∧ p.kept ++ data = recv.flatMap encode ++ (p'.kept ++ data') := by
  obtain ⟨buf, hbuf, htake⟩ := p.gPayloadBuf.exists_memcpy (payloadCopy_le hp data)
  have hr := hp.payload_received
  have hcopied := htake
  rw [List.length_take] at hcopied
  set copy := min (p.gPayloadLength - p.gPayloadReceived) data.length with hcopy
  have hmin : min copy data.length = copy := by omega
  rw [hmin] at hcopied
  simp only [payloadBlock, ← hcopy, hbuf]
  split
  · next hlt =>
    refine ⟨_, _, _, rfl, .inr ⟨hp.state, hp.length_received, hp.payload_length, hp.valid, hlt⟩,
      by simp, ?_⟩
    rw [Parser.kept_readPayload hp.state]
    simp only [Parser.kept, hp.state, hcopied, List.flatMap_nil, List.nil_append,
      List.append_assoc, List.take_append_drop]
  · next hge =>
    have hfull : p.gPayloadReceived + copy = p.gPayloadLength := by omega
    have hlen : (buf.1.take p.gPayloadLength).length = p.gPayloadLength := by
      have := (validLength_iff.mp hp.valid).2
      rw [List.length_take, buf.2]
      omega
    refine ⟨_, _, _, rfl, .inl (Parser.waiting_resetParser _), by simpa [hlen] using hp.valid, ?_⟩
    have hbytes : be32 p.gPayloadLength = p.gLengthBuf.1 := by
      rw [hp.payload_length]
      exact (be32_ofBe32 p.gLengthBuf.2.ge).trans (List.take_of_length_le p.gLengthBuf.2.le)
    rw [Parser.kept_readPayload hp.state, Parser.kept_resetParser, List.flatMap_singleton, encode,
      hlen, hbytes, ← hfull, hcopied, List.append_assoc, List.append_assoc, List.append_assoc,
      List.nil_append, List.take_append_drop]

/-- What the length block leaves behind: part of a length, a valid one, or a rejected one. -/
theorem lengthBlock_spec {p : Parser} (hs : p.gState = .readLength)
    (hl : p.gLengthReceived ≤ lengthSize) (h0 : p.gPayloadReceived = 0) (data : List UInt8) :
    (∃ p' msg, lengthBlock p data = .stop p' msg ∧ p'.Rejected
        ∧ ∃ lost, p.kept ++ data = p'.kept ++ lost)
      ∨ ∃ p' data', lengthBlock p data = .next p' data' []
        ∧ (p'.Receiving ∨ p'.gState = .readLength ∧ p.gLengthReceived ≤ p'.gLengthReceived
            ∧ p'.gLengthReceived < lengthSize ∧ p'.gPayloadLength = p.gPayloadLength
            ∧ p'.gPayloadReceived = 0)
        ∧ p.kept ++ data = p'.kept ++ data' := by
  obtain ⟨buf, hbuf, htake⟩ := p.gLengthBuf.exists_memcpy (lengthCopy_le hl data)
  rw [List.length_take] at htake
  set copy := min (lengthSize - p.gLengthReceived) data.length with hcopy
  rw [show min copy data.length = copy by omega] at htake
  have hkept : p.kept ++ data = buf.1.take (p.gLengthReceived + copy) ++ data.drop copy := by
    rw [Parser.kept_readLength hs, htake, List.append_assoc, List.take_append_drop]
  simp only [lengthBlock, ← hcopy, hbuf]
  split
  · next hlt =>
    refine .inr ⟨_, _, rfl, .inr ⟨hs, Nat.le_add_right _ _, hlt, rfl, h0⟩, ?_⟩
    rw [hkept]; simp only [Parser.kept, hs]
  · next hge =>
    have hfull : p.gLengthReceived + copy = lengthSize := by omega
    split
    · next hz =>
      refine .inl ⟨_, _, rfl, ⟨hs, hfull, rfl, by simp [hz, validLength], h0⟩, data.drop copy, ?_⟩
      rw [hkept]; simp only [Parser.kept, hs]
    · next hz =>
      split
      · next hbig =>
        refine .inl ⟨_, _, rfl, ⟨hs, hfull, rfl, ?_, h0⟩, data.drop copy, ?_⟩
        · exact fun hv => absurd (validLength_iff.mp hv).2 (Nat.not_le.mpr hbig)
        · rw [hkept]; simp only [Parser.kept, hs]
      · next hsmall =>
        refine .inr ⟨_, _, rfl, .inl ⟨rfl, hfull, rfl, ?_, Nat.pos_of_ne_zero hz⟩, ?_⟩
        · exact validLength_iff.mpr ⟨Nat.pos_of_ne_zero hz, Nat.le_of_not_lt hsmall⟩
        · rw [hkept, Parser.kept_readPayload rfl, hfull,
            List.take_of_length_le buf.2.le, List.take_zero, List.append_nil]

/-- **A round hands on exactly the bytes it takes off the kept ones**, and no copy of it leaves a
buffer; or it rejects a length, and drops what came after. -/
theorem iteration_spec {p : Parser} (hp : p.Live) (data : List UInt8) :
    (∃ p' msg, iteration p data = .stop p' msg ∧ p'.Rejected
        ∧ ∃ lost, p.kept ++ data = p'.kept ++ lost)
      ∨ ∃ p' data' recv, iteration p data = .next p' data' recv ∧ p'.Live
        ∧ (∀ b ∈ recv, validLength b.length)
        ∧ p.kept ++ data = recv.flatMap encode ++ (p'.kept ++ data') := by
  obtain hw | hr := hp
  · simp only [iteration, hw.state]
    obtain ⟨p', msg, h, hrej, hk⟩ | ⟨p', data', h, hnext, hk⟩ :=
      lengthBlock_spec hw.state hw.length_received.le hw.payload_received data
    · exact .inl ⟨p', msg, by rw [h], hrej, hk⟩
    · rw [h]
      obtain hr | ⟨hs, -, hlt, hpl, hpr⟩ := hnext
      · obtain ⟨p₂, data₂, recv, h₂, hlive, hvalid, hk₂⟩ := payloadBlock_spec hr data'
        simp only [hr.state]
        exact .inr ⟨p₂, data₂, recv, h₂, hlive, hvalid, hk.trans hk₂⟩
      · simp only [hs]
        exact .inr ⟨p', data', [], rfl, .inl ⟨hs, hlt, hpl.trans hw.payload_length, hpr⟩,
          by simp, hk⟩
  · simp only [iteration, hr.state]
    exact .inr (payloadBlock_spec hr data)

/-! ## Calls, chunks and the reference framing -/

namespace Parser

theorem Rejected.kept_eq {p : Parser} (h : p.Rejected) : p.kept = p.gLengthBuf.1 := by
  rw [kept_readLength h.state, h.length_received, List.take_of_length_le p.gLengthBuf.2.le]

theorem Rejected.ofBe32_kept {p : Parser} (h : p.Rejected) (ys : List UInt8) :
    ofBe32 (p.kept ++ ys) = p.gPayloadLength := by
  rw [h.kept_eq, ofBe32_append p.gLengthBuf.2.ge, h.payload_length]

theorem Receiving.ofBe32_kept {p : Parser} (h : p.Receiving) (ys : List UInt8) :
    ofBe32 (p.kept ++ ys) = p.gPayloadLength := by
  rw [kept_readPayload h.state, List.append_assoc, ofBe32_append p.gLengthBuf.2.ge,
    h.payload_length]

/-- No frame ever starts at a rejected length. -/
theorem Rejected.next_kept {p : Parser} (h : p.Rejected) (ys : List UInt8) :
    reference.next (p.kept ++ ys) = none :=
  if_neg fun hc => h.invalid (h.ofBe32_kept ys ▸ hc.2.1)

/-- The kept bytes are less than a frame. -/
theorem Live.next_kept {p : Parser} (h : p.Live) : reference.next p.kept = none := by
  refine if_neg fun hc => ?_
  obtain hw | hr := h
  · have hlen := hc.1
    have hlt : p.gLengthReceived < 4 := hw.length_received
    rw [kept_readLength hw.state, List.length_take] at hlen
    omega
  · have hle : 4 + ofBe32 (p.kept ++ []) ≤ p.kept.length := by
      rw [List.append_nil]
      exact hc.2.2
    have hbuf : p.gLengthBuf.1.length = 4 := p.gLengthBuf.2
    have hlt := hr.payload_received
    rw [hr.ofBe32_kept, kept_readPayload hr.state, List.length_append, List.length_take] at hle
    omega

end Parser

/-- **A rejected parser rejects the same length again**, whatever comes. -/
theorem iteration_of_rejected {p : Parser} (h : p.Rejected) (data : List UInt8) :
    ∃ p' msg, iteration p data = .stop p' msg ∧ p'.Rejected := by
  simp only [iteration, h.state]
  obtain ⟨p', msg, h', hrej, -⟩ | ⟨p', data', -, hr | ⟨-, hge, hlt, -⟩, hk⟩ :=
    lengthBlock_spec h.state h.length_received.le h.payload_received data
  · exact ⟨p', msg, by rw [h'], hrej⟩
  · have hlen : p.gPayloadLength = p'.gPayloadLength := by
      rw [← h.ofBe32_kept data, hk, hr.ofBe32_kept]
    exact absurd (hlen ▸ hr.valid) h.invalid
  · exact absurd h.length_received (by omega)

theorem consumeBytes_nil (p : Parser) : consumeBytes p [] = some ⟨p, [], none⟩ := by
  rw [consumeBytes, dif_pos rfl]

theorem consumeBytes_of_stop {p p' : Parser} {data : List UInt8} {msg : String} (hd : data ≠ [])
    (h : iteration p data = .stop p' msg) : consumeBytes p data = some ⟨p', [], some msg⟩ := by
  rw [consumeBytes, dif_neg hd]
  split <;> simp_all

theorem consumeBytes_of_next {p p' : Parser} {data data' : List UInt8} {recv : List (List UInt8)}
    (hd : data ≠ []) (h : iteration p data = .next p' data' recv) :
    consumeBytes p data
      = (consumeBytes p' data').map fun r => { r with recv := recv ++ r.recv } := by
  conv_lhs => rw [consumeBytes, dif_neg hd]
  split <;> simp_all

/-- How a call of `consume_bytes` ends, for the kept and the arrived bytes `xs`: it hands on the
reference frames of `xs` and either keeps the rest or stands at a rejected length. -/
structure Consumed.Tracks (r : Consumed) (xs : List UInt8) : Prop where
  recv : r.recv = reference.frames xs
  kept : (r.error = none ∧ r.parser.Live ∧ r.parser.kept = reference.rest xs)
    ∨ (r.error.isSome ∧ r.parser.Rejected ∧ ∃ lost, reference.rest xs = r.parser.kept ++ lost)

/-- **A call hands on the reference frames of what was kept and what came**, and keeps the rest;
or it stands at a rejected length, having handed on the frames before it. -/
theorem consumeBytes_live (p : Parser) (hp : p.Live) (data : List UInt8) :
    ∃ r, consumeBytes p data = some r ∧ r.Tracks (p.kept ++ data) := by
  by_cases hd : data = []
  · subst hd
    refine ⟨_, consumeBytes_nil p, ?_, .inl ⟨rfl, hp, ?_⟩⟩
    · rw [List.append_nil, FrameReader.frames_of_none hp.next_kept]
    · rw [List.append_nil, FrameReader.rest_of_none hp.next_kept]
  obtain ⟨p', msg, h, hrej, lost, hk⟩ | ⟨p', data', recv, h, hlive, hvalid, hk⟩ :=
    iteration_spec hp data
  · refine ⟨_, consumeBytes_of_stop hd h, ?_, .inr ⟨rfl, hrej, lost, ?_⟩⟩
    · rw [hk, FrameReader.frames_of_none (hrej.next_kept lost)]
    · rw [hk, FrameReader.rest_of_none (hrej.next_kept lost)]
  · have hdec := iteration_decreases hd h
    obtain ⟨r, hr, htr⟩ := consumeBytes_live p' hlive data'
    have hok : ∀ b ∈ recv, b.length < 2 ^ 32 ∧ validLength b.length := fun b hb =>
      ⟨by
        have := (validLength_iff.mp (hvalid b hb)).2
        simp only [maxMessageSize] at this
        omega, hvalid b hb⟩
    have hframes :
        reference.frames (p.kept ++ data) = recv ++ reference.frames (p'.kept ++ data') :=
      hk ▸ frames_encode_append validLength hok _
    have hrest : reference.rest (p.kept ++ data) = reference.rest (p'.kept ++ data') :=
      hk ▸ rest_encode_append validLength hok _
    refine ⟨_, (consumeBytes_of_next hd h).trans (by rw [hr]; rfl), ?_, ?_⟩
    · rw [hframes, ← htr.recv]
    · rw [hrest]
      exact htr.kept
termination_by loopMeasure p data

/-- **Nothing is delivered after a rejected length**, and no copy leaves a buffer. -/
theorem consumeBytes_rejected {p : Parser} (hp : p.Rejected) (data : List UInt8) :
    ∃ r, consumeBytes p data = some r ∧ r.recv = [] ∧ r.parser.Rejected := by
  by_cases hd : data = []
  · subst hd
    exact ⟨_, consumeBytes_nil p, rfl, hp⟩
  · obtain ⟨p', msg, h, hrej⟩ := iteration_of_rejected hp data
    exact ⟨_, consumeBytes_of_stop hd h, rfl, hrej⟩

/-- A parser that rejected a length delivers nothing any more. -/
theorem consumeChunks_rejected {p : Parser} (hp : p.Rejected) (chunks : List (List UInt8)) :
    ∃ p', consumeChunks p chunks = some (p', []) ∧ p'.Rejected := by
  induction chunks generalizing p with
  | nil => exact ⟨p, rfl, hp⟩
  | cons chunk chunks ih =>
    obtain ⟨r, hr, hrecv, hrej⟩ := consumeBytes_rejected hp chunk
    obtain ⟨p', hp', hrej'⟩ := ih hrej
    exact ⟨p', by simp [consumeChunks, hr, hp', hrecv], hrej'⟩

/-- The globals after any number of rounds of the loop, over any calls. -/
inductive Reachable : Parser → Prop
  | initial : Reachable .initial
  | next {p p' : Parser} {data data' : List UInt8} {recv : List (List UInt8)} :
      Reachable p → iteration p data = .next p' data' recv → Reachable p'
  | stop {p p' : Parser} {data : List UInt8} {msg : String} :
      Reachable p → iteration p data = .stop p' msg → Reachable p'

/-- **Every reachable parser is reading, or stands at a rejected length.** -/
theorem Reachable.live_or_rejected {p : Parser} (h : Reachable p) : p.Live ∨ p.Rejected := by
  induction h with
  | initial => exact .inl (.inl Parser.waiting_initial)
  | @next p p' data data' recv _ hit ih =>
    obtain hl | hr := ih
    · obtain ⟨p₁, msg, h₁, -⟩ | ⟨p₁, data₁, recv₁, h₁, hlive, -⟩ := iteration_spec hl data
      · cases h₁.symm.trans hit
      · cases h₁.symm.trans hit
        exact .inl hlive
    · obtain ⟨p₁, msg, h₁, -⟩ := iteration_of_rejected hr data
      cases h₁.symm.trans hit
  | @stop p p' data msg _ hit ih =>
    obtain hl | hr := ih
    · obtain ⟨p₁, msg₁, h₁, hrej, -⟩ | ⟨p₁, data₁, recv₁, h₁, -⟩ := iteration_spec hl data
      · cases h₁.symm.trans hit
        exact .inr hrej
      · cases h₁.symm.trans hit
    · obtain ⟨p₁, msg₁, h₁, hrej⟩ := iteration_of_rejected hr data
      cases h₁.symm.trans hit
      exact .inr hrej

/-- A parser stays reachable when it consumes bytes. -/
theorem Reachable.consumeBytes {p : Parser} (hp : Reachable p) {data : List UInt8} {r : Consumed}
    (h : consumeBytes p data = some r) : Reachable r.parser := by
  by_cases hd : data = []
  · subst hd
    obtain rfl := Option.some.inj ((consumeBytes_nil p).symm.trans h)
    exact hp
  cases hit : iteration p data with
  | fault =>
    rw [Server.consumeBytes, dif_neg hd] at h
    split at h <;> simp_all
  | stop p' msg =>
    obtain rfl := Option.some.inj ((consumeBytes_of_stop hd hit).symm.trans h)
    exact hp.stop hit
  | next p' data' recv =>
    have hdec := iteration_decreases hd hit
    rw [consumeBytes_of_next hd hit, Option.map_eq_some_iff] at h
    obtain ⟨r', hr', rfl⟩ := h
    have hreach : Reachable r'.parser := (hp.next hit).consumeBytes hr'
    exact hreach
termination_by loopMeasure p data

/-- The globals stay where both copies are safe. -/
structure Parser.InBounds (p : Parser) : Prop where
  length_received : p.gLengthReceived ≤ lengthSize
  payload_received : p.gPayloadReceived ≤ p.gPayloadLength
  payload_length : p.gPayloadLength ≤ maxMessageSize ∨ p.Rejected
  no_fault : ∀ data, iteration p data ≠ .fault

/-- **A reachable parser stays within its buffers.** -/
theorem Reachable.inBounds {p : Parser} (h : Reachable p) : p.InBounds := by
  obtain hl | hr := h.live_or_rejected
  · refine ⟨?_, ?_, .inl ?_, fun data hf => ?_⟩
    · exact hl.elim (fun hw => hw.length_received.le) fun hr => hr.length_received.le
    · exact hl.elim (fun hw => hw.payload_received.trans_le (Nat.zero_le _))
        fun hr => hr.payload_received.le
    · exact hl.elim (fun hw => hw.payload_length.trans_le (Nat.zero_le _))
        fun hr => (validLength_iff.mp hr.valid).2
    · obtain ⟨_, _, h', -⟩ | ⟨_, _, _, h', -⟩ := iteration_spec hl data <;>
        exact Flow.noConfusion (h'.symm.trans hf)
  · refine ⟨hr.length_received.le, hr.payload_received.trans_le (Nat.zero_le _), .inr hr,
      fun data hf => ?_⟩
    obtain ⟨_, _, h', -⟩ := iteration_of_rejected hr data
    exact Flow.noConfusion (h'.symm.trans hf)

/-- Chunks after chunks hand on the reference frames of the kept bytes and all of theirs. -/
theorem consumeChunks_live {p : Parser} (hp : p.Live) (chunks : List (List UInt8)) :
    ∃ p', consumeChunks p chunks = some (p', reference.frames (p.kept ++ chunks.flatten)) := by
  induction chunks generalizing p with
  | nil =>
    refine ⟨p, ?_⟩
    rw [List.flatten_nil, List.append_nil, FrameReader.frames_of_none hp.next_kept]
    rfl
  | cons chunk chunks ih =>
    obtain ⟨r, hr, hrecv, ⟨-, hlive, hkept⟩ | ⟨-, hrej, lost, hlost⟩⟩ :=
      consumeBytes_live p hp chunk
    · obtain ⟨p', hp'⟩ := ih hlive
      refine ⟨p', ?_⟩
      rw [List.flatten_cons, ← List.append_assoc, reference.frames_append, ← hrecv, ← hkept]
      simp [consumeChunks, hr, hp']
    · obtain ⟨p', hp', -⟩ := consumeChunks_rejected hrej chunks
      refine ⟨p', ?_⟩
      rw [List.flatten_cons, ← List.append_assoc, reference.frames_append, ← hrecv, hlost,
        List.append_assoc, FrameReader.frames_of_none (hrej.next_kept _)]
      simp [consumeChunks, hr, hp']

/-- A parser stays reachable when it consumes any number of chunks. -/
theorem Reachable.consumeChunks {p p' : Parser} (hp : Reachable p) {chunks : List (List UInt8)}
    {recv : List (List UInt8)} (h : consumeChunks p chunks = some (p', recv)) : Reachable p' := by
  induction chunks generalizing p recv with
  | nil =>
    obtain ⟨rfl, -⟩ := Prod.mk.inj (Option.some.inj h)
    exact hp
  | cons chunk chunks ih =>
    simp only [Server.consumeChunks, Option.bind_eq_bind, Option.bind_eq_some_iff,
      Option.pure_def, Option.some.injEq, Prod.mk.injEq] at h
    obtain ⟨r, hr, ⟨q, recv'⟩, hq, rfl, -⟩ := h
    exact ih (hp.consumeBytes hr) hq

/-- **Server framing is independent of chunking.**  However a stream is cut, the payloads handed on
are its reference frames; the globals stay in bounds, `g_payload_length` exceeding the buffer only
while it holds a rejected length; and after a rejected length nothing is ever handed on. -/
theorem framing_independent_of_chunking :
    (∀ chunks, ∃ p, consumeChunks .initial chunks = some (p, reference.frames chunks.flatten)
        ∧ Reachable p)
      ∧ (∀ p, Reachable p → p.InBounds)
      ∧ ∀ p data r, Reachable p → consumeBytes p data = some r → r.error.isSome →
          ∀ chunks, ∃ p', consumeChunks r.parser chunks = some (p', []) := by
  refine ⟨fun chunks => ?_, fun p => Reachable.inBounds, fun p data r hp hr herr chunks => ?_⟩
  · obtain ⟨p, hp⟩ := consumeChunks_live (.inl Parser.waiting_initial) chunks
    exact ⟨p, hp, Reachable.initial.consumeChunks hp⟩
  · have hrej : r.parser.Rejected := by
      obtain hl | hj := hp.live_or_rejected
      · obtain ⟨r', hr', -, ⟨hnone, -⟩ | ⟨-, hrej, -⟩⟩ := consumeBytes_live p hl data
        · obtain rfl := Option.some.inj (hr'.symm.trans hr)
          exact absurd herr (by simp [hnone])
        · obtain rfl := Option.some.inj (hr'.symm.trans hr)
          exact hrej
      · obtain ⟨r', hr', -, hrej⟩ := consumeBytes_rejected hj data
        obtain rfl := Option.some.inj (hr'.symm.trans hr)
        exact hrej
    obtain ⟨p', hp', -⟩ := consumeChunks_rejected hrej chunks
    exact ⟨p', hp'⟩

/-- The length of a message too large stays in `g_payload_length`. -/
theorem payload_length_exceeds_buffer :
    ¬ ∀ chunks p recv, (∀ chunk ∈ chunks, chunk ≠ []) →
        consumeChunks .initial chunks = some (p, recv) → p.gPayloadLength ≤ maxMessageSize := by
  intro h
  obtain ⟨p, hit, hlen⟩ : ∃ p, iteration .initial [0, 1, 0, 1] = .stop p "message too large"
      ∧ p.gPayloadLength = 65537 := ⟨_, rfl, rfl⟩
  have hrun : consumeChunks .initial [[0, 1, 0, 1]] = some (p, []) := by
    simp [consumeChunks, consumeBytes_of_stop (by simp) hit]
  have hle := h _ _ _ (by simp) hrun
  rw [hlen] at hle
  exact absurd hle (by decide)

end Magit.Server
