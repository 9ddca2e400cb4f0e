import Mathlib.Algebra.Order.Ring.Nat
import Magit.Framing.Reader

/-!
# Framing/LengthPrefix — payloads behind a four-byte big-endian length

`be32` spells a number as four bytes, most significant first, and `ofBe32` reads them back.  A
frame is the `be32` of a payload's length followed by the payload (`encode`); `lengthPrefixed`
reads one, for the lengths a predicate admits.  A stream is the encoding of its frames followed by
what is left (`encode_frames_append_rest`), and the frames of such an encoding are the payloads
(`frames_encode_append`).
-/

namespace Framing

/-- A number as four bytes, most significant first; only its low 32 bits fit. -/
def be32 (n : ℕ) : List UInt8 :=
  [UInt8.ofNat (n / 2 ^ 24), UInt8.ofNat (n / 2 ^ 16), UInt8.ofNat (n / 2 ^ 8), UInt8.ofNat n]

/-- The number the first four bytes of a stream spell. -/
def ofBe32 : List UInt8 → ℕ
  | a :: b :: c :: d :: _ => a.toNat * 2 ^ 24 + b.toNat * 2 ^ 16 + c.toNat * 2 ^ 8 + d.toNat
  | _ => 0

@[simp] theorem length_be32 (n : ℕ) : (be32 n).length = 4 := rfl

theorem ofBe32_lt (xs : List UInt8) : ofBe32 xs < 2 ^ 32 := by
  unfold ofBe32
  split
  · next a b c d _ =>
    have ha := a.toNat_lt
    have hb := b.toNat_lt
    have hc := c.toNat_lt
    have hd := d.toNat_lt
    omega
  · exact Nat.two_pow_pos 32

/-- **The four bytes of a number read back as the number.** -/
theorem ofBe32_be32_append {n : ℕ} (h : n < 2 ^ 32) (ys : List UInt8) :
    ofBe32 (be32 n ++ ys) = n := by
  simp only [be32, List.cons_append, ofBe32, UInt8.toNat_ofNat']
  omega

/-- Four bytes are the spelling of the number they read as. -/
theorem be32_ofBe32 {xs : List UInt8} (h : 4 ≤ xs.length) : be32 (ofBe32 xs) = xs.take 4 := by
  obtain _ | ⟨a, _ | ⟨b, _ | ⟨c, _ | ⟨d, r⟩⟩⟩⟩ := xs <;> simp only [List.length_cons,
    List.length_nil] at h <;> try omega
  have ha := a.toNat_lt
  have hb := b.toNat_lt
  have hc := c.toNat_lt
  have hd := d.toNat_lt
  simp only [be32, ofBe32, List.take_succ_cons, List.take_zero, List.cons.injEq, and_true,
    ← UInt8.toNat_inj, UInt8.toNat_ofNat']
  omega

/-- Only the first four bytes count. -/
theorem ofBe32_append {xs : List UInt8} (h : 4 ≤ xs.length) (ys : List UInt8) :
    ofBe32 (xs ++ ys) = ofBe32 xs := by
  obtain _ | ⟨a, _ | ⟨b, _ | ⟨c, _ | ⟨d, r⟩⟩⟩⟩ := xs <;> simp only [List.length_cons,
    List.length_nil] at h <;> first | omega | rfl

/-- A payload behind its length. -/
def encode (payload : List UInt8) : List UInt8 := be32 payload.length ++ payload

@[simp] theorem length_encode (payload : List UInt8) :
    (encode payload).length = 4 + payload.length := by
  simp [encode]

/-- The frame at the front of a stream, for the lengths `ok` admits. -/
def nextFrame (ok : ℕ → Bool) (xs : List UInt8) : Option (List UInt8 × List UInt8) :=
  if 4 ≤ xs.length ∧ ok (ofBe32 xs) ∧ 4 + ofBe32 xs ≤ xs.length then
    some ((xs.drop 4).take (ofBe32 xs), xs.drop (4 + ofBe32 xs))
  else none

/-- **A frame is read exactly if it was encoded**, with an admissible length. -/
theorem nextFrame_eq_some {ok : ℕ → Bool} {xs b r : List UInt8} :
    nextFrame ok xs = some (b, r)
      ↔ b.length < 2 ^ 32 ∧ ok b.length ∧ xs = encode b ++ r := by
  unfold nextFrame
  constructor
  · intro h
    split at h
    · next hc =>
      obtain ⟨rfl, rfl⟩ := Prod.mk.inj (Option.some.inj h)
      obtain ⟨h4, hok, hlen⟩ := hc
      have hb : ((xs.drop 4).take (ofBe32 xs)).length = ofBe32 xs := by
        rw [List.length_take, List.length_drop]
        omega
      refine ⟨by rw [hb]; exact ofBe32_lt xs, by rw [hb]; exact hok, ?_⟩
      rw [encode, hb, be32_ofBe32 h4, List.append_assoc, ← List.drop_drop,
        List.take_append_drop, List.take_append_drop]
    · exact absurd h (by simp)
  · rintro ⟨hb, hok, rfl⟩
    have hlen : ofBe32 (encode b ++ r) = b.length := by
      rw [encode, List.append_assoc, ofBe32_be32_append hb]
    have hdrop : (encode b ++ r).drop 4 = b ++ r := rfl
    have hle : 4 + b.length ≤ (encode b ++ r).length := by
      rw [List.length_append, length_encode]
      exact Nat.le_add_right _ _
    rw [hlen, if_pos ⟨by omega, hok, hle⟩, ← List.drop_drop, hdrop, List.take_left, List.drop_left]

/-- The reader of length-prefixed frames, for the lengths `ok` admits. -/
def lengthPrefixed (ok : ℕ → Bool) : FrameReader UInt8 (List UInt8) where
  next := nextFrame ok
  shrinks := by
    intro xs b r h
    obtain ⟨-, -, rfl⟩ := nextFrame_eq_some.mp h
    simp only [List.length_append, length_encode]
    omega
  stable := by
    intro xs b r ys h
    obtain ⟨hb, hok, rfl⟩ := nextFrame_eq_some.mp h
    exact nextFrame_eq_some.mpr ⟨hb, hok, List.append_assoc _ _ _⟩

variable (ok : ℕ → Bool)

@[simp] theorem next_lengthPrefixed (xs : List UInt8) :
    (lengthPrefixed ok).next xs = nextFrame ok xs := rfl

/-- **A stream is its frames, encoded, and then what is left.** -/
theorem encode_frames_append_rest (xs : List UInt8) :
    ((lengthPrefixed ok).frames xs).flatMap encode ++ (lengthPrefixed ok).rest xs = xs := by
  induction xs using (lengthPrefixed ok).drain_induction with
  | stuck xs h => rw [FrameReader.frames_of_none h, FrameReader.rest_of_none h]; rfl
  | frame xs b r h ih =>
    obtain ⟨-, -, rfl⟩ := nextFrame_eq_some.mp h
    rw [FrameReader.frames_of_some h, FrameReader.rest_of_some h, List.flatMap_cons,
      List.append_assoc, ih]

/-- **The frames of encoded payloads are the payloads**, whatever follows them. -/
theorem frames_encode_append {bs : List (List UInt8)}
    (h : ∀ b ∈ bs, b.length < 2 ^ 32 ∧ ok b.length) (ys : List UInt8) :
    (lengthPrefixed ok).frames (bs.flatMap encode ++ ys)
      = bs ++ (lengthPrefixed ok).frames ys := by
  induction bs with
  | nil => rfl
  | cons b bs ih =>
    obtain ⟨hlt, hok⟩ := h b List.mem_cons_self
    have hn : (lengthPrefixed ok).next ((b :: bs).flatMap encode ++ ys)
        = some (b, bs.flatMap encode ++ ys) :=
      nextFrame_eq_some.mpr ⟨hlt, hok, by rw [List.flatMap_cons, List.append_assoc]⟩
    rw [FrameReader.frames_of_some hn, ih fun c hc => h c (List.mem_cons_of_mem _ hc),
      List.cons_append]

/-- Behind whole frames the rest is that of what follows. -/
theorem rest_encode_append {bs : List (List UInt8)}
    (h : ∀ b ∈ bs, b.length < 2 ^ 32 ∧ ok b.length) (ys : List UInt8) :
    (lengthPrefixed ok).rest (bs.flatMap encode ++ ys) = (lengthPrefixed ok).rest ys := by
  induction bs with
  | nil => rfl
  | cons b bs ih =>
    obtain ⟨hlt, hok⟩ := h b List.mem_cons_self
    have hn : (lengthPrefixed ok).next ((b :: bs).flatMap encode ++ ys)
        = some (b, bs.flatMap encode ++ ys) :=
      nextFrame_eq_some.mpr ⟨hlt, hok, by rw [List.flatMap_cons, List.append_assoc]⟩
    rw [FrameReader.rest_of_some hn, ih fun c hc => h c (List.mem_cons_of_mem _ hc)]

end Framing
