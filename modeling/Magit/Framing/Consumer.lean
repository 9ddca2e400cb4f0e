import Magit.Framing.Reader
import Mathlib.Data.List.Infix

/-!
# Framing/Consumer — a consumer whose handler may fail

A consumer keeps the symbols of an incomplete frame between two pieces of a stream and hands every
complete frame to a handler, until the handler fails.  This one stores what is left only if no
handler failed; otherwise it stays with what it had stored before the piece.  It keeps its place in
the stream exactly as long as a failure changes nothing (`inPlace_take_iff`): the failing frame is
the last complete one, and what follows it is what was stored before.
-/

namespace Framing

variable {α β σ : Type*}

/-- Frames handed over: those the handler was called for, its state, and whether the last call
failed. -/
structure Handled (β σ : Type*) where
  handed : List β
  state : σ
  failed : Bool

/-- Handing frames over until the handler fails. -/
def handle (act : σ → β → σ × Bool) (s : σ) : List β → Handled β σ
  | [] => ⟨[], s, false⟩
  | b :: bs =>
    if (act s b).2 then ⟨[b], (act s b).1, true⟩
    else
      let h := handle act (act s b).1 bs
      ⟨b :: h.handed, h.state, h.failed⟩

variable (act : σ → β → σ × Bool)

variable {act}

/-- Without a failure every frame is handed over. -/
theorem handed_of_not_failed {s : σ} {bs : List β} (h : (handle act s bs).failed = false) :
    (handle act s bs).handed = bs := by
  induction bs generalizing s with
  | nil => rfl
  | cons b bs ih =>
    rw [handle] at h ⊢
    split at h
    · exact absurd h (by simp)
    · next hb =>
      rw [if_neg hb]
      exact congrArg (b :: ·) (ih h)

/-- A consumer between two pieces: what it has stored, the frames handed over so far, and the
handler's state. -/
structure Consumer (α β σ : Type*) where
  stored : List α
  handed : List β
  state : σ

namespace Consumer

variable (R : FrameReader α β) (act)

/-- What the handler is called for in a piece. -/
def handling (c : Consumer α β σ) (piece : List α) : Handled β σ :=
  handle act c.state (R.frames (c.stored ++ piece))

/-- What arrives at once is added, and the frames that are complete then are handed on. -/
def take (c : Consumer α β σ) (piece : List α) : Consumer α β σ where
  stored := if (c.handling act R piece).failed then c.stored else R.rest (c.stored ++ piece)
  handed := c.handed ++ (c.handling act R piece).handed
  state := (c.handling act R piece).state

/-- Several pieces arrive one after the other. -/
def takeAll (c : Consumer α β σ) (pieces : List (List α)) : Consumer α β σ :=
  pieces.foldl (Consumer.take act R) c

/-- Every complete frame of what was received has been handed over, once and in order, and what is
stored is what follows them. -/
def InPlace (c : Consumer α β σ) (received : List α) : Prop :=
  c.handed = R.frames received ∧ c.stored = R.rest received

/-- A failure in this piece, if there is one, changes nothing: it is in the last complete frame, and
what follows that frame is what was stored before the piece. -/
def Harmless (c : Consumer α β σ) (piece : List α) : Prop :=
  (c.handling act R piece).failed = true →
    (c.handling act R piece).handed = R.frames (c.stored ++ piece)
      ∧ R.rest (c.stored ++ piece) = c.stored

variable {R act}

/-- **A piece keeps the consumer in place exactly if it is harmless.** -/
theorem inPlace_take_iff {c : Consumer α β σ} {received : List α} (h : c.InPlace R received)
    (piece : List α) :
    (c.take act R piece).InPlace R (received ++ piece) ↔ c.Harmless act R piece := by
  obtain ⟨hhanded, hstored⟩ := h
  have hframes : R.frames (received ++ piece) = c.handed ++ R.frames (c.stored ++ piece) := by
    rw [R.frames_append, hhanded, hstored]
  have hrest : R.rest (received ++ piece) = R.rest (c.stored ++ piece) := by
    rw [R.rest_append, hstored]
  rw [InPlace, hframes, hrest, take, List.append_cancel_left_eq, Harmless]
  cases hfailed : (c.handling act R piece).failed with
  | false =>
    have hall : (c.handling act R piece).handed = R.frames (c.stored ++ piece) :=
      handed_of_not_failed hfailed
    simp [hall]
  | true => simp [eq_comm]

theorem takeAll_concat (c : Consumer α β σ) (pieces : List (List α)) (piece : List α) :
    c.takeAll act R (pieces ++ [piece]) = (c.takeAll act R pieces).take act R piece :=
  List.foldl_concat ..

variable (act) in
/-- **A consumer is in place after every piece exactly if every piece is harmless.** -/
theorem inPlace_takeAll_iff {c : Consumer α β σ} (h : c.InPlace R []) (pieces : List (List α)) :
    (∀ ps, ps <+: pieces → (c.takeAll act R ps).InPlace R ps.flatten)
      ↔ ∀ ps p, ps ++ [p] <+: pieces → (c.takeAll act R ps).Harmless act R p := by
  constructor
  · intro hin ps p hp
    have hnext := hin (ps ++ [p]) hp
    rw [takeAll_concat, List.flatten_append, List.flatten_singleton] at hnext
    exact (inPlace_take_iff (hin ps ((List.prefix_append ps [p]).trans hp)) p).mp hnext
  · intro hharm ps
    induction ps using List.reverseRecOn with
    | nil => exact fun _ => h
    | append_singleton ps p ih =>
      intro hp
      rw [takeAll_concat, List.flatten_append, List.flatten_singleton]
      exact (inPlace_take_iff (ih ((List.prefix_append ps [p]).trans hp)) p).mpr (hharm ps p hp)

end Consumer

end Framing
