import Mathlib.Data.List.Basic

/-!
# Framing/Reader — reading frames off the front of a stream

A `FrameReader` takes one frame off the front of a list of symbols, or says that no frame is
complete there.  Two laws make it fit for a stream that arrives in pieces: a frame uses up input
(`shrinks`), and symbols arriving later do not change a frame already complete (`stable`).

`drain` takes frames off until none is left.  Since the laws hold, draining what was kept back
together with the next piece is draining the whole stream (`frames_append`, `rest_append`), so a
consumer that keeps the undrained rest sees the same frames however the stream is cut.
-/

namespace Framing

/-- One frame off the front of a stream: the frame and the symbols after it. -/
structure FrameReader (α β : Type*) where
  next : List α → Option (β × List α)
  shrinks : ∀ {xs b r}, next xs = some (b, r) → r.length < xs.length
  stable : ∀ {xs b r} (ys), next xs = some (b, r) → next (xs ++ ys) = some (b, r ++ ys)

namespace FrameReader

variable {α β : Type*} (R : FrameReader α β)

/-- All complete frames at the front of a stream, and the symbols that are left. -/
def drain (xs : List α) : List β × List α :=
  match _h : R.next xs with
  | none => ([], xs)
  | some (b, r) => (b :: (drain r).1, (drain r).2)
termination_by xs.length
decreasing_by exact R.shrinks (by assumption)

/-- The frames of a stream. -/
def frames (xs : List α) : List β := (R.drain xs).1

/-- The symbols of a stream after its last complete frame. -/
def rest (xs : List α) : List α := (R.drain xs).2

variable {R}

theorem drain_of_none {xs : List α} (h : R.next xs = none) : R.drain xs = ([], xs) := by
  rw [drain]
  split
  · rfl
  · simp_all

theorem drain_of_some {xs r : List α} {b : β} (h : R.next xs = some (b, r)) :
    R.drain xs = (b :: R.frames r, R.rest r) := by
  rw [drain]
  split
  · simp_all
  · next b' r' h' =>
    obtain ⟨rfl, rfl⟩ := Prod.mk.inj (Option.some.inj (h'.symm.trans h))
    rfl

@[simp] theorem frames_of_none {xs : List α} (h : R.next xs = none) : R.frames xs = [] := by
  rw [frames, drain_of_none h]

@[simp] theorem rest_of_none {xs : List α} (h : R.next xs = none) : R.rest xs = xs := by
  rw [rest, drain_of_none h]

theorem frames_of_some {xs r : List α} {b : β} (h : R.next xs = some (b, r)) :
    R.frames xs = b :: R.frames r := by
  rw [frames, drain_of_some h]

theorem rest_of_some {xs r : List α} {b : β} (h : R.next xs = some (b, r)) :
    R.rest xs = R.rest r := by
  rw [rest, drain_of_some h]

variable (R)

/-- Induction along the frames of a stream. -/
theorem drain_induction {P : List α → Prop} (stuck : ∀ xs, R.next xs = none → P xs)
    (frame : ∀ xs b r, R.next xs = some (b, r) → P r → P xs) (xs : List α) : P xs := by
  induction h : xs.length using Nat.strongRecOn generalizing xs with
  | _ n ih =>
    cases hn : R.next xs with
    | none => exact stuck xs hn
    | some br => exact frame xs br.1 br.2 hn (ih _ (h ▸ R.shrinks hn) br.2 rfl)

/-- **Draining stops only where no frame is complete.** -/
theorem next_rest (xs : List α) : R.next (R.rest xs) = none := by
  induction xs using R.drain_induction with
  | stuck xs h => rwa [rest_of_none h]
  | frame xs b r h ih => rwa [rest_of_some h]

/-- **What is left after a piece carries over to the next one.** -/
theorem frames_append (xs ys : List α) :
    R.frames (xs ++ ys) = R.frames xs ++ R.frames (R.rest xs ++ ys) := by
  induction xs using R.drain_induction with
  | stuck xs h => rw [frames_of_none h, rest_of_none h, List.nil_append]
  | frame xs b r h ih =>
    rw [frames_of_some (R.stable ys h), frames_of_some h, rest_of_some h, ih, List.cons_append]

theorem rest_append (xs ys : List α) : R.rest (xs ++ ys) = R.rest (R.rest xs ++ ys) := by
  induction xs using R.drain_induction with
  | stuck xs h => rw [rest_of_none h]
  | frame xs b r h ih => rw [rest_of_some (R.stable ys h), rest_of_some h, ih]

/-- A prefix of a stream has a prefix of its frames. -/
theorem frames_prefix {xs ys : List α} (h : xs <+: ys) : R.frames xs <+: R.frames ys := by
  obtain ⟨zs, rfl⟩ := h
  rw [R.frames_append]
  exact List.prefix_append ..

theorem length_rest_le (xs : List α) : (R.rest xs).length ≤ xs.length := by
  induction xs using R.drain_induction with
  | stuck xs h => exact Nat.le_of_eq (congrArg List.length (rest_of_none h))
  | frame xs b r h ih =>
    rw [rest_of_some h]
    exact Nat.le_trans ih (Nat.le_of_lt (R.shrinks h))

end FrameReader

end Framing
