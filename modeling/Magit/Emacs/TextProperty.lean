import Magit.Emacs.Markers

/-!
# Emacs/TextProperty — text with a property

A character has a value of the property or none.  `nextChange` leads from one stretch of text with
the same value to the next one.
-/

namespace Emacs

/-- Characters, each with its value of a text property. -/
abbrev Propertied (α : Type*) := List (Char × Option α)

namespace Propertied

variable {α : Type*}

/-- Text that is inserted without the property. -/
def plain (chars : List Char) : Propertied α := chars.map (·, none)

/-- `char-before` -/
def charBefore (text : Propertied α) (p : ℕ) : Option Char :=
  if 2 ≤ p then text[p - 2]?.map Prod.fst else none

/-- `get-text-property` -/
def propertyAt (text : Propertied α) (p : ℕ) : Option α :=
  if 1 ≤ p then text[p - 1]?.bind Prod.snd else none

/-- `next-single-property-change` -/
def nextChange [DecidableEq α] (text : Propertied α) (p : ℕ) : Option ℕ :=
  match text.drop (p - 1) with
  | [] => none
  | c :: rest =>
    let same := rest.takeWhile (·.2 = c.2)
    if same.length < rest.length then some (p + 1 + same.length) else none

/-- `add-text-properties` -/
def addProperty (text : Propertied α) (beg fin : ℕ) (value : α) : Propertied α :=
  text.take (beg - 1) ++ ((text.take (fin - 1)).drop (beg - 1)).map (fun c => (c.1, some value)) ++
    text.drop (fin - 1)

/-- A character that has no value gets one. -/
def filled (value : α) (c : Char × Option α) : Char × Option α := (c.1, c.2.or (some value))

@[simp] theorem length_plain (chars : List Char) :
    (plain chars : Propertied α).length = chars.length :=
  List.length_map _

/-- What comes later does not matter. -/
theorem charBefore_append (text text' : Propertied α) {p : ℕ} (hp : p ≤ text.length + 1) :
    charBefore (text ++ text') p = charBefore text p := by
  unfold charBefore
  split
  · rw [List.getElem?_append_left (by omega)]
  · rfl

/-- The property of a character behind others. -/
theorem propertyAt_append (before rest : Propertied α) (n : ℕ) :
    propertyAt (before ++ rest) (before.length + 1 + n) = rest[n]?.bind Prod.snd := by
  rw [propertyAt, if_pos (by omega), List.getElem?_append_right (by omega)]
  congr 2
  omega

/-- The property is put on the piece and nowhere else. -/
theorem addProperty_append (before piece rest : Propertied α) (value : α) :
    addProperty (before ++ piece ++ rest) (before.length + 1)
      (before.length + 1 + piece.length) value
      = before ++ piece.map (fun c => (c.1, some value)) ++ rest := by
  have hfin : before.length + 1 + piece.length - 1 = (before ++ piece).length := by
    rw [List.length_append]
    omega
  rw [addProperty, hfin, Nat.add_sub_cancel, List.take_left, List.drop_left, List.drop_left,
    List.append_assoc before piece rest, List.take_left]

theorem map_filled_of_none {piece : Propertied α} (h : ∀ c ∈ piece, c.2 = none) (value : α) :
    piece.map (filled value) = piece.map fun c => (c.1, some value) :=
  List.map_congr_left fun c hc => by rw [filled, h c hc, Option.none_or]

/-- A piece with the property keeps it everywhere. -/
theorem map_filled_of_some {piece : Propertied α} {value' : α}
    (h : ∀ c ∈ piece, c.2 = some value') (value : α) : piece.map (filled value) = piece := by
  refine (List.map_congr_left fun c hc => ?_).trans (List.map_id piece)
  rw [filled, h c hc, Option.some_or, ← h c hc]
  rfl

/-- Where the value changes next, or the text ends. -/
theorem nextChange_append [DecidableEq α] (before : Propertied α) (c : Char × Option α)
    (rest : Propertied α) :
    (nextChange (before ++ c :: rest) (before.length + 1)).getD
        ((before ++ c :: rest).length + 1)
      = before.length + 1 + (rest.takeWhile (·.2 = c.2)).length + 1 := by
  have hle := (List.takeWhile_prefix (p := fun c' : Char × Option α => decide (c'.2 = c.2))
    (l := rest)).length_le
  rw [nextChange, Nat.add_sub_cancel, List.drop_left]
  dsimp only
  split
  · rw [Option.getD_some]
    omega
  · rw [Option.getD_none, List.length_append, List.length_cons]
    omega

end Propertied

end Emacs
