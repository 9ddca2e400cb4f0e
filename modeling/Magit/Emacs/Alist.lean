import Mathlib.Data.List.Basic

/-!
# Emacs/Alist — association lists as generalised variables

`assoc` finds the first entry of a key.  Setting `(alist-get key alist nil nil #'equal)` changes the
value of that entry, or puts a new entry in front; what is looked up afterwards is the new value
under that key and the old one under every other (`assoc_setAlistGet`).
-/

namespace Emacs

variable {κ α : Type*} [DecidableEq κ]

/-- `(cdr (assoc key alist))`, or `none` without an entry. -/
def assoc (key : κ) : List (κ × α) → Option α
  | [] => none
  | (k, a) :: alist => if k = key then some a else assoc key alist

/-- The first entry of a key with another value. -/
def replaceFirst (key : κ) (a : α) : List (κ × α) → List (κ × α)
  | [] => []
  | (k, b) :: alist => if k = key then (k, a) :: alist else (k, b) :: replaceFirst key a alist

/-- `(setf (alist-get key alist nil nil #'equal) a)`. -/
def setAlistGet (key : κ) (a : α) (alist : List (κ × α)) : List (κ × α) :=
  if (assoc key alist).isSome then replaceFirst key a alist else (key, a) :: alist

@[simp] theorem assoc_nil (key : κ) : assoc key ([] : List (κ × α)) = none := rfl

theorem assoc_cons (key k : κ) (a : α) (alist : List (κ × α)) :
    assoc key ((k, a) :: alist) = if k = key then some a else assoc key alist := rfl

/-- What is found is in the list. -/
theorem mem_of_assoc {key : κ} {a : α} {alist : List (κ × α)} (h : assoc key alist = some a) :
    (key, a) ∈ alist := by
  induction alist with
  | nil => simp at h
  | cons entry alist ih =>
    obtain ⟨k, b⟩ := entry
    rw [assoc_cons] at h
    split_ifs at h with hk
    · rw [← Option.some.inj h, hk]
      exact List.mem_cons_self
    · exact List.mem_cons_of_mem _ (ih h)

/-- Replacing the value of one key leaves those of the others alone. -/
theorem assoc_replaceFirst_of_ne {key key' : κ} (h : key ≠ key') (a : α) (alist : List (κ × α)) :
    assoc key' (replaceFirst key a alist) = assoc key' alist := by
  induction alist with
  | nil => rfl
  | cons entry alist ih =>
    obtain ⟨k, b⟩ := entry
    rw [replaceFirst]
    split
    · next hk => rw [assoc_cons, assoc_cons, if_neg (hk ▸ h), if_neg (hk ▸ h)]
    · rw [assoc_cons, assoc_cons, ih]

/-- The replaced value is found. -/
theorem assoc_replaceFirst_self {key : κ} {alist : List (κ × α)}
    (h : (assoc key alist).isSome) (a : α) : assoc key (replaceFirst key a alist) = some a := by
  induction alist with
  | nil => simp at h
  | cons entry alist ih =>
    obtain ⟨k, b⟩ := entry
    rw [replaceFirst]
    split
    · next hk => rw [assoc_cons, if_pos hk]
    · next hk =>
      rw [assoc_cons, if_neg hk] at h
      rw [assoc_cons, if_neg hk, ih h]

/-- **What is looked up after an assignment.** -/
theorem assoc_setAlistGet (key key' : κ) (a : α) (alist : List (κ × α)) :
    assoc key' (setAlistGet key a alist) = if key = key' then some a else assoc key' alist := by
  unfold setAlistGet
  split_ifs with hsome heq heq
  · exact heq ▸ assoc_replaceFirst_self hsome a
  · exact assoc_replaceFirst_of_ne heq a alist
  · rw [assoc_cons, if_pos heq]
  · rw [assoc_cons, if_neg heq]

end Emacs
