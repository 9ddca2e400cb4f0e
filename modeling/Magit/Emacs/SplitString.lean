import Mathlib.Data.List.Flatten
import Mathlib.Tactic.Common

/-!
# Emacs/SplitString — items of a string

`split-string` cuts a string at a separator, here always with its argument `omit-nulls`.  What it
makes of a list of items each of which is followed by the separator is the items that are not empty
(`splitString_terminated`).
-/

namespace Emacs

/-- `(split-string text sep t)`. -/
def splitString (sep : Char) (text : List Char) : List (List Char) :=
  (text.splitOn sep).filter (· ≠ [])

/-- `(substring text from)`, which signals behind the end. -/
def substring (text : List Char) (from_ : ℕ) : Option (List Char) :=
  if from_ ≤ text.length then some (text.drop from_) else none

/-- Items, each with a separator behind it. -/
def terminated (sep : Char) (items : List (List Char)) : List Char :=
  items.flatMap (· ++ [sep])

variable {sep : Char}

@[simp] theorem terminated_nil : terminated sep [] = [] := rfl

@[simp] theorem terminated_cons (item : List Char) (items : List (List Char)) :
    terminated sep (item :: items) = item ++ sep :: terminated sep items := by
  rw [terminated, List.flatMap_cons, List.append_assoc]
  rfl

theorem terminated_append (items items' : List (List Char)) :
    terminated sep (items ++ items') = terminated sep items ++ terminated sep items' :=
  List.flatMap_append

/-- Terminated items are split again, whatever follows. -/
theorem splitOn_terminated_append {items : List (List Char)} (h : ∀ item ∈ items, sep ∉ item)
    (rest : List Char) :
    (terminated sep items ++ rest).splitOn sep = items ++ rest.splitOn sep := by
  induction items with
  | nil => rfl
  | cons item items ih =>
    rw [terminated_cons, List.append_assoc, List.cons_append,
      List.splitOn_append_cons_self_of_not_mem (h item List.mem_cons_self),
      ih fun i hi => h i (List.mem_cons_of_mem _ hi), List.cons_append]

theorem splitOn_terminated {items : List (List Char)} (h : ∀ item ∈ items, sep ∉ item) :
    (terminated sep items).splitOn sep = items ++ [[]] := by
  have happend := splitOn_terminated_append h []
  rwa [List.append_nil] at happend

/-- What has been completed of some items while the last separator is missing. -/
theorem dropLast_splitOn_of_missing {items : List (List Char)} {last text : List Char}
    (h : ∀ item ∈ items ++ [last], sep ∉ item) (hstart : text <+: terminated sep (items ++ [last]))
    (hne : text ≠ terminated sep (items ++ [last])) : (text.splitOn sep).dropLast <+: items := by
  induction items generalizing text with
  | nil =>
    have hlast : terminated sep ([] ++ [last]) = last ++ [sep] := by simp
    rw [hlast] at hstart hne
    have hline : text <+: last := (List.prefix_concat_iff.mp hstart).resolve_left hne
    have hnotMem : sep ∉ text := fun hmem => h last (by simp) (hline.subset hmem)
    rw [List.splitOn_eq_singleton hnotMem]
    exact List.prefix_refl _
  | cons item items ih =>
    obtain ⟨hitem, hitems⟩ := List.forall_mem_cons.mp h
    rw [List.cons_append, terminated_cons] at hstart hne
    by_cases hmem : sep ∈ text
    · obtain ⟨front, rest, rfl, hfront⟩ := List.eq_append_cons_of_mem hmem
      obtain ⟨more, hmore⟩ := hstart
      rw [List.append_assoc, List.cons_append] at hmore
      have hsplit := congrArg (List.splitOn sep) hmore
      rw [List.splitOn_append_cons_self_of_not_mem hfront,
        List.splitOn_append_cons_self_of_not_mem hitem] at hsplit
      obtain rfl : front = item := (List.cons.inj hsplit).1
      have hrest : rest ++ more = terminated sep (items ++ [last]) :=
        (List.cons.inj (List.append_cancel_left hmore)).2
      have hproper : rest ≠ terminated sep (items ++ [last]) :=
        fun heq => hne (congrArg (front ++ sep :: ·) heq)
      rw [List.splitOn_append_cons_self_of_not_mem hfront,
        List.dropLast_cons_of_ne_nil (List.splitOn_ne_nil _ _)]
      exact List.cons_prefix_cons.mpr ⟨rfl, ih hitems ⟨more, hrest⟩ hproper⟩
    · rw [List.splitOn_eq_singleton hmem]
      exact List.nil_prefix

/-- **Splitting gives back the items that are not empty.** -/
theorem splitString_terminated {items : List (List Char)} (h : ∀ item ∈ items, sep ∉ item) :
    splitString sep (terminated sep items) = items.filter (· ≠ []) := by
  rw [splitString, splitOn_terminated h, List.filter_append]
  simp

end Emacs
