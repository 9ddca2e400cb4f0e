import Mathlib.Algebra.Order.Ring.Nat
import Mathlib.Data.List.Forall2

/-!
# Diff/Lines — the two sides of a hunk, and the restriction to some of its changes

A hunk's lines are on the old side, on the new side or, context, on both.  `restrict` keeps the
context and the selected changes; of the changes that are not selected it turns those of one kind
into context and drops the others.  It then keeps the side that the lines of that kind are on, and
makes of the other what the selected changes alone make of it (`oldSide_restrict_removed` and its
three siblings), with no change that was not selected (`changes_restrict`) and the lines in their
order (`sublist_restrict`).
-/

namespace Diff

/-- What a line of a hunk is. -/
inductive LineKind
  | context
  | removed
  | added
  deriving DecidableEq, Repr

/-- A line of a hunk, with content of any kind. -/
structure Line (α : Type*) where
  kind : LineKind
  content : α
  deriving DecidableEq, Repr

variable {α : Type*}

/-- The line on the old side, if it is on it. -/
def Line.old? (l : Line α) : Option α := if l.kind = .added then none else some l.content

/-- The line on the new side, if it is on it. -/
def Line.new? (l : Line α) : Option α := if l.kind = .removed then none else some l.content

/-- The lines of the old file. -/
def oldSide (body : List (Line α)) : List α := body.filterMap Line.old?

/-- The lines of the new file. -/
def newSide (body : List (Line α)) : List α := body.filterMap Line.new?

section

variable (a : α) (body : List (Line α))

@[simp] theorem oldSide_nil : oldSide ([] : List (Line α)) = [] := rfl

@[simp] theorem oldSide_context : oldSide (⟨.context, a⟩ :: body) = a :: oldSide body := rfl

@[simp] theorem oldSide_removed : oldSide (⟨.removed, a⟩ :: body) = a :: oldSide body := rfl

@[simp] theorem oldSide_added : oldSide (⟨.added, a⟩ :: body) = oldSide body := rfl

@[simp] theorem newSide_context : newSide (⟨.context, a⟩ :: body) = a :: newSide body := rfl

@[simp] theorem newSide_removed : newSide (⟨.removed, a⟩ :: body) = newSide body := rfl

@[simp] theorem newSide_added : newSide (⟨.added, a⟩ :: body) = a :: newSide body := rfl

end

/-- The lines that change something. -/
def changes (body : List (Line α)) : List (Line α) := body.filter fun l => l.kind ≠ .context

/-! ## Lines some of which are selected -/

/-- The old side with exactly the selected changes applied. -/
def applied (marked : List (Line α × Bool)) : List α :=
  marked.filterMap fun m => if m.2 then m.1.new? else m.1.old?

/-- The new side with exactly the selected changes undone. -/
def undone (marked : List (Line α × Bool)) : List α :=
  marked.filterMap fun m => if m.2 then m.1.old? else m.1.new?

/-- The changes that are selected. -/
def selectedChanges (marked : List (Line α × Bool)) : List (Line α) :=
  changes (marked.filterMap fun m => if m.2 then some m.1 else none)

/-- What becomes of a line: context and selected lines stay, and a line of the kind `op` turns into
context. -/
def Line.restrict (op : LineKind) (l : Line α) (selected : Bool) : Option (Line α) :=
  if l.kind = .context ∨ selected then some l
  else if l.kind = op then some { l with kind := .context }
  else none

/-- The lines that are left of a hunk, with the unmarked ones of the kind turned into context. -/
def restrict (op : LineKind) (marked : List (Line α × Bool)) : List (Line α) :=
  marked.filterMap fun m => m.1.restrict op m.2

variable (l : Line α) (selected : Bool)

theorem Line.restrict_removed_old? : (l.restrict .removed selected).bind Line.old? = l.old? := by
  obtain ⟨kind, a⟩ := l
  cases kind <;> cases selected <;> rfl

theorem Line.restrict_removed_new? :
    (l.restrict .removed selected).bind Line.new? = if selected then l.new? else l.old? := by
  obtain ⟨kind, a⟩ := l
  cases kind <;> cases selected <;> rfl

theorem Line.restrict_added_new? : (l.restrict .added selected).bind Line.new? = l.new? := by
  obtain ⟨kind, a⟩ := l
  cases kind <;> cases selected <;> rfl

theorem Line.restrict_added_old? :
    (l.restrict .added selected).bind Line.old? = if selected then l.old? else l.new? := by
  obtain ⟨kind, a⟩ := l
  cases kind <;> cases selected <;> rfl

/-- A line stays what it is, or becomes context, or goes. -/
theorem Line.of_restrict {op : LineKind} {l l' : Line α} {selected : Bool}
    (h : l.restrict op selected = some l') :
    l'.content = l.content ∧ (l'.kind = l.kind ∨ l'.kind = .context) := by
  unfold Line.restrict at h
  split_ifs at h <;> obtain rfl := Option.some.inj h
  · exact ⟨rfl, .inl rfl⟩
  · exact ⟨rfl, .inr rfl⟩

variable (marked : List (Line α × Bool))

/-- **Removals turned into context: the old side stays.** -/
theorem oldSide_restrict_removed :
    oldSide (restrict .removed marked) = oldSide (marked.map Prod.fst) := by
  rw [oldSide, restrict, List.filterMap_filterMap, oldSide, List.filterMap_map]
  exact List.filterMap_congr fun m _ => m.1.restrict_removed_old? m.2

/-- **Removals turned into context: the new side has the selected changes.** -/
theorem newSide_restrict_removed : newSide (restrict .removed marked) = applied marked := by
  rw [newSide, restrict, List.filterMap_filterMap]
  exact List.filterMap_congr fun m _ => m.1.restrict_removed_new? m.2

/-- **Additions turned into context: the new side stays.** -/
theorem newSide_restrict_added :
    newSide (restrict .added marked) = newSide (marked.map Prod.fst) := by
  rw [newSide, restrict, List.filterMap_filterMap, newSide, List.filterMap_map]
  exact List.filterMap_congr fun m _ => m.1.restrict_added_new? m.2

/-- **Additions turned into context: the old side has the selected changes undone.** -/
theorem oldSide_restrict_added : oldSide (restrict .added marked) = undone marked := by
  rw [oldSide, restrict, List.filterMap_filterMap]
  exact List.filterMap_congr fun m _ => m.1.restrict_added_old? m.2

/-- **Exactly the selected changes are left.** -/
theorem changes_restrict (op : LineKind) :
    changes (restrict op marked) = selectedChanges marked := by
  rw [changes, restrict, List.filter_filterMap, selectedChanges, changes, List.filter_filterMap]
  refine List.filterMap_congr fun m _ => ?_
  obtain ⟨⟨kind, a⟩, selected⟩ := m
  cases kind <;> cases selected <;> cases op <;> rfl

/-- **The lines keep their order**, each as it was or as context. -/
theorem sublist_restrict (op : LineKind) :
    List.SublistForall₂
      (fun l' l : Line α => l'.content = l.content ∧ (l'.kind = l.kind ∨ l'.kind = .context))
      (restrict op marked) (marked.map Prod.fst) := by
  induction marked with
  | nil => exact .nil
  | cons m marked ih =>
    rw [restrict, List.filterMap_cons, List.map_cons]
    split
    · exact .cons_right ih
    · next l' hl' => exact .cons (Line.of_restrict hl') ih

end Diff
