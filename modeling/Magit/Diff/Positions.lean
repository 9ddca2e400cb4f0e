import Magit.Diff.Lines
import Mathlib.Tactic.Ring

/-!
# Diff/Positions — where a line of the old side stands on the new side

`net` counts the insertions minus the deletions before a line of the old side.  In a script, which
has every line of both files, this is how far the line has moved (`net_script`).  `netWithin` stops
behind the old line before it, and so leaves out the insertions that stand directly before the line
(`net_eq`).
-/

namespace Diff

variable {α : Type*}

/-- Insertions minus deletions before the line that `k` lines of the old side precede. -/
def net : List (Line α) → ℕ → ℤ
  | [], _ => 0
  | ⟨.added, _⟩ :: body, k => net body k + 1
  | ⟨.context, _⟩ :: _, 0 => 0
  | ⟨.context, _⟩ :: body, k + 1 => net body k
  | ⟨.removed, _⟩ :: _, 0 => 0
  | ⟨.removed, _⟩ :: body, k + 1 => net body k - 1

/-- Insertions minus deletions up to the `k`-th line of the old side. -/
def netWithin : List (Line α) → ℕ → ℤ
  | _, 0 => 0
  | [], _ + 1 => 0
  | ⟨.added, _⟩ :: body, k + 1 => netWithin body (k + 1) + 1
  | ⟨.context, _⟩ :: body, k + 1 => netWithin body k
  | ⟨.removed, _⟩ :: body, k + 1 => netWithin body k - 1

/-- The insertions directly behind the `k`-th line of the old side. -/
def insertedAt : List (Line α) → ℕ → ℕ
  | [], _ => 0
  | ⟨.added, _⟩ :: body, 0 => insertedAt body 0 + 1
  | ⟨.added, _⟩ :: body, k + 1 => insertedAt body (k + 1)
  | ⟨.context, _⟩ :: _, 0 => 0
  | ⟨.context, _⟩ :: body, k + 1 => insertedAt body k
  | ⟨.removed, _⟩ :: _, 0 => 0
  | ⟨.removed, _⟩ :: body, k + 1 => insertedAt body k

/-- **What stopping early leaves out.** -/
theorem net_eq (body : List (Line α)) (k : ℕ) :
    net body k = netWithin body k + insertedAt body k := by
  induction body generalizing k with
  | nil => cases k <;> rfl
  | cons l body ih =>
    obtain ⟨kind, a⟩ := l
    cases kind <;> cases k <;> simp only [net, netWithin, insertedAt, ih] <;> push_cast <;> ring

/-- Behind the last line of the old side nothing is left out. -/
theorem insertedAt_of_lt {body : List (Line α)} {k : ℕ} (h : (oldSide body).length < k) :
    insertedAt body k = 0 := by
  induction body generalizing k with
  | nil => cases k <;> rfl
  | cons l body ih =>
    obtain ⟨k, rfl⟩ := Nat.exists_eq_succ_of_ne_zero (Nat.ne_zero_of_lt h)
    obtain ⟨kind, a⟩ := l
    cases kind with
    | context => exact ih (Nat.lt_of_succ_lt_succ h)
    | removed => exact ih (Nat.lt_of_succ_lt_succ h)
    | added => exact ih h

/-- The whole body's insertions minus deletions. -/
theorem net_of_le {body : List (Line α)} {k : ℕ} (h : (oldSide body).length ≤ k) :
    net body k = (newSide body).length - (oldSide body).length := by
  induction body generalizing k with
  | nil => cases k <;> rfl
  | cons l body ih =>
    obtain ⟨kind, a⟩ := l
    cases kind with
    | context =>
      obtain ⟨k, rfl⟩ := Nat.exists_eq_succ_of_ne_zero (Nat.ne_zero_of_lt h)
      rw [net, ih (Nat.le_of_succ_le_succ h), oldSide_context, newSide_context, List.length_cons,
        List.length_cons]
      push_cast
      ring
    | removed =>
      obtain ⟨k, rfl⟩ := Nat.exists_eq_succ_of_ne_zero (Nat.ne_zero_of_lt h)
      rw [net, ih (Nat.le_of_succ_le_succ h), oldSide_removed, newSide_removed, List.length_cons]
      push_cast
      ring
    | added =>
      rw [net, ih h, oldSide_added, newSide_added, List.length_cons]
      push_cast
      ring

/-- What comes behind the whole body counts for the lines behind it. -/
theorem net_append (body rest : List (Line α)) (k : ℕ) :
    net (body ++ rest) k
      = net body k + if k < (oldSide body).length then 0
        else net rest (k - (oldSide body).length) := by
  induction body generalizing k with
  | nil =>
    rw [List.nil_append, oldSide_nil, List.length_nil, if_neg (Nat.not_lt_zero k), Nat.sub_zero]
    cases k <;> exact (zero_add _).symm
  | cons l body ih =>
    obtain ⟨kind, a⟩ := l
    cases kind with
    | context =>
      cases k with
      | zero => simp [net]
      | succ k => simp [net, ih]
    | removed =>
      cases k with
      | zero => simp [net]
      | succ k =>
        simp only [List.cons_append, net, ih, oldSide_removed, List.length_cons,
          Nat.add_lt_add_iff_right, Nat.add_sub_add_right]
        ring
    | added =>
      rw [List.cons_append, net, net, ih]
      exact add_right_comm _ _ _

/-- **How far a line has moved**: in a script of two files, a line of the old file that stands
behind `before` is that many lines further down on the new side. -/
theorem net_script (before after : List (Line α)) {l : Line α} (hl : l.kind ≠ .added) :
    net (before ++ l :: after) (oldSide before).length
      = (newSide before).length - (oldSide before).length := by
  have hfirst : net (l :: after) 0 = 0 := by
    obtain ⟨kind, a⟩ := l
    cases kind with
    | context => rfl
    | removed => rfl
    | added => exact absurd rfl hl
  rw [net_append, if_neg (Nat.lt_irrefl _), Nat.sub_self, hfirst, add_zero, net_of_le le_rfl]

end Diff
