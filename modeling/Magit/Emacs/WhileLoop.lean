import Mathlib.Logic.Function.Iterate

/-!
# Emacs/WhileLoop — loops that may run forever

A loop is run for a number of rounds, and ends if some number suffices.  What it comes to does not
depend on how many more rounds it is given (`whileLoop_add`); and it does not end where every round
keeps something that keeps the test true (`not_ends`).
-/

namespace Emacs

variable {σ : Type*} {test : σ → Bool} {body : σ → σ} {s s' : σ} {n k : ℕ}

/-- `while`, given up after a number of rounds. -/
def whileLoop (test : σ → Bool) (body : σ → σ) : ℕ → σ → Option σ
  | 0, _ => none
  | n + 1, s => if test s then whileLoop test body n (body s) else some s

/-- The loop ends. -/
def Ends (test : σ → Bool) (body : σ → σ) (s : σ) : Prop := ∃ n, (whileLoop test body n s).isSome

theorem whileLoop_of_true (h : test s = true) :
    whileLoop test body (n + 1) s = whileLoop test body n (body s) := if_pos h

theorem whileLoop_of_false (h : test s = false) : whileLoop test body (n + 1) s = some s :=
  if_neg (ne_true_of_eq_false h)

/-- More fuel does not change what a loop that ends returns. -/
theorem whileLoop_add (h : whileLoop test body n s = some s') (k : ℕ) :
    whileLoop test body (n + k) s = some s' := by
  induction n generalizing s with
  | zero => cases h
  | succ n ih =>
    rw [Nat.add_right_comm]
    rcases htest : test s with _ | _
    · rw [whileLoop_of_false htest] at h ⊢
      exact h
    · rw [whileLoop_of_true htest] at h ⊢
      exact ih h

theorem whileLoop_mono (h : whileLoop test body n s = some s') (hle : n ≤ k) :
    whileLoop test body k s = some s' := by
  obtain ⟨j, rfl⟩ := Nat.exists_eq_add_of_le hle
  exact whileLoop_add h j

/-- While the test holds, the loop ends exactly if it does behind the body. -/
theorem ends_of_true (h : test s = true) : Ends test body s ↔ Ends test body (body s) := by
  constructor
  · rintro ⟨n, hn⟩
    rcases n with _ | n
    · cases hn
    · exact ⟨n, by rwa [whileLoop_of_true h] at hn⟩
  · rintro ⟨n, hn⟩
    exact ⟨n + 1, by rwa [whileLoop_of_true h]⟩

theorem ends_of_false (h : test s = false) : Ends test body s :=
  ⟨1, by rw [whileLoop_of_false h, Option.isSome_some]⟩

/-- A loop whose rounds keep what keeps the test true. -/
theorem not_ends (inv : σ → Prop) (hs : inv s)
    (hround : ∀ s, inv s → test s = true ∧ inv (body s)) : ¬Ends test body s := by
  rintro ⟨n, hn⟩
  induction n generalizing s with
  | zero => cases hn
  | succ n ih =>
    obtain ⟨htest, hbody⟩ := hround s hs
    rw [whileLoop_of_true htest] at hn
    exact ih hbody hn

end Emacs
