import Mathlib.Data.List.DropRight
import Magit.Emacs.SplitString

/-!
# Emacs/Overwriting — carriage returns that overwrite the current line

A carriage return deletes the line that it ends, up to there.  Read one character after the other
(`overwrite`), output leaves of each line what follows its last carriage return
(`overwrite_eq_overwritten`).
-/

namespace Emacs

/-- The text in front of its last line. -/
def completed (text : List Char) : List Char := text.rdropWhile (· ≠ '\n')

/-- What follows the last carriage return. -/
def behindReturn (text : List Char) : List Char := text.rtakeWhile (· ≠ '\r')

/-- The text up to its last carriage return. -/
def upToReturn (text : List Char) : List Char := text.rdropWhile (· ≠ '\r')

/-- One more character; a carriage return completes what is overwritten. -/
def strike (text : List Char) (c : Char) : List Char :=
  if c = '\r' then completed text else text ++ [c]

/-- The text with output behind it, read one character after the other. -/
def overwrite (text output : List Char) : List Char := output.foldl strike text

/-- Each line without the part of it before its last carriage return. -/
def overwritten (output : List Char) : List Char :=
  ['\n'].intercalate ((output.splitOn '\n').map behindReturn)

/-! ## The last line -/

/-- Text on the last line completes nothing. -/
theorem completed_append_of_not_mem {line : List Char} (text : List Char) (h : '\n' ∉ line) :
    completed (text ++ line) = completed text := by
  induction line using List.reverseRecOn generalizing text with
  | nil => rw [List.append_nil]
  | append_singleton line c ih =>
    rw [List.mem_append, not_or, List.mem_singleton] at h
    rw [← List.append_assoc, completed, List.rdropWhile_concat_pos _ _ _ (by simp [Ne.symm h.2])]
    exact ih text h.1

theorem completed_append_newline (text : List Char) :
    completed (text ++ ['\n']) = text ++ ['\n'] :=
  List.rdropWhile_concat_neg _ _ _ (by simp)

theorem completed_completed (text : List Char) : completed (completed text) = completed text :=
  List.rdropWhile_idempotent _ _

theorem completed_prefix_text (text : List Char) : completed text <+: text := List.rdropWhile_prefix _ _

/-- Lines that are completed remain so whatever is written behind them. -/
theorem completed_prefix_append (text more : List Char) : completed text <+: completed (text ++ more) := by
  induction more using List.reverseRecOn with
  | nil => simp
  | append_singleton more c ih =>
    rw [← List.append_assoc]
    by_cases hc : c = '\n'
    · rw [hc, completed_append_newline, List.append_assoc]
      exact (completed_prefix_text text).trans (List.prefix_append _ _)
    · rw [completed_append_of_not_mem _ (by simpa using Ne.symm hc)]
      exact ih

/-- The complete lines have all the newlines. -/
theorem count_completed (text : List Char) : (completed text).count '\n' = text.count '\n' := by
  have hline : (text.rtakeWhile (· ≠ '\n')).count '\n' = 0 :=
    List.count_eq_zero.mpr fun hmem => by simpa using List.mem_rtakeWhile_imp hmem
  have htext : completed text ++ text.rtakeWhile (· ≠ '\n') = text :=
    List.rdropWhile_append_rtakeWhile
  conv_rhs => rw [← htext, List.count_append, hline, Nat.add_zero]

/-! ## Overwriting -/

@[simp] theorem overwrite_nil (text : List Char) : overwrite text [] = text := rfl

theorem overwrite_append (text output more : List Char) :
    overwrite text (output ++ more) = overwrite (overwrite text output) more :=
  List.foldl_append

theorem overwrite_return (text output : List Char) :
    overwrite text ('\r' :: output) = overwrite (completed text) output := rfl

/-- Output without a carriage return is appended. -/
theorem overwrite_of_not_mem {output : List Char} (text : List Char) (h : '\r' ∉ output) :
    overwrite text output = text ++ output := by
  induction output generalizing text with
  | nil => rw [overwrite_nil, List.append_nil]
  | cons c output ih =>
    rw [List.mem_cons, not_or] at h
    rw [overwrite, List.foldl_cons, strike, if_neg (Ne.symm h.1)]
    exact (ih (text ++ [c]) h.2).trans (by rw [List.append_assoc]; rfl)

/-- Nothing in a line changes the lines before it. -/
theorem completed_overwrite {line : List Char} (text : List Char) (h : '\n' ∉ line) :
    completed (overwrite text line) = completed text := by
  induction line generalizing text with
  | nil => rfl
  | cons c line ih =>
    rw [List.mem_cons, not_or] at h
    rw [overwrite, List.foldl_cons]
    refine (ih (strike text c) h.2).trans ?_
    rw [strike]
    split
    · exact completed_completed text
    · exact completed_append_of_not_mem text (by simpa using h.1)

/-- Overwriting loses no newline. -/
theorem count_overwrite (text output : List Char) :
    (overwrite text output).count '\n' = text.count '\n' + output.count '\n' := by
  induction output generalizing text with
  | nil => rfl
  | cons c output ih =>
    have hstrike : (strike text c).count '\n' = text.count '\n' + [c].count '\n' := by
      rw [strike]
      split
      · next hreturn => rw [count_completed, hreturn]; rfl
      · rw [List.count_append]
    rw [overwrite, List.foldl_cons]
    refine (ih (strike text c)).trans ?_
    rw [hstrike, Nat.add_assoc, ← List.count_append, List.singleton_append]

/-! ## Lines -/

theorem not_mem_behindReturn (text : List Char) : '\r' ∉ behindReturn text :=
  fun hmem => by simpa using List.mem_rtakeWhile_imp hmem

theorem behindReturn_of_not_mem {text : List Char} (h : '\r' ∉ text) : behindReturn text = text := by
  refine List.rtakeWhile_eq_self_iff.mpr fun c hc => ?_
  simpa using fun heq : c = '\r' => h (heq ▸ hc)

theorem upToReturn_append_behindReturn (text : List Char) :
    upToReturn text ++ behindReturn text = text := List.rdropWhile_append_rtakeWhile

theorem upToReturn_of_not_mem {text : List Char} (h : '\r' ∉ text) : upToReturn text = [] := by
  refine List.rdropWhile_eq_nil_iff.mpr fun c hc => ?_
  simpa using fun heq : c = '\r' => h (heq ▸ hc)

/-- What is up to the last carriage return ends with it. -/
theorem exists_upToReturn {text : List Char} (h : '\r' ∈ text) :
    ∃ front, upToReturn text = front ++ ['\r'] := by
  have hne : upToReturn text ≠ [] := by
    intro hnil
    have htext := upToReturn_append_behindReturn text
    rw [hnil, List.nil_append] at htext
    exact not_mem_behindReturn text (htext.symm ▸ h)
  have hlast : (upToReturn text).getLast hne = '\r' :=
    not_not.mp fun hnot => List.rdropWhile_last_not _ text hne (decide_eq_true hnot)
  exact ⟨(upToReturn text).dropLast, by rw [← hlast, List.dropLast_append_getLast]⟩

/-- What is overwritten in the end leaves the complete lines, if it ends none. -/
theorem overwrite_upToReturn {text : List Char} (before : List Char) (h : '\r' ∈ text)
    (hline : '\n' ∉ upToReturn text) : overwrite before (upToReturn text) = completed before := by
  obtain ⟨front, hfront⟩ := exists_upToReturn h
  rw [hfront] at hline ⊢
  rw [overwrite_append, overwrite_return, overwrite_nil]
  exact completed_overwrite before fun hmem => hline (List.mem_append_left _ hmem)

/-- A line that is written at the beginning of a line. -/
theorem overwrite_line {text line : List Char} (htext : completed text = text) (h : '\n' ∉ line) :
    overwrite text line = text ++ behindReturn line := by
  by_cases hreturn : '\r' ∈ line
  · have hsplit := upToReturn_append_behindReturn line
    have hfront : '\n' ∉ upToReturn line := fun hmem => h (hsplit ▸ List.mem_append_left _ hmem)
    conv_lhs => rw [← hsplit, overwrite_append, overwrite_upToReturn text hreturn hfront, htext]
    exact overwrite_of_not_mem text (not_mem_behindReturn line)
  · rw [behindReturn_of_not_mem hreturn]
    exact overwrite_of_not_mem text hreturn

/-- At the beginning of a line nothing is overwritten but the output itself. -/
theorem overwrite_at_line {text : List Char} (htext : completed text = text) (output : List Char) :
    overwrite text output = text ++ overwritten output := by
  by_cases hnewline : '\n' ∈ output
  · obtain ⟨line, rest, houtput, hline⟩ := List.eq_append_cons_of_mem hnewline
    have hlength : rest.length < output.length := by
      rw [houtput, List.length_append, List.length_cons]
      omega
    have hnext := overwrite_at_line (completed_append_newline (text ++ behindReturn line)) rest
    have hsplit : output.splitOn '\n' = line :: rest.splitOn '\n' := by
      rw [houtput, List.splitOn_append_cons_self_of_not_mem hline]
    have hne : (rest.splitOn '\n').map behindReturn ≠ [] := by simp [List.splitOn_ne_nil]
    have hstrike : ∀ text : List Char, overwrite text ('\n' :: rest) = overwrite (text ++ ['\n']) rest :=
      fun _ => rfl
    rw [overwritten, hsplit, List.map_cons, List.intercalate_cons_of_ne_nil hne, houtput,
      overwrite_append, overwrite_line htext hline, hstrike, hnext, overwritten]
    simp only [List.append_assoc]
  · rw [overwritten, List.splitOn_eq_singleton hnewline, overwrite_line htext hnewline]
    simp
termination_by output.length

/-- **Reading output one character after the other overwrites each line.** -/
theorem overwrite_eq_overwritten (output : List Char) : overwrite [] output = overwritten output :=
  overwrite_at_line rfl output

end Emacs
