import Mathlib.Data.List.DropRight
import Mathlib.Data.List.TakeWhile
import Magit.Emacs.SearchLine

/-!
# Commit/Message — the message in a commit buffer

`git-commit-buffer-message` leaves out the comments and what is behind the scissors, and of several
empty lines at the beginning or the end it keeps one newline.  A message that it returns does not
change any more: followed by comments, it is read as itself (`gitCommitBufferMessage_read`).
-/

namespace Magit.GitCommit

open Emacs

/-- `comment-start`.  It is one character, stands for itself in a regexp and has no case. -/
structure CommentStart where
  char : Char
  char_notMem : char ∉ "\n$*+.?[\\^".toList
  toNat_lt : char.toNat < 128
  isAlpha_eq_false : char.isAlpha = false

theorem hash_notMem : '#' ∉ "\n$*+.?[\\^".toList := by decide

theorem toNat_hash_lt : '#'.toNat < 128 := by decide

/-- What `comment-start` is unless `core.commentChar` is set. -/
def CommentStart.hash : CommentStart := ⟨'#', hash_notMem, toNat_hash_lt, rfl⟩

/-- The character that begins a comment is no newline. -/
theorem CommentStart.ne_newline (c : CommentStart) : c.char ≠ '\n' := by
  intro h
  have hnot := c.char_notMem
  rw [h] at hnot
  exact hnot (by decide)

/-- Whether `(concat "^" comment-start)` matches a line. -/
def commented (c : CommentStart) (line : List Char) : Bool := line.head? == some c.char

/-- Whether `(concat "^" comment-start " -+ >8 -+$")` matches a line. -/
def scissors (c : CommentStart) (line : List Char) : Bool :=
  [c.char, ' ', '-'].isPrefixOf line
    && " >8 -".toList.isPrefixOf ((line.drop 2).dropWhile (· == '-'))
    && (((line.drop 2).dropWhile (· == '-')).drop 4).all (· == '-')

/-- The text up to the scissors. -/
def beforeScissors (c : CommentStart) (text : List Char) : List Char :=
  match searchLine (scissors c) text with
  | some p => text.take (p - 1)
  | none => text

/-- Whether `"\\`[ \t\n\r]*\\'"` matches. -/
def blank (text : List Char) : Bool :=
  text.all fun ch => ch == ' ' || ch == '\t' || ch == '\n' || ch == '\r'

/-- Two or more newlines at the beginning become one. -/
def squeezed (text : List Char) : List Char :=
  if (text.takeWhile (· == '\n')).length < 2 then text else '\n' :: text.dropWhile (· == '\n')

/-- The text without comments. -/
def uncommentedText (c : CommentStart) (text : List Char) : List Char :=
  flushLines (commented c) (beforeScissors c text)

/-- `git-commit-buffer-message` -/
def gitCommitBufferMessage (c : CommentStart) (text : List Char) : Option (List Char) :=
  let str := ended (uncommentedText c text)
  if blank str then none else some (squeezed (squeezed str).reverse).reverse

/-! ## The text without comments -/

variable {c : CommentStart} {text rest x m : List Char} {lines : List (List Char)} {i j : ℕ}

/-- No line is a comment. -/
def Uncommented (c : CommentStart) (text : List Char) : Prop :=
  ∀ line ∈ text.splitOn '\n', commented c line = false

theorem commented_nil (c : CommentStart) : commented c [] = false := rfl

/-- The scissors are a comment. -/
theorem scissors_of_not_commented {line : List Char} (h : commented c line = false) :
    scissors c line = false := by
  rcases line with _ | ⟨ch, line⟩
  · rfl
  · have hne : (c.char == ch) = false := by
      rw [beq_eq_false_iff_ne]
      rintro rfl
      rw [commented, List.head?_cons, beq_self_eq_true] at h
      cases h
    rw [scissors, List.isPrefixOf_cons_cons, hne, Bool.false_and, Bool.false_and, Bool.false_and]

/-- Lines without comments are in front of the scissors. -/
theorem beforeScissors_unlines (hlines : ∀ l ∈ lines, '\n' ∉ l)
    (hcomment : ∀ l ∈ lines, commented c l = false) (rest : List Char) :
    beforeScissors c (unlines lines ++ rest) = unlines lines ++ beforeScissors c rest := by
  rw [beforeScissors, beforeScissors,
    searchLine_unlines hlines (fun l hl => scissors_of_not_commented (hcomment l hl))]
  cases hp : searchLine (scissors c) rest with
  | none => rfl
  | some p =>
    have hpos : 1 ≤ p := one_le_of_searchLine hp
    have hsub : (unlines lines).length + p - 1 = (unlines lines).length + (p - 1) := by omega
    show (unlines lines ++ rest).take ((unlines lines).length + p - 1)
      = unlines lines ++ rest.take (p - 1)
    rw [hsub, List.take_length_add_append]

/-- Lines in front that are no comments stay. -/
theorem uncommentedText_unlines (hlines : ∀ l ∈ lines, '\n' ∉ l)
    (hcomment : ∀ l ∈ lines, commented c l = false) (rest : List Char) :
    uncommentedText c (unlines lines ++ rest) = unlines lines ++ uncommentedText c rest := by
  have hkeep : lines.filter (!commented c ·) = lines := by
    rw [List.filter_eq_self]
    intro l hl
    rw [hcomment l hl, Bool.not_false]
  rw [uncommentedText, uncommentedText, beforeScissors_unlines hlines hcomment,
    flushLines_unlines hlines, hkeep]

theorem uncommented_uncommentedText (c : CommentStart) (text : List Char) :
    Uncommented c (uncommentedText c text) := forall_mem_flushLines (commented_nil c)

theorem uncommented_append_newline :
    Uncommented c (text ++ '\n' :: rest) ↔ Uncommented c text ∧ Uncommented c rest := by
  rw [Uncommented, List.splitOn_append_cons_self]
  exact List.forall_mem_append

theorem uncommented_nil (c : CommentStart) : Uncommented c [] :=
  List.forall_mem_singleton.mpr (commented_nil c)

/-- Empty lines in front are no comments. -/
theorem uncommented_newlines_append :
    Uncommented c (List.replicate i '\n' ++ text) ↔ Uncommented c text := by
  induction i with
  | zero => rfl
  | succ i ih =>
    have hnil : Uncommented c ([] ++ '\n' :: (List.replicate i '\n' ++ text)) ↔ _ :=
      uncommented_append_newline
    rw [List.replicate_succ, List.cons_append]
    exact hnil.trans ((and_iff_right (uncommented_nil c)).trans ih)

/-- Empty lines behind are no comments. -/
theorem uncommented_append_newlines :
    Uncommented c (text ++ List.replicate j '\n') ↔ Uncommented c text := by
  cases j with
  | zero => rw [List.replicate_zero, List.append_nil]
  | succ j =>
    have hrest : Uncommented c (List.replicate j '\n') := by
      rw [← List.append_nil (List.replicate j '\n')]
      exact uncommented_newlines_append.mpr (uncommented_nil c)
    rw [List.replicate_succ, uncommented_append_newline]
    exact and_iff_left hrest

/-! ## The message -/

/-- A text that begins and ends in something else than a newline, and is not blank. -/
structure Core (c : CommentStart) (x : List Char) : Prop where
  uncommented : Uncommented c x
  not_blank : blank x = false
  head : x.head? ≠ some '\n'
  last : x.getLast? ≠ some '\n'

/-- The message that such a text makes. -/
def message (i : ℕ) (x : List Char) : List Char := List.replicate (min i 1) '\n' ++ x ++ ['\n']

theorem Core.ne_nil (hx : Core c x) : x ≠ [] := by
  rintro rfl
  exact Bool.noConfusion hx.not_blank

theorem blank_append : blank (text ++ rest) = (blank text && blank rest) := List.all_append

theorem blank_newlines (i : ℕ) : blank (List.replicate i '\n') = true := by
  rw [blank, List.all_eq_true]
  intro ch hch
  obtain rfl := List.eq_of_mem_replicate hch
  rfl

/-- A text is newlines and something else behind them. -/
theorem exists_newlines_append (text : List Char) :
    ∃ i rest, text = List.replicate i '\n' ++ rest ∧ rest.head? ≠ some '\n' := by
  induction text with
  | nil => exact ⟨0, [], rfl, Option.some_ne_none _ |>.symm⟩
  | cons ch text ih =>
    by_cases hch : ch = '\n'
    · obtain ⟨i, rest, rfl, hrest⟩ := ih
      exact ⟨i + 1, rest, by rw [hch, List.replicate_succ, List.cons_append], hrest⟩
    · exact ⟨0, ch :: text, rfl, fun h => hch (Option.some.inj h)⟩

/-- Every text is one that does not end with a newline, and newlines. -/
theorem exists_append_newlines (text : List Char) :
    ∃ rest j, text = rest ++ List.replicate j '\n' ∧ rest.getLast? ≠ some '\n' := by
  obtain ⟨j, rest, htext, hrest⟩ := exists_newlines_append text.reverse
  refine ⟨rest.reverse, j, ?_, by rwa [List.getLast?_reverse]⟩
  rw [← List.reverse_reverse text, htext, List.reverse_append, List.reverse_replicate]

/-- Of several newlines in front one is left. -/
theorem squeezed_newlines_append (h : text.head? ≠ some '\n') :
    squeezed (List.replicate i '\n' ++ text) = List.replicate (min i 1) '\n' ++ text := by
  have hnewlines : ∀ ch ∈ List.replicate i '\n', (ch == '\n') = true := by
    intro ch hch
    rw [List.eq_of_mem_replicate hch, beq_self_eq_true]
  have hend : text.takeWhile (· == '\n') = [] ∧ text.dropWhile (· == '\n') = text := by
    rcases text with _ | ⟨ch, text⟩
    · exact ⟨rfl, rfl⟩
    · have hch : ¬(ch == '\n') = true := fun heq => h (congrArg some (eq_of_beq heq))
      exact ⟨List.takeWhile_cons_of_neg hch, List.dropWhile_cons_of_neg hch⟩
  rw [squeezed, List.takeWhile_append_of_pos hnewlines, List.dropWhile_append_of_pos hnewlines,
    hend.1, hend.2, List.append_nil, List.length_replicate]
  split
  · next hlt => rw [Nat.min_eq_left (by omega)]
  · next hle => rw [Nat.min_eq_right (by omega), List.replicate_one, List.singleton_append]

/-- A newline at the end does not make a text blank or not. -/
theorem blank_ended (text : List Char) : blank (ended text) = blank text := by
  rw [ended]
  split
  · rfl
  · rw [blank_append]
    exact Bool.and_true _

/-- Ending the last line leaves the core, and at least one newline behind it. -/
theorem exists_ended (hx : Core c x) :
    ∃ k, ended (List.replicate i '\n' ++ x ++ List.replicate j '\n')
      = List.replicate i '\n' ++ x ++ List.replicate (k + 1) '\n' := by
  rcases j with _ | j
  · have hlast : (List.replicate i '\n' ++ x).getLast? ≠ some '\n' := by
      rw [List.getLast?_append_of_ne_nil _ hx.ne_nil]
      exact hx.last
    rw [List.replicate_zero, List.append_nil, ended, if_neg hlast]
    exact ⟨0, rfl⟩
  · refine ⟨j, if_pos ?_⟩
    rw [List.replicate_succ', ← List.append_assoc, List.getLast?_concat]

/-- What `git-commit-buffer-message` makes of newlines around such a text. -/
theorem gitCommitBufferMessage_eq (hx : Core c x)
    (hstr : uncommentedText c text = List.replicate i '\n' ++ x ++ List.replicate j '\n') :
    gitCommitBufferMessage c text = some (message i x) := by
  obtain ⟨k, hk⟩ := exists_ended (i := i) (j := j) hx
  rw [← hstr] at hk
  have hhead : (x ++ List.replicate (k + 1) '\n').head? ≠ some '\n' := by
    rw [List.head?_append_of_ne_nil _ hx.ne_nil]
    exact hx.head
  have hend : (x.reverse ++ List.replicate (min i 1) '\n').head? ≠ some '\n' := by
    rw [List.head?_append_of_ne_nil _ (List.reverse_eq_nil_iff.not.mpr hx.ne_nil),
      List.head?_reverse]
    exact hx.last
  rw [gitCommitBufferMessage, hk]
  simp only [blank_append, hx.not_blank, Bool.and_false, Bool.false_and, Bool.false_eq_true,
    if_false]
  rw [List.append_assoc, squeezed_newlines_append hhead, List.reverse_append, List.reverse_append,
    List.reverse_replicate, List.reverse_replicate, List.append_assoc,
    squeezed_newlines_append hend, Nat.min_eq_right (Nat.le_add_left 1 k), List.reverse_append,
    List.reverse_append, List.reverse_reverse, List.reverse_replicate, List.reverse_replicate]
  rfl

/-- What is read of a buffer is a core between newlines. -/
theorem exists_core (h : gitCommitBufferMessage c text = some m) :
    ∃ i x, Core c x ∧ m = message i x := by
  obtain ⟨i, rest, hstr, hhead⟩ := exists_newlines_append (uncommentedText c text)
  obtain ⟨x, j, rfl, hlast⟩ := exists_append_newlines rest
  rw [← List.append_assoc] at hstr
  have hblank : blank x = false := by
    by_contra hb
    rw [Bool.not_eq_false] at hb
    have hall : blank (ended (uncommentedText c text)) = true := by
      rw [blank_ended, hstr, blank_append, blank_append, hb, blank_newlines, blank_newlines]
      rfl
    rw [gitCommitBufferMessage, if_pos hall] at h
    cases h
  have hne : x ≠ [] := by
    rintro rfl
    exact Bool.noConfusion hblank
  have hx : Core c x := by
    refine ⟨?_, hblank, ?_, hlast⟩
    · have hall := uncommented_uncommentedText c text
      rw [hstr] at hall
      exact uncommented_newlines_append.mp (uncommented_append_newlines.mp hall)
    · rwa [List.head?_append_of_ne_nil _ hne] at hhead
  refine ⟨i, x, hx, ?_⟩
  rw [gitCommitBufferMessage_eq hx hstr] at h
  exact (Option.some.inj h).symm

/-- The lines of a message. -/
def messageLines (i : ℕ) (x : List Char) : List (List Char) :=
  (List.replicate (min i 1) '\n' ++ x).splitOn '\n'

theorem unlines_messageLines (i : ℕ) (x : List Char) : unlines (messageLines i x) = message i x :=
  unlines_splitOn _

theorem newline_notMem_messageLines (i : ℕ) (x : List Char) : ∀ l ∈ messageLines i x, '\n' ∉ l :=
  fun _ hl => notMem_of_mem_splitOn hl

theorem Core.messageLines (hx : Core c x) (i : ℕ) :
    ∀ l ∈ messageLines i x, commented c l = false :=
  uncommented_newlines_append.mpr hx.uncommented

/-- A message is read as itself where comments and newlines follow it. -/
theorem gitCommitBufferMessage_read (hx : Core c x)
    (hrest : uncommentedText c rest = List.replicate j '\n') :
    gitCommitBufferMessage c (message i x ++ rest) = some (message i x) := by
  have hstr : uncommentedText c (message i x ++ rest)
      = List.replicate (min i 1) '\n' ++ x ++ List.replicate (j + 1) '\n' := by
    rw [← unlines_messageLines, uncommentedText_unlines (newline_notMem_messageLines i x)
      (hx.messageLines i), unlines_messageLines, hrest, message, List.append_assoc,
      List.replicate_succ]
    rfl
  rw [gitCommitBufferMessage_eq hx hstr, message, message, Nat.min_eq_left (Nat.min_le_right i 1)]

/-! ## The lines of the message -/

/-- At most one of the empty lines at the beginning. -/
def squeezedLines (lines : List (List Char)) : List (List Char) :=
  List.replicate (min (lines.takeWhile (· = [])).length 1) [] ++ lines.dropWhile (· = [])

/-- Every list of lines is empty lines and then one that begins with text; of the empty ones one is
left. -/
theorem exists_empty_append (lines : List (List Char)) :
    ∃ i more, lines = List.replicate i [] ++ more ∧ more.head? ≠ some []
      ∧ squeezedLines lines = List.replicate (min i 1) [] ++ more := by
  have hempty : lines.takeWhile (· = []) = List.replicate (lines.takeWhile (· = [])).length [] :=
    List.eq_replicate_of_mem fun l hl => by simpa using List.mem_takeWhile_imp hl
  refine ⟨(lines.takeWhile (· = [])).length, lines.dropWhile (· = []), ?_, ?_, rfl⟩
  · rw [← hempty, List.takeWhile_append_dropWhile]
  · intro hhead
    have hnot := List.head?_dropWhile_not (fun l : List Char => decide (l = [])) lines
    rw [hhead] at hnot
    simp at hnot

/-- Every list of lines is one that ends with text, and then empty lines. -/
theorem exists_append_empty (lines : List (List Char)) :
    ∃ j, lines = lines.rdropWhile (· = []) ++ List.replicate j []
      ∧ (lines.rdropWhile (· = [])).getLast? ≠ some [] := by
  have hempty : lines.rtakeWhile (· = []) = List.replicate (lines.rtakeWhile (· = [])).length [] :=
    List.eq_replicate_of_mem fun l hl => by simpa using List.mem_rtakeWhile_imp hl
  refine ⟨(lines.rtakeWhile (· = [])).length, ?_, ?_⟩
  · rw [← hempty, List.rdropWhile_append_rtakeWhile]
  · by_cases hnil : lines.rdropWhile (· = []) = []
    · rw [hnil]
      exact (Option.some_ne_none _).symm
    · have hnot := List.rdropWhile_last_not _ _ hnil
      rw [List.getLast?_eq_getLast_of_ne_nil hnil]
      intro h
      exact hnot (by simpa using Option.some.inj h)

theorem unlines_replicate (i : ℕ) : unlines (List.replicate i []) = List.replicate i '\n' := by
  induction i with
  | zero => rfl
  | succ i ih => rw [List.replicate_succ, unlines_cons, ih, List.replicate_succ, List.nil_append]

/-- Lines of which the first and the last one are not empty. -/
theorem exists_text_of_lines (hlines : ∀ l ∈ lines, '\n' ∉ l) (hne : lines ≠ [])
    (hhead : lines.head? ≠ some []) (hlast : lines.getLast? ≠ some []) :
    ∃ x, unlines lines = x ++ ['\n'] ∧ x.head? ≠ some '\n' ∧ x.getLast? ≠ some '\n' := by
  rcases List.eq_nil_or_concat lines with hnil | ⟨front, last, hconcat⟩
  · exact absurd hnil hne
  rw [List.concat_eq_append] at hconcat
  subst hconcat
  have hlastNe : last ≠ [] := by
    rintro rfl
    exact hlast List.getLast?_concat
  have hlastMem : '\n' ∉ last := hlines last (by simp)
  refine ⟨unlines front ++ last, ?_, ?_, ?_⟩
  · rw [unlines_append, unlines_cons, unlines_nil, List.append_assoc]
  · rcases front with _ | ⟨line, front⟩
    · intro h
      exact hlastMem (List.mem_of_head? h)
    · have hlineNe : line ≠ [] := by
        rintro rfl
        exact hhead rfl
      intro h
      rw [unlines_cons, List.append_assoc, List.head?_append_of_ne_nil _ hlineNe] at h
      exact hlines line List.mem_cons_self (List.mem_of_head? h)
  · rw [List.getLast?_append_of_ne_nil _ hlastNe]
    intro h
    exact hlastMem (List.mem_of_getLast? h)

/-- **What is read of some lines in front of the comments**: no more than one empty line at the
beginning, and none at the end. -/
theorem gitCommitBufferMessage_lines {before behind : List (List Char)} {line : List Char} {k : ℕ}
    (hlines : ∀ l ∈ before ++ line :: behind, '\n' ∉ l)
    (hcomment : ∀ l ∈ before ++ line :: behind, commented c l = false) (hline : line ≠ [])
    (hblank : blank (unlines (before ++ line :: behind)) = false)
    (hrest : uncommentedText c rest = List.replicate k '\n') :
    gitCommitBufferMessage c (unlines (before ++ line :: behind) ++ rest)
      = some (unlines (squeezedLines before ++ line :: behind.rdropWhile (· = []))) := by
  obtain ⟨i, more, hbefore, hhead, hsqueezed⟩ := exists_empty_append before
  obtain ⟨j, hbehind, hlast⟩ := exists_append_empty behind
  generalize behind.rdropWhile (· = []) = last at hbehind hlast
  have htext : unlines (before ++ line :: behind)
      = List.replicate i '\n' ++ unlines (more ++ line :: last) ++ List.replicate j '\n' := by
    rw [hbefore, hbehind, ← unlines_replicate i, ← unlines_replicate j, ← unlines_append,
      ← unlines_append]
    simp only [List.append_assoc, List.cons_append]
  have hmem : ∀ l ∈ more ++ line :: last, l ∈ before ++ line :: behind := by
    rw [hbefore, hbehind]
    intro l hl
    simp only [List.mem_append, List.mem_cons] at hl ⊢
    tauto
  obtain ⟨x, hx, hxhead, hxlast⟩ := exists_text_of_lines
    (fun l hl => hlines l (hmem l hl)) (List.append_ne_nil_of_right_ne_nil _ (List.cons_ne_nil _ _))
    (by
      rcases more with _ | ⟨l, more⟩
      · exact fun h => hline (Option.some.inj h)
      · exact hhead)
    (by
      rw [List.getLast?_append_of_ne_nil _ (List.cons_ne_nil _ _)]
      rcases List.eq_nil_or_concat last with rfl | ⟨front, l, rfl⟩
      · exact fun h => hline (Option.some.inj h)
      · rw [List.concat_eq_append] at hlast ⊢
        rwa [← List.cons_append, List.getLast?_concat, ← List.getLast?_concat])
  have hcore : Core c x := by
    refine ⟨?_, ?_, hxhead, hxlast⟩
    · have hall : Uncommented c (x ++ ['\n']) := by
        rw [← hx, Uncommented, ← List.append_nil (unlines _),
          splitOn_unlines fun l hl => hlines l (hmem l hl)]
        exact List.forall_mem_append.mpr
          ⟨fun l hl => hcomment l (hmem l hl), uncommented_nil c⟩
      exact (uncommented_append_newline.mp hall).1
    · have hnewline : blank ['\n'] = true := rfl
      rw [htext, hx, blank_append, blank_append, blank_append, blank_newlines, blank_newlines,
        hnewline] at hblank
      simpa using hblank
  have hstr : uncommentedText c (unlines (before ++ line :: behind) ++ rest)
      = List.replicate i '\n' ++ x ++ List.replicate (1 + j + k) '\n' := by
    rw [uncommentedText_unlines hlines hcomment, htext, hrest, hx, List.replicate_add,
      List.replicate_add, List.replicate_one]
    simp only [List.append_assoc]
  rw [gitCommitBufferMessage_eq hcore hstr, message, hsqueezed,
    List.append_assoc (List.replicate (min i 1) []), unlines_append, unlines_replicate, hx,
    List.append_assoc]

/-! ## The buffer -/

/-- What the user writes: lines that are no comments. -/
structure Body (c : CommentStart) where
  lines : List (List Char)
  newline_notMem : ∀ l ∈ lines, '\n' ∉ l
  uncommented : ∀ l ∈ lines, commented c l = false

/-- What Git writes below it: comments, and what follows the scissors. -/
structure Comments (c : CommentStart) where
  text : List Char
  head : text.head? = some c.char
  left : ∃ k, uncommentedText c text = List.replicate k '\n'

/-- The comments begin with a comment. -/
theorem Comments.searchLine (comments : Comments c) :
    searchLine (commented c) comments.text = some 1 := by
  obtain ⟨text, htext⟩ := List.head?_eq_some_iff.mp comments.head
  obtain ⟨line, lines, hlines⟩ := List.exists_cons_of_ne_nil (List.splitOn_ne_nil '\n' text)
  have hsplit : comments.text.splitOn '\n' = (c.char :: line) :: lines := by
    rw [htext, List.splitOn_cons_eq_if_modifyHead, if_neg (by simp [c.ne_newline]), hlines]
    rfl
  have hhead : c.char :: line ∈ (comments.text.splitOn '\n').head? := by
    rw [hsplit]
    rfl
  refine searchLine_of_head hhead ?_
  rw [commented, List.head?_cons, beq_self_eq_true]

/-- A body of one line. -/
def Body.ofLine (line : List Char) (hline : '\n' ∉ line) (hcomment : commented c line = false) :
    Body c where
  lines := [line]
  newline_notMem := List.forall_mem_singleton.mpr hline
  uncommented := List.forall_mem_singleton.mpr hcomment

/-- A message of one line. -/
def fixBug : Body .hash := .ofLine "Fix bug".toList (by decide) rfl

/-- A comment of one line. -/
def pleaseEnter : Comments .hash where
  text := "# Please enter\n".toList
  head := rfl
  left := ⟨0, by decide⟩

end Magit.GitCommit
