import Mathlib.Data.List.DropRight
import Magit.Commit.Message
import Magit.Emacs.LineAt

/-!
# Commit/Trailers — inserting trailers

`git-commit--insert-trailer` looks for the last trailer of the whole buffer, and without one for the
first comment behind the message.  Where nothing in the comments, or in the diff below them, looks
like a trailer, trailers that are inserted one after the other stand behind those of the message, in
that order (`runTrailers_message`).
-/

namespace Magit.GitCommit

open Emacs

/-- `git-commit-trailers`, as long as it is not customized. -/
def gitCommitTrailers : List (List Char) :=
  ["Acked-by", "Modified-by", "Reviewed-by", "Signed-off-by", "Tested-by", "Cc", "Reported-by",
    "Suggested-by", "Co-authored-by", "Co-developed-by"].map String.toList

section

variable (fold : Char → Char) (trailers : List (List Char))

/-- `[-a-zA-Z]` -/
def wordChar (ch : Char) : Bool := ch == '-' || ch.isAlpha || (fold ch).isAlpha

/-- ` \([^<\n]+? <[^>\n]+>\)`, behind the colon. -/
def identBehind (text : List Char) : Bool :=
  let name := text.takeWhile (· ≠ '<')
  let mail := (text.dropWhile (· ≠ '<')).drop 1
  2 ≤ name.length && name.getLast? == some ' '
    && mail.takeWhile (· ≠ '>') != [] && mail.dropWhile (· ≠ '>') != []

/-- Whether `git-commit--trailer-regexp` matches a line. -/
def trailing (line : List Char) : Bool :=
  trailers.any (fun trailer => lookingAt fold (trailer ++ ": ".toList) line)
    || (line.takeWhile (wordChar fold) != []
      && ": ".toList.isPrefixOf (line.dropWhile (wordChar fold))
      && identBehind ((line.dropWhile (wordChar fold)).drop 2))

end

/-- Point after the loop that passes over leading comments. -/
def leadingCommentEnd (c : CommentStart) (text : List Char) : ℕ :=
  min ((unlines ((text.splitOn '\n').takeWhile (commented c))).length + 1) (text.length + 1)

/-- Point after the loop that goes back, from the end, to the first comment that is not a leading
one. -/
def firstComment (c : CommentStart) (text : List Char) : ℕ :=
  match searchLine (commented c) (textFrom text (leadingCommentEnd c text)) with
  | some p => leadingCommentEnd c text + p - 1
  | none => text.length + 1

/-- Where the line begins that `re-search-backward` finds from the end of the text. -/
def searchLineBackward (matching : List Char → Bool) (text : List Char) : Option ℕ :=
  if (text.splitOn '\n').any matching then
    some ((unlines ((text.splitOn '\n').reverse.dropWhile (!matching ·)).tail.reverse).length + 1)
  else none

/-- Inserts a newline at a position, unless one follows or the text ends there. -/
def newlineBehind (text : List Char) (p : ℕ) : List Char :=
  match charAfter text p with
  | some ch => if ch = '\n' then text else insertText text p ['\n']
  | none => text

/-- `git-commit--insert-trailer`, for a regexp.  Behind a trailer at the end of the buffer there is
no character to compare, and it signals. -/
def gitCommitInsertTrailer (c : CommentStart) (matching : List Char → Bool)
    (trailer value text : List Char) :
    Option (List Char) :=
  let string := trailer ++ ": ".toList ++ value
  match searchLineBackward matching text with
  | some p =>
    let eol := lineEnd text p
    let text := insertText text eol ('\n' :: string)
    (charAfter text (eol + 1 + string.length)).map fun ch =>
      if ch = '\n' then newlineBehind text (eol + 1 + string.length)
      else
        newlineBehind (insertText text (eol + 1 + string.length) ['\n']) (eol + string.length + 2)
  | none =>
    let p := firstComment c text
    let piece := (if "\n\n".toList.isSuffixOf (text.take (p - 1)) then [] else ['\n'])
      ++ string ++ ['\n']
    some (newlineBehind (insertText text p piece) (p + piece.length))

/-- The commands. -/
inductive TrailerCommand
  | ack
  | modified
  | review
  | signoff
  | test
  | cc
  | reported
  | suggested
  | coAuthored
  | coDeveloped

/-- The trailer that a command inserts. -/
def TrailerCommand.trailer : TrailerCommand → List Char
  | ack => "Acked-by".toList
  | modified => "Modified-by".toList
  | review => "Reviewed-by".toList
  | signoff => "Signed-off-by".toList
  | test => "Tested-by".toList
  | cc => "Cc".toList
  | reported => "Reported-by".toList
  | suggested => "Suggested-by".toList
  | coAuthored => "Co-authored-by".toList
  | coDeveloped => "Co-developed-by".toList

/-- A name and a mail address. -/
structure Ident where
  name : List Char
  mail : List Char
  newline_notMem : '\n' ∉ name ++ mail

/-- `(format "%s <%s>" name email)` -/
def Ident.value (ident : Ident) : List Char := ident.name ++ " <".toList ++ ident.mail ++ ">".toList

/-- `git-commit--insert-ident-trailer`, as a command calls it. -/
def insertIdentTrailer (c : CommentStart) (matching : List Char → Bool) (command : TrailerCommand)
    (ident : Ident) (text : List Char) : Option (List Char) :=
  gitCommitInsertTrailer c matching command.trailer ident.value text

/-- Commands one after the other. -/
def runTrailers (c : CommentStart) (matching : List Char → Bool) :
    List (TrailerCommand × Ident) → List Char → Option (List Char)
  | [], text => some text
  | e :: es, text => (insertIdentTrailer c matching e.1 e.2 text).bind (runTrailers c matching es)

/-- The line that a command inserts. -/
def trailerLine (e : TrailerCommand × Ident) : List Char :=
  e.1.trailer ++ ": ".toList ++ e.2.value

variable {c : CommentStart} {matching : List Char → Bool} {trailer value line rest : List Char}
  {before behind lines : List (List Char)}

/-! ## The place -/

/-- The search backward finds the last line that matches. -/
theorem searchLineBackward_unlines (hlines : ∀ l ∈ before ++ line :: behind, '\n' ∉ l)
    (hline : matching line = true) (hbehind : ∀ l ∈ behind, matching l = false)
    (hrest : ∀ l ∈ rest.splitOn '\n', matching l = false) :
    searchLineBackward matching (unlines (before ++ line :: behind) ++ rest)
      = some ((unlines before).length + 1) := by
  have hpass : ∀ l ∈ (rest.splitOn '\n').reverse ++ behind.reverse, (!matching l) = true := by
    intro l hl
    rw [List.mem_append, List.mem_reverse, List.mem_reverse] at hl
    rw [Bool.not_eq_true']
    exact hl.elim (hrest l) (hbehind l)
  have hany : (before ++ line :: behind ++ rest.splitOn '\n').any matching = true := by
    rw [List.any_eq_true]
    exact ⟨line, by simp, hline⟩
  have hreverse : (before ++ line :: behind ++ rest.splitOn '\n').reverse
      = ((rest.splitOn '\n').reverse ++ behind.reverse) ++ line :: before.reverse := by
    simp
  have hstop : (line :: before.reverse).dropWhile (!matching ·) = line :: before.reverse :=
    List.dropWhile_cons_of_neg (by rw [hline, Bool.not_true]; exact Bool.false_ne_true)
  rw [searchLineBackward, splitOn_unlines hlines, hany, if_pos rfl, hreverse,
    List.dropWhile_append_of_pos hpass, hstop, List.tail_cons, List.reverse_reverse]

/-- Without a line that matches the search backward fails. -/
theorem searchLineBackward_eq_none (hlines : ∀ l ∈ lines, '\n' ∉ l)
    (hmatching : ∀ l ∈ lines, matching l = false)
    (hrest : ∀ l ∈ rest.splitOn '\n', matching l = false) :
    searchLineBackward matching (unlines lines ++ rest) = none := by
  rw [searchLineBackward, splitOn_unlines hlines, if_neg]
  rw [List.any_eq_true]
  rintro ⟨l, hl, hm⟩
  rcases List.mem_append.mp hl with hl | hl
  · rw [hmatching l hl] at hm
    cases hm
  · rw [hrest l hl] at hm
    cases hm

/-- Where the message is not empty, the first comment is behind it. -/
theorem firstComment_body (body : Body c) (comments : Comments c) (hne : body.lines ≠ []) :
    firstComment c (unlines body.lines ++ comments.text) = (unlines body.lines).length + 1 := by
  obtain ⟨line, lines, hcons⟩ := List.exists_cons_of_ne_nil hne
  have hlead :
      ((unlines body.lines ++ comments.text).splitOn '\n').takeWhile (commented c) = [] := by
    have hline := body.uncommented line (hcons ▸ List.mem_cons_self)
    rw [splitOn_unlines body.newline_notMem, hcons, List.cons_append]
    exact List.takeWhile_cons_of_neg (ne_true_of_eq_false hline)
  have hstart : leadingCommentEnd c (unlines body.lines ++ comments.text) = 1 := by
    rw [leadingCommentEnd, hlead, unlines_nil, List.length_nil]
    omega
  rw [firstComment, hstart, textFrom, Nat.sub_self, List.drop_zero,
    searchLine_unlines body.newline_notMem body.uncommented, comments.searchLine, Option.map_some]
  dsimp only
  omega

/-! ## One trailer -/

theorem charAfter_append {text front back : List Char} {p : ℕ} (htext : text = front ++ back)
    (hp : p = front.length + 1) : charAfter text p = back.head? := by
  rw [charAfter, textFrom, htext, hp, Nat.add_sub_cancel, List.drop_left]

/-- Behind the last trailer. -/
theorem gitCommitInsertTrailer_of_trailer (hlines : ∀ l ∈ before ++ line :: behind, '\n' ∉ l)
    (hline : matching line = true) (hbehind : ∀ l ∈ behind, matching l = false)
    (hrest : ∀ l ∈ rest.splitOn '\n', matching l = false) (trailer value : List Char) :
    gitCommitInsertTrailer c matching trailer value (unlines (before ++ line :: behind) ++ rest)
      = some (unlines (before ++ line :: (trailer ++ ": ".toList ++ value) :: behind) ++ rest) := by
  have hat : Line (unlines (before ++ line :: behind) ++ rest) (unlines before) line
      ('\n' :: (unlines behind ++ rest)) := by
    refine ⟨?_, completed_unlines before,
      hlines line (List.mem_append_right _ List.mem_cons_self), .inr ⟨_, rfl⟩⟩
    rw [unlines_append, unlines_cons]
    simp only [List.append_assoc, List.cons_append]
  have heol : lineEnd (unlines (before ++ line :: behind) ++ rest) ((unlines before).length + 1)
      = (unlines before ++ line).length + 1 := by
    rw [hat.lineEnd (Nat.le_refl _) (by omega), List.length_append]
  rw [gitCommitInsertTrailer, searchLineBackward_unlines hlines hline hbehind hrest]
  dsimp only
  have htext : unlines (before ++ line :: behind) ++ rest
      = unlines before ++ line ++ '\n' :: (unlines behind ++ rest) := hat.text_eq
  have hinsert : insertText (unlines (before ++ line :: behind) ++ rest)
      ((unlines before ++ line).length + 1) ('\n' :: (trailer ++ ": ".toList ++ value)) = _ :=
    insertText_append htext rfl
  have hchar := charAfter_append (p := (unlines before ++ line).length + 1 + 1
    + (trailer ++ ": ".toList ++ value).length) hinsert (by
      simp only [List.length_append, List.length_cons]
      omega)
  rw [List.head?_cons] at hchar
  rw [heol, hchar, Option.map_some, if_pos rfl, newlineBehind, hchar]
  dsimp only
  rw [if_pos rfl, hinsert, unlines_append, unlines_cons, unlines_cons]
  simp only [List.append_assoc, List.cons_append]

/-- The newlines that are missing for an empty line. -/
def separator (lines : List (List Char)) : List (List Char) :=
  if "\n\n".toList.isSuffixOf (unlines lines) then [] else [[]]

/-- What is inserted is the trailer as a line of its own, with an empty line in front if there is
none. -/
theorem piece_eq (lines : List (List Char)) (string : List Char) :
    (if "\n\n".toList.isSuffixOf (unlines lines) then [] else ['\n']) ++ string ++ ['\n']
      = unlines (separator lines ++ [string]) := by
  rw [separator, unlines_append, unlines_cons, unlines_nil, List.append_assoc]
  split <;> rfl

/-- Or between the message and the comments. -/
theorem gitCommitInsertTrailer_of_body (body : Body c) (comments : Comments c)
    (hne : body.lines ≠ []) (hbody : ∀ l ∈ body.lines, matching l = false)
    (hcomments : ∀ l ∈ comments.text.splitOn '\n', matching l = false)
    (trailer value : List Char) :
    gitCommitInsertTrailer c matching trailer value (unlines body.lines ++ comments.text)
      = some (unlines (body.lines ++ separator body.lines
        ++ (trailer ++ ": ".toList ++ value) :: [[]]) ++ comments.text) := by
  rw [gitCommitInsertTrailer, searchLineBackward_eq_none body.newline_notMem hbody hcomments]
  dsimp only
  rw [firstComment_body body comments hne, Nat.add_sub_cancel, List.take_left,
    piece_eq body.lines]
  generalize hpiece : unlines (separator body.lines ++ [trailer ++ ": ".toList ++ value]) = piece
  have hinsert : insertText (unlines body.lines ++ comments.text) ((unlines body.lines).length + 1)
      piece = unlines body.lines ++ piece ++ comments.text := insertText_append rfl rfl
  have hpos : (unlines body.lines).length + 1 + piece.length
      = (unlines body.lines ++ piece).length + 1 := by
    rw [List.length_append]
    omega
  rw [hinsert, newlineBehind, charAfter_append rfl hpos, comments.head]
  dsimp only
  rw [if_neg c.ne_newline, insertText_append rfl hpos, ← hpiece]
  simp only [unlines_append, unlines_cons, unlines_nil, List.append_assoc, List.cons_append,
    List.nil_append]

/-! ## The lines that are inserted -/

theorem TrailerCommand.newline_notMem (command : TrailerCommand) :
    '\n' ∉ command.trailer ++ ": ".toList := by
  cases command <;> decide

/-- A trailer is one line. -/
theorem newline_notMem_trailerLine (e : TrailerCommand × Ident) : '\n' ∉ trailerLine e := by
  have hname := e.1.newline_notMem
  have hident := e.2.newline_notMem
  rw [trailerLine, Ident.value]
  simp only [List.mem_append, not_or] at hname hident ⊢
  exact ⟨hname, ⟨⟨hident.1, by decide⟩, hident.2⟩, by decide⟩

theorem exists_trailerLine (e : TrailerCommand × Ident) :
    ∃ ch more, trailerLine e = ch :: more ∧ ch.isAlpha = true := by
  rcases e with ⟨command, ident⟩
  cases command <;> exact ⟨_, _, rfl, by decide⟩

/-- A trailer is no comment. -/
theorem commented_trailerLine (c : CommentStart) (e : TrailerCommand × Ident) :
    commented c (trailerLine e) = false := by
  obtain ⟨ch, more, heq, hch⟩ := exists_trailerLine e
  rw [heq, commented, List.head?_cons, beq_eq_false_iff_ne]
  intro h
  rw [Option.some.inj h, c.isAlpha_eq_false] at hch
  cases hch

/-- A trailer is not blank. -/
theorem blank_trailerLine (e : TrailerCommand × Ident) : blank (trailerLine e) = false := by
  obtain ⟨ch, more, heq, hch⟩ := exists_trailerLine e
  have hspace : (ch == ' ' || ch == '\t' || ch == '\n' || ch == '\r') = false := by
    by_contra hnot
    simp only [Bool.not_eq_false, Bool.or_eq_true, beq_iff_eq] at hnot
    rcases hnot with ((rfl | rfl) | rfl) | rfl <;> exact Bool.noConfusion hch
  rw [heq, blank, List.all_cons, hspace, Bool.false_and]

/-- A trailer that is known is recognized. -/
theorem trailing_trailerLine {trailers : List (List Char)} (fold : Char → Char)
    (e : TrailerCommand × Ident) (hmem : e.1.trailer ∈ trailers) :
    trailing fold trailers (trailerLine e) = true := by
  have hany : trailers.any (fun trailer => lookingAt fold (trailer ++ ": ".toList)
      (trailerLine e)) = true :=
    List.any_eq_true.mpr ⟨_, hmem, lookingAt_append _ _⟩
  rw [trailing, hany, Bool.true_or]

/-! ## Several trailers -/

/-- **Behind a trailer** the others are inserted below it, in order. -/
theorem runTrailers_of_trailer (es : List (TrailerCommand × Ident))
    (hes : ∀ e ∈ es, matching (trailerLine e) = true)
    (hlines : ∀ l ∈ before ++ line :: behind, '\n' ∉ l) (hline : matching line = true)
    (hbehind : ∀ l ∈ behind, matching l = false)
    (hrest : ∀ l ∈ rest.splitOn '\n', matching l = false) :
    runTrailers c matching es (unlines (before ++ line :: behind) ++ rest)
      = some (unlines (before ++ line :: (es.map trailerLine ++ behind)) ++ rest) := by
  induction es generalizing before line with
  | nil => rfl
  | cons e es ih =>
    obtain ⟨he, hes⟩ := List.forall_mem_cons.mp hes
    have hsplit : ∀ more, before ++ line :: trailerLine e :: more
        = (before ++ [line]) ++ trailerLine e :: more := by
      intro more
      rw [List.append_assoc, List.singleton_append]
    have hnew : ∀ l ∈ (before ++ [line]) ++ trailerLine e :: behind, '\n' ∉ l := by
      intro l hl
      rw [← hsplit] at hl
      rcases List.mem_append.mp hl with hl | hl
      · exact hlines l (List.mem_append_left _ hl)
      · rcases List.mem_cons.mp hl with rfl | hl
        · exact hlines l (List.mem_append_right _ List.mem_cons_self)
        · rcases List.mem_cons.mp hl with rfl | hl
          · exact newline_notMem_trailerLine e
          · exact hlines l (List.mem_append_right _ (List.mem_cons_of_mem _ hl))
    rw [runTrailers, insertIdentTrailer,
      gitCommitInsertTrailer_of_trailer hlines hline hbehind hrest, Option.bind_some]
    change runTrailers c matching es
      (unlines (before ++ line :: trailerLine e :: behind) ++ rest) = _
    rw [hsplit, ih hes hnew he, ← hsplit, List.map_cons, List.cons_append]

/-- **Without a trailer** they are inserted below the body, behind an empty line. -/
theorem runTrailers_of_body (body : Body c) (comments : Comments c) (hne : body.lines ≠ [])
    (hbody : ∀ l ∈ body.lines, matching l = false)
    (hcomments : ∀ l ∈ comments.text.splitOn '\n', matching l = false)
    (hnil : matching [] = false) {es : List (TrailerCommand × Ident)} (hes : es ≠ [])
    (hmatching : ∀ e ∈ es, matching (trailerLine e) = true) :
    runTrailers c matching es (unlines body.lines ++ comments.text)
      = some (unlines (body.lines ++ separator body.lines ++ es.map trailerLine ++ [[]])
        ++ comments.text) := by
  obtain ⟨e, es, rfl⟩ := List.exists_cons_of_ne_nil hes
  obtain ⟨he, hes⟩ := List.forall_mem_cons.mp hmatching
  have hsep : ∀ l ∈ separator body.lines, '\n' ∉ l := by
    rw [separator]
    split
    · exact List.forall_mem_nil _
    · exact List.forall_mem_singleton.mpr List.not_mem_nil
  have hlines : ∀ l ∈ (body.lines ++ separator body.lines) ++ trailerLine e :: [[]], '\n' ∉ l := by
    simp only [List.forall_mem_append, List.forall_mem_cons]
    exact ⟨⟨body.newline_notMem, hsep⟩, newline_notMem_trailerLine e, List.not_mem_nil,
      List.forall_mem_nil _⟩
  rw [runTrailers, insertIdentTrailer,
    gitCommitInsertTrailer_of_body body comments hne hbody hcomments, Option.bind_some]
  change runTrailers c matching es (unlines (body.lines ++ separator body.lines
    ++ trailerLine e :: [[]]) ++ comments.text) = _
  rw [runTrailers_of_trailer es hes hlines he (List.forall_mem_singleton.mpr hnil) hcomments,
    List.map_cons]
  simp only [List.append_assoc, List.cons_append]

/-! ## The message -/

theorem blank_unlines : blank (unlines lines) = lines.all blank := by
  induction lines with
  | nil => rfl
  | cons line lines ih =>
    have hnewline : blank ['\n'] = true := rfl
    rw [unlines_cons, ← List.singleton_append, ← List.append_assoc, blank_append, blank_append,
      hnewline, Bool.and_true, ih, List.all_cons]

theorem blank_unlines_of_mem (hmem : line ∈ lines) (hline : blank line = false) :
    blank (unlines lines) = false := by
  rw [blank_unlines, List.all_eq_false]
  exact ⟨line, hmem, ne_true_of_eq_false hline⟩

/-- What is not dropped at the end keeps what is in front of it. -/
theorem rdropWhile_append_of_neg {α : Type*} {p : α → Bool} {as : List α} (has : ∀ a ∈ as, ¬p a)
    (bs : List α) : (as ++ bs).rdropWhile p = as ++ bs.rdropWhile p := by
  induction bs using List.reverseRecOn with
  | nil =>
    rw [List.rdropWhile_nil, List.append_nil, List.rdropWhile_eq_self_iff]
    exact fun hne => has _ (List.getLast_mem hne)
  | append_singleton bs b ih =>
    rw [← List.append_assoc]
    by_cases hb : p b
    · rw [List.rdropWhile_concat_pos _ _ _ hb, List.rdropWhile_concat_pos _ _ _ hb, ih]
    · rw [List.rdropWhile_concat_neg _ _ _ hb, List.rdropWhile_concat_neg _ _ _ hb,
        List.append_assoc]

/-- Lines are squeezed on both sides of one that is not empty. -/
theorem squeezedLines_append_cons (hline : line ≠ []) (before behind : List (List Char)) :
    squeezedLines (before ++ line :: behind) = squeezedLines before ++ line :: behind := by
  have hstop : ¬decide (line = []) = true := fun h => hline (of_decide_eq_true h)
  have htake : (line :: behind).takeWhile (· = []) = [] := List.takeWhile_cons_of_neg hstop
  have hdrop : (line :: behind).dropWhile (· = []) = line :: behind :=
    List.dropWhile_cons_of_neg hstop
  by_cases hall : ∀ l ∈ before, decide (l = []) = true
  · have hnil : before.takeWhile (· = []) = before ∧ before.dropWhile (· = []) = [] :=
      ⟨List.takeWhile_eq_self_iff.mpr hall, List.dropWhile_eq_nil_iff.mpr hall⟩
    rw [squeezedLines, squeezedLines, List.takeWhile_append_of_pos hall,
      List.dropWhile_append_of_pos hall, htake, hdrop, hnil.1, hnil.2, List.append_nil,
      List.append_nil]
  · have hne : ¬(before.dropWhile (· = [])).isEmpty = true := fun h =>
      hall (List.dropWhile_eq_nil_iff.mp (List.isEmpty_iff.mp h))
    have hlen : (before.takeWhile (· = [])).length ≠ before.length := fun h =>
      hall (List.takeWhile_eq_self_iff.mp ((List.takeWhile_prefix _).eq_of_length h))
    rw [squeezedLines, squeezedLines, List.takeWhile_append, if_neg hlen, List.dropWhile_append,
      if_neg hne, List.append_assoc]

theorem map_trailerLine_ne_nil (es : List (TrailerCommand × Ident)) :
    ∀ l ∈ es.map trailerLine, l ≠ [] := by
  intro l hl
  obtain ⟨e, -, rfl⟩ := List.mem_map.mp hl
  obtain ⟨ch, more, heq, -⟩ := exists_trailerLine e
  exact heq ▸ List.cons_ne_nil ch more

/-- From a blank body no message is read. -/
theorem gitCommitBufferMessage_of_blank (hlines : ∀ l ∈ lines, '\n' ∉ l)
    (hcomment : ∀ l ∈ lines, commented c l = false) (comments : Comments c)
    (hblank : blank (unlines lines) = true) :
    gitCommitBufferMessage c (unlines lines ++ comments.text) = none := by
  obtain ⟨k, hleft⟩ := comments.left
  rw [gitCommitBufferMessage, uncommentedText_unlines hlines hcomment, hleft, if_pos]
  rw [blank_ended, blank_append, hblank, blank_newlines, Bool.true_and]

/-- Unless the message is blank, it has a line that is not. -/
theorem exists_not_blank {m : List Char} (body : Body c) (comments : Comments c)
    (hm : gitCommitBufferMessage c (unlines body.lines ++ comments.text) = some m) :
    ∃ before line behind, body.lines = before ++ line :: behind ∧ blank line = false := by
  by_contra hnot
  have hall : body.lines.all blank = true := by
    rw [List.all_eq_true]
    intro l hl
    obtain ⟨before, behind, hsplit⟩ := List.append_of_mem hl
    by_contra hb
    exact hnot ⟨before, l, behind, hsplit, Bool.eq_false_of_not_eq_true hb⟩
  rw [gitCommitBufferMessage_of_blank body.newline_notMem body.uncommented comments
    (blank_unlines.trans hall)] at hm
  cases hm

/-- A text that ends with two newlines ends with an empty line. -/
theorem getLast?_of_isSuffixOf (hlines : ∀ l ∈ lines, '\n' ∉ l)
    (h : "\n\n".toList.isSuffixOf (unlines lines) = true) : lines.getLast? = some [] := by
  rcases List.eq_nil_or_concat lines with rfl | ⟨front, last, rfl⟩
  · cases h
  rw [List.concat_eq_append] at hlines h ⊢
  have hsuffix : ['\n'] ++ ['\n'] <:+ (unlines front ++ last) ++ ['\n'] := by
    rw [unlines_append, unlines_cons, unlines_nil, ← List.append_assoc] at h
    exact List.isSuffixOf_iff_suffix.mp h
  have hlast : (unlines front ++ last).getLast? = some '\n' :=
    List.singleton_suffix_iff_getLast?_eq_some.mp (List.suffix_append_self_iff.mp hsuffix)
  rcases List.eq_nil_or_concat last with rfl | ⟨more, ch, rfl⟩
  · exact List.getLast?_concat
  · rw [List.concat_eq_append, ← List.append_assoc, List.getLast?_concat] at hlast
    refine absurd ?_ (hlines _ (List.mem_append_right _ List.mem_cons_self))
    rw [List.concat_eq_append, ← Option.some.inj hlast]
    exact List.mem_append_right _ List.mem_cons_self

/-- The message of a buffer with trailers in it. -/
theorem gitCommitBufferMessage_trailers (comments : Comments c)
    (hlines : ∀ l ∈ before ++ behind, '\n' ∉ l)
    (hcomment : ∀ l ∈ before ++ behind, commented c l = false)
    {es : List (TrailerCommand × Ident)} (hes : es ≠ []) :
    gitCommitBufferMessage c (unlines (before ++ (es.map trailerLine ++ behind)) ++ comments.text)
      = some (unlines (squeezedLines before
        ++ (es.map trailerLine ++ behind.rdropWhile (· = [])))) := by
  obtain ⟨k, hleft⟩ := comments.left
  obtain ⟨e, es, rfl⟩ := List.exists_cons_of_ne_nil hes
  rw [List.forall_mem_append] at hlines hcomment
  have hne := map_trailerLine_ne_nil (e :: es)
  rw [List.map_cons, List.forall_mem_cons] at hne
  have hall : ∀ l ∈ before ++ trailerLine e :: (es.map trailerLine ++ behind),
      '\n' ∉ l ∧ commented c l = false := by
    simp only [List.forall_mem_append, List.forall_mem_cons, List.forall_mem_map]
    exact ⟨fun l hl => ⟨hlines.1 l hl, hcomment.1 l hl⟩,
      ⟨newline_notMem_trailerLine e, commented_trailerLine c e⟩,
      fun e _ => ⟨newline_notMem_trailerLine e, commented_trailerLine c e⟩,
      fun l hl => ⟨hlines.2 l hl, hcomment.2 l hl⟩⟩
  rw [List.map_cons, List.cons_append, List.cons_append,
    gitCommitBufferMessage_lines (fun l hl => (hall l hl).1) (fun l hl => (hall l hl).2) hne.1
      (blank_unlines_of_mem (List.mem_append_right _ List.mem_cons_self) (blank_trailerLine e))
      hleft,
    rdropWhile_append_of_neg fun l hl h => hne.2 l hl (of_decide_eq_true h)]

/-- In front of the trailers there is at least one empty line. -/
theorem exists_separator {j : ℕ} (hlines : ∀ l ∈ lines ++ List.replicate j [], '\n' ∉ l)
    (hlast : lines.getLast? ≠ some []) :
    ∃ k, List.replicate j '\n' ++ unlines (separator (lines ++ List.replicate j []))
      = List.replicate (k + 1) '\n' := by
  rw [separator]
  split
  · next h =>
    rcases j with _ | j
    · rw [List.replicate_zero, List.append_nil] at h hlines
      exact absurd (getLast?_of_isSuffixOf hlines h) hlast
    · exact ⟨j, List.append_nil _⟩
  · exact ⟨j, List.replicate_succ'.symm⟩

/-- The message with the separator behind it. -/
theorem exists_unlines_separator {m : List Char} (body : Body c) (comments : Comments c)
    (hm : gitCommitBufferMessage c (unlines body.lines ++ comments.text) = some m) :
    ∃ k, unlines (squeezedLines (body.lines ++ separator body.lines))
      = m ++ List.replicate (k + 1) '\n' := by
  obtain ⟨before, line, behind, hsplit, hblank⟩ := exists_not_blank body comments hm
  obtain ⟨i, hleft⟩ := comments.left
  obtain ⟨j, hbehind, hlast⟩ := exists_append_empty behind
  have hne : line ≠ [] := by
    rintro rfl
    cases hblank
  have hlines := body.newline_notMem
  have hcomment := body.uncommented
  rw [hsplit] at hlines hcomment hm ⊢
  rw [gitCommitBufferMessage_lines hlines hcomment hne
    (blank_unlines_of_mem (List.mem_append_right _ List.mem_cons_self) hblank) hleft] at hm
  generalize behind.rdropWhile (· = []) = more at hbehind hlast hm
  have hfront : before ++ line :: behind = (before ++ line :: more) ++ List.replicate j [] := by
    rw [hbehind]
    simp only [List.append_assoc, List.cons_append]
  have hend : (before ++ line :: more).getLast? ≠ some [] := by
    rw [List.getLast?_append_of_ne_nil _ (List.cons_ne_nil _ _)]
    rcases List.eq_nil_or_concat more with rfl | ⟨front, l, rfl⟩
    · exact fun h => hne (Option.some.inj h)
    · rw [List.concat_eq_append] at hlast ⊢
      rwa [← List.cons_append, List.getLast?_concat, ← List.getLast?_concat]
  obtain ⟨k, hk⟩ := exists_separator (hfront ▸ hlines) hend
  refine ⟨k, ?_⟩
  rw [hfront, ← hk, ← Option.some.inj hm, ← unlines_replicate, ← unlines_append, ← unlines_append]
  congr 1
  simp only [List.append_assoc, List.cons_append]
  rw [squeezedLines_append_cons hne]

theorem trailing_nil (fold : Char → Char) (trailers : List (List Char)) :
    trailing fold trailers [] = false := by
  have hany : trailers.any (fun trailer => lookingAt fold (trailer ++ ": ".toList) []) = false := by
    rw [List.any_eq_false]
    intro trailer _ h
    have hlen := congrArg List.length (eq_of_beq h)
    simp at hlen
  rw [trailing, hany, Bool.false_or]
  rfl

/-- If some line is a trailer there is a last one. -/
theorem exists_last_trailing {matching : List Char → Bool}
    (h : ¬∀ l ∈ lines, matching l = false) :
    ∃ before last behind, lines = before ++ last :: behind ∧ matching last = true
      ∧ ∀ l ∈ behind, matching l = false := by
  have hne : lines.rdropWhile (!matching ·) ≠ [] := by
    rw [Ne, List.rdropWhile_eq_nil_iff]
    exact fun hall => h fun l hl => (Bool.not_eq_true' _).mp (hall l hl)
  have hlast := List.rdropWhile_last_not _ _ hne
  have hpass : ∀ l ∈ lines.rtakeWhile (!matching ·), (!matching l) = true :=
    fun l hl => List.mem_rtakeWhile_imp (p := (!matching ·)) hl
  refine ⟨(lines.rdropWhile (!matching ·)).dropLast, _, lines.rtakeWhile (!matching ·), ?_,
    Bool.eq_true_of_not_eq_false fun hf => hlast (by rw [hf, Bool.not_false]),
    fun l hl => (Bool.not_eq_true' _).mp (hpass l hl)⟩
  rw [← List.singleton_append, ← List.append_assoc, List.dropLast_append_getLast hne,
    List.rdropWhile_append_rtakeWhile]

/-- **Trailers that are inserted one after the other stand behind the last trailer of the message,
in that order, and nothing else in it changes.  Without a trailer in it they stand at its end,
behind an empty line.  What is below the message stays.** -/
theorem runTrailers_message (body : Body c) (comments : Comments c)
    (hne : body.lines ≠ []) (fold : Char → Char) {trailers : List (List Char)}
    (hmem : ∀ command : TrailerCommand, command.trailer ∈ trailers)
    (hcomments : ∀ l ∈ comments.text.splitOn '\n', trailing fold trailers l = false)
    {es : List (TrailerCommand × Ident)} (hes : es ≠ []) :
    ∃ lines, runTrailers c (trailing fold trailers) es (unlines body.lines ++ comments.text)
        = some (unlines lines ++ comments.text)
      ∧ ((∃ before last behind, body.lines = before ++ last :: behind
          ∧ trailing fold trailers last = true
          ∧ (∀ l ∈ behind, trailing fold trailers l = false)
          ∧ lines = before ++ last :: (es.map trailerLine ++ behind)
          ∧ ∃ front rest,
            gitCommitBufferMessage c (unlines lines ++ comments.text)
              = some (unlines (front ++ last :: (es.map trailerLine ++ rest)))
            ∧ ∀ m ∈ gitCommitBufferMessage c (unlines body.lines ++ comments.text),
              m = unlines (front ++ last :: rest))
        ∨ ((∀ l ∈ body.lines, trailing fold trailers l = false)
          ∧ lines = body.lines ++ separator body.lines ++ es.map trailerLine ++ [[]]
          ∧ ∃ front, gitCommitBufferMessage c (unlines lines ++ comments.text)
              = some (front ++ unlines (es.map trailerLine))
            ∧ ∀ m ∈ gitCommitBufferMessage c (unlines body.lines ++ comments.text),
              ∃ k, front = m ++ List.replicate (k + 1) '\n')) := by
  have hmatching : ∀ e ∈ es, trailing fold trailers (trailerLine e) = true :=
    fun e _ => trailing_trailerLine fold e (hmem e.1)
  have hlines := body.newline_notMem
  have hcomment := body.uncommented
  by_cases hbody : ∀ l ∈ body.lines, trailing fold trailers l = false
  · refine ⟨_, runTrailers_of_body body comments hne hbody hcomments (trailing_nil fold trailers)
      hes hmatching, .inr ⟨hbody, rfl, unlines (squeezedLines (body.lines ++ separator body.lines)),
        ?_, fun m hm => exists_unlines_separator body comments hm⟩⟩
    have hsep : ∀ l ∈ separator body.lines ++ [[]], l = [] := by
      rw [separator]
      split <;> simp
    have hempty : ∀ l ∈ body.lines ++ separator body.lines ++ [[]],
        '\n' ∉ l ∧ commented c l = false := by
      rw [List.append_assoc, List.forall_mem_append]
      refine ⟨fun l hl => ⟨hlines l hl, hcomment l hl⟩, fun l hl => ?_⟩
      rw [hsep l hl]
      exact ⟨List.not_mem_nil, commented_nil c⟩
    have hend : ([[]] : List (List Char)).rdropWhile (· = []) = [] := rfl
    rw [List.append_assoc _ (es.map trailerLine), gitCommitBufferMessage_trailers comments
      (fun l hl => (hempty l hl).1) (fun l hl => (hempty l hl).2) hes, hend, List.append_nil,
      unlines_append]
  · obtain ⟨before, last, behind, hsplit, hlast, hbehind⟩ := exists_last_trailing hbody
    have hlastNe : last ≠ [] := by
      rintro rfl
      rw [trailing_nil] at hlast
      cases hlast
    rw [hsplit] at hlines hcomment ⊢
    refine ⟨_, runTrailers_of_trailer es hmatching hlines hlast hbehind hcomments, .inl
      ⟨before, last, behind, rfl, hlast, hbehind, rfl, squeezedLines before,
        behind.rdropWhile (· = []), ?_, fun m hm => ?_⟩⟩
    · have hassoc : ∀ more, before ++ last :: more = (before ++ [last]) ++ more := fun more => by
        rw [List.append_assoc, List.singleton_append]
      rw [hassoc] at hlines hcomment ⊢
      rw [gitCommitBufferMessage_trailers comments hlines hcomment hes,
        squeezedLines_append_cons hlastNe, List.append_assoc, List.singleton_append]
    · obtain ⟨k, hleft⟩ := comments.left
      have hblank : blank (unlines (before ++ last :: behind)) = false := by
        by_contra hb
        rw [gitCommitBufferMessage_of_blank hlines hcomment comments
          (Bool.eq_true_of_not_eq_false hb)] at hm
        cases hm
      rw [gitCommitBufferMessage_lines hlines hcomment hlastNe hblank hleft] at hm
      exact (Option.some.inj hm).symm

theorem TrailerCommand.trailer_mem (command : TrailerCommand) :
    command.trailer ∈ gitCommitTrailers := by
  cases command <;> decide

/-- The one who commits. -/
def author : Ident := ⟨"A U Thor".toList, "a.u.thor@example.com".toList, by decide⟩

/-- Someone else. -/
def reviewer : Ident := ⟨"R E Viewer".toList, "reviewer@example.com".toList, by decide⟩

/-- Two trailers in the example. -/
theorem runTrailers_message_fixBug :
    ∃ lines, runTrailers .hash (trailing Char.toLower gitCommitTrailers)
      [(.signoff, author), (.review, reviewer)] (unlines fixBug.lines ++ pleaseEnter.text)
        = some (unlines lines ++ pleaseEnter.text) :=
  (runTrailers_message fixBug pleaseEnter (List.cons_ne_nil _ _) Char.toLower
    TrailerCommand.trailer_mem (by decide) (List.cons_ne_nil _ _)).imp fun _ h => h.1

end Magit.GitCommit
