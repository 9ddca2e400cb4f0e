import Mathlib.Data.List.DropRight
import Magit.Git.Worker

/-!
# Git/Subjects — the subject of a commit

`get_log` cuts a message at its first newline, the other steps take libgit2's summary of it, and `git`
joins the lines of its first paragraph.  These are one subject exactly if the first paragraph is one
line that does not end in white space (`one_subject_iff`).
-/

namespace Magit.Git

/-! ## Messages -/

/-- What `git` and what libgit2 take for white space. -/
structure WhiteSpace where
  git : Char → Bool
  libgit2 : Char → Bool
  git_le : ∀ c, git c = true → libgit2 c = true

/-- The line has nothing but white space. -/
def blank (isSpace : Char → Bool) (line : Text) : Bool := line.all isSpace

/-- `git_commit_message`: without the newlines in front. -/
def gitCommitMessage (raw : Text) : Text := raw.dropWhile (· = '\n')

/-- The first line, and the lines after it up to a blank one. -/
def firstParagraph (isSpace : Char → Bool) (message : Text) : Text :=
  match message.splitOn '\n' with
  | [] => []
  | line :: lines => ['\n'].intercalate (line :: lines.takeWhile fun l => !blank isSpace l)

/-- White space becomes one space if there is a newline in it, and none at the end; `space` is the
white space just before. -/
def squeeze (isSpace : Char → Bool) : Text → Text → Text
  | _, [] => []
  | space, c :: text =>
    if isSpace c then squeeze isSpace (space ++ [c]) text
    else (if '\n' ∈ space then [' '] else space) ++ c :: squeeze isSpace [] text

/-- `git_commit_summary`. -/
def gitCommitSummary (ws : WhiteSpace) (raw : Text) : Text :=
  squeeze ws.libgit2 [] (firstParagraph ws.libgit2 (gitCommitMessage raw))

/-- The lines of the first paragraph, without the blank ones before it. -/
def paragraphLines (isSpace : Char → Bool) (lines : List Text) : List Text :=
  (lines.dropWhile (blank isSpace)).takeWhile fun l => !blank isSpace l

/-- The lines as one, each without the white space at its end. -/
def joinLines (isSpace : Char → Bool) (lines : List Text) : Text :=
  [' '].intercalate (lines.map (List.rdropWhile isSpace))

/-- The placeholder `%s` of `git`. -/
def gitSubject (ws : WhiteSpace) (raw : Text) : Text :=
  joinLines ws.git (paragraphLines ws.git (raw.splitOn '\n'))

/-- What libgit2 reports about a commit with a message. -/
def Commit.ofMessage (ws : WhiteSpace) (author : Option Signature) (raw : Text) : Commit :=
  ⟨author, some (gitCommitMessage raw), gitCommitSummary ws raw⟩

/-- The fields of a log line before the subject. -/
def logFields (oid : Oid) (commit : Commit) : Text :=
  gitOidTostr (some oid) ++ [ff, ff, ff]
    ++ (match commit.author with
      | some author => author.name ++ [ff] ++ decimalInt author.time
      | none => [ff] ++ decimalInt 0)
    ++ [ff]

/-- **One subject**: that of `git`, in the log, in the record of a branch, and as the subject of a
reference. -/
structure OneSubject (ws : WhiteSpace) (author : Option Signature) (raw : Text) : Prop where
  log : ∀ oid, logRecord oid (Commit.ofMessage ws author raw) =
    logFields oid (Commit.ofMessage ws author raw) ++ (gitSubject ws raw ++ ['\n'])
  branch : ∀ (lg : Libgit2 Unit) (oid : Oid),
    lg.commitLookup oid = .ok (Commit.ofMessage ws author raw) →
    branchSubject lg (some oid) = gitSubject ws raw
  head : ∀ (lg : Libgit2 Unit) (target : Text) (ref : Reference),
    lg.referenceLookup target = .ok ref →
    lg.referencePeelCommit ref = .ok (Commit.ofMessage ws author raw) →
    gitHeadSubject lg [] target = (0, gitSubject ws raw)

/-- After the newlines in front, there is a line that does not end in white space, and no line or a
blank one after it. -/
def SingleLine (ws : WhiteSpace) (raw : Text) : Prop :=
  let lines := (gitCommitMessage raw).splitOn '\n'
  (∀ line ∈ lines.head?, ∀ c ∈ line.getLast?, ws.libgit2 c = false) ∧
    ∀ line ∈ lines[1]?, blank ws.git line = true

/-! ## White space -/

variable {isSpace : Char → Bool} {ws : WhiteSpace} {line : Text} {lines : List Text}

/-- A line is not trimmed exactly if it does not end with white space. -/
theorem rdropWhile_eq_self_iff (line : Text) :
    line.rdropWhile isSpace = line ↔ ∀ c ∈ line.getLast?, isSpace c = false := by
  rw [List.rdropWhile_eq_self_iff]
  rcases line.eq_nil_or_concat with rfl | ⟨front, c, rfl⟩
  · simp
  · simp

/-- What is dropped at the end is white space. -/
theorem exists_rdropWhile (isSpace : Char → Bool) (line : Text) : ∃ space : Text,
    line = line.rdropWhile isSpace ++ space ∧ ∀ c ∈ space, isSpace c = true :=
  ⟨line.rtakeWhile isSpace, List.rdropWhile_append_rtakeWhile.symm,
    fun _ hc => List.mem_rtakeWhile_imp hc⟩

/-- A line that is not blank has something else in it. -/
theorem exists_of_not_blank (h : blank isSpace line = false) :
    ∃ c ∈ line.rdropWhile isSpace, isSpace c = false := by
  rw [blank, List.all_eq_false] at h
  obtain ⟨c, hc, hspace⟩ := h
  obtain ⟨space, hline, hall⟩ := exists_rdropWhile isSpace line
  rw [hline] at hc
  rcases List.mem_append.mp hc with hfront | hend
  · exact ⟨c, hfront, Bool.eq_false_iff.mpr hspace⟩
  · exact absurd (hall c hend) hspace

/-- A line is trimmed behind its last character that is no white space. -/
theorem rdropWhile_append_cons {c : Char} (hc : isSpace c = false) (front text : Text) :
    (front ++ c :: text).rdropWhile isSpace = front ++ c :: text.rdropWhile isSpace := by
  induction text using List.reverseRecOn with
  | nil =>
    rw [List.rdropWhile_nil, List.rdropWhile_concat_neg _ _ _ (by simp [hc])]
  | append_singleton text d ih =>
    have happend : front ++ c :: (text ++ [d]) = (front ++ c :: text) ++ [d] := by simp
    rw [happend, List.rdropWhile_concat, List.rdropWhile_concat]
    split
    · exact ih
    · exact happend.symm

/-- In one line only the white space at the end is dropped. -/
theorem squeeze_of_not_newline {space text : Text} (hspace : ∀ c ∈ space, isSpace c = true)
    (h : '\n' ∉ space ++ text) :
    squeeze isSpace space text = (space ++ text).rdropWhile isSpace := by
  induction text generalizing space with
  | nil =>
    rw [squeeze, List.append_nil, List.rdropWhile_eq_nil_iff.mpr hspace]
  | cons c text ih =>
    rw [squeeze]
    split
    · rename_i hc
      have happend : space ++ c :: text = space ++ [c] ++ text := by simp
      rw [happend] at h ⊢
      refine ih (fun d hd => ?_) h
      rcases List.mem_append.mp hd with hd | hd
      · exact hspace d hd
      · exact List.mem_singleton.mp hd ▸ hc
    · rename_i hc
      have hfront : '\n' ∉ space := fun hmem => h (List.mem_append_left _ hmem)
      have htext : '\n' ∉ ([] : Text) ++ text := fun hmem =>
        h (List.mem_append_right _ (List.mem_cons_of_mem _ hmem))
      rw [if_neg hfront, ih (fun _ hd => absurd hd List.not_mem_nil) htext,
        rdropWhile_append_cons (Bool.eq_false_iff.mpr hc), List.nil_append]

/-! ## Lines -/

theorem joinLines_singleton (line : Text) :
    joinLines isSpace [line] = line.rdropWhile isSpace := by
  rw [joinLines, List.map_singleton, List.intercalate_singleton]

/-- Two lines are joined by a blank. -/
theorem joinLines_cons_cons (l l' : Text) (rest : List Text) :
    joinLines isSpace (l :: l' :: rest) =
      l.rdropWhile isSpace ++ ' ' :: joinLines isSpace (l' :: rest) := by
  rw [joinLines, List.map_cons, List.map_cons, List.intercalate_cons_cons, List.append_assoc]
  rfl

/-- More than white space of a line is left. -/
theorem exists_mem_joinLines (h : blank isSpace line = false) (lines : List Text) :
    ∃ c ∈ joinLines isSpace (line :: lines), isSpace c = false := by
  obtain ⟨c, hc, hspace⟩ := exists_of_not_blank h
  refine ⟨c, ?_, hspace⟩
  rcases lines with _ | ⟨l, rest⟩
  · rw [joinLines_singleton]
    exact hc
  · rw [joinLines_cons_cons]
    exact List.mem_append_left _ hc

/-- A line is the whole subject exactly if it does not end in white space and there is no other. -/
theorem joinLines_paragraphLines_eq_iff (hline : line ≠ []) :
    joinLines isSpace (paragraphLines isSpace (line :: lines)) = line ↔
      (∀ c ∈ line.getLast?, isSpace c = false) ∧ ∀ next ∈ lines.head?, blank isSpace next = true := by
  rcases hblank : blank isSpace line with _ | _
  · rw [paragraphLines, List.dropWhile_cons_of_neg (by simp [hblank]),
      List.takeWhile_cons_of_pos (by simp [hblank])]
    rcases lines with _ | ⟨next, lines⟩
    · rw [List.takeWhile_nil, joinLines_singleton, rdropWhile_eq_self_iff]
      exact (and_iff_left fun next hnext => nomatch hnext).symm
    · rcases hnext : blank isSpace next with _ | _
      · rw [List.takeWhile_cons_of_pos (by simp [hnext]), joinLines_cons_cons]
        refine iff_of_false (fun heq => ?_) (fun h => ?_)
        · obtain ⟨space, hspace, hall⟩ := exists_rdropWhile isSpace line
          obtain ⟨c, hc, hnot⟩ := exists_mem_joinLines hnext
            (lines.takeWhile fun l => !blank isSpace l)
          have hend := List.append_cancel_left (heq.trans hspace)
          have hmem : c ∈ space := hend ▸ List.mem_cons_of_mem _ hc
          exact Bool.false_ne_true (hnot.symm.trans (hall c hmem))
        · exact Bool.false_ne_true (hnext.symm.trans (h.2 next rfl))
      · rw [List.takeWhile_cons_of_neg (by simp [hnext]), joinLines_singleton,
          rdropWhile_eq_self_iff]
        refine (and_iff_left fun l hl => ?_).symm
        obtain rfl : next = l := Option.some.inj hl
        exact hnext
  · have hall : ∀ c ∈ line, isSpace c = true := List.all_eq_true.mp hblank
    refine iff_of_false (fun heq => ?_) (fun h => ?_)
    · rcases hlines : paragraphLines isSpace (line :: lines) with _ | ⟨l, rest⟩
      · rw [hlines] at heq
        exact hline heq.symm
      · have hl : blank isSpace l = false := by
          have hmem : l ∈ paragraphLines isSpace (line :: lines) := hlines ▸ List.mem_cons_self
          simpa using List.mem_takeWhile_imp hmem
        obtain ⟨c, hc, hnot⟩ := exists_mem_joinLines hl rest
        rw [hlines] at heq
        exact Bool.false_ne_true (hnot.symm.trans (hall c (heq ▸ hc)))
    · have hlast := h.1 _ (List.getLast?_eq_getLast_of_ne_nil hline)
      exact Bool.false_ne_true (hlast.symm.trans (hall _ (List.getLast_mem hline)))

/-- The first line of a message. -/
theorem exists_splitOn (message : Text) :
    ∃ lines, message.splitOn '\n' = message.takeWhile (· ≠ '\n') :: lines := by
  by_cases hmem : '\n' ∈ message
  · obtain ⟨front, rest, rfl, hfront⟩ := List.eq_append_cons_of_mem hmem
    refine ⟨rest.splitOn '\n', ?_⟩
    rw [List.splitOn_append_cons_self_of_not_mem hfront,
      List.takeWhile_append_of_pos fun c hc => decide_eq_true (ne_of_mem_of_not_mem hc hfront),
      List.takeWhile_cons_of_neg (by simp), List.append_nil]
  · refine ⟨[], ?_⟩
    rw [List.splitOn_eq_singleton hmem, List.takeWhile_eq_self_iff.mpr fun c hc =>
      decide_eq_true (ne_of_mem_of_not_mem hc hmem)]

/-- `git` passes over the newlines in front, too. -/
theorem gitSubject_gitCommitMessage (ws : WhiteSpace) (raw : Text) :
    gitSubject ws (gitCommitMessage raw) = gitSubject ws raw := by
  induction raw with
  | nil => rfl
  | cons c raw ih =>
    by_cases hc : c = '\n'
    · have hsplit : (c :: raw).splitOn '\n' = [] :: raw.splitOn '\n' := by
        have hnotMem : '\n' ∉ ([] : Text) := List.not_mem_nil
        rw [hc]
        exact List.splitOn_append_cons_self_of_not_mem hnotMem raw
      rw [gitCommitMessage, List.dropWhile_cons_of_pos (by simp [hc]), ← gitCommitMessage, ih,
        gitSubject, gitSubject, hsplit, paragraphLines, paragraphLines,
        List.dropWhile_cons_of_pos rfl]
    · rw [gitCommitMessage, List.dropWhile_cons_of_neg (by simp [hc])]

/-! ## Subjects -/

variable {author : Option Signature} {raw : Text}

theorem WhiteSpace.blank_le (ws : WhiteSpace) (h : blank ws.git line = true) :
    blank ws.libgit2 line = true :=
  List.all_eq_true.mpr fun c hc => ws.git_le c (List.all_eq_true.mp h c hc)

/-- The summary is the first line, if the next one is blank. -/
theorem gitCommitSummary_of_blank (hlines : (gitCommitMessage raw).splitOn '\n' = line :: lines)
    (hline : '\n' ∉ line) (hnext : ∀ next ∈ lines.head?, blank ws.libgit2 next = true) :
    gitCommitSummary ws raw = line.rdropWhile ws.libgit2 := by
  have hparagraph : firstParagraph ws.libgit2 (gitCommitMessage raw) = line := by
    rw [firstParagraph, hlines]
    dsimp only
    rcases lines with _ | ⟨next, lines⟩
    · exact List.intercalate_singleton
    · rw [List.takeWhile_cons_of_neg (by simp [hnext next rfl]), List.intercalate_singleton]
  rw [gitCommitSummary, hparagraph]
  exact squeeze_of_not_newline (fun _ hc => absurd hc List.not_mem_nil) hline

theorem logRecord_eq (oid : Oid) (commit : Commit) :
    logRecord oid commit =
      logFields oid commit ++ ((commit.message.getD []).takeWhile (· ≠ '\n') ++ ['\n']) :=
  List.append_assoc _ _ _

/-- A message of newlines. -/
theorem gitCommitMessage_eq_nil (h : (gitCommitMessage raw).takeWhile (· ≠ '\n') = []) :
    gitCommitMessage raw = [] := by
  rcases hmessage : gitCommitMessage raw with _ | ⟨c, message⟩
  · rfl
  · have hc : c ≠ '\n' := by
      have hhead := List.head?_dropWhile_not (fun c : Char => decide (c = '\n')) raw
      rw [← gitCommitMessage, hmessage] at hhead
      simpa using hhead
    rw [hmessage, List.takeWhile_cons_of_pos (by simp [hc])] at h
    cases h

/-- The subject is a single line exactly if the first line is not trimmed and the next one is blank.
-/
theorem singleLine_iff (hlines : (gitCommitMessage raw).splitOn '\n' = line :: lines) :
    SingleLine ws raw ↔ (∀ c ∈ line.getLast?, ws.libgit2 c = false) ∧
      ∀ next ∈ lines.head?, blank ws.git next = true := by
  have hsecond : (line :: lines)[1]? = lines.head? := List.head?_eq_getElem?.symm
  rw [SingleLine, hlines, hsecond, List.head?_cons]
  simp only [Option.mem_some_iff, forall_eq']

/-- The subject is the first line exactly if that is not trimmed and the next one is blank for git.
-/
theorem gitSubject_eq_iff (hlines : (gitCommitMessage raw).splitOn '\n' = line :: lines)
    (hline : line ≠ []) : gitSubject ws raw = line ↔
      (∀ c ∈ line.getLast?, ws.git c = false) ∧ ∀ next ∈ lines.head?, blank ws.git next = true := by
  rw [← gitSubject_gitCommitMessage, gitSubject, hlines]
  exact joinLines_paragraphLines_eq_iff hline

/-- libgit2 about a repository in which every object is this commit. -/
def onlyCommit (commit : Commit) : Libgit2 Unit :=
  { RefStore.oneCommit.libgit2 with commitLookup := fun _ => .ok commit }

/-- With one subject the log has the one of git. -/
theorem OneSubject.log_eq (h : OneSubject ws author raw) :
    gitSubject ws raw = (gitCommitMessage raw).takeWhile (· ≠ '\n') := by
  have hlog := h.log []
  rw [logRecord_eq] at hlog
  exact (List.append_cancel_right (List.append_cancel_left hlog)).symm

theorem OneSubject.summary_eq (h : OneSubject ws author raw) :
    gitCommitSummary ws raw = gitSubject ws raw :=
  h.branch (onlyCommit (Commit.ofMessage ws author raw)) [] rfl

/-- There is one subject if the first line and the summary both are the one of git. -/
theorem oneSubject_of_eq
    (hlog : gitSubject ws raw = (gitCommitMessage raw).takeWhile (· ≠ '\n'))
    (hsummary : gitCommitSummary ws raw = gitSubject ws raw) : OneSubject ws author raw where
  log oid := by
    rw [logRecord_eq, hlog]
    rfl
  branch lg oid hlookup := by
    rw [branchSubject, hlookup]
    exact hsummary
  head lg target ref hlookup hpeel := by
    rw [gitHeadSubject, hlookup]
    dsimp only
    rw [hpeel]
    exact congrArg (Prod.mk 0) hsummary

/-- **One subject for all exactly if the first paragraph is a single line** that does not end in white
space. -/
theorem one_subject_iff (ws : WhiteSpace) (author : Option Signature) (raw : Text) :
    OneSubject ws author raw ↔ SingleLine ws raw := by
  obtain ⟨lines, hlines⟩ := exists_splitOn (gitCommitMessage raw)
  have hnewline : '\n' ∉ (gitCommitMessage raw).takeWhile (· ≠ '\n') := fun hmem =>
    by simpa using List.mem_takeWhile_imp hmem
  rw [singleLine_iff hlines]
  by_cases hline : (gitCommitMessage raw).takeWhile (· ≠ '\n') = []
  · have hmessage := gitCommitMessage_eq_nil hline
    rw [hmessage] at hlines
    obtain rfl : lines = [] := (List.cons.inj hlines).2.symm
    refine iff_of_true (oneSubject_of_eq ?_ ?_) ⟨?_, fun _ h => nomatch h⟩
    · rw [← gitSubject_gitCommitMessage, hmessage]
      rfl
    · rw [← gitSubject_gitCommitMessage, gitCommitSummary, hmessage]
      rfl
    · rw [hline]
      exact fun _ h => nomatch h
  constructor
  · intro h
    obtain ⟨-, hnext⟩ := (gitSubject_eq_iff hlines hline).mp h.log_eq
    refine ⟨(rdropWhile_eq_self_iff _).mp ?_, hnext⟩
    rw [← gitCommitSummary_of_blank hlines hnewline fun l hl => ws.blank_le (hnext l hl),
      h.summary_eq, h.log_eq]
  · rintro ⟨hend, hnext⟩
    have hgit : ∀ c ∈ ((gitCommitMessage raw).takeWhile (· ≠ '\n')).getLast?, ws.git c = false :=
      fun c hc => Bool.eq_false_iff.mpr fun hspace =>
        Bool.false_ne_true ((hend c hc).symm.trans (ws.git_le c hspace))
    have hlog := (gitSubject_eq_iff hlines hline).mpr ⟨hgit, hnext⟩
    refine oneSubject_of_eq hlog ?_
    rw [gitCommitSummary_of_blank hlines hnewline fun l hl => ws.blank_le (hnext l hl), hlog]
    exact (rdropWhile_eq_self_iff _).mpr hend

/-- The white space of the C locale; `git` has its own, without the vertical tab and the form feed. -/
def WhiteSpace.ascii : WhiteSpace where
  git c := c = ' ' || c = '\t' || c = '\n' || c = '\r'
  libgit2 c := (c = ' ' || c = '\t' || c = '\n' || c = '\r') || (c = '\x0b' || c = '\x0c')
  git_le _ h := Bool.or_eq_true_iff.mpr (Or.inl h)

/-- A subject that goes over two lines is cut in the log. -/
theorem not_oneSubject_twoLines : ¬ OneSubject .ascii none "Fix the\nparser\n".toList := by
  intro h
  have hlog := h.log_eq
  revert hlog
  decide

end Magit.Git
