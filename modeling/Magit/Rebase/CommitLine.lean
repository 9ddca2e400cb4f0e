import Magit.Rebase.GitTodo

/-!
# Rebase/CommitLine — what becomes of a commit line

`git-rebase-line-regexps` knows no option of a commit line, no `drop` and no `revert`, and wants one
space behind a command.  So git reads commits on lines that are not found, and of a line with `-C`
or `-c` the option is taken for the commit, which a `fixup` that is set makes no difference to, but
any other action does (`reactioned_iff`).
-/

namespace Magit.GitRebase

open Emacs

/-- What a line is replaced with. -/
def lineAfter (cs : CommentStart) (action : Option CommitAction) (line : List Char) : List Char :=
  match action with
  | some a =>
    if (currentLine cs line).actionType = some .commit then
      a.name ++ ' ' :: ((currentLine cs line).target.getD []
        ++ ' ' :: (currentLine cs line).trailer.getD [])
    else line
  | none =>
    if (currentLine cs line).actionType.isSome && !(currentLine cs line).commentP then
      cs.text ++ ' ' :: line
    else line

/-- The mode knows the command, and one space is behind it. -/
structure Seen (text : List Char) (c : CommitLine) : Prop where
  known : c.action ≠ "drop".toList ∧ c.action ≠ "revert".toList
  spaced : ∃ word arguments, text = word ++ ' ' :: arguments ∧ word ≠ [] ∧
    (∀ x ∈ word, isBlank x = false) ∧ arguments.head? ≠ some ' '

/-- The line has an option only if it stays a fixup, and none is made of its commit.  What is put
behind the commit does not come behind a carriage return. -/
structure Settable (a : CommitAction) (text : List Char) (c : CommitLine) : Prop where
  option : c.option = none ∨ a = .fixup
  plain : a = .fixup → c.option = none → ¬LikeOption c.commit
  ends : text.getLast? = some '\r' → 1 < text.count ' '

/-- The word, the target and the trailer of a commit line. -/
structure Found (text word arguments : List Char) (t : List Char × List Char) : Prop where
  text_eq : text = word ++ ' ' :: arguments
  word_mem : word ∈ commitWords
  named_eq : named arguments = some t

section

variable {cs : CommentStart} {a : CommitAction}
  {text rest target trailer word arguments line : List Char} {t o w : List Char × List Char}
  {c : CommitLine}

/-! ## The arguments -/

/-- A target without blanks, a blank and the trailer are read back. -/
theorem named_append (hne : target ≠ []) (hspace : ' ' ∉ target) :
    named (target ++ ' ' :: trailer) = some (target, trailer) := by
  have htarget : ∀ c ∈ target, decide (c ≠ ' ') = true := fun c hc =>
    decide_eq_true fun h => hspace (h ▸ hc)
  have htake : (target ++ ' ' :: trailer).takeWhile (· ≠ ' ') = target := by
    rw [List.takeWhile_append_of_pos htarget, List.takeWhile_cons_of_neg (by simp), List.append_nil]
  have hdrop : (target ++ ' ' :: trailer).dropWhile (· ≠ ' ') = ' ' :: trailer := by
    rw [List.dropWhile_append_of_pos htarget, List.dropWhile_cons_of_neg (by simp)]
  rw [named, htake, hdrop, if_neg hne]
  rfl

/-- The target has no space in it, and one may stand between it and the trailer. -/
theorem named_eq_some (h : named text = some t) :
    t.1 ≠ [] ∧ ' ' ∉ t.1 ∧ (text = t.1 ++ ' ' :: t.2 ∨ text = t.1 ∧ t.2 = []) := by
  rw [named] at h
  split at h
  · cases h
  next hne =>
  obtain rfl := Option.some.inj h
  refine ⟨hne, fun hmem => absurd (List.mem_takeWhile_imp hmem) (by simp), ?_⟩
  have htext := List.takeWhile_append_dropWhile (p := (· ≠ ' ')) (l := text)
  rcases hdrop : text.dropWhile (· ≠ ' ') with _ | ⟨c, more⟩
  · rw [hdrop, List.append_nil] at htext
    exact Or.inr ⟨htext.symm, rfl⟩
  · have hc : c = ' ' := by
      have := List.head?_dropWhile_not (fun c : Char => decide (c ≠ ' ')) text
      rw [hdrop] at this
      simpa using this
    rw [hdrop, hc] at htext
    exact Or.inl htext.symm

/-- There is a target exactly if the text begins with something else than a blank. -/
theorem isSome_named_iff : (named text).isSome ↔ text ≠ [] ∧ text.head? ≠ some ' ' := by
  rw [named]
  cases text with
  | nil => simp
  | cons x text =>
    by_cases hx : x = ' '
    · simp [hx]
    · simp [hx]

/-- An option is what is in front of the first blank. -/
theorem dashed_eq_some (h : dashed text = some o) :
    text = o.1 ++ ' ' :: o.2 ∧ o.1 ≠ [] ∧ ' ' ∉ o.1 := by
  rw [dashed] at h
  split at h
  next hdash =>
    obtain rfl := Option.some.inj h
    have htake : text.take 3 = "-c ".toList ∨ text.take 3 = "-C ".toList := by simpa using hdash
    have htwo : text.take 2 = (text.take 3).take 2 := by rw [List.take_take]; rfl
    have htext : text = text.take 3 ++ text.drop 3 := (List.take_append_drop 3 text).symm
    rcases htake with htake | htake <;>
      · rw [htake] at htwo htext
        refine ⟨?_, ?_, ?_⟩
        · rw [htwo]
          exact htext
        · rw [htwo]
          dsimp only
          decide
        · rw [htwo]
          dsimp only
          decide
  · cases h

/-! ## The words -/

/-- A word of the list is at the front, and then a blank. -/
theorem afterWord_eq_some {words : List (List Char)} (h : afterWord words text = some w) :
    w.1 ∈ words ∧ text = w.1 ++ ' ' :: w.2 := by
  obtain ⟨u, hu, hw⟩ := List.exists_of_findSome?_eq_some h
  split at hw
  next hpre =>
    obtain rfl := Option.some.inj hw
    obtain ⟨more, rfl⟩ := List.isPrefixOf_iff_prefix.mp hpre
    refine ⟨hu, ?_⟩
    have hlen : u.length + 1 = (u ++ [' ']).length := by rw [List.length_append]; rfl
    rw [hlen, List.drop_left, List.append_assoc]
    rfl
  · cases hw

/-- Whether a word stands in front of a space. -/
theorem afterWord_word {words : List (List Char)}
    (hwords : (words.all fun w => w != [] && !w.contains ' ') = true)
    (hword : (word != [] && !word.contains ' ') = true) (text : List Char) :
    afterWord words (word ++ ' ' :: text) = if word ∈ words then some (word, text) else none := by
  have hnamed : ∀ w : List Char, (w != [] && !w.contains ' ') = true → ∀ text,
      named (w ++ ' ' :: text) = some (w, text) := by
    intro w hw text
    rw [Bool.and_eq_true, bne_iff_ne, Bool.not_eq_true', List.contains_eq_mem,
      decide_eq_false_iff_not] at hw
    exact named_append hw.1 hw.2
  have hfind : ∀ r, afterWord words (word ++ ' ' :: text) = some r → r = (word, text) ∧
      word ∈ words := by
    intro r hr
    obtain ⟨hmem, htext⟩ := afterWord_eq_some hr
    have hr := hnamed r.1 (List.all_eq_true.mp hwords _ hmem) r.2
    rw [← htext, hnamed word hword] at hr
    have heq : (word, text) = r := Option.some.inj hr
    exact ⟨heq.symm, by rw [← heq] at hmem; exact hmem⟩
  rcases hafter : afterWord words (word ++ ' ' :: text) with _ | r
  · rw [if_neg]
    intro hmem
    have hpre := List.findSome?_eq_none_iff.mp hafter word hmem
    rw [if_pos] at hpre
    · cases hpre
    · refine List.isPrefixOf_iff_prefix.mpr ⟨text, ?_⟩
      rw [List.append_assoc]
      rfl
  · obtain ⟨rfl, hmem⟩ := hfind r hafter
    rw [if_pos hmem]

/-! ## What the mode finds on the line -/

/-- A line that matches the regexp of a type is of that type. -/
theorem actionType_lineRegexp {type : ActionType} {r : RebaseAction}
    (h : lineRegexp type text = some r) : r.actionType = some type := by
  have hnamed : ∀ words, namedAction type words text = some r → r.actionType = some type := by
    intro words hr
    obtain ⟨w, -, hr⟩ := Option.bind_eq_some_iff.mp hr
    obtain ⟨t, -, rfl⟩ := Option.map_eq_some_iff.mp hr
    rfl
  cases type with
  | commit => exact hnamed _ h
  | exec =>
    obtain ⟨w, -, rfl⟩ := Option.map_eq_some_iff.mp h
    rfl
  | bare =>
    obtain ⟨w, -, hr⟩ := List.exists_of_findSome?_eq_some h
    split at hr
    · rw [← Option.some.inj hr]
    · cases hr
  | label => exact hnamed _ h
  | merge =>
    obtain ⟨w, -, hr⟩ := Option.bind_eq_some_iff.mp h
    rcases Option.or_eq_some_iff.mp hr with hr | ⟨-, hr⟩
    · obtain ⟨o, -, hr⟩ := Option.bind_eq_some_iff.mp hr
      obtain ⟨t, -, rfl⟩ := Option.map_eq_some_iff.mp hr
      rfl
    · obtain ⟨t, -, rfl⟩ := Option.map_eq_some_iff.mp hr
      rfl

/-- What is found behind the comment and the spaces. -/
def found (text : List Char) : Option RebaseAction :=
  [ActionType.commit, .exec, .bare, .label, .merge].findSome? fun type => lineRegexp type text

/-- The current line is what is found behind the comment start, if there is one. -/
theorem currentLine_eq {c : Bool} (h : ∀ type, behindComment cs (lineRegexp type) line
    = (lineRegexp type text).map fun r => (r, c)) :
    currentLine cs line = ((found text).map fun r => { r with commentP := c }).getD {} := by
  rw [currentLine, found, List.map_findSome?]
  congr 2
  funext type
  rw [h type, Option.map_map]
  rfl

/-- The line without the comment and the spaces, for everything that is looked for on it. -/
theorem currentLine_bare (cs : CommentStart) (line : List Char) : currentLine cs line =
    ((found (bare cs line)).map fun r => { r with commentP := cs.text.isPrefixOf line }).getD {} :=
  currentLine_eq fun type => behindComment_eq (refuses_lineRegexp cs type) line

theorem found_of_commit {r : RebaseAction} (h : lineRegexp .commit text = some r) :
    found text = some r := by
  rw [found, List.findSome?_cons, h]

/-- A line that the regexp for commits does not match is not of that type. -/
theorem actionType_found_ne (h : lineRegexp .commit text = none) {r : RebaseAction}
    (hr : found text = some r) : r.actionType ≠ some .commit := by
  obtain ⟨type, -, htype⟩ := List.exists_of_findSome?_eq_some hr
  rw [actionType_lineRegexp htype]
  rintro heq
  rw [Option.some.inj heq, h] at htype
  cases htype

theorem Found.isWord (h : Found text word arguments t) :
    word ≠ [] ∧ ∀ x ∈ word, isBlank x = false := by
  have hall : (commitWords.all fun w => w != [] && w.all (!isBlank ·)) = true := by decide
  simpa using List.all_eq_true.mp hall word h.word_mem

theorem Found.space_notMem (h : Found text word arguments t) : ' ' ∉ word := fun hmem =>
  absurd (h.isWord.2 ' ' hmem) (by decide)

/-- What is found for a commit, as the regexp returns it. -/
theorem Found.lineRegexp_eq (h : Found text word arguments t) : lineRegexp .commit text = some
    { actionType := some .commit, action := some word, target := some t.1,
      trailer := some t.2 } := by
  have hword : (word != [] && !word.contains ' ') = true := by
    rw [Bool.and_eq_true, bne_iff_ne, Bool.not_eq_true', List.contains_eq_mem,
      decide_eq_false_iff_not]
    exact ⟨h.isWord.1, h.space_notMem⟩
  rw [h.text_eq, lineRegexp, namedAction, afterWord_word (by decide) hword, if_pos h.word_mem,
    Option.bind_some, h.named_eq, Option.map_some]

theorem Found.found_eq (h : Found text word arguments t) : found text = some
    { actionType := some .commit, action := some word, target := some t.1,
      trailer := some t.2 } := found_of_commit h.lineRegexp_eq

/-- A text is no line for a commit, or something is found in it. -/
theorem commit_cases (text : List Char) :
    lineRegexp .commit text = none ∨ ∃ word arguments t, Found text word arguments t := by
  rcases hcommit : lineRegexp .commit text with _ | r
  · exact .inl rfl
  · obtain ⟨w, hw, hr⟩ := Option.bind_eq_some_iff.mp hcommit
    obtain ⟨t, ht, -⟩ := Option.map_eq_some_iff.mp hr
    obtain ⟨hmem, htext⟩ := afterWord_eq_some hw
    exact .inr ⟨w.1, w.2, t, htext, hmem, ht⟩

/-- The current line is for a commit exactly if something is found in it. -/
theorem actionType_eq_commit_iff : (currentLine cs line).actionType = some .commit ↔
    ∃ word arguments t, Found (bare cs line) word arguments t := by
  rw [currentLine_bare]
  rcases commit_cases (bare cs line) with hnone | hfound
  · refine iff_of_false ?_ fun ⟨word, arguments, t, h⟩ => ?_
    · rcases hfound : found (bare cs line) with _ | r
      · exact fun h => by cases h
      · have hne := actionType_found_ne hnone hfound
        exact hne
    · rw [h.lineRegexp_eq] at hnone
      cases hnone
  · refine iff_of_true ?_ hfound
    obtain ⟨word, arguments, t, h⟩ := hfound
    rw [h.found_eq]
    rfl

/-- What the mode puts together again; a space stands behind the commit then. -/
theorem Found.rebuilt (h : Found text word arguments t) :
    t.1 ++ ' ' :: t.2 = if ' ' ∈ arguments then arguments else arguments ++ [' '] := by
  obtain ⟨-, hspace, htext | ⟨htext, hnil⟩⟩ := named_eq_some h.named_eq
  · rw [if_pos (by rw [htext]; exact List.mem_append_right _ List.mem_cons_self), htext]
  · rw [if_neg (by rwa [htext]), hnil, htext]

/-- There is a second blank exactly if there is one in the arguments. -/
theorem Found.count (h : Found text word arguments t) :
    1 < text.count ' ' ↔ ' ' ∈ arguments := by
  rw [h.text_eq, List.count_append, List.count_cons_self,
    List.count_eq_zero_of_not_mem h.space_notMem, ← List.count_pos_iff]
  omega

/-! ## What git reads -/

/-- A line that begins with the letter of a command is not commented out. -/
theorem bare_of_head (cs : CommentStart)
    (h : (line.head?.any fun c => "\n bdeflmnprstux".toList.contains c && c != ' ') = true) :
    cs.text.isPrefixOf line = false ∧ bare cs line = line := by
  rcases line with _ | ⟨c, line⟩
  · cases h
  rw [List.head?_cons, Option.any_some, Bool.and_eq_true, bne_iff_ne] at h
  obtain ⟨hc, hspace⟩ := h
  have hne : cs.first ≠ c := by
    rintro rfl
    exact cs.first_notMem (List.contains_iff_mem.mp hc)
  have hpre : cs.text.isPrefixOf (c :: line) = false := by
    rw [CommentStart.text, List.isPrefixOf_cons_cons, beq_eq_false_iff_ne.mpr hne, Bool.false_and]
  refine ⟨hpre, ?_⟩
  rw [bare, hpre, if_neg Bool.false_ne_true, List.dropWhile_cons_of_neg (by simpa using hspace)]

theorem lineAfter_of_ne (a : CommitAction)
    (h : (currentLine cs line).actionType ≠ some .commit) : lineAfter cs (some a) line = line :=
  if_neg h

/-- A line for a commit is written anew, with one blank behind each part. -/
theorem Found.lineAfter_eq (h : Found (bare cs line) word arguments t) (a : CommitAction) :
    lineAfter cs (some a) line = a.name ++ ' ' :: (t.1 ++ ' ' :: t.2) := by
  rw [lineAfter, if_pos (actionType_eq_commit_iff.mpr ⟨word, arguments, t, h⟩), currentLine_bare,
    h.found_eq]
  rfl

/-- A killed line is still one line. -/
theorem notMem_kill (h : '\n' ∉ line) : '\n' ∉ cs.text ++ ' ' :: line := by
  intro hmem
  rcases List.mem_append.mp hmem with hmem | hmem
  · exact cs.newline_notMem hmem
  · rcases List.mem_cons.mp hmem with hmem | hmem
    · exact absurd hmem (by decide)
    · exact h hmem

/-- Whatever is set, what replaces a line is a line. -/
theorem lineAfter_notMem (cs : CommentStart) (action : Option CommitAction) (h : '\n' ∉ line) :
    '\n' ∉ lineAfter cs action line := by
  rcases action with _ | a
  · rw [lineAfter]
    split
    · exact notMem_kill h
    · exact h
  by_cases htype : (currentLine cs line).actionType = some .commit
  · obtain ⟨word, arguments, t, hfound⟩ := actionType_eq_commit_iff.mp htype
    have harguments : '\n' ∉ arguments := fun hmem => h ((bare_suffix cs line).subset (by
      rw [hfound.text_eq]
      exact List.mem_append_right _ (List.mem_cons_of_mem _ hmem)))
    have hname : '\n' ∉ a.name := by cases a <;> decide
    rw [hfound.lineAfter_eq a, hfound.rebuilt]
    split
    · simp [hname, harguments]
    · simp [hname, harguments]
  · rw [lineAfter_of_ne a htype]
    exact h

/-- The lines of which the action can be set.  A line that is not found is not changed, so that it
must have the action already; and one that is found is changed, even where git reads no commit. -/
structure Reactionable (cs : CommentStart) (a : CommitAction) (line : List Char) : Prop where
  seen : ∀ c, readLine cs line = some c → Seen (bare cs line) c.1 → Settable a (bare cs line) c.1
  unseen : ∀ c, readLine cs line = some c → ¬Seen (bare cs line) c.1 →
    c.1.action = a.name ∧ c.2 = false
  other : readLine cs line = none → (currentLine cs line).actionType = some .commit →
    a.name ++ [' '] <+: line ∧ 1 < line.count ' '

/-- A killed line is a comment, and behind the comment start it is as before. -/
theorem bare_kill (cs : CommentStart) (line : List Char) :
    cs.text.isPrefixOf (cs.text ++ ' ' :: line) = true ∧
      bare cs (cs.text ++ ' ' :: line) = line.dropWhile (· = ' ') := by
  have hpre : cs.text.isPrefixOf (cs.text ++ ' ' :: line) = true :=
    List.isPrefixOf_iff_prefix.mpr (List.prefix_append _ _)
  refine ⟨hpre, ?_⟩
  rw [bare, hpre, if_pos rfl, List.drop_left, List.dropWhile_cons_of_pos (by simp)]

/-- What is found on a line that has been commented out. -/
theorem currentLine_kill (cs : CommentStart) (line : List Char) :
    currentLine cs (cs.text ++ ' ' :: line)
      = ((found (line.dropWhile (· = ' '))).map fun r => { r with commentP := true }).getD {} := by
  rw [currentLine_bare, (bare_kill cs line).1, (bare_kill cs line).2]

theorem bare_of_not (h : cs.text.isPrefixOf line = false) :
    bare cs line = line.dropWhile (· = ' ') := by
  rw [bare, h, if_neg Bool.false_ne_true]

/-- What a commit line must be like for it to be picked again. -/
structure Pickable (cs : CommentStart) (line : List Char) (c : CommitLine) : Prop where
  seen : Seen (bare cs line) c
  settable : Settable .pick (bare cs line) c
  trailer : CommitAction.pick.name ++ [' '] <+: line → 1 < line.count ' '

end

end Magit.GitRebase
