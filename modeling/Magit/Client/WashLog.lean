import Mathlib.Data.List.Forall2
import Magit.Emacs.Buffer
import Magit.Emacs.Regexp
import Magit.Git.Steps

/-!
# Client/WashLog — the sections of a log

`magit-log-wash-rev` takes a line of the log apart with one regexp and makes a section of it, together
with the lines after it that have only a part of the graph.  These are aligned by the width of the
abbreviated hashes; while a response is being looked at that is no number but an abbreviated hash.
So there is a section for each commit, with its own fields, unless such a line is to be aligned then
(`washed_iff`).
-/

namespace Magit.Client.WashLog

open Emacs Git

/-! ## The regexp -/

section

-- `fold` is `case-fold-search`.
variable (fold : Bool)

/-- `[-_/|\*o<>. ]`. -/
def isGraph (c : Char) : Bool :=
  c ∈ ['-', '_', '/', '|', '\\', '*', 'o', '<', '>', '.', ' '] || fold && c = 'O'

/-- `[0-9a-fA-F]`. -/
def isHex (c : Char) : Bool :=
  c.isDigit || 'a' ≤ c && c ≤ 'f' || 'A' ≤ c && c ≤ 'F'

/-- `[BGUXYREN]`. -/
def isSignature (c : Char) : Bool :=
  c ∈ ['B', 'G', 'U', 'X', 'Y', 'R', 'E', 'N'] ||
    fold && c ∈ ['b', 'g', 'u', 'x', 'y', 'r', 'e', 'n']

/-- Neither a form feed nor a newline. -/
def isField (c : Char) : Bool := c ≠ ff && c ≠ '\n'

/-- The form feed that ends a field. -/
def isFf (c : Char) : Bool := c = ff

/-- `magit-log-heading-re`, behind its `^`. -/
def magitLogHeadingRe : Regexp :=
  ((Regexp.many (isGraph fold)).group 4).seq <|        -- graph
  ((Regexp.plus isHex).group 1).optional.seq <|        -- hash
  (Regexp.char isFf).seq <|
  ((Regexp.plus isField).group 3).optional.seq <|      -- refs
  (Regexp.char isFf).seq <|
  ((Regexp.char (isSignature fold)).group 7).optional.seq <|  -- gpg
  (Regexp.char isFf).seq <|
  ((Regexp.many isField).group 5).seq <|               -- author
  (Regexp.char isFf).seq <|
  ((Regexp.many isField).group 6).seq <|               -- date
  (Regexp.char isFf).seq <|
  ((Regexp.many (· ≠ '\n')).group 2).seq Regexp.eol    -- msg

/-- The text after point looks like a heading. -/
def isHeading (lines : List Text) : Bool :=
  ((magitLogHeadingRe fold).lookingAt (unlines lines)).isSome

end

/-! ## `magit-log-wash-log` -/

/-- What a heading is put together from. -/
inductive Piece
  | hash (s : Text)
  | graph (s : Text)
  | refs (s : Text)
  | summary (s : Text)
  deriving DecidableEq

/-- A section of type `commit`; `author` and `date` are what the margin gets. -/
structure CommitSection where
  value : Text
  heading : List Piece
  author : Option Text
  date : Option Text
  body : List Text
  deriving DecidableEq

/-- The sections of a log, and whether there is one that offers more. -/
structure WashedLog where
  commits : List CommitSection
  longer : Bool
  deriving DecidableEq

/-- The options that a log is washed with. -/
structure Options where
  /-- `case-fold-search`. -/
  fold : Bool
  /-- There is no `--stat` among `magit-buffer-log-args`. -/
  align : Bool
  /-- `magit-log-show-refname-after-summary`. -/
  refnameAfterSummary : Bool
  /-- The mode derives from `magit-log-mode` or `magit-reflog-mode`. -/
  logMode : Bool
  /-- `magit-log-get-commit-limit`. -/
  commitLimit : Option ℕ
  /-- `magit-abbrev-length`. -/
  abbrevLength : ℕ

/-- What is passed for the width of the abbreviated hashes. -/
inductive Abbrev
  | number (n : ℕ)
  | string (s : Text)

/-- `(make-string (1+ abbrev) ? )`, which signals if `abbrev` is no number. -/
def Abbrev.makeString : Abbrev → Option Text
  | number n => some (List.replicate (n + 1) ' ')
  | string _ => none

section

variable (o : Options)

/-- What the heading of a commit is made of. -/
def headingPieces (hash : Text) (graph refs : Option Text) (msg : Text) : List Piece :=
  (if o.align then [.hash hash] else []) ++ (graph.map .graph).toList
    ++ (if o.align then [] else [.hash hash])
    ++ (if o.refnameAfterSummary then [] else (refs.map .refs).toList) ++ [.summary msg]
    ++ (if o.refnameAfterSummary then (refs.map .refs).toList else [])

/-- The lines up to the next heading. -/
def graphOnly : List Text → List Text × List Text
  | [] => ([], [])
  | line :: lines =>
    if isHeading o.fold (line :: lines) then ([], line :: lines)
    else (line :: (graphOnly lines).1, (graphOnly lines).2)

/-- The graph of the last line once more, unless it has a diagonal. -/
def separator (line : Text) : List Text :=
  let graph := line.takeWhile (isGraph o.fold)
  if graph.any fun c => c = '/' || c = '\\' || c = '.' then [] else [graph]

/-- A header or a diffstat: `\x1e`, or `^\(---\|\n \|\ndiff\)`. -/
def lookingAtOther (lines : List Text) : Bool :=
  ['\x1e'].isPrefixOf (unlines lines) || ['-', '-', '-'].isPrefixOf (unlines lines)
    || ['\n', ' '].isPrefixOf (unlines lines) || ['\n', 'd', 'i', 'f', 'f'].isPrefixOf (unlines lines)

/-- What is inserted for the lines with only a part of the graph. -/
def graphBody (align : Text) (lines : List Text) : List Text :=
  let inserted := lines.map (align ++ ·)
  inserted ++ (inserted.getLast?.map (separator o)).getD []

-- `others` is how headers and diffstats are washed.
variable (others : List Text → Option (List Text × List Text)) (width : Abbrev)

/-- What `magit-log-wash-rev` does behind the heading: the body, and the lines that are left. -/
def afterHeading (lines : List Text) : Option (List Text × List Text) :=
  if lines = [] ∨ isHeading o.fold lines then some ([], lines)
  else if lookingAtOther lines then others lines
  else
    (if o.align then width.makeString else some []).map fun align =>
      (graphBody o align (graphOnly o lines).1, (graphOnly o lines).2)

/-- `magit-log-wash-rev` in the style `log`: the section, and the lines that are left.  If the regexp
does not match, the match data are those of some earlier search. -/
def magitLogWashRev (lines : List Text) : Option (CommitSection × List Text) :=
  match (magitLogHeadingRe o.fold).lookingAt (unlines lines) with
  | none => none
  | some groups =>
    match groups 1, groups 2 with
    | some hash, some msg =>
      (if (groups 4).isSome then afterHeading o others width lines.tail
        else some ([], lines.tail)).map fun after =>
          (⟨hash, headingPieces o hash (groups 4) (groups 3) msg, groups 5, groups 6, after.1⟩,
            after.2)
    | _, _ => none

/-- `magit-wash-sequence`, up to so many times. -/
def washSequence : ℕ → List Text → Option (List CommitSection)
  | _, [] => some []
  | 0, _ :: _ => none
  | fuel + 1, line :: lines =>
    match magitLogWashRev o others width (line :: lines) with
    | none => none
    | some (s, rest) => (washSequence fuel rest).map (s :: ·)

/-- The width that `magit-log-wash-log` passes; a response has the abbreviated hash of `HEAD`. -/
def widthOf : Option Text → Abbrev
  | some revShortHead => .string revShortHead
  | none => .number o.abbrevLength

/-- `magit-log-wash-log` in the style `log`, with a response or without one. -/
def magitLogWashLog (gitInfo : Option Text) (lines : List Text) : Option WashedLog :=
  let lines := if ['.', '.', '.'].isPrefixOf (unlines lines) then lines.tail else lines
  (washSequence o others (widthOf o gitInfo) lines.length lines).map fun commits =>
    ⟨commits, o.logMode && some commits.length = o.commitLimit⟩

end

/-! ## What `git` prints -/

/-- A line with only a part of the graph.  `git` draws none that begins with dashes. -/
structure IsGraphLine (line : Text) : Prop where
  ne_nil : line ≠ []
  graph : ∀ c ∈ line, isGraph false c = true
  dashes : ¬ ['-', '-', '-'] <+: line

/-- A commit as `git` prints it, with what is drawn of the graph before it and below it. -/
structure LogCommit where
  graph : Text
  hash : Text
  refs : Text
  signature : Option Char
  author : Text
  date : Text
  subject : Text
  below : List Text
  graph_chars : ∀ c ∈ graph, isGraph false c = true
  /-- There is the mark of the commit in it. -/
  graph_dots : ¬ ['.', '.', '.'] <+: graph
  hash_ne_nil : hash ≠ []
  hash_chars : ∀ c ∈ hash, isHex c = true
  refs_chars : ∀ c ∈ refs, isField c = true
  signature_char : ∀ c ∈ signature, isSignature false c = true
  author_chars : ∀ c ∈ author, isField c = true
  date_chars : ∀ c ∈ date, isField c = true
  subject_chars : '\n' ∉ subject
  below_lines : ∀ line ∈ below, IsGraphLine line

namespace LogCommit

variable (c : LogCommit)

/-- `GRAPH%h%x0c%D%x0c%G?%x0c%aN%x0c%at%x0c%s`. -/
def line : Text :=
  c.graph ++ (c.hash ++ ff :: (c.refs ++ ff :: (c.signature.toList ++ ff :: (c.author
    ++ ff :: (c.date ++ ff :: c.subject)))))

/-- All lines of a commit in the output. -/
def lines : List Text := c.line :: c.below

/-- Its section, if the lines below are aligned like this. -/
def commitSection (o : Options) (align : Text) : CommitSection where
  value := c.hash
  heading := headingPieces o c.hash (some c.graph) (if c.refs = [] then none else some c.refs)
    c.subject
  author := some c.author
  date := some c.date
  body := graphBody o align c.below

end LogCommit

/-- How the lines below the commits are to be aligned. -/
def indentation (o : Options) : Text :=
  if o.align then List.replicate (o.abbrevLength + 1) ' ' else []

/-- **The log is washed**: there is just a section for each commit, in order, with its own fields, and
nothing is left. -/
def Washed (o : Options) (others : List Text → Option (List Text × List Text))
    (gitInfo : Option Text) (commits : List LogCommit) : Prop :=
  magitLogWashLog o others gitInfo (commits.flatMap LogCommit.lines) =
    some ⟨commits.map fun c => c.commitSection o (indentation o),
      o.logMode && some commits.length = o.commitLimit⟩

/-! ## Sets of characters -/

section

variable {fold : Bool} {c : Char}

theorem isGraph_of_isGraph_false (h : isGraph false c = true) : isGraph fold c = true := by
  rw [isGraph, Bool.false_and, Bool.or_false] at h
  rw [isGraph, h, Bool.true_or]

theorem isSignature_of_isSignature_false (h : isSignature false c = true) :
    isSignature fold c = true := by
  rw [isSignature, Bool.false_and, Bool.or_false] at h
  rw [isSignature, h, Bool.true_or]

/-- The characters of a graph. -/
theorem mem_of_isGraph (h : isGraph fold c = true) :
    c ∈ ['-', '_', '/', '|', '\\', '*', 'o', '<', '>', '.', ' ', 'O'] := by
  rw [isGraph, Bool.or_eq_true, Bool.and_eq_true, decide_eq_true_eq, decide_eq_true_eq] at h
  rcases h with h | ⟨-, rfl⟩
  · exact List.mem_append_left ['O'] h
  · decide

/-- Nothing of a graph is anything else. -/
theorem not_of_isGraph (h : isGraph fold c = true) :
    isHex c = false ∧ isFf c = false ∧ c ≠ '\n' ∧ c ≠ '\x1e' := by
  have hall : (['-', '_', '/', '|', '\\', '*', 'o', '<', '>', '.', ' ', 'O'].all fun d =>
      !isHex d && (!isFf d && (d ≠ '\n' && d ≠ '\x1e'))) = true := by decide
  simpa only [Bool.and_eq_true, Bool.not_eq_true', decide_eq_true_eq] using
    List.all_eq_true.mp hall c (mem_of_isGraph h)

theorem isFf_of_isField (h : isField c = true) : isFf c = false := by
  rw [isField, Bool.and_eq_true, decide_eq_true_eq] at h
  exact decide_eq_false h.1

theorem isFf_of_isHex (h : isHex c = true) : isFf c = false := by
  refine decide_eq_false fun hff => ?_
  rw [hff] at h
  exact absurd h (by decide)

theorem isFf_of_isSignature (h : isSignature fold c = true) : isFf c = false := by
  refine decide_eq_false fun hff => ?_
  rw [hff] at h
  cases fold <;> exact absurd h (by decide)

end

/-! ## Headings -/

section

variable (fold : Bool)

/-- What stands between two form feeds is not taken for what follows it. -/
theorem refuses_ff {p : Char → Bool} (h : ∀ c, p c = true → isFf c = false) (r : Regexp) :
    ((Regexp.char isFf).seq r).Refuses p :=
  (Regexp.refuses_char h).seq r

theorem head?_ff (text : Text) {p : Char → Bool} (h : p ff = false) :
    ∀ c ∈ (ff :: text).head?, p c = false := by
  intro c hc
  rw [← Option.some.inj hc]
  exact h

/-- The groups of a heading. -/
def LogCommit.groups (c : LogCommit) : Groups :=
  let g : Groups := Function.update (fun _ => none) 4 (some c.graph)
  let g := Function.update g 1 (some c.hash)
  let g := if c.refs = [] then g else Function.update g 3 (some c.refs)
  let g := if c.signature = none then g else Function.update g 7 (some c.signature.toList)
  Function.update (Function.update (Function.update g 5 (some c.author)) 6 (some c.date)) 2
    (some c.subject)

/-- A hash does not go on the graph. -/
theorem LogCommit.head?_hash (c : LogCommit) (text : Text) :
    ∀ d ∈ (c.hash ++ text).head?, isGraph fold d = false := by
  intro d hd
  rw [List.head?_append_of_ne_nil _ c.hash_ne_nil] at hd
  have hhex := c.hash_chars d (List.mem_of_mem_head? hd)
  refine Bool.eq_false_iff.mpr fun hgraph => ?_
  exact Bool.false_ne_true ((not_of_isGraph hgraph).1.symm.trans hhex)

/-- What comes behind the graph begins with a digit of the hash, or with a form feed. -/
theorem refuses_hash (r : Regexp) :
    (((Regexp.plus isHex).group 1).optional.seq ((Regexp.char isFf).seq r)).Refuses
      (isGraph fold) := by
  refine Regexp.Refuses.optional_seq ?_ (refuses_ff (fun c hc => (not_of_isGraph hc).2.1) r)
  exact ((Regexp.refuses_char fun c hc => (not_of_isGraph hc).1).seq _).group 1

/-- **A heading is matched in one way**, by the fields of its commit, whatever stands in the subject. -/
theorem ways_line (c : LogCommit) (text : Text) :
    (magitLogHeadingRe fold).ways (c.line ++ '\n' :: text) (fun _ => none) =
      [('\n' :: text, c.groups)] := by
  have hfield : isField ff = false := by decide
  have hsignature : isSignature fold ff = false := by cases fold <;> decide
  have hhex : isHex ff = false := by decide
  have hff : isFf ff = true := by decide
  have hline : c.line ++ '\n' :: text =
      c.graph ++ (c.hash ++ ff :: (c.refs ++ ff :: (c.signature.toList ++ ff :: (c.author
        ++ ff :: (c.date ++ ff :: (c.subject ++ '\n' :: text)))))) := by
    simp only [LogCommit.line, List.append_assoc, List.cons_append]
  have hsubject : ∀ d ∈ c.subject, decide (d ≠ '\n') = true := fun d hd =>
    decide_eq_true (ne_of_mem_of_not_mem hd c.subject_chars)
  have heol : Regexp.eol.Refuses (fun d => decide (d ≠ '\n')) :=
    Regexp.refuses_eol fun d hd => of_decide_eq_true hd
  rw [hline, magitLogHeadingRe,
    Regexp.ways_group_many_seq (fun d hd => isGraph_of_isGraph_false (c.graph_chars d hd))
      (c.head?_hash fold _) (refuses_hash fold _),
    Regexp.ways_optional_plus_seq c.hash_chars (head?_ff _ hhex)
      (refuses_ff (fun d => isFf_of_isHex) _),
    Regexp.ways_char_seq hff,
    Regexp.ways_optional_plus_seq c.refs_chars (head?_ff _ hfield)
      (refuses_ff (fun d => isFf_of_isField) _),
    Regexp.ways_char_seq hff,
    Regexp.ways_optional_char_seq
      (fun d hd => isSignature_of_isSignature_false (c.signature_char d hd))
      (head?_ff _ hsignature) (refuses_ff (fun d => isFf_of_isSignature) _),
    Regexp.ways_char_seq hff,
    Regexp.ways_group_many_seq c.author_chars (head?_ff _ hfield)
      (refuses_ff (fun d => isFf_of_isField) _),
    Regexp.ways_char_seq hff,
    Regexp.ways_group_many_seq c.date_chars (head?_ff _ hfield)
      (refuses_ff (fun d => isFf_of_isField) _),
    Regexp.ways_char_seq hff,
    Regexp.ways_group_many_seq hsubject (by simp) heol, if_neg c.hash_ne_nil]
  rfl

/-- **The line of a commit is read back** into its groups. -/
theorem lookingAt_line (c : LogCommit) (lines : List Text) :
    (magitLogHeadingRe fold).lookingAt (unlines (c.line :: lines)) = some c.groups := by
  rw [unlines_cons]
  exact Regexp.lookingAt_of_ways (ways_line fold c (unlines lines))

theorem isHeading_line (c : LogCommit) (lines : List Text) :
    isHeading fold (c.line :: lines) = true := by
  rw [isHeading, lookingAt_line, Option.isSome_some]

/-- A line with nothing but a graph is no heading: there is no form feed behind it. -/
theorem isHeading_graphLine {line : Text} (h : IsGraphLine line) (lines : List Text) :
    isHeading fold (line :: lines) = false := by
  have hnewline : ∀ d ∈ ('\n' :: unlines lines).head?, isGraph fold d = false := by
    intro d hd
    obtain rfl : '\n' = d := Option.some.inj hd
    cases fold <;> decide
  have hways : (magitLogHeadingRe fold).ways (line ++ '\n' :: unlines lines) (fun _ => none) = [] := by
    rw [magitLogHeadingRe, Regexp.ways_group_many_seq
      (fun d hd => isGraph_of_isGraph_false (h.graph d hd)) hnewline (refuses_hash fold _)]
    have hhex : isHex '\n' = false := by decide
    have hff : isFf '\n' = false := by decide
    simp [Regexp.ways_optional, Regexp.plus, hhex, hff]
  rw [isHeading, Regexp.lookingAt, unlines_cons, hways]
  rfl

/-- It begins neither a header nor a diffstat. -/
theorem lookingAtOther_graphLine {line : Text} (h : IsGraphLine line) (lines : List Text) :
    lookingAtOther (line :: lines) = false := by
  have hdashes : ['-', '-', '-'].isPrefixOf (line ++ '\n' :: unlines lines) = false := by
    refine Bool.eq_false_iff.mpr fun hstart => h.dashes ?_
    rcases line with _ | ⟨c, _ | ⟨d, _ | ⟨e, line⟩⟩⟩
    · simp at hstart
    · simp at hstart
    · simp at hstart
    · simpa [List.isPrefixOf] using hstart
  rcases line with _ | ⟨c, line⟩
  · exact absurd rfl h.ne_nil
  · obtain ⟨-, -, hnewline, hheader⟩ := not_of_isGraph (h.graph c List.mem_cons_self)
    rw [lookingAtOther, unlines_cons, hdashes]
    simp [List.isPrefixOf, hnewline.symm, hheader.symm]

end

/-! ## One commit -/

section

variable {o : Options} {others : List Text → Option (List Text × List Text)} {width : Abbrev}

/-- What follows the lines of a commit: nothing, or the heading of the next. -/
def Follows (o : Options) (rest : List Text) : Prop := rest = [] ∨ isHeading o.fold rest = true

/-- In front of commits nothing but a heading follows. -/
theorem follows_flatMap (o : Options) (commits : List LogCommit) :
    Follows o (commits.flatMap LogCommit.lines) := by
  rcases commits with _ | ⟨c, commits⟩
  · exact Or.inl rfl
  · exact Or.inr (isHeading_line o.fold c _)

/-- The lines with the graph only are those below the commit. -/
theorem graphOnly_append {below rest : List Text} (hbelow : ∀ line ∈ below, IsGraphLine line)
    (hrest : Follows o rest) : graphOnly o (below ++ rest) = (below, rest) := by
  induction below with
  | nil =>
    rcases rest with _ | ⟨line, rest⟩
    · rfl
    · rcases hrest with hnil | hheading
      · cases hnil
      · rw [List.nil_append, graphOnly, hheading, if_pos rfl]
  | cons line below ih =>
    obtain ⟨hline, hbelow⟩ := List.forall_mem_cons.mp hbelow
    rw [List.cons_append, graphOnly, isHeading_graphLine o.fold hline, if_neg Bool.false_ne_true,
      ih hbelow]

/-- What the lines below a commit are aligned by; there is nothing to be aligned if there are none. -/
def alignment (o : Options) (width : Abbrev) (below : List Text) : Option Text :=
  if below = [] ∨ o.align = false then some [] else width.makeString

/-- What is below a heading belongs to its section. -/
theorem afterHeading_append {below rest : List Text} (hbelow : ∀ line ∈ below, IsGraphLine line)
    (hrest : Follows o rest) : afterHeading o others width (below ++ rest) =
      (alignment o width below).map fun align => (graphBody o align below, rest) := by
  rcases below with _ | ⟨line, below⟩
  · have hfollows : rest = [] ∨ isHeading o.fold rest = true := hrest
    rw [List.nil_append, afterHeading, if_pos hfollows, alignment, if_pos (Or.inl rfl)]
    rfl
  · have hline := hbelow line List.mem_cons_self
    have hheading : ¬ (line :: below ++ rest = [] ∨
        isHeading o.fold (line :: below ++ rest) = true) := by
      rw [List.cons_append, isHeading_graphLine o.fold hline]
      simp
    rw [afterHeading, if_neg hheading, List.cons_append, lookingAtOther_graphLine hline,
      if_neg Bool.false_ne_true, ← List.cons_append, graphOnly_append hbelow hrest, alignment]
    rcases o.align with _ | _ <;> simp

namespace LogCommit

variable (c : LogCommit)

theorem groups_hash : c.groups 1 = some c.hash := by
  rw [groups]
  split_ifs <;> simp [Function.update]

theorem groups_msg : c.groups 2 = some c.subject := by
  rw [groups, Function.update_self]

theorem groups_refs : c.groups 3 = if c.refs = [] then none else some c.refs := by
  rw [groups]
  split_ifs <;> simp [Function.update]

theorem groups_graph : c.groups 4 = some c.graph := by
  rw [groups]
  split_ifs <;> simp [Function.update]

theorem groups_author : c.groups 5 = some c.author := by
  rw [groups]
  simp [Function.update]

theorem groups_date : c.groups 6 = some c.date := by
  rw [groups]
  simp [Function.update]

/-- **A commit is washed** to the section with its fields, up to where the next begins. -/
theorem magitLogWashRev_lines {rest : List Text} (hrest : Follows o rest) :
    magitLogWashRev o others width (c.lines ++ rest) =
      (alignment o width c.below).map fun align => (c.commitSection o align, rest) := by
  rw [lines, List.cons_append, magitLogWashRev, lookingAt_line]
  simp only [c.groups_hash, c.groups_msg, c.groups_refs, c.groups_graph, c.groups_author,
    c.groups_date, Option.isSome_some, if_true, List.tail_cons]
  rw [afterHeading_append c.below_lines hrest, Option.map_map]
  rfl

end LogCommit

/-! ## The log -/

theorem washSequence_nil (fuel : ℕ) : washSequence o others width fuel [] = some [] := by
  cases fuel <;> rfl

/-- There is a section for each commit that is washed, and nothing is left. -/
theorem washSequence_eq_some_iff {fuel : ℕ} {commits : List LogCommit}
    (hfuel : (commits.flatMap LogCommit.lines).length ≤ fuel) (sections : List CommitSection) :
    washSequence o others width fuel (commits.flatMap LogCommit.lines) = some sections ↔
      List.Forall₂ (fun (c : LogCommit) s =>
        (alignment o width c.below).map (c.commitSection o) = some s) commits sections := by
  induction commits generalizing fuel sections with
  | nil =>
    rw [List.flatMap_nil, washSequence_nil, List.forall₂_nil_left_iff, Option.some_inj]
    exact eq_comm
  | cons c commits ih =>
    rw [List.flatMap_cons, LogCommit.lines, List.cons_append, List.length_cons,
      List.length_append] at hfuel
    obtain ⟨fuel, rfl⟩ : ∃ m, fuel = m + 1 := ⟨fuel - 1, by omega⟩
    have hrest := ih (show (commits.flatMap LogCommit.lines).length ≤ fuel by omega)
    have hrev : magitLogWashRev o others width (c.lines ++ commits.flatMap LogCommit.lines) =
        (alignment o width c.below).map fun align =>
          (c.commitSection o align, commits.flatMap LogCommit.lines) :=
      c.magitLogWashRev_lines (follows_flatMap o commits)
    rw [LogCommit.lines, List.cons_append] at hrev
    rw [List.flatMap_cons, LogCommit.lines, List.cons_append, washSequence, hrev,
      List.forall₂_cons_left_iff]
    rcases alignment o width c.below with _ | align
    · refine iff_of_false (fun h => nomatch h) ?_
      rintro ⟨s, sections', hs, -⟩
      cases hs
    · simp only [Option.map_some, Option.map_eq_some_iff, hrest, Option.some_inj]
      constructor
      · rintro ⟨sections', hsections', rfl⟩
        exact ⟨_, sections', rfl, hsections', rfl⟩
      · rintro ⟨s, sections', rfl, hsections', rfl⟩
        exact ⟨sections', hsections', rfl⟩

/-- No log begins with dots. -/
theorem not_dots_flatMap (commits : List LogCommit) :
    ['.', '.', '.'].isPrefixOf (unlines (commits.flatMap LogCommit.lines)) = false := by
  rcases commits with _ | ⟨c, commits⟩
  · rfl
  rw [List.flatMap_cons, LogCommit.lines, List.cons_append, unlines_cons, LogCommit.line,
    List.append_assoc, List.append_assoc]
  rcases hhash : c.hash with _ | ⟨h, hash⟩
  · exact absurd hhash c.hash_ne_nil
  have hdot : '.' ≠ h := by
    rintro rfl
    exact absurd (c.hash_chars '.' (hhash ▸ List.mem_cons_self)) (by decide)
  have hdots := c.graph_dots
  rcases hgraph : c.graph with _ | ⟨d, _ | ⟨e, _ | ⟨f, graph⟩⟩⟩
  · simp [List.isPrefixOf, hdot]
  · simp [List.isPrefixOf, hdot]
  · simp [List.isPrefixOf, hdot]
  · rw [hgraph] at hdots
    refine Bool.eq_false_iff.mpr fun hstart => hdots ?_
    simpa [List.isPrefixOf] using hstart

/-- The commits are washed exactly if each of them gets the indentation. -/
theorem washed_iff_forall (gitInfo : Option Text) (commits : List LogCommit) :
    Washed o others gitInfo commits ↔ ∀ c ∈ commits,
      (alignment o (widthOf o gitInfo) c.below).map (c.commitSection o) =
        some (c.commitSection o (indentation o)) := by
  have hwash : magitLogWashLog o others gitInfo (commits.flatMap LogCommit.lines) =
      (washSequence o others (widthOf o gitInfo) (commits.flatMap LogCommit.lines).length
        (commits.flatMap LogCommit.lines)).map fun sections =>
          ⟨sections, o.logMode && some sections.length = o.commitLimit⟩ := by
    rw [magitLogWashLog, not_dots_flatMap, if_neg Bool.false_ne_true]
  have hsections : Washed o others gitInfo commits ↔
      washSequence o others (widthOf o gitInfo) (commits.flatMap LogCommit.lines).length
        (commits.flatMap LogCommit.lines) =
          some (commits.map fun c => c.commitSection o (indentation o)) := by
    rw [Washed, hwash, Option.map_eq_some_iff]
    constructor
    · rintro ⟨sections, hsome, heq⟩
      rw [hsome, (WashedLog.mk.inj heq).1]
    · intro hsome
      refine ⟨_, hsome, ?_⟩
      rw [List.length_map]
  rw [hsections, washSequence_eq_some_iff (le_refl _), List.forall₂_map_right_iff,
    List.forall₂_same]

/-- A section without lines below does not depend on how they are aligned. -/
theorem LogCommit.commitSection_of_nil {c : LogCommit} (h : c.below = []) (align align' : Text) :
    c.commitSection o align = c.commitSection o align' := by
  rw [commitSection, commitSection, h]
  rfl

/-- **The log is washed exactly if** no response is being looked at, or no line below a commit is to be
aligned. -/
theorem washed_iff (o : Options) (others : List Text → Option (List Text × List Text))
    (gitInfo : Option Text) (commits : List LogCommit) :
    Washed o others gitInfo commits ↔
      gitInfo = none ∨ o.align = false ∨ ∀ c ∈ commits, c.below = [] := by
  rw [washed_iff_forall]
  constructor
  · intro h
    rcases gitInfo with _ | s
    · exact Or.inl rfl
    rcases halign : o.align with _ | _
    · exact Or.inr (Or.inl rfl)
    refine Or.inr (Or.inr fun c hc => ?_)
    have hc := h c hc
    by_contra hbelow
    rw [alignment, if_neg (by simp [hbelow, halign])] at hc
    cases hc
  · intro h c hc
    by_cases hbelow : c.below = []
    · rw [alignment, if_pos (Or.inl hbelow), Option.map_some]
      exact congrArg some (LogCommit.commitSection_of_nil hbelow _ _)
    rcases halign : o.align with _ | _
    · rw [alignment, if_pos (Or.inr halign), indentation, halign]
      rfl
    obtain rfl : gitInfo = none := by
      rcases h with hnone | halign' | hall
      · exact hnone
      · exact absurd (halign.symm.trans halign') (by decide)
      · exact absurd (hall c hc) hbelow
    rw [alignment, if_neg (by simp [hbelow, halign]), indentation, halign]
    rfl

end

/-- A merge, with the first line of the graph below it. -/
def merge : LogCommit where
  graph := "*   ".toList
  hash := "a1b2c3d".toList
  refs := []
  signature := none
  author := "A U Thor".toList
  date := "1700000000".toList
  subject := "Merge".toList
  below := ["|\\  ".toList]
  graph_chars := List.all_eq_true.mp (by decide)
  graph_dots := by decide
  hash_ne_nil := by decide
  hash_chars := List.all_eq_true.mp (by decide)
  refs_chars := List.all_eq_true.mp (by decide)
  signature_char := fun _ h => nomatch h
  author_chars := List.all_eq_true.mp (by decide)
  date_chars := List.all_eq_true.mp (by decide)
  subject_chars := by decide
  below_lines := by
    intro line hline
    rw [List.mem_singleton.mp hline]
    exact ⟨by decide, List.all_eq_true.mp (by decide), by decide⟩

/-- The log of a merge, while a response is being looked at, ends in a signal. -/
theorem not_washed_merge :
    ¬ Washed ⟨true, true, false, false, none, 7⟩ (fun _ => none) (some "a1b2c3d".toList) [merge] := by
  intro h
  have hmerge := (washed_iff_forall _ _).mp h merge (List.mem_singleton_self _)
  rw [alignment, if_neg (by decide)] at hmerge
  cases hmerge

end Magit.Client.WashLog
