import Magit.Blame.Parse
import Magit.Emacs.SplitString

/-!
# Blame/Records — what git writes for a chunk

A `Record` is what `git blame --incremental` writes for one chunk.  Its text is parsed in the same
way whatever is behind it (`parseChunk_lines_append`), and as long as some of it is missing there is
no line with a file name to be found (`searchFilename_of_missing`).
-/

namespace Magit.Blame

open Emacs Client Git

/-- Text of a line. -/
abbrev Line := { text : Text // '\n' ∉ text }

/-- The digits of a hash. -/
def hexDigits : List Char := "0123456789abcdef".toList

/-- The name of a commit, in full. -/
abbrev Hash := { text : Text // 40 ≤ text.length ∧ ∀ c ∈ text, c ∈ hexDigits }

/-- A file name that git prints as it is. -/
abbrev Path := { text : Text // text ≠ [] ∧ '\n' ∉ text }

/-- What is written at the first mention of a commit. -/
structure CommitDetails where
  author : Line
  authorMail : Line
  authorTime : Line
  authorTz : Line
  committer : Line
  committerMail : Line
  committerTime : Line
  committerTz : Line
  summary : Line
  boundary : Bool

/-- The lines of a commit's details, which git prints once for each commit. -/
def CommitDetails.lines (d : CommitDetails) : List Text :=
  ["author ".toList ++ d.author, "author-mail ".toList ++ d.authorMail,
    "author-time ".toList ++ d.authorTime, "author-tz ".toList ++ d.authorTz,
    "committer ".toList ++ d.committer, "committer-mail ".toList ++ d.committerMail,
    "committer-time ".toList ++ d.committerTime, "committer-tz ".toList ++ d.committerTz,
    "summary ".toList ++ d.summary] ++ if d.boundary then ["boundary".toList] else []

/-- One record of `git blame --incremental`. -/
structure Record where
  rev : Hash
  origLine : ℕ
  finalLine : ℕ
  numLines : ℕ
  details : Option CommitDetails
  previous : Option (Hash × Path)
  filename : Path

namespace Record

/-- The first line of a record. -/
def headerLine (r : Record) : Text :=
  r.rev ++ ' ' :: (decimal r.origLine ++ ' ' :: (decimal r.finalLine ++ ' ' :: decimal r.numLines))

/-- The line about the file that the lines come from. -/
def previousLine (previous : Hash × Path) : Text :=
  "previous ".toList ++ (previous.1 ++ ' ' :: previous.2)

/-- The lines between the first and the last one. -/
def body (r : Record) : List Text :=
  (r.details.map CommitDetails.lines).getD [] ++ (r.previous.map fun p => [previousLine p]).getD []

/-- The last line of a record. -/
def filenameLine (r : Record) : Text := "filename ".toList ++ r.filename

/-- All lines of a record. -/
def lines (r : Record) : List Text := r.headerLine :: (r.body ++ [r.filenameLine])

/-- A record as git prints it. -/
def text (r : Record) : Text := unlines r.lines

end Record

/-! ## The first line -/

/-- The longest match is the last one behind which the test fails. -/
theorem longest_eq_of_none {β : Type*} {test : ℕ → Option β} {k n : ℕ} {b : β} (hk : k ≤ n)
    (htest : test k = some b) (hnone : ∀ j, k < j → j ≤ n → test j = none) :
    longest test n = some b := by
  induction n with
  | zero => rw [Nat.le_zero.mp hk] at htest; exact htest
  | succ n ih =>
    rw [longest]
    rcases Nat.eq_or_lt_of_le hk with rfl | hlt
    · rw [htest, Option.some_or]
    · rw [hnone (n + 1) hlt le_rfl, Option.none_or]
      exact ih (Nat.lt_succ_iff.mp hlt) fun j hj hjn => hnone j hj (hjn.trans (Nat.le_succ n))

/-- A number ends where there is no digit. -/
def EndsNumber (rest : Text) : Prop := rest.head?.all (!·.isDigit) = true

/-- A printed number behind a blank is read back. -/
theorem spaceNumber_decimal (n : ℕ) {rest : Text} (hrest : EndsNumber rest) :
    spaceNumber (' ' :: (decimal n ++ rest)) = some (n, rest) := by
  have hdigits : ∀ c ∈ decimal n, c.isDigit = true := fun c => isDigit_of_mem_decimal
  have hstop : rest.takeWhile Char.isDigit = [] ∧ rest.dropWhile Char.isDigit = rest := by
    rcases rest with _ | ⟨c, rest⟩
    · exact ⟨rfl, rfl⟩
    · have hc : ¬c.isDigit = true := by simpa [EndsNumber] using hrest
      exact ⟨List.takeWhile_cons_of_neg hc, List.dropWhile_cons_of_neg hc⟩
  have htake : (decimal n ++ rest).takeWhile Char.isDigit = decimal n := by
    rw [List.takeWhile_append_of_pos hdigits, hstop.1, List.append_nil]
  have hdrop : (decimal n ++ rest).dropWhile Char.isDigit = rest := by
    rw [List.dropWhile_append_of_pos hdigits, hstop.2]
  have hnumber : stringToNumber (decimal n ++ rest) = n := by
    rw [stringToNumber, htake]
    exact Nat.ofDigitChars_ten_toDigits
  have hne : decimal n ≠ [] := Nat.toDigits_ne_nil
  rw [spaceNumber, htake, if_neg hne, hdrop, hnumber]

/-- Each number takes a space. -/
theorem count_of_spaceNumber {text : Text} {r : ℕ × Text} (h : spaceNumber text = some r) :
    r.2.count ' ' + 1 ≤ text.count ' ' := by
  rcases text with _ | ⟨c, text⟩
  · cases h
  by_cases hc : c = ' '
  · subst hc
    rw [spaceNumber] at h
    split at h
    · cases h
    · obtain rfl := Option.some.inj h
      rw [List.count_cons_self]
      exact Nat.succ_le_succ ((List.dropWhile_sublist _).count_le ' ')
  · have hnone : spaceNumber (c :: text) = none := by
      rw [spaceNumber]
      intro text' heq
      exact hc (List.cons.inj heq).1
    rw [hnone] at h
    cases h

/-- A header with three numbers has three blanks. -/
theorem count_of_numbers {β : Type*} {text : Text} {f : ℕ → ℕ → ℕ → β} {b : β}
    (h : ((spaceNumber text).bind fun orig => (spaceNumber orig.2).bind fun final =>
      (spaceNumber final.2).map fun num => f orig.1 final.1 num.1) = some b) :
    3 ≤ text.count ' ' := by
  obtain ⟨orig, horig, h⟩ := Option.bind_eq_some_iff.mp h
  obtain ⟨final, hfinal, h⟩ := Option.bind_eq_some_iff.mp h
  obtain ⟨num, hnum, -⟩ := Option.map_eq_some_iff.mp h
  have h₁ := count_of_spaceNumber horig
  have h₂ := count_of_spaceNumber hfinal
  have h₃ := count_of_spaceNumber hnum
  omega

theorem count_decimal (n : ℕ) : (decimal n).count ' ' = 0 :=
  List.count_eq_zero.mpr fun hmem => absurd (isDigit_of_mem_decimal hmem) (by decide)

/-- The header line of a record is read back. -/
theorem matchHeader_headerLine (r : Record) :
    matchHeader r.headerLine = some (r.rev.1, r.origLine, r.finalLine, r.numLines) := by
  refine longest_eq_of_none (k := r.rev.1.length) ?_ ?_ fun j hj hjn => ?_
  · rw [Record.headerLine, List.length_append]
    exact Nat.le_add_right _ _
  · have hspace : ∀ n, EndsNumber (' ' :: decimal n) := fun n => rfl
    have hspace' : ∀ m n, EndsNumber (' ' :: (decimal m ++ ' ' :: decimal n)) := fun m n => rfl
    have hend : EndsNumber [] := rfl
    have hlast := spaceNumber_decimal r.numLines hend
    rw [List.append_nil] at hlast
    rw [if_pos r.rev.2.1, Record.headerLine, List.drop_left, List.take_left,
      spaceNumber_decimal _ (hspace' _ _), Option.bind_some, spaceNumber_decimal _ (hspace _),
      Option.bind_some, hlast, Option.map_some]
  · obtain ⟨i, rfl⟩ := Nat.exists_eq_add_of_lt hj
    split
    · rw [Option.eq_none_iff_forall_ne_some]
      intro b hb
      have hcount := count_of_numbers (f := fun orig final num =>
        (r.headerLine.take (r.rev.1.length + i + 1), orig, final, num)) hb
      have hle : (r.headerLine.drop (r.rev.1.length + i + 1)).count ' '
          ≤ (r.headerLine.drop (r.rev.1.length + 1)).count ' ' := by
        rw [Nat.add_right_comm, ← List.drop_drop]
        exact (List.drop_sublist _ _).count_le ' '
      have hdrop : r.headerLine.drop (r.rev.1.length + 1)
          = decimal r.origLine ++ ' ' :: (decimal r.finalLine ++ ' ' :: decimal r.numLines) := by
        rw [← List.drop_drop, Record.headerLine, List.drop_left]
        rfl
      rw [hdrop, List.count_append, List.count_cons_self, List.count_append, List.count_cons_self,
        count_decimal, count_decimal, count_decimal] at hle
      omega
    · rfl

/-! ## The other lines -/

section

variable {fold : Char → Char}

theorem matchFilename_of_lookingAt {line : Text}
    (h : lookingAt fold "filename".toList line = false) : matchFilename fold line = none := by
  rw [matchFilename, behindKey, h]
  rfl

theorem matchPrevious_of_lookingAt {line : Text}
    (h : lookingAt fold "previous".toList line = false) : matchPrevious fold line = none := by
  rw [matchPrevious, behindKey, h]
  rfl

/-- The line `filename` of a record is read back. -/
theorem matchFilename_filenameLine (r : Record) :
    matchFilename fold r.filenameLine = some r.filename.1 := by
  have hlook : lookingAt fold "filename".toList r.filenameLine = true :=
    lookingAt_append "filename".toList (' ' :: r.filename.1)
  have hvalue : r.filenameLine.drop 9 = r.filename.1 := rfl
  have hspace : (r.filenameLine.drop 8).head? = some ' ' := rfl
  have hne : decide (r.filename.1 ≠ []) = true := decide_eq_true r.filename.2.1
  rw [matchFilename, behindKey, hlook]
  exact (congrArg (Option.filter _) (if_pos rfl)).trans (Option.filter_some_pos hne)

/-- A hash is not taken for the key of a line. -/
theorem matchFilename_headerLine (hfold : FoldsAscii fold) (r : Record) :
    matchFilename fold r.headerLine = none := by
  refine matchFilename_of_lookingAt (lookingAt_of_differs hfold ?_ _)
  have hdigits : (hexDigits.all fun c =>
      decide (c.toNat < 128) && 'i'.toLower != c.toLower) = true := by decide
  obtain ⟨⟨rev, hlength, hrev⟩, origLine, finalLine, numLines, details, previous, filename⟩ := r
  rcases rev with _ | ⟨c, _ | ⟨c', rev⟩⟩
  · simp at hlength
  · simp at hlength
  · have hc' := List.all_eq_true.mp hdigits c' (hrev c' (by simp))
    simp only [Bool.and_eq_true, decide_eq_true_eq] at hc'
    exact List.any_eq_true.mpr ⟨('i', c'), by simp, by simpa [hc'.1] using hc'.2⟩

/-- No line of the details begins like the one with a file name. -/
theorem lookingAt_body (hfold : FoldsAscii fold) (d : CommitDetails) :
    ∀ line ∈ d.lines, lookingAt fold "filename".toList line = false ∧
      lookingAt fold "previous".toList line = false := by
  have hkeys : ∀ (key : Text) (value : Text), (differs "filename".toList key
      && differs "previous".toList key) = true → lookingAt fold "filename".toList (key ++ value) = false ∧
      lookingAt fold "previous".toList (key ++ value) = false := by
    intro key value h
    obtain ⟨hfilename, hprevious⟩ := (Bool.and_eq_true _ _).mp h
    exact ⟨lookingAt_of_differs hfold hfilename value, lookingAt_of_differs hfold hprevious value⟩
  intro line hline
  rcases List.mem_append.mp hline with hline | hline
  · simp only [List.mem_cons, List.not_mem_nil, or_false] at hline
    rcases hline with rfl | rfl | rfl | rfl | rfl | rfl | rfl | rfl | rfl <;>
      exact hkeys _ _ (by decide)
  · split at hline
    · rw [List.mem_singleton.mp hline]
      exact hkeys "boundary".toList [] (by decide)
    · cases hline

/-! ## Parsing -/

/-- A pair ends on the first line that has a space. -/
theorem matchPair_append {lines : List Text} (h : ∃ line ∈ lines, ' ' ∈ line) (before : Text)
    (rest : List Text) : matchPair before (lines ++ rest) = matchPair before lines := by
  induction lines generalizing before with
  | nil =>
    obtain ⟨line, hline, -⟩ := h
    cases hline
  | cons line lines ih =>
    rw [List.cons_append, matchPair, matchPair]
    by_cases hspace : ' ' ∈ line
    · rw [if_pos hspace, if_pos hspace]
    · obtain ⟨line', hline', hspace'⟩ := h
      have hlines : line' ∈ lines :=
        (List.mem_cons.mp hline').resolve_left fun heq => hspace (heq ▸ hspace')
      rw [if_neg hspace, if_neg hspace, ih ⟨line', hlines, hspace'⟩]

variable {read : Text → Option Text}

variable (read) in
/-- What is found on lines and then on one with a file name depends on nothing behind them. -/
theorem parseDetails_append {lines : List Text} (h : ∀ line ∈ lines, matchFilename fold line = none)
    {last path : Text} (hlast : matchFilename fold last = some path) (hspace : ' ' ∈ last)
    (d : Details) :
    ∃ o : Option (Details × Text),
      (o.isSome = true ↔ (magitDecodeGitPath read path).isSome = true ∧
        ∀ line ∈ lines, ∀ m ∈ matchPrevious fold line, (magitDecodeGitPath read m.2).isSome = true) ∧
      ∀ rest, parseDetails fold read d (lines ++ last :: rest)
        = o.map fun r => (r.1, r.2, rest) := by
  induction lines generalizing d with
  | nil =>
    refine ⟨(magitDecodeGitPath read path).map fun file => (d, file), by simp, fun rest => ?_⟩
    rw [List.nil_append, parseDetails, hlast, Option.map_map]
    rfl
  | cons line lines ih =>
    obtain ⟨hline, hlines⟩ := List.forall_mem_cons.mp h
    rcases hprevious : matchPrevious fold line with _ | previous
    · have hpair : ∀ rest, matchPair [] (line :: (lines ++ last :: rest))
          = matchPair [] (line :: (lines ++ [last])) := by
        intro rest
        have hspaced : ∃ l ∈ line :: (lines ++ [last]), ' ' ∈ l := ⟨last, by simp, hspace⟩
        have hlocal := matchPair_append hspaced [] rest
        rwa [List.cons_append, List.append_assoc, List.singleton_append] at hlocal
      obtain ⟨o, hiff, ho⟩ := ih hlines
        { d with revinfo := (matchPair [] (line :: (lines ++ [last]))).toList ++ d.revinfo }
      refine ⟨o, ?_, fun rest => ?_⟩
      · rw [hiff, List.forall_mem_cons, hprevious]
        simp
      · rw [List.cons_append, parseDetails, hline, hprevious, hpair, ← ho rest]
    · rcases hdecode : magitDecodeGitPath read previous.2 with _ | file
      · refine ⟨none, ?_, fun rest => ?_⟩
        · refine ⟨fun hsome => absurd hsome Bool.false_ne_true, fun hread => ?_⟩
          have hnone := hread.2 line List.mem_cons_self previous hprevious
          rwa [hdecode] at hnone
        · rw [List.cons_append, parseDetails, hline, hprevious]
          simp [hdecode]
      · obtain ⟨o, hiff, ho⟩ :=
          ih hlines { d with prevRev := some previous.1, prevFile := some file }
        refine ⟨o, ?_, fun rest => ?_⟩
        · rw [hiff, List.forall_mem_cons, hprevious]
          simp [hdecode]
        · rw [List.cons_append, parseDetails, hline, hprevious, ← ho rest]
          simp [hdecode]

/-! ## A record -/

namespace Record

variable (fold read) in
/-- What the text of the record is parsed as by itself. -/
def parsed (type : BlameType) (r : Record) : Option (Chunk × Revinfo) :=
  (magitBlameParseChunk fold read type r.lines).map Prod.fst

variable (fold read) in
/-- The names that the regexps find can be read, if they begin with a double quote. -/
def Readable (r : Record) : Prop :=
  (magitDecodeGitPath read r.filename).isSome = true ∧
    ∀ p ∈ r.previous, ∀ m ∈ matchPrevious fold (previousLine p),
      (magitDecodeGitPath read m.2).isSome = true

/-- No line of a record in front of its last one is taken for the line `filename`. -/
theorem matchFilename_body (hfold : FoldsAscii fold) (r : Record) :
    ∀ line ∈ r.body, matchFilename fold line = none := by
  intro line hline
  rcases List.mem_append.mp hline with hdetails | hprevious
  · rcases hd : r.details with _ | d <;> rw [hd] at hdetails
    · cases hdetails
    · exact matchFilename_of_lookingAt (lookingAt_body hfold d line hdetails).1
  · rcases hp : r.previous with _ | p <;> rw [hp] at hprevious
    · cases hprevious
    · rw [List.mem_singleton.mp hprevious]
      exact matchFilename_of_lookingAt (lookingAt_of_differs hfold (by decide) _)

/-- Only the line `previous` of a record can be taken for one. -/
theorem matchPrevious_body (hfold : FoldsAscii fold) (r : Record) :
    (∀ line ∈ r.body, ∀ m ∈ matchPrevious fold line, (magitDecodeGitPath read m.2).isSome = true)
      ↔ ∀ p ∈ r.previous, ∀ m ∈ matchPrevious fold (previousLine p),
        (magitDecodeGitPath read m.2).isSome = true := by
  have hdetails : ∀ line ∈ (r.details.map CommitDetails.lines).getD [],
      matchPrevious fold line = none := by
    intro line hline
    rcases hd : r.details with _ | d <;> rw [hd] at hline
    · cases hline
    · exact matchPrevious_of_lookingAt (lookingAt_body hfold d line hline).2
  rw [body, List.forall_mem_append]
  refine ⟨fun h p hp => h.2 (previousLine p) (by rw [hp]; exact List.mem_singleton_self _),
    fun h => ⟨fun line hline m hm => ?_, fun line hline => ?_⟩⟩
  · rw [hdetails line hline] at hm
    cases hm
  · rcases hp : r.previous with _ | p <;> rw [hp] at hline
    · cases hline
    · rw [List.mem_singleton.mp hline]
      exact h p hp

/-- The numbers of a chunk are those of its header. -/
theorem finishChunk_numbers (type : BlameType) (header : Text × ℕ × ℕ × ℕ) (d : Details)
    (file : Text) :
    (finishChunk type header d file).1.origLine = header.2.1 ∧
      (finishChunk type header d file).1.finalLine = header.2.2.1 ∧
      (finishChunk type header d file).1.numLines = header.2.2.2 := by
  unfold finishChunk
  split <;> exact ⟨rfl, rfl, rfl⟩

theorem space_mem_filenameLine (r : Record) : ' ' ∈ r.filenameLine :=
  List.mem_append_left _ (by decide)

variable (read) in
/-- **What is parsed of a record** does not depend on what follows it, and is a chunk exactly if the
record can be read. -/
theorem parseChunk_spec (hfold : FoldsAscii fold) (type : BlameType) (r : Record) :
    ∃ o : Option (Chunk × Revinfo),
      (o.isSome = true ↔ r.Readable fold read) ∧
      (∀ c ∈ o, c.1.origLine = r.origLine ∧ c.1.finalLine = r.finalLine ∧
        c.1.numLines = r.numLines) ∧
      ∀ rest, magitBlameParseChunk fold read type (r.lines ++ rest) = o.map fun c => (c, rest) := by
  obtain ⟨o, hiff, ho⟩ := parseDetails_append read (r.matchFilename_body hfold)
    (matchFilename_filenameLine r) r.space_mem_filenameLine ⟨[], none, none⟩
  refine ⟨o.map fun d =>
    finishChunk type (r.rev.1, r.origLine, r.finalLine, r.numLines) d.1 d.2, ?_, ?_, fun rest => ?_⟩
  · rw [Option.isSome_map, hiff, matchPrevious_body hfold, Readable]
  · intro c hc
    obtain ⟨d, -, rfl⟩ := Option.map_eq_some_iff.mp hc
    exact finishChunk_numbers type _ d.1 d.2
  · rw [lines, List.cons_append, magitBlameParseChunk, matchHeader_headerLine, Option.bind_some,
      List.append_assoc, List.singleton_append, ho, Option.map_map, Option.map_map]
    rfl

/-- A record with other lines behind it is parsed as `Record.parsed`, and those lines are left. -/
theorem parseChunk_lines_append (hfold : FoldsAscii fold) (type : BlameType) (r : Record)
    (rest : List Text) :
    magitBlameParseChunk fold read type (r.lines ++ rest)
      = (r.parsed fold read type).map fun c => (c, rest) := by
  obtain ⟨o, -, -, ho⟩ := r.parseChunk_spec read hfold type
  have hown := ho []
  rw [List.append_nil] at hown
  rw [ho rest, parsed, hown, Option.map_map, Option.map_map]
  rfl

/-- A record is parsed exactly if it can be read. -/
theorem isSome_parsed_iff (hfold : FoldsAscii fold) (type : BlameType) (r : Record) :
    (r.parsed fold read type).isSome = true ↔ r.Readable fold read := by
  obtain ⟨o, hiff, -, ho⟩ := r.parseChunk_spec read hfold type
  have hown := ho []
  rw [List.append_nil] at hown
  rw [parsed, hown, Option.isSome_map, Option.isSome_map, hiff]

/-- The numbers of a parsed chunk are those of the record. -/
theorem numbers_of_parsed (hfold : FoldsAscii fold) {type : BlameType} {r : Record}
    {c : Chunk × Revinfo} (h : r.parsed fold read type = some c) :
    c.1.origLine = r.origLine ∧ c.1.finalLine = r.finalLine ∧ c.1.numLines = r.numLines := by
  obtain ⟨o, -, hnumbers, ho⟩ := r.parseChunk_spec read hfold type
  have hown := ho []
  rw [List.append_nil] at hown
  rw [parsed, hown, Option.map_map] at h
  exact hnumbers c (by simpa using h)

/-! ## Some of its text -/

theorem newline_notMem_key {key value : Text} (hkey : key.all (· ≠ '\n') = true)
    (hvalue : '\n' ∉ value) : '\n' ∉ key ++ value := by
  intro hmem
  rcases List.mem_append.mp hmem with hmem | hmem
  · simpa using List.all_eq_true.mp hkey _ hmem
  · exact hvalue hmem

theorem newline_notMem_line (key : Text) (value : Line) (hkey : key.all (· ≠ '\n') = true) :
    '\n' ∉ key ++ value.1 := newline_notMem_key hkey value.2

theorem newline_notMem_details (d : CommitDetails) : ∀ line ∈ d.lines, '\n' ∉ line := by
  intro line hline
  rcases List.mem_append.mp hline with hline | hline
  · simp only [List.mem_cons, List.not_mem_nil, or_false] at hline
    rcases hline with rfl | rfl | rfl | rfl | rfl | rfl | rfl | rfl | rfl <;>
      exact newline_notMem_line _ _ (by decide)
  · split at hline
    · rw [List.mem_singleton.mp hline]
      decide
    · cases hline

theorem newline_notMem_hash (hash : Hash) : '\n' ∉ hash.1 :=
  fun hmem => absurd (hash.2.2 _ hmem) (by decide)

/-- No line of a record has a newline in it. -/
theorem newline_notMem_lines (r : Record) : ∀ line ∈ r.lines, '\n' ∉ line := by
  have hnumber : ∀ n, '\n' ∉ decimal n :=
    fun n hmem => absurd (isDigit_of_mem_decimal hmem) (by decide)
  intro line hline
  rcases List.mem_cons.mp hline with rfl | hline
  · have hhash := newline_notMem_hash r.rev
    simp only [headerLine, List.mem_append, List.mem_cons, not_or]
    exact ⟨hhash, by decide, hnumber _, by decide, hnumber _, by decide, hnumber _⟩
  rcases List.mem_append.mp hline with hbody | hlast
  · rcases List.mem_append.mp hbody with hdetails | hprevious
    · rcases hd : r.details with _ | d <;> rw [hd] at hdetails
      · cases hdetails
      · exact newline_notMem_details d line hdetails
    · rcases hp : r.previous with _ | p <;> rw [hp] at hprevious
      · cases hprevious
      · have hpath : '\n' ∉ ' ' :: p.2.1 := by
          simpa using p.2.2.2
        have hvalue : '\n' ∉ p.1.1 ++ ' ' :: p.2.1 := fun hmem =>
          (List.mem_append.mp hmem).elim (newline_notMem_hash p.1) hpath
        rw [List.mem_singleton.mp hprevious]
        exact newline_notMem_key (by decide) hvalue
  · rw [List.mem_singleton.mp hlast]
    exact newline_notMem_key (by decide) r.filename.2.2

theorem splitOn_text_append (r : Record) (rest : Text) :
    (r.text ++ rest).splitOn '\n' = r.lines ++ rest.splitOn '\n' :=
  splitOn_terminated_append r.newline_notMem_lines rest

/-- A record that has arrived as a whole has the line for which the filter searches. -/
theorem searchFilename_text (r : Record) (rest : Text) :
    searchFilename fold ((r.text ++ rest).splitOn '\n') = true := by
  rw [splitOn_text_append, searchFilename,
    List.dropLast_append_of_ne_nil (List.splitOn_ne_nil _ _)]
  refine List.any_eq_true.mpr ⟨r.filenameLine, ?_, by rw [matchFilename_filenameLine]; rfl⟩
  simp [lines]

/-- While some of a record is missing there is no line with a file name. -/
theorem searchFilename_of_missing (hfold : FoldsAscii fold) {r : Record} {text : Text}
    (h : text <+: r.text) (hne : text ≠ r.text) :
    searchFilename fold (text.splitOn '\n') = false := by
  have hbefore : (text.splitOn '\n').dropLast <+: r.headerLine :: r.body :=
    dropLast_splitOn_of_missing r.newline_notMem_lines h hne
  rw [searchFilename, List.any_eq_false]
  intro line hline
  have hnone : matchFilename fold line = none := by
    rcases List.mem_cons.mp (hbefore.subset hline) with rfl | hbody
    · exact matchFilename_headerLine hfold r
    · exact r.matchFilename_body hfold line hbody
  rw [hnone]
  exact Bool.false_ne_true

end Record

end

end Magit.Blame
