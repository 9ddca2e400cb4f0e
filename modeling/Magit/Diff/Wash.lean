import Magit.Emacs.LineBuffer
import Magit.Emacs.SplitString
import Magit.Msgpack.Object

/-!
# Diff/Wash — the sections of a diff

`magit-diff-wash-diff` takes the lines above the hunks of a file out of the buffer, inserts a
heading for the file, and makes a section of each hunk, whose lines stay in the buffer.  Mode
changes and renames are inserted again, as hunks of a special kind.  The buffer is modelled from
where the escape sequences of `--color-moved` are gone from it; `magit--git-wash` has seen to it
that its last line is complete.
-/

namespace Magit.DiffWash

open Emacs

/-! ## Sections -/

/-- The slot `value` of a hunk section. -/
inductive HunkValue
  | chmod
  | rename
  | ranges (about : Option Text) (ranges : List (List ℕ))
  deriving DecidableEq

/-- A section for a hunk. -/
structure HunkSection where
  start : ℕ
  content : ℕ
  fin : ℕ
  value : HunkValue
  combined : Bool
  fromRange : List (List ℕ)
  toRange : Option (List ℕ)
  about : Option Text

/-- A section for a file. -/
structure FileSection where
  start : ℕ
  content : ℕ
  fin : ℕ
  value : Text
  source : Option Text
  header : Text
  binary : Bool
  children : List HunkSection

/-- What the washer asks its surroundings. -/
structure WashEnv where
  /-- What `case-fold-search` makes of a character. -/
  fold : Char → Char
  /-- `(decode-coding-string (read path) …)`; nothing if it signals. -/
  readPath : Text → Option Text
  /-- `(derived-mode-p 'magit-revision-mode)` -/
  revisionMode : Bool
  /-- A log buffer with an argument `-L`. -/
  logTraced : Bool
  /-- The branches for submodules, unmerged paths and the conflicts of `git merge-tree`. -/
  others : LineBuffer → Option (Option (List FileSection) × LineBuffer)

variable (env : WashEnv)

/-! ## Hunks -/

/-- `magit-insert-heading` without arguments, and the slot `content` it sets. -/
def insertHeading (b : LineBuffer) : LineBuffer := if b.bolp then b else b.insert ['\n']

/-- The match of `^@\{2,\} \(.+?\) @\{2,\}\(?: \(.*\)\)?`. -/
structure HunkMatch where
  heading : Text
  ranges : Text
  about : Option Text

/-- `\(.+?\) @\{2,\}`: the shortest group, and what follows the space behind it. -/
def rangesMatch : Text → Text → Option (Text × Text)
  | _, [] => none
  | group, c :: text =>
    if group ≠ [] ∧ " @@".toList.isPrefixOf (c :: text) = true then some (group, text)
    else rangesMatch (group ++ [c]) text

/-- `\(?: \(.*\)\)?` at the end of the line: the group. -/
def aboutMatch : Text → Option Text
  | ' ' :: about => some about
  | _ => none

/-- What stands behind the ranges in a heading. -/
def aboutText (about : Option Text) : Text := (about.map fun about => ' ' :: about).getD []

/-- The first regexp of `magit-diff-wash-hunk`. -/
def hunkMatch (line : Text) : Option HunkMatch :=
  let ats := line.takeWhile (· == '@')
  match line.drop ats.length with
  | ' ' :: text =>
    if ats.length < 2 then none
    else
      (rangesMatch [] text).map fun m =>
        let ats' := m.2.takeWhile (· == '@')
        let about := aboutMatch (m.2.drop ats'.length)
        ⟨ats ++ ' ' :: m.1 ++ ' ' :: ats' ++ aboutText about, m.1, about⟩
  | _ => none

/-- `string-to-number`, of digits. -/
def stringToNumber (text : Text) : ℕ := Nat.ofDigitChars 10 (text.takeWhile Char.isDigit) 0

/-- The white space that separates words: `[ \f\t\n\r\v]`. -/
def wordSeparators : List Char := [' ', '\x0c', '\t', '\n', '\r', '\x0b']

/-- `(split-string string)`. -/
def words (string : Text) : List Text :=
  splitString ' ' (string.map fun c => if wordSeparators.contains c then ' ' else c)

/-- A range such as `-1,2`; a single line is `+1` rather than `+1,1`. -/
def readRange (str : Text) : List ℕ :=
  let range := ((str.drop 1).splitOn ',').map stringToNumber
  if range.length = 1 then range ++ [1] else range

/-- `^[^-+\s\\]`, which also matches a newline. -/
def endsHunk (line : Text) : Bool :=
  match line with
  | [] => true
  | c :: _ => !(['-', '+', ' ', '\\'].contains c)

/-- `magit-diff-wash-hunk`. -/
def washHunk (b : LineBuffer) : Option (HunkSection × LineBuffer) :=
  match b.after with
  | [] => none
  | line :: lines =>
    (hunkMatch line).map fun m =>
      let ranges := (words m.ranges).map readRange
      let combined := ranges.length = 3
      let b := LineBuffer.mk b.before lines
      let start := b.point
      let b := insertHeading (b.insert (m.heading ++ ['\n']))
      let content := b.point
      let b := LineBuffer.passUntil endsHunk b.before b.after
      ({ start, content, fin := b.point
         value := .ranges m.about ranges
         combined
         fromRange := if combined then ranges.dropLast else ranges.take 1
         toRange := ranges.getLast?
         about := m.about }, b)

/-- `(magit-wash-sequence #'magit-diff-wash-hunk)`; each hunk takes a line or more. -/
def washHunks : ℕ → LineBuffer → List HunkSection × LineBuffer
  | 0, b => ([], b)
  | fuel + 1, b =>
    match washHunk b with
    | none => ([], b)
    | some (hunk, b) =>
      let r := washHunks fuel b
      (hunk :: r.1, r.2)

/-- The section for a mode change or a rename. -/
def insertSpecial (value : HunkValue) (text : Option Text) (b : LineBuffer) :
    List HunkSection × LineBuffer :=
  match text with
  | none => ([], b)
  | some text =>
    let start := b.point
    let b := insertHeading (b.insert text)
    ([{ start, content := b.point, fin := b.point, value, combined := false, fromRange := []
        toRange := none, about := none }], b)

/-! ## Files -/

/-- The bindings of the branch for files. -/
structure HeaderState where
  status : Text
  orig : Option Text
  file : Option Text
  /-- The last one first. -/
  header : List Text
  modes : Option Text
  rename : Option Text
  binary : Bool

/-- `(format "%-10s %s" status names)`. -/
def fileHeading (status names : Text) : Text :=
  status ++ List.replicate (10 - status.length) ' ' ++ ' ' :: names

/-- `magit-diff-insert-file-section`, without `long-status`. -/
def insertFileSection (file : Text) (orig : Option Text) (status : Text)
    (modes rename : Option Text) (header : Text) (binary : Bool) (b : LineBuffer) :
    FileSection × LineBuffer :=
  let start := b.point
  let names :=
    match orig with
    | none => file
    | some orig => if orig = file then file else orig ++ " -> ".toList ++ file
  let b := b.insert (fileHeading status names)
  let b := if binary then b.insert " (binary)".toList else b
  let b := insertHeading b
  let content := b.point
  let m := insertSpecial .chmod modes b
  let r := insertSpecial .rename rename m.2
  let h := washHunks r.2.after.length r.2
  ({ start, content, fin := h.2.point, value := file
     source := orig.filter (· ≠ file)
     header, binary, children := m.1 ++ (r.1 ++ h.1) }, h.2)

/-- What the headline of a conflict may begin with. -/
def conflictHeadlines : List String :=
  ["merged", "added in remote", "added in both", "added in local", "removed in both",
    "changed in both", "removed in local", "removed in remote"]

/-- `magit-diff-headline-re`. -/
def headline (line : Text) : Bool :=
  (["@@", "diff", "Submodule", "* Unmerged path"] ++ conflictHeadlines).any fun piece =>
    lookingAt env.fold piece.toList line

/-- What an extended header says. -/
inductive ExtendedHeader
  | modes
  | deleted
  | newFile
  | rename (orig file : Text)
  | copy (orig file : Text)
  | fromFile (name : Text)
  | toFile (name : Text)
  | binary
  | other

/-- The regexp for the header goes over two lines. -/
def ExtendedHeader.twoLines : ExtendedHeader → Bool
  | modes => true
  | rename _ _ => true
  | copy _ _ => true
  | _ => false

/-- `piece\(.+\)`, to the end of the line. -/
def lineWith (piece : String) (line : Text) : Option Text :=
  if lookingAt env.fold piece.toList line && piece.toList.length < line.length then
    some (line.drop piece.toList.length)
  else none

/-- `piece\(.+\)\npiece'\(.+\)\n`. -/
def linesWith (piece piece' : String) (line : Text) (next : Option Text) : Option (Text × Text) :=
  (lineWith env piece line).bind fun group =>
    (next.bind (lineWith env piece')).map fun group' => (group, group')

/-- `\(.+?\)\t?`, to the end of the line. -/
def withoutTab (name : Text) : Text :=
  if 1 < name.length && name.getLast? == some '\t' then name.dropLast else name

/-- `Binary files .+ and .+ differ`. -/
def binaryFiles (line : Text) : Bool :=
  (lineWith env "Binary files " line).any fun names =>
    (List.range names.length).any fun n =>
      0 < n && lookingAt env.fold " and ".toList (names.drop n)
        && (let name := names.drop (n + 5)
            7 < name.length && lookingAt env.fold " differ".toList (name.drop (name.length - 7)))

/-- What the regexps for extended headers match at a line, with the next line where they span two;
each at its place in the code. -/
def headerMatches (line : Text) (next : Option Text) : List (Option ExtendedHeader) :=
  [(linesWith env "old mode " "new mode " line next).map fun _ => .modes,
    (lineWith env "deleted file " line).map fun _ => .deleted,
    (lineWith env "new file " line).map fun _ => .newFile,
    (linesWith env "rename from " "rename to " line next).map fun m => .rename m.1 m.2,
    (linesWith env "copy from " "copy to " line next).map fun m => .copy m.1 m.2,
    (lineWith env "similarity index " line).map fun _ => .other,
    (lineWith env "dissimilarity index " line).map fun _ => .other,
    (lineWith env "index " line).map fun _ => .other,
    (lineWith env "--- " line).map fun name => .fromFile (withoutTab name),
    (lineWith env "+++ " line).map fun name => .toFile (withoutTab name),
    if binaryFiles env line then some .binary else none,
    if line.map env.fold = "Binary files differ".toList.map env.fold then some .binary else none,
    (lineWith env "mode " line).map fun _ => .other]

/-- The first of the regexps for headers that matches. -/
def lookingAtHeader (line : Text) (next : Option Text) : Option ExtendedHeader :=
  (headerMatches env line next).findSome? id

/-- The name of no file. -/
def devNull : Text := "/dev/null".toList

namespace HeaderState

/-- What an extended header sets. -/
def set (st : HeaderState) (match0 : Text) : ExtendedHeader → HeaderState
  | .modes => { st with modes := some match0 }
  | .deleted => { st with status := "deleted".toList }
  | .newFile => { st with status := "new file".toList }
  | .rename orig file =>
    { st with rename := some match0, orig := some orig, file := some file
              status := "renamed".toList }
  | .copy orig file =>
    { st with orig := some orig, file := some file, status := "new file".toList }
  | .fromFile name => if name = devNull then st else { st with orig := some name }
  | .toFile name => if name = devNull then st else { st with file := some name }
  | .binary => { st with binary := true }
  | .other => st

/-- Mode changes and renames are treated as some sort of special hunk. -/
def push (st : HeaderState) (match0 : Text) : HeaderState :=
  if "old mode".toList.isPrefixOf match0 || "rename".toList.isPrefixOf match0 then st
  else { st with header := match0 :: st.header }

end HeaderState

/-- The loop over the extended headers; it signals at a line that is none. -/
def headerLoop : HeaderState → List Text → Option (HeaderState × List Text)
  | st, [] => some (st, [])
  | st, line :: lines =>
    if headline env line then some (st, line :: lines)
    else
      match lookingAtHeader env line lines.head? with
      | none => none
      | some h =>
        if h.twoLines then
          match lines with
          | [] => none
          | next :: rest =>
            headerLoop ((st.set (unlines [line, next]) h).push (unlines [line, next])) rest
        else headerLoop ((st.set (unlines [line]) h).push (unlines [line])) lines

/-- `\(.+?\) \2` at the front of a text. -/
def doubled (text : Text) : Option Text :=
  (List.range text.length).findSome? fun n =>
    let name := text.take (n + 1)
    if lookingAt env.fold (' ' :: name) (text.drop (n + 1)) then some name else none

/-- The first line of a file's diff: its status, and the name of the file if the line tells. -/
def lookingAtDiff (line : Text) : Option (Text × Option Text) :=
  let status :=
    if (line.drop 7).take 3 = "git".toList then "modified".toList
    else if env.revisionMode then "resolved".toList
    else "unmerged".toList
  if lookingAt env.fold "diff --git ".toList line then some (status, doubled env (line.drop 11))
  else
    .or ((lineWith env "diff --cc " line).map fun file => (status, some file))
      ((lineWith env "diff --combined " line).map fun file => (status, some file))

/-- `magit-decode-git-path`; `aref` signals where there is no first character. -/
def magitDecodeGitPath (path : Text) : Option Text :=
  match path with
  | [] => none
  | '"' :: _ => env.readPath path
  | _ => some path

/-- The header that is made up for `git log -L`, which ignores `--no-prefix`. -/
def tracedHeader (first : Text) (orig : Option Text) (file : Text) : Text :=
  "diff ".toList ++ (first.drop 5).takeWhile (· != ' ') ++ ' ' :: orig.getD file ++ ' ' :: file
    ++ "\n--- ".toList ++ orig.getD devNull ++ "\n+++ ".toList ++ file ++ ['\n']

/-- The branch for files, behind its loop. -/
def finishFile (st : HeaderState) (b : LineBuffer) : Option (FileSection × LineBuffer) := do
  let orig ← match st.orig with
    | none => some none
    | some orig => (magitDecodeGitPath env orig).map some
  let file ← st.file.bind (magitDecodeGitPath env)
  if env.logTraced then
    let orig ← match orig with
      | none => some none
      | some orig => (substring orig 2).map some
    let file ← substring file 2
    some (insertFileSection file orig st.status st.modes st.rename
      (tracedHeader (st.header.getLast?.getD []) orig file) st.binary b)
  else
    some (insertFileSection file orig st.status st.modes st.rename st.header.reverse.flatten
      st.binary b)

/-- `magit-diff-wash-diff`: nothing at all if it signals, and no sections if it returns nil. -/
def magitDiffWashDiff (b : LineBuffer) : Option (Option (List FileSection) × LineBuffer) :=
  match b.after with
  | [] => some (none, b)
  | line :: lines =>
    if (["Submodule", "* Unmerged path "] ++ conflictHeadlines).any fun piece =>
        lookingAt env.fold piece.toList line then
      env.others b
    else
      match lookingAtDiff env line with
      | none => some (none, b)
      | some (status, file) => do
        let (st, lines) ← headerLoop env
          ⟨status, none, file, [unlines [line]], none, none, false⟩ lines
        let (file, b) ← finishFile env st ⟨b.before, lines⟩
        some (some [file], b)

/-- `(magit-wash-sequence (apply-partially #'magit-diff-wash-diff args))`; each diff takes a line or
more. -/
def washDiffs : ℕ → LineBuffer → Option (List FileSection × LineBuffer)
  | 0, b => some ([], b)
  | fuel + 1, b =>
    if b.after = [] then some ([], b)
    else do
      let (files, b) ← magitDiffWashDiff env b
      match files with
      | none => some ([], b)
      | some files =>
        let r ← washDiffs fuel b
        some (files ++ r.1, r.2)

/-! ## Patches -/

/-- `magit-diff-file-header` of a file section. -/
def magitDiffFileHeader (s : FileSection) : Text := s.header

/-- `magit-apply--section-content` of a hunk section. -/
def hunkContent (text : Text) (s : HunkSection) : Text := region text s.start s.fin

/-- `magit-apply--section-content` of a file section. -/
def fileContent (text : Text) (s : FileSection) : Text := region text s.content s.fin

/-- The patch of `magit-apply-diff`. -/
def magitApplyDiff (text : Text) (s : FileSection) : Text :=
  magitDiffFileHeader s ++ fileContent text s

/-- The patch of `magit-apply-diffs`. -/
def magitApplyDiffs (text : Text) (sections : List FileSection) : Text :=
  sections.flatMap (magitApplyDiff text)

end Magit.DiffWash
