import Magit.Client.TagDescription
import Magit.Emacs.Alist
import Magit.Emacs.LineBuffer

/-!
# Blame/Parse — the output of `git blame --incremental`

`magit-blame-process-filter` parses a chunk once the line with its file name, which is the last one,
has been received completely.  Text at the beginning of a line is the list of its lines, of which
the last one has no newline behind it.
-/

namespace Magit.Blame

open Emacs Client

/-- What is known about a commit, the last line of it first. -/
abbrev Revinfo := List (Text × Text)

/-- `magit-blame-chunk`, as far as it is read. -/
structure Chunk where
  origRev : Text
  origLine : ℕ
  finalLine : ℕ
  numLines : ℕ
  prevRev : Option Text
  prevFile : Option Text
  origFile : Option Text

/-- `magit-blame-type` -/
inductive BlameType
  | addition
  | removal
  | final
  deriving DecidableEq

/-! ## The regexps -/

/-- The longest length up to a bound that passes a test, with what the test returns for it. -/
def longest {β : Type*} (test : ℕ → Option β) : ℕ → Option β
  | 0 => test 0
  | k + 1 => (test (k + 1)).or (longest test k)

/-- ` \([0-9]+\)`, and the text behind it. -/
def spaceNumber : Text → Option (ℕ × Text)
  | ' ' :: text =>
    if text.takeWhile Char.isDigit = [] then none
    else some (stringToNumber text, text.dropWhile Char.isDigit)
  | _ => none

/-- `^\(.\{40,\}\) \([0-9]+\) \([0-9]+\) \([0-9]+\)` -/
def matchHeader (line : Text) : Option (Text × ℕ × ℕ × ℕ) :=
  longest (fun k =>
    if 40 ≤ k then
      (spaceNumber (line.drop k)).bind fun orig =>
      (spaceNumber orig.2).bind fun final =>
      (spaceNumber final.2).map fun num => (line.take k, orig.1, final.1, num.1)
    else none) line.length

variable (fold : Char → Char)

/-- What is behind a key and the space behind that. -/
def behindKey (key line : Text) : Option Text :=
  if lookingAt fold key line && (line.drop key.length).head? == some ' ' then
    some (line.drop (key.length + 1))
  else none

/-- `^filename \(.+\)` -/
def matchFilename (line : Text) : Option Text :=
  (behindKey fold "filename".toList line).filter (· ≠ [])

/-- `^previous \(.\{40,\}\) \(.+\)` -/
def matchPrevious (line : Text) : Option (Text × Text) :=
  (behindKey fold "previous".toList line).bind fun text =>
    longest (fun k =>
      if 40 ≤ k ∧ (text.drop k).head? = some ' ' ∧ text.drop (k + 1) ≠ [] then
        some (text.take k, text.drop (k + 1))
      else none) text.length

/-- `^\([^ ]+\) \(.+\)`, whose first group does not end at a newline. -/
def matchPair (before : Text) : List Text → Option (Text × Text)
  | [] => none
  | line :: lines =>
    if ' ' ∈ line then
      let key := before ++ line.takeWhile (· ≠ ' ')
      let value := (line.dropWhile (· ≠ ' ')).tail
      if key = [] ∨ value = [] then none else some (key, value)
    else matchPair (before ++ line ++ ['\n']) lines

/-! ## Parsing -/

section

variable (read : Text → Option Text)

/-- `magit-decode-git-path`; what `read` makes of a string is decoded, or it signals. -/
def magitDecodeGitPath (path : Text) : Option Text :=
  if path.head? = some '"' then read path else some path

/-- What has been found on the lines of a chunk behind the first one. -/
structure Details where
  revinfo : Revinfo
  prevRev : Option Text
  prevFile : Option Text

/-- The loop, which ends behind the line with the file name.  Nothing where it signals, or never
ends. -/
def parseDetails (d : Details) : List Text → Option (Details × Text × List Text)
  | [] => none
  | line :: lines =>
    match matchFilename fold line with
    | some path => (magitDecodeGitPath read path).map fun file => (d, file, lines)
    | none =>
      match matchPrevious fold line with
      | some previous =>
        (magitDecodeGitPath read previous.2).bind fun file =>
          parseDetails { d with prevRev := some previous.1, prevFile := some file } lines
      | none =>
        parseDetails { d with revinfo := (matchPair [] (line :: lines)).toList ++ d.revinfo } lines

/-- What is made of the first line and what is found behind it.  Removals are attributed to the
revision before the one that still has the lines. -/
def finishChunk (type : BlameType) (header : Text × ℕ × ℕ × ℕ) (d : Details) (file : Text) :
    Chunk × Revinfo :=
  match type, d.prevRev with
  | .removal, some prevRev =>
    (⟨prevRev, header.2.1, header.2.2.1, header.2.2.2, some header.1, some file, d.prevFile⟩, [])
  | _, _ =>
    (⟨header.1, header.2.1, header.2.2.1, header.2.2.2, d.prevRev, d.prevFile, some file⟩, d.revinfo)

/-- `magit-blame--parse-chunk`, and the lines behind the chunk.  Nothing where it signals. -/
def magitBlameParseChunk (type : BlameType) : List Text → Option ((Chunk × Revinfo) × List Text)
  | [] => none
  | line :: lines =>
    (matchHeader line).bind fun header =>
    (parseDetails fold read ⟨[], none, none⟩ lines).map fun r =>
      (finishChunk type header r.1 r.2.1, r.2.2)

variable (commitAlist : Text → Revinfo)

/-- The buffer of the process, how much of it has been parsed, `magit-blame-cache`, and what
`magit-blame--make-overlays` has been called with. -/
structure Process where
  text : Text
  parsed : ℕ
  cache : List (Text × Revinfo)
  made : List (Chunk × Revinfo)

/-- Takes the details of a commit from its first mention, from the cache, or from git. -/
def makeChunk (p : List (Text × Revinfo) × List (Chunk × Revinfo)) (r : Chunk × Revinfo) :
    List (Text × Revinfo) × List (Chunk × Revinfo) :=
  if r.2 ≠ [] then (setAlistGet r.1.origRev r.2 p.1, p.2 ++ [r])
  else
    match assoc r.1.origRev p.1 with
    | some revinfo => (p.1, p.2 ++ [(r.1, revinfo)])
    | none =>
      let revinfo := commitAlist r.1.origRev
      (setAlistGet r.1.origRev revinfo p.1, p.2 ++ [(r.1, revinfo)])

/-- `(re-search-forward "^filename .+\n" nil t)` -/
def searchFilename (lines : List Text) : Bool :=
  lines.dropLast.any fun line => (matchFilename fold line).isSome

/-- The loop of the filter, with the lines that have not been parsed.  It ends where it signals. -/
def parseChunks (type : BlameType) :
    ℕ → List Text → List (Text × Revinfo) × List (Chunk × Revinfo) →
      List Text × List (Text × Revinfo) × List (Chunk × Revinfo)
  | 0, lines, p => (lines, p)
  | fuel + 1, lines, p =>
    if lines ≠ [[]] ∧ searchFilename fold lines = true then
      match magitBlameParseChunk fold read type lines with
      | some (r, lines) => parseChunks type fuel lines (makeChunk commitAlist p r)
      | none => (lines, p)
    else (lines, p)

/-- `magit-blame-process-filter` -/
def magitBlameProcessFilter (type : BlameType) (p : Process) (string : Text) : Process :=
  let text := p.text ++ string
  let lines := (text.drop p.parsed).splitOn '\n'
  let r := parseChunks fold read commitAlist type lines.length lines (p.cache, p.made)
  { text, parsed := text.length - (['\n'].intercalate r.1).length, cache := r.2.1, made := r.2.2 }

/-- A process that has just been started, and the pieces of its output. -/
def runFilter (type : BlameType) (pieces : List Text) : Process :=
  pieces.foldl (magitBlameProcessFilter fold read commitAlist type) ⟨[], 0, [], []⟩

end

end Magit.Blame
