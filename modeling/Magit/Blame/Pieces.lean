import Magit.Blame.Records

/-!
# Blame/Pieces — the output of `git blame` cut into pieces

However its output is cut, the filter has parsed the records that have been received completely, once
and in order, up to one with a name that cannot be read (`runFilter_eq`).  So it parses all of them
exactly if all names can be read (`parsesAll_iff`).
-/

namespace Magit.Blame

open Emacs Client

variable {fold : Char → Char} {read : Text → Option Text} {commitAlist : Text → Revinfo}
  {type : BlameType}

/-- The text of the records. -/
def textOf (rs : List Record) : Text := rs.flatMap Record.text

/-- The beginning of a record. -/
def Incomplete (text : Text) : Prop := ∃ r : Record, text <+: r.text ∧ text ≠ r.text

theorem textOf_cons (r : Record) (rs : List Record) : textOf (r :: rs) = r.text ++ textOf rs :=
  List.flatMap_cons

theorem textOf_append (rs rs' : List Record) : textOf (rs ++ rs') = textOf rs ++ textOf rs' :=
  List.flatMap_append

section

variable (fold read type)

/-- The records at the beginning of the text, up to one that cannot be parsed. -/
def done : List Record → Text → List Record
  | [], _ => []
  | r :: rs, text =>
    if (r.parsed fold read type).isSome && r.text.isPrefixOf text then
      r :: done rs (text.drop r.text.length)
    else []

/-- What records are parsed as. -/
def parses (rs : List Record) : List (Chunk × Revinfo) := rs.filterMap (Record.parsed fold read type)

variable (commitAlist)

/-- What is made of the records one after the other, from an empty cache. -/
def makeAll (rs : List Record) : List (Text × Revinfo) × List (Chunk × Revinfo) :=
  (parses fold read type rs).foldl (makeChunk commitAlist) ([], [])

end

theorem parses_cons_of_some {r : Record} {c : Chunk × Revinfo} (h : r.parsed fold read type = some c)
    (rs : List Record) : parses fold read type (r :: rs) = c :: parses fold read type rs :=
  List.filterMap_cons_some h

theorem parses_append (rs rs' : List Record) :
    parses fold read type (rs ++ rs') = parses fold read type rs ++ parses fold read type rs' :=
  List.filterMap_append

/-- The overlays made for two lists of records one after the other. -/
theorem makeAll_append (rs rs' : List Record) :
    makeAll fold read commitAlist type (rs ++ rs')
      = (parses fold read type rs').foldl (makeChunk commitAlist)
        (makeAll fold read commitAlist type rs) := by
  rw [makeAll, makeAll, parses_append, List.foldl_append]

/-- A record that has arrived as a whole is done, and then the ones behind it. -/
theorem done_cons_append {r : Record} {rs : List Record} {c : Chunk × Revinfo}
    (h : r.parsed fold read type = some c) (text : Text) :
    done fold read type (r :: rs) (r.text ++ text) = r :: done fold read type rs text := by
  have hreceived : r.text.isPrefixOf (r.text ++ text) = true :=
    List.isPrefixOf_iff_prefix.mpr (List.prefix_append _ _)
  rw [done, h, hreceived, List.drop_left]
  exact if_pos rfl

theorem done_cons_of_none {r : Record} (h : r.parsed fold read type = none) (rs : List Record)
    (text : Text) : done fold read type (r :: rs) text = [] := by
  rw [done, h]
  exact if_neg Bool.false_ne_true

/-- Behind a record that has not arrived as a whole nothing is done. -/
theorem done_cons_of_not_received {r : Record} {text : Text} (h : ¬r.text <+: text)
    (rs : List Record) : done fold read type (r :: rs) text = [] := by
  rw [done, if_neg]
  rw [Bool.and_eq_true, List.isPrefixOf_iff_prefix]
  exact fun hand => h hand.2

theorem done_nil (rs : List Record) : done fold read type rs [] = [] := by
  rcases rs with _ | ⟨r, rs⟩
  · rfl
  · refine done_cons_of_not_received (fun hreceived => ?_) rs
    have hnil := List.prefix_nil.mp hreceived
    rw [Record.text, Record.lines, unlines_cons] at hnil
    exact absurd (List.append_eq_nil_iff.mp hnil).2 (List.cons_ne_nil _ _)

variable (fold read type) in
/-- What is done is at the beginning of the records and of the text. -/
theorem exists_done (rs : List Record) (text : Text) :
    ∃ rest text', rs = done fold read type rs text ++ rest ∧
      text = textOf (done fold read type rs text) ++ text' ∧
      ∀ more, done fold read type rs (text ++ more)
        = done fold read type rs text ++ done fold read type rest (text' ++ more) := by
  induction rs generalizing text with
  | nil => exact ⟨[], text, rfl, rfl, fun _ => rfl⟩
  | cons r rs ih =>
    rcases hparsed : r.parsed fold read type with _ | c
    · refine ⟨r :: rs, text, ?_, ?_, fun more => ?_⟩
      all_goals simp only [done_cons_of_none hparsed]
      all_goals rfl
    · by_cases hreceived : r.text <+: text
      · obtain ⟨text, rfl⟩ := hreceived
        obtain ⟨rest, text', hrs, htext, hmore⟩ := ih text
        refine ⟨rest, text', ?_, ?_, fun more => ?_⟩
        · rw [done_cons_append hparsed, List.cons_append, ← hrs]
        · rw [done_cons_append hparsed, textOf_cons, List.append_assoc, ← htext]
        · rw [List.append_assoc, done_cons_append hparsed, done_cons_append hparsed, hmore,
            List.cons_append]
      · refine ⟨r :: rs, text, ?_, ?_, fun more => ?_⟩
        all_goals rw [done_cons_of_not_received hreceived]
        all_goals rfl

variable (read commitAlist type) in
/-- **The loop of the filter** parses the records that have arrived as a whole, up to the first one
it cannot read. -/
theorem parseChunks_eq (hfold : FoldsAscii fold) {tail : Text} (htail : Incomplete tail)
    (rs : List Record) {text : Text} (h : text <+: textOf rs ++ tail) {fuel : ℕ}
    (hfuel : (text.splitOn '\n').length ≤ fuel) (p : List (Text × Revinfo) × List (Chunk × Revinfo)) :
    parseChunks fold read commitAlist type fuel (text.splitOn '\n') p
      = ((text.drop (textOf (done fold read type rs text)).length).splitOn '\n',
        (parses fold read type (done fold read type rs text)).foldl (makeChunk commitAlist) p) := by
  have hstop : ∀ (rs : List Record) (fuel : ℕ) (text : Text) (p),
      searchFilename fold (text.splitOn '\n') = false → done fold read type rs text = [] →
      parseChunks fold read commitAlist type fuel (text.splitOn '\n') p
        = ((text.drop (textOf (done fold read type rs text)).length).splitOn '\n',
          (parses fold read type (done fold read type rs text)).foldl (makeChunk commitAlist) p) := by
    intro rs fuel text p hsearch hdone
    rw [hdone]
    cases fuel with
    | zero => rfl
    | succ fuel =>
      rw [parseChunks, if_neg]
      · rfl
      · rw [hsearch]
        exact fun hand => Bool.false_ne_true hand.2
  induction rs generalizing text fuel p with
  | nil =>
    obtain ⟨r, hreceived, hne⟩ := htail
    refine hstop [] fuel text p ?_ rfl
    have htext : text <+: r.text := h.trans hreceived
    refine r.searchFilename_of_missing hfold htext fun heq => hne ?_
    exact hreceived.eq_of_length_le (heq ▸ h.length_le)
  | cons r rs ih =>
    by_cases hreceived : r.text <+: text
    · obtain ⟨text, rfl⟩ := hreceived
      rw [textOf_cons, List.append_assoc] at h
      have hrest : text <+: textOf rs ++ tail := (List.prefix_append_right_inj r.text).mp h
      have hlength : ((r.text ++ text).splitOn '\n').length
          = r.body.length + 2 + (text.splitOn '\n').length := by
        rw [r.splitOn_text_append, List.length_append, Record.lines, List.length_cons,
          List.length_append, List.length_singleton]
      obtain ⟨fuel, rfl⟩ : ∃ n, fuel = n + 1 := Nat.exists_eq_succ_of_ne_zero (by omega)
      have hlines : (text.splitOn '\n').length ≤ fuel := by omega
      have hne : (r.text ++ text).splitOn '\n' ≠ [[]] := by
        intro heq
        have hone := congrArg List.length heq
        rw [hlength, List.length_singleton] at hone
        omega
      rw [parseChunks, if_pos ⟨hne, r.searchFilename_text text⟩, r.splitOn_text_append,
        r.parseChunk_lines_append hfold]
      rcases hparsed : r.parsed fold read type with _ | c
      · rw [done_cons_of_none hparsed]
        simp only [Option.map_none]
        rw [← r.splitOn_text_append]
        rfl
      · rw [done_cons_append hparsed]
        simp only [Option.map_some]
        rw [ih hrest hlines, textOf_cons, List.length_append, ← List.drop_drop, List.drop_left,
          parses_cons_of_some hparsed, List.foldl_cons]
    · have hshort : text <+: r.text := by
        have hr : r.text <+: textOf (r :: rs) ++ tail := by
          rw [textOf_cons, List.append_assoc]
          exact List.prefix_append _ _
        exact (List.prefix_or_prefix_of_prefix h hr).resolve_right hreceived
      refine hstop (r :: rs) fuel text p ?_ (done_cons_of_not_received hreceived rs)
      exact r.searchFilename_of_missing hfold hshort fun heq => hreceived (heq ▸ List.prefix_refl _)

variable (read commitAlist type) in
/-- **However the output is cut, what has been received of it is done.** -/
theorem runFilter_eq (hfold : FoldsAscii fold) {rs : List Record} {tail : Text}
    (htail : Incomplete tail) (pieces : List Text) (h : pieces.flatten <+: textOf rs ++ tail) :
    runFilter fold read commitAlist type pieces
      = ⟨pieces.flatten, (textOf (done fold read type rs pieces.flatten)).length,
        (makeAll fold read commitAlist type (done fold read type rs pieces.flatten)).1,
        (makeAll fold read commitAlist type (done fold read type rs pieces.flatten)).2⟩ := by
  induction pieces using List.reverseRecOn with
  | nil =>
    rw [List.flatten_nil, done_nil]
    rfl
  | append_singleton pieces piece ih =>
    rw [List.flatten_append, List.flatten_singleton] at h ⊢
    obtain ⟨rest, text, hrs, htext, hmore⟩ := exists_done fold read type rs pieces.flatten
    have hrun := ih ((List.prefix_append _ _).trans h)
    rw [hmore piece]
    generalize hdone : done fold read type rs pieces.flatten = before at *
    subst hrs
    have hpending : (pieces.flatten ++ piece).drop (textOf before).length = text ++ piece := by
      rw [htext, List.append_assoc, List.drop_left]
    have hreceived : text ++ piece <+: textOf rest ++ tail := by
      rw [htext, textOf_append, List.append_assoc, List.append_assoc] at h
      exact (List.prefix_append_right_inj _).mp h
    have hparse := parseChunks_eq read commitAlist type hfold htail rest hreceived le_rfl
      (makeAll fold read commitAlist type before)
    rw [runFilter, List.foldl_append, List.foldl_cons, List.foldl_nil, ← runFilter, hrun,
      magitBlameProcessFilter]
    simp only [hpending, Prod.mk.eta, hparse]
    obtain ⟨_, text', -, htext', -⟩ := exists_done fold read type rest (text ++ piece)
    generalize done fold read type rest (text ++ piece) = after at *
    have hleft : (text ++ piece).drop (textOf after).length = text' := by
      rw [htext', List.drop_left]
    have hlength : (pieces.flatten ++ piece).length
        = (textOf (before ++ after)).length + text'.length := by
      rw [htext, List.append_assoc, htext', textOf_append, List.length_append, List.length_append,
        List.length_append, Nat.add_assoc]
    rw [hleft, List.intercalate_splitOn, hlength, Nat.add_sub_cancel, makeAll_append]

/-- With all records received, the filter stops at the first one it cannot read. -/
theorem done_eq_takeWhile (rs : List Record) (tail : Text) :
    done fold read type rs (textOf rs ++ tail)
      = rs.takeWhile fun r => (r.parsed fold read type).isSome := by
  induction rs with
  | nil => rfl
  | cons r rs ih =>
    rcases hparsed : r.parsed fold read type with _ | c
    · rw [done_cons_of_none hparsed, List.takeWhile_cons_of_neg (by rw [hparsed]; exact Bool.false_ne_true)]
    · rw [textOf_cons, List.append_assoc, done_cons_append hparsed, ih,
        List.takeWhile_cons_of_pos (by rw [hparsed]; rfl)]

variable (fold read commitAlist type) in
/-- All records have been parsed, each once and in order, and nothing else has been consumed. -/
def ParsesAll (p : Process) (rs : List Record) : Prop :=
  ∃ results, List.Forall₂ (fun r c => r.parsed fold read type = some c ∧
      c.1.origLine = r.origLine ∧ c.1.finalLine = r.finalLine ∧ c.1.numLines = r.numLines)
    rs results ∧ (p.cache, p.made) = results.foldl (makeChunk commitAlist) ([], []) ∧
    p.parsed = (textOf rs).length

/-- When every record can be read, the chunks are those of the records, with their numbers. -/
theorem forall₂_parses (hfold : FoldsAscii fold) {rs : List Record}
    (h : ∀ r ∈ rs, (r.parsed fold read type).isSome = true) :
    List.Forall₂ (fun r c => r.parsed fold read type = some c ∧
      c.1.origLine = r.origLine ∧ c.1.finalLine = r.finalLine ∧ c.1.numLines = r.numLines)
      rs (parses fold read type rs) := by
  induction rs with
  | nil => exact List.Forall₂.nil
  | cons r rs ih =>
    obtain ⟨hr, hrs⟩ := List.forall_mem_cons.mp h
    obtain ⟨c, hc⟩ := Option.isSome_iff_exists.mp hr
    rw [parses_cons_of_some hc]
    exact List.Forall₂.cons ⟨hc, r.numbers_of_parsed hfold hc⟩ (ih hrs)

/-- **However the output is cut, it is parsed as in one piece, and all of its records are exactly if
all names can be read.** -/
theorem parsesAll_iff (hfold : FoldsAscii fold) (read : Text → Option Text)
    (commitAlist : Text → Revinfo) (type : BlameType) (rs : List Record) {tail : Text}
    (htail : Incomplete tail) (pieces : List Text) (h : pieces.flatten = textOf rs ++ tail) :
    runFilter fold read commitAlist type pieces
          = runFilter fold read commitAlist type [pieces.flatten] ∧
        ParsesAll fold read commitAlist type (runFilter fold read commitAlist type pieces) rs
      ↔ ∀ r ∈ rs, r.Readable fold read := by
  have hreceived : pieces.flatten <+: textOf rs ++ tail := by
    rw [h]
  have hrun := runFilter_eq read commitAlist type hfold htail pieces hreceived
  have hone := runFilter_eq read commitAlist type hfold htail [pieces.flatten]
    (by rwa [List.flatten_singleton])
  rw [List.flatten_singleton] at hone
  refine ⟨fun hall r hr => ?_, fun hread => ⟨hrun.trans hone.symm, parses fold read type rs, ?_⟩⟩
  · obtain ⟨-, results, hresults, -, -⟩ := hall
    obtain ⟨i, hi, rfl⟩ := List.mem_iff_getElem.mp hr
    have hi' : i < results.length := hresults.length_eq ▸ hi
    have hparsed := (hresults.get hi hi').1
    refine (Record.isSome_parsed_iff hfold type _).mp ?_
    exact Option.isSome_iff_exists.mpr ⟨_, hparsed⟩
  · have hparsed : ∀ r ∈ rs, (r.parsed fold read type).isSome = true :=
      fun r hr => (r.isSome_parsed_iff hfold type).mpr (hread r hr)
    rw [hrun, h, done_eq_takeWhile, List.takeWhile_eq_self_iff.mpr hparsed]
    exact ⟨forall₂_parses hfold hparsed, rfl, rfl⟩

/-! A chunk whose lines were in a file of another name before. -/

namespace Renamed

/-- `read` on a literal without escapes. -/
def readLiteral (text : Text) : Option Text :=
  if '"' ∈ text.tail then some (text.tail.takeWhile (· ≠ '"')) else none

/-- What is known of a commit, whatever it is. -/
def sevenDetails (_ : Text) : Revinfo :=
  ["summary", "author", "author-time", "author-tz", "committer", "committer-time",
    "committer-tz"].map fun key => (key.toList, "?".toList)

/-- A hash of forty letters. -/
def hash : Hash := ⟨List.replicate 40 'a', by simp, by
  intro c hc
  rw [List.eq_of_mem_replicate hc]
  decide⟩

/-- Three lines that an ancestor has in the file `path`. -/
def record (path : Path) : Record where
  rev := hash
  origLine := 2
  finalLine := 1
  numLines := 3
  details := none
  previous := some (hash, path)
  filename := ⟨"b".toList, by decide⟩

/-- A name with a space, but nothing that would have to be quoted. -/
def plain : Path := ⟨"a b".toList, by decide⟩

/-- A name that ends with a space, quoted for another character in it. -/
def quoted : Path := ⟨"\"\\303\\251 \"".toList, by decide⟩

theorem readable_plain : (record plain).Readable Char.toLower readLiteral := by
  have hfound : matchPrevious Char.toLower (Record.previousLine (hash, plain))
      = some (hash.1 ++ " a".toList, "b".toList) := by decide
  refine ⟨by decide, fun p hp m hm => ?_⟩
  obtain rfl := Option.some.inj hp
  rw [hfound] at hm
  obtain rfl := Option.some.inj hm
  decide

theorem not_readable_quoted : ¬(record quoted).Readable Char.toLower readLiteral := by
  have hfound : matchPrevious Char.toLower (Record.previousLine (hash, quoted))
      = some (hash.1 ++ " \"\\303\\251".toList, "\"".toList) := by decide
  intro hread
  have hdecode := hread.2 (hash, quoted) rfl _ hfound
  exact absurd hdecode (by decide)

/-- Cut within the first record, with the beginning of the next one behind it. -/
theorem parsesAll_plain :
    runFilter Char.toLower readLiteral sevenDetails .addition
          [(record plain).text.take 60, (record plain).text.drop 60 ++ (record plain).text.take 20]
        = runFilter Char.toLower readLiteral sevenDetails .addition
          [[(record plain).text.take 60,
            (record plain).text.drop 60 ++ (record plain).text.take 20].flatten] ∧
      ParsesAll Char.toLower readLiteral sevenDetails .addition
        (runFilter Char.toLower readLiteral sevenDetails .addition
          [(record plain).text.take 60, (record plain).text.drop 60 ++ (record plain).text.take 20])
        [record plain] := by
  have htail : Incomplete ((record plain).text.take 20) :=
    ⟨record plain, List.take_prefix _ _, by decide⟩
  refine (parsesAll_iff (fun c _ => rfl) readLiteral sevenDetails .addition [record plain] htail
    _ ?_).mpr fun r hr => ?_
  · simp only [List.flatten_cons, List.flatten_nil, List.append_nil, ← List.append_assoc,
      List.take_append_drop]
    rfl
  · rw [List.mem_singleton.mp hr]
    exact readable_plain

/-- The part of the name behind the space, a double quote, is read as if it was quoted. -/
theorem not_parsesAll_quoted :
    ¬ParsesAll Char.toLower readLiteral sevenDetails .addition
      (runFilter Char.toLower readLiteral sevenDetails .addition [(record quoted).text])
      [record quoted] := by
  rintro ⟨results, hresults, -⟩
  rcases hresults with _ | ⟨hparsed, -⟩
  refine not_readable_quoted ((Record.isSome_parsed_iff (fun c _ => rfl) .addition _).mp ?_)
  exact Option.isSome_iff_exists.mpr ⟨_, hparsed.1⟩

end Renamed

end Magit.Blame
