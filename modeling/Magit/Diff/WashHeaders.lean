import Magit.Diff.WashHunks

/-!
# Diff/WashHeaders — the extended headers of a file

Each extended header is recognised by its own regexp (`lookingAtHeader_first`), so the loop over the
headers runs through all of them, in whatever order they come (`headerLoop_headers`).  It keeps them
in the slot `header`, but for mode changes and renames (`Header.place`).
-/

namespace Magit.DiffWash

open Emacs

/-! ## The extended headers -/

/-- A line or two between the first line of a file's diff and its hunks. -/
inductive Header
  | modes (old new : Text)
  | deletedFile (rest : Text)
  | newFile (rest : Text)
  | rename (orig file : Text)
  | copy (orig file : Text)
  | similarity (rest : Text)
  | dissimilarity (rest : Text)
  | index (rest : Text)
  | fromFile (rest : Text)
  | toFile (rest : Text)
  | binaryFiles (orig file : Text)
  | binaryDiffer
  | mode (rest : Text)

/-- A literal piece at the front of a line, and what stands behind it. -/
def pieceLine (p : String × Text) : Text := p.1.toList ++ p.2

namespace Header

/-- What the first line begins with, and what follows. -/
def first : Header → String × Text
  | modes old _ => ("old mode ", old)
  | deletedFile rest => ("deleted file ", rest)
  | newFile rest => ("new file ", rest)
  | rename orig _ => ("rename from ", orig)
  | copy orig _ => ("copy from ", orig)
  | similarity rest => ("similarity index ", rest)
  | dissimilarity rest => ("dissimilarity index ", rest)
  | index rest => ("index ", rest)
  | fromFile rest => ("--- ", rest)
  | toFile rest => ("+++ ", rest)
  | binaryFiles orig file =>
    ("Binary files ", orig ++ (" and ".toList ++ (file ++ " differ".toList)))
  | binaryDiffer => ("Binary files differ", [])
  | mode rest => ("mode ", rest)

/-- The same for the second line, if there is one. -/
def second : Header → Option (String × Text)
  | modes _ new => some ("new mode ", new)
  | rename _ file => some ("rename to ", file)
  | copy _ file => some ("copy to ", file)
  | _ => none

variable (h : Header)

/-- The header's lines. -/
def lines : List Text := pieceLine h.first :: (h.second.map pieceLine).toList

/-- What is not literal. -/
def texts : Header → List Text
  | modes old new => [old, new]
  | rename orig file => [orig, file]
  | copy orig file => [orig, file]
  | binaryFiles orig file => [orig, file]
  | binaryDiffer => []
  | h => [h.first.2]

/-- No part of a header is empty or has a newline. -/
def WellFormed : Prop := ∀ text ∈ h.texts, text ≠ [] ∧ '\n' ∉ text

/-- What the header says to the washer. -/
def kind : Header → ExtendedHeader
  | modes _ _ => .modes
  | deletedFile _ => .deleted
  | newFile _ => .newFile
  | rename orig file => .rename orig file
  | copy orig file => .copy orig file
  | fromFile rest => .fromFile (withoutTab rest)
  | toFile rest => .toFile (withoutTab rest)
  | binaryFiles _ _ => .binary
  | binaryDiffer => .binary
  | _ => .other

/-- What the header calls the file, and what it called it before. -/
def origName : Header → Option Text
  | rename orig _ => some orig
  | copy orig _ => some orig
  | fromFile rest => if withoutTab rest = devNull then none else some (withoutTab rest)
  | _ => none

/-- The file name that the section takes from the header. -/
def fileName : Header → Option Text
  | rename _ file => some file
  | copy _ file => some file
  | toFile rest => if withoutTab rest = devNull then none else some (withoutTab rest)
  | _ => none

/-- Where the washer leaves a header. -/
inductive Place
  | header
  | chmod
  | rename
  deriving DecidableEq

/-- Where the header goes. -/
def place : Header → Place
  | modes _ _ => .chmod
  | rename _ _ => .rename
  | _ => .header

/-- The text of a header that is left at a place. -/
def textAt (place : Place) : Option Text :=
  if h.place = place then some (unlines h.lines) else none

end Header

/-! ## The headers are recognised -/

section

variable {env : WashEnv}

/-- A line that begins with a piece is read as what is behind it. -/
theorem lineWith_append (piece : String) {rest : Text} (h : rest ≠ []) :
    lineWith env piece (pieceLine (piece, rest)) = some rest := by
  have hlength : piece.toList.length < (pieceLine (piece, rest)).length := by
    rw [pieceLine, List.length_append]
    exact Nat.lt_add_of_pos_right (List.length_pos_iff.mpr h)
  rw [lineWith, decide_eq_true hlength, pieceLine, lookingAt_append, Bool.true_and, if_pos rfl,
    List.drop_left]

theorem lineWith_of_differs (hfold : FoldsAscii env.fold) {piece piece' : String}
    (h : differs piece.toList piece'.toList = true) (rest : Text) :
    lineWith env piece (pieceLine (piece', rest)) = none := by
  rw [lineWith, pieceLine, lookingAt_of_differs hfold h, Bool.false_and, if_neg Bool.false_ne_true]

/-- Two lines that begin with two pieces are read as what is behind them. -/
theorem linesWith_append (piece piece' : String) {rest rest' : Text} (h : rest ≠ [])
    (h' : rest' ≠ []) :
    linesWith env piece piece' (pieceLine (piece, rest)) (some (pieceLine (piece', rest')))
      = some (rest, rest') := by
  rw [linesWith, lineWith_append piece h, Option.bind_some, Option.bind_some,
    lineWith_append piece' h', Option.map_some]

theorem linesWith_of_differs (hfold : FoldsAscii env.fold) {piece first : String}
    (h : differs piece.toList first.toList = true) (piece' : String) (rest : Text)
    (next : Option Text) : linesWith env piece piece' (pieceLine (first, rest)) next = none := by
  rw [linesWith, lineWith_of_differs hfold h, Option.bind_none]

/-- The line for binary files is recognized. -/
theorem binaryFiles_names {orig file : Text} (horig : orig ≠ []) (hfile : file ≠ []) :
    binaryFiles env (pieceLine (Header.binaryFiles orig file).first) = true := by
  have hrest : orig ++ (" and ".toList ++ (file ++ " differ".toList)) ≠ [] :=
    List.append_ne_nil_of_left_ne_nil horig _
  have hdrop : (orig ++ (" and ".toList ++ (file ++ " differ".toList))).drop (orig.length + 5)
      = file ++ " differ".toList := by
    rw [← List.drop_drop, List.drop_left]
    rfl
  have hlength : (file ++ " differ".toList).length = file.length + 7 := List.length_append
  rw [binaryFiles, Header.first, lineWith_append _ hrest, Option.any_some, List.any_eq_true]
  refine ⟨orig.length, List.mem_range.mpr ?_, ?_⟩
  · rw [List.length_append]
    exact Nat.lt_add_of_pos_right (by simp)
  · have hdiffer : lookingAt env.fold " differ".toList " differ".toList = true := by
      simpa only [List.append_nil] using lookingAt_append " differ".toList []
    simp only [List.drop_left, lookingAt_append, hdrop, hlength, Nat.add_sub_cancel, hdiffer,
      decide_eq_true (List.length_pos_iff.mpr horig),
      decide_eq_true (Nat.lt_add_of_pos_left (List.length_pos_iff.mpr hfile)), Bool.and_true]

theorem binaryFiles_of_differs (hfold : FoldsAscii env.fold) {first : String}
    (h : differs "Binary files ".toList first.toList = true) (rest : Text) :
    binaryFiles env (pieceLine (first, rest)) = false := by
  rw [binaryFiles, lineWith_of_differs hfold h, Option.any_none]

theorem binaryFiles_differ (hfold : FoldsAscii env.fold) :
    binaryFiles env (pieceLine Header.binaryDiffer.first) = false := by
  have hline : pieceLine Header.binaryDiffer.first
      = pieceLine ("Binary files ", "differ".toList) := by decide
  have hnames : lineWith env "Binary files " (pieceLine ("Binary files ", "differ".toList))
      = some "differ".toList := lineWith_append _ (by decide)
  have hand : ∀ n ∈ List.range 6, differs " and ".toList ("differ".toList.drop n) = true := by
    decide
  rw [hline, binaryFiles, hnames, Option.any_some, List.any_eq_false]
  intro n hn
  have hlook := lookingAt_of_differs hfold (hand n hn) []
  rw [List.append_nil] at hlook
  rw [hlook, Bool.and_false, Bool.false_and]
  exact Bool.false_ne_true

/-- **Each header is recognised as what it is.** -/
theorem lookingAtHeader_first (hfold : FoldsAscii env.fold) {h : Header} (hwf : h.WellFormed)
    (more : List Text) :
    lookingAtHeader env (pieceLine h.first) ((h.second.map pieceLine).toList ++ more).head?
      = some h.kind := by
  have hother : ∀ piece piece' : String, differs piece.toList piece'.toList = true →
      ∀ rest, lineWith env piece (pieceLine (piece', rest)) = none :=
    fun _ _ hd => lineWith_of_differs hfold hd
  have htwo : ∀ piece first : String, differs piece.toList first.toList = true →
      ∀ piece' rest next, linesWith env piece piece' (pieceLine (first, rest)) next = none :=
    fun _ _ hd => linesWith_of_differs hfold hd
  rw [lookingAtHeader, headerMatches]
  cases h with
  | modes orig file | rename orig file | copy orig file =>
    have horig : orig ≠ [] := (hwf orig (by simp [Header.texts])).1
    have hfile : file ≠ [] := (hwf file (by simp [Header.texts])).1
    have hnext : ∀ line : Text, ((some line).toList ++ more).head? = some line := fun _ => rfl
    simp (disch := decide) only [Header.first, Header.second, hother, htwo, hnext,
      linesWith_append _ _ horig hfile, Option.map_none, Option.map_some, List.findSome?_cons, id]
    rfl
  | deletedFile rest | newFile rest | similarity rest | dissimilarity rest | index rest
  | fromFile rest | toFile rest =>
    have hrest : rest ≠ [] := (hwf rest List.mem_cons_self).1
    simp (disch := decide) only [Header.first, hother, htwo, lineWith_append _ hrest,
      Option.map_none, Option.map_some, List.findSome?_cons, id]
    rfl
  | binaryFiles orig file =>
    have horig : orig ≠ [] := (hwf orig (by simp [Header.texts])).1
    have hfile : file ≠ [] := (hwf file (by simp [Header.texts])).1
    rw [binaryFiles_names horig hfile]
    simp (disch := decide) only [Header.first, hother, htwo, Option.map_none,
      List.findSome?_cons, id]
    rfl
  | binaryDiffer =>
    have hline : pieceLine Header.binaryDiffer.first = "Binary files differ".toList :=
      List.append_nil _
    rw [binaryFiles_differ hfold, if_neg Bool.false_ne_true, if_pos (congrArg _ hline)]
    simp (disch := decide) only [Header.first, hother, htwo, Option.map_none,
      List.findSome?_cons, id]
    rfl
  | mode rest =>
    have hrest : rest ≠ [] := (hwf rest List.mem_cons_self).1
    have hmode : differs "Binary files differ".toList "mode ".toList = true := by decide
    have hdiffer : (pieceLine (Header.mode rest).first).map env.fold
        ≠ "Binary files differ".toList.map env.fold :=
      map_ne_of_lookingAt (lookingAt_of_differs hfold hmode rest)
    have hbinary : binaryFiles env (pieceLine (Header.mode rest).first) = false :=
      binaryFiles_of_differs hfold (by decide) rest
    rw [hbinary, if_neg Bool.false_ne_true, if_neg hdiffer]
    simp (disch := decide) only [Header.first, hother, htwo, lineWith_append _ hrest,
      Option.map_none, Option.map_some, List.findSome?_cons, id]
    rfl

/-! ## The loop over the headers -/

/-- No header looks like the line after the headers. -/
theorem differs_headlines (h : Header) :
    (["@@", "diff", "Submodule", "* Unmerged path"] ++ conflictHeadlines).all
      (fun piece => differs piece.toList h.first.1.toList) = true := by
  cases h <;> simp only [Header.first] <;> decide

/-- No header is a headline. -/
theorem headline_first (hfold : FoldsAscii env.fold) (h : Header) :
    headline env (pieceLine h.first) = false := by
  rw [headline, List.any_eq_false]
  intro piece hpiece
  rw [pieceLine, lookingAt_of_differs hfold (List.all_eq_true.mp (differs_headlines h) piece hpiece)]
  exact Bool.false_ne_true

/-- The pieces of the headers that are not kept in the slot `header`. -/
theorem differs_special {h : Header} (hplace : h.place = .header) :
    differs "old mode".toList h.first.1.toList = true
      ∧ differs "rename".toList h.first.1.toList = true := by
  cases h with
  | modes | rename => exact Header.Place.noConfusion hplace
  | _ =>
    simp only [Header.first]
    decide

theorem unlines_lines (h : Header) :
    unlines h.lines
      = h.first.1.toList ++ (h.first.2 ++ '\n' :: unlines (h.second.map pieceLine).toList) := by
  rw [Header.lines, unlines_cons, pieceLine, List.append_assoc]

/-- A header is pushed exactly if it has no place of its own. -/
theorem push_lines (hfold : FoldsAscii env.fold) (st : HeaderState) (h : Header) :
    st.push (unlines h.lines)
      = if h.place = .header then { st with header := unlines h.lines :: st.header } else st := by
  have hpre : ∀ piece first : String, piece.toList <+: first.toList → ∀ rest : Text,
      piece.toList.isPrefixOf (first.toList ++ rest) = true := fun _ _ hp _ =>
    List.isPrefixOf_iff_prefix.mpr (hp.trans (List.prefix_append _ _))
  rw [HeaderState.push, unlines_lines]
  rcases hplace : h.place with _ | _ | _
  · obtain ⟨hmodes, hrename⟩ := differs_special hplace
    rw [isPrefixOf_of_differs hfold hmodes, isPrefixOf_of_differs hfold hrename, Bool.or_false,
      if_neg Bool.false_ne_true, if_pos rfl]
  · cases h with
    | modes old new =>
      rw [Header.first, hpre "old mode" "old mode " (by decide), Bool.true_or, if_pos rfl]
      rfl
    | _ => exact Header.Place.noConfusion hplace
  · cases h with
    | rename orig file =>
      rw [Header.first, hpre "rename" "rename from " (by decide), Bool.or_true, if_pos rfl]
      rfl
    | _ => exact Header.Place.noConfusion hplace

theorem twoLines_kind (h : Header) : h.kind.twoLines = h.second.isSome := by cases h <;> rfl

/-- What a header makes of the bindings. -/
def HeaderState.apply (st : HeaderState) (h : Header) : HeaderState :=
  (st.set (unlines h.lines) h.kind).push (unlines h.lines)

/-- **The loop reads a header** and goes on behind it. -/
theorem headerLoop_lines (hfold : FoldsAscii env.fold) {h : Header} (hwf : h.WellFormed)
    (st : HeaderState) (rest : List Text) :
    headerLoop env st (h.lines ++ rest) = headerLoop env (st.apply h) rest := by
  have hkind := lookingAtHeader_first hfold hwf rest
  rw [HeaderState.apply, Header.lines, List.cons_append, headerLoop, headline_first hfold h,
    if_neg Bool.false_ne_true, hkind]
  simp only [twoLines_kind]
  -- a header takes its second line along, if it has one
  rcases h.second with _ | next
  · rfl
  · rfl

/-- **The loop runs through all the headers of a file.** -/
theorem headerLoop_headers (hfold : FoldsAscii env.fold) {headers : List Header}
    (hwf : ∀ h ∈ headers, h.WellFormed) (st : HeaderState) (rest : List Text) :
    headerLoop env st (headers.flatMap Header.lines ++ rest)
      = headerLoop env (headers.foldl HeaderState.apply st) rest := by
  induction headers generalizing st with
  | nil => rfl
  | cons h headers ih =>
    obtain ⟨hh, hheaders⟩ := List.forall_mem_cons.mp hwf
    rw [List.flatMap_cons, List.append_assoc, headerLoop_lines hfold hh, ih hheaders,
      List.foldl_cons]

/-- It ends where a hunk or another file begins. -/
theorem headerLoop_of_headline (st : HeaderState) {rest : List Text}
    (h : ∀ line, rest.head? = some line → headline env line = true) :
    headerLoop env st rest = some (st, rest) := by
  rcases rest with _ | ⟨line, rest⟩
  · rw [headerLoop]
  · rw [headerLoop, h line rfl, if_pos rfl]

/-! ## What the headers leave behind -/

section

variable (st : HeaderState) (match0 : Text)

@[simp] theorem push_modes : (st.push match0).modes = st.modes := by
  rw [HeaderState.push]
  split <;> rfl

@[simp] theorem push_rename : (st.push match0).rename = st.rename := by
  rw [HeaderState.push]
  split <;> rfl

@[simp] theorem push_orig : (st.push match0).orig = st.orig := by
  rw [HeaderState.push]
  split <;> rfl

@[simp] theorem push_file : (st.push match0).file = st.file := by
  rw [HeaderState.push]
  split <;> rfl

theorem set_fromFile (name : Text) :
    st.set match0 (.fromFile name) = if name = devNull then st else { st with orig := some name } :=
  rfl

theorem set_toFile (name : Text) :
    st.set match0 (.toFile name) = if name = devNull then st else { st with file := some name } :=
  rfl

variable (h : Header)

theorem set_header : (st.set match0 h.kind).header = st.header := by
  cases h with
  | fromFile rest | toFile rest =>
    simp only [Header.kind, set_fromFile, set_toFile]
    by_cases hnull : withoutTab rest = devNull
    · simp only [if_pos hnull]
    · simp only [if_neg hnull]
  | _ => rfl

theorem apply_modes : (st.apply h).modes = (h.textAt .chmod).or st.modes := by
  rw [HeaderState.apply, push_modes]
  cases h with
  | fromFile rest | toFile rest =>
    simp only [Header.kind, set_fromFile, set_toFile]
    by_cases hnull : withoutTab rest = devNull
    · simp only [if_pos hnull]
      rfl
    · simp only [if_neg hnull]
      rfl
  | _ => rfl

theorem apply_rename : (st.apply h).rename = (h.textAt .rename).or st.rename := by
  rw [HeaderState.apply, push_rename]
  cases h with
  | fromFile rest | toFile rest =>
    simp only [Header.kind, set_fromFile, set_toFile]
    by_cases hnull : withoutTab rest = devNull
    · simp only [if_pos hnull]
      rfl
    · simp only [if_neg hnull]
      rfl
  | _ => rfl

theorem apply_orig : (st.apply h).orig = h.origName.or st.orig := by
  rw [HeaderState.apply, push_orig]
  cases h with
  | fromFile rest | toFile rest =>
    simp only [Header.kind, set_fromFile, set_toFile, Header.origName]
    by_cases hnull : withoutTab rest = devNull
    · simp only [if_pos hnull]
      rfl
    · simp only [if_neg hnull]
      rfl
  | _ => rfl

theorem apply_file : (st.apply h).file = h.fileName.or st.file := by
  rw [HeaderState.apply, push_file]
  cases h with
  | fromFile rest | toFile rest =>
    simp only [Header.kind, set_fromFile, set_toFile, Header.fileName]
    by_cases hnull : withoutTab rest = devNull
    · simp only [if_pos hnull]
      rfl
    · simp only [if_neg hnull]
      rfl
  | _ => rfl

end

/-- A binding is what the last header that sets it says. -/
theorem foldl_apply {get : HeaderState → Option Text} {g : Header → Option Text}
    (h : ∀ st h, get (st.apply h) = (g h).or (get st)) (headers : List Header) (st : HeaderState) :
    get (headers.foldl HeaderState.apply st) = (headers.filterMap g).getLast?.or (get st) := by
  induction headers generalizing st with
  | nil => rfl
  | cons header headers ih =>
    rw [List.foldl_cons, ih, h, List.filterMap_cons]
    rcases g header with _ | a
    · rfl
    · simp only [List.getLast?_cons]
      rcases (headers.filterMap g).getLast? with _ | b
      · rfl
      · rfl

/-- **The other headers are kept in their order.** -/
theorem foldl_apply_header (hfold : FoldsAscii env.fold) (headers : List Header)
    (st : HeaderState) :
    (headers.foldl HeaderState.apply st).header.reverse.flatten
      = st.header.reverse.flatten
        ++ unlines ((headers.filter (·.place = .header)).flatMap Header.lines) := by
  induction headers generalizing st with
  | nil => rw [List.foldl_nil, List.filter_nil, List.flatMap_nil, unlines_nil, List.append_nil]
  | cons h headers ih =>
    rw [List.foldl_cons, ih, HeaderState.apply, push_lines hfold]
    by_cases hplace : h.place = .header
    · rw [if_pos hplace, List.filter_cons_of_pos (by simpa using hplace), List.flatMap_cons,
        unlines_append, List.reverse_cons, List.flatten_append, List.append_assoc, set_header]
      simp
    · rw [if_neg hplace, List.filter_cons_of_neg (by simpa using hplace), set_header]

end

end Magit.DiffWash
