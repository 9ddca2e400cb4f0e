import Magit.Emacs.SplitString
import Magit.Emacs.Version

/-!
# Client/Releases — the release tags of a repository

`magit--list-releases` hands the version of every tag that `magit-release-tag-regexp` matches to
`version-to-list`.  The regexp allows any words behind the numbers, but only some of them are known
to `magit-tag-version-regexp-alist`; a single other one and no release is listed
(`magitListReleases_iff`).
-/

namespace Magit.Releases

open Emacs

/-! ## The regexp and its separators -/

/-- ``^[-._+ ]?\(WORD\|…\)\.?$`` -/
def sepWordDot (f : CaseFold) (words : List (List Char)) (s : List Char) : Bool :=
  sepWord f words s || (s.getLast? == some '.' && sepWord f words s.dropLast)

/-- `magit-tag-version-regexp-alist` -/
def magitTagVersionRegexpAlist (f : CaseFold) : List ((List Char → Bool) × ℤ) :=
  [(sepWordDot f ["snapshot".toList], -4), (sepSingle, -4), (sepWordDot f revisionWords, -4),
    (sepWordDot f ["unknown".toList], -4), (sepWordDot f ["alpha".toList], -3),
    (sepWordDot f ["beta".toList], -2), (sepWordDot f ["pre".toList, "rc".toList], -1)]

/-- The words that may stand before a version. -/
def prefixWords : List (List Char) :=
  ["v".toList, "version".toList, "r".toList, "release".toList]

/-- ``\(?:\(?:v\(?:ersion\)?\|r\(?:elease\)?\)[-_]?\)?`` -/
def matchesPrefix (f : CaseFold) (start : List Char) : Bool :=
  start == [] || prefixWords.contains (start.map f.fold)
    || ((start.getLast? == some '-' || start.getLast? == some '_')
      && prefixWords.contains (start.dropLast.map f.fold))

/-- `[a-zA-Z0-9-]` -/
def wordChar (f : CaseFold) (c : Char) : Bool := f.letter c || c.isDigit || c == '-'

/-- A plus, and the same again behind dots. -/
def matchesDotted (p : Char → Bool) (text : List Char) : Bool :=
  (text.splitOn '.').all fun part => part != [] && part.all p

/-- ``[0-9]+\(?:\.[0-9]+\)*\(?:-[a-zA-Z0-9-]+\(?:\.[a-zA-Z0-9-]+\)*\)?``; the numbers end at the
first character that is neither a digit nor a dot. -/
def matchesVersion (f : CaseFold) (ver : List Char) : Bool :=
  let ext := ver.dropWhile fun c => c.isDigit || c == '.'
  matchesDotted Char.isDigit (ver.takeWhile fun c => c.isDigit || c == '.')
    && (ext == [] || (ext.head? == some '-' && matchesDotted (wordChar f) ext.tail))

/-- The second submatch of `magit-release-tag-regexp`.  There are no digits in the first one, and
the second one begins with a digit. -/
def matchRelease (f : CaseFold) (tag : List Char) : Option (List Char) :=
  let ver := tag.dropWhile fun c => !c.isDigit
  if matchesPrefix f (tag.takeWhile fun c => !c.isDigit) && matchesVersion f ver then some ver
  else none

/-! ## The tags -/

/-- A tag, and the first line of its message, or of that of the commit. -/
structure GitTag where
  name : List Char
  subject : List Char
  name_ne_nil : name ≠ []
  space_notMem : ' ' ∉ name
  newline_notMem : '\n' ∉ name
  subject_line : '\n' ∉ subject

/-- A line of `git tag -n`, which gives 15 columns at least to the name. -/
def tagLine (width : List Char → ℕ) (t : GitTag) : List Char :=
  t.name ++ List.replicate (15 - width t.name) ' ' ++ ' ' :: t.subject

/-- `(magit-git-lines "tag" "-n")` -/
def gitTagLines (width : List Char → ℕ) (tags : List GitTag) : List (List Char) :=
  splitString '\n' (terminated '\n' (tags.map (tagLine width)))

/-- An element of the list: the tag, its version and its message. -/
structure Release where
  version : List Char
  tag : List Char
  message : List Char
  deriving DecidableEq

/-- `mapcan` with a function that may signal. -/
def mapcan {α β : Type*} (g : α → Option (List β)) : List α → Option (List β)
  | [] => some []
  | a :: l => (g a).bind fun found => (mapcan g l).map fun rest => found ++ rest

/-- The function that is mapped over the lines. -/
def releaseOfLine (f : CaseFold) (line : List Char) : Option (List (List ℤ × Release)) :=
  if line.contains ' ' then
    let tag := line.takeWhile (· ≠ ' ')
    let msg := (line.dropWhile (· ≠ ' ')).dropWhile (· = ' ')
    match matchRelease f tag with
    | some ver =>
      (versionToList f (magitTagVersionRegexpAlist f) ver).map fun l => [(l, ⟨ver, tag, msg⟩)]
    | none => some []
  else some []

/-- None if it signals. -/
def magitListReleases (f : CaseFold) (width : List Char → ℕ) (tags : List GitTag) :
    Option (List Release) :=
  (mapcan (releaseOfLine f) (gitTagLines width tags)).map fun found =>
    (sortVersions Prod.fst found).reverse.map Prod.snd

/-! ## What is listed -/

/-- The release that a tag stands for. -/
def release (f : CaseFold) (t : GitTag) : Option Release :=
  (matchRelease f t.name).map fun ver => ⟨ver, t.name, t.subject.dropWhile (· = ' ')⟩

/-- No version is lower than one behind it. -/
def HighestFirst (f : CaseFold) (releases : List Release) : Prop :=
  releases.Pairwise fun r r' =>
    ∃ l ∈ versionToList f (magitTagVersionRegexpAlist f) r.version,
      ∃ l' ∈ versionToList f (magitTagVersionRegexpAlist f) r'.version, versionListLt l l' = false

/-- It is known what every part of the version between numbers, or at its end, stands for. -/
def KnownVersion (f : CaseFold) (ver : List Char) : Prop :=
  ∀ sep ∈ separators ver, Accepts f (magitTagVersionRegexpAlist f) sep.1 sep.2

section

variable {f : CaseFold} {width : List Char → ℕ} {t : GitTag} {tags : List GitTag} {ver : List Char}

section

variable {α β : Type*} {g : α → Option (List β)} {l : List α}

/-- The lists for each element one after the other. -/
theorem mapcan_map {γ : Type*} {h : γ → α} {k : γ → List β} {l : List γ}
    (heq : ∀ a ∈ l, g (h a) = some (k a)) : mapcan g (l.map h) = some (l.flatMap k) := by
  induction l with
  | nil => rfl
  | cons a l ih =>
    obtain ⟨ha, hl⟩ := List.forall_mem_cons.mp heq
    rw [List.map_cons, mapcan, ha, ih hl, List.flatMap_cons]
    rfl

/-- There is a list for each element if there is one for all. -/
theorem isSome_of_mapcan {found : List β} (h : mapcan g l = some found) :
    ∀ a ∈ l, (g a).isSome := by
  induction l generalizing found with
  | nil => exact fun a ha => absurd ha List.not_mem_nil
  | cons a l ih =>
    obtain ⟨first, ha, hl⟩ := Option.bind_eq_some_iff.mp h
    obtain ⟨rest, hrest, -⟩ := Option.map_eq_some_iff.mp hl
    refine List.forall_mem_cons.mpr ⟨?_, ih hrest⟩
    rw [ha]
    rfl

end

/-! ## The lines -/

theorem newline_notMem_tagLine (width : List Char → ℕ) (t : GitTag) : '\n' ∉ tagLine width t := by
  simp only [tagLine, List.mem_append, List.mem_cons, List.mem_replicate]
  rintro ((h | ⟨-, h⟩) | h | h)
  · exact t.newline_notMem h
  · exact absurd h (by decide)
  · exact absurd h (by decide)
  · exact t.subject_line h

/-- Git prints one line for each tag. -/
theorem gitTagLines_eq (width : List Char → ℕ) (tags : List GitTag) :
    gitTagLines width tags = tags.map (tagLine width) := by
  have hline : ∀ line ∈ tags.map (tagLine width), '\n' ∉ line := by
    intro line hmem
    obtain ⟨t, -, rfl⟩ := List.mem_map.mp hmem
    exact newline_notMem_tagLine width t
  rw [gitTagLines, splitString_terminated hline, List.filter_eq_self]
  intro line hmem
  obtain ⟨t, -, rfl⟩ := List.mem_map.mp hmem
  simp [tagLine]

/-- The name and the message are read back from the line. -/
theorem releaseOfLine_tagLine (f : CaseFold) (width : List Char → ℕ) (t : GitTag) :
    releaseOfLine f (tagLine width t) = match release f t with
      | some r => (versionToList f (magitTagVersionRegexpAlist f) r.version).map fun l => [(l, r)]
      | none => some [] := by
  have hpad : tagLine width t
      = t.name ++ ' ' :: (List.replicate (15 - width t.name) ' ' ++ t.subject) := by
    rw [tagLine, List.append_assoc]
    congr 1
    rw [← List.singleton_append, ← List.append_assoc, ← List.replicate_succ', List.replicate_succ,
      List.cons_append]
  have hname : ∀ c ∈ t.name, decide (c ≠ ' ') = true := by
    intro c hc
    exact decide_eq_true fun h => t.space_notMem (h ▸ hc)
  have htag : (tagLine width t).takeWhile (· ≠ ' ') = t.name := by
    rw [hpad, List.takeWhile_append_of_pos hname, List.takeWhile_cons_of_neg (by decide),
      List.append_nil]
  have hmsg : ((tagLine width t).dropWhile (· ≠ ' ')).dropWhile (· = ' ')
      = t.subject.dropWhile (· = ' ') := by
    rw [hpad, List.dropWhile_append_of_pos hname, List.dropWhile_cons_of_neg (by decide),
      List.dropWhile_cons_of_pos (by decide), List.dropWhile_append_of_pos]
    intro c hc
    exact decide_eq_true (List.eq_of_mem_replicate hc)
  have hspace : (tagLine width t).contains ' ' = true := by
    rw [hpad]
    simp
  rw [releaseOfLine, if_pos hspace, htag, hmsg, release]
  dsimp only
  cases matchRelease f t.name with
  | none => rfl
  | some ver => rfl

/-! ## The versions -/

/-- A version begins with a digit. -/
theorem exists_digit_of_matchRelease {tag : List Char} (h : matchRelease f tag = some ver) :
    ∃ c ∈ ver.head?, c.isDigit = true := by
  rw [matchRelease] at h
  split at h
  next hmatch =>
    obtain rfl := Option.some.inj h
    rcases hver : tag.dropWhile (fun c => !c.isDigit) with _ | ⟨c, rest⟩
    · rw [hver] at hmatch
      have hfalse : matchesVersion f [] = false := rfl
      rw [hfalse, Bool.and_false] at hmatch
      cases hmatch
    · have hnot := List.head?_dropWhile_not (fun c : Char => !c.isDigit) tag
      rw [hver, List.head?_cons] at hnot
      refine ⟨c, ?_, by simpa using hnot⟩
      rw [hver, List.head?_cons, Option.mem_some_iff]
  · cases h

/-- The version of a release is parsed exactly if it is known. -/
theorem isSome_iff_of_matchRelease {tag : List Char} (h : matchRelease f tag = some ver) :
    (versionToList f (magitTagVersionRegexpAlist f) ver).isSome ↔ KnownVersion f ver := by
  obtain ⟨c, hc, hdigit⟩ := exists_digit_of_matchRelease h
  have hstart : ver.head? ≠ some '.' := by
    rw [hc]
    exact fun hdot => ne_dot_of_isDigit hdigit (Option.some.inj hdot)
  rw [versionToList_isSome_iff hstart]
  exact and_iff_right ⟨c, hc, hdigit⟩

/-- What is sorted for a tag whose version is known. -/
def entries (f : CaseFold) (t : GitTag) : List (List ℤ × Release) :=
  match release f t with
  | some r => [((versionToList f (magitTagVersionRegexpAlist f) r.version).getD [], r)]
  | none => []

/-- The line of a tag with a known version yields its entries. -/
theorem releaseOfLine_eq_some
    (h : ∀ ver, matchRelease f t.name = some ver → KnownVersion f ver) :
    releaseOfLine f (tagLine width t) = some (entries f t) := by
  rw [releaseOfLine_tagLine, entries, release]
  rcases hver : matchRelease f t.name with _ | ver
  · rfl
  · obtain ⟨l, hl⟩ := Option.isSome_iff_exists.mp ((isSome_iff_of_matchRelease hver).mpr (h ver hver))
    simp only [Option.map_some, hl, Option.getD_some]

/-- A line that does not signal has a known version. -/
theorem knownVersion_of_isSome (h : (releaseOfLine f (tagLine width t)).isSome)
    (hver : matchRelease f t.name = some ver) : KnownVersion f ver := by
  rw [releaseOfLine_tagLine, release, hver] at h
  simp only [Option.map_some, Option.isSome_map] at h
  exact (isSome_iff_of_matchRelease hver).mp h

/-- The entries of the tags are the releases. -/
theorem map_entries (f : CaseFold) (tags : List GitTag) :
    (tags.flatMap (entries f)).map Prod.snd = tags.filterMap (release f) := by
  induction tags with
  | nil => rfl
  | cons t tags ih =>
    rw [List.flatMap_cons, List.map_append, ih, List.filterMap_cons, entries]
    cases release f t with
    | none => rfl
    | some r => rfl

/-- An entry has the numbers of its version. -/
theorem versionToList_of_mem_entries (h : KnownVersion f ver)
    (hver : matchRelease f t.name = some ver) {e : List ℤ × Release} (he : e ∈ entries f t) :
    versionToList f (magitTagVersionRegexpAlist f) e.2.version = some e.1 := by
  obtain ⟨l, hl⟩ := Option.isSome_iff_exists.mp ((isSome_iff_of_matchRelease hver).mpr h)
  rw [entries, release, hver] at he
  obtain rfl := List.mem_singleton.mp he
  simp only [hl, Option.getD_some]

/-- What is sorted and reversed has the highest version first. -/
theorem highestFirst_sorted (h : ∀ t ∈ tags, ∀ ver, matchRelease f t.name = some ver →
    KnownVersion f ver) :
    HighestFirst f ((sortVersions Prod.fst (tags.flatMap (entries f))).reverse.map Prod.snd) := by
  have hperm := sortVersions_perm Prod.fst (tags.flatMap (entries f))
  have hnumbers : ∀ e ∈ sortVersions Prod.fst (tags.flatMap (entries f)),
      versionToList f (magitTagVersionRegexpAlist f) e.2.version = some e.1 := by
    intro e he
    obtain ⟨t, ht, hmem⟩ := List.mem_flatMap.mp (hperm.mem_iff.mp he)
    rcases hver : matchRelease f t.name with _ | ver
    · rw [entries, release, hver] at hmem
      exact absurd hmem List.not_mem_nil
    · exact versionToList_of_mem_entries (h t ht ver hver) hver hmem
  refine List.pairwise_map.mpr (List.pairwise_reverse.mpr ?_)
  refine (pairwise_sortVersions Prod.fst (tags.flatMap (entries f))).imp_of_mem ?_
  intro e e' he he' hlt
  exact ⟨e'.1, hnumbers e' he', e.1, hnumbers e he, hlt⟩

/-- **The releases are listed, highest first, exactly if the version of every tag that matches is
known** to the alist; otherwise the function signals. -/
theorem magitListReleases_iff (f : CaseFold) (width : List Char → ℕ) (tags : List GitTag) :
    (∃ releases, magitListReleases f width tags = some releases ∧
      releases.Perm (tags.filterMap (release f)) ∧ HighestFirst f releases) ↔
    ∀ t ∈ tags, ∀ ver, matchRelease f t.name = some ver → KnownVersion f ver := by
  rw [magitListReleases, gitTagLines_eq]
  constructor
  · rintro ⟨releases, hsome, -, -⟩ t ht ver hver
    obtain ⟨found, hfound, -⟩ := Option.map_eq_some_iff.mp hsome
    exact knownVersion_of_isSome
      (isSome_of_mapcan hfound (tagLine width t) (List.mem_map_of_mem ht)) hver
  · intro h
    have hfound : mapcan (releaseOfLine f) (tags.map (tagLine width))
        = some (tags.flatMap (entries f)) :=
      mapcan_map fun t ht => releaseOfLine_eq_some (h t ht)
    rw [hfound]
    refine ⟨_, rfl, ?_, highestFirst_sorted h⟩
    rw [← map_entries]
    exact ((List.reverse_perm _).trans (sortVersions_perm _ _)).map _

theorem fooTag_name : "1.0-foo".toList ≠ [] := by decide

theorem fooTag_space : ' ' ∉ "1.0-foo".toList := by decide

theorem fooTag_newline : '\n' ∉ "1.0-foo".toList := by decide

theorem fooTag_subject : '\n' ∉ ([] : List Char) := List.not_mem_nil

/-- A tag that matches, with a word in its version that is not known. -/
def fooTag : GitTag :=
  ⟨"1.0-foo".toList, [], fooTag_name, fooTag_space, fooTag_newline, fooTag_subject⟩

/-- With it in the repository no release is listed. -/
theorem not_magitListReleases_foo : ¬∃ releases,
    magitListReleases asciiFold List.length [fooTag] = some releases ∧
      releases.Perm ([fooTag].filterMap (release asciiFold)) ∧ HighestFirst asciiFold releases := by
  rintro ⟨releases, h, -, -⟩
  have hnone : magitListReleases asciiFold List.length [fooTag] = none := by
    decide
  rw [hnone] at h
  cases h

end

end Magit.Releases
