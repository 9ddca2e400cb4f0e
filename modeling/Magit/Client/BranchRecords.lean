import Magit.Emacs.SplitString
import Magit.Git.Worker

/-!
# Client/BranchRecords — the list of local branches

`get_branch_list` writes ten fields for each local branch, and `magit-refs--format-local-branch`
takes them apart by their places, and the track by two regexps.  Every branch gets back what the
server found out about it (`branches_round_trip`).
-/

namespace Magit.Client

open Emacs Git

/-! ## `magit-refs--format-local-branches` -/

/-- "" is nil. -/
def orNil (field : Text) : Option Text := if field = [] then none else some field

/-- The fields of a record. -/
def recordFields (line : Text) : List (Option Text) := (line.splitOn nul).map orNil

/-- `(HEAD BRANCH REF UPSTREAM U:REF U:TRACK PUSH P:REF P:TRACK MSG)`. -/
structure LocalBranch where
  head : Option Text
  branch : Option Text
  ref : Option Text
  upstream : Option Text
  uRef : Option Text
  uTrack : Option Text
  push : Option Text
  pRef : Option Text
  pTrack : Option Text
  msg : Option Text
  deriving DecidableEq

/-- The `pcase-let` of `magit-refs--format-local-branch`. -/
def localBranch (line : Text) : LocalBranch :=
  let field i := ((recordFields line)[i]?).join
  ⟨field 0, field 1, field 2, field 3, field 4, field 5, field 6, field 7, field 8, field 9⟩

/-- `magit-refs--format-local-branches` on the field of a response, as far as it reads records.
Names can be filtered out. -/
def magitRefsFormatLocalBranches (insertRefname : Text → Bool) (branches : Text) :
    List LocalBranch :=
  (splitString '\n' branches).filterMap fun line =>
    let b := localBranch line
    if b.branch.all insertRefname then some b else none

/-- The group of `word \([0-9]+\)` at the first place that matches. -/
def matchCount (word : Text) : Text → Option Text
  | [] => none
  | c :: text =>
    let digits := ((c :: text).drop word.length).takeWhile Char.isDigit
    if word.isPrefixOf (c :: text) ∧ digits ≠ [] then some digits else matchCount word text

namespace LocalBranch

variable (b : LocalBranch)

/-- The branch is checked out. -/
def headp : Bool := b.head = some ['*']

/-- The count in `u:ahead`. -/
def uAhead : Option Text := b.uTrack.bind (matchCount "ahead ".toList)

/-- The count in `u:behind`. -/
def uBehind : Option Text := b.uTrack.bind (matchCount "behind ".toList)

/-- The upstream gets the face `error`. -/
def uGone : Bool := b.uTrack = some "[gone]".toList

end LocalBranch

/-! ## What the server finds out -/

/-- A branch; `name` is what follows `refs/heads/`. -/
structure BranchReport where
  name : Text
  head : Bool
  upstream : Option Text
  track : Track
  subject : Text

/-- What is used of the rules for the names of references: they have no control characters and no
spaces, and do not end in a slash. -/
structure IsRefName (name : Text) : Prop where
  ne_nil : name ≠ []
  graphic : ∀ c ∈ name, ' ' < c
  slash : name.getLast? ≠ some '/'

theorem isRefName_of_all {name : Text} (hne : name ≠ [])
    (hall : (name.all fun c => decide (' ' < c)) = true) (hslash : name.getLast? ≠ some '/') :
    IsRefName name :=
  ⟨hne, fun c hc => of_decide_eq_true (List.all_eq_true.mp hall c hc), hslash⟩

namespace BranchReport

variable (r : BranchReport)

/-- The branch's full name. -/
def refname : Text := "refs/heads/".toList ++ r.name

/-- What Git allows in the names of a report, and a subject that is one line. -/
structure WellFormed : Prop where
  refname : IsRefName r.refname
  upstream : ∀ up ∈ r.upstream, IsRefName up
  subject : '\n' ∉ r.subject ∧ nul ∉ r.subject

variable {δ : Type}

/-- The answers of libgit2 about a branch. -/
structure Of (lg : Libgit2 δ) (ref : Reference) : Prop where
  name : ref.name = r.refname
  shortName : lg.branchName ref = .ok r.name
  head : r.head = decide (lg.branchIsHead ref = 1)
  upstream : branchUpstream? lg ref.name = .ok r.upstream
  track : branchTrack lg r.upstream (lg.referenceNameToId ref.name).toOption = .ok r.track
  subject : branchSubject lg (lg.referenceNameToId ref.name).toOption = r.subject

/-- The fields of its record. -/
def fields : List Text :=
  [if r.head then ['*'] else [' '], r.name, r.refname, (r.upstream.map shortenUpstream).getD [],
    r.upstream.getD [], trackText r.track, [], [], [], r.subject]

/-- What is to be read back. -/
def localBranch : LocalBranch where
  head := some (if r.head then ['*'] else [' '])
  branch := some r.name
  ref := some r.refname
  upstream := r.upstream.map shortenUpstream
  uRef := r.upstream
  uTrack := orNil (trackText r.track)
  push := none
  pRef := none
  pTrack := none
  msg := orNil r.subject

end BranchReport

/-- How many commits a branch is ahead of its upstream. -/
def aheadCount : Track → ℕ
  | .counts ahead _ => ahead
  | _ => 0

/-- By how many commits the branch is behind, 0 if nothing is known. -/
def behindCount : Track → ℕ
  | .counts _ behind => behind
  | _ => 0

/-- A count as it is shown, which is not if it is zero. -/
def countShown (n : ℕ) : Option Text := if n = 0 then none else some (decimal n)

/-! ## Fields -/

section

variable {c : Char}

/-- Counts have no other characters than these. -/
theorem notMem_trackText_counts (hdigit : c.isDigit = false) (hwords : c ∉ "[ahead , behind ]".toList)
    (ahead behind : ℕ) : c ∉ trackText (.counts ahead behind) := by
  have hdecimal := notMem_decimal hdigit
  rw [trackText]
  split
  · simp_all
  · split
    · simp_all
    · split <;> simp_all

/-- A character that is in none of the words is not in what is written of the tracking. -/
theorem notMem_trackText (hdigit : c.isDigit = false) (hwords : c ∉ "[ahead , behind ]".toList)
    (hgone : c ∉ "[gone]".toList) (track : Track) : c ∉ trackText track := by
  rcases track with _ | ⟨ahead, behind⟩ | _
  · exact List.not_mem_nil
  · exact notMem_trackText_counts hdigit hwords ahead behind
  · exact hgone

theorem IsRefName.notMem {name : Text} (h : IsRefName name) (hc : c ≤ ' ') : c ∉ name :=
  fun hmem => Char.not_lt.mpr hc (h.graphic c hmem)

theorem notMem_shortenUpstream {name : Text} (h : c ∉ name) : c ∉ shortenUpstream name := by
  rw [shortenUpstream]
  split
  · exact fun hmem => h (List.mem_of_mem_drop hmem)
  · split
    · exact fun hmem => h (List.mem_of_mem_drop hmem)
    · exact h

/-- Something follows a directory in a name. -/
theorem ne_nil_of_append {dir rest : Text} (hdir : dir.getLast? = some '/')
    (h : (dir ++ rest).getLast? ≠ some '/') : rest ≠ [] := by
  rintro rfl
  rw [List.append_nil] at h
  exact h hdir

/-- A name that begins with a directory goes on behind it. -/
theorem drop_ne_nil {name dir : Text} (h : name.getLast? ≠ some '/')
    (hdir : dir.getLast? = some '/') (hstart : dir.isPrefixOf name = true) :
    name.drop dir.length ≠ [] := by
  obtain ⟨rest, rfl⟩ := List.isPrefixOf_iff_prefix.mp hstart
  rw [List.drop_left]
  exact ne_nil_of_append hdir h

/-- Something is left of a name that is shortened. -/
theorem shortenUpstream_ne_nil {name : Text} (h : IsRefName name) : shortenUpstream name ≠ [] := by
  rw [shortenUpstream]
  split
  · rename_i hremotes
    exact drop_ne_nil h.slash (by decide) hremotes
  · split
    · rename_i hheads
      exact drop_ne_nil h.slash (by decide) hheads
    · exact h.ne_nil

end

theorem orNil_of_ne_nil {field : Text} (h : field ≠ []) : orNil field = some field := if_neg h

theorem orNil_getD {field : Option Text} (h : ∀ f ∈ field, f ≠ []) : orNil (field.getD []) = field := by
  rcases field with _ | field
  · rfl
  · exact orNil_of_ne_nil (h field rfl)

/-! ## Records -/

namespace BranchReport

variable {r : BranchReport}

/-- All fields but the last. -/
def front (r : BranchReport) : List Text := r.fields.dropLast

/-- The record, without the newline behind it. -/
def line (r : BranchReport) : Text := terminated nul r.front ++ r.subject

theorem WellFormed.name_ne_nil (h : r.WellFormed) : r.name ≠ [] :=
  ne_nil_of_append (by decide) h.refname.slash

theorem WellFormed.notMem_name {c : Char} (h : r.WellFormed) (hc : c ≤ ' ') : c ∉ r.name :=
  fun hmem => h.refname.notMem hc (List.mem_append_right _ hmem)

/-- No field but the last has a newline or a separator. -/
theorem WellFormed.notMem_front (h : r.WellFormed) {c : Char} (hc : c = '\n' ∨ c = nul) :
    ∀ field ∈ r.front, c ∉ field := by
  have hle : c ≤ ' ' := by rcases hc with rfl | rfl <;> decide
  have hhead : c ∉ (if r.head then ['*'] else [' ']) := by
    rcases hc with rfl | rfl <;> split <;> decide
  have htrack : c ∉ trackText r.track := by
    rcases hc with rfl | rfl
    · exact notMem_trackText rfl (by decide) (by decide) r.track
    · exact notMem_trackText rfl (by decide) (by decide) r.track
  have hupstream : c ∉ r.upstream.getD [] := by
    rcases hup : r.upstream with _ | up
    · exact List.not_mem_nil
    · exact (h.upstream up hup).notMem hle
  have hshort : c ∉ (r.upstream.map shortenUpstream).getD [] := by
    rcases hup : r.upstream with _ | up
    · exact List.not_mem_nil
    · exact notMem_shortenUpstream ((h.upstream up hup).notMem hle)
  have hempty : c ∉ ([] : Text) := List.not_mem_nil
  simp only [front, fields, List.dropLast_cons_cons, List.dropLast_singleton, List.forall_mem_cons]
  exact ⟨hhead, h.notMem_name hle, h.refname.notMem hle, hshort, hupstream, htrack, hempty, hempty,
    hempty, fun _ hf => absurd hf List.not_mem_nil⟩

/-- A branch is reported on one line. -/
theorem WellFormed.notMem_line (h : r.WellFormed) : '\n' ∉ r.line := by
  intro hmem
  rcases List.mem_append.mp hmem with hfront | hsubject
  · obtain ⟨field, hfield, hmem⟩ := List.mem_flatMap.mp hfront
    rcases List.mem_append.mp hmem with hmem | hnul
    · exact h.notMem_front (Or.inl rfl) field hfield hmem
    · exact absurd (List.mem_singleton.mp hnul) (by decide)
  · exact h.subject.1 hsubject

theorem line_ne_nil (r : BranchReport) : r.line ≠ [] := by
  rw [line, front, fields]
  split <;> exact List.cons_ne_nil _ _

/-- The record has the ten fields. -/
theorem recordFields_line (h : r.WellFormed) : recordFields r.line = r.fields.map orNil := by
  rw [recordFields, line, splitOn_terminated_append (h.notMem_front (Or.inr rfl)),
    List.splitOn_eq_singleton h.subject.2]
  rfl

/-- **The line of a well-formed report is read back.** -/
theorem localBranch_line (h : r.WellFormed) : Client.localBranch r.line = r.localBranch := by
  have hhead : orNil (if r.head then ['*'] else [' ']) = some (if r.head then ['*'] else [' ']) := by
    split <;> rfl
  have hshort : orNil ((r.upstream.map shortenUpstream).getD []) = r.upstream.map shortenUpstream := by
    refine orNil_getD fun f hf => ?_
    obtain ⟨up, hup, rfl⟩ := Option.map_eq_some_iff.mp hf
    exact shortenUpstream_ne_nil (h.upstream up hup)
  have hupstream : orNil (r.upstream.getD []) = r.upstream :=
    orNil_getD fun up hup => (h.upstream up hup).ne_nil
  rw [Client.localBranch, recordFields_line h, localBranch]
  simp only [fields, List.map_cons, List.map_nil, List.getElem?_cons_zero, List.getElem?_cons_succ,
    Option.join_some, hhead, hshort, hupstream, orNil_of_ne_nil h.name_ne_nil,
    orNil_of_ne_nil h.refname.ne_nil]
  rfl

/-- The mark for the current branch is read back. -/
theorem headp_localBranch (r : BranchReport) : r.localBranch.headp = r.head := by
  have hmark : (some (if r.head then ['*'] else [' ']) = some ['*']) ↔ r.head = true := by
    rcases r.head with _ | _ <;> decide
  rw [LocalBranch.headp, localBranch]
  simp only [hmark, Bool.decide_eq_true]

end BranchReport

/-! ## Counts -/

section

variable {c : Char} {word : Text}

/-- A count is not found in a text without the first character of its word. -/
theorem matchCount_append_of_notMem {front : Text} (h : c ∉ front) (text : Text) :
    matchCount (c :: word) (front ++ text) = matchCount (c :: word) text := by
  induction front with
  | nil => rfl
  | cons d front ih =>
    obtain ⟨hne, hfront⟩ := not_or.mp (List.mem_cons.not.mp h)
    have hstart : (c :: word).isPrefixOf (d :: (front ++ text)) = false := by
      simp [List.isPrefixOf, hne]
    rw [List.cons_append, matchCount, hstart]
    simpa using ih hfront

theorem matchCount_of_notMem {text : Text} (h : c ∉ text) : matchCount (c :: word) text = none := by
  have happend : matchCount (c :: word) (text ++ []) = matchCount (c :: word) [] :=
    matchCount_append_of_notMem h []
  rwa [List.append_nil] at happend

/-- The digits of a printed number are those up to what follows it. -/
theorem takeWhile_decimal (n : ℕ) {rest : Text} (hrest : ∀ d ∈ rest.head?, d.isDigit = false) :
    (decimal n ++ rest).takeWhile Char.isDigit = decimal n := by
  rw [List.takeWhile_append_of_pos fun d hd => isDigit_of_mem_decimal hd]
  rcases rest with _ | ⟨d, rest⟩
  · exact List.append_nil _
  · rw [List.takeWhile_cons_of_neg (by simp [hrest d rfl]), List.append_nil]

/-- A printed count behind its word is read back. -/
theorem matchCount_decimal (n : ℕ) {rest : Text} (hrest : ∀ d ∈ rest.head?, d.isDigit = false) :
    matchCount (c :: word) (c :: word ++ (decimal n ++ rest)) = some (decimal n) := by
  have hstart : (c :: word).isPrefixOf (c :: word ++ (decimal n ++ rest)) = true :=
    List.isPrefixOf_iff_prefix.mpr (List.prefix_append _ _)
  have hdigits : ((c :: word ++ (decimal n ++ rest)).drop (c :: word).length).takeWhile Char.isDigit
      = decimal n := by
    rw [List.drop_left, takeWhile_decimal n hrest]
  rw [List.cons_append] at hstart hdigits ⊢
  rw [matchCount, hdigits]
  exact if_pos ⟨hstart, Nat.toDigits_ne_nil⟩

end

theorem aheadWord : "ahead ".toList = 'a' :: "head ".toList := by decide

theorem behindWord : "behind ".toList = 'b' :: "ehind ".toList := by decide

/-- The count of a word that comes first in the brackets. -/
theorem matchCount_first {word : Text} {c : Char} (hword : c ≠ '[') (n : ℕ) {rest : Text}
    (hrest : ∀ d ∈ rest.head?, d.isDigit = false) :
    matchCount (c :: word) ('[' :: (c :: word ++ (decimal n ++ rest))) = some (decimal n) := by
  have hopen : c ∉ ['['] := fun h => hword (List.mem_singleton.mp h)
  exact (matchCount_append_of_notMem hopen _).trans (matchCount_decimal n hrest)

/-- The count of commits ahead comes first. -/
theorem trackText_ahead {ahead : ℕ} (h : ahead ≠ 0) (behind : ℕ) :
    ∃ rest : Text, (∀ d ∈ rest.head?, d.isDigit = false) ∧
      trackText (.counts ahead behind) = '[' :: ("ahead ".toList ++ (decimal ahead ++ rest)) := by
  have hopen : "[ahead ".toList = '[' :: "ahead ".toList := by decide
  by_cases hbehind : behind = 0
  · refine ⟨[']'], by simp, ?_⟩
    rw [trackText, if_neg (by simp [hbehind]), if_pos h, hopen]
    simp only [List.cons_append, List.append_assoc]
  · refine ⟨", behind ".toList ++ (decimal behind ++ [']']), ?_, ?_⟩
    · intro d hd
      obtain rfl : ',' = d := Option.some.inj hd
      rfl
    · rw [trackText, if_pos ⟨h, hbehind⟩, hopen]
      simp only [List.cons_append, List.append_assoc]

/-- In front of the count of commits behind, no character could begin its word. -/
theorem trackText_behind {behind : ℕ} (h : behind ≠ 0) (ahead : ℕ) :
    ∃ front : Text, 'b' ∉ front ∧
      trackText (.counts ahead behind) =
        front ++ ("behind ".toList ++ (decimal behind ++ [']'])) := by
  by_cases hahead : ahead = 0
  · refine ⟨['['], by decide, ?_⟩
    have hopen : "[behind ".toList = '[' :: "behind ".toList := by decide
    rw [trackText, if_neg (by simp [hahead]), if_neg (not_not.mpr hahead), if_pos h, hopen]
    simp only [List.cons_append, List.append_assoc, List.nil_append]
  · refine ⟨"[ahead ".toList ++ (decimal ahead ++ [',', ' ']), ?_, ?_⟩
    · intro hmem
      rcases List.mem_append.mp hmem with hword | hmem
      · exact absurd hword (by decide)
      rcases List.mem_append.mp hmem with hdigits | hcomma
      · exact notMem_decimal rfl ahead hdigits
      · exact absurd hcomma (by decide)
    · have hcomma : ", behind ".toList = [',', ' '] ++ "behind ".toList := by decide
      rw [trackText, if_pos ⟨hahead, h⟩, hcomma]
      simp only [List.append_assoc]

theorem orNil_cons (c : Char) (field : Text) : orNil (c :: field) = some (c :: field) :=
  orNil_of_ne_nil (List.cons_ne_nil _ _)

/-- Nothing is read where the word is not. -/
theorem bind_matchCount_of_notMem {c : Char} {word text : Text} (h : c ∉ text) :
    (orNil text).bind (matchCount (c :: word)) = none := by
  rw [orNil]
  split
  · rfl
  · exact matchCount_of_notMem h

/-- The counts are read back, or nothing if there is no such word. -/
theorem matchCount_ahead (track : Track) :
    (orNil (trackText track)).bind (matchCount "ahead ".toList) = countShown (aheadCount track) := by
  rcases track with _ | ⟨ahead, behind⟩ | _
  · rfl
  · rw [aheadCount, countShown]
    by_cases hahead : ahead = 0
    · have hnotMem : 'a' ∉ trackText (.counts ahead behind) := by
        rw [trackText, if_neg (by simp [hahead]), if_neg (not_not.mpr hahead)]
        split
        · simp [notMem_decimal]
        · exact List.not_mem_nil
      rw [if_pos hahead, aheadWord]
      exact bind_matchCount_of_notMem hnotMem
    · obtain ⟨rest, hrest, htext⟩ := trackText_ahead hahead behind
      rw [if_neg hahead, htext, orNil_cons, Option.bind_some, aheadWord]
      exact matchCount_first (by decide) ahead hrest
  · decide

/-- The count of commits behind is read back from what is written of the tracking. -/
theorem matchCount_behind (track : Track) :
    (orNil (trackText track)).bind (matchCount "behind ".toList) =
      countShown (behindCount track) := by
  rcases track with _ | ⟨ahead, behind⟩ | _
  · rfl
  · rw [behindCount, countShown]
    by_cases hbehind : behind = 0
    · have hnotMem : 'b' ∉ trackText (.counts ahead behind) := by
        rw [trackText, if_neg (by simp [hbehind]), if_neg (not_not.mpr hbehind)]
        split
        · simp [notMem_decimal]
        · exact List.not_mem_nil
      rw [if_pos hbehind, behindWord]
      exact bind_matchCount_of_notMem hnotMem
    · obtain ⟨front, hfront, htext⟩ := trackText_behind hbehind ahead
      rw [if_neg hbehind, htext, orNil_of_ne_nil (by simp), Option.bind_some, behindWord,
        matchCount_append_of_notMem hfront]
      exact matchCount_decimal behind (by simp)
  · decide

/-- `[gone]` is no other track. -/
theorem trackText_eq_gone_iff (track : Track) :
    orNil (trackText track) = some "[gone]".toList ↔ track = .gone := by
  rcases track with _ | ⟨ahead, behind⟩ | _
  · exact iff_of_false (by decide) (by decide)
  · refine iff_of_false (fun hgone => ?_) (fun h => nomatch h)
    have hg : 'g' ∉ trackText (.counts ahead behind) :=
      notMem_trackText_counts rfl (by decide) ahead behind
    rw [orNil] at hgone
    split at hgone
    · cases hgone
    · rw [Option.some.inj hgone] at hg
      exact hg (by decide)
  · exact iff_of_true (by decide) rfl

/-! ## The list -/

variable {δ : Type} {lg : Libgit2 δ}

/-- The order of the answers is that of the calls. -/
theorem appendBranchRecord_eq {r : BranchReport} {ref : Reference} (h : r.Of lg ref) (out : Text) :
    appendBranchRecord lg ref out = (0, out ++ (r.line ++ ['\n'])) := by
  rw [appendBranchRecord, h.shortName]
  dsimp only
  rw [h.upstream]
  dsimp only
  rw [h.track]
  dsimp only
  rw [h.subject, h.name, BranchReport.line, BranchReport.front, BranchReport.fields, h.head]
  simp only [List.dropLast_cons_cons, List.dropLast_singleton, terminated_cons, terminated_nil,
    decide_eq_true_eq, List.append_assoc, List.cons_append, List.nil_append]

/-- The loop of the server writes one line for each report. -/
theorem branchLoop_eq {reports : List BranchReport} {refs : List Reference}
    (h : List.Forall₂ (fun r ref => BranchReport.Of r lg ref) reports refs) (last : ℤ) (out : Text) :
    branchLoop lg last refs out = (if last = gitIterover then 0 else last,
      out ++ terminated '\n' (reports.map BranchReport.line)) := by
  induction h generalizing out with
  | nil => rw [branchLoop, List.map_nil, terminated_nil, List.append_nil]
  | cons hr _ ih =>
    rw [branchLoop, appendBranchRecord_eq hr, List.map_cons, terminated_cons]
    dsimp only
    rw [if_neg (lt_irrefl 0), ih]
    simp only [List.append_assoc, List.singleton_append]

/-- **Every branch is read back as the server found it**: its ten fields, its counts, and whether its
upstream is gone. -/
theorem branches_round_trip {reports : List BranchReport} {refs : List Reference}
    (hrefs : lg.branchIterator = .ok ⟨refs, gitIterover⟩)
    (hreports : List.Forall₂ (fun r ref => BranchReport.Of r lg ref) reports refs)
    (hwf : ∀ r ∈ reports, r.WellFormed) :
    (getBranchList lg []).1 = 0 ∧
      (splitString '\n' (getBranchList lg []).2).map recordFields =
        reports.map (fun r => r.fields.map orNil) ∧
      (∀ insertRefname, magitRefsFormatLocalBranches insertRefname (getBranchList lg []).2 =
        (reports.filter fun r => insertRefname r.name).map BranchReport.localBranch) ∧
      ∀ r ∈ reports, r.localBranch.headp = r.head ∧
        r.localBranch.uAhead = countShown (aheadCount r.track) ∧
        r.localBranch.uBehind = countShown (behindCount r.track) ∧
        (r.localBranch.uGone = true ↔ r.track = .gone) := by
  have hlist : getBranchList lg [] = (0, terminated '\n' (reports.map BranchReport.line)) := by
    rw [getBranchList, hrefs]
    exact branchLoop_eq hreports gitIterover []
  have hlines : splitString '\n' (getBranchList lg []).2 = reports.map BranchReport.line := by
    rw [hlist, splitString_terminated]
    · refine List.filter_eq_self.mpr fun line hline => ?_
      obtain ⟨r, -, rfl⟩ := List.mem_map.mp hline
      exact decide_eq_true r.line_ne_nil
    · intro line hline
      obtain ⟨r, hr, rfl⟩ := List.mem_map.mp hline
      exact (hwf r hr).notMem_line
  refine ⟨by rw [hlist], ?_, fun insertRefname => ?_, fun r _ => ⟨?_, ?_, ?_, ?_⟩⟩
  · rw [hlines, List.map_map]
    exact List.map_congr_left fun r hr => BranchReport.recordFields_line (hwf r hr)
  · rw [magitRefsFormatLocalBranches, hlines, List.filterMap_map, ← List.filterMap_eq_map,
      List.filterMap_filter]
    refine List.filterMap_congr fun r hr => ?_
    rw [Function.comp_apply, BranchReport.localBranch_line (hwf r hr)]
    rfl
  · exact r.headp_localBranch
  · exact matchCount_ahead r.track
  · exact matchCount_behind r.track
  · rw [LocalBranch.uGone, decide_eq_true_eq]
    exact trackText_eq_gone_iff r.track

namespace TwoBranches

/-- The current branch, of which twelve commits are new. -/
def master : BranchReport :=
  ⟨"master".toList, true, some "refs/remotes/origin/master".toList, .counts 12 3, "Begin".toList⟩

/-- Its upstream has been deleted. -/
def topic : BranchReport :=
  ⟨"topic".toList, false, some "refs/remotes/origin/topic".toList, .gone, "Begin".toList⟩

/-- A repository with two branches. -/
def libgit2 : Libgit2 Unit :=
  { RefStore.oneCommit.libgit2 with
    branchIterator := .ok ⟨[⟨master.refname, .direct "c0ffee".toList⟩,
      ⟨topic.refname, .direct "c0ffee".toList⟩], gitIterover⟩
    branchIsHead := fun ref => if ref.name = master.refname then 1 else 0
    branchUpstreamName := fun name =>
      .ok ("refs/remotes/origin/".toList ++ stripPrefix "refs/heads/".toList name)
    referenceNameToId := fun name =>
      if name = "refs/remotes/origin/topic".toList then .error gitEnotfound
      else .ok "c0ffee".toList
    graphAheadBehind := fun _ _ => .ok (12, 3)
    commitLookup := fun _ => .ok ⟨none, none, "Begin".toList⟩ }

theorem of_master : master.Of libgit2 ⟨master.refname, .direct "c0ffee".toList⟩ where
  name := rfl
  shortName := by decide
  head := by decide
  upstream := by decide
  track := by decide
  subject := by decide

theorem of_topic : topic.Of libgit2 ⟨topic.refname, .direct "c0ffee".toList⟩ where
  name := rfl
  shortName := by decide
  head := by decide
  upstream := by decide
  track := by decide
  subject := by decide

theorem wellFormed_master : master.WellFormed where
  refname := isRefName_of_all (by decide) (by decide) (by decide)
  upstream := by
    rintro up ⟨⟩
    exact isRefName_of_all (by decide) (by decide) (by decide)
  subject := by decide

theorem wellFormed_topic : topic.WellFormed where
  refname := isRefName_of_all (by decide) (by decide) (by decide)
  upstream := by
    rintro up ⟨⟩
    exact isRefName_of_all (by decide) (by decide) (by decide)
  subject := by decide

/-- The two branches of the example are read back from the response. -/
theorem branches_read_back :
    magitRefsFormatLocalBranches (fun _ => true) (getBranchList libgit2 []).2 =
      [master.localBranch, topic.localBranch] :=
  (branches_round_trip rfl (.cons of_master (.cons of_topic .nil)) (by
    simp only [List.forall_mem_cons]
    exact ⟨wellFormed_master, wellFormed_topic, fun _ hr => absurd hr List.not_mem_nil⟩)).2.2.1 _

end TwoBranches

end Magit.Client
