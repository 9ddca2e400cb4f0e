import Magit.Emacs.SplitString
import Magit.Git.Worker

/-!
# Client/Untracked — the untracked files of the server's status

`magit-insert-untracked-files` looks at each item of the status by itself and takes it for an
untracked file if it begins with a question mark.  That is right as long as an untracked path has
no other flag that shows instead, and no old path of a rename begins that way
(`untracked_shown_iff`).
-/

namespace Magit.Client

open Emacs Git

/-- What the `lambda` makes of an item; `none` is a signal. -/
def untrackedFile (line : Text) : Option (List Text) :=
  match line with
  | [] => none
  | c :: _ => if c = '?' then (substring line 3).map fun file => [file] else some []

/-- `(mapcan (lambda (line) …) lines)`. -/
def untrackedFiles : List Text → Option (List Text)
  | [] => some []
  | line :: lines =>
    match untrackedFile line, untrackedFiles lines with
    | some files, some files' => some (files ++ files')
    | _, _ => none

/-- The files `magit-insert-untracked-files` lists if a response has the field `status`. -/
def magitInsertUntrackedFiles (status : Text) : Option (List Text) :=
  untrackedFiles (splitString nul status)

/-! ## The items of a status -/

/-- The flags that give an entry a letter on the index side. -/
def gitStatusIndex : UInt32 :=
  gitStatusIndexNew ||| gitStatusIndexModified ||| gitStatusIndexDeleted ||| gitStatusIndexRenamed
    ||| gitStatusIndexTypechange

/-- The item of an entry's path. -/
def pathItem (e : StatusEntry) (path : Text) : Text :=
  (statusLetters e.status).1 :: (statusLetters e.status).2 :: ' ' :: path

/-- The items of an entry's record. -/
def statusItems (e : StatusEntry) : List Text :=
  if e.status = 0 then []
  else
    match statusPaths e with
    | (none, _) => []
    | (some path, oldPath) => pathItem e path :: oldPath.toList

/-- A record of the response is its items, each ended by NUL. -/
theorem statusRecord_eq (e : StatusEntry) : statusRecord e = terminated nul (statusItems e) := by
  unfold statusRecord statusItems
  split
  · rfl
  · rcases statusPaths e with ⟨_ | path, _ | oldPath⟩ <;> simp [pathItem]

/-- The response is the items of all entries, each ended by NUL. -/
theorem getStatusPorcelainZ_eq {δ : Type} {lg : Libgit2 δ} {entries : List StatusEntry}
    (h : lg.statusListNew = .ok entries) :
    (getStatusPorcelainZ lg []).2 = terminated nul (entries.flatMap statusItems) := by
  have hfold : ∀ out : Text, entries.foldl (fun out e => out ++ statusRecord e) out
      = out ++ terminated nul (entries.flatMap statusItems) := by
    intro out
    rw [terminated, List.flatMap_assoc, List.foldl_append_eq_append, ← List.flatMap_def,
      funext statusRecord_eq]
    rfl
  rw [getStatusPorcelainZ, h]
  exact hfold []

/-- The paths libgit2 reports about an entry. -/
def entryPaths (e : StatusEntry) : List Text :=
  (e.headToIndex.toList ++ e.indexToWorkdir.toList).flatMap fun delta =>
    delta.oldPath.toList ++ delta.newPath.toList

theorem mem_entryPaths {e : StatusEntry} {path : Text}
    (h : (statusPaths e).1 = some path ∨ (statusPaths e).2 = some path) : path ∈ entryPaths e := by
  rcases e with ⟨status, _ | ⟨_ | o, _ | n⟩, _ | ⟨_ | o', _ | n'⟩⟩ <;>
    simp [entryPaths, statusPaths] at h ⊢ <;> grind

theorem nul_notMem_letters (s : UInt32) :
    nul ≠ (statusLetters s).1 ∧ nul ≠ (statusLetters s).2 := by
  unfold statusLetters
  constructor <;> split_ifs <;> simp [nul]

/-- The letter of the first index flag that is set. -/
def indexLetter (s : UInt32) : Char :=
  if hasFlag s gitStatusIndexNew then 'A'
  else if hasFlag s gitStatusIndexModified then 'M'
  else if hasFlag s gitStatusIndexDeleted then 'D'
  else if hasFlag s gitStatusIndexRenamed then 'R'
  else if hasFlag s gitStatusIndexTypechange then 'T'
  else ' '

/-- **An entry shows a question mark first exactly if it is untracked and has no flag that shows
instead.** -/
theorem statusLetters_fst_eq (s : UInt32) :
    (statusLetters s).1 = '?' ↔ hasFlag s gitStatusWtNew = true
      ∧ hasFlag s gitStatusIndex = false ∧ hasFlag s gitStatusConflicted = false := by
  have hx : indexLetter s ≠ '?' := by
    unfold indexLetter
    split_ifs <;> decide
  have hletters : statusLetters s = if hasFlag s gitStatusConflicted then ('U', 'U') else
      (if hasFlag s gitStatusWtNew && !hasFlag s gitStatusIndex then '?' else indexLetter s, _) :=
    rfl
  rw [hletters, apply_ite Prod.fst]
  cases hasFlag s gitStatusConflicted <;> cases hasFlag s gitStatusWtNew <;>
    cases hasFlag s gitStatusIndex <;> simp [hx]

/-- An item has no NUL in it if no path has. -/
theorem nul_notMem_statusItems {e : StatusEntry} (h : ∀ path ∈ entryPaths e, nul ∉ path) :
    ∀ item ∈ statusItems e, nul ∉ item := by
  unfold statusItems
  split
  · simp
  · rcases hpaths : statusPaths e with ⟨_ | path, oldPath⟩
    · simp
    · intro item hitem
      rcases List.mem_cons.mp hitem with rfl | hold
      · have hpath := h path (mem_entryPaths (.inl (by rw [hpaths])))
        have hletters := nul_notMem_letters e.status
        simp only [pathItem, List.mem_cons, not_or] at hletters ⊢
        exact ⟨hletters.1, hletters.2, by decide, hpath⟩
      · rw [Option.mem_toList] at hold
        exact h item (mem_entryPaths (.inr (by rw [hpaths]; exact hold)))

/-! ## Files and what they are taken from -/

/-- The path of an entry that is untracked. -/
def untrackedPath (e : StatusEntry) : Option Text :=
  if hasFlag e.status gitStatusWtNew then (statusPaths e).1 else none

/-- Whether an item is taken for an untracked file. -/
def taken (item : Text) : Bool := item.head? = some '?'

/-- The untracked files are exactly the untracked entries' paths in order, and each is taken from the
item of its own entry's path; no other item is taken for one, nor is anything signalled. -/
structure UntrackedShown (entries : List StatusEntry) (status : Text) : Prop where
  files : magitInsertUntrackedFiles status = some (entries.filterMap untrackedPath)
  items : ∀ e ∈ entries, (statusItems e).filter taken
    = ((untrackedPath e).map (pathItem e)).toList

/-- No flag shows instead of the untracked path's, and no old path begins with a question mark; an
entry that has no flags or no path has no record. -/
def Plain (e : StatusEntry) : Prop :=
  e.status ≠ 0 → (statusPaths e).1.isSome →
    (hasFlag e.status gitStatusWtNew = true →
        hasFlag e.status gitStatusIndex = false ∧ hasFlag e.status gitStatusConflicted = false)
      ∧ ∀ old, (statusPaths e).2 = some old → old.head? ≠ some '?'

/-- The item of an entry is taken exactly if it is new in the working tree only. -/
theorem taken_pathItem (e : StatusEntry) (path : Text) :
    taken (pathItem e path) = true ↔ hasFlag e.status gitStatusWtNew = true
      ∧ hasFlag e.status gitStatusIndex = false ∧ hasFlag e.status gitStatusConflicted = false := by
  rw [← statusLetters_fst_eq, taken, pathItem]
  simp

/-- **The right items of an entry are taken exactly if it is plain.** -/
theorem filter_taken_iff (e : StatusEntry) :
    (statusItems e).filter taken = ((untrackedPath e).map (pathItem e)).toList ↔ Plain e := by
  by_cases hzero : e.status = 0
  · have hnew : hasFlag 0 gitStatusWtNew = false := by decide
    simp [statusItems, untrackedPath, Plain, hzero, hnew]
  · rcases hpaths : statusPaths e with ⟨_ | path, oldPath⟩
    · simp [statusItems, untrackedPath, Plain, hzero, hpaths]
    · have hold : (oldPath.toList.filter taken = [])
          ↔ ∀ old, oldPath = some old → old.head? ≠ some '?' := by
        cases oldPath <;> simp [taken]
      have hplain : Plain e ↔ (hasFlag e.status gitStatusWtNew = true → taken (pathItem e path))
          ∧ oldPath.toList.filter taken = [] := by
        simp only [Plain, hpaths, hold, taken_pathItem, hzero, ne_eq, not_false_eq_true,
          Option.isSome_some, true_imp_iff, and_congr_left_iff]
        exact fun _ => forall_congr' fun hnew => (and_iff_right hnew).symm
      rw [hplain, statusItems, if_neg hzero, hpaths, untrackedPath, hpaths, List.filter_cons]
      by_cases htaken : taken (pathItem e path) = true
      · have hnew := ((taken_pathItem e path).mp htaken).1
        simp [htaken, hnew]
      · by_cases hnew : hasFlag e.status gitStatusWtNew = true
        · rw [if_neg htaken, if_pos hnew]
          refine ⟨fun heq => absurd ?_ htaken, fun h => absurd (h.1 hnew) htaken⟩
          have hmem : pathItem e path ∈ oldPath.toList.filter taken := by
            rw [heq]
            exact List.mem_singleton_self _
          exact (List.mem_filter.mp hmem).2
        · simp [htaken, hnew]

/-! ## What is listed -/

/-- The files of two lists of lines are those of the first and then those of the second. -/
theorem untrackedFiles_append (lines lines' : List Text) :
    untrackedFiles (lines ++ lines') = match untrackedFiles lines, untrackedFiles lines' with
      | some files, some files' => some (files ++ files')
      | _, _ => none := by
  induction lines with
  | nil =>
    rw [List.nil_append, untrackedFiles]
    cases untrackedFiles lines' <;> rfl
  | cons line lines ih =>
    rw [List.cons_append, untrackedFiles, untrackedFiles, ih]
    cases untrackedFile line <;> cases untrackedFiles lines <;> cases untrackedFiles lines' <;>
      simp

/-- What is not taken adds nothing. -/
theorem untrackedFiles_filter (lines : List Text) (h : ∀ line ∈ lines, line ≠ []) :
    untrackedFiles lines = untrackedFiles (lines.filter taken) := by
  induction lines with
  | nil => rfl
  | cons line lines ih =>
    have hrest := ih fun l hl => h l (List.mem_cons_of_mem _ hl)
    cases line with
    | nil => exact absurd rfl (h [] List.mem_cons_self)
    | cons c line =>
      by_cases hc : c = '?'
      · rw [List.filter_cons_of_pos (by simp [taken, hc]), untrackedFiles, untrackedFiles, hrest]
      · rw [List.filter_cons_of_neg (by simp [taken, hc]), untrackedFiles, untrackedFile, if_neg hc,
          ← hrest]
        cases untrackedFiles lines <;> rfl

theorem untrackedFile_pathItem {e : StatusEntry} {path : Text}
    (h : taken (pathItem e path) = true) : untrackedFile (pathItem e path) = some [path] := by
  simp only [pathItem, taken, List.head?_cons, Option.some.injEq, decide_eq_true_eq] at h
  simp [untrackedFile, pathItem, h, substring]

/-- Of a plain entry the untracked path is listed. -/
theorem untrackedFiles_statusItems {e : StatusEntry} (h : Plain e) :
    untrackedFiles ((statusItems e).filter taken) = some (untrackedPath e).toList := by
  have hitems := (filter_taken_iff e).mpr h
  rw [hitems]
  rcases hpath : untrackedPath e with _ | path
  · rfl
  · have htaken : taken (pathItem e path) = true := by
      have hmem : pathItem e path ∈ (statusItems e).filter taken := by
        rw [hitems, hpath]
        exact List.mem_singleton_self _
      exact (List.mem_filter.mp hmem).2
    change untrackedFiles [pathItem e path] = _
    rw [untrackedFiles, untrackedFile_pathItem htaken]
    rfl

/-- Plain entries yield their untracked paths, in order. -/
theorem untrackedFiles_flatMap {entries : List StatusEntry} (h : ∀ e ∈ entries, Plain e) :
    untrackedFiles ((entries.flatMap statusItems).filter taken)
      = some (entries.filterMap untrackedPath) := by
  induction entries with
  | nil => rfl
  | cons e entries ih =>
    rw [List.flatMap_cons, List.filter_append, untrackedFiles_append,
      untrackedFiles_statusItems (h e List.mem_cons_self),
      ih fun e he => h e (List.mem_cons_of_mem _ he), List.filterMap_cons]
    cases untrackedPath e <;> rfl

/-- **The untracked files are listed exactly**, and from the right items, if and only if every entry
is plain. -/
theorem untracked_shown_iff {δ : Type} {lg : Libgit2 δ} {entries : List StatusEntry}
    (h : lg.statusListNew = .ok entries)
    (hnul : ∀ e ∈ entries, ∀ path ∈ entryPaths e, nul ∉ path) :
    UntrackedShown entries (getStatusPorcelainZ lg []).2 ↔ ∀ e ∈ entries, Plain e := by
  refine ⟨fun hs e he => (filter_taken_iff e).mp (hs.items e he), fun hplain => ⟨?_, ?_⟩⟩
  · have hitems : ∀ item ∈ entries.flatMap statusItems, nul ∉ item := by
      intro item hitem
      obtain ⟨e, he, hmem⟩ := List.mem_flatMap.mp hitem
      exact nul_notMem_statusItems (hnul e he) item hmem
    rw [getStatusPorcelainZ_eq h, magitInsertUntrackedFiles, splitString_terminated hitems,
      untrackedFiles_filter _ (by simp), List.filter_filter, ← untrackedFiles_flatMap hplain]
    refine congrArg untrackedFiles (List.filter_congr fun item _ => ?_)
    cases item <;> simp [taken]
  · exact fun e he => (filter_taken_iff e).mpr (hplain e he)

/-- The answers of libgit2 in a repository with these entries. -/
def withStatus (entries : List StatusEntry) : Libgit2 Unit :=
  { RefStore.oneCommit.libgit2 with statusListNew := .ok entries }

/-- A new file beside a modified one. -/
def newFile : List StatusEntry :=
  [⟨gitStatusWtModified, none, some ⟨some "a".toList, some "a".toList⟩⟩,
    ⟨gitStatusWtNew, none, some ⟨some "b".toList, some "b".toList⟩⟩]

/-- The new file of the example is shown. -/
theorem untracked_shown_newFile :
    UntrackedShown newFile (getStatusPorcelainZ (withStatus newFile) []).2 := by
  have hentries : (withStatus newFile).statusListNew = .ok newFile := rfl
  refine (untracked_shown_iff hentries (by decide)).mpr ?_
  simp only [newFile, List.forall_mem_cons]
  exact ⟨fun _ _ => ⟨by decide, fun old h => absurd h (by simp [statusPaths])⟩,
    fun _ _ => ⟨by decide, fun old h => absurd h (by simp [statusPaths])⟩, by simp⟩

/-- A file that was taken out of the index and is still in the worktree. -/
def removedFromIndex : List StatusEntry :=
  [⟨gitStatusIndexDeleted ||| gitStatusWtNew, some ⟨some "a".toList, some "a".toList⟩,
    some ⟨some "a".toList, some "a".toList⟩⟩]

/-- It is untracked and is not listed. -/
theorem removed_untracked_missed :
    (getStatusPorcelainZ (withStatus removedFromIndex) []).2 = "D? a\x00".toList
      ∧ removedFromIndex.filterMap untrackedPath = ["a".toList]
      ∧ magitInsertUntrackedFiles (getStatusPorcelainZ (withStatus removedFromIndex) []).2 = some []
      ∧ ¬ UntrackedShown removedFromIndex (getStatusPorcelainZ (withStatus removedFromIndex) []).2 := by
  have hfiles : magitInsertUntrackedFiles (getStatusPorcelainZ (withStatus removedFromIndex) []).2
      = some [] := by decide
  refine ⟨by decide, by decide, hfiles, fun h => ?_⟩
  exact absurd (hfiles.symm.trans h.files) (by decide)

/-- A staged rename of a file whose name begins with a question mark. -/
def renamedQuestion : List StatusEntry :=
  [⟨gitStatusIndexRenamed, some ⟨some "?a".toList, some "b".toList⟩, none⟩]

example : magitInsertUntrackedFiles (getStatusPorcelainZ (withStatus renamedQuestion) []).2
    = none := by decide

end Magit.Client
