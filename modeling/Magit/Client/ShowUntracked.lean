import Magit.Client.ConfigGet
import Magit.Client.Untracked

/-!
# Client/ShowUntracked — the section of untracked files, from a response or from `git`

Given a response, `magit-config-status-show-untracked-files` returns a list, which no pattern of
`magit-insert-untracked-files` matches, and the files are those of the whole work tree, a directory
standing for what is in it.  So the section is the one that `git` gives only as far as the local
value of the Git variable, the setting `all` and the file filter make no difference
(`same_section_iff`).
-/

namespace Magit.Client.ShowUntracked

open Emacs Git

/-! ## `magit-insert-untracked-files` -/

/-- A value of `magit-status-show-untracked-files`; `t` stands for all that are not named. -/
inductive Value
  | nil
  | no
  | all
  | t
  deriving DecidableEq

/-- The variable in a buffer. -/
structure Variable where
  isLocal : Bool
  value : Value

/-- `(or …)`. -/
def Value.or : Value → Value → Value
  | nil, v => v
  | v, _ => v

/-- Nothing is to be inserted. -/
def Value.hides (v : Value) : Bool := v = nil || v = no

/-- The two fields of a response. -/
structure Info where
  configStatusShowUntrackedFiles : Text
  status : Text

/-- What `git` prints: for `git config`, and for `git status -z --porcelain` with an argument of
`--untracked-files` and the arguments behind `--`. -/
structure Processes where
  config : GitConfig
  status : Text → List Text → Text

/-- A string, or a list of strings. -/
inductive ConfigValue
  | str (s : Text)
  | list (l : List Text)

/-- The `pcase` of a value of the Git variable. -/
def ConfigValue.toValue : ConfigValue → Value
  | str s =>
    if ["no".toList, "off".toList, "false".toList, "0".toList].contains s then .no
    else if ["yes".toList, "on".toList, "true".toList, "1".toList].contains s then .t
    else if s = "all".toList then .all
    else .nil
  | list _ => .nil

/-- The files of a section, of which the body lists the first `magit-status-file-list-limit`. -/
def FilesSection : Type := { files : List Text // files ≠ [] }

instance : DecidableEq FilesSection :=
  inferInstanceAs (DecidableEq { files : List Text // files ≠ [] })

/-- There is no section without files. -/
def FilesSection.of (files : List Text) : Option FilesSection :=
  if h : files ≠ [] then some ⟨files, h⟩ else none

/-- What `magit-insert-files` asks for: `(and magit-buffer-diff-files (cons "--" …))`. -/
def filterArgs (diffFiles : List Text) : List Text :=
  if diffFiles = [] then [] else "--".toList :: diffFiles

/-- `magit-insert-files`; `none` is a signal. -/
def magitInsertFiles (diffFiles : List Text) (fn : List Text → Option (List Text)) :
    Option (Option FilesSection) :=
  (fn (filterArgs diffFiles)).map FilesSection.of

section

variable (downcase : Text → Text) (confs : List Text) (config : GitConfig) (p : Processes)
  (var : Variable) (diffFiles : List Text)

/-- The local value of the Git variable. -/
def localValue : ConfigValue :=
  match magitGet downcase config confs true
    [some "--local".toList, some "status.showUntrackedFiles".toList] with
  | some s => .str s
  | none => .list []

/-- `magit-config-status-show-untracked-files`. -/
def magitConfigStatusShowUntrackedFiles : Option Info → ConfigValue
  | some info => .list (splitString nul info.configStatusShowUntrackedFiles)
  | none => localValue downcase confs p.config

/-- The value that decides, given what the Git variable says. -/
def decided (gitValue : ConfigValue) : Value :=
  ((if var.isLocal then var.value else .nil).or gitValue.toValue).or var.value

/-- The argument of `--untracked-files`. -/
def untrackedFilesArg (v : Value) : Text := if v = .all then "all".toList else "normal".toList

/-- `magit-insert-untracked-files`, with a response or without one. -/
def magitInsertUntrackedFiles (gitInfo : Option Info) : Option (Option FilesSection) :=
  let value := decided var (magitConfigStatusShowUntrackedFiles downcase confs p gitInfo)
  if value.hides then some none
  else
    magitInsertFiles diffFiles fun files =>
      untrackedFiles <|
        match gitInfo with
        | some info => splitString nul info.status
        | none => magitGitItems (p.status (untrackedFilesArg value) files)

/-! ## Where the two agree -/

/-- What is taken for untracked of what `git status` prints for a filter. -/
def filesOfGit (v : Value) : Option (List Text) :=
  untrackedFiles (magitGitItems (p.status (untrackedFilesArg v) (filterArgs diffFiles)))

/-- What is taken for untracked of what libgit2 reports. -/
def filesOfLibgit2 (entries : List StatusEntry) : Option (List Text) :=
  untrackedFiles ((entries.flatMap statusItems).filter (· ≠ []))

/-- The Lisp variable by itself decides as it does together with the Git variable, and what there is
to be listed is the same; where only one of the two decides to list files, there are none. -/
def Alike (entries : List StatusEntry) : Prop :=
  let value := decided var (localValue downcase confs p.config)
  match var.value.hides, value.hides with
  | true, true => True
  | true, false => filesOfGit p diffFiles value = some []
  | false, true => filesOfLibgit2 entries = some []
  | false, false => filesOfLibgit2 entries = filesOfGit p diffFiles value

end

variable {downcase : Text → Text} {confs : List Text} {p : Processes} {var : Variable}
  {diffFiles : List Text} {δ : Type} {lg : Libgit2 δ} {entries : List StatusEntry}

/-- The response of the server. -/
def response (lg : Libgit2 δ) : Info :=
  ⟨(getConfigStatusShowUntrackedFiles lg []).2, (getStatusPorcelainZ lg []).2⟩

/-- **With a response the Git variable decides nothing.** -/
theorem decided_list (var : Variable) (l : List Text) : decided var (.list l) = var.value := by
  rw [decided, ConfigValue.toValue]
  rcases var with ⟨_ | _, _ | _ | _ | _⟩ <;> rfl

theorem FilesSection.of_injective : Function.Injective FilesSection.of := by
  intro l l' h
  rw [FilesSection.of, FilesSection.of] at h
  split at h <;> split at h
  · exact congrArg Subtype.val (Option.some.inj h)
  · cases h
  · cases h
  · rename_i hl hl'
    rw [not_not.mp hl, not_not.mp hl']

/-- A section without a response. -/
theorem magitInsertUntrackedFiles_none :
    magitInsertUntrackedFiles downcase confs p var diffFiles none =
      if (decided var (localValue downcase confs p.config)).hides then some none
      else (filesOfGit p diffFiles (decided var (localValue downcase confs p.config))).map
        FilesSection.of := rfl

/-- A section from a response lists what libgit2 reports, whatever the filter. -/
theorem magitInsertUntrackedFiles_some (h : lg.statusListNew = .ok entries)
    (hnul : ∀ e ∈ entries, ∀ path ∈ entryPaths e, nul ∉ path) :
    magitInsertUntrackedFiles downcase confs p var diffFiles (some (response lg)) =
      if var.value.hides then some none
      else (filesOfLibgit2 entries).map FilesSection.of := by
  have hitems : ∀ item ∈ entries.flatMap statusItems, nul ∉ item := by
    intro item hitem
    obtain ⟨e, he, hmem⟩ := List.mem_flatMap.mp hitem
    exact nul_notMem_statusItems (hnul e he) item hmem
  have hstatus : splitString nul (response lg).status =
      (entries.flatMap statusItems).filter (· ≠ []) := by
    rw [response, getStatusPorcelainZ_eq h, splitString_terminated hitems]
  rw [magitInsertUntrackedFiles, magitConfigStatusShowUntrackedFiles]
  dsimp only
  rw [decided_list, hstatus]
  rfl

theorem map_of_eq_iff (files : Option (List Text)) :
    some none = files.map FilesSection.of ↔ files = some [] := by
  have hempty : FilesSection.of [] = none := rfl
  rw [← hempty, ← Option.map_some (f := FilesSection.of),
    (Option.map_injective FilesSection.of_injective).eq_iff, eq_comm]

/-- In a repository the sections are the same if the two decide alike, and the files are alike. -/
theorem sections_eq_iff (h : lg.statusListNew = .ok entries)
    (hnul : ∀ e ∈ entries, ∀ path ∈ entryPaths e, nul ∉ path) :
    magitInsertUntrackedFiles downcase confs p var diffFiles (some (response lg)) =
        magitInsertUntrackedFiles downcase confs p var diffFiles none ↔
      Alike downcase confs p var diffFiles entries := by
  rw [magitInsertUntrackedFiles_some h hnul, magitInsertUntrackedFiles_none, Alike]
  rcases var.value.hides with _ | _ <;>
    rcases (decided var (localValue downcase confs p.config)).hides with _ | _
  · exact (Option.map_injective FilesSection.of_injective).eq_iff
  · exact eq_comm.trans (map_of_eq_iff _)
  · exact map_of_eq_iff _
  · exact iff_of_true rfl trivial

/-! ## Repositories in which `git` and libgit2 agree -/

/-- Neither value lists files; or both list them as libgit2 does, directories and all, and there is no
filter. -/
def Indifferent (var : Variable) (value : Value) (diffFiles : List Text) : Prop :=
  (var.value.hides = true ∧ value.hides = true) ∨
    var.value.hides = false ∧ value.hides = false ∧ value ≠ .all ∧ diffFiles = []

/-- Where the option does not matter, agreeing lists are shown alike. -/
theorem alike_of_indifferent
    (h : Indifferent var (decided var (localValue downcase confs p.config)) diffFiles)
    (hagree : filesOfLibgit2 entries = filesOfGit p [] .t) :
    Alike downcase confs p var diffFiles entries := by
  rw [Alike]
  rcases h with ⟨hlisp, hboth⟩ | ⟨hlisp, hboth, hall, rfl⟩
  · simp only [hlisp, hboth]
  · simp only [hlisp, hboth]
    rw [hagree, filesOfGit, filesOfGit, untrackedFilesArg, untrackedFilesArg, if_neg hall,
      if_neg (by decide)]

/-- A new directory with a file in it. -/
def newDirectory : List StatusEntry :=
  [⟨gitStatusWtNew, none, some ⟨some "d/".toList, some "d/".toList⟩⟩]

/-- What `git status` prints there; of a filter it is only used that the file matches it. -/
def newDirectoryStatus (arg : Text) (files : List Text) : Text :=
  if arg = "normal".toList ∧ files = [] then "?? d/\x00".toList else "?? d/f\x00".toList

/-- What git lists of a new directory: the files in it with `all` or behind a pathspec, else the
directory. -/
theorem filesOfGit_newDirectory (config : GitConfig) (diffFiles : List Text) (v : Value) :
    filesOfGit ⟨config, newDirectoryStatus⟩ diffFiles v =
      if v ≠ .all ∧ diffFiles = [] then some ["d/".toList] else some ["d/f".toList] := by
  have hdir : untrackedFiles (magitGitItems "?? d/\x00".toList) = some ["d/".toList] := by decide
  have hfile : untrackedFiles (magitGitItems "?? d/f\x00".toList) = some ["d/f".toList] := by decide
  have harg : untrackedFilesArg v = "normal".toList ↔ v ≠ .all := by cases v <;> decide
  have hargs : filterArgs diffFiles = [] ↔ diffFiles = [] := by
    rw [filterArgs]
    split
    · exact iff_of_true rfl ‹_›
    · exact iff_of_false (List.cons_ne_nil _ _) ‹_›
  change untrackedFiles (magitGitItems (newDirectoryStatus (untrackedFilesArg v)
    (filterArgs diffFiles))) = _
  simp only [newDirectoryStatus, harg, hargs]
  split
  · exact hdir
  · exact hfile

/-- The new directory tells apart the options that matter. -/
theorem indifferent_of_alike {config : GitConfig}
    (h : Alike downcase confs ⟨config, newDirectoryStatus⟩ var diffFiles newDirectory) :
    Indifferent var (decided var (localValue downcase confs config))
      diffFiles := by
  have hlibgit2 : filesOfLibgit2 newDirectory = some ["d/".toList] := by decide
  rw [Alike] at h
  rcases hlisp : var.value.hides with _ | _ <;>
    rcases hboth : (decided var
      (localValue downcase confs config)).hides with _ | _
  · simp only [hlisp, hboth] at h
    rw [hlibgit2, filesOfGit_newDirectory] at h
    split at h
    · exact Or.inr ⟨hlisp, hboth, ‹_›⟩
    · exact absurd h (by decide)
  · simp only [hlisp, hboth] at h
    rw [hlibgit2] at h
    cases h
  · simp only [hlisp, hboth] at h
    rw [filesOfGit_newDirectory] at h
    split at h <;> cases h
  · exact Or.inl ⟨hlisp, hboth⟩

/-- **In a repository the sections are the same exactly if** the Lisp variable decides alike by itself,
and the files are alike; **and in all repositories for which libgit2 and `git` report the same files**
exactly if neither the Git variable, nor the setting `all`, nor a filter makes a difference. -/
theorem same_section_iff (downcase : Text → Text) (confs : List Text) (config : GitConfig)
    (var : Variable) (diffFiles : List Text) :
    (∀ (status : Text → List Text → Text) (lg : Libgit2 Unit) (entries : List StatusEntry),
      lg.statusListNew = .ok entries → (∀ e ∈ entries, ∀ path ∈ entryPaths e, nul ∉ path) →
      (magitInsertUntrackedFiles downcase confs ⟨config, status⟩ var diffFiles (some (response lg)) =
          magitInsertUntrackedFiles downcase confs ⟨config, status⟩ var diffFiles none ↔
        Alike downcase confs ⟨config, status⟩ var diffFiles entries)) ∧
    ((∀ (status : Text → List Text → Text) (lg : Libgit2 Unit) (entries : List StatusEntry),
      lg.statusListNew = .ok entries → (∀ e ∈ entries, ∀ path ∈ entryPaths e, nul ∉ path) →
      filesOfLibgit2 entries = filesOfGit ⟨config, status⟩ [] .t →
      magitInsertUntrackedFiles downcase confs ⟨config, status⟩ var diffFiles (some (response lg)) =
        magitInsertUntrackedFiles downcase confs ⟨config, status⟩ var diffFiles none) ↔
      Indifferent var (decided var (localValue downcase confs config))
        diffFiles) := by
  refine ⟨fun status lg entries h hnul => sections_eq_iff h hnul, fun hsame => ?_,
    fun hindifferent status lg entries h hnul hagree => ?_⟩
  · have hnul : ∀ e ∈ newDirectory, ∀ path ∈ entryPaths e, nul ∉ path := by decide
    have hagree : filesOfLibgit2 newDirectory = filesOfGit ⟨config, newDirectoryStatus⟩ [] .t := by
      rw [filesOfGit_newDirectory]
      decide
    have hentries : (withStatus newDirectory).statusListNew = .ok newDirectory := rfl
    exact indifferent_of_alike
      ((sections_eq_iff hentries hnul).mp (hsame newDirectoryStatus _ _ hentries hnul hagree))
  · exact (sections_eq_iff h hnul).mpr (alike_of_indifferent hindifferent hagree)

/-- With the option unset the section is the same with a response and without one. -/
theorem section_same_unset :
    magitInsertUntrackedFiles id [] ⟨plainGit [], newDirectoryStatus⟩ ⟨false, .t⟩ []
        (some (response (withStatus newDirectory))) =
      magitInsertUntrackedFiles id [] ⟨plainGit [], newDirectoryStatus⟩ ⟨false, .t⟩ [] none := by
  have hagree : filesOfLibgit2 newDirectory = filesOfGit ⟨plainGit [], newDirectoryStatus⟩ [] .t := by
    rw [filesOfGit_newDirectory]
    decide
  have hindifferent : Indifferent ⟨false, .t⟩ (decided ⟨false, .t⟩ (localValue id [] (plainGit [])))
      [] := Or.inr ⟨by decide, by decide, by decide, rfl⟩
  exact ((same_section_iff id [] (plainGit []) ⟨false, .t⟩ []).1 newDirectoryStatus
    (withStatus newDirectory) newDirectory rfl (by decide)).mpr
    (alike_of_indifferent hindifferent hagree)

/-- `no`, in the local configuration. -/
def localNo : GitConfig := plainGit [⟨"status.showuntrackedfiles".toList, some "no".toList⟩]

/-- No untracked files are wanted in the repository, and with a response they are listed. -/
theorem section_despite_no :
    magitInsertUntrackedFiles id [] ⟨localNo, newDirectoryStatus⟩ ⟨false, .t⟩ [] none = some none ∧
      magitInsertUntrackedFiles id [] ⟨localNo, newDirectoryStatus⟩ ⟨false, .t⟩ []
          (some (response (withStatus newDirectory))) ≠
        magitInsertUntrackedFiles id [] ⟨localNo, newDirectoryStatus⟩ ⟨false, .t⟩ [] none := by
  have hlocal : (decided ⟨false, .t⟩ (localValue id [] localNo)).hides = true := by decide
  have hnone : magitInsertUntrackedFiles id [] ⟨localNo, newDirectoryStatus⟩ ⟨false, .t⟩ [] none =
      some none := by
    rw [magitInsertUntrackedFiles_none]
    exact if_pos hlocal
  have hentries : (withStatus newDirectory).statusListNew = .ok newDirectory := rfl
  have hfiles : filesOfLibgit2 newDirectory ≠ some [] := by decide
  refine ⟨hnone, ?_⟩
  rw [hnone, magitInsertUntrackedFiles_some hentries (by decide)]
  exact fun hsome => hfiles ((map_of_eq_iff _).mp hsome.symm)

end Magit.Client.ShowUntracked
