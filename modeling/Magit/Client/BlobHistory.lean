import Mathlib.Data.List.Nodup
import Mathlib.Logic.Function.Iterate
import Mathlib.Tactic.Common

/-!
# Client/BlobHistory — walking the versions of a file

Git reports a version as two lines, its hash and the file's name.  Of the two newest versions the
first is the ancestor of the worktree file, and is dropped along with the second where there is no
second.  The ancestor of a version is what git reports second of the versions behind it, which over
a merge need not be the next one of all (`walksVersions_iff`).
-/

namespace Magit.Blob

/-- The text of a line, without its newline. -/
abbrev Text := List Char

/-- A version of a file: the commit and the name it has there. -/
structure Version where
  hash : Text
  name : Text
  deriving DecidableEq

/-- `git log --follow --name-only` of a file, from a revision. -/
abbrev Log := Text → Text → List Version

/-- The revision that is shown when a file is. -/
def head : Text := "HEAD".toList

/-- The file or the blob that is visited. -/
inductive Visited
  | worktree (file : Text)
  | blob (version : Version)
  deriving DecidableEq

/-- What `magit-git-lines` returns for `--format=%H --name-only`. -/
def gitLines (versions : List Version) : List Text := versions.flatMap fun v => [v.hash, v.name]

/-- `magit-blob-ancestor` -/
def magitBlobAncestor (log : Log) (rev : Option Text) (file : Text) : List Text :=
  let lines := gitLines ((log (rev.getD head) file).take 2)
  if rev.isSome then lines.drop 2 else lines.take (lines.length - 2)

/-- The loop of `magit-blob-successor`. -/
def successorIn (rev : Text) : List Text → Option Version
  | hash :: name :: lines =>
    if lines.head? = some rev then some ⟨hash, name⟩ else successorIn rev lines
  | _ => none

/-- `magit-blob-successor` -/
def magitBlobSuccessor (log : Log) (rev file : Text) : Option Version :=
  successorIn rev (gitLines (log head file))

/-- `magit-blob-visit`, of a revision and a file. -/
def magitBlobVisit : List Text → Option Visited
  | [rev, file] => some (.blob ⟨rev, file⟩)
  | _ => none

/-- `magit-blob-previous`; none if it signals. -/
def magitBlobPrevious (log : Log) : Visited → Option Visited
  | .worktree file => magitBlobVisit (magitBlobAncestor log none file)
  | .blob v => magitBlobVisit (magitBlobAncestor log (some v.hash) v.name)

/-- `magit-blob-next`; none if it signals. -/
def magitBlobNext (log : Log) : Visited → Option Visited
  | .worktree _ => none
  | .blob v => some ((magitBlobSuccessor log v.hash v.name).elim (.worktree v.name) .blob)

/-- What git reports of the history of a file: all of it from HEAD, every commit once, and first the
one in which the file has its name. -/
structure Reports (log : Log) (file : Text) (history : List Version) : Prop where
  head : log head file = history
  once : ∀ rev file, ((log rev file).map Version.hash).Nodup
  newest : ∀ v ∈ history.head?, v.name = file
  nonempty : history ≠ []

/-- The versions are visited from the newest to the oldest, and back. -/
structure WalksVersions (log : Log) (file : Text) (history : List Version) : Prop where
  previous : ∀ k, (fun v => v.bind (magitBlobPrevious log))^[k + 1] (some (.worktree file))
    = history[k]?.map .blob
  next : ∀ k v, history[k + 1]? = some v →
    magitBlobNext log (.blob v) = history[k]?.map .blob
  newest : ∀ v ∈ history.head?, magitBlobNext log (.blob v) = some (.worktree file)

/-- What git reports from HEAD for the name of the second version has the first one in front of
it. -/
def Precedes (log : Log) (v w : Version) : Prop :=
  ∃ front back name, log head w.name = front ++ v :: ⟨w.hash, name⟩ :: back

/-- Of the versions that git reports from one on, this is the second, if there is one. -/
def Behind (log : Log) (v : Version) (older : Option Version) : Prop :=
  (log v.hash v.name)[1]? = older

section

variable {log : Log} {file rev : Text} {history versions : List Version} {v w : Version} {k : ℕ}

@[simp] theorem gitLines_cons (v : Version) (versions : List Version) :
    gitLines (v :: versions) = v.hash :: v.name :: gitLines versions := rfl

theorem head?_gitLines (versions : List Version) :
    (gitLines versions).head? = versions.head?.map Version.hash := by
  cases versions <;> rfl

/-! ## The older ones -/

/-- From a version the one that git reports behind it is visited. -/
theorem previous_blob (log : Log) (v : Version) :
    magitBlobPrevious log (.blob v) = (log v.hash v.name)[1]?.map .blob := by
  rw [magitBlobPrevious, magitBlobAncestor, Option.getD_some, Option.isSome_some, if_pos rfl]
  rcases log v.hash v.name with _ | ⟨u, _ | ⟨w, versions⟩⟩ <;> rfl

/-- From the file the newest version is visited, unless it is the only one. -/
theorem previous_worktree (h : Reports log file history) :
    magitBlobPrevious log (.worktree file)
      = if 2 ≤ history.length then history[0]?.map .blob else none := by
  rw [magitBlobPrevious, magitBlobAncestor, Option.getD_none, h.head]
  rcases history with _ | ⟨v, _ | ⟨w, history⟩⟩
  · exact absurd rfl h.nonempty
  · rfl
  · have htwo : 2 ≤ (v :: w :: history).length := by
      rw [List.length_cons, List.length_cons]
      omega
    rw [if_pos htwo]
    rfl

theorem iterate_none (k : ℕ) :
    (fun v : Option Visited => v.bind (magitBlobPrevious log))^[k] none = none := by
  induction k with
  | zero => rfl
  | succ k ih => rw [Function.iterate_succ_apply, Option.bind_none, ih]

/-- From a version on, one at a time. -/
theorem iterate_previous (hbehind : ∀ k v, history[k]? = some v → Behind log v history[k + 1]?)
    (i k : ℕ) (hv : history[i]? = some v) :
    (fun v => v.bind (magitBlobPrevious log))^[k] (some (.blob v)) = history[i + k]?.map .blob := by
  induction k generalizing i v with
  | zero => rw [Nat.add_zero, hv]; rfl
  | succ k ih =>
    rw [Function.iterate_succ_apply, Option.bind_some, previous_blob, hbehind i v hv]
    rcases hnext : history[i + 1]? with _ | w
    · have hend : history[i + (k + 1)]? = none :=
        List.getElem?_eq_none (Nat.le_trans (List.getElem?_eq_none_iff.mp hnext) (by omega))
      rw [hend, Option.map_none, iterate_none]
    · rw [Option.map_some, ih (i + 1) hnext, Nat.add_right_comm, Nat.add_assoc]

/-- What is visited from a version that was come to is the next one. -/
theorem behind_of_previous (hwalk : WalksVersions log file history) (hv : history[k]? = some v) :
    Behind log v history[k + 1]? := by
  have hnext := hwalk.previous (k + 1)
  rw [Function.iterate_succ_apply', hwalk.previous k, hv, Option.map_some, Option.bind_some,
    previous_blob] at hnext
  exact Option.map_injective (fun _ _ h => Visited.blob.inj h) hnext

/-! ## The newer ones -/

/-- The version in front of a revision is found. -/
theorem successorIn_append (hnodup : ((versions ++ v :: w :: history).map Version.hash).Nodup) :
    successorIn w.hash (gitLines (versions ++ v :: w :: history)) = some v := by
  induction versions with
  | nil =>
    rw [List.nil_append, gitLines_cons, successorIn, gitLines_cons, List.head?_cons, if_pos rfl]
  | cons u versions ih =>
    rw [List.cons_append, List.map_cons, List.nodup_cons] at hnodup
    have hne : (versions ++ v :: w :: history).head?.map Version.hash ≠ some w.hash := by
      rcases versions with _ | ⟨x, versions⟩
      · have hvw : v.hash ≠ w.hash := by
          have hrest := hnodup.2
          rw [List.nil_append, List.map_cons, List.nodup_cons] at hrest
          exact fun heq => hrest.1 (heq ▸ List.mem_cons_self)
        exact fun heq => hvw (Option.some.inj heq)
      · have hrest := hnodup.2
        rw [List.cons_append, List.map_cons, List.nodup_cons] at hrest
        intro heq
        have hx : x.hash = w.hash := Option.some.inj heq
        exact hrest.1 (hx ▸ List.mem_map_of_mem (by simp))
    rw [List.cons_append, gitLines_cons, successorIn, head?_gitLines, if_neg hne, ih hnodup.2]

/-- What is found stands in front of the revision. -/
theorem exists_of_successorIn (h : successorIn rev (gitLines versions) = some v) :
    ∃ front back name, versions = front ++ v :: ⟨rev, name⟩ :: back := by
  induction versions with
  | nil => cases h
  | cons u versions ih =>
    rw [gitLines_cons, successorIn, head?_gitLines] at h
    split at h
    next hhead =>
      obtain ⟨w, hw, rfl⟩ := Option.map_eq_some_iff.mp hhead
      obtain ⟨back, rfl⟩ := List.head?_eq_some_iff.mp hw
      exact ⟨[], back, w.name, by rw [← Option.some.inj h]; rfl⟩
    · obtain ⟨front, back, name, rfl⟩ := ih h
      exact ⟨u :: front, back, name, rfl⟩

/-- The newest version has no successor. -/
theorem successorIn_head (hnodup : ((v :: versions).map Version.hash).Nodup) :
    successorIn v.hash (gitLines (v :: versions)) = none := by
  rw [Option.eq_none_iff_forall_ne_some]
  intro w hw
  obtain ⟨front, back, name, heq⟩ := exists_of_successorIn hw
  rw [List.map_cons, List.nodup_cons] at hnodup
  rcases front with _ | ⟨u, front⟩
  · obtain ⟨rfl, rfl⟩ := List.cons.inj heq
    exact hnodup.1 (by simp)
  · obtain ⟨rfl, rfl⟩ := List.cons.inj heq
    exact hnodup.1 (by simp)

/-- The next version of a blob is the one that precedes it in the log. -/
theorem next_blob_iff (h : Reports log file history) :
    magitBlobNext log (.blob w) = some (.blob v) ↔ Precedes log v w := by
  rw [magitBlobNext, magitBlobSuccessor]
  constructor
  · intro hnext
    rcases hsome : successorIn w.hash (gitLines (log head w.name)) with _ | u
    · rw [hsome] at hnext
      cases hnext
    · rw [hsome] at hnext
      cases hnext
      exact exists_of_successorIn hsome
  · rintro ⟨front, back, name, heq⟩
    have hnodup := h.once head w.name
    rw [heq] at hnodup
    have hfind : successorIn w.hash (gitLines (front ++ v :: ⟨w.hash, name⟩ :: back)) = some v :=
      successorIn_append hnodup
    rw [heq, hfind]
    rfl

/-- From the newest version one gets to the file in the working tree. -/
theorem next_newest (h : Reports log file history) (hv : v ∈ history.head?) :
    magitBlobNext log (.blob v) = some (.worktree file) := by
  have hname := h.newest v hv
  obtain ⟨versions, rfl⟩ := List.head?_eq_some_iff.mp hv
  have hnodup := h.once head file
  rw [h.head] at hnodup
  rw [magitBlobNext, magitBlobSuccessor, hname, h.head, successorIn_head hnodup]
  rfl

/-- A version that has the name of the file is found where it is in the history. -/
theorem precedes_of_name (h : Reports log file history) (hv : history[k]? = some v)
    (hw : history[k + 1]? = some w) (hname : w.name = file) : Precedes log v w := by
  obtain ⟨hk, rfl⟩ := List.getElem?_eq_some_iff.mp hv
  obtain ⟨hk', rfl⟩ := List.getElem?_eq_some_iff.mp hw
  refine ⟨history.take k, history.drop (k + 2), history[k + 1].name, ?_⟩
  rw [hname, h.head, ← hname, ← List.drop_eq_getElem_cons hk', ← List.drop_eq_getElem_cons hk,
    List.take_append_drop]

/-- **Every version is visited exactly if there are two, git reports the next one behind each**, as it
does in a history without merges, and finds the newer ones by the older names. -/
theorem walksVersions_iff (h : Reports log file history) :
    WalksVersions log file history ↔ 2 ≤ history.length
      ∧ (∀ k v, history[k]? = some v → Behind log v history[k + 1]?)
      ∧ ∀ k v w, history[k]? = some v → history[k + 1]? = some w → Precedes log v w := by
  constructor
  · intro hwalk
    refine ⟨?_, fun k v => behind_of_previous hwalk, fun k v w hv hw => ?_⟩
    · by_contra hone
      have hprevious := hwalk.previous 0
      rw [Function.iterate_one, Option.bind_some, previous_worktree h, if_neg hone] at hprevious
      have hnil := Option.map_eq_none_iff.mp hprevious.symm
      exact h.nonempty (List.length_eq_zero_iff.mp
        (Nat.le_zero.mp (List.getElem?_eq_none_iff.mp hnil)))
    · have hnext := hwalk.next k w hw
      rw [hv] at hnext
      exact (next_blob_iff h).mp hnext
  · rintro ⟨htwo, hbehind, hnames⟩
    refine ⟨fun k => ?_, fun k w hw => ?_, fun v hv => next_newest h hv⟩
    · rw [Function.iterate_succ_apply, Option.bind_some, previous_worktree h, if_pos htwo]
      have hfirst := List.getElem?_eq_getElem (l := history) (i := 0) (by omega)
      rw [hfirst, Option.map_some, iterate_previous hbehind 0 k hfirst, Nat.zero_add]
    · obtain ⟨hk, -⟩ := List.getElem?_eq_some_iff.mp hw
      have hv := List.getElem?_eq_getElem (l := history) (i := k) (by omega)
      rw [hv]
      exact (next_blob_iff h).mpr (hnames k _ w hv hw)

/-! ## A history without renames -/

/-- What git reports of a file that always had its name. -/
def unrenamed (history : List Version) : Log := fun rev _ =>
  if rev = head then history else history.dropWhile (·.hash ≠ rev)

/-- The versions from a hash on are those from its index on. -/
theorem dropWhile_hash (hnodup : (history.map Version.hash).Nodup) (hv : history[k]? = some v) :
    history.dropWhile (·.hash ≠ v.hash) = history.drop k := by
  induction history generalizing k with
  | nil => cases hv
  | cons u history ih =>
    rw [List.map_cons, List.nodup_cons] at hnodup
    rcases k with _ | k
    · obtain rfl : u = v := Option.some.inj hv
      rw [List.dropWhile_cons_of_neg (by simp)]
      rfl
    · rw [List.getElem?_cons_succ] at hv
      have hne : u.hash ≠ v.hash := fun heq =>
        hnodup.1 (heq ▸ List.mem_map_of_mem (List.mem_of_getElem? hv))
      rw [List.dropWhile_cons_of_pos (by simpa using hne), ih hnodup.2 hv]
      rfl

/-- Without merges git reports behind a version what is left of the history. -/
theorem behind_unrenamed (hnodup : (history.map Version.hash).Nodup)
    (hhead : head ∉ history.map Version.hash) (hv : history[k]? = some v) :
    Behind (unrenamed history) v history[k + 1]? := by
  have hv' : v.hash ≠ Blob.head := fun heq =>
    hhead (heq ▸ List.mem_map_of_mem (List.mem_of_getElem? hv))
  rw [Behind, unrenamed, if_neg hv', dropWhile_hash hnodup hv, List.getElem?_drop]

/-- A file that was never renamed is reported as `Reports` says. -/
theorem reports_unrenamed (hnodup : (history.map Version.hash).Nodup)
    (hname : ∀ v ∈ history, v.name = file) (hne : history ≠ []) :
    Reports (unrenamed history) file history where
  head := if_pos rfl
  once := by
    intro rev file
    rw [unrenamed]
    split
    · exact hnodup
    · exact hnodup.sublist ((List.dropWhile_sublist _).map _)
  newest := fun v hv => hname v (List.mem_of_mem_head? hv)
  nonempty := hne

end

/-- The newest of three versions. -/
def third : Version := ⟨"3333333".toList, "notes".toList⟩

/-- The version before it. -/
def second : Version := ⟨"2222222".toList, "notes".toList⟩

/-- The oldest version. -/
def first : Version := ⟨"1111111".toList, "notes".toList⟩

theorem walksVersions_twoVersions :
    WalksVersions (unrenamed [second, first]) "notes".toList [second, first] := by
  have h : Reports (unrenamed [second, first]) "notes".toList [second, first] :=
    reports_unrenamed (by decide) (by decide) (by decide)
  refine (walksVersions_iff h).mpr ⟨by decide, fun k v => behind_unrenamed (by decide) (by decide),
    fun k v w hv hw => precedes_of_name h hv hw ?_⟩
  have hmem := List.mem_of_getElem? hw
  rw [List.mem_cons, List.mem_singleton] at hmem
  obtain rfl | rfl := hmem <;> rfl

/-- What git reports of a file if `third` and `second` were both made of `first` and then merged. -/
def merged : Log := fun rev _ =>
  if rev = head then [third, second, first]
  else if rev = third.hash then [third, first]
  else if rev = second.hash then [second, first]
  else [first]

/-- From a file with one version nothing is visited, and over a merge a version is left out. -/
theorem not_walksVersions :
    (Reports (unrenamed [first]) "notes".toList [first]
        ∧ ¬WalksVersions (unrenamed [first]) "notes".toList [first])
      ∧ Reports merged "notes".toList [third, second, first]
        ∧ ¬WalksVersions merged "notes".toList [third, second, first] := by
  refine ⟨⟨reports_unrenamed (by decide) (by decide) (by decide), fun hwalk => ?_⟩,
    ⟨rfl, fun rev file => ?_, by decide, by decide⟩, fun hwalk => ?_⟩
  · have hprevious := hwalk.previous 0
    have hnone : magitBlobPrevious (unrenamed [first]) (.worktree "notes".toList) = none := by decide
    rw [Function.iterate_one, Option.bind_some, hnone] at hprevious
    cases hprevious
  · rw [merged]
    split_ifs <;> decide
  · have hbehind : (merged third.hash third.name)[1]? = some second :=
      behind_of_previous hwalk (k := 0) (v := third) rfl
    exact absurd hbehind (by decide)

end Magit.Blob
