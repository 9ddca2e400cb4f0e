import Magit.Diff.WashFiles

/-!
# Diff/WashNames — the name of a file that only the first line of its diff mentions

An empty file that is added or deleted, and a change of nothing but the mode, have no `---` and
`+++` lines, so the name is what `\(.+?\) \2` finds behind `diff --git `.  The expression need not
reach the end of the line: it stops at the shortest beginning of the name that comes again behind a
blank (`Repeats`), and only without one does it find the whole name (`value_iff`).
-/

namespace Magit.DiffWash

open Emacs

/-! ## Diffs without hunks -/

/-- The changes of a file that show in its extended headers only, and that do not rename it. -/
inductive EmptyChange
  | added (mode index : Text)
  | deleted (mode index : Text)
  | modes (old new : Text)

namespace EmptyChange

/-- The headers of a diff without hunks. -/
def headers : EmptyChange → List Header
  | added mode index => [.newFile ("mode ".toList ++ mode), .index index]
  | deleted mode index => [.deletedFile ("mode ".toList ++ mode), .index index]
  | modes old new => [.modes old new]

/-- What stands in them. -/
def texts : EmptyChange → List Text
  | added mode index => [mode, index]
  | deleted mode index => [mode, index]
  | modes old new => [old, new]

/-- No part is empty or has a newline. -/
def WellFormed (c : EmptyChange) : Prop := ∀ text ∈ c.texts, text ≠ [] ∧ '\n' ∉ text

/-- `diff --git F F`, and what has changed. -/
def diff (c : EmptyChange) (name : Text) : FileDiff := ⟨.git name name, c.headers, []⟩

variable {c : EmptyChange}

/-- The headers of the change are well formed. -/
theorem headers_wellFormed (h : c.WellFormed) : ∀ header ∈ c.headers, header.WellFormed := by
  have hmode : ∀ mode : Text, mode ≠ [] ∧ '\n' ∉ mode →
      "mode ".toList ++ mode ≠ [] ∧ '\n' ∉ "mode ".toList ++ mode := fun mode hmode =>
    ⟨List.append_ne_nil_of_right_ne_nil _ hmode.1,
      List.not_mem_append (by decide) hmode.2⟩
  cases c with
  | added mode index | deleted mode index =>
    have hindex := h index (by simp [texts])
    have htext := hmode mode (h mode (by simp [texts]))
    simp only [headers, List.forall_mem_cons, Header.WellFormed, Header.texts, Header.first]
    exact ⟨⟨htext, by simp⟩, ⟨hindex, by simp⟩, by simp⟩
  | modes old new =>
    intro header hheader
    rw [List.mem_singleton.mp hheader]
    exact h

/-- The diff of a change without content is well formed. -/
theorem diff_wellFormed (h : c.WellFormed) {name : Text} (hname : name ≠ []) (hline : '\n' ∉ name) :
    (c.diff name).WellFormed where
  first text htext := by
    rcases List.mem_pair.mp htext with rfl | rfl
    · exact ⟨hname, hline⟩
    · exact ⟨hname, hline⟩
  headers := headers_wellFormed h
  chmod := by cases c <;> simp [diff, headers, FileDiff.headersAt, Header.place]
  rename := by cases c <;> simp [diff, headers, FileDiff.headersAt, Header.place]
  hunks hunk hmem := absurd hmem List.not_mem_nil

/-- The headers do not tell the name. -/
theorem filterMap_fileName (c : EmptyChange) : c.headers.filterMap Header.fileName = [] := by
  cases c <;> rfl

theorem filterMap_origName (c : EmptyChange) : c.headers.filterMap Header.origName = [] := by
  cases c <;> rfl

theorem diff_fileName (env : WashEnv) (c : EmptyChange) (name : Text) :
    (c.diff name).fileName env = doubled env (name ++ ' ' :: name) := by
  rw [FileDiff.fileName, diff, filterMap_fileName]
  rfl

theorem diff_origName (c : EmptyChange) (name : Text) : (c.diff name).origName = none := by
  rw [FileDiff.origName, diff, filterMap_origName]
  rfl

end EmptyChange

/-! ## The shortest text that comes twice -/

/-- A shorter beginning of the name comes again behind a blank, where the name stands twice. -/
def Repeats (fold : Char → Char) (name : Text) : Prop :=
  ∃ p more, name = p ++ more ∧ p ≠ [] ∧ more ≠ []
    ∧ lookingAt fold (' ' :: p) (more ++ ' ' :: name) = true

section

variable {env : WashEnv}

/-- The front of that length comes again behind a blank. -/
def ComesAgain (env : WashEnv) (text : Text) (n : ℕ) : Prop :=
  lookingAt env.fold (' ' :: text.take (n + 1)) (text.drop (n + 1)) = true

/-- What is found first in a range is found at its least number. -/
theorem findSome?_range_eq_some {α : Type} {f : ℕ → Option α} {k : ℕ} {a : α}
    (h : (List.range k).findSome? f = some a) : ∃ n, f n = some a ∧ ∀ m < n, f m = none := by
  obtain ⟨front, n, back, hrange, hn, hfront⟩ := List.findSome?_eq_some_iff.mp h
  refine ⟨n, hn, fun m hm => hfront m ?_⟩
  have hsorted := @List.pairwise_lt_range k
  have hlt : n < k := List.mem_range.mp (hrange ▸ List.mem_append_right _ List.mem_cons_self)
  have hmem : m ∈ front ++ n :: back := hrange ▸ List.mem_range.mpr (hm.trans hlt)
  rw [hrange, List.pairwise_append, List.pairwise_cons] at hsorted
  rcases List.mem_append.mp hmem with hmem | hmem
  · exact hmem
  · rcases List.mem_cons.mp hmem with rfl | hmem
    · exact absurd hm (lt_irrefl m)
    · exact absurd (hsorted.2.1.1 m hmem) (Nat.lt_asymm hm)

/-- What is found is the shortest front that comes again. -/
theorem doubled_eq_some {text name : Text} (h : doubled env text = some name) :
    ∃ n, name = text.take (n + 1) ∧ ComesAgain env text n ∧ ∀ m < n, ¬ComesAgain env text m := by
  obtain ⟨n, hn, hmin⟩ := findSome?_range_eq_some h
  obtain ⟨hagain, hname⟩ := Option.ite_none_right_eq_some.mp hn
  exact ⟨n, (Option.some.inj hname).symm, hagain, fun m hm hagain' =>
    Option.some_ne_none _ ((if_pos hagain').symm.trans (hmin m hm))⟩

theorem doubled_isSome {text : Text} {n : ℕ} (hn : n < text.length) (h : ComesAgain env text n) :
    (doubled env text).isSome = true := by
  exact List.findSome?_isSome_iff.mpr ⟨n, List.mem_range.mpr hn, congrArg Option.isSome (if_pos h)⟩

variable {name : Text}

/-- The whole name comes again. -/
theorem comesAgain_name (hname : name ≠ []) :
    ComesAgain env (name ++ ' ' :: name) (name.length - 1) := by
  have hlength : name.length - 1 + 1 = name.length :=
    Nat.sub_add_cancel (List.length_pos_iff.mpr hname)
  have hlook : lookingAt env.fold (' ' :: name) (' ' :: name ++ []) = true :=
    lookingAt_append (' ' :: name) []
  rw [List.append_nil] at hlook
  rwa [ComesAgain, hlength, List.take_left, List.drop_left]

/-- Fronts of the name that come again. -/
theorem comesAgain_of_lt {n : ℕ} (hn : n + 1 < name.length) :
    ComesAgain env (name ++ ' ' :: name) n
      ↔ lookingAt env.fold (' ' :: name.take (n + 1)) (name.drop (n + 1) ++ ' ' :: name) = true := by
  rw [ComesAgain, List.take_append_of_le_length (Nat.le_of_lt hn),
    List.drop_append_of_le_length (Nat.le_of_lt hn)]

/-- **The name is found exactly if no beginning of it comes again.** -/
theorem doubled_name_iff (hname : name ≠ []) :
    doubled env (name ++ ' ' :: name) = some name ↔ ¬Repeats env.fold name := by
  have hpos := List.length_pos_iff.mpr hname
  constructor
  · rintro hfound ⟨p, more, hsplit, hp, hmore, hlook⟩
    obtain ⟨n, hn, -, hmin⟩ := doubled_eq_some hfound
    have hp' := List.length_pos_iff.mpr hp
    have hmore' := List.length_pos_iff.mpr hmore
    have hlength : name.length = p.length + more.length := by rw [hsplit, List.length_append]
    -- the name is no shorter than what is found
    have hle : name.length ≤ n + 1 := by
      rw [hn]
      exact List.length_take_le _ _
    have hcut : p.length - 1 + 1 = p.length := Nat.sub_add_cancel hp'
    refine hmin (p.length - 1) (by omega) ((comesAgain_of_lt (by omega)).mpr ?_)
    rw [hcut]
    rw [show name.take p.length = p by rw [hsplit, List.take_left],
      show name.drop p.length = more by rw [hsplit, List.drop_left]]
    exact hlook
  · intro hunique
    have hsome : (doubled env (name ++ ' ' :: name)).isSome = true := by
      refine doubled_isSome ?_ (comesAgain_name hname)
      rw [List.length_append]
      omega
    obtain ⟨found, hfound⟩ := Option.isSome_iff_exists.mp hsome
    obtain ⟨n, hn, hagain, hmin⟩ := doubled_eq_some hfound
    have hle : n ≤ name.length - 1 :=
      Nat.le_of_not_lt fun hlt => hmin _ hlt (comesAgain_name hname)
    rcases Nat.lt_or_ge (n + 1) name.length with hlt | hge
    · refine absurd ⟨name.take (n + 1), name.drop (n + 1), (List.take_append_drop _ _).symm, ?_, ?_,
        (comesAgain_of_lt hlt).mp hagain⟩ hunique
      · exact List.ne_nil_of_length_pos (by rw [List.length_take]; omega)
      · exact List.ne_nil_of_length_pos (by rw [List.length_drop]; omega)
    · have hlength : n + 1 = name.length := by omega
      rw [hfound, hn, hlength, List.take_left]

/-! ## The value of the section -/

/-- A text that Git has not quoted is the name itself, and so is each beginning of it. -/
theorem magitDecodeGitPath_take (hname : name ≠ []) (hquote : name.head? ≠ some '"') (n : ℕ) :
    magitDecodeGitPath env ((name ++ ' ' :: name).take (n + 1))
      = some ((name ++ ' ' :: name).take (n + 1)) := by
  rcases name with _ | ⟨c, name⟩
  · exact absurd rfl hname
  · have hc : c ≠ '"' := fun hc => hquote (congrArg some hc)
    rw [List.cons_append, List.take_succ_cons, magitDecodeGitPath]
    · simp
    · exact fun _ h => hc (List.cons.inj h).1

/-- The value of the section is the name that the diff gives the file. -/
theorem magitDiffWashDiff_value (hfold : FoldsAscii env.fold) (htraced : env.logTraced = false)
    {d : FileDiff} (hwf : d.WellFormed) (horig : d.origName = none) {name path : Text}
    (hname : d.fileName env = some name) (hpath : magitDecodeGitPath env name = some path)
    (before : Text) {rest : List Text} (hrest : StartsFile rest) :
    ∃ s b, magitDiffWashDiff env ⟨before, d.lines ++ rest⟩ = some (some [s], b)
      ∧ s.value = path := by
  obtain ⟨status, hwash⟩ := magitDiffWashDiff_finish hfold hwf before hrest
  obtain ⟨hfile, horig'⟩ := state_names (d := d) env status
  rw [hwash, finishFile, hfile, horig', horig, hname]
  simp only [Option.bind_eq_bind, Option.bind_some, hpath, htraced, Bool.false_eq_true, if_false,
    Option.map_some]
  exact ⟨_, _, rfl, rfl⟩

/-- **The name of a file that has no `---` and `+++` lines.**  The value of its section is its name
exactly if no shorter beginning of the name comes again behind a blank in `F F`. -/
theorem value_iff (hfold : FoldsAscii env.fold) (htraced : env.logTraced = false) {c : EmptyChange}
    (hc : c.WellFormed) (hname : name ≠ []) (hline : '\n' ∉ name) (hquote : name.head? ≠ some '"')
    (before : Text) {rest : List Text} (hrest : StartsFile rest) :
    (∃ s b, magitDiffWashDiff env ⟨before, (c.diff name).lines ++ rest⟩ = some (some [s], b)
      ∧ s.value = name) ↔ ¬Repeats env.fold name := by
  have hsome : (doubled env (name ++ ' ' :: name)).isSome = true :=
    doubled_isSome (by rw [List.length_append, List.length_cons]; omega) (comesAgain_name hname)
  obtain ⟨found, hfound⟩ := Option.isSome_iff_exists.mp hsome
  obtain ⟨n, hn, -⟩ := doubled_eq_some hfound
  have hpath : magitDecodeGitPath env found = some found := by
    rw [hn]
    exact magitDecodeGitPath_take hname hquote n
  obtain ⟨s, b, hwash, hvalue⟩ := magitDiffWashDiff_value hfold htraced
    (EmptyChange.diff_wellFormed hc hname hline) (c.diff_origName name)
    ((c.diff_fileName env name).trans hfound) hpath before hrest
  rw [← doubled_name_iff hname, hfound, Option.some_inj, ← hvalue, hwash]
  constructor
  · rintro ⟨s', b', hs, hs'⟩
    obtain ⟨hs, -⟩ := Prod.mk.inj (Option.some.inj hs)
    rw [← hs', List.singleton_inj.mp (Option.some.inj hs)]
  · exact fun h => ⟨s, b, rfl, h⟩

end

/-! ## An empty file that is added -/

namespace EmptyFile

/-- An empty file is added. -/
def added : EmptyChange := .added "100644".toList "0000000..e69de29".toList

theorem wellFormed : added.WellFormed := by
  simp only [EmptyChange.WellFormed]
  decide

theorem startsFile_nil : StartsFile [] := fun _ h => absurd h (by simp)

/-- For the name with blanks in the example, the value is right exactly if it does not repeat. -/
theorem value_iff_spaces :
    (∃ s b, magitDiffWashDiff ModeChange.env ⟨[], (added.diff "a b a".toList).lines ++ []⟩
        = some (some [s], b) ∧ s.value = "a b a".toList)
      ↔ ¬Repeats ModeChange.env.fold "a b a".toList :=
  value_iff ModeChange.foldsAscii rfl wellFormed (by decide) (by decide) (by decide) [] startsFile_nil

/-- `notes notes.txt` is taken for `notes`. -/
theorem value_ne : added.WellFormed
    ∧ ¬∃ s b, magitDiffWashDiff ModeChange.env
        ⟨[], (added.diff "notes notes.txt".toList).lines ++ []⟩ = some (some [s], b)
      ∧ s.value = "notes notes.txt".toList := by
  have hvalue : (magitDiffWashDiff ModeChange.env
      ⟨[], (added.diff "notes notes.txt".toList).lines ++ []⟩).map
        (fun r => r.1.map (List.map FileSection.value)) = some (some ["notes".toList]) := by
    decide +kernel
  refine ⟨wellFormed, ?_⟩
  rintro ⟨s, b, hwash, hs⟩
  rw [hwash] at hvalue
  have hnotes : s.value = "notes".toList :=
    List.singleton_inj.mp (Option.some.inj (Option.some.inj hvalue))
  exact absurd (hs.symm.trans hnotes) (by decide)

end EmptyFile

end Magit.DiffWash
