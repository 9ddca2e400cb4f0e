import Magit.Emacs.Alist
import Magit.Emacs.Buffer
import Magit.Emacs.SplitString
import Magit.Client.Info
import Magit.Git.Worker
import Mathlib.Data.List.DropRight

/-!
# Client/Config — the configuration, read from a list

`git_config_list_z` writes the entries of a configuration one after another, and the client makes a
table of them that maps each name to its values in order (`config_round_trip`).
-/

namespace Magit.Client

open Emacs Git

/-! ## The table -/

/-- `magit-parse-config-list-z` -/
def magitParseConfigListZ (raw : Text) : List Text := splitString nul raw

/-- One turn of the `dolist`: a value is put behind those the name has already. -/
def putConfig (configs : List (Text × List Text)) (conf : Text) : List (Text × List Text) :=
  let key := lineText conf
  let val := behindLine conf
  setAlistGet key ((assoc key configs).getD [] ++ [val]) configs

/-- The hash table `configs`. -/
def configTable (confs : List Text) : List (Text × List Text) := confs.foldl putConfig []

/-- The key with its first and its last component in lower case, as `git config --list` shows
names. -/
def listedKey (downcase : Text → Text) (key : Text) : Text :=
  let key := downcase (key.takeWhile (· ≠ '.')) ++ key.dropWhile (· ≠ '.')
  key.rdropWhile (· ≠ '.') ++ downcase (key.rtakeWhile (· ≠ '.'))

/-- `magit-config-get-from-cached-list`, with what `downcase` does. -/
def magitConfigGetFromCachedList (downcase : Text → Text) (confs : List Text) (key : Text) :
    List Text :=
  (assoc (listedKey downcase key) (configTable confs)).getD []

/-- An item adds its value at the end of the values of its name. -/
theorem assoc_putConfig (configs : List (Text × List Text)) (conf name : Text) :
    assoc name (putConfig configs conf) = if lineText conf = name
      then some ((assoc name configs).getD [] ++ [behindLine conf]) else assoc name configs := by
  rw [putConfig, assoc_setAlistGet]
  split
  · next h => rw [h]
  · rfl

/-- **The table maps each name to its values in order.** -/
theorem assoc_configTable (confs : List Text) (name : Text) :
    assoc name (configTable confs) = if name ∈ confs.map lineText
      then some ((confs.filter fun conf => lineText conf = name).map behindLine) else none := by
  induction confs using List.reverseRecOn with
  | nil => rfl
  | append_singleton confs conf ih =>
    rw [configTable, List.foldl_append, ← configTable, List.foldl_cons, List.foldl_nil,
      assoc_putConfig, ih, List.map_append, List.filter_append]
    by_cases hconf : lineText conf = name
    · have hnone (h : name ∉ confs.map lineText) :
          confs.filter (fun conf => lineText conf = name) = [] :=
        List.filter_eq_nil_iff.mpr fun c hc heq =>
          h (List.mem_map.mpr ⟨c, hc, of_decide_eq_true heq⟩)
      have hmem : name ∈ confs.map lineText ++ [conf].map lineText := by simp [hconf]
      rw [if_pos hconf, if_pos hmem]
      split
      · simp [hconf]
      · next h => simp [hnone h, hconf]
    · simp [hconf, Ne.symm hconf]

/-! ## What `git_config_list_z` writes -/

/-- The value of an entry as the client gets it. -/
def shownValue (value : Option Text) : Text := value.getD []

/-- The item of an entry. -/
def confItem (entry : ConfigEntry) : Text := entry.name ++ '\n' :: shownValue entry.value

/-- The response is the items, each ended by NUL. -/
theorem gitConfigListZ_eq_terminated {δ : Type} {lg : Libgit2 δ} {entries : List ConfigEntry}
    (hconfig : lg.repositoryConfig = 0) {last : ℤ} (h : lg.configIterator = .ok ⟨entries, last⟩) :
    (gitConfigListZ lg []).2 = terminated nul (entries.map confItem) := by
  have hfold (out : Text) : entries.foldl
      (fun out entry => out ++ entry.name ++ ['\n'] ++ entry.value.getD [] ++ [nul]) out
        = out ++ terminated nul (entries.map confItem) := by
    simp only [List.append_assoc]
    rw [List.foldl_append_eq_append, terminated, List.flatMap_map, List.flatMap_def]
    simp [confItem, shownValue]
  rw [gitConfigListZ, if_neg (not_not_intro hconfig), h]
  exact hfold []

/-- An entry that can be listed: its name is on one line, and neither part has a NUL. -/
structure Listable (entry : ConfigEntry) : Prop where
  name_line : '\n' ∉ entry.name
  name_nul : nul ∉ entry.name
  value_nul : nul ∉ shownValue entry.value

theorem Listable.lineText {entry : ConfigEntry} (h : Listable entry) :
    lineText (confItem entry) = entry.name :=
  lineText_append h.name_line _

theorem Listable.behindLine {entry : ConfigEntry} (h : Listable entry) :
    behindLine (confItem entry) = shownValue entry.value :=
  behindLine_append h.name_line _

/-- The values of a name, in order. -/
def valuesOf (entries : List ConfigEntry) (name : Text) : List (Option Text) :=
  (entries.filter fun entry => entry.name = name).map ConfigEntry.value

theorem valuesOf_of_notMem {entries : List ConfigEntry} {name : Text}
    (h : name ∉ entries.map ConfigEntry.name) : valuesOf entries name = [] := by
  rw [valuesOf, List.map_eq_nil_iff, List.filter_eq_nil_iff]
  exact fun entry he heq => h (List.mem_map.mpr ⟨entry, he, of_decide_eq_true heq⟩)

/-- What the table has for a name are the values of the entries of that name, in order. -/
theorem assoc_configTable_map {entries : List ConfigEntry} {item : ConfigEntry → Text}
    (hname : ∀ entry ∈ entries, lineText (item entry) = entry.name)
    (hvalue : ∀ entry ∈ entries, behindLine (item entry) = shownValue entry.value) (name : Text) :
    assoc name (configTable (entries.map item)) = if name ∈ entries.map ConfigEntry.name
      then some ((valuesOf entries name).map shownValue) else none := by
  have hnames : (entries.map item).map lineText = entries.map ConfigEntry.name := by
    rw [List.map_map]
    exact List.map_congr_left hname
  rw [assoc_configTable, hnames, valuesOf, List.map_map, List.filter_map, List.map_map]
  congr 2
  have hfilter : entries.filter ((fun conf => decide (Emacs.lineText conf = name)) ∘ item)
      = entries.filter fun entry => entry.name = name :=
    List.filter_congr fun entry he => by simp [hname entry he]
  rw [hfilter]
  exact List.map_congr_left fun entry he => hvalue entry (List.mem_filter.mp he).1

/-- What is read under a key are the values of its name as the list has it. -/
theorem magitConfigGetFromCachedList_map {entries : List ConfigEntry} {item : ConfigEntry → Text}
    (hname : ∀ entry ∈ entries, lineText (item entry) = entry.name)
    (hvalue : ∀ entry ∈ entries, behindLine (item entry) = shownValue entry.value)
    (downcase : Text → Text) (key : Text) :
    magitConfigGetFromCachedList downcase (entries.map item) key
      = (valuesOf entries (listedKey downcase key)).map shownValue := by
  rw [magitConfigGetFromCachedList, assoc_configTable_map hname hvalue]
  split
  · rfl
  · next hname => rw [valuesOf_of_notMem hname]; rfl

/-- **The client reads the items the server wrote.** -/
theorem magitParseConfigListZ_gitConfigListZ {δ : Type} {lg : Libgit2 δ}
    {entries : List ConfigEntry} (hconfig : lg.repositoryConfig = 0) {last : ℤ}
    (h : lg.configIterator = .ok ⟨entries, last⟩) (hl : ∀ entry ∈ entries, Listable entry) :
    magitParseConfigListZ (gitConfigListZ lg []).2 = entries.map confItem := by
  have hnul : ∀ item ∈ entries.map confItem, nul ∉ item := by
    intro item hitem
    obtain ⟨entry, he, rfl⟩ := List.mem_map.mp hitem
    have hnl : nul ≠ '\n' := by decide
    simp [confItem, (hl entry he).name_nul, (hl entry he).value_nul, hnl]
  have hne : ∀ item ∈ entries.map confItem, decide (item ≠ []) = true := by
    intro item hitem
    obtain ⟨entry, -, rfl⟩ := List.mem_map.mp hitem
    simp [confItem]
  rw [magitParseConfigListZ, gitConfigListZ_eq_terminated hconfig h, splitString_terminated hnul,
    List.filter_eq_self.mpr hne]

/-- **A configuration passes through the list**: each name has its values in order, an absent one as
the empty string, and there is no other name.  What is read under a key are the values of the name
that the key has with its first and its last component in lower case. -/
theorem config_round_trip {δ : Type} {lg : Libgit2 δ} {entries : List ConfigEntry}
    (hconfig : lg.repositoryConfig = 0) {last : ℤ} (h : lg.configIterator = .ok ⟨entries, last⟩)
    (hl : ∀ entry ∈ entries, Listable entry) :
    let confs := magitParseConfigListZ (gitConfigListZ lg []).2
    (∀ name, assoc name (configTable confs) = if name ∈ entries.map ConfigEntry.name
        then some ((valuesOf entries name).map shownValue) else none)
      ∧ ∀ downcase key, magitConfigGetFromCachedList downcase confs key
        = (valuesOf entries (listedKey downcase key)).map shownValue := by
  have hname := fun entry he => (hl entry he).lineText
  have hvalue := fun entry he => (hl entry he).behindLine
  rw [magitParseConfigListZ_gitConfigListZ hconfig h hl]
  exact ⟨assoc_configTable_map hname hvalue, magitConfigGetFromCachedList_map hname hvalue⟩

/-- The answers of libgit2 in a repository with this configuration. -/
def withConfig (entries : List ConfigEntry) : Libgit2 Unit :=
  { RefStore.oneCommit.libgit2 with configIterator := .ok ⟨entries, gitIterover⟩ }

/-- A name twice, another one between, with an absent value and one of two lines. -/
def twoNames : List ConfigEntry :=
  [⟨"a.b".toList, none⟩, ⟨"a.c".toList, some []⟩, ⟨"a.b".toList, some "x\ny".toList⟩]

theorem config_round_trip_twoNames :
    magitConfigGetFromCachedList (·.map Char.toLower)
        (magitParseConfigListZ (gitConfigListZ (withConfig twoNames) []).2) "A.B".toList
      = [[], "x\ny".toList] := by
  have hiter : (withConfig twoNames).configIterator = .ok ⟨twoNames, gitIterover⟩ := rfl
  have hlistable : ∀ entry ∈ twoNames, Listable entry := by
    simp only [twoNames, List.forall_mem_cons]
    exact ⟨⟨by decide, by decide, by decide⟩, ⟨by decide, by decide, by decide⟩,
      ⟨by decide, by decide, by decide⟩, by simp⟩
  exact (config_round_trip rfl hiter hlistable).2 _ _

/-- A name with a capital letter, as neither libgit2 nor git lists one. -/
def capitalName : List ConfigEntry := [⟨"A.b".toList, some "1".toList⟩]

/-- It is in the table, and is not read back. -/
theorem capital_name_not_read :
    let confs := magitParseConfigListZ (gitConfigListZ (withConfig capitalName) []).2
    (∀ entry ∈ capitalName, Listable entry)
      ∧ assoc "A.b".toList (configTable confs) = some ["1".toList]
      ∧ magitConfigGetFromCachedList (·.map Char.toLower) confs "A.b".toList = [] := by
  refine ⟨fun entry he => ?_, by decide, by decide⟩
  obtain rfl := List.mem_singleton.mp he
  exact ⟨by decide, by decide, by decide⟩

end Magit.Client
