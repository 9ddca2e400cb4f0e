import Magit.Client.Config

/-!
# Client/ConfigGet — an option of the configuration, from the list or from `git config`

`magit-get` and its siblings read an option from the list while a refresh is going on and ask
`git config` otherwise.  `git config` prints no value that is empty so that the client would keep
it, prints every true boolean as `true` and nothing if a value is no boolean; the list has the
values as they are written, and that of a response lacks what git is given on its command line.
Where this makes no difference the two ways agree (`cached_agrees_iff`).
-/

namespace Magit.Client

open Emacs Git

/-! ## `git config` -/

/-- What a section and a variable are named with. -/
def isKeyChar (c : Char) : Bool := c.isAlphanum || c = '-'

/-- `downcase`, for ASCII. -/
def lower (s : Text) : Text := s.map Char.toLower

/-- A key that `git config` takes: the names of a section and of a variable, and between them, if
there is one, that of a subsection. -/
structure ConfigKey where
  sectionName : Text
  subsection : Option Text
  variableName : Text
  section_chars : ∀ c ∈ sectionName, isKeyChar c = true
  subsection_line : ∀ s, subsection = some s → '\n' ∉ s ∧ nul ∉ s
  variable_chars : ∀ c ∈ variableName, isKeyChar c = true

namespace ConfigKey

/-- What stands between the two names. -/
def middle (k : ConfigKey) : Text :=
  match k.subsection with
  | none => []
  | some s => '.' :: s

/-- A key as it is written. -/
def text (k : ConfigKey) : Text := k.sectionName ++ (k.middle ++ '.' :: k.variableName)

/-- The name under which `git config` keeps the values. -/
def name (k : ConfigKey) : Text :=
  lower k.sectionName ++ (k.middle ++ '.' :: lower k.variableName)

end ConfigKey

/-- `git config`: how it reads a key, the entries of its files (those of one scope if it has an option
for one), the options it is given with `-c`, and what it takes for a boolean. -/
structure GitConfig where
  parseKey : Text → Option Text
  files : Option Text → List ConfigEntry
  commandLine : List ConfigEntry
  bool : Option Text → Option Bool

/-- The options in `magit-git-global-arguments`, but for the one on Windows. -/
def magitGitGlobalArguments : List ConfigEntry :=
  [⟨"core.preloadindex".toList, some "true".toList⟩,
    ⟨"log.showsignature".toList, some "false".toList⟩,
    ⟨"color.ui".toList, some "false".toList⟩, ⟨"color.diff".toList, some "false".toList⟩]

namespace GitConfig

variable (g : GitConfig)

/-- The entries that are known: an option on the command line counts after those of the files, but
not where one scope is asked for. -/
def entries (arg : Option Text) : List ConfigEntry :=
  match arg with
  | none => g.files none ++ g.commandLine
  | some scope => g.files (some scope)

/-- What is relied on: names are kept with section and variable in lower case, no value has a NUL,
and `true` is a boolean. -/
structure Documented : Prop where
  parse : ∀ key name, g.parseKey key = some name → ∃ k : ConfigKey, k.text = key ∧ k.name = name
  names : ∀ arg, ∀ entry ∈ g.entries arg, ∃ k : ConfigKey, k.name = entry.name
  values : ∀ arg, ∀ entry ∈ g.entries arg, nul ∉ shownValue entry.value
  bool_true : g.bool (some "true".toList) = some true

/-- The values of a key, in order. -/
def values (arg : Option Text) (key : Text) : List (Option Text) :=
  match g.parseKey key with
  | none => []
  | some name => valuesOf (g.entries arg) name

/-- `git config --list -z`; an absent value has no newline before it. -/
def listZ : Text :=
  terminated nul <| (g.entries none).map fun entry =>
    match entry.value with
    | none => entry.name
    | some value => entry.name ++ '\n' :: value

/-- `git config ARG -z --get-all --include KEY`. -/
def getAllZ (arg : Option Text) (key : Text) : Text :=
  terminated nul ((g.values arg key).map shownValue)

/-- `git config ARG --bool --include KEY`: the last value, and nothing if any of them is no
boolean. -/
def getBool (arg : Option Text) (key : Text) : Text :=
  if (g.values arg key).all fun value => (g.bool value).isSome then
    match (g.values arg key).getLast?.bind g.bool with
    | none => []
    | some true => "true\n".toList
    | some false => "false\n".toList
  else []

end GitConfig

/-! ## The two ways to read an option -/

/-- `(magit-git-items …)` on what git printed. -/
def magitGitItems (output : Text) : List Text := splitString nul output

/-- The list of a response, or that of `git config` without one; a field that is no string is a
signal. -/
def magitListZ (g : GitConfig) (gitInfo : List (MsgpackObject × MsgpackObject)) :
    Option (List Text) :=
  if gitInfo = [] then some (magitGitItems g.listZ)
  else
    match magitInfoGet magitInfoListZEnum gitInfo with
    | some (.str raw) => some (magitParseConfigListZ raw)
    | _ => none

/-- The optional argument before the keys, and the key they are joined to. -/
def configArg (keys : List (Option Text)) : Option Text × Text :=
  let joined (keys : List (Option Text)) : Text :=
    ['.'].intercalate (keys.map fun key => key.getD [])
  match keys with
  | [] => (none, [])
  | none :: keys => (none, joined keys)
  | some key :: keys =>
    if "--".toList.isPrefixOf key then (some key, joined keys) else (none, joined (some key :: keys))

section

variable (downcase : Text → Text) (g : GitConfig) (confs : List Text)

/-- Whether a refresh is going on decides where the values are read. -/
def magitGetAll (refresh : Bool) (keys : List (Option Text)) : List Text :=
  let (arg, key) := configArg keys
  if refresh && arg.isNone then magitConfigGetFromCachedList downcase confs key
  else magitGitItems (g.getAllZ arg key)

/-- `magit-get`: the last value of the key. -/
def magitGet (refresh : Bool) (keys : List (Option Text)) : Option Text :=
  (magitGetAll downcase g confs refresh keys).getLast?

/-- `magit-get-boolean`, whose value is the text `true` or not. -/
def magitGetBoolean (refresh : Bool) (keys : List (Option Text)) : Bool :=
  let (arg, key) := configArg keys
  let value :=
    if refresh then (magitConfigGetFromCachedList downcase confs key).getLast?
    else outputLine (g.getBool arg key)
  value = some "true".toList

end

/-! ## Keys and names -/

section

variable {downcase : Text → Text}

/-- What is relied on of `downcase`: it takes the letters of names to lower case. -/
def DowncasesNames (downcase : Text → Text) : Prop :=
  ∀ s : Text, (∀ c ∈ s, isKeyChar c = true) → downcase s = lower s

theorem isKeyChar_ne {c : Char} (h : isKeyChar c = true) : c ≠ '.' ∧ c ≠ '\n' ∧ c ≠ nul := by
  refine ⟨?_, ?_, ?_⟩ <;> rintro rfl <;> exact absurd h (by decide)

theorem toNat_of_isKeyChar {c : Char} (h : isKeyChar c = true) : c.toNat < 128 := by
  have hle : c.val ≤ 'Z'.val ∨ c.val ≤ 'z'.val ∨ c.val ≤ '9'.val ∨ c = '-' := by
    rcases Bool.or_eq_true_iff.mp h with h | h
    · rcases Bool.or_eq_true_iff.mp h with h | hdigit
      · rcases Bool.or_eq_true_iff.mp h with hupper | hlower
        · exact .inl (of_decide_eq_true hupper).2
        · exact .inr (.inl (of_decide_eq_true (Bool.and_eq_true_iff.mp hlower).2))
      · exact .inr (.inr (.inl (of_decide_eq_true (Bool.and_eq_true_iff.mp hdigit).2)))
    · exact .inr (.inr (.inr (of_decide_eq_true h)))
  rcases hle with h | h | h | rfl
  · exact lt_of_le_of_lt (UInt32.le_iff_toNat_le.mp h) (by decide)
  · exact lt_of_le_of_lt (UInt32.le_iff_toNat_le.mp h) (by decide)
  · exact lt_of_le_of_lt (UInt32.le_iff_toNat_le.mp h) (by decide)
  · decide

theorem isKeyChar_toLower {c : Char} (h : isKeyChar c = true) : isKeyChar c.toLower = true := by
  have hascii : ∀ n < 128, isKeyChar (Char.ofNat n) = true → isKeyChar (Char.ofNat n).toLower = true := by
    decide +kernel
  have hc := hascii c.toNat (toNat_of_isKeyChar h)
  rw [Char.ofNat_toNat] at hc
  exact hc h

theorem notDot {s : Text} (h : ∀ c ∈ s, isKeyChar c = true) :
    ∀ c ∈ s, decide (c ≠ '.') = true :=
  fun c hc => decide_eq_true (isKeyChar_ne (h c hc)).1

theorem forall_mem_lower {s : Text} (h : ∀ c ∈ s, isKeyChar c = true) :
    ∀ c ∈ lower s, isKeyChar c = true := by
  intro c hc
  obtain ⟨d, hd, rfl⟩ := List.mem_map.mp hc
  exact isKeyChar_toLower (h d hd)

/-- The last component of a key. -/
theorem lastComponent {s : Text} (h : ∀ c ∈ s, isKeyChar c = true) (rest : Text) :
    (rest ++ '.' :: s).rtakeWhile (· ≠ '.') = s
      ∧ (rest ++ '.' :: s).rdropWhile (· ≠ '.') = rest ++ ['.'] := by
  have hrev : (rest ++ '.' :: s).reverse = s.reverse ++ '.' :: rest.reverse := by simp
  have hdot : ∀ c ∈ s.reverse, decide (c ≠ '.') = true :=
    fun c hc => notDot h c (List.mem_reverse.mp hc)
  rw [List.rtakeWhile, List.rdropWhile, hrev, List.takeWhile_append_of_pos hdot,
    List.dropWhile_append_of_pos hdot, List.takeWhile_cons_of_neg (by simp),
    List.dropWhile_cons_of_neg (by simp)]
  simp

/-- **The client looks a key up under its name.** -/
theorem listedKey_text (hd : DowncasesNames downcase) (k : ConfigKey) :
    listedKey downcase k.text = k.name := by
  obtain ⟨tail, htail⟩ : ∃ tail, k.middle ++ '.' :: k.variableName = '.' :: tail := by
    rw [ConfigKey.middle]
    split
    · exact ⟨_, rfl⟩
    · exact ⟨_, rfl⟩
  have hsection := notDot k.section_chars
  obtain ⟨hlast, hrest⟩ :=
    lastComponent k.variable_chars (lower k.sectionName ++ k.middle)
  rw [listedKey, ConfigKey.text, List.takeWhile_append_of_pos hsection,
    List.dropWhile_append_of_pos hsection, htail, List.takeWhile_cons_of_neg (by simp),
    List.dropWhile_cons_of_neg (by simp), List.append_nil, ← htail, hd _ k.section_chars,
    ← List.append_assoc]
  rw [hlast, hrest, hd _ k.variable_chars, ConfigKey.name]
  simp

theorem ConfigKey.notMem_name (k : ConfigKey) : '\n' ∉ k.name ∧ nul ∉ k.name := by
  have hsection := fun c hc => isKeyChar_ne (forall_mem_lower k.section_chars c hc)
  have hvariable := fun c hc => isKeyChar_ne (forall_mem_lower k.variable_chars c hc)
  have hmiddle : '\n' ∉ k.middle ∧ nul ∉ k.middle := by
    rw [ConfigKey.middle]
    split
    · simp
    · next s hs =>
      obtain ⟨hline, hnul⟩ := k.subsection_line s hs
      have hdot : nul ≠ '.' := by decide
      simp [hline, hnul, hdot]
  have hdot : nul ≠ '.' := by decide
  simp only [ConfigKey.name, List.mem_append, List.mem_cons, not_or]
  exact ⟨⟨fun h => (hsection _ h).2.1 rfl, hmiddle.1, by decide, fun h => (hvariable _ h).2.1 rfl⟩,
    fun h => (hsection _ h).2.2 rfl, hmiddle.2, hdot, fun h => (hvariable _ h).2.2 rfl⟩

end

/-! ## What is read from the list -/

section

variable {downcase : Text → Text} {g : GitConfig}

/-- Every entry that Git lists can be read back. -/
theorem GitConfig.Documented.listable (hg : g.Documented) {arg : Option Text}
    {entry : ConfigEntry} (he : entry ∈ g.entries arg) : Listable entry := by
  obtain ⟨k, hk⟩ := hg.names arg entry he
  obtain ⟨hline, hnul⟩ := k.notMem_name
  exact ⟨hk ▸ hline, hk ▸ hnul, hg.values arg entry he⟩

/-- The item of an entry in `git config --list -z`. -/
def listItem (entry : ConfigEntry) : Text :=
  match entry.value with
  | none => entry.name
  | some value => entry.name ++ '\n' :: value

/-- The name and the value of a listed entry are read back. -/
theorem listItem_parts {entry : ConfigEntry} (h : Listable entry) :
    lineText (listItem entry) = entry.name
      ∧ behindLine (listItem entry) = shownValue entry.value := by
  rcases hvalue : entry.value with _ | value
  · rw [listItem, hvalue]
    exact ⟨lineText_of_notMem h.name_line, behindLine_of_notMem h.name_line⟩
  · have hitem : listItem entry = confItem entry := by
      rw [listItem, confItem, hvalue]
      rfl
    rw [hitem, h.lineText, h.behindLine, hvalue]
    exact ⟨rfl, rfl⟩

/-- The items of `git config --list -z` are the entries. -/
theorem magitGitItems_listZ (hg : g.Documented) :
    magitGitItems g.listZ = (g.entries none).map listItem := by
  have hitem : ∀ item ∈ (g.entries none).map listItem, nul ∉ item ∧ item ≠ [] := by
    intro item hmem
    obtain ⟨entry, he, rfl⟩ := List.mem_map.mp hmem
    have hl := hg.listable he
    obtain ⟨k, hk⟩ := hg.names none entry he
    have hname : entry.name ≠ [] := by simp [← hk, ConfigKey.name]
    have hnl : nul ≠ '\n' := by decide
    have hvalue := hl.value_nul
    rw [listItem]
    split
    · exact ⟨hl.name_nul, hname⟩
    · next value hv =>
      rw [hv] at hvalue
      simp [hl.name_nul, hnl, show nul ∉ value from hvalue]
  change splitString nul (terminated nul ((g.entries none).map listItem)) = _
  rw [splitString_terminated fun item h => (hitem item h).1]
  exact List.filter_eq_self.mpr fun item h => decide_eq_true (hitem item h).2

/-- A response has the list that the server makes of the files of the same configuration. -/
def ResponseLists {δ : Type} (g : GitConfig) (lg : Libgit2 δ)
    (gitInfo : List (MsgpackObject × MsgpackObject)) : Prop :=
  gitInfo ≠ [] → lg.repositoryConfig = 0
    ∧ (∃ last, lg.configIterator = .ok ⟨g.files none, last⟩)
    ∧ magitInfoGet magitInfoListZEnum gitInfo = some (.str (gitConfigListZ lg []).2)

/-- The entries that are listed. -/
def listedEntries (g : GitConfig) (gitInfo : List (MsgpackObject × MsgpackObject)) :
    List ConfigEntry :=
  if gitInfo = [] then g.entries none else g.files none

/-- **The list has the values under the key's name**, be it the server's or that of `git config`. -/
theorem cached_values {δ : Type} {lg : Libgit2 δ} (hg : g.Documented)
    {gitInfo : List (MsgpackObject × MsgpackObject)} (hinfo : ResponseLists g lg gitInfo)
    {confs : List Text} (hconfs : magitListZ g gitInfo = some confs) (key : Text) :
    magitConfigGetFromCachedList downcase confs key
      = (valuesOf (listedEntries g gitInfo) (listedKey downcase key)).map shownValue := by
  rw [magitListZ] at hconfs
  rw [listedEntries]
  split at hconfs
  · next hnil =>
    rw [← Option.some.inj hconfs, magitGitItems_listZ hg, if_pos hnil]
    exact magitConfigGetFromCachedList_map (fun entry he => (listItem_parts (hg.listable he)).1)
      (fun entry he => (listItem_parts (hg.listable he)).2) downcase key
  · next hne =>
    obtain ⟨hconfig, ⟨last, hiter⟩, hfield⟩ := hinfo hne
    have hlistable : ∀ entry ∈ g.files none, Listable entry := fun entry he =>
      have he' : entry ∈ g.entries none := List.mem_append_left _ he
      hg.listable he'
    rw [hfield] at hconfs
    rw [← Option.some.inj hconfs, magitParseConfigListZ_gitConfigListZ hconfig hiter hlistable,
      if_neg hne]
    exact magitConfigGetFromCachedList_map (fun entry he => (hlistable entry he).lineText)
      (fun entry he => (hlistable entry he).behindLine) downcase key

/-- The items of `git config --get-all -z` are the values, the empty ones left out. -/
theorem magitGitItems_getAllZ (hg : g.Documented) (arg : Option Text) (key : Text) :
    magitGitItems (g.getAllZ arg key) = ((g.values arg key).map shownValue).filter (· ≠ []) := by
  refine splitString_terminated fun item hitem => ?_
  obtain ⟨value, hvalue, rfl⟩ := List.mem_map.mp hitem
  rw [GitConfig.values] at hvalue
  split at hvalue
  · simp at hvalue
  · obtain ⟨entry, he, rfl⟩ := List.mem_map.mp hvalue
    exact hg.values arg entry (List.mem_filter.mp he).1

/-- The values of the key are booleans, and the last one is a true one. -/
def ReadTrue (g : GitConfig) (arg : Option Text) (key : Text) : Prop :=
  (∀ value ∈ g.values arg key, (g.bool value).isSome)
    ∧ ∃ value, (g.values arg key).getLast? = some value ∧ g.bool value = some true

/-- `git config` prints `true` exactly if it reads the values so. -/
theorem outputLine_getBool (arg : Option Text) (key : Text) :
    outputLine (g.getBool arg key) = some "true".toList ↔ ReadTrue g arg key := by
  have hnothing : outputLine [] ≠ some "true".toList := by simp [outputLine]
  rw [GitConfig.getBool, ReadTrue, ← List.all_eq_true]
  split
  · next hall =>
    rw [and_iff_right hall]
    rcases (g.values arg key).getLast? with _ | value
    · exact iff_of_false hnothing (by simp)
    · rw [Option.bind_some]
      simp only [Option.some.injEq, exists_eq_left']
      rcases g.bool value with _ | _ | _
      · exact iff_of_false hnothing (by simp)
      · exact iff_of_false (by decide) (by decide)
      · exact iff_of_true (by decide) rfl
  · next hall => exact iff_of_false hnothing fun h => hall h.1

/-! ## Where the two ways agree -/

section

variable (downcase : Text → Text) (g : GitConfig) (gitInfo : List (MsgpackObject × MsgpackObject))

/-- The values that are listed under the name the client looks a key up by. -/
def listed (key : Text) : List (Option Text) :=
  valuesOf (listedEntries g gitInfo) (listedKey downcase key)

/-- The values of the key that a response does not list. -/
def unlisted (key : Text) : List (Option Text) :=
  if gitInfo = [] then []
  else
    match g.parseKey key with
    | none => []
    | some name => valuesOf g.commandLine name

/-- A key that `git config` does not take has no values under its name either. -/
def Known (key : Text) : Prop := g.parseKey key = none → listed downcase g gitInfo key = []

/-- No value that is listed is empty or absent, and all others are. -/
def AllShown (key : Text) : Prop :=
  (∀ value ∈ listed downcase g gitInfo key, shownValue value ≠ [])
    ∧ ∀ value ∈ unlisted g gitInfo key, shownValue value = []

/-- The last value that is listed is not empty or absent, or is the last of the others that are
not. -/
def LastShown (key : Text) : Prop :=
  match (((unlisted g gitInfo key).map shownValue).filter (· ≠ [])).getLast? with
  | none => ∀ value, (listed downcase g gitInfo key).getLast? = some value → shownValue value ≠ []
  | some shown => ((listed downcase g gitInfo key).map shownValue).getLast? = some shown

/-- Where git reads the values as true the last one that is listed is spelled `true`, and where it is,
the key is one that git takes, all its values are booleans and the last one that is not listed, if
there is one, is true.  The list does not tell which scope a value is from, so that for one scope the
last value of all has to be spelled so exactly if git reads those of the scope as true. -/
def TrueSpelled (arg : Option Text) (key : Text) : Prop :=
  match arg with
  | none =>
    (ReadTrue g none key → (listed downcase g gitInfo key).getLast? = some (some "true".toList))
      ∧ ((listed downcase g gitInfo key).getLast? = some (some "true".toList) →
        g.parseKey key ≠ none ∧ (∀ value ∈ g.values none key, (g.bool value).isSome)
          ∧ ∀ value, (unlisted g gitInfo key).getLast? = some value → g.bool value = some true)
  | some scope =>
    ReadTrue g (some scope) key
      ↔ (listed downcase g gitInfo key).getLast? = some (some "true".toList)

end

variable {gitInfo : List (MsgpackObject × MsgpackObject)}

/-- The values of a key are those that the response lists and then those that it does not. -/
theorem values_eq_listed (hd : DowncasesNames downcase) (hg : g.Documented)
    (gitInfo : List (MsgpackObject × MsgpackObject)) {key name : Text}
    (h : g.parseKey key = some name) :
    g.values none key = listed downcase g gitInfo key ++ unlisted g gitInfo key := by
  obtain ⟨k, rfl, rfl⟩ := hg.parse key name h
  rw [listed, listedKey_text hd, GitConfig.values, unlisted, h, listedEntries]
  dsimp only
  split
  · rw [List.append_nil]
  · rw [GitConfig.entries, valuesOf, List.filter_append, List.map_append]
    rfl

theorem values_of_parseKey {arg : Option Text} {key : Text} (h : g.parseKey key = none) :
    g.values arg key = [] := by
  rw [GitConfig.values, h]

theorem unlisted_of_parseKey {key : Text} (h : g.parseKey key = none) :
    unlisted g gitInfo key = [] := by
  simp [unlisted, h]

/-- A list is that of the items shown of it and of another one exactly if all of it and nothing of the
other one is shown. -/
theorem eq_filter_append_iff {α : Type*} (p : α → Bool) (l rest : List α) :
    l = (l ++ rest).filter p ↔ (∀ a ∈ l, p a = true) ∧ ∀ a ∈ rest, ¬ p a = true := by
  rw [List.filter_append]
  constructor
  · intro h
    have hall : ∀ a ∈ l, p a = true := fun a ha => by
      rw [h, ← List.filter_append] at ha
      exact (List.mem_filter.mp ha).2
    refine ⟨hall, List.filter_eq_nil_iff.mp ?_⟩
    rw [List.filter_eq_self.mpr hall] at h
    exact List.self_eq_append_right.mp h
  · rintro ⟨hl, hrest⟩
    rw [List.filter_eq_self.mpr hl, List.filter_eq_nil_iff.mpr hrest, List.append_nil]

/-- Filtering keeps the last element exactly if the last element meets the condition. -/
theorem getLast?_filter_iff {α : Type*} (p : α → Bool) (l : List α) :
    l.getLast? = (l.filter p).getLast? ↔ ∀ a, l.getLast? = some a → p a = true := by
  constructor
  · intro h a ha
    exact (List.mem_filter.mp (List.mem_of_getLast? (h.symm.trans ha))).2
  · intro h
    rcases List.eq_nil_or_concat l with rfl | ⟨l, a, rfl⟩
    · rfl
    · rw [List.concat_eq_append] at h ⊢
      rw [List.filter_append, List.filter_cons_of_pos (h a (by simp))]
      simp

/-- All values agree exactly if the key is known and every one of its values is shown. -/
theorem all_agree_iff (hd : DowncasesNames downcase) (hg : g.Documented) (key : Text) :
    (listed downcase g gitInfo key).map shownValue
        = ((g.values none key).map shownValue).filter (· ≠ [])
      ↔ Known downcase g gitInfo key ∧ AllShown downcase g gitInfo key := by
  rcases hkey : g.parseKey key with _ | name
  · rw [values_of_parseKey hkey, Known, AllShown, unlisted_of_parseKey hkey, imp_iff_right hkey]
    simp only [List.map_nil, List.filter_nil, List.map_eq_nil_iff]
    refine ⟨fun h => ⟨h, ?_⟩, fun h => h.1⟩
    simp [h]
  · rw [values_eq_listed hd hg gitInfo hkey, List.map_append, eq_filter_append_iff]
    simp [Known, AllShown, hkey]

/-- The last values agree exactly if the key is known and its last value is shown. -/
theorem last_agree_iff (hd : DowncasesNames downcase) (hg : g.Documented) (key : Text) :
    ((listed downcase g gitInfo key).map shownValue).getLast?
        = (((g.values none key).map shownValue).filter (· ≠ [])).getLast?
      ↔ Known downcase g gitInfo key ∧ LastShown downcase g gitInfo key := by
  rcases hkey : g.parseKey key with _ | name
  · rw [values_of_parseKey hkey, Known, LastShown, unlisted_of_parseKey hkey, imp_iff_right hkey]
    simp only [List.map_nil, List.filter_nil, List.getLast?_nil, List.getLast?_eq_none_iff,
      List.map_eq_nil_iff]
    refine ⟨fun h => ⟨h, ?_⟩, fun h => h.1⟩
    simp [h]
  · rw [values_eq_listed hd hg gitInfo hkey, List.map_append, List.filter_append,
      List.getLast?_append, LastShown]
    rcases (((unlisted g gitInfo key).map shownValue).filter (· ≠ [])).getLast? with _ | shown
    · rw [Option.none_or, getLast?_filter_iff]
      simp [Known, hkey]
    · rw [Option.some_or]
      simp [Known, hkey]

theorem shownValue_eq_true {value : Option Text} :
    shownValue value = "true".toList ↔ value = some "true".toList := by
  cases value with
  | none => exact ⟨fun h => absurd h (by decide), fun h => absurd h (by simp)⟩
  | some value => exact Option.some_inj.symm

theorem listed_last_true (key : Text) :
    ((listed downcase g gitInfo key).map shownValue).getLast? = some "true".toList
      ↔ (listed downcase g gitInfo key).getLast? = some (some "true".toList) := by
  rw [List.getLast?_map]
  rcases (listed downcase g gitInfo key).getLast? with _ | value
  · simp
  · rw [Option.map_some, Option.some_inj, Option.some_inj, shownValue_eq_true]

/-- What is spelled `true` is read as true by git, if nothing of the key speaks against it. -/
theorem spelled_iff_readTrue (hd : DowncasesNames downcase) (hg : g.Documented) (key : Text) :
    ((listed downcase g gitInfo key).getLast? = some (some "true".toList) ↔ ReadTrue g none key)
      ↔ TrueSpelled downcase g gitInfo none key := by
  refine ⟨fun h => ⟨h.mpr, fun hspelled => ?_⟩, fun h => ⟨fun hspelled => ?_, h.1⟩⟩
  · obtain ⟨hall, value, hlast, htrue⟩ := h.mp hspelled
    rcases hkey : g.parseKey key with _ | name
    · simp [values_of_parseKey hkey] at hlast
    · refine ⟨Option.some_ne_none _, hall, fun other hother => ?_⟩
      rw [values_eq_listed hd hg gitInfo hkey, List.getLast?_append, hother,
        Option.some_or] at hlast
      rwa [Option.some.inj hlast]
  · obtain ⟨hkey, hall, hother⟩ := h.2 hspelled
    obtain ⟨name, hname⟩ := Option.ne_none_iff_exists'.mp hkey
    refine ⟨hall, ?_⟩
    rw [values_eq_listed hd hg gitInfo hname, List.getLast?_append, hspelled]
    rcases hlast : (unlisted g gitInfo key).getLast? with _ | value
    · exact ⟨some "true".toList, rfl, hg.bool_true⟩
    · exact ⟨value, rfl, hother value hlast⟩

/-- **An option read from the list is what `git config` says of it** exactly if the values are shown
alike: for all values none may be empty, for the last one that one may not, a boolean that is true
has to be spelled `true`, and what a response does not list must not matter. -/
theorem cached_agrees_iff {δ : Type} {lg : Libgit2 δ} (hd : DowncasesNames downcase)
    (hg : g.Documented) (hinfo : ResponseLists g lg gitInfo) {confs : List Text}
    (hconfs : magitListZ g gitInfo = some confs) (keys : List (Option Text)) :
    (magitGetAll downcase g confs true keys = magitGetAll downcase g confs false keys
        ↔ (configArg keys).1.isSome ∨ Known downcase g gitInfo (configArg keys).2
          ∧ AllShown downcase g gitInfo (configArg keys).2)
      ∧ (magitGet downcase g confs true keys = magitGet downcase g confs false keys
        ↔ (configArg keys).1.isSome ∨ Known downcase g gitInfo (configArg keys).2
          ∧ LastShown downcase g gitInfo (configArg keys).2)
      ∧ (magitGetBoolean downcase g confs true keys = magitGetBoolean downcase g confs false keys
        ↔ TrueSpelled downcase g gitInfo (configArg keys).1 (configArg keys).2) := by
  rcases hkeys : configArg keys with ⟨arg, key⟩
  have hcached : magitConfigGetFromCachedList downcase confs key
      = (listed downcase g gitInfo key).map shownValue := cached_values hg hinfo hconfs key
  have hall : magitGetAll downcase g confs true keys = magitGetAll downcase g confs false keys
      ↔ arg.isSome ∨ Known downcase g gitInfo key ∧ AllShown downcase g gitInfo key := by
    rw [magitGetAll, magitGetAll, hkeys]
    cases arg with
    | some scope => simp
    | none =>
      simp only [Option.isNone_none, Bool.and_true, if_true, Option.isSome_none,
        Bool.false_eq_true, if_false, false_or]
      rw [hcached, magitGitItems_getAllZ hg, all_agree_iff hd hg]
  have hlast : magitGet downcase g confs true keys = magitGet downcase g confs false keys
      ↔ arg.isSome ∨ Known downcase g gitInfo key ∧ LastShown downcase g gitInfo key := by
    rw [magitGet, magitGet, magitGetAll, magitGetAll, hkeys]
    cases arg with
    | some scope => simp
    | none =>
      simp only [Option.isNone_none, Bool.and_true, if_true, Option.isSome_none,
        Bool.false_eq_true, if_false, false_or]
      rw [hcached, magitGitItems_getAllZ hg, last_agree_iff hd hg]
  refine ⟨hall, hlast, ?_⟩
  have hboolean : magitGetBoolean downcase g confs true keys
      = magitGetBoolean downcase g confs false keys
        ↔ ((listed downcase g gitInfo key).getLast? = some (some "true".toList)
          ↔ ReadTrue g arg key) := by
    rw [magitGetBoolean, magitGetBoolean, hkeys, ← listed_last_true, ← outputLine_getBool]
    simp only [if_true, Bool.false_eq_true, if_false, hcached, decide_eq_decide]
  rw [hboolean]
  cases arg with
  | some scope => exact iff_comm
  | none => exact spelled_iff_readTrue hd hg key

/-- `git config` as the client runs it in a repository with these entries, whatever scope is asked
for: a key is taken in lower case if it has no subsection, and the booleans are those of its manual
but for numbers. -/
def plainGit (entries : List ConfigEntry) : GitConfig where
  parseKey key :=
    match key.splitOn '.' with
    | [sectionName, variableName] =>
      if sectionName.all isKeyChar && variableName.all isKeyChar
      then some (lower sectionName ++ '.' :: lower variableName) else none
    | _ => none
  files _ := entries
  commandLine := magitGitGlobalArguments
  bool value :=
    match value with
    | none => some true
    | some value =>
      if ["true".toList, "yes".toList, "on".toList].contains (lower value) then some true
      else if [[], "false".toList, "no".toList, "off".toList].contains (lower value) then some false
      else none

/-- A key of a section and a variable without a subsection. -/
def simpleKey (sectionName variableName : Text)
    (h : (∀ c ∈ sectionName, isKeyChar c = true) ∧ ∀ c ∈ variableName, isKeyChar c = true) :
    ConfigKey :=
  ⟨sectionName, none, variableName, h.1, by simp, h.2⟩

/-- The options of `magit-git-global-arguments` have well-formed names. -/
theorem names_magitGitGlobalArguments :
    ∀ entry ∈ magitGitGlobalArguments, ∃ k : ConfigKey, k.name = entry.name := by
  have hchars {s t : Text} (hs : s.all isKeyChar = true) (ht : t.all isKeyChar = true) :
      (∀ c ∈ s, isKeyChar c = true) ∧ ∀ c ∈ t, isKeyChar c = true :=
    ⟨List.all_eq_true.mp hs, List.all_eq_true.mp ht⟩
  simp only [magitGitGlobalArguments, List.forall_mem_cons]
  exact ⟨⟨simpleKey "core".toList "preloadindex".toList (hchars rfl rfl), rfl⟩,
    ⟨simpleKey "log".toList "showsignature".toList (hchars rfl rfl), rfl⟩,
    ⟨simpleKey "color".toList "ui".toList (hchars rfl rfl), rfl⟩,
    ⟨simpleKey "color".toList "diff".toList (hchars rfl rfl), rfl⟩, by simp⟩

theorem mem_entries_plainGit {entries : List ConfigEntry} {arg : Option Text} {entry : ConfigEntry}
    (h : entry ∈ (plainGit entries).entries arg) :
    entry ∈ entries ∨ entry ∈ magitGitGlobalArguments := by
  cases arg with
  | none => exact List.mem_append.mp h
  | some scope => exact .inl h

/-- A configuration that is a list of entries behaves as documented. -/
theorem documented_plainGit {entries : List ConfigEntry}
    (hnames : ∀ entry ∈ entries, ∃ k : ConfigKey, k.name = entry.name)
    (hvalues : ∀ entry ∈ entries, nul ∉ shownValue entry.value) : (plainGit entries).Documented where
  parse key name h := by
    simp only [plainGit] at h
    split at h
    · next sectionName variableName hsplit =>
      split at h
      · next hchars =>
        rw [Bool.and_eq_true, List.all_eq_true, List.all_eq_true] at hchars
        refine ⟨⟨sectionName, none, variableName, hchars.1, by simp, hchars.2⟩, ?_, ?_⟩
        · have hkey : ['.'].intercalate (key.splitOn '.') = key := List.intercalate_splitOn '.'
          rw [hsplit] at hkey
          rw [← hkey]
          simp [ConfigKey.text, ConfigKey.middle]
        · rw [← Option.some.inj h]
          simp [ConfigKey.name, ConfigKey.middle]
      · simp at h
    · simp at h
  names _ entry he := (mem_entries_plainGit he).elim (hnames entry)
    (names_magitGitGlobalArguments entry)
  values _ entry he := (mem_entries_plainGit he).elim (hvalues entry)
    ((by decide : ∀ entry ∈ magitGitGlobalArguments, nul ∉ shownValue entry.value) entry)
  bool_true := rfl

/-- A response with the list of these entries. -/
def listResponse (entries : List ConfigEntry) : List (MsgpackObject × MsgpackObject) :=
  [(.positiveInteger 4, .str (gitConfigListZ (withConfig entries) []).2)]

theorem responseLists_listResponse (entries : List ConfigEntry) :
    ResponseLists (plainGit entries) (withConfig entries) (listResponse entries) :=
  fun _ => ⟨rfl, ⟨_, rfl⟩, rfl⟩

theorem downcasesNames_lower : DowncasesNames lower := fun _ _ => rfl

/-- A boolean that was first false and then true. -/
def lastTrue : List ConfigEntry :=
  [⟨"a.b".toList, some "false".toList⟩, ⟨"a.b".toList, some "true".toList⟩]

theorem documented_lastTrue : (plainGit lastTrue).Documented := by
  have hchars : (∀ c ∈ "a".toList, isKeyChar c = true) ∧ ∀ c ∈ "b".toList, isKeyChar c = true :=
    ⟨List.all_eq_true.mp rfl, List.all_eq_true.mp rfl⟩
  refine documented_plainGit (fun entry he => ⟨simpleKey "a".toList "b".toList hchars, ?_⟩)
    (by decide)
  simp only [lastTrue, List.mem_cons, List.not_mem_nil, or_false] at he
  obtain rfl | rfl := he <;> rfl

theorem cached_agrees_lastTrue :
    magitGetBoolean lower (plainGit lastTrue) (lastTrue.map confItem) true [some "A.b".toList]
      = magitGetBoolean lower (plainGit lastTrue) (lastTrue.map confItem) false
          [some "A.b".toList] := by
  have hconfs : magitListZ (plainGit lastTrue) (listResponse lastTrue)
      = some (lastTrue.map confItem) := by decide
  exact (cached_agrees_iff downcasesNames_lower documented_lastTrue
    (responseLists_listResponse lastTrue) hconfs [some "A.b".toList]).2.2.mpr
    ⟨fun _ => by decide, fun _ => ⟨by decide, by decide, by decide⟩⟩

/-- A boolean that is spelled `yes`, an empty value, and `true` behind a value that is no boolean. -/
def yesAndEmpty : List ConfigEntry :=
  [⟨"a.b".toList, some "yes".toList⟩, ⟨"a.c".toList, some []⟩, ⟨"a.d".toList, some "foo".toList⟩,
    ⟨"a.d".toList, some "true".toList⟩]

/-- The list says otherwise than `git config`: that the first boolean is not true and the last one
is, that there is an empty value, and that an option on the command line is not set. -/
theorem cached_differs :
    let g := plainGit yesAndEmpty
    ∃ confs, magitListZ g (listResponse yesAndEmpty) = some confs
      ∧ magitGetBoolean lower g confs true [some "a.b".toList] = false
      ∧ magitGetBoolean lower g confs false [some "a.b".toList] = true
      ∧ magitGetAll lower g confs true [some "a.c".toList] = [[]]
      ∧ magitGetAll lower g confs false [some "a.c".toList] = []
      ∧ magitGetBoolean lower g confs true [some "a.d".toList] = true
      ∧ magitGetBoolean lower g confs false [some "a.d".toList] = false
      ∧ magitGet lower g confs true [some "color.ui".toList] = none
      ∧ magitGet lower g confs false [some "color.ui".toList] = some "false".toList :=
  ⟨yesAndEmpty.map confItem, by decide, by decide, by decide, by decide, by decide, by decide,
    by decide, by decide, by decide⟩

end

end Magit.Client
