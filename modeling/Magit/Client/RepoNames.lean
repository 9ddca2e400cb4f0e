import Magit.Emacs.HashTable
import Magit.Emacs.SplitString

/-!
# Client/RepoNames — names for repositories

`magit-list-repos-uniquify` puts the name of the parent directory behind a name that several
repositories have, and begins again with these.  After a number of rounds a name consists of that
many directories, from the innermost to the outermost (`keyAt`).  Two repositories that still share
theirs have both more directories than that, so that the rounds end, and names that come from
different ones differ where they first did (`magitListReposUniquify_spec`).
-/

namespace Magit.Repos

open Emacs

/-! ## File names -/

/-- `(directory-file-name file)` -/
def directoryFileName (file : List Char) : List Char :=
  let name := (file.reverse.dropWhile (· == '/')).reverse
  if file = ['/', '/'] then file else if name = [] then file.take 1 else name

/-- `(file-name-nondirectory file)` -/
def fileNameNondirectory (file : List Char) : List Char :=
  (file.reverse.takeWhile (· != '/')).reverse

/-- `(substring file 0 (- n))`; none if it signals. -/
def substringBefore (file : List Char) (n : ℕ) : Option (List Char) :=
  if n ≤ file.length then some (file.take (file.length - n)) else none

/-! ## The function -/

/-- The next name of a repository that shares its name. -/
def nextKey (key path : List Char) : Option (List Char) :=
  (substringBefore path (key.length + 1)).map fun parent =>
    key ++ '\\' :: fileNameNondirectory (directoryFileName parent)

/-- What is put into the result for an entry of the table. -/
def uniquifyEntry (rec : List (List Char × List Char) → Option (List (List Char × List Char)))
    (result : List (List Char × List Char)) (entry : List Char × List (List Char)) :
    Option (List (List Char × List Char)) :=
  match entry.2 with
  | [path] => some ((entry.1, path) :: result)
  | paths => (paths.mapM fun path => (nextKey entry.1 path).map fun key => (key, path)).bind
      fun alist => (rec alist).map fun more => result ++ more

/-- None if it signals, or does not end within a number of rounds. -/
def magitListReposUniquify : ℕ → List (List Char × List Char) →
    Option (List (List Char × List Char))
  | 0, _ => none
  | fuel + 1, alist =>
    (collect (deleteDups alist)).foldlM (uniquifyEntry (magitListReposUniquify fuel)) []

/-! ## Repositories -/

/-- An absolute path that ends in a slash. -/
structure RepoPath where
  dirs : List (List Char)
  ne_nil : ∀ dir ∈ dirs, dir ≠ []
  slash_notMem : ∀ dir ∈ dirs, '/' ∉ dir
  backslash_notMem : ∀ dir ∈ dirs, '\\' ∉ dir

/-- Directories below the root. -/
def pathText (dirs : List (List Char)) : List Char := '/' :: dirs.flatMap (· ++ ['/'])

/-- `(magit-list-repos)` gives paths; this is the alist made of them. -/
def repoAlist (paths : List RepoPath) : List (List Char × List Char) :=
  paths.map fun p => (fileNameNondirectory (directoryFileName (pathText p.dirs)), pathText p.dirs)

namespace RepoPath

/-- What the names are made of: the directories from the innermost to the outermost, and an empty
name for the root. -/
def names (p : RepoPath) : List (List Char) := p.dirs.reverse ++ [[]]

/-- The name after a number of rounds. -/
def keyAt (p : RepoPath) (m : ℕ) : List Char := ['\\'].intercalate (p.names.take m)

end RepoPath

section

variable {dirs : List (List Char)} {dir : List Char} {p q : RepoPath} {m : ℕ}

/-! ## Names of directories -/

theorem directoryFileName_slash (text : List Char) {c : Char} (hc : c ≠ '/') :
    directoryFileName (text ++ [c] ++ ['/']) = text ++ [c] := by
  have hstrip : ((text ++ [c] ++ ['/']).reverse.dropWhile (· == '/')).reverse = text ++ [c] := by
    rw [List.reverse_append, List.reverse_append, List.reverse_singleton, List.reverse_singleton,
      List.singleton_append, List.singleton_append, List.dropWhile_cons_of_pos rfl,
      List.dropWhile_cons_of_neg (by simpa using hc), List.reverse_cons, List.reverse_reverse]
  have hroot : text ++ [c] ++ ['/'] ≠ ['/', '/'] := by
    intro h
    have hsplit : text ++ [c] ++ ['/'] = ([] ++ ['/']) ++ ['/'] := h
    exact hc (List.append_singleton_inj.mp (List.append_cancel_right hsplit)).2
  rw [directoryFileName, if_neg hroot, hstrip, if_neg (by simp)]

/-- The last component behind a slash. -/
theorem fileNameNondirectory_slash (text : List Char) (h : '/' ∉ dir) :
    fileNameNondirectory (text ++ ['/'] ++ dir) = dir := by
  have hrun : ∀ c ∈ dir.reverse, (c != '/') = true := by
    intro c hc
    exact bne_iff_ne.mpr fun heq => h (heq ▸ List.mem_reverse.mp hc)
  have hreverse : (text ++ ['/'] ++ dir).reverse = dir.reverse ++ '/' :: text.reverse := by simp
  rw [fileNameNondirectory, hreverse, List.takeWhile_append_of_pos hrun,
    List.takeWhile_cons_of_neg (by decide), List.append_nil, List.reverse_reverse]

theorem pathText_concat (dirs : List (List Char)) (dir : List Char) :
    pathText (dirs ++ [dir]) = pathText dirs ++ dir ++ ['/'] := by
  rw [pathText, pathText, List.flatMap_append, List.flatMap_singleton, List.cons_append,
    List.cons_append, List.append_assoc]

theorem exists_pathText (dirs : List (List Char)) : ∃ text, pathText dirs = text ++ ['/'] := by
  induction dirs using List.reverseRecOn with
  | nil => exact ⟨[], rfl⟩
  | append_singleton dirs dir _ => exact ⟨pathText dirs ++ dir, pathText_concat dirs dir⟩

/-- The name of the innermost directory. -/
theorem fileName_pathText (dirs : List (List Char)) (hne : dir ≠ []) (hslash : '/' ∉ dir) :
    fileNameNondirectory (directoryFileName (pathText (dirs ++ [dir]))) = dir := by
  obtain ⟨text, htext⟩ := exists_pathText dirs
  have hlast : dir.getLast hne ≠ '/' := fun h => hslash (h ▸ List.getLast_mem hne)
  have hdir := List.dropLast_append_getLast hne
  have hpath : pathText (dirs ++ [dir])
      = text ++ ['/'] ++ dir.dropLast ++ [dir.getLast hne] ++ ['/'] := by
    rw [pathText_concat, htext, List.append_assoc _ dir.dropLast, hdir]
  rw [hpath, directoryFileName_slash _ hlast, List.append_assoc _ dir.dropLast, hdir,
    fileNameNondirectory_slash text hslash]

/-! ## Names of repositories -/

theorem mem_names_of_mem (h : dir ∈ p.names) : dir ∈ p.dirs ∨ dir = [] := by
  rcases List.mem_append.mp h with h | h
  · exact Or.inl (List.mem_reverse.mp h)
  · exact Or.inr (List.mem_singleton.mp h)

theorem backslash_notMem_names (h : dir ∈ p.names) : '\\' ∉ dir := by
  rcases mem_names_of_mem h with h | rfl
  · exact p.backslash_notMem dir h
  · exact List.not_mem_nil

/-- A path is determined by its directories. -/
theorem dirs_injective (h : p.dirs = q.dirs) : p = q := by
  cases p
  cases q
  cases h
  rfl

theorem length_names (p : RepoPath) : p.names.length = p.dirs.length + 1 := by
  rw [RepoPath.names, List.length_append, List.length_reverse, List.length_singleton]

/-- The names can be read off a name. -/
theorem take_names_of_keyAt (hp : 0 < m) {k : ℕ} (hk : 0 < k) (h : p.keyAt m = q.keyAt k) :
    p.names.take m = q.names.take k := by
  have hread : ∀ (r : RepoPath) {n : ℕ}, 0 < n → (r.keyAt n).splitOn '\\' = r.names.take n := by
    intro r n hn
    refine List.splitOn_intercalate '\\' (fun dir hdir => ?_) fun hnil => ?_
    · exact backslash_notMem_names (List.mem_of_mem_take hdir)
    · have hlen := congrArg List.length hnil
      rw [List.length_take, length_names, List.length_nil] at hlen
      omega
  rw [← hread p hp, ← hread q hk, h]

/-- Of two repositories that share a name each has a directory more. -/
theorem length_of_keyAt (hm : 0 < m) (h : p.keyAt m = q.keyAt m) (hne : p ≠ q) :
    m ≤ p.dirs.length := by
  by_contra hlt
  have htake := take_names_of_keyAt hm hm h
  refine hne (dirs_injective ?_)
  have hall : p.names.take m = p.names :=
    List.take_of_length_le (by rw [length_names]; omega)
  rw [hall] at htake
  rcases Nat.lt_or_ge q.dirs.length m with hlong | hshort
  · have hwhole : q.names.take m = q.names :=
      List.take_of_length_le (by rw [length_names]; omega)
    rw [hwhole] at htake
    exact List.reverse_injective (List.append_cancel_right htake)
  · -- the root would be a directory of the other
    have hroot : [] ∈ q.names.take m := by
      rw [← htake]
      exact List.mem_append_right _ List.mem_cons_self
    rw [RepoPath.names, List.take_append_of_le_length (by rwa [List.length_reverse])] at hroot
    exact absurd rfl (q.ne_nil [] (List.mem_reverse.mp (List.mem_of_mem_take hroot)))

/-! ## One round -/

/-- The name of a directory, or of the root. -/
theorem head?_names (p : RepoPath) {outer inner : List (List Char)} (h : p.dirs = outer ++ inner) :
    (outer.reverse ++ [[]]).head?
      = some (fileNameNondirectory (directoryFileName (pathText outer))) := by
  rcases List.eq_nil_or_concat' outer with rfl | ⟨dirs, dir, rfl⟩
  · rfl
  · have hmem : dir ∈ p.dirs := by
      rw [h]
      exact List.mem_append_left _ (List.mem_append_right _ List.mem_cons_self)
    rw [fileName_pathText dirs (p.ne_nil dir hmem) (p.slash_notMem dir hmem), List.reverse_append]
    rfl

/-- The first key is the last component. -/
theorem keyAt_one (p : RepoPath) :
    p.keyAt 1 = fileNameNondirectory (directoryFileName (pathText p.dirs)) := by
  have hhead := head?_names p (List.append_nil p.dirs).symm
  obtain ⟨rest, hnames⟩ := List.head?_eq_some_iff.mp hhead
  rw [RepoPath.keyAt, RepoPath.names, hnames]
  exact List.intercalate_singleton

/-- One more item is put behind one more separator. -/
theorem intercalate_concat {sep : Char} {l : List (List Char)} (hne : l ≠ []) (item : List Char) :
    [sep].intercalate (l ++ [item]) = [sep].intercalate l ++ sep :: item := by
  induction l with
  | nil => exact absurd rfl hne
  | cons a l ih =>
    rcases l with _ | ⟨b, l⟩
    · rw [List.singleton_append, List.intercalate_cons_cons, List.intercalate_singleton,
        List.intercalate_singleton, List.append_assoc]
      rfl
    · rw [List.cons_append, List.cons_append, List.intercalate_cons_cons, ← List.cons_append,
        ih (List.cons_ne_nil _ _), List.intercalate_cons_cons, List.append_assoc, List.append_assoc,
        List.append_assoc]

/-- The name is as long as the directories it consists of, with a slash behind each but one. -/
theorem length_intercalate {sep : Char} {l : List (List Char)} (hne : l ≠ []) :
    ([sep].intercalate l).length + 1 = (l.flatMap (· ++ ['/'])).length := by
  induction l with
  | nil => exact absurd rfl hne
  | cons a l ih =>
    rw [List.flatMap_cons, List.length_append, List.length_append, List.length_singleton]
    by_cases hl : l = []
    · rw [hl, List.intercalate_singleton]
      rfl
    · rw [List.intercalate_cons_of_ne_nil hl, List.length_append, List.length_append,
        List.length_singleton, ← ih hl, Nat.add_assoc]

/-- A round with a repository that has another directory. -/
theorem nextKey_keyAt (hm : 0 < m) (hlen : m ≤ p.dirs.length) :
    nextKey (p.keyAt m) (pathText p.dirs) = some (p.keyAt (m + 1)) := by
  obtain ⟨outer, inner, hsplit, hinner⟩ : ∃ outer inner, p.dirs = outer ++ inner ∧
      inner.length = m := by
    refine ⟨_, _, (List.take_append_drop (p.dirs.length - m) p.dirs).symm, ?_⟩
    rw [List.length_drop]
    omega
  have hne : inner.reverse ≠ [] := by
    intro h
    rw [List.reverse_eq_nil_iff] at h
    rw [h, List.length_nil] at hinner
    omega
  obtain ⟨rest, hrest⟩ := List.head?_eq_some_iff.mp (head?_names p hsplit)
  have hnames : p.names = inner.reverse ++ (outer.reverse ++ [[]]) := by
    rw [RepoPath.names, hsplit, List.reverse_append, List.append_assoc]
  have hkey : p.keyAt m = ['\\'].intercalate inner.reverse := by
    rw [RepoPath.keyAt, hnames, List.take_left' (by rw [List.length_reverse, hinner])]
  have hnext : p.keyAt (m + 1) = ['\\'].intercalate inner.reverse
      ++ '\\' :: fileNameNondirectory (directoryFileName (pathText outer)) := by
    have htake : p.names.take (m + 1)
        = inner.reverse ++ [fileNameNondirectory (directoryFileName (pathText outer))] := by
      rw [hnames, hrest, ← hinner, ← List.length_reverse, List.take_length_add_append]
      rfl
    rw [RepoPath.keyAt, htake, intercalate_concat hne]
  have hlength : (['\\'].intercalate inner.reverse).length + 1
      = (inner.flatMap (· ++ ['/'])).length := by
    rw [length_intercalate hne]
    exact ((List.reverse_perm inner).flatMap_right _).length_eq
  have hpath : pathText p.dirs = pathText outer ++ inner.flatMap (· ++ ['/']) := by
    rw [pathText, pathText, hsplit, List.flatMap_append, List.cons_append]
  have hparent : substringBefore (pathText p.dirs) ((p.keyAt m).length + 1)
      = some (pathText outer) := by
    rw [substringBefore, hkey, hlength, hpath, List.length_append,
      if_pos (Nat.le_add_left _ _), Nat.add_sub_cancel, List.take_left]
  rw [nextKey, hparent, Option.map_some, hnext, hkey]

/-- A path is determined by its text. -/
theorem pathText_injective (h : pathText p.dirs = pathText q.dirs) : p = q := by
  have hdirs : p.dirs ++ [[]] = q.dirs ++ [[]] := by
    rw [← splitOn_terminated p.slash_notMem, ← splitOn_terminated q.slash_notMem]
    exact congrArg (List.splitOn '/') (List.cons.inj h).2
  exact dirs_injective (List.append_cancel_right hdirs)

/-- Who has the same name later has had it before. -/
theorem keyAt_eq_of_keyAt (hm : 0 < m) {k k' : ℕ} (hk : m ≤ k) (hk' : m ≤ k')
    (h : p.keyAt k = q.keyAt k') : p.keyAt m = q.keyAt m := by
  have htake := take_names_of_keyAt (Nat.lt_of_lt_of_le hm hk) (Nat.lt_of_lt_of_le hm hk') h
  have hm' := congrArg (List.take m) htake
  rw [List.take_take, List.take_take, Nat.min_eq_left hk, Nat.min_eq_left hk'] at hm'
  rw [RepoPath.keyAt, RepoPath.keyAt, hm']

/-! ## The table -/

/-- What has been found for the entries of a table: every path with a name that begins with its
key, once, and no name twice. -/
structure FoundIn (m : ℕ) (ps : List RepoPath) (table : List (List Char × List (List Char)))
    (found : List (List Char × List Char)) : Prop where
  entry : ∀ x ∈ found, ∃ e ∈ table, ∃ p ∈ ps, p.keyAt m = e.1 ∧
    ∃ k, m ≤ k ∧ x = (p.keyAt k, pathText p.dirs)
  value : ∀ e ∈ table, ∀ v ∈ e.2, v ∈ found.map Prod.snd
  keys_nodup : (found.map Prod.fst).Nodup
  values_nodup : (found.map Prod.snd).Nodup

theorem foundIn_nil (m : ℕ) (ps : List RepoPath) : FoundIn m ps [] [] where
  entry _ h := absurd h List.not_mem_nil
  value _ h := absurd h List.not_mem_nil
  keys_nodup := List.nodup_nil
  values_nodup := List.nodup_nil

/-- The order of what was found does not matter. -/
theorem FoundIn.perm {ps : List RepoPath} {table : List (List Char × List (List Char))}
    {found found' : List (List Char × List Char)} (h : FoundIn m ps table found)
    (hperm : found'.Perm found) : FoundIn m ps table found' where
  entry x hx := h.entry x (hperm.mem_iff.mp hx)
  value e he v hv := (hperm.map Prod.snd).mem_iff.mpr (h.value e he v hv)
  keys_nodup := (hperm.map Prod.fst).nodup_iff.mpr h.keys_nodup
  values_nodup := (hperm.map Prod.snd).nodup_iff.mpr h.values_nodup

/-- An entry with another key does not come into the way of the others. -/
theorem FoundIn.cons (hm : 0 < m) {ps : List RepoPath} {e : List Char × List (List Char)}
    {table : List (List Char × List (List Char))} {more found : List (List Char × List Char)}
    (hmore : FoundIn m ps [e] more) (hfound : FoundIn m ps table found)
    (hkey : e.1 ∉ table.map Prod.fst) : FoundIn m ps (e :: table) (more ++ found) := by
  have hdisjoint : ∀ x ∈ more, ∀ y ∈ found, x.1 ≠ y.1 ∧ x.2 ≠ y.2 := by
    intro x hx y hy
    obtain ⟨e', he', p, -, hp, k, hk, rfl⟩ := hmore.entry x hx
    obtain rfl := List.mem_singleton.mp he'
    obtain ⟨e'', he'', q, -, hq, k', hk', rfl⟩ := hfound.entry y hy
    have hne : p.keyAt m ≠ q.keyAt m := by
      rw [hp, hq]
      exact fun h => hkey (h ▸ List.mem_map_of_mem he'')
    refine ⟨fun h => hne (keyAt_eq_of_keyAt hm hk hk' h), fun h => hne ?_⟩
    rw [pathText_injective h]
  have hnodup : ∀ g : List Char × List Char → List Char, (∀ x ∈ more, ∀ y ∈ found, g x ≠ g y) →
      (more.map g).Nodup → (found.map g).Nodup → ((more ++ found).map g).Nodup := by
    intro g hg hleft hright
    rw [List.map_append]
    refine List.nodup_append.mpr ⟨hleft, hright, fun a ha b hb => ?_⟩
    obtain ⟨x, hx, rfl⟩ := List.mem_map.mp ha
    obtain ⟨y, hy, rfl⟩ := List.mem_map.mp hb
    exact hg x hx y hy
  refine ⟨fun x hx => ?_, fun e' he' v hv => ?_, ?_, ?_⟩
  · rcases List.mem_append.mp hx with hx | hx
    · obtain ⟨e', he', hrest⟩ := hmore.entry x hx
      obtain rfl := List.mem_singleton.mp he'
      exact ⟨e', List.mem_cons_self, hrest⟩
    · obtain ⟨e', he', hrest⟩ := hfound.entry x hx
      exact ⟨e', List.mem_cons_of_mem _ he', hrest⟩
  · rw [List.map_append, List.mem_append]
    rcases List.mem_cons.mp he' with rfl | he'
    · exact Or.inl (hmore.value e' List.mem_cons_self v hv)
    · exact Or.inr (hfound.value e' he' v hv)
  · exact hnodup Prod.fst (fun x hx y hy => (hdisjoint x hx y hy).1) hmore.keys_nodup
      hfound.keys_nodup
  · exact hnodup Prod.snd (fun x hx y hy => (hdisjoint x hx y hy).2) hmore.values_nodup
      hfound.values_nodup

/-- The entries are dealt with one after the other. -/
theorem foldlM_uniquifyEntry (hm : 0 < m) {ps : List RepoPath}
    {rec : List (List Char × List Char) → Option (List (List Char × List Char))}
    {table : List (List Char × List (List Char))} (hnodup : (table.map Prod.fst).Nodup)
    (h : ∀ e ∈ table, ∃ more, FoundIn m ps [e] more ∧ ∀ result, ∃ result',
      uniquifyEntry rec result e = some result' ∧ result'.Perm (result ++ more))
    (result : List (List Char × List Char)) : ∃ found, FoundIn m ps table found ∧ ∃ result',
      table.foldlM (uniquifyEntry rec) result = some result' ∧
        result'.Perm (result ++ found) := by
  induction table generalizing result with
  | nil => exact ⟨[], foundIn_nil m ps, result, rfl, by rw [List.append_nil]⟩
  | cons e table ih =>
    obtain ⟨he, htable⟩ := List.forall_mem_cons.mp h
    obtain ⟨hkey, hrest⟩ := List.nodup_cons.mp hnodup
    obtain ⟨more, hmore, hstep⟩ := he
    obtain ⟨result', hresult', hperm'⟩ := hstep result
    obtain ⟨found, hfound, result'', hresult'', hperm''⟩ := ih hrest htable result'
    refine ⟨more ++ found, hmore.cons hm hfound hkey, result'', ?_, ?_⟩
    · rw [List.foldlM_cons, hresult']
      exact hresult''
    · rw [← List.append_assoc]
      exact hperm''.trans (hperm'.append_right found)

/-! ## All rounds -/

/-- The alist with which a round begins. -/
def keyed (m : ℕ) (ps : List RepoPath) : List (List Char × List Char) :=
  ps.map fun p => (p.keyAt m, pathText p.dirs)

/-- Every path once, with a name of its own. -/
structure Unique (ps : List RepoPath) (result : List (List Char × List Char)) : Prop where
  path : ∀ v, v ∈ result.map Prod.snd ↔ ∃ p ∈ ps, pathText p.dirs = v
  paths_nodup : (result.map Prod.snd).Nodup
  keys_nodup : (result.map Prod.fst).Nodup

/-- The keyed list has each path under its key. -/
theorem mem_keyed {ps : List RepoPath} {key v : List Char} :
    (key, v) ∈ keyed m ps ↔ ∃ p ∈ ps, p.keyAt m = key ∧ pathText p.dirs = v := by
  rw [keyed, List.mem_map]
  constructor
  · rintro ⟨p, hp, heq⟩
    exact ⟨p, hp, (Prod.mk.inj heq).1, (Prod.mk.inj heq).2⟩
  · rintro ⟨p, hp, rfl, rfl⟩
    exact ⟨p, hp, rfl⟩

/-- The paths under a key. -/
theorem mem_group {ps : List RepoPath} {key v : List Char} {vs : List (List Char)}
    (h : (key, vs) ∈ collect (deleteDups (keyed m ps))) :
    v ∈ vs ↔ ∃ p ∈ ps, p.keyAt m = key ∧ pathText p.dirs = v := by
  rw [values_of_mem_collect h, List.mem_reverse, mem_valuesOf, mem_deleteDups, mem_keyed]

/-- A list whose elements all have a preimage is the image of a list. -/
theorem exists_map_of_forall_mem {α β : Type*} {P : α → Prop} {g : α → β} {l : List β}
    (h : ∀ b ∈ l, ∃ a, P a ∧ g a = b) : ∃ l' : List α, (∀ a ∈ l', P a) ∧ l = l'.map g := by
  induction l with
  | nil => exact ⟨[], fun a ha => absurd ha List.not_mem_nil, rfl⟩
  | cons b l ih =>
    obtain ⟨⟨a, ha, rfl⟩, hl⟩ := List.forall_mem_cons.mp h
    obtain ⟨l', hl', rfl⟩ := ih hl
    exact ⟨a :: l', List.forall_mem_cons.mpr ⟨ha, hl'⟩, rfl⟩

/-- The repositories that share a key. -/
theorem exists_group {ps : List RepoPath} {e : List Char × List (List Char)}
    (he : e ∈ collect (deleteDups (keyed m ps))) : ∃ qs : List RepoPath,
      (∀ q ∈ qs, q ∈ ps ∧ q.keyAt m = e.1) ∧ qs.Nodup ∧ qs ≠ [] ∧
        e.2 = qs.map fun q => pathText q.dirs := by
  obtain ⟨key, vs⟩ := e
  have hchoose : ∀ v ∈ vs, ∃ q, (q ∈ ps ∧ q.keyAt m = key) ∧ pathText q.dirs = v := by
    intro v hv
    obtain ⟨p, hp, hkey, hv'⟩ := (mem_group he).mp hv
    exact ⟨p, ⟨hp, hkey⟩, hv'⟩
  obtain ⟨qs, hqs, hmap⟩ := exists_map_of_forall_mem hchoose
  have hnodup : vs.Nodup := by
    rw [values_of_mem_collect he, List.nodup_reverse]
    refine ((nodup_deleteDups _).filter _).map_on ?_
    rintro ⟨k, v⟩ hx ⟨k', v'⟩ hy hsame
    have hk : k = key := of_decide_eq_true (List.mem_filter.mp hx).2
    have hk' : k' = key := of_decide_eq_true (List.mem_filter.mp hy).2
    exact Prod.ext (hk.trans hk'.symm) hsame
  have hne : qs ≠ [] := by
    rintro rfl
    have hkey : key ∈ (collect (deleteDups (keyed m ps))).map Prod.fst := List.mem_map_of_mem he
    obtain ⟨⟨k, v⟩, hmem, rfl⟩ := List.mem_map.mp (mem_keys_collect.mp hkey)
    have hv : v ∈ vs := (mem_group he).mpr (mem_keyed.mp (mem_deleteDups.mp hmem))
    rw [hmap] at hv
    exact List.not_mem_nil hv
  exact ⟨qs, hqs, List.Nodup.of_map _ (hmap ▸ hnodup), hne, hmap⟩

/-- No path of the alist is lost. -/
theorem FoundIn.path_mem {ps : List RepoPath} {found : List (List Char × List Char)}
    (h : FoundIn m ps (collect (deleteDups (keyed m ps))) found) (hp : p ∈ ps) :
    pathText p.dirs ∈ found.map Prod.snd := by
  have hkey : p.keyAt m ∈ (collect (deleteDups (keyed m ps))).map Prod.fst :=
    mem_keys_collect.mpr (List.mem_map_of_mem (mem_deleteDups.mpr (List.mem_map_of_mem hp)))
  obtain ⟨⟨key, vs⟩, he, hsame⟩ := List.mem_map.mp hkey
  exact h.value _ he _ ((mem_group he).mpr ⟨p, hp, hsame.symm, rfl⟩)

/-- Every path of a group gets its next key. -/
theorem mapM_nextKey {key : List Char} {qs : List RepoPath}
    (h : ∀ q ∈ qs, nextKey key (pathText q.dirs) = some (q.keyAt (m + 1))) :
    ((qs.map fun q => pathText q.dirs).mapM fun path =>
      (nextKey key path).map fun next => (next, path)) = some (keyed (m + 1) qs) := by
  induction qs with
  | nil => rfl
  | cons q qs ih =>
    obtain ⟨hq, hqs⟩ := List.forall_mem_cons.mp h
    rw [List.map_cons, List.mapM_cons, hq, ih hqs]
    rfl

/-- A group of several paths is taken apart by their next keys. -/
theorem uniquifyEntry_of_length
    {rec : List (List Char × List Char) → Option (List (List Char × List Char))}
    {e : List Char × List (List Char)} (h : e.2.length ≠ 1)
    (result : List (List Char × List Char)) : uniquifyEntry rec result e
      = (e.2.mapM fun path => (nextKey e.1 path).map fun key => (key, path)).bind
        fun alist => (rec alist).map fun more => result ++ more := by
  obtain ⟨key, vs⟩ := e
  match vs, h with
  | [], _ => rfl
  | _ :: _ :: _, _ => rfl

/-- In a list of several different elements there is another one. -/
theorem exists_mem_ne_of_nodup {α : Type*} {l : List α} (hnodup : l.Nodup) (hlen : 1 < l.length)
    (a : α) : ∃ b ∈ l, b ≠ a := by
  match l, hlen with
  | b :: c :: l, _ =>
    by_cases hb : b = a
    · refine ⟨c, List.mem_cons_of_mem _ List.mem_cons_self, ?_⟩
      rintro rfl
      exact (List.nodup_cons.mp hnodup).1 (hb ▸ List.mem_cons_self)
    · exact ⟨b, List.mem_cons_self, hb⟩

/-- An entry with several paths goes through another round. -/
theorem exists_more (hm : 0 < m) {fuel : ℕ} {ps : List RepoPath}
    {e : List Char × List (List Char)} (he : e ∈ collect (deleteDups (keyed m ps)))
    (hlen : ∀ p ∈ ps, p.dirs.length < fuel + m)
    (ih : 0 < fuel → ∀ qs : List RepoPath, (∀ q ∈ qs, q.dirs.length < fuel + m) → ∃ result,
      magitListReposUniquify fuel (keyed (m + 1) qs) = some result ∧
        FoundIn (m + 1) qs (collect (deleteDups (keyed (m + 1) qs))) result) :
    ∃ more, FoundIn m ps [e] more ∧ ∀ result, ∃ result',
      uniquifyEntry (magitListReposUniquify fuel) result e = some result' ∧
        result'.Perm (result ++ more) := by
  obtain ⟨qs, hqs, hnodup, hne, hmap⟩ := exists_group he
  by_cases hone : e.2.length = 1
  · -- its name is its own
    obtain ⟨v, hv⟩ := List.length_eq_one_iff.mp hone
    obtain ⟨p, hp, hkey, hpath⟩ := (mem_group he).mp (hv ▸ List.mem_singleton_self v)
    refine ⟨[(e.1, v)], ⟨fun x hx => ?_, fun e' he' v' hv' => ?_, ?_, ?_⟩, fun result => ?_⟩
    · obtain rfl := List.mem_singleton.mp hx
      exact ⟨e, List.mem_singleton_self e, p, hp, hkey, m, Nat.le_refl m, by rw [hkey, hpath]⟩
    · obtain rfl := List.mem_singleton.mp he'
      rwa [hv] at hv'
    · exact List.nodup_singleton _
    · exact List.nodup_singleton _
    · refine ⟨(e.1, v) :: result, ?_, (List.perm_append_singleton _ _).symm⟩
      rw [uniquifyEntry, hv]
  · have hdirs : ∀ q ∈ qs, m ≤ q.dirs.length := by
      intro q hq
      have hlength : 1 < qs.length := by
        have hpos := List.length_pos_iff.mpr hne
        rw [hmap, List.length_map] at hone
        omega
      obtain ⟨q', hq', hdiff⟩ := exists_mem_ne_of_nodup hnodup hlength q
      exact length_of_keyAt hm ((hqs q hq).2.trans (hqs q' hq').2.symm) hdiff.symm
    obtain ⟨q, hq⟩ := List.exists_mem_of_ne_nil qs hne
    have hfuel : 0 < fuel := by
      have hq' := hlen q (hqs q hq).1
      have hm' := hdirs q hq
      omega
    obtain ⟨more, hmore, hfound⟩ := ih hfuel qs fun q hq => hlen q (hqs q hq).1
    have hkeys : e.2.mapM (fun path => (nextKey e.1 path).map fun key => (key, path))
        = some (keyed (m + 1) qs) := by
      rw [hmap]
      refine mapM_nextKey fun q hq => ?_
      rw [← (hqs q hq).2]
      exact nextKey_keyAt hm (hdirs q hq)
    refine ⟨more, ⟨fun x hx => ?_, fun e' he' v hv => ?_, hfound.keys_nodup, hfound.values_nodup⟩,
      fun result => ⟨result ++ more, ?_, List.Perm.refl _⟩⟩
    · obtain ⟨-, -, q, hq, -, k, hk, hx⟩ := hfound.entry x hx
      exact ⟨e, List.mem_singleton_self e, q, (hqs q hq).1, (hqs q hq).2, k,
        Nat.le_of_succ_le hk, hx⟩
    · obtain rfl := List.mem_singleton.mp he'
      rw [hmap] at hv
      obtain ⟨q, hq, rfl⟩ := List.mem_map.mp hv
      exact hfound.path_mem hq
    · rw [uniquifyEntry_of_length hone, hkeys, Option.bind_some, hmore, Option.map_some]

/-- A round that begins with directories left for all the rounds to come. -/
theorem exists_found (hm : 0 < m) {fuel : ℕ} {ps : List RepoPath}
    (hlen : ∀ p ∈ ps, p.dirs.length < fuel + m) : ∃ result,
      magitListReposUniquify (fuel + 1) (keyed m ps) = some result ∧
        FoundIn m ps (collect (deleteDups (keyed m ps))) result := by
  induction fuel generalizing m ps with
  | zero =>
    obtain ⟨found, hfound, result, hresult, hperm⟩ := foldlM_uniquifyEntry hm
      (nodup_keys_collect (deleteDups (keyed m ps)))
      (fun e he => exists_more hm he hlen fun hzero => absurd hzero (Nat.lt_irrefl 0)) []
    exact ⟨result, hresult, hfound.perm hperm⟩
  | succ fuel ih =>
    have hmore : 0 < fuel + 1 → ∀ qs : List RepoPath,
        (∀ q ∈ qs, q.dirs.length < fuel + 1 + m) → ∃ result,
        magitListReposUniquify (fuel + 1) (keyed (m + 1) qs) = some result ∧
          FoundIn (m + 1) qs (collect (deleteDups (keyed (m + 1) qs))) result := by
      intro _ qs hqs
      refine ih (Nat.succ_pos m) fun q hq => ?_
      have hq' := hqs q hq
      omega
    obtain ⟨found, hfound, result, hresult, hperm⟩ := foldlM_uniquifyEntry hm
      (nodup_keys_collect (deleteDups (keyed m ps)))
      (fun e he => exists_more hm he hlen hmore) []
    exact ⟨result, hresult, hfound.perm hperm⟩

/-- No path is longer than some depth. -/
theorem exists_depth (paths : List RepoPath) : ∃ depth, ∀ p ∈ paths, p.dirs.length < depth + 1 := by
  induction paths with
  | nil => exact ⟨0, fun p hp => absurd hp List.not_mem_nil⟩
  | cons p paths ih =>
    obtain ⟨depth, hdepth⟩ := ih
    refine ⟨p.dirs.length + depth, List.forall_mem_cons.mpr ⟨?_, fun q hq => ?_⟩⟩
    · omega
    · have hq' := hdepth q hq
      omega

/-- **The names are unique**: the function ends without a signal, with every path once and no name
twice. -/
theorem magitListReposUniquify_spec (paths : List RepoPath) : ∃ fuel result,
    magitListReposUniquify fuel (repoAlist paths) = some result ∧ Unique paths result := by
  obtain ⟨depth, hdepth⟩ := exists_depth paths
  obtain ⟨result, hresult, hfound⟩ := exists_found Nat.one_pos hdepth
  have halist : repoAlist paths = keyed 1 paths := by
    rw [repoAlist, keyed]
    exact List.map_congr_left fun p _ => by rw [keyAt_one]
  refine ⟨depth + 1, result, halist ▸ hresult, fun v => ⟨fun hv => ?_, ?_⟩, hfound.values_nodup,
    hfound.keys_nodup⟩
  · obtain ⟨x, hx, rfl⟩ := List.mem_map.mp hv
    obtain ⟨-, -, p, hp, -, k, -, rfl⟩ := hfound.entry x hx
    exact ⟨p, hp, rfl⟩
  · rintro ⟨p, hp, rfl⟩
    exact hfound.path_mem hp

end

end Magit.Repos
