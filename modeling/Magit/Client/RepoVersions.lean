import Magit.Emacs.Version

/-!
# Client/RepoVersions — sorting repositories by version

`magit-repolist-version<` says of two cells without a number that each is less than the other.  It
is the order of the versions if all cells have one (`strictWeakOrderOn_iff`).
-/

namespace Magit.Repos

open Emacs

/-- The first match of `[0-9]+\(\.[0-9]*\)*`. -/
def cellVersion (cell : List Char) : Option (List Char) :=
  let text := cell.dropWhile fun c => !c.isDigit
  if text = [] then none else some (text.takeWhile fun c => c.isDigit || c == '.')

/-- `version<`; none if it signals. -/
def versionLt (f : CaseFold) (a b : List Char) : Option Bool :=
  (versionToList f (versionRegexpAlist f) a).bind fun l =>
    (versionToList f (versionRegexpAlist f) b).map fun l' => versionListLt l l'

/-- `magit-repolist-version<`; none where it signals. -/
def magitRepolistVersionLt (f : CaseFold) (a b : List Char) : Option Bool :=
  match cellVersion a, cellVersion b with
  | some a, some b => versionLt f a b
  | none, some _ => some false
  | _, none => some true

/-- An entry of the list. -/
structure Row where
  path : List Char
  cells : List (List Char)

/-- `magit-repolist-make-sorter`, for what is in a column. -/
def magitRepolistMakeSorter {β : Type*} (sortPredicate : β → β → Option Bool)
    (convertCell : List Char → β) (columnIdx : ℕ) (a b : Row) : Option Bool :=
  a.cells[columnIdx]?.bind fun cell => b.cells[columnIdx]?.bind fun cell' =>
    sortPredicate (convertCell cell) (convertCell cell')

/-- A strict weak order, which does not signal. -/
structure StrictWeakOrderOn {α : Type*} (S : Set α) (r : α → α → Option Bool) : Prop where
  defined : ∀ a ∈ S, ∀ b ∈ S, r a b ≠ none
  irrefl : ∀ a ∈ S, r a a ≠ some true
  asymm : ∀ a ∈ S, ∀ b ∈ S, r a b = some true → r b a ≠ some true
  trans : ∀ a ∈ S, ∀ b ∈ S, ∀ c ∈ S, r a b = some true → r b c = some true → r a c = some true
  incomp_trans : ∀ a ∈ S, ∀ b ∈ S, ∀ c ∈ S, r a b ≠ some true → r b a ≠ some true →
    r b c ≠ some true → r c b ≠ some true → r a c ≠ some true ∧ r c a ≠ some true

/-- The cell has a number, and there are no two dots next to each other in its version. -/
def WithVersion (cell : List Char) : Prop :=
  ∃ v, cellVersion cell = some v ∧ ¬['.', '.'] <:+: v

section

variable {f : CaseFold} {a b cell v : List Char}

/-- A version begins with a digit, and numbers and dots follow. -/
theorem exists_of_cellVersion (h : cellVersion cell = some v) : ∃ c text, v = c :: text ∧
    c.isDigit = true ∧ ∀ d ∈ text, d.isDigit = true ∨ d = '.' := by
  rw [cellVersion] at h
  split at h
  · cases h
  next hne =>
    obtain rfl := Option.some.inj h
    obtain ⟨c, rest, hrest⟩ := List.exists_cons_of_ne_nil hne
    have hnot := List.head?_dropWhile_not (fun c : Char => !c.isDigit) cell
    rw [hrest, List.head?_cons] at hnot
    have hc : c.isDigit = true := by simpa using hnot
    refine ⟨c, rest.takeWhile fun c => c.isDigit || c == '.', ?_, hc, fun d hd => ?_⟩
    · rw [hrest, List.takeWhile_cons_of_pos (by rw [hc, Bool.true_or])]
    · have hmem := List.mem_takeWhile_imp hd
      simpa using hmem

theorem isSome_iff_of_cellVersion (h : cellVersion cell = some v) :
    (versionToList f (versionRegexpAlist f) v).isSome ↔ ¬['.', '.'] <:+: v := by
  obtain ⟨c, text, rfl, hc, htext⟩ := exists_of_cellVersion h
  exact versionToList_dots_isSome_iff f hc htext

/-- The numbers of the version. -/
def numbers (f : CaseFold) (cell : List Char) : List ℤ :=
  ((cellVersion cell).bind (versionToList f (versionRegexpAlist f))).getD []

/-- Of cells with a version the versions are compared. -/
theorem magitRepolistVersionLt_eq (ha : WithVersion a) (hb : WithVersion b) :
    magitRepolistVersionLt f a b = some (versionListLt (numbers f a) (numbers f b)) := by
  obtain ⟨v, hv, hdots⟩ := ha
  obtain ⟨w, hw, hdots'⟩ := hb
  obtain ⟨l, hl⟩ := Option.isSome_iff_exists.mp ((isSome_iff_of_cellVersion (f := f) hv).mpr hdots)
  obtain ⟨l', hl'⟩ :=
    Option.isSome_iff_exists.mp ((isSome_iff_of_cellVersion (f := f) hw).mpr hdots')
  simp only [magitRepolistVersionLt, versionLt, numbers, hv, hw, hl, hl', Option.bind_some,
    Option.map_some, Option.getD_some]

theorem eq_true_iff (ha : WithVersion a) (hb : WithVersion b) :
    magitRepolistVersionLt f a b = some true ↔ padded (numbers f a) < padded (numbers f b) := by
  rw [magitRepolistVersionLt_eq ha hb, Option.some_inj, versionListLt_iff]

/-- A cell is not less than itself only if it has a version. -/
theorem withVersion_of_self (hdefined : magitRepolistVersionLt f cell cell ≠ none)
    (hirrefl : magitRepolistVersionLt f cell cell ≠ some true) : WithVersion cell := by
  rcases hv : cellVersion cell with _ | v
  · refine absurd ?_ hirrefl
    rw [magitRepolistVersionLt, hv]
  · refine ⟨v, hv, (isSome_iff_of_cellVersion (f := f) hv).mp ?_⟩
    rw [Option.isSome_iff_ne_none]
    intro hnone
    refine hdefined ?_
    rw [magitRepolistVersionLt, hv]
    dsimp only
    rw [versionLt, hnone, Option.bind_none]

/-- Cells that all have a version are in a strict weak order. -/
theorem strictWeakOrderOn_of_withVersion {S : Set (List Char)} (h : ∀ cell ∈ S, WithVersion cell) :
    StrictWeakOrderOn S (magitRepolistVersionLt f) where
  defined a ha b hb := by
    rw [magitRepolistVersionLt_eq (h a ha) (h b hb)]
    exact Option.some_ne_none _
  irrefl a ha := by
    rw [ne_eq, eq_true_iff (h a ha) (h a ha)]
    exact lt_irrefl _
  asymm a ha b hb := by
    rw [ne_eq, eq_true_iff (h a ha) (h b hb), eq_true_iff (h b hb) (h a ha)]
    exact lt_asymm
  trans a ha b hb c hc := by
    rw [eq_true_iff (h a ha) (h b hb), eq_true_iff (h b hb) (h c hc), eq_true_iff (h a ha) (h c hc)]
    exact lt_trans
  incomp_trans a ha b hb c hc := by
    simp only [ne_eq, eq_true_iff (h a ha) (h b hb), eq_true_iff (h b hb) (h a ha),
      eq_true_iff (h b hb) (h c hc), eq_true_iff (h c hc) (h b hb),
      eq_true_iff (h a ha) (h c hc), eq_true_iff (h c hc) (h a ha)]
    intro hab hba hbc hcb
    have hsame : padded (numbers f a) = padded (numbers f c) :=
      (le_antisymm (not_lt.mp hba) (not_lt.mp hab)).trans
        (le_antisymm (not_lt.mp hcb) (not_lt.mp hbc))
    rw [hsame]
    exact ⟨lt_irrefl _, lt_irrefl _⟩

/-! ## Sorting the rows -/

/-- What the sorter of the column compares of a row with a version in it. -/
def rowNumbers (f : CaseFold) (columnIdx : ℕ) (row : Row) : List ℤ :=
  numbers f (row.cells[columnIdx]?.getD [])

/-- The sorter of the version column. -/
def versionSorter (f : CaseFold) (columnIdx : ℕ) (r r' : Row) : Option Bool :=
  magitRepolistMakeSorter (magitRepolistVersionLt f) id columnIdx r r'

/-- The row has a version in the column. -/
def RowWithVersion (columnIdx : ℕ) (row : Row) : Prop :=
  ∃ cell ∈ row.cells[columnIdx]?, WithVersion cell

/-- Rows that both have a version are compared by its numbers. -/
theorem versionSorter_eq {columnIdx : ℕ} {r r' : Row} (h : RowWithVersion columnIdx r)
    (h' : RowWithVersion columnIdx r') : versionSorter f columnIdx r r'
      = some (versionListLt (rowNumbers f columnIdx r) (rowNumbers f columnIdx r')) := by
  obtain ⟨cell, hcell, hversion⟩ := h
  obtain ⟨cell', hcell', hversion'⟩ := h'
  rw [Option.mem_def] at hcell hcell'
  rw [versionSorter, magitRepolistMakeSorter, hcell, hcell', rowNumbers, rowNumbers, hcell, hcell']
  exact magitRepolistVersionLt_eq hversion hversion'

/-- No row is less than one before it. -/
def RowsSorted (f : CaseFold) (columnIdx : ℕ) (rows : List Row) : Prop :=
  rows.Pairwise fun r r' => versionSorter f columnIdx r' r = some false

/-- Sorting by the numbers is sorting by the command's own order. -/
theorem rowsSorted_sortVersions {columnIdx : ℕ} {rows : List Row}
    (h : ∀ row ∈ rows, RowWithVersion columnIdx row) :
    RowsSorted f columnIdx (sortVersions (rowNumbers f columnIdx) rows) := by
  have hperm := sortVersions_perm (rowNumbers f columnIdx) rows
  refine (pairwise_sortVersions (rowNumbers f columnIdx) rows).imp_of_mem ?_
  intro r r' hr hr' hlt
  rw [versionSorter_eq (h r' (hperm.mem_iff.mp hr')) (h r (hperm.mem_iff.mp hr)), hlt]

/-- However the rows are sorted, the versions are the same from top to bottom. -/
theorem forall₂_of_rowsSorted {columnIdx : ℕ} {rows rows' : List Row}
    (h : ∀ row ∈ rows, RowWithVersion columnIdx row) (hperm : rows.Perm rows')
    (hsorted : RowsSorted f columnIdx rows) (hsorted' : RowsSorted f columnIdx rows') :
    List.Forall₂ (fun r r' => versionSorter f columnIdx r r' = some false ∧
      versionSorter f columnIdx r' r = some false) rows rows' := by
  have hkeys : ∀ l : List Row, (∀ row ∈ l, RowWithVersion columnIdx row) →
      RowsSorted f columnIdx l →
      (l.map fun row => padded (rowNumbers f columnIdx row)).Pairwise (· ≤ ·) := by
    intro l hl hsort
    refine List.pairwise_map.mpr (hsort.imp_of_mem ?_)
    intro r r' hr hr' hlt
    rw [versionSorter_eq (hl r' hr') (hl r hr), Option.some_inj] at hlt
    exact not_lt.mp ((versionListLt_eq_false_iff _ _).mp hlt)
  have h' : ∀ row ∈ rows', RowWithVersion columnIdx row :=
    fun row hrow => h row (hperm.mem_iff.mpr hrow)
  have hsame := List.Perm.eq_of_pairwise (fun a b _ _ => le_antisymm)
    (hkeys rows h hsorted) (hkeys rows' h' hsorted') (hperm.map _)
  refine List.forall₂_iff_get.mpr ⟨hperm.length_eq, fun i hi hi' => ?_⟩
  have hrow := h _ (List.get_mem rows ⟨i, hi⟩)
  have hrow' := h' _ (List.get_mem rows' ⟨i, hi'⟩)
  have hkey : padded (rowNumbers f columnIdx (rows.get ⟨i, hi⟩))
      = padded (rowNumbers f columnIdx (rows'.get ⟨i, hi'⟩)) := by
    have hget := congrArg (fun l => l[i]?) hsame
    simpa [hi, hi'] using hget
  rw [versionSorter_eq hrow hrow', versionSorter_eq hrow' hrow, Option.some_inj, Option.some_inj,
    versionListLt_eq_false_iff, versionListLt_eq_false_iff, hkey]
  exact ⟨lt_irrefl _, lt_irrefl _⟩

/-- **The comparison is a strict weak order exactly on cells that all have a version**, and then
the rows are sorted in one way only. -/
theorem strictWeakOrderOn_iff (f : CaseFold) :
    (∀ S, StrictWeakOrderOn S (magitRepolistVersionLt f) ↔ ∀ cell ∈ S, WithVersion cell) ∧
    ∀ (columnIdx : ℕ) (rows : List Row), (∀ row ∈ rows, RowWithVersion columnIdx row) →
      (∃ sorted, sorted.Perm rows ∧ RowsSorted f columnIdx sorted) ∧
      ∀ sorted sorted', sorted.Perm rows → sorted'.Perm rows →
        RowsSorted f columnIdx sorted → RowsSorted f columnIdx sorted' →
        List.Forall₂ (fun r r' => versionSorter f columnIdx r r' = some false ∧
          versionSorter f columnIdx r' r = some false) sorted sorted' := by
  refine ⟨fun S => ⟨fun h cell hcell => ?_, strictWeakOrderOn_of_withVersion⟩,
    fun columnIdx rows hrows => ⟨?_, ?_⟩⟩
  · exact withVersion_of_self (h.defined cell hcell cell hcell) (h.irrefl cell hcell)
  · exact ⟨_, sortVersions_perm _ rows, rowsSorted_sortVersions hrows⟩
  · intro sorted sorted' hperm hperm' hsorted hsorted'
    exact forall₂_of_rowsSorted (fun row hrow => hrows row (hperm.mem_iff.mp hrow))
      (hperm.trans hperm'.symm) hsorted hsorted'

/-- A tag without a number in its name is less than itself. -/
theorem not_strictWeakOrderOn_stable :
    ¬StrictWeakOrderOn {"stable".toList} (magitRepolistVersionLt asciiFold) :=
  fun h => h.irrefl _ rfl (by decide)

end

end Magit.Repos
