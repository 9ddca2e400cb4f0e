import Magit.Section.Subsections

/-!
# Section/Traversal — from one section to the next, and back

The next section is the first child, or else a sibling of the section or of the closest ancestor
that has one behind it; the previous one is the end of a descent into the sibling before it, or the
parent.  Both go through the paths of the sections whose ancestors are shown, in the order in which
these stand in the tree (`linked_shownPaths`), one in each direction.
-/

namespace Magit.Section

open Emacs Display

/-! ## Lists whose elements lead to one another -/

/-- Each element leads to the one behind it, and back; the last one leads to `fin`. -/
def Linked {α : Type} (next : α → Option α) (prev : α → α) : List α → Option α → Prop
  | [], _ => True
  | a :: l, fin =>
    next a = l.head?.or fin ∧ (∀ b ∈ l.head?.or fin, prev b = a) ∧ Linked next prev l fin

section

variable {α β : Type} {next : α → Option α} {prev : α → α} {l l' : List α} {fin : Option α}

/-- Links that go on in a second list. -/
theorem Linked.append (h : Linked next prev l (l'.head?.or fin)) (h' : Linked next prev l' fin) :
    Linked next prev (l ++ l') fin := by
  induction l with
  | nil => exact h'
  | cons a l ih =>
    obtain ⟨hnext, hprev, hrest⟩ := h
    have hhead : (l ++ l').head?.or fin = l.head?.or (l'.head?.or fin) := by
      rw [List.head?_append, Option.or_assoc]
    exact ⟨hnext.trans hhead.symm, hhead.symm ▸ hprev, ih hrest⟩

/-- What leads to one another in one place does so in another, where something may follow. -/
theorem Linked.map {next' : β → Option β} {prev' : β → β} {fin : Option β} (φ : α → β)
    (h : Linked next prev l none)
    (hnext : ∀ a ∈ l, next' (φ a) = ((next a).map φ).or fin)
    (hprev : ∀ a ∈ l, ∀ b, next a = some b → prev b = a → prev' (φ b) = φ a)
    (hfin : ∀ a ∈ l.getLast?, ∀ b ∈ fin, prev' b = φ a) : Linked next' prev' (l.map φ) fin := by
  induction l with
  | nil => trivial
  | cons a l ih =>
    obtain ⟨hleads, hback, hrest⟩ := h
    have hstep := hnext a List.mem_cons_self
    rw [Option.or_none] at hleads hback
    cases l with
    | nil =>
      rw [hleads] at hstep
      exact ⟨hstep, hfin a rfl, trivial⟩
    | cons b l =>
      rw [hleads] at hstep
      refine ⟨hstep, ?_, ih hrest (fun c hc => hnext c (List.mem_cons_of_mem a hc))
        (fun c hc => hprev c (List.mem_cons_of_mem a hc)) hfin⟩
      rintro _ ⟨⟩
      exact hprev a List.mem_cons_self b hleads (hback b rfl)

/-- Where an element leads to, and back from there. -/
theorem Linked.of_mem (h : Linked next prev l none) {a b : α} (ha : a ∈ l) (hb : next a = some b) :
    b ∈ l ∧ prev b = a := by
  induction l with
  | nil => cases ha
  | cons c l ih =>
    obtain ⟨hnext, hprev, hrest⟩ := h
    rw [Option.or_none] at hnext hprev
    rcases List.mem_cons.mp ha with rfl | ha
    · have hhead : l.head? = some b := hnext.symm.trans hb
      exact ⟨List.mem_cons_of_mem _ (List.mem_of_mem_head? hhead), hprev b hhead⟩
    · exact (ih hrest ha).imp_left (List.mem_cons_of_mem c)

end

namespace Sections

/-! ## The slots `children` -/

/-- How many sections there are. -/
def count : Sections → ℕ
  | nil => 0
  | text _ rest => rest.count
  | leaf _ _ rest => rest.count + 1
  | unwashed _ _ _ _ rest => rest.count + 1
  | node _ _ _ _ rest => rest.count + 1

/-- How many children the section at the path has, or the root. -/
def childCount : List ℕ → Sections → ℕ
  | [], f => f.count
  | path, text _ rest => childCount path rest
  | (i + 1) :: path, leaf _ _ rest => childCount (i :: path) rest
  | (i + 1) :: path, unwashed _ _ _ _ rest => childCount (i :: path) rest
  | 0 :: path, node _ _ _ body _ => childCount path body
  | (i + 1) :: path, node _ _ _ _ rest => childCount (i :: path) rest
  | _, _ => 0

/-- The path of a section behind another one. -/
def bump : List ℕ → List ℕ
  | [] => []
  | i :: path => (i + 1) :: path

/-- The paths of the sections whose ancestors are shown, in order. -/
def shownPaths : Sections → List (List ℕ)
  | nil => []
  | text _ rest => rest.shownPaths
  | leaf _ _ rest => [0] :: rest.shownPaths.map bump
  | unwashed _ _ _ _ rest => [0] :: rest.shownPaths.map bump
  | node _ _ hidden body rest =>
    [0] :: ((if hidden then [] else body.shownPaths.map (0 :: ·)) ++ rest.shownPaths.map bump)

/-! ## The next section -/

/-- The loop of `magit-section-forward`: the next sibling of the section, or else that of the
closest ancestor that has one.  The path is reversed. -/
def climb (children : List ℕ → ℕ) : List ℕ → Option (List ℕ)
  | [] => none
  | i :: parent =>
    if i + 1 < children parent.reverse then some (parent.reverse ++ [i + 1])
    else climb children parent

/-- Where `magit-section-forward` moves from the heading of a section. -/
def nextPath (f : Sections) (path : List ℕ) : Option (List ℕ) :=
  if hiddenAtPath path f = false ∧ 0 < childCount path f then some (path ++ [0])
  else climb (childCount · f) path.reverse

/-! ## The previous section -/

/-- The loop of `magit-section-backward`, into the last one of the sections: as long as it is not
hidden and has children, on to the last of these. -/
def lastPath : Sections → List ℕ
  | nil => []
  | text _ rest => rest.lastPath
  | leaf _ _ rest => if rest.count = 0 then [0] else bump rest.lastPath
  | unwashed _ _ _ _ rest => if rest.count = 0 then [0] else bump rest.lastPath
  | node _ _ hidden body rest =>
    if rest.count = 0 then 0 :: (if hidden then [] else body.lastPath) else bump rest.lastPath

/-- The same from one section, as the rest of its path. -/
def lastBelow : Sections → List ℕ
  | node _ _ false body _ => body.lastPath
  | _ => []

/-- The same from the section at the path. -/
def descend (f : Sections) (path : List ℕ) : List ℕ :=
  path ++ (subsection path f).elim [] lastBelow

/-- Where `magit-section-backward` moves from the heading of a section, whose path is reversed. -/
def prevPath (f : Sections) : List ℕ → List ℕ
  | [] => []
  | 0 :: parent => parent.reverse
  | (i + 1) :: parent => f.descend (parent.reverse ++ [i])

section

variable {f g body rest : Sections} {path : List ℕ} {i : ℕ}

theorem count_append (hg : IsSection g) : (g.append rest).count = rest.count + 1 := by
  cases hg <;> rfl

theorem childCount_nil (f : Sections) : childCount [] f = f.count := by cases f <;> rfl

theorem childCount_text (path : List ℕ) (n : ℕ) (rest : Sections) :
    childCount path (text n rest) = childCount path rest := by
  cases path with
  | nil => rw [childCount_nil, childCount_nil, count]
  | cons i path => rfl

theorem childCount_behind (hg : IsSection g) :
    childCount ((i + 1) :: path) (g.append rest) = childCount (i :: path) rest := by
  cases hg <;> rfl

theorem childCount_node (heading : ℕ) (washer : Option (List ℕ)) (hidden : Bool)
    (body rest : Sections) (path : List ℕ) :
    childCount (0 :: path) (node heading washer hidden body rest) = childCount path body := by
  rfl

/-- The shown paths: those in the first section and then those behind it. -/
theorem shownPaths_append (hg : IsSection g) :
    (g.append rest).shownPaths = g.shownPaths ++ rest.shownPaths.map bump := by
  cases hg with
  | leaf | unwashed => rfl
  | node heading washer hidden body =>
    simp only [append, shownPaths, List.map_nil, List.append_nil, List.cons_append]

/-- No path is shown exactly if there is no section. -/
theorem shownPaths_eq_nil_iff : f.shownPaths = [] ↔ f.count = 0 := by
  induction f with
  | nil => exact iff_of_true rfl rfl
  | text n rest ih => exact ih
  | leaf | unwashed | node => exact iff_of_false (List.cons_ne_nil _ _) (Nat.succ_ne_zero _)

/-- The root is not among the shown paths. -/
theorem nil_notMem_shownPaths (f : Sections) : [] ∉ f.shownPaths := by
  induction f with
  | nil => exact List.not_mem_nil
  | text n rest ih => exact ih
  | leaf n _ rest ih | unwashed n _ _ body rest _ ih =>
    simp only [shownPaths, List.mem_cons, List.mem_map, not_or, not_exists, not_and]
    refine ⟨by simp, fun path hpath => ?_⟩
    cases path with
    | nil => exact absurd hpath ih
    | cons => simp [bump]
  | node n _ hidden body rest _ ih =>
    simp only [shownPaths, List.mem_cons, List.mem_append, List.mem_map, not_or, not_exists,
      not_and]
    refine ⟨by simp, ?_, fun path hpath => ?_⟩
    · cases hidden <;> simp
    · cases path with
      | nil => exact absurd hpath ih
      | cons => simp [bump]

/-- Among the sections behind another one. -/
theorem mem_map_bump {path : List ℕ} :
    path ∈ rest.shownPaths.map bump ↔ ∃ i t, path = (i + 1) :: t ∧ i :: t ∈ rest.shownPaths := by
  rw [List.mem_map]
  constructor
  · rintro ⟨_ | ⟨i, t⟩, ht, rfl⟩
    · exact absurd ht (nil_notMem_shownPaths rest)
    · exact ⟨i, t, rfl, ht⟩
  · rintro ⟨i, t, rfl, ht⟩
    exact ⟨i :: t, ht, rfl⟩

/-- The paths lead to all sections whose ancestors are shown. -/
theorem mem_shownPaths_iff :
    path ∈ f.shownPaths ↔ (subsection path f).isSome = true ∧ ancestorsShown path f = true := by
  have hbehind : ∀ {g rest : Sections}, IsSection g → (∀ path, path ∈ rest.shownPaths
      ↔ (subsection path rest).isSome = true ∧ ancestorsShown path rest = true) → ∀ i t,
      (i + 1) :: t ∈ rest.shownPaths.map bump
        ↔ (subsection ((i + 1) :: t) (g.append rest)).isSome = true
          ∧ ancestorsShown ((i + 1) :: t) (g.append rest) = true := by
    intro g rest hg ih i t
    rw [subsection_behind hg, ancestorsShown_behind hg, ← ih, mem_map_bump]
    constructor
    · rintro ⟨_, _, ⟨⟩, h⟩
      exact h
    · exact fun h => ⟨i, t, rfl, h⟩
  induction f generalizing path with
  | nil => exact iff_of_false List.not_mem_nil (by simp [subsection])
  | text n rest ih => exact ih
  | leaf n hidden rest ih =>
    rcases path with _ | ⟨_ | i, _ | ⟨j, t⟩⟩
    · exact iff_of_false (nil_notMem_shownPaths _) (by simp)
    · exact iff_of_true List.mem_cons_self ⟨rfl, rfl⟩
    · exact iff_of_false (by simp [shownPaths, mem_map_bump]) (by simp [subsection])
    all_goals
      rw [shownPaths, List.mem_cons, or_iff_right (by simp)]
      exact hbehind (.leaf n hidden) (fun _ => ih) i _
  | unwashed heading content hidden body rest _ ih =>
    rcases path with _ | ⟨_ | i, _ | ⟨j, t⟩⟩
    · exact iff_of_false (nil_notMem_shownPaths _) (by simp)
    · exact iff_of_true List.mem_cons_self ⟨rfl, rfl⟩
    · exact iff_of_false (by simp [shownPaths, mem_map_bump]) (by simp [subsection])
    all_goals
      rw [shownPaths, List.mem_cons, or_iff_right (by simp)]
      exact hbehind (.unwashed heading content hidden body) (fun _ => ih) i _
  | node heading washer hidden body rest ihbody ih =>
    rcases path with _ | ⟨_ | i, t⟩
    · exact iff_of_false (nil_notMem_shownPaths _) (by simp)
    · rcases t with _ | ⟨j, t⟩
      · exact iff_of_true List.mem_cons_self ⟨rfl, rfl⟩
      · rw [shownPaths, subsection, ancestorsShown, Bool.and_eq_true, and_left_comm]
        refine Iff.trans ?_ (and_congr_right fun _ => ihbody)
        cases hidden <;> simp [mem_map_bump]
    · rw [shownPaths, List.mem_cons, or_iff_right (by simp), List.mem_append, or_iff_right (by
        cases hidden <;> simp)]
      exact hbehind (.node heading washer hidden body) (fun _ => ih) i t

/-! ## Climbing -/

/-- Climbing in the body of a section, and then on among its siblings. -/
theorem climb_node (heading : ℕ) (washer : Option (List ℕ)) (hidden : Bool)
    (body rest : Sections) (path : List ℕ) :
    climb (childCount · (node heading washer hidden body rest)) (path ++ [0])
      = ((climb (childCount · body) path).map (0 :: ·)).or
        (if 0 < rest.count then some [1] else none) := by
  induction path with
  | nil => simp [climb, childCount, count]
  | cons i path ih =>
    rw [List.cons_append, climb, climb, List.reverse_append, List.reverse_singleton,
      List.singleton_append, childCount_node, ih]
    split <;> rfl

/-- Climbing among the sections behind one. -/
theorem climb_behind (hg : IsSection g) (path : List ℕ) (i : ℕ) :
    climb (childCount · (g.append rest)) (path ++ [i + 1])
      = (climb (childCount · rest) (path ++ [i])).map bump := by
  induction path with
  | nil =>
    simp only [List.nil_append, climb, List.reverse_nil, childCount_nil, count_append hg,
      Nat.add_lt_add_iff_right]
    split <;> rfl
  | cons j path ih =>
    rw [List.cons_append, List.cons_append, climb, climb, List.reverse_append,
      List.reverse_append, List.reverse_singleton, List.reverse_singleton, List.singleton_append,
      List.singleton_append, childCount_behind hg, ih]
    split <;> rfl

/-! ## One step in each direction -/

theorem nextPath_root (f : Sections) :
    nextPath f [] = if 0 < f.count then some [0] else none := by
  rw [nextPath, hiddenAtPath_nil, childCount_nil]
  simp [climb]

theorem nextPath_text (n : ℕ) (rest : Sections) : nextPath (text n rest) = nextPath rest := by
  funext path
  have hcount : (childCount · (text n rest)) = (childCount · rest) :=
    funext fun path => childCount_text path n rest
  rw [nextPath, nextPath, hcount, childCount_text]
  rfl

/-- From a section in the body of one that is shown, or from that itself. -/
theorem nextPath_node (heading : ℕ) (washer : Option (List ℕ)) (body rest : Sections)
    (path : List ℕ) :
    nextPath (node heading washer false body rest) (0 :: path)
      = ((nextPath body path).map (0 :: ·)).or (if 0 < rest.count then some [1] else none) := by
  have hhidden : hiddenAtPath (0 :: path) (node heading washer false body rest)
      = hiddenAtPath path body := by
    cases path with
    | nil => exact (hiddenAtPath_nil body).symm
    | cons => rfl
  rw [nextPath, nextPath, hhidden, childCount_node, List.reverse_cons, climb_node]
  split <;> rfl

/-- From a section whose children are not shown. -/
theorem nextPath_front (hg : IsSection g) (h : g.shownPaths = [[0]]) (rest : Sections) :
    nextPath (g.append rest) [0] = if 0 < rest.count then some [1] else none := by
  have hclimb : climb (childCount · (g.append rest)) [0]
      = if 0 < rest.count then some [1] else none := by
    simp [climb, childCount_nil, count_append hg]
  rw [nextPath, List.reverse_singleton, hclimb, if_neg]
  rintro ⟨hhidden, hcount⟩
  cases hg with
  | leaf | unwashed => simp [append, childCount] at hcount
  | node heading washer hidden body =>
    obtain rfl : hidden = false := hhidden
    rw [append, childCount_node, childCount_nil] at hcount
    have hbody : body.shownPaths = [] := by simpa [shownPaths] using h
    exact absurd (shownPaths_eq_nil_iff.mp hbody) (Nat.ne_of_gt hcount)

/-- Behind the first section the walk is that of the others. -/
theorem nextPath_behind (hg : IsSection g) (rest : Sections) (i : ℕ) (path : List ℕ) :
    nextPath (g.append rest) ((i + 1) :: path) = (nextPath rest (i :: path)).map bump := by
  rw [nextPath, nextPath, hiddenAtPath_behind hg, childCount_behind hg, List.reverse_cons,
    List.reverse_cons, climb_behind hg]
  split <;> rfl

theorem descend_node (heading : ℕ) (washer : Option (List ℕ)) (hidden : Bool)
    (body rest : Sections) (i : ℕ) (path : List ℕ) :
    descend (node heading washer hidden body rest) (0 :: i :: path)
      = 0 :: descend body (i :: path) := by
  rfl

theorem descend_behind (hg : IsSection g) (rest : Sections) (i : ℕ) (path : List ℕ) :
    descend (g.append rest) ((i + 1) :: path) = bump (descend rest (i :: path)) := by
  rw [descend, descend, subsection_behind hg]
  rfl

theorem descend_front (hg : IsSection g) (rest : Sections) :
    descend (g.append rest) [0] = 0 :: lastBelow g := by
  rw [descend, subsection_front hg]
  rfl

/-- Back from a first child, one gets to what is before it in the body. -/
theorem prevPath_node (heading : ℕ) (washer : Option (List ℕ)) (hidden : Bool)
    (body rest : Sections) (h : path ≠ []) :
    prevPath (node heading washer hidden body rest) (path ++ [0]) = 0 :: prevPath body path := by
  rcases path with _ | ⟨_ | i, parent⟩
  · exact absurd rfl h
  · rw [List.cons_append, prevPath, prevPath, List.reverse_append]
    rfl
  · rw [List.cons_append, prevPath, prevPath, List.reverse_append, List.reverse_singleton,
      List.append_assoc, List.singleton_append]
    obtain ⟨j, tail, htail⟩ := List.exists_cons_of_ne_nil
      (List.append_ne_nil_of_right_ne_nil parent.reverse (List.cons_ne_nil i []))
    rw [htail, descend_node]

/-- Behind the first section one walks back in the others. -/
theorem prevPath_behind (hg : IsSection g) (rest : Sections) (i : ℕ) (path : List ℕ)
    (h : prevPath rest (path ++ [i]) ≠ []) :
    prevPath (g.append rest) (path ++ [i + 1]) = bump (prevPath rest (path ++ [i])) := by
  rcases path with _ | ⟨_ | j, parent⟩
  · cases i with
    | zero => exact absurd rfl h
    | succ i => exact descend_behind hg rest i []
  · rw [List.cons_append, List.cons_append, prevPath, prevPath, List.reverse_append,
      List.reverse_append]
    rfl
  · rw [List.cons_append, List.cons_append, prevPath, prevPath, List.reverse_append,
      List.reverse_append, List.reverse_singleton, List.reverse_singleton, List.singleton_append,
      List.singleton_append, List.cons_append, List.cons_append, descend_behind hg]

/-! ## All steps -/

/-- The descent into the last section ends at the last one that is shown. -/
theorem getLast?_shownPaths (f : Sections) : ([] :: f.shownPaths).getLast? = some f.lastPath := by
  have hbehind : ∀ (g : List (List ℕ)) (path : List ℕ), g.getLast? = some path →
      ∀ rest : Sections, ([] :: rest.shownPaths).getLast? = some rest.lastPath →
      ([] :: (g ++ rest.shownPaths.map bump)).getLast?
        = some (if rest.count = 0 then path else bump rest.lastPath) := by
    intro g path hg rest hrest
    rcases hshown : rest.shownPaths with _ | ⟨first, l⟩
    · rw [if_pos (shownPaths_eq_nil_iff.mp hshown), List.map_nil, List.append_nil]
      cases g with
      | nil => cases hg
      | cons a l => exact hg
    · rw [if_neg fun h => by simp [shownPaths_eq_nil_iff.mpr h] at hshown]
      rw [hshown, List.getLast?_cons_cons] at hrest
      rw [← List.cons_append, List.getLast?_append, List.getLast?_map, hrest]
      rfl
  induction f with
  | nil => rfl
  | text n rest ih => exact ih
  | leaf n _ rest ih => exact hbehind [[0]] [0] rfl rest ih
  | unwashed n _ _ body rest _ ih => exact hbehind [[0]] [0] rfl rest ih
  | node n _ hidden body rest ihbody ih =>
    refine hbehind (_ :: _) _ ?_ rest ih
    cases hidden with
    | true => rfl
    | false =>
      have hmap : ([0] :: body.shownPaths.map (0 :: ·)) = ([] :: body.shownPaths).map (0 :: ·) := rfl
      rw [if_neg (by simp), if_neg (by simp), hmap, List.getLast?_map, ihbody]
      rfl

/-- The first shown path is the one of the first section. -/
theorem head?_shownPaths (f : Sections) :
    f.shownPaths.head? = if 0 < f.count then some [0] else none := by
  induction f with
  | nil => rfl
  | text n rest ih => exact ih
  | leaf | unwashed | node => exact (if_pos (Nat.succ_pos _)).symm

/-- The walk never gets back to the root. -/
theorem nextPath_ne_nil {q : List ℕ} (h : nextPath f path = some q) : q ≠ [] := by
  have hclimb : ∀ children r, climb children r = some q → q ≠ [] := by
    intro children r hr
    induction r with
    | nil => cases hr
    | cons i parent ih =>
      rw [climb] at hr
      split at hr
      · rw [← Option.some.inj hr]
        simp
      · exact ih hr
  rw [nextPath] at h
  split at h
  · rw [← Option.some.inj h]
    simp
  · exact hclimb _ _ h

/-- A section in front of others, whose steps are known up to where the others begin. -/
theorem linked_append (hg : IsSection g)
    (hfront : Linked (nextPath (g.append rest)) (fun path => prevPath (g.append rest) path.reverse)
      g.shownPaths (if 0 < rest.count then some [1] else none))
    (hrest : Linked (nextPath rest) (fun path => prevPath rest path.reverse)
      ([] :: rest.shownPaths) none) :
    Linked (nextPath (g.append rest)) (fun path => prevPath (g.append rest) path.reverse)
      ([] :: (g.append rest).shownPaths) none := by
  have hhead : (g.append rest).shownPaths.head? = some [0] := by
    rw [head?_shownPaths, count_append hg, if_pos (Nat.succ_pos _)]
  refine ⟨?_, ?_, ?_⟩
  · rw [hhead, nextPath_root, count_append hg, if_pos (Nat.succ_pos _)]
    rfl
  · rw [hhead]
    rintro _ ⟨⟩
    rfl
  rw [shownPaths_append hg]
  refine Linked.append ?_ (hrest.2.2.map bump ?_ ?_ (by simp))
  · rw [Option.or_none, List.head?_map, head?_shownPaths]
    convert hfront using 1
    split <;> rfl
  · intro path hpath
    rcases path with _ | ⟨i, path⟩
    · exact absurd hpath (nil_notMem_shownPaths rest)
    · rw [bump, nextPath_behind hg, Option.or_none]
  · intro path hpath q hq hback
    rcases q with _ | ⟨i, q⟩
    · exact absurd rfl (nextPath_ne_nil hq)
    · rw [List.reverse_cons] at hback
      rw [bump, List.reverse_cons, prevPath_behind hg _ _ _ (by
        rw [hback]
        rintro rfl
        exact nil_notMem_shownPaths rest hpath), hback]

/-- The steps of a section whose children are not shown. -/
theorem linked_front (hg : IsSection g) (h : g.shownPaths = [[0]]) (hbelow : lastBelow g = [])
    (rest : Sections) :
    Linked (nextPath (g.append rest)) (fun path => prevPath (g.append rest) path.reverse)
      g.shownPaths (if 0 < rest.count then some [1] else none) := by
  rw [h]
  refine ⟨nextPath_front hg h rest, fun q hq => ?_, trivial⟩
  have hone : q = [1] := by
    rw [List.head?_nil, Option.none_or] at hq
    split at hq
    · exact (Option.some.inj hq).symm
    · cases hq
  rw [hone]
  exact (descend_front hg rest).trans (by rw [hbelow])

/-- **One step forward and one backward**, over all sections whose ancestors are shown. -/
theorem linked_shownPaths (f : Sections) :
    Linked (nextPath f) (fun path => prevPath f path.reverse) ([] :: f.shownPaths) none := by
  induction f with
  | nil => exact ⟨rfl, fun q hq => absurd hq (by simp [shownPaths]), trivial⟩
  | text n rest ih =>
    have hprev : prevPath (text n rest) = prevPath rest := by
      funext path
      rcases path with _ | ⟨_ | i, parent⟩ <;> rfl
    rw [nextPath_text, hprev]
    exact ih
  | leaf n hidden rest ih =>
    exact linked_append (.leaf n hidden) (linked_front (.leaf n hidden) rfl rfl rest) ih
  | unwashed heading content hidden body rest _ ih =>
    exact linked_append (.unwashed heading content hidden body)
      (linked_front (.unwashed heading content hidden body) rfl rfl rest) ih
  | node heading washer hidden body rest ihbody ih =>
    refine linked_append (.node heading washer hidden body) ?_ ih
    cases hidden with
    | true => exact linked_front (.node heading washer true body) rfl rfl rest
    | false =>
      have hshown : (node heading washer false body nil).shownPaths
          = ([] :: body.shownPaths).map (0 :: ·) := by
        simp [shownPaths]
      rw [hshown]
      refine ihbody.map (0 :: ·) (fun path _ => ?_) ?_ ?_
      · exact nextPath_node heading washer body rest path
      · intro path _ q hq hback
        rw [List.reverse_cons, append, prevPath_node _ _ _ _ _ (by
          simpa using nextPath_ne_nil hq), hback]
      · intro path hpath q hq
        rw [getLast?_shownPaths] at hpath
        have hone : q = [1] := by
          split at hq
          · exact (Option.some.inj hq).symm
          · cases hq
        rw [hone, ← Option.some.inj hpath]
        exact descend_front (.node heading washer false body) rest

end

end Sections

end Magit.Section
