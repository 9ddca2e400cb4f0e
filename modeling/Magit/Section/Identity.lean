import Mathlib.Data.List.Nodup

/-!
# Section/Identity — the identity of a section, and the section of an identity

A section of the tree is given by its path, the positions among the children from the root down to
it.  Its identity is read off its ancestors; `magit-get-section` goes down again, at each level to
the first child of that type and value.  Where siblings have distinct identities, there is only one
(`findIdx?_identKey`), and so it arrives at the section that it was given the identity of.  Of the
root only the type is compared.
-/

namespace Magit.Identity

/-- What the slot `value` holds: a string or other Lisp data, or an instance of a class.  Values that
are `equal` are the same. -/
inductive Value (α β : Type)
  | string (s : String)
  | data (v : α)
  | object (o : β)
  deriving DecidableEq

/-- The classes for which `magit-section-ident-value` is implemented, and all others. -/
inductive SectionClass
  | magitSection
  | magitUnpulledSection
  | magitUnpushedSection

/-- The slots of a section that its identity is made of. -/
structure Slots (α β : Type) where
  sectionClass : SectionClass
  type : String
  value : Value α β

/-- A section with its slot `children`. -/
inductive Tree (α β : Type)
  | node (slots : Slots α β) (children : List (Tree α β))

/-- `((TYPE . VALUE)...)`, of the section and then of its ancestors. -/
abbrev Ident (α β : Type) := List (String × Value α β)

variable {α β : Type} [DecidableEq α] [DecidableEq β]

namespace Slots

/-- `magit-section-ident-value` of a section.  What the generic function returns for an object that
is not a section is up to the class of that. -/
def magitSectionIdentValue (objectIdentValue : β → Value α β) (s : Slots α β) : Value α β :=
  match s.sectionClass with
  | .magitUnpulledSection =>
    if s.value = .string "..@{upstream}" then s.value else .string "..@{push}"
  | .magitUnpushedSection =>
    if s.value = .string "@{upstream}.." then s.value else .string "@{push}.."
  | .magitSection =>
    match s.value with
    | .object o => objectIdentValue o
    | value => value

/-- What one section contributes to an identity. -/
def identKey (objectIdentValue : β → Value α β) (s : Slots α β) : String × Value α β :=
  (s.type, s.magitSectionIdentValue objectIdentValue)

end Slots

namespace Tree

/-- The slots of the root of a tree. -/
def slots : Tree α β → Slots α β
  | node slots _ => slots

/-- The trees below the root. -/
def children : Tree α β → List (Tree α β)
  | node _ children => children

/-- The section at the path. -/
def sectionAt : List ℕ → Tree α β → Option (Tree α β)
  | [], t => some t
  | i :: path, t => t.children[i]?.bind (sectionAt path)

/-- The sections that the path leads to, from below the root down. -/
def descent : List ℕ → Tree α β → Option (List (Tree α β))
  | [], _ => some []
  | i :: path, t => t.children[i]?.bind fun child => (descent path child).map (child :: ·)

/-- `magit-section-lineage`: the section at the path and its ancestors, the root last. -/
def magitSectionLineage (path : List ℕ) (t : Tree α β) : Option (List (Tree α β)) :=
  (t.descent path).map fun below => (t :: below).reverse

variable (objectIdentValue : β → Value α β)

/-- `identKey` of the section. -/
def key (t : Tree α β) : String × Value α β := t.slots.identKey objectIdentValue

/-- `magit-section-ident` of the section at the path. -/
def magitSectionIdent (path : List ℕ) (t : Tree α β) : Option (Ident α β) :=
  (t.magitSectionLineage path).map fun lineage => lineage.map (key objectIdentValue)

/-- The loop of `magit-get-section`, from a section down. -/
def getBelow : Ident α β → Tree α β → Option (List ℕ)
  | [], _ => some []
  | identKey :: ident, t =>
    (t.children.findIdx? fun child => child.key objectIdentValue = identKey).bind fun i =>
      t.children[i]?.bind fun child => (getBelow ident child).map (i :: ·)

/-- `magit-get-section`, with the path of the section that it returns. -/
def magitGetSection (ident : Ident α β) (root : Tree α β) : Option (List ℕ) :=
  match ident.reverse with
  | [] => none
  | (type, _) :: ident =>
    if type = root.slots.type then root.getBelow objectIdentValue ident else none

/-- The identities of siblings are distinct, at every section of the tree. -/
def SiblingsDistinct (root : Tree α β) : Prop :=
  ∀ path, ∀ t ∈ root.sectionAt path, (t.children.map (key objectIdentValue)).Nodup

variable {objectIdentValue} {t s root : Tree α β} {path : List ℕ} {ident : Ident α β}

/-- The siblings below a child are distinct. -/
theorem SiblingsDistinct.child (h : t.SiblingsDistinct objectIdentValue) {i : ℕ}
    (hi : t.children[i]? = some s) : s.SiblingsDistinct objectIdentValue := by
  intro path s' hs'
  refine h (i :: path) s' ?_
  rw [sectionAt, hi]
  exact hs'

/-- The only child of that identity is the first one. -/
theorem findIdx?_identKey (h : t.SiblingsDistinct objectIdentValue) {i : ℕ}
    (hi : t.children[i]? = some s) (identKey : String × Value α β) :
    (t.children.findIdx? fun child => child.key objectIdentValue = identKey) = some i
      ↔ s.key objectIdentValue = identKey := by
  obtain ⟨hlt, hs⟩ := List.getElem?_eq_some_iff.mp hi
  have hnodup := List.nodup_iff_injective_get.mp (h [] t rfl)
  rw [List.findIdx?_eq_some_iff_getElem]
  constructor
  · rintro ⟨_, hkey, -⟩
    rw [hs] at hkey
    exact of_decide_eq_true hkey
  · intro hkey
    refine ⟨hlt, by rw [hs]; exact decide_eq_true hkey, fun j hj hsame => ?_⟩
    have hsame := of_decide_eq_true hsame
    have heq := @hnodup ⟨j, by rw [List.length_map]; omega⟩ ⟨i, by rwa [List.length_map]⟩ (by
      rw [List.get_eq_getElem, List.get_eq_getElem, List.getElem_map, List.getElem_map, hsame, hs,
        hkey])
    have hji : j = i := congrArg Fin.val heq
    omega

/-- What the loop returns is the path on which it has found the identity. -/
theorem getBelow_eq_some_iff (h : t.SiblingsDistinct objectIdentValue) :
    t.getBelow objectIdentValue ident = some path
      ↔ ∃ below ∈ t.descent path, below.map (key objectIdentValue) = ident := by
  induction ident generalizing t path with
  | nil =>
    rw [getBelow]
    cases path with
    | nil => exact iff_of_true rfl ⟨[], rfl, rfl⟩
    | cons i path =>
      refine iff_of_false (by simp) ?_
      rintro ⟨below, hbelow, hnil⟩
      obtain rfl := List.map_eq_nil_iff.mp hnil
      obtain ⟨child, -, hchild⟩ := Option.bind_eq_some_iff.mp hbelow
      obtain ⟨_, -, hcons⟩ := Option.map_eq_some_iff.mp hchild
      cases hcons
  | cons identKey ident ih =>
    rw [getBelow]
    constructor
    · intro hget
      obtain ⟨i, hfind, hget⟩ := Option.bind_eq_some_iff.mp hget
      obtain ⟨child, hi, hget⟩ := Option.bind_eq_some_iff.mp hget
      obtain ⟨rest, hrest, rfl⟩ := Option.map_eq_some_iff.mp hget
      obtain ⟨below, hbelow, hmap⟩ := (ih (h.child hi)).mp hrest
      refine ⟨child :: below, ?_, ?_⟩
      · rw [descent, hi, Option.bind_some, Option.mem_def.mp hbelow]
        rfl
      · rw [List.map_cons, hmap, (findIdx?_identKey h hi identKey).mp hfind]
    · rintro ⟨below, hbelow, hmap⟩
      cases path with
      | nil =>
        obtain rfl := Option.some.inj hbelow
        cases hmap
      | cons i path =>
        obtain ⟨child, hi, hchild⟩ := Option.bind_eq_some_iff.mp hbelow
        obtain ⟨rest, hrest, rfl⟩ := Option.map_eq_some_iff.mp hchild
        rw [List.map_cons] at hmap
        obtain ⟨hkey, hmap⟩ := List.cons.inj hmap
        rw [(findIdx?_identKey h hi identKey).mpr hkey, Option.bind_some, hi, Option.bind_some,
          (ih (h.child hi)).mpr ⟨rest, hrest, hmap⟩]
        rfl

/-- **The identity of a section** is the list of the keys on its path, the innermost first. -/
theorem magitSectionIdent_eq_some_iff {ident' : Ident α β} :
    root.magitSectionIdent objectIdentValue path = some ident'
      ↔ ∃ below ∈ root.descent path,
        ident' = (below.map (key objectIdentValue)).reverse ++ [root.key objectIdentValue] := by
  rw [magitSectionIdent, magitSectionLineage, Option.map_map, Option.map_eq_some_iff]
  refine exists_congr fun below => and_congr_right fun _ => ?_
  rw [Function.comp_apply, List.map_reverse, List.map_cons, List.reverse_cons]
  exact eq_comm

/-- Two identities that differ in the value of the root at most. -/
def SameButRoot (ident ident' : Ident α β) : Prop :=
  ∃ below type value value',
    ident = below ++ [(type, value)] ∧ ident' = below ++ [(type, value')]

/-- **The section that is found is the one with the identity**, but for the value of the root. -/
theorem magitGetSection_eq_some_iff (h : root.SiblingsDistinct objectIdentValue)
    (ident : Ident α β) (path : List ℕ) :
    root.magitGetSection objectIdentValue ident = some path
      ↔ ∃ ident' ∈ root.magitSectionIdent objectIdentValue path, SameButRoot ident ident' := by
  have hident : ∀ ident', ident' ∈ root.magitSectionIdent objectIdentValue path ↔ _ :=
    fun _ => magitSectionIdent_eq_some_iff
  rw [magitGetSection]
  rcases hreverse : ident.reverse with _ | ⟨⟨type, value⟩, ident'⟩
  · refine iff_of_false (by simp) ?_
    rintro ⟨_, -, below, type, value, _, rfl, -⟩
    simp at hreverse
  have hcons : ident = ident'.reverse ++ [(type, value)] := by
    rw [← List.reverse_reverse ident, hreverse, List.reverse_cons]
  simp only
  constructor
  · intro hget
    split at hget
    · next htype =>
      obtain ⟨below, hbelow, hmap⟩ := (getBelow_eq_some_iff h).mp hget
      refine ⟨_, (hident _).mpr ⟨below, hbelow, rfl⟩, ident'.reverse, type, value,
        (root.key objectIdentValue).2, hcons, ?_⟩
      rw [hmap, htype]
      rfl
    · cases hget
  · rintro ⟨_, hsome, below', type', value₁, value₂, hident₁, hident₂⟩
    obtain ⟨below, hbelow, hident'⟩ := (hident _).mp hsome
    obtain ⟨hinit, hlast⟩ := List.append_inj' (hcons.symm.trans hident₁) rfl
    obtain ⟨hinit', hlast'⟩ := List.append_inj' (hident'.symm.trans hident₂) rfl
    obtain ⟨rfl, rfl⟩ := Prod.mk.inj (List.cons.inj hlast).1
    have htype : type = root.slots.type := (congrArg Prod.fst (List.cons.inj hlast').1).symm
    rw [if_pos htype, getBelow_eq_some_iff h]
    refine ⟨below, hbelow, List.reverse_injective ?_⟩
    rw [hinit', hinit]

/-- A status buffer with two sections. -/
def status : Tree ℕ ℕ :=
  .node ⟨.magitSection, "status", .data 0⟩
    [.node ⟨.magitUnpulledSection, "unpulled", .string "..@{upstream}"⟩ [],
      .node ⟨.magitUnpulledSection, "unpulled", .string "..origin/main"⟩ []]

/-- What the class of an object implements in the same way as its superclass. -/
def plainIdentValue (o : ℕ) : Value ℕ ℕ := .object o

/-- The siblings of the status buffer are distinct. -/
theorem siblingsDistinct_status : status.SiblingsDistinct plainIdentValue := by
  rintro (_ | ⟨_ | _ | i, _ | ⟨j, path⟩⟩) t ht
  · obtain rfl := Option.some.inj ht
    decide
  · obtain rfl := Option.some.inj ht
    exact List.nodup_nil
  · cases ht
  · obtain rfl := Option.some.inj ht
    exact List.nodup_nil
  all_goals cases ht

/-- The section whose class ignores the name of the branch. -/
theorem magitGetSection_eq_some_iff_status :
    status.magitGetSection plainIdentValue
        [("unpulled", .string "..@{push}"), ("status", .data 0)] = some [1]
      ↔ ∃ ident' ∈ status.magitSectionIdent plainIdentValue [1],
        SameButRoot [("unpulled", .string "..@{push}"), ("status", .data 0)] ident' :=
  magitGetSection_eq_some_iff siblingsDistinct_status _ _

/-- No section of the buffer has the value that is asked for, but the root is returned. -/
theorem magitGetSection_ne_none :
    ¬∀ (root : Tree ℕ ℕ) (ident : Ident ℕ ℕ), root.SiblingsDistinct plainIdentValue →
      (∀ path, root.magitSectionIdent plainIdentValue path ≠ some ident) →
      root.magitGetSection plainIdentValue ident = none := by
  intro h
  have hnone := h status [("status", .data 1)] siblingsDistinct_status (by
    intro path hpath
    obtain ⟨below, -, hident⟩ := magitSectionIdent_eq_some_iff.mp hpath
    have happend : ([] : Ident ℕ ℕ) ++ [("status", .data 1)] = _ := hident
    exact absurd (List.cons.inj (List.append_inj' happend rfl).2).1 (by decide))
  exact absurd hnone (by decide)

end Tree

end Magit.Identity
