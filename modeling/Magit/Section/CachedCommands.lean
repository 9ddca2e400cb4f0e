import Magit.Section.Recreate
import Magit.Section.Runs

/-!
# Section/CachedCommands — the visibility commands and the cache

The visibility commands as they set the slot `hidden` and cache what they set.  Some set slots
first and cache them later, when the section they were run on is shown.  The slots are those that
the commands of Section/Commands set (`sameState_step`).
-/

namespace Magit.Recreation

open Emacs

variable {α : Type} [DecidableEq α]

/-- `magit-section-maybe-cache-visibility` of a section below a parent. -/
def cacheSlot (o : Options) (parent : Ident α) (s : Slots α) (hidden : Bool) (cache : Cache α) :
    Cache α := maybeCacheVisibility o (s.ident parent) s.type hidden cache

/-- What the washer of a section inserts, and the cache when its sections have been shown or hidden,
from the identity of the section and the cache when it is washed. -/
abbrev Washer (α : Type) := Ident α → Plan α → Cache α → Cache α → Forest α × Cache α

namespace Forest

variable (o : Options)

/-- `magit-section-hide` on each of the sections. -/
def hideEach (parent : Ident α) : Forest α → Cache α → Forest α × Cache α
  | nil, c => (nil, c)
  | unwashed s body rest, c =>
    let r := hideEach parent rest (cacheSlot o parent s true c)
    (unwashed { s with hidden := true } body r.1, r.2)
  | node s body rest, c =>
    let r := hideEach parent rest (cacheSlot o parent s true c)
    (node { s with hidden := true } body r.1, r.2)

/-- `magit-section-hide` on the sections that are hidden and `magit-section-show` on the others. -/
def showWith (wash : Washer α) : Ident α → Forest α → Cache α → Forest α × Cache α
  | _, nil, c => (nil, c)
  | parent, unwashed s body rest, c =>
    let c' := cacheSlot o parent s s.hidden c
    if s.hidden then
      let r := showWith wash parent rest c'
      (unwashed s body r.1, r.2)
    else
      let b := wash (s.ident parent) body c c'
      let r := showWith wash parent rest b.2
      (node { s with content := true } b.1 r.1, r.2)
  | parent, node s body rest, c =>
    let c' := cacheSlot o parent s s.hidden c
    if s.hidden then
      let r := showWith wash parent rest c'
      (node s body r.1, r.2)
    else
      let b := showWith wash (s.ident parent) body c'
      let r := showWith wash parent rest b.2
      (node s b.1 r.1, r.2)

/-- What has just been inserted has no washer on a section that is shown. -/
def fresh : Washer α := fun _ _ _ c => (nil, c)

/-- A washer inserts its sections before the visibility of the section itself is cached. -/
def washer : Washer α := fun ident body c c' =>
  showWith o fresh ident (insertPlan o c nil ident body) c'

/-- The same with the washers of the sections. -/
def showEach : Ident α → Forest α → Cache α → Forest α × Cache α := showWith o (washer o)

/-- Sets the slot `hidden` of each of the sections. -/
def setEach (hidden : Bool) : Forest α → Forest α
  | nil => nil
  | unwashed s body rest => unwashed { s with hidden } body (setEach hidden rest)
  | node s body rest => node { s with hidden } body (setEach hidden rest)

/-- The slot `children` has an element. -/
def hasChildren : Forest α → Bool
  | nil => false
  | _ => true

/-- `magit-section-show-children-1` -/
def showChildren1 : Ident α → Forest α → Option ℤ → Cache α → Forest α × Cache α
  | _, nil, _, c => (nil, c)
  | parent, unwashed s body rest, depth, c =>
    let hidden := (Section.Sections.childDepth depth).isNone
    let r := showChildren1 parent rest depth (if hidden then cacheSlot o parent s true c else c)
    (unwashed { s with hidden } body r.1, r.2)
  | parent, node s body rest, depth, c =>
    match Section.Sections.childDepth depth with
    | some deeper =>
      let b := showChildren1 (s.ident parent) body deeper c
      let r := showChildren1 parent rest depth b.2
      (node { s with hidden := false } b.1 r.1, r.2)
    | none =>
      let r := showChildren1 parent rest depth (cacheSlot o parent s true c)
      (node { s with hidden := true } body r.1, r.2)

/-- `magit-section-show-headings-1` -/
def showHeadings1 : Forest α → Forest α
  | nil => nil
  | unwashed s body rest => unwashed { s with hidden := false } body (showHeadings1 rest)
  | node s body rest =>
    node { s with hidden := false }
      (if body.hasChildren || !s.content then showHeadings1 body else body) (showHeadings1 rest)

/-- A section whose slot `hidden` is set. -/
def anyHidden : Forest α → Bool
  | nil => false
  | unwashed s _ rest => s.hidden || rest.anyHidden
  | node s _ rest => s.hidden || rest.anyHidden

/-- A section with children. -/
def anyChildren : Forest α → Bool
  | nil => false
  | unwashed _ _ rest => rest.anyChildren
  | node _ body rest => body.hasChildren || rest.anyChildren

/-- One of the sections has a hidden body: `magit-section-hidden-body`. -/
def hiddenBody : Forest α → Bool
  | nil => false
  | unwashed s _ rest => s.content && s.hidden || rest.hiddenBody
  | node s body rest =>
    (if body.hasChildren then body.hiddenBody else s.content && s.hidden) || rest.hiddenBody

/-- The sections followed by others. -/
def append : Forest α → Forest α → Forest α
  | nil, others => others
  | unwashed s body rest, others => unwashed s body (append rest others)
  | node s body rest, others => node s body (append rest others)

end Forest

/-- A section as a command gets it: the only one of the sections.  The root has no parent. -/
structure Place (α : Type) where
  parent : Ident α
  sections : Forest α
  cache : Cache α

namespace Place

variable (o : Options)

/-- The section is the root. -/
def isRoot (s : Place α) : Bool := s.parent.isEmpty

/-- The slot `hidden`. -/
def hidden (s : Place α) : Bool := s.sections.anyHidden

/-- The slot `children`. -/
def children (s : Place α) : Forest α :=
  match s.sections with
  | .node _ body _ => body
  | _ => .nil

/-- Does something to the children below their parent. -/
def onChildren (action : Ident α → Forest α → Cache α → Forest α × Cache α) (s : Place α) : Place α :=
  match s.sections with
  | .node slots body rest =>
    let r := action (slots.ident s.parent) body s.cache
    { s with sections := .node slots r.1 rest, cache := r.2 }
  | _ => s

/-- `magit-section-show` -/
def magitSectionShow (s : Place α) : Place α :=
  let r := (s.sections.setEach false).showEach o s.parent s.cache
  { s with sections := r.1, cache := r.2 }

/-- Nothing where it signals a `user-error`. -/
def magitSectionHide (s : Place α) : Option (Place α) :=
  if s.isRoot then none
  else
    let r := s.sections.hideEach o s.parent s.cache
    some { s with sections := r.1, cache := r.2 }

/-- `magit-section-toggle` -/
def magitSectionToggle (s : Place α) : Option (Place α) :=
  if s.isRoot then none
  else if s.hidden then some (s.magitSectionShow o) else s.magitSectionHide o

/-- `magit-section-toggle-children` -/
def magitSectionToggleChildren (s : Place α) : Place α :=
  (s.onChildren fun _ children c => (children.setEach children.anyHidden, c)).magitSectionShow o

/-- `magit-section-show-children` -/
def magitSectionShowChildren (s : Place α) (depth : Option ℤ) : Place α :=
  (s.onChildren fun parent children c => children.showChildren1 o parent depth c).magitSectionShow o

/-- `magit-section-hide-children` -/
def magitSectionHideChildren (s : Place α) : Place α :=
  s.onChildren fun parent children c => children.hideEach o parent c

/-- `magit-section-show-headings` -/
def magitSectionShowHeadings (s : Place α) : Place α :=
  (s.onChildren fun _ children c => (children.showHeadings1, c)).magitSectionShow o

/-- `magit-section-cycle` -/
def magitSectionCycle (tabNext : Bool) (s : Place α) : Option (Place α) :=
  if tabNext then some s
  else if s.hidden then some ((s.magitSectionShow o).magitSectionHideChildren o)
  else if s.children.anyHidden && s.children.anyChildren then some (s.magitSectionShowHeadings o)
  else if s.children.hiddenBody then some (s.magitSectionShowChildren o none)
  else s.magitSectionHide o

/-- `magit-section-cycle-global`, of the root. -/
def magitSectionCycleGlobal (s : Place α) : Place α :=
  if s.children.anyHidden && s.children.anyChildren then s.magitSectionShowHeadings o
  else if s.children.hiddenBody then s.magitSectionShowChildren o none
  else s.magitSectionHideChildren o

end Place

/-- Runs a command on the section at the path; nothing if there is none, or if it signals. -/
def Forest.atPath (command : Place α → Option (Place α)) :
    List ℕ → Ident α → Forest α → Cache α → Option (Forest α × Cache α)
  | [0], parent, unwashed s body rest, c =>
    (command ⟨parent, unwashed s body nil, c⟩).map fun p => (p.sections.append rest, p.cache)
  | [0], parent, node s body rest, c =>
    (command ⟨parent, node s body nil, c⟩).map fun p => (p.sections.append rest, p.cache)
  | 0 :: i :: path, parent, node s body rest, c =>
    (atPath command (i :: path) (s.ident parent) body c).map fun r => (node s r.1 rest, r.2)
  | (i + 1) :: path, parent, unwashed s body rest, c =>
    (atPath command (i :: path) parent rest c).map fun r => (unwashed s body r.1, r.2)
  | (i + 1) :: path, parent, node s body rest, c =>
    (atPath command (i :: path) parent rest c).map fun r => (node s body r.1, r.2)
  | _, _, _, _ => none

/-- A buffer: its tree, in which only the root has no parent, and what is cached. -/
structure State (α : Type) where
  tree : Forest α
  cache : Cache α

namespace State

variable (o : Options)

/-- Runs a command on the section at the path from the root. -/
def runAt (s : State α) (command : Place α → Option (Place α)) (path : List ℕ) : Option (State α) :=
  (s.tree.atPath command (0 :: path) [] s.cache).map fun r => ⟨r.1, r.2⟩

/-- `magit-section-show-level` at one section, with what it does from the parent. -/
def levelAt (s : State α) (level : ℤ) (path : List ℕ) (parent : Option (State α)) :
    Option (State α) :=
  let depth : ℤ := path.length
  if depth < level then
    s.runAt (fun p => some (p.magitSectionShowChildren o (some (level - depth - 1)))) path.reverse
  else if depth = level then s.runAt (Place.magitSectionHide o) path.reverse
  else parent

/-- The loop of `magit-section-show-level`; the path is that of the section it is at, reversed. -/
def showLevel (s : State α) (level : ℤ) : List ℕ → Option (State α)
  | [] => s.levelAt o level [] none
  | i :: parent => s.levelAt o level (i :: parent) (s.showLevel level parent)

/-- Nothing where the command signals, which leaves the buffer as it is. -/
def step (s : State α) : Section.Command → Option (State α)
  | .sectionShow path => s.runAt (fun p => some (p.magitSectionShow o)) path
  | .sectionHide path => s.runAt (Place.magitSectionHide o) path
  | .sectionToggle path => s.runAt (Place.magitSectionToggle o) path
  | .sectionToggleChildren path => s.runAt (fun p => some (p.magitSectionToggleChildren o)) path
  | .sectionShowChildren path depth =>
    s.runAt (fun p => some (p.magitSectionShowChildren o depth)) path
  | .sectionHideChildren path => s.runAt (fun p => some (p.magitSectionHideChildren o)) path
  | .sectionShowHeadings path => s.runAt (fun p => some (p.magitSectionShowHeadings o)) path
  | .sectionCycle path tabNext => s.runAt (Place.magitSectionCycle o tabNext) path
  | .sectionCycleGlobal => s.runAt (fun p => some (p.magitSectionCycleGlobal o)) []
  | .sectionShowLevel path level =>
    if level < 0 then s.runAt (fun p => some (p.magitSectionShowChildren o (some (-level - 1)))) []
    else s.showLevel o level path.reverse

/-- A refresh creates the tree anew, from a plan for the root, and `magit-insert-section--finish`
shows the root without caching anything. -/
def refresh (s : State α) (type : String) (value : α) (content : Bool) (body : Plan α) : State α :=
  let tree := insertPlan o s.cache s.tree [] (.cons type value content none false false body .nil)
  let r := (tree.setEach false).showEach { o with cacheVisibility := .types [] } [] s.cache
  ⟨r.1, r.2⟩

end State

end Magit.Recreation
