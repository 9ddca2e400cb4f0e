import Magit.Emacs.Alist

/-!
# Section/Recreate — how sections are created, and created again

A section is known by its `Ident`.  What it is created as depends on what is cached for that, on the
tree it replaces, on the option for its initial visibility and on the argument `HIDE`
(`createdHidden`).  A `Plan` is what an inserter is about to insert; a body that is left to a washer
stays a plan.
-/

namespace Magit.Recreation

open Emacs

/-- `magit-section-ident`: type and value of the section and then of its ancestors. -/
abbrev Ident (α : Type) := List (String × α)

/-- `magit-section-visibility-cache`; what is cached is `hide` or else `show`. -/
abbrev Cache (α : Type) := List (Ident α × Bool)

/-- `magit-section-cache-visibility` -/
inductive CacheVisibility
  | all
  | types (list : List String)

/-- `magit-section-cache-visibility` and `magit-section-preserve-visibility` -/
structure Options where
  cacheVisibility : CacheVisibility
  preserveVisibility : Bool

variable {α : Type} [DecidableEq α]

/-- The visibility of sections of the type is cached. -/
def CacheVisibility.covers : CacheVisibility → String → Bool
  | all, _ => true
  | types list, type => list.contains type

/-- The slots of a section that the visibility commands read. -/
structure Slots (α : Type) where
  type : String
  value : α
  hidden : Bool
  content : Bool

/-- What is to be inserted next to one another: type and value of a section, whether it has a
heading, what `magit-section-initial-visibility-alist` has for it, the argument `HIDE`, and its
body, which may be left to a washer while the section is hidden. -/
inductive Plan (α : Type)
  | nil
  | cons (type : String) (value : α) (content : Bool) (initial : Option Bool) (hide later : Bool)
    (body rest : Plan α)

/-- Sections next to one another. -/
inductive Forest (α : Type)
  | nil
  | unwashed (s : Slots α) (body : Plan α) (rest : Forest α)
  | node (s : Slots α) (body rest : Forest α)

/-- The identity of a section below others. -/
def Slots.ident (s : Slots α) (parent : Ident α) : Ident α := (s.type, s.value) :: parent

/-! ## Looking a section up -/

namespace Forest

/-- The first of the sections with that type and value. -/
def find (type : String) (value : α) : Forest α → Option (Slots α × Forest α)
  | nil => none
  | unwashed s _ rest =>
    if s.type = type ∧ s.value = value then some (s, nil) else find type value rest
  | node s body rest =>
    if s.type = type ∧ s.value = value then some (s, body) else find type value rest

/-- The slot `hidden` of the section that the rest of an identity leads to. -/
def hiddenAt : Ident α → Bool → Forest α → Option Bool
  | [], hidden, _ => some hidden
  | (type, value) :: path, _, children =>
    (children.find type value).bind fun r => hiddenAt path r.1.hidden r.2

/-- `(oref (magit-get-section ident root) hidden)`; of the root only the type is compared. -/
def magitGetSectionHidden (ident : Ident α) : Forest α → Option Bool
  | node s children _ =>
    match ident.reverse with
    | [] => none
    | (type, _) :: path => if type = s.type then hiddenAt path s.hidden children else none
  | _ => none

end Forest

/-! ## Creating sections -/

/-- `magit-section-cached-visibility`, the only member of `magit-section-set-visibility-hook`. -/
def cachedVisibility (o : Options) (cache : Cache α) (ident : Ident α) : Option Bool :=
  if o.preserveVisibility then assoc ident cache else none

/-- `magit-section-maybe-cache-visibility` -/
def maybeCacheVisibility (o : Options) (ident : Ident α) (type : String) (hidden : Bool)
    (cache : Cache α) : Cache α :=
  if o.cacheVisibility.covers type then setAlistGet ident hidden cache else cache

/-- The slot `hidden` that `magit-insert-section--create` sets. -/
def createdHidden (o : Options) (cache : Cache α) (oldroot : Forest α) (ident : Ident α)
    (initial : Option Bool) (hide : Bool) : Bool :=
  match cachedVisibility o cache ident with
  | some set => set
  | none =>
    match if o.preserveVisibility then none else oldroot.magitGetSectionHidden ident with
    | some old => old
    | none => initial.getD hide

/-- What is inserted below a parent.  `magit-insert-section-body` leaves the body to a washer. -/
def insertPlan (o : Options) (cache : Cache α) (oldroot : Forest α) :
    Ident α → Plan α → Forest α
  | _, .nil => .nil
  | parent, .cons type value content initial hide later body rest =>
    let ident := (type, value) :: parent
    let hidden := createdHidden o cache oldroot ident initial hide
    let s : Slots α := ⟨type, value, hidden, content⟩
    if later && hidden then .unwashed s body (insertPlan o cache oldroot parent rest)
    else
      .node s (insertPlan o cache oldroot ident body) (insertPlan o cache oldroot parent rest)

end Magit.Recreation
