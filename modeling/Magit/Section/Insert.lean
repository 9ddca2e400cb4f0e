import Magit.Emacs.TextProperty

/-!
# Section/Insert — inserting sections at the end of a buffer

A program inserts text, headings and sections, and may cancel the section that it is in.  What it
inserted last is behind all the rest, but the number of children goes into a heading that has been
there since before they were inserted.
-/

namespace Magit.Insertion

open Emacs Propertied

/-- The options `magit-section-show-child-count` and `magit-section-insert-in-reverse`. -/
structure Settings where
  showChildCount : Bool
  insertInReverse : Bool

/-- A section; the slot `end` is `fin`, and sections are known by the order of their creation. -/
structure Section where
  parent : Option ℕ
  start : Marker
  content : Option Marker
  fin : Option Marker
  children : List ℕ
deriving Inhabited

/-- What happens to every marker of a section. -/
def Section.move (f : Marker → Marker) (s : Section) : Section :=
  { s with start := f s.start, content := s.content.map f, fin := s.fin.map f }

/-- The slot `end` is set, and the marker in the slot `start` advances from now on. -/
def Section.close (p : ℕ) (s : Section) : Section :=
  { s with start := { s.start with advances := true }, fin := some ⟨p, false⟩ }

/-- The buffer, with point at its end; `root` is `magit-root-section`, and the text property is
`magit-section`. -/
structure Buffer where
  text : Propertied ℕ
  sections : List Section
  root : Option ℕ

/-- What the optional argument of `magit-insert-heading` can be. -/
inductive Count
  | number (n : ℤ)
  | t

/-- `format` with `%s`. -/
def Count.format : Count → List Char
  | .number n => if n < 0 then '-' :: Nat.toDigits 10 n.natAbs else Nat.toDigits 10 n.natAbs
  | .t => ['t']

/-- `format` with ` (%s)`. -/
def parenthesized (piece : List Char) : List Char := " (".toList ++ piece ++ ")".toList

/-- What `magit-insert-child-count` looks for at the end of the heading. -/
inductive Placeholder
  | colon
  | t
deriving DecidableEq

/-- Which of them the text before a position ends with, and a character more. -/
def placeholder (text : Propertied ℕ) (content : ℕ) : Option Placeholder :=
  if text.charBefore (content - 1) = some ':' then some .colon
  else if text.charBefore (content - 4) = some ' ' ∧ text.charBefore (content - 3) = some '(' ∧
      text.charBefore (content - 2) = some 't' ∧ text.charBefore (content - 1) = some ')' then
    some .t
  else none

/-- Where it is, if the heading ends at a position. -/
def Placeholder.pos (content : ℕ) : Placeholder → ℕ
  | .colon => content - 2
  | .t => content - 3

/-- The loop of `magit-insert-section--finish`, which takes no more rounds than there are
characters. -/
def fillGaps (obj fin : ℕ) : ℕ → ℕ → Propertied ℕ → Propertied ℕ
  | 0, _, text => text
  | n + 1, p, text =>
    if p < fin then
      let next := (text.nextChange p).getD fin
      fillGaps obj fin n next
        (if (text.propertyAt p).isNone then text.addProperty p next obj else text)
    else text

namespace Buffer

/-- `(point)`, which is at the end of the buffer. -/
def point (b : Buffer) : ℕ := b.text.length + 1

/-- `(bolp)` -/
def bolp (b : Buffer) : Bool := (b.text.getLast?.map Prod.fst).all (· == '\n')

/-- The section that is known by a number. -/
def get (b : Buffer) (i : ℕ) : Section := b.sections.getD i default

/-- Slots of one section are set. -/
def modify (i : ℕ) (f : Section → Section) (b : Buffer) : Buffer :=
  { b with sections := b.sections.modify i f }

/-- `goto-char` and `insert` -/
def insertAt (p : ℕ) (piece : List Char) (b : Buffer) : Buffer :=
  { b with
    text := insertText b.text p (plain piece)
    sections := b.sections.map (·.move (·.inserted p piece.length)) }

/-- `(insert piece)` -/
def insert (piece : List Char) (b : Buffer) : Buffer := b.insertAt b.point piece

/-- `(delete-region beg fin)` -/
def deleteRegion (beg fin : ℕ) (b : Buffer) : Buffer :=
  { b with
    text := deleteText b.text beg fin
    sections := b.sections.map (·.move (·.deleted beg fin)) }

/-- `magit-insert-section--create` -/
def magitInsertSectionCreate (parent : Option ℕ) (b : Buffer) : Buffer :=
  { b with sections := b.sections ++ [⟨parent, ⟨b.point, false⟩, none, none, []⟩] }

variable (σ : Settings)

/-- The number of children goes in behind the heading right away, or `t` is a placeholder for it. -/
def insertCount (count : Option Count) (b : Buffer) : Buffer :=
  match count with
  | some count => if σ.showChildCount = true then b.insert (parenthesized count.format) else b
  | none => b

/-- What `magit-insert-heading` inserts. -/
def insertHeadingText (count : Option Count) (heading : List Char) (b : Buffer) : Buffer :=
  let b := (b.insert heading).insertCount σ count
  if b.bolp then b else b.insert ['\n']

/-- The slot `content` is set to point. -/
def setContent (current : ℕ) (b : Buffer) : Buffer :=
  b.modify current fun s => { s with content := some ⟨b.point, false⟩ }

/-- `magit-insert-heading` -/
def magitInsertHeading (current : ℕ) (count : Option Count) (heading : List Char) (b : Buffer) :
    Buffer :=
  (b.insertHeadingText σ count heading).setContent current

/-- `magit-cancel-section`; `error` throws. -/
def magitCancelSection (current : ℕ) (ifEmpty : Bool) (b : Buffer) : Except Buffer Buffer :=
  let s := b.get current
  if ifEmpty = false ∨ b.point = (s.content.getD s.start).pos then
    if b.root = some current then .ok (b.insert "(empty)\n".toList)
    else .error (b.deleteRegion s.start.pos b.point)
  else .ok b

/-- `magit-insert-child-count`.  One branch inserts first, the other one deletes first. -/
def magitInsertChildCount (obj : ℕ) (b : Buffer) : Buffer :=
  match (b.get obj).content with
  | none => b
  | some content =>
    let count := Nat.toDigits 10 (b.get obj).children.length
    if σ.showChildCount = true ∧ 0 < (b.get obj).children.length then
      match placeholder b.text content.pos with
      | some .colon =>
        let p := Placeholder.colon.pos content.pos
        (b.insertAt p (parenthesized count)).deleteRegion (p + (parenthesized count).length)
          (p + (parenthesized count).length + 1)
      | some .t =>
        let p := Placeholder.t.pos content.pos
        (b.deleteRegion p (p + 1)).insertAt p count
      | none => b
    else b

/-- What `magit-insert-section--finish` does to the text, except for the root. -/
def fill (obj : ℕ) (b : Buffer) : Buffer :=
  if (b.get obj).children.isEmpty then
    { b with text := b.text.addProperty (b.get obj).start.pos b.point obj }
  else
    let b := b.magitInsertChildCount σ obj
    let beg := (b.get obj).start.pos
    { b with text := fillGaps obj b.point (b.point - beg) beg b.text }

/-- The section becomes a child of its parent. -/
def addChild (obj : ℕ) (b : Buffer) : Buffer :=
  match (b.get obj).parent with
  | none => b
  | some parent => b.modify parent fun s =>
    { s with children := if σ.insertInReverse then obj :: s.children else s.children ++ [obj] }

/-- `magit-insert-section--finish` -/
def magitInsertSectionFinish (obj : ℕ) (b : Buffer) : Buffer :=
  let b := b.modify obj (·.close b.point)
  let b := if b.root = some obj then b else (b.fill σ obj).addChild σ obj
  if σ.insertInReverse = true then
    b.modify obj fun s => { s with children := s.children.reverse }
  else b

end Buffer

/-! ## Programs -/

/-- The body of `magit-insert-section`: what comes first, and the rest. -/
inductive Forms
  | done
  | insert (text : List Char) (rest : Forms)
  | insertHeading (count : Option Count) (heading : List Char) (rest : Forms)
  | cancelSection (ifEmpty : Bool) (rest : Forms)
  | insertSection (body rest : Forms)

variable (σ : Settings)

/-- The body of a section, which is `magit-insert-section--current` and the parent of the sections
that are inserted; `error` throws. -/
def run : Forms → ℕ → Buffer → Except Buffer Buffer
  | .done, _, b => .ok b
  | .insert text rest, current, b => run rest current (b.insert text)
  | .insertHeading count heading rest, current, b =>
    run rest current (b.magitInsertHeading σ current count heading)
  | .cancelSection ifEmpty rest, current, b =>
    (b.magitCancelSection current ifEmpty).bind (run rest current)
  | .insertSection body rest, current, b =>
    match run body b.sections.length (b.magitInsertSectionCreate (some current)) with
    | .ok b' => run rest current (b'.magitInsertSectionFinish σ b.sections.length)
    | .error b' => run rest current b'

/-- `magit-insert-section`, when it is in no other one. -/
def magitInsertSection (body : Forms) (b : Buffer) : Buffer :=
  let obj := b.sections.length
  match run σ body obj { b.magitInsertSectionCreate none with root := some obj } with
  | .ok b => b.magitInsertSectionFinish σ obj
  | .error b => b

/-! ## What the docstrings ask for -/

/-- A placeholder that the heading ends with is text of the section itself, neither in front of it
nor in one of its children. -/
def Buffer.ownsPlaceholder (current : ℕ) (b : Buffer) : Bool :=
  let s := b.get current
  !σ.showChildCount || s.content.all fun content =>
    (placeholder b.text content.pos).all fun h =>
      s.start.pos ≤ h.pos content.pos &&
        s.children.all fun i => (b.get i).fin.all (·.pos ≤ h.pos content.pos)

/-- Every heading is the section's own, and no section is empty when it is finished. -/
def Forms.proper : Forms → ℕ → Buffer → Bool
  | .done, _, _ => true
  | .insert text rest, current, b => rest.proper current (b.insert text)
  | .insertHeading count heading rest, current, b =>
    let b := b.magitInsertHeading σ current count heading
    b.ownsPlaceholder σ current && rest.proper current b
  | .cancelSection ifEmpty rest, current, b =>
    match b.magitCancelSection current ifEmpty with
    | .ok b => rest.proper current b
    | .error _ => true
  | .insertSection body rest, current, b =>
    let obj := b.sections.length
    let b' := b.magitInsertSectionCreate (some current)
    body.proper obj b' &&
      match run σ body obj b' with
      | .ok b' =>
        (b'.get obj).start.pos < b'.point && rest.proper current (b'.magitInsertSectionFinish σ obj)
      | .error b' => rest.proper current b'

end Magit.Insertion
