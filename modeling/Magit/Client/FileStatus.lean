import Magit.Git.Steps

/-!
# Client/FileStatus — the client's own reading of `git status -z`

`magit-file-status` reads an item up to the first character that is not printable, and a second one
if the first column says that the file is renamed or copied.  Where all paths are printable and the
second column says so only with the first, it returns one element for each entry, the last one
first (`magitFileStatus_output`).  What looks an element up finds it wherever it stands
(`magitDiscardFiles_entry`).
-/

namespace Magit.FileStatus

open Git

/-- An element `(FILE ORIG X Y)`; `char-after` returns nil at the end of the buffer. -/
structure Element where
  file : Text
  orig : Option Text
  x : Option Char
  y : Option Char
  deriving DecidableEq

/-- `(buffer-substring (+ pos m) (+ pos n))`, where `text` is behind `pos`; in either order, and a
signal behind the end. -/
def bufferSubstring (text : Text) (m n : ℕ) : Option Text :=
  if max m n ≤ text.length then some ((text.drop (min m n)).take (max m n - min m n)) else none

section

-- the characters of the class `[:print:]`
variable (print : Char → Bool)

/-- The loop of `magit-file-status`, from `pos`; nothing if it signals.  Each round takes a character
or more. -/
def statusLoop : ℕ → Text → List Element → Option (List Element)
  | 0, _, status => some status
  | fuel + 1, text, status =>
    let item := text.takeWhile print
    if item = [] then some status
    else
      let x := text[0]?
      let y := text[1]?
      (bufferSubstring text 3 item.length).bind fun file =>
        match text.drop item.length with
        | [] => none
        | _ :: text =>
          if x = some 'R' ∨ x = some 'C' then
            let orig := text.takeWhile print
            match text.drop orig.length with
            | [] => none
            | _ :: text => statusLoop fuel text (⟨file, some orig, x, y⟩ :: status)
          else statusLoop fuel text (⟨file, none, x, y⟩ :: status)

/-- `magit-file-status`, of what git inserts. -/
def magitFileStatus (text : Text) : Option (List Element) := statusLoop print text.length text []

/-! ## What git prints -/

/-- The letters of the two columns. -/
def statusLetters : List Char := [' ', 'M', 'T', 'A', 'D', 'R', 'C', 'U', '?', '!']

/-- The file is renamed or copied. -/
def moved (letter : Char) : Bool := letter = 'R' || letter = 'C'

/-- An entry of a status; it has an original path if either column says that it is renamed or
copied. -/
structure Entry where
  x : Char
  y : Char
  path : Text
  orig : Option Text
  letters : x ∈ statusLetters ∧ y ∈ statusLetters
  path_nul : nul ∉ path
  orig_nul : ∀ o ∈ orig, nul ∉ o
  orig_isSome : orig.isSome = (moved x || moved y)

namespace Entry

/-- An entry as `git status -z` prints it. -/
def text (e : Entry) : Text :=
  e.x :: e.y :: ' ' :: e.path ++ nul :: (e.orig.map (· ++ [nul])).getD []

/-- What `magit-file-status` makes of an entry. -/
def element (e : Entry) : Element := ⟨e.path, e.orig, some e.x, some e.y⟩

/-- The paths can be printed, and the second column says that the file is renamed or copied only if
the first one does. -/
structure Plain (e : Entry) : Prop where
  path : ∀ c ∈ e.path, print c = true
  orig : ∀ o ∈ e.orig, ∀ c ∈ o, print c = true
  moved : moved e.y = true → moved e.x = true

end Entry

/-- The output of `git status -z`. -/
def output (entries : List Entry) : Text := entries.flatMap Entry.text

/-- What is relied on of the class: of the ASCII characters it has the blank and what has a glyph. -/
def PrintsAscii : Prop := ∀ c : Char, c.toNat < 128 → print c = (32 ≤ c.toNat && c.toNat < 127)

end

/-! ## Reading an entry -/

section

variable {print : Char → Bool}

theorem print_nul (hprint : PrintsAscii print) : print nul = false := hprint nul (by decide)

theorem print_letter (hprint : PrintsAscii print) {c : Char} (h : c ∈ statusLetters) :
    print c = true := by
  have hascii : ∀ c ∈ statusLetters,
      (decide (c.toNat < 128) && (32 ≤ c.toNat && c.toNat < 127)) = true :=
    List.all_eq_true.mp (by decide)
  have hc := Bool.and_eq_true_iff.mp (hascii c h)
  rw [hprint c (of_decide_eq_true hc.1), hc.2]

/-- An item is read up to its NUL. -/
theorem takeWhile_item (hprint : PrintsAscii print) {item : Text} (h : ∀ c ∈ item, print c = true)
    (rest : Text) : (item ++ nul :: rest).takeWhile print = item := by
  rw [List.takeWhile_append_of_pos h, List.takeWhile_cons_of_neg, List.append_nil]
  rw [print_nul hprint]
  exact Bool.false_ne_true

theorem drop_item (item rest : Text) : (item ++ nul :: rest).drop item.length = nul :: rest :=
  List.drop_left

/-- The path of an item is what is behind its two letters and the blank. -/
theorem bufferSubstring_item (x y : Char) (path rest : Text) :
    bufferSubstring (x :: y :: ' ' :: path ++ rest) 3 (x :: y :: ' ' :: path).length
      = some path := by
  have hlength : (x :: y :: ' ' :: path).length = path.length + 3 := rfl
  have hle : path.length + 3 ≤ (x :: y :: ' ' :: path ++ rest).length := by
    rw [List.length_append, hlength]
    exact Nat.le_add_right _ _
  rw [bufferSubstring, hlength, max_eq_right (Nat.le_add_left 3 _),
    min_eq_left (Nat.le_add_left 3 _), if_pos hle, Nat.add_sub_cancel]
  exact congrArg some (List.take_left)

variable {e : Entry}

/-- An item of a plain entry is all of characters that can be printed. -/
theorem print_item (hprint : PrintsAscii print) (he : e.Plain print) :
    ∀ c ∈ e.x :: e.y :: ' ' :: e.path, print c = true := by
  have hblank : ' ' ∈ statusLetters := by decide
  simp only [List.forall_mem_cons]
  exact ⟨print_letter hprint e.letters.1, print_letter hprint e.letters.2,
    print_letter hprint hblank, he.path⟩

/-- **One round of the loop reads one entry.** -/
theorem statusLoop_entry (hprint : PrintsAscii print) (he : e.Plain print) (fuel : ℕ) (rest : Text)
    (status : List Element) :
    statusLoop print (fuel + 1) (e.text ++ rest) status
      = statusLoop print fuel rest (e.element :: status) := by
  obtain ⟨x, y, path, orig, letters, path_nul, orig_nul, orig_isSome⟩ := e
  have hitem := print_item hprint he
  have hmoved : (x = 'R' ∨ x = 'C') ↔ orig.isSome = true := by
    have hx : moved x = true ↔ x = 'R' ∨ x = 'C' := by
      rw [moved, Bool.or_eq_true, decide_eq_true_eq, decide_eq_true_eq]
    rw [orig_isSome, Bool.or_eq_true, ← hx]
    exact ⟨.inl, fun h => h.elim id he.moved⟩
  have htext : Entry.text ⟨x, y, path, orig, letters, path_nul, orig_nul, orig_isSome⟩ ++ rest
      = x :: y :: ' ' :: path ++ nul :: ((orig.map (· ++ [nul])).getD [] ++ rest) := by
    rw [Entry.text, List.append_assoc, List.cons_append]
    rfl
  have hx : ∀ more : Text, (x :: y :: ' ' :: path ++ more)[0]? = some x := fun _ => rfl
  have hy : ∀ more : Text, (x :: y :: ' ' :: path ++ more)[1]? = some y := fun _ => rfl
  rw [htext, statusLoop]
  simp only [takeWhile_item hprint hitem, if_neg (List.cons_ne_nil _ _), bufferSubstring_item,
    Option.bind_some, drop_item, hx, hy]
  rcases orig with _ | orig
  · rw [if_neg fun h => Bool.false_ne_true (hmoved.mp (h.imp Option.some.inj Option.some.inj))]
    rfl
  · have horig : (Option.map (· ++ [nul]) (some orig)).getD [] ++ rest = orig ++ nul :: rest := by
      simp
    rw [if_pos ((hmoved.mpr rfl).imp (congrArg some) (congrArg some)), horig]
    simp only [takeWhile_item hprint (he.orig orig rfl), drop_item]
    rfl

/-- The loop pushes one element for each entry of the output. -/
theorem statusLoop_output (hprint : PrintsAscii print) {entries : List Entry}
    (h : ∀ e ∈ entries, e.Plain print) {fuel : ℕ} (hfuel : entries.length ≤ fuel)
    (status : List Element) :
    statusLoop print fuel (output entries) status
      = some ((entries.map Entry.element).reverse ++ status) := by
  induction entries generalizing fuel status with
  | nil => cases fuel <;> rfl
  | cons e entries ih =>
    obtain ⟨he, hentries⟩ := List.forall_mem_cons.mp h
    obtain ⟨fuel, rfl⟩ := Nat.exists_eq_add_of_le' (Nat.one_le_of_lt hfuel)
    rw [output, List.flatMap_cons, statusLoop_entry hprint he]
    refine (ih hentries (Nat.le_of_succ_le_succ hfuel) _).trans ?_
    rw [List.map_cons, List.reverse_cons, List.append_assoc, List.singleton_append]

/-- The output is at least as long as there are entries, so that its length is enough fuel. -/
theorem length_le_output (entries : List Entry) : entries.length ≤ (output entries).length := by
  induction entries with
  | nil => exact Nat.zero_le _
  | cons e entries ih =>
    rw [output, List.flatMap_cons, List.length_append, List.length_cons, Nat.add_comm]
    exact Nat.add_le_add (Nat.succ_pos _) ih

/-- **One element for each entry**, the last one first, with its path, its original path and both
letters. -/
theorem magitFileStatus_output (hprint : PrintsAscii print) {entries : List Entry}
    (h : ∀ e ∈ entries, e.Plain print) :
    magitFileStatus print (output entries) = some (entries.map Entry.element).reverse := by
  rw [magitFileStatus, statusLoop_output hprint h (length_le_output entries), List.append_nil]

/-! ## Discarding files -/

/-- What `magit-diff-type` says, as far as `magit-discard-files` asks. -/
inductive DiffType
  | staged
  | unstaged
  | untracked
  | other
  deriving DecidableEq

/-- What a file is put down for; `untracked` for the deletion of the untracked files in it. -/
inductive Discard
  | untracked
  | delete
  | resolve
  | discard
  | discardNew
  | resurrect
  | rename

/-- The `pcase` of `magit-discard-files`, on the letters of the file's element. -/
def discardOf (type : DiffType) : Option (Option Char × Option Char) → Option Discard
  | none => if type = .untracked then some .untracked else none
  | some (x, y) =>
    if type = .untracked ∧ [('?', '?'), ('!', '!'), ('D', ' ')].any (fun l => x = l.1 ∧ y = l.2) then
      some .delete
    else if x = 'D' ∧ y = 'D' then some .resolve
    else if x = 'U' ∨ y = 'U' then some .resolve
    else if x = 'A' ∧ y = 'A' then some .resolve
    else if type = .staged ∧ x = 'M' ∧ [' ', 'M', 'D'].any (y = some ·) then some .discard
    else if type = .unstaged ∧ y = 'M' then some .discard
    else if type = .staged ∧ (x = 'A' ∨ x = 'C') ∧ y = 'M' then some .discardNew
    else if type = .staged ∧ (x = 'A' ∨ x = 'C') ∧ [' ', 'D'].any (y = some ·) then some .delete
    else if type = .staged ∧ x = 'D' ∧ [' ', 'M'].any (y = some ·) then some .resurrect
    else if type = .unstaged ∧ y = 'D' then some .resurrect
    else if type = .staged ∧ x = 'R' ∧ [' ', 'M', 'D'].any (y = some ·) then some .rename
    else none

/-- What `magit-discard-files` makes of one file, with `(assoc file status)`. -/
def discardFile (type : DiffType) (status : List Element) (file : Text) : Option Discard :=
  discardOf type ((status.find? (·.file = file)).map fun element => (element.x, element.y))

/-- The element of a path is found, wherever it stands. -/
theorem find?_element {entries : List Entry} (hpaths : (entries.map Entry.path).Nodup)
    (he : e ∈ entries) :
    (entries.map Entry.element).reverse.find? (·.file = e.path) = some e.element := by
  have hmem : e.element ∈ (entries.map Entry.element).reverse :=
    List.mem_reverse.mpr (List.mem_map_of_mem he)
  rcases hfind : (entries.map Entry.element).reverse.find? (·.file = e.path) with _ | found
  · exact absurd (decide_eq_true rfl) (List.find?_eq_none.mp hfind _ hmem)
  · obtain ⟨e', he', rfl⟩ := List.mem_map.mp (List.mem_reverse.mp (List.mem_of_find?_eq_some hfind))
    have hfile := List.find?_some hfind
    have hpath : e'.path = e.path := of_decide_eq_true hfile
    rw [hfind, List.inj_on_of_nodup_map hpaths he' he hpath]

/-- **A file is discarded as its own letters say**, in whatever order the elements are. -/
theorem magitDiscardFiles_entry (hprint : PrintsAscii print) {entries : List Entry}
    (h : ∀ e ∈ entries, e.Plain print) (hpaths : (entries.map Entry.path).Nodup) (he : e ∈ entries)
    (type : DiffType) :
    (magitFileStatus print (output entries)).map (fun status => discardFile type status e.path)
      = some (discardOf type (some (some e.x, some e.y))) := by
  rw [magitFileStatus_output hprint h, Option.map_some, discardFile, find?_element hpaths he]
  rfl

end

/-! ## Two entries -/

section

/-- A file that has changed in the worktree. -/
def modified : Entry where
  x := ' '
  y := 'M'
  path := ['a']
  orig := none
  letters := by decide
  path_nul := by decide
  orig_nul := by simp
  orig_isSome := by decide

/-- A file that has been renamed in the index. -/
def renamed : Entry where
  x := 'R'
  y := ' '
  path := "new".toList
  orig := some "old".toList
  letters := by decide
  path_nul := by decide
  orig_nul := by decide
  orig_isSome := by decide

/-- The class, of ASCII characters. -/
def asciiPrint (c : Char) : Bool := 32 ≤ c.toNat && c.toNat < 127

theorem magitFileStatus_output_two :
    magitFileStatus asciiPrint (output [modified, renamed])
      = some ([modified, renamed].map Entry.element).reverse := by
  refine magitFileStatus_output (fun _ _ => rfl) ?_
  simp only [List.forall_mem_cons]
  refine ⟨⟨List.all_eq_true.mp (by decide), ?_, by decide⟩,
    ⟨List.all_eq_true.mp (by decide), ?_, by decide⟩, by simp⟩
  · rintro _ ⟨⟩
  · rintro _ ⟨⟩
    exact List.all_eq_true.mp (by decide)

theorem not_in_order :
    magitFileStatus asciiPrint (output [modified, renamed])
      ≠ some ([modified, renamed].map Entry.element) := by
  decide +kernel

end

end Magit.FileStatus
