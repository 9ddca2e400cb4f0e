import Magit.Emacs.Pieces
import Mathlib.Data.Int.Notation

/-!
# Git/WipTips — the tips of earlier wip branches

When a wip ref is started over, the reflog entry that is next to the one for that has the tip it had
before.  `magit-wip-log-get-tips` looks for the messages of such entries, and goes on two entries
further down, past one of two restarts in a row (`magitWipLogGetTips_iff`).
-/

namespace Magit.WipTips

open Emacs

/-- The text of a reflog. -/
abbrev Text := List Char

/-! ## `magit-wip-log-get-tips` -/

section

variable (fold : Char → Char)

/-- ``\(?:re\)?start autosaving``, behind a space. -/
def startsOver (text : Text) : Bool :=
  (skip fold " start autosaving".toList text).isSome ||
    (skip fold " restart autosaving".toList text).isSome

/-- `^[^ ]+ [^:]+: \(?:re\)?start autosaving` -/
def isRestart (line : Text) : Bool :=
  ((upTo ' ' line).bind fun way => upTo ':' way.2).any fun way => startsOver fold way.2

/-- The group of `^[^ ]+ \([^:]+\)`. -/
def selectorOf (line : Text) : Option Text :=
  (upTo ' ' line).bind fun way =>
    let selector := way.2.takeWhile (· ≠ ':')
    if selector = [] then none else some selector

/-- The loop of `magit-wip-log-get-tips`, which ends after so many rounds. -/
def getTips : ℕ → List Text → List Text
  | 0, _ => []
  | rounds + 1, reflog =>
    match reflog.dropWhile (!isRestart fold ·) with
    | _ :: line :: rest => (selectorOf line).toList ++ getTips rounds rest
    | _ => []

/-- `magit-wip-log-get-tips`, given the lines of `git reflog`. -/
def magitWipLogGetTips (wipref : Text) (count : ℤ) (reflog : List Text) : List Text :=
  if reflog = [] then [] else wipref :: getTips fold (count - 1).toNat reflog

end

/-! ## Reflogs -/

/-- A name that is abbreviated or full, of a commit or a ref. -/
structure Word where
  chars : Text
  ne_nil : chars ≠ []
  space : ' ' ∉ chars
  colon : ':' ∉ chars

/-- What `magit-wip-update-wipref` gives as the message. -/
inductive Note
  /-- The ref is made, or started over, which used to have another message. -/
  | start (former : Bool) (what : Text)
  | merge (ref what : Text)
  /-- A snapshot with a message of the caller's. -/
  | own (message : Text)
  /-- A snapshot without one, or with one that begins with a space, of all tracked files or of those
  given. -/
  | autosave (files : List Text) (message : Text)

namespace Note

/-- The message of an entry. -/
def message : Note → Text
  | start former what => (if former then "re".toList else []) ++ "start autosaving ".toList ++ what
  | merge ref what => "merge ".toList ++ ref ++ " into ".toList ++ what
  | own message => message
  | autosave [] message => "autosave tracked files".toList ++ message
  | autosave [file] message => "autosave ".toList ++ file ++ message
  | autosave files message =>
    "autosave ".toList ++ Nat.toDigits 10 files.length ++ " files".toList ++ message

/-- The entry starts a wip branch. -/
def isStart : Note → Bool
  | start _ _ => true
  | _ => false

end Note

/-- An entry of the reflog. -/
structure Entry where
  hash : Word
  note : Note

/-- `WIPREF@{k}` -/
def selector (wipref : Word) (k : ℕ) : Text :=
  wipref.chars ++ ['@', '\x7b'] ++ Nat.toDigits 10 k ++ ['\x7d']

/-- An entry as git prints it, the `k`-th from the newest. -/
def Entry.line (wipref : Word) (k : ℕ) (e : Entry) : Text :=
  e.hash.chars ++ ' ' :: (selector wipref k ++ ':' :: (' ' :: e.note.message))

/-- The output of `git reflog`, the last entry first. -/
def reflog (wipref : Word) (entries : List Entry) : List Text :=
  entries.zipIdx.map fun e => e.1.line wipref e.2

/-- The tips that the ref had before the last times it was started over, so many of them.  It had
none before it was made. -/
def tipsBefore (wipref : Word) (n : ℕ) (entries : List Entry) : List Text :=
  (((entries.findIdxs (·.note.isStart)).take n).filter (· + 1 < entries.length)).map
    fun k => selector wipref (k + 1)

/-! ## Lines -/

theorem isDigit_colon : ':'.isDigit = false := rfl

/-- A selector has only the characters of the reference, the braces and digits. -/
theorem not_mem_selector {c : Char} (wipref : Word) (k : ℕ) (hc : c ∉ wipref.chars)
    (hsign : c ∉ ['@', '\x7b', '\x7d']) (hdigit : c.isDigit = false) : c ∉ selector wipref k := by
  rw [selector]
  intro hmem
  rcases List.mem_append.mp hmem with hmem | hmem
  · rcases List.mem_append.mp hmem with hmem | hdigits
    · rcases List.mem_append.mp hmem with hname | hat
      · exact hc hname
      · exact hsign (List.mem_append_left ['\x7d'] hat)
    · have := Nat.isDigit_of_mem_toDigits (by decide) (by decide) hdigits
      rw [hdigit] at this
      exact Bool.false_ne_true this
  · exact hsign (List.mem_append_right ['@', '\x7b'] hmem)

theorem selector_ne_nil (wipref : Word) (k : ℕ) : selector wipref k ≠ [] := by
  simp [selector]

/-- Entries of different age have different selectors. -/
theorem selector_inj {wipref : Word} {k k' : ℕ} :
    selector wipref k = selector wipref k' ↔ k = k' := by
  rw [selector, selector, List.append_left_inj, List.append_right_inj]
  exact ⟨fun h => by rw [← Nat.ofDigitChars_ten_toDigits (n := k), h,
    Nat.ofDigitChars_ten_toDigits], congrArg _⟩

theorem colon_not_mem_selector (wipref : Word) (k : ℕ) : ':' ∉ selector wipref k :=
  not_mem_selector wipref k wipref.colon (by decide) isDigit_colon

theorem upTo_line (wipref : Word) (k : ℕ) (e : Entry) :
    upTo ' ' (e.line wipref k)
      = some (e.hash.chars, selector wipref k ++ ':' :: (' ' :: e.note.message)) :=
  upTo_append e.hash.ne_nil e.hash.space _

/-- The selector of a line is read back. -/
theorem selectorOf_line (wipref : Word) (k : ℕ) (e : Entry) :
    selectorOf (e.line wipref k) = some (selector wipref k) := by
  have hall : ∀ c ∈ selector wipref k, decide (c ≠ ':') = true := fun c hc =>
    decide_eq_true fun heq => colon_not_mem_selector wipref k (heq ▸ hc)
  rw [selectorOf, upTo_line, Option.bind_some]
  dsimp only
  rw [List.takeWhile_append_of_pos hall, List.takeWhile_cons_of_neg (by simp), List.append_nil,
    if_neg (selector_ne_nil wipref k)]

/-- What the message of an entry looks like. -/
theorem isRestart_line (fold : Char → Char) (wipref : Word) (k : ℕ) (e : Entry) :
    isRestart fold (e.line wipref k) = startsOver fold (' ' :: e.note.message) := by
  rw [isRestart, upTo_line, Option.bind_some,
    upTo_append (selector_ne_nil wipref k) (colon_not_mem_selector wipref k), Option.any_some]

/-- The note of a start is recognized. -/
theorem startsOver_start (fold : Char → Char) (former : Bool) (what : Text) :
    startsOver fold (' ' :: (Note.start former what).message) = true := by
  cases former with
  | false =>
    rw [startsOver, Bool.or_eq_true]
    refine .inl ?_
    have h := skip_append fold " start autosaving".toList (' ' :: what)
    exact Option.isSome_iff_exists.mpr ⟨_, h⟩
  | true =>
    rw [startsOver, Bool.or_eq_true]
    refine .inr ?_
    have h := skip_append fold " restart autosaving".toList (' ' :: what)
    exact Option.isSome_iff_exists.mpr ⟨_, h⟩

/-- A literal is not skipped if its second character differs. -/
theorem skip_eq_none_of_ne {fold : Char → Char} {a b c : Char} (h : fold b ≠ fold c)
    (literal text : List Char) : skip fold (a :: b :: literal) (a :: c :: text) = none := by
  rw [skip, if_neg]
  rw [List.length_cons, List.length_cons, List.take_succ_cons, List.take_succ_cons, List.map_cons,
    List.map_cons, List.map_cons, List.map_cons]
  intro heq
  exact h (List.cons.inj (List.cons.inj heq).2).1.symm

/-! ## Two ways to pick entries

What is picked is the entry behind one that counts; whether an entry counts may depend on whether
the one before did. -/

section

variable {α : Type*} (counts counts' : Bool → α → Bool)

/-- The numbers of the entries behind those that count, of which there are at most `n`. -/
def picks : Bool → ℕ → ℕ → List α → List ℕ
  | _, _, _, [] => []
  | after, n, k, a :: older =>
    if n = 0 ∨ older = [] then []
    else if counts after a then (k + 1) :: picks true (n - 1) (k + 1) older
    else picks false n (k + 1) older

/-- The same entries count, as long as there is something to pick. -/
def Agree : Bool → ℕ → List α → Prop
  | _, _, [] => True
  | after, n, a :: older => n = 0 ∨ older = [] ∨ counts after a = counts' after a ∧
    Agree (counts' after a) (if counts' after a then n - 1 else n) older

variable {counts counts'} {after : Bool} {n k : ℕ} {l : List α}

theorem picks_zero : picks counts after 0 k l = [] := by
  cases l with
  | nil => rfl
  | cons a older => exact if_pos (.inl rfl)

/-- What is picked is behind where one begins. -/
theorem lt_of_mem_picks (l : List α) : ∀ {after : Bool} {n k i : ℕ},
    i ∈ picks counts after n k l → k < i := by
  induction l with
  | nil => exact fun h => absurd h List.not_mem_nil
  | cons a older ih =>
    intro after n k i h
    rw [picks] at h
    split at h
    · exact absurd h List.not_mem_nil
    · split at h
      · rcases List.mem_cons.mp h with rfl | h
        · exact Nat.lt_succ_self k
        · exact Nat.lt_of_succ_lt (ih h)
      · exact Nat.lt_of_succ_lt (ih h)

/-- An entry that only one of two ways picks is missing from the other. -/
theorem cons_ne_picks (counts : Bool → α → Bool) (after : Bool) (tips : List ℕ) (older : List α) :
    (k + 1) :: tips ≠ picks counts after n (k + 1) older := by
  intro heq
  exact Nat.lt_irrefl _ (lt_of_mem_picks older (heq ▸ List.mem_cons_self))

/-- **Two ways of counting pick the same exactly if they agree as far as it matters.** -/
theorem picks_eq_iff (l : List α) : ∀ (after : Bool) (n k : ℕ),
    picks counts after n k l = picks counts' after n k l ↔ Agree counts counts' after n l := by
  induction l with
  | nil => exact fun _ _ _ => iff_of_true rfl trivial
  | cons a older ih =>
    intro after n k
    rw [picks, picks, Agree]
    by_cases hstop : n = 0 ∨ older = []
    · rw [if_pos hstop, if_pos hstop]
      exact iff_of_true rfl (hstop.elim .inl fun h => .inr (.inl h))
    · rw [if_neg hstop, if_neg hstop, or_iff_right (fun h => hstop (.inl h)),
        or_iff_right (fun h => hstop (.inr h))]
      cases hc : counts after a <;> cases hc' : counts' after a
      · simpa using ih false n (k + 1)
      · simpa using (cons_ne_picks counts false _ older).symm
      · simpa using cons_ne_picks counts' false _ older
      · simpa using ih true (n - 1) (k + 1)

/-- How many are still to be counted behind one entry. -/
theorem countP_cons_lt_iff {q : α → Bool} {b : α} :
    (b :: l).countP q < n ↔ l.countP q < if q b then n - 1 else n := by
  rw [List.countP_cons]
  by_cases hb : q b = true
  · rw [if_pos hb, if_pos hb]
    omega
  · rw [if_neg hb, if_neg hb, Nat.add_zero]

/-- Entry by entry, when whether an entry counts does not depend on the one before. -/
theorem agree_iff {p q : α → Bool} (l : List α) : ∀ (after : Bool) (n : ℕ),
    Agree (fun after a => p a && !after) (fun _ => q) after n l ↔
      ∀ newer a older, l = newer ++ a :: older → older ≠ [] → newer.countP q < n →
        (p a && !(newer.getLast?.map q).getD after) = q a := by
  induction l with
  | nil =>
    intro after n
    refine iff_of_true trivial fun newer a older heq => ?_
    exact absurd heq.symm (List.append_ne_nil_of_right_ne_nil _ (List.cons_ne_nil _ _))
  | cons b rest ih =>
    intro after n
    rw [Agree]
    constructor
    · rintro hagree newer a older heq hne hlt
      cases newer with
      | nil =>
        obtain ⟨rfl, rfl⟩ := List.cons.inj heq
        exact ((hagree.resolve_left (Nat.pos_iff_ne_zero.mp hlt)).resolve_left hne).1
      | cons c newer =>
        obtain ⟨rfl, rfl⟩ := List.cons.inj heq
        have hrest : newer ++ a :: older ≠ [] :=
          List.append_ne_nil_of_right_ne_nil _ (List.cons_ne_nil _ _)
        have htail := ((hagree.resolve_left (Nat.ne_zero_of_lt hlt)).resolve_left hrest).2
        have h := (ih _ _).mp htail newer a older rfl hne (countP_cons_lt_iff.mp hlt)
        rw [List.getLast?_cons, Option.map_some, Option.getD_some]
        cases hlast : newer.getLast? with
        | none => simpa [hlast] using h
        | some c => simpa [hlast] using h
    · intro hall
      by_cases hn : n = 0
      · exact .inl hn
      by_cases hne : rest = []
      · exact .inr (.inl hne)
      refine .inr (.inr ⟨hall [] b rest rfl hne (Nat.pos_of_ne_zero hn), (ih _ _).mpr ?_⟩)
      intro newer a older heq hne' hlt
      have h := hall (b :: newer) a older (by rw [heq, List.cons_append]) hne'
        (countP_cons_lt_iff.mpr hlt)
      rw [List.getLast?_cons, Option.map_some, Option.getD_some] at h
      cases hlast : newer.getLast? with
      | none => simpa [hlast] using h
      | some c => simpa [hlast] using h

/-- The entries that count, one by one. -/
theorem picks_eq_findIdxs {q : α → Bool} (l : List α) : ∀ (after : Bool) (n k : ℕ),
    picks (fun _ => q) after n k l
      = (((l.findIdxs q k).take n).filter (· + 1 < k + l.length)).map (· + 1) := by
  induction l with
  | nil =>
    intro after n k
    rw [picks, List.findIdxs_nil, List.take_nil]
    rfl
  | cons a older ih =>
    intro after n k
    have hlength : k + (a :: older).length = k + 1 + older.length := by
      rw [List.length_cons]
      omega
    rw [picks, List.findIdxs_cons, hlength]
    rcases Nat.eq_zero_or_eq_succ_pred n with rfl | hn
    · rw [if_pos (.inl rfl), List.take_zero]
      rfl
    rw [hn]
    rcases eq_or_ne older [] with rfl | hne
    · rw [if_pos (.inr rfl), List.findIdxs_nil]
      split
      · rw [List.take_succ_cons, List.take_nil, List.filter_cons_of_neg (by simp)]
        rfl
      · rw [List.take_nil]
        rfl
    · rw [if_neg (not_or_intro (Nat.succ_ne_zero _) hne)]
      split
      · have hlt : k + 1 < k + 1 + older.length :=
          Nat.lt_add_of_pos_right (List.length_pos_iff.mpr hne)
        rw [List.take_succ_cons, List.filter_cons, if_pos (decide_eq_true hlt), List.map_cons, ih]
        rfl
      · exact ih _ _ _

end

/-! ## The loop -/

section

variable (fold : Char → Char) (wipref : Word)

/-- What `magit-wip-log-get-tips` takes for a restart. -/
def Note.looksLikeStart (note : Note) : Bool := startsOver fold (' ' :: note.message)

/-- An entry that was passed together with the one before is not looked at. -/
def counted (after : Bool) (e : Entry) : Bool := e.note.looksLikeStart fold && !after

/-- Behind a start the next entry is not counted. -/
theorem picks_true (n k : ℕ) (e : Entry) (older : List Entry) :
    picks (counted fold) true n k (e :: older) = picks (counted fold) false n (k + 1) older := by
  rw [picks, counted, Bool.not_true, Bool.and_false]
  split
  next h =>
    rcases h with rfl | rfl
    · exact picks_zero.symm
    · rfl
  next => exact if_neg Bool.false_ne_true

/-- **The loop** steps over the entry behind each one that it finds. -/
theorem getTips_eq_picks (m : ℕ) : ∀ (entries : List Entry), entries.length ≤ m → ∀ rounds k : ℕ,
    getTips fold rounds ((entries.zipIdx k).map fun e => e.1.line wipref e.2)
      = (picks (counted fold) false rounds k entries).map (selector wipref) := by
  induction m with
  | zero =>
    intro entries hm rounds k
    rw [List.eq_nil_of_length_eq_zero (Nat.le_zero.mp hm)]
    cases rounds <;> rfl
  | succ m ih =>
    intro entries hm rounds k
    cases rounds with
    | zero =>
      rw [picks_zero]
      rfl
    | succ rounds =>
      cases entries with
      | nil => rfl
      | cons e older =>
        have hm' : older.length ≤ m := Nat.le_of_succ_le_succ hm
        rw [List.zipIdx_cons, List.map_cons, getTips, List.dropWhile_cons, isRestart_line, picks]
        cases hlooks : startsOver fold (' ' :: e.note.message) with
        | false =>
          have hcounted : counted fold false e = false := by
            rw [counted, Note.looksLikeStart, hlooks, Bool.false_and]
          rw [hcounted, if_pos (by exact Bool.not_false), if_neg Bool.false_ne_true]
          have h := ih older hm' (rounds + 1) (k + 1)
          rw [getTips] at h
          rw [h]
          split
          next hstop =>
            rcases hstop with hstop | rfl
            · exact absurd hstop (Nat.succ_ne_zero _)
            · rfl
          next => rfl
        | true =>
          have hcounted : counted fold false e = true := by
            rw [counted, Note.looksLikeStart, hlooks]
            rfl
          rw [hcounted, if_neg (by exact Bool.false_ne_true), if_pos rfl]
          cases older with
          | nil => rfl
          | cons e' older =>
            rw [if_neg (not_or_intro (Nat.succ_ne_zero _) (List.cons_ne_nil _ _)), picks_true,
              List.zipIdx_cons, List.map_cons, List.map_cons]
            dsimp only
            rw [selectorOf_line, Option.toList_some, List.singleton_append,
              ih older (Nat.le_of_succ_le hm')]
            rfl

end

/-! ## What looks like a restart -/

section

/-- `case-fold-search`, in the C locale. -/
def foldCase (caseFold : Bool) (c : Char) : Char := if caseFold then c.toLower else c

/-- What is a start looks like one. -/
theorem looksLikeStart_of_isStart {fold : Char → Char} {note : Note} (h : note.isStart = true) :
    note.looksLikeStart fold = true := by
  cases note with
  | start former what => exact startsOver_start fold former what
  | merge => cases h
  | own => cases h
  | autosave => cases h

/-- A note with another first character does not look like a start. -/
theorem looksLikeStart_of_cons (caseFold : Bool) (note : Note) {c : Char} {text : Text}
    (hmessage : note.message = c :: text) (hs : foldCase caseFold 's' ≠ foldCase caseFold c)
    (hr : foldCase caseFold 'r' ≠ foldCase caseFold c) :
    note.looksLikeStart (foldCase caseFold) = false := by
  rw [Note.looksLikeStart, startsOver, hmessage]
  have hstart := skip_eq_none_of_ne (a := ' ') hs "tart autosaving".toList text
  have hrestart := skip_eq_none_of_ne (a := ' ') hr "estart autosaving".toList text
  rw [Bool.or_eq_false_iff]
  exact ⟨Option.isSome_eq_false_iff.mpr (Option.isNone_iff_eq_none.mpr hstart),
    Option.isSome_eq_false_iff.mpr (Option.isNone_iff_eq_none.mpr hrestart)⟩

/-- Of the messages that are not those of restarts, only one of the caller's can look like one. -/
theorem exists_own_of_looksLikeStart {caseFold : Bool} {note : Note}
    (hlooks : note.looksLikeStart (foldCase caseFold) = true) (hstart : note.isStart = false) :
    ∃ message, note = .own message := by
  cases note with
  | start => cases hstart
  | own message => exact ⟨message, rfl⟩
  | merge ref what =>
    have h := looksLikeStart_of_cons caseFold (.merge ref what) rfl
      (by cases caseFold <;> decide) (by cases caseFold <;> decide)
    rw [h] at hlooks
    exact absurd hlooks Bool.false_ne_true
  | autosave files message =>
    obtain ⟨text, htext⟩ : ∃ text, (Note.autosave files message).message = 'a' :: text := by
      rcases files with _ | ⟨file, _ | ⟨file', files⟩⟩ <;> exact ⟨_, rfl⟩
    have h := looksLikeStart_of_cons caseFold (.autosave files message) htext
      (by cases caseFold <;> decide) (by cases caseFold <;> decide)
    rw [h] at hlooks
    exact absurd hlooks Bool.false_ne_true

end

/-! ## Which tips are found -/

/-- The tips that are listed are the picked ones, by their selectors. -/
theorem tipsBefore_eq_picks (wipref : Word) (n : ℕ) (entries : List Entry) :
    tipsBefore wipref n entries
      = (picks (fun _ e => e.note.isStart) false n 0 entries).map (selector wipref) := by
  rw [picks_eq_findIdxs, Nat.zero_add, List.map_map]
  rfl

/-- **The tips of earlier wip branches** are found exactly if, among the entries that it takes to
get to the last one, no restart is next to another one, and no message of the caller's looks like
that of a restart, except next to one. -/
theorem magitWipLogGetTips_iff (caseFold : Bool) (wipref : Word) (count : ℤ) (e : Entry)
    (es : List Entry) :
    magitWipLogGetTips (foldCase caseFold) wipref.chars count (reflog wipref (e :: es))
        = wipref.chars :: tipsBefore wipref (count - 1).toNat (e :: es) ↔
      ∀ newer a older, e :: es = newer ++ a :: older → older ≠ [] →
        newer.countP (·.note.isStart) < (count - 1).toNat →
          (a.note.isStart = true → ∀ b ∈ newer.getLast?, b.note.isStart = false) ∧
          ∀ message, a.note = .own message → a.note.looksLikeStart (foldCase caseFold) = true →
            ∃ b ∈ newer.getLast?, b.note.isStart = true := by
  have hinj : Function.Injective (selector wipref) := fun _ _ => selector_inj.mp
  rw [magitWipLogGetTips, reflog, if_neg (by simp), List.cons_inj_right,
    getTips_eq_picks (foldCase caseFold) wipref _ _ Nat.le.refl, tipsBefore_eq_picks,
    (List.map_injective_iff.mpr hinj).eq_iff, picks_eq_iff]
  refine (agree_iff (p := fun e : Entry => e.note.looksLikeStart (foldCase caseFold))
    (q := fun e : Entry => e.note.isStart) (e :: es) false (count - 1).toNat).trans ?_
  refine forall_congr' fun newer => forall_congr' fun a => forall_congr' fun older =>
    imp_congr_right fun _ => imp_congr_right fun _ => imp_congr_right fun _ => ?_
  cases hs : a.note.isStart with
  | true =>
    rw [looksLikeStart_of_isStart hs]
    have hown : ∀ message, a.note ≠ .own message := fun message heq => by
      rw [heq] at hs
      cases hs
    cases newer.getLast? with
    | none => simp [hown]
    | some b => simp [hown]
  | false =>
    cases hlooks : a.note.looksLikeStart (foldCase caseFold) with
    | false => simp
    | true =>
      obtain ⟨message, hmessage⟩ := exists_own_of_looksLikeStart hlooks hs
      cases newer.getLast? with
      | none => simp [hmessage]
      | some b => simp [hmessage]

end Magit.WipTips
