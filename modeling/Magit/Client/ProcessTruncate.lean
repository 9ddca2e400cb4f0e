import Magit.Client.ProcessTree

/-!
# Client/ProcessTruncate — truncating the process log

The loop of `magit-process-truncate-log` takes a section without a subprocess from the list, but
leaves its text; and where it deletes the text of a section whose subprocess is gone, it deletes the
first character of the next section too.  So something is lost or left behind as soon as one section
is removed (`consistent_iff`).
-/

namespace Magit.ProcessLog

open Emacs Process

/-- The text of a section. -/
def Buffer.textOf (b : Buffer) (i : ℕ) : List Char :=
  (b.sections[i]?).elim [] fun s => s.fin.elim [] fun fin =>
    (b.text.drop (s.start.pos - 1)).take (fin.pos - s.start.pos)

/-- The log of the root once it has been truncated.  The children are the sections whose text is
still in the buffer, in order; text is only removed with the sections it belongs to; and they are
the oldest ones, but for those of the subprocesses that are running. -/
structure Consistent (root : ℕ) (b b' : Buffer) : Prop where
  inOrder : List.Sublist (b'.children root) (b.children root)
  kept : ∀ i ∈ b'.children root, b'.textOf i = b.textOf i
  removed : ∀ i ∈ b.children root, i ∉ b'.children root → b'.textOf i = []
  whole : b.text.length = b'.text.length
    + (((b.children root).filter (· ∉ b'.children root)).map fun i => (b.textOf i).length).sum
  oldest : ∃ n, b'.children root
    = ((b.children root).take n).filter b.running ++ (b.children root).drop n

/-- The log is not full yet, or all sections but the last one belong to subprocesses that are
running. -/
def KeepsAll (max : ℤ) (b : Buffer) (root : ℕ) : Prop :=
  ((b.children root).length : ℤ) + 1 ≤ max ∨ ((b.children root).length : ℤ) ≤ max.tdiv 2
    ∨ ∀ i ∈ (b.children root).dropLast, b.running i = true

/-- Where a section begins and ends. -/
def Buffer.Spans (b : Buffer) (i p q : ℕ) : Prop :=
  ∃ s fin, b.sections[i]? = some s ∧ s.start.pos = p ∧ s.fin = some fin ∧ fin.pos = q

/-- The sections are in order from a position on, each with more than one character, and something
follows the last one. -/
def Buffer.Follow (b : Buffer) : ℕ → List ℕ → Prop
  | p, [] => p < b.pointMax
  | p, i :: l => ∃ q r, b.Spans i q r ∧ p ≤ q ∧ q + 2 ≤ r ∧ b.Follow r l

section

variable {b b₁ : Buffer} {i p q x y beg fin root obj : ℕ} {l head tail rest : List ℕ}
  {r : List ℕ × Buffer}

/-- A section is as long as the distance between its ends. -/
theorem Buffer.Spans.length_textOf (h : b.Spans i p q) (hp : 1 ≤ p) (hq : q ≤ b.pointMax) :
    (b.textOf i).length = q - p := by
  obtain ⟨s, fin, hs, rfl, hfin, rfl⟩ := h
  rw [pointMax] at hq
  rw [textOf, hs, Option.elim_some, hfin, Option.elim_some, List.length_take, List.length_drop]
  omega

/-- Sections that follow a position end within the buffer. -/
theorem Buffer.Follow.lt_pointMax (h : b.Follow p l) : p < b.pointMax := by
  induction l generalizing p with
  | nil => exact h
  | cons j l ih =>
    obtain ⟨q, r, -, hpq, hqr, hrest⟩ := h
    have := ih hrest
    omega

/-- What stands in the list is in the buffer, behind where it starts. -/
theorem Buffer.Follow.of_mem (h : b.Follow p l) (hi : i ∈ l) :
    ∃ x y, b.Spans i x y ∧ p ≤ x ∧ x + 2 ≤ y ∧ y < b.pointMax := by
  induction l generalizing p with
  | nil => cases hi
  | cons j l ih =>
    obtain ⟨q, r, hspans, hpq, hqr, hrest⟩ := h
    rcases List.mem_cons.mp hi with rfl | hi
    · exact ⟨q, r, hspans, hpq, hqr, hrest.lt_pointMax⟩
    · obtain ⟨x, y, hxy, hrx, hle⟩ := ih hrest hi
      exact ⟨x, y, hxy, by omega, hle⟩

/-! ## Deleting a section -/

/-- Where a section is after a deletion. -/
theorem Buffer.Spans.delete (h : b.Spans i p q) (hb : b.deleteRegion beg fin = some b₁)
    (hx : ∀ m : Marker, m.pos = p → (m.deleted beg fin).pos = x)
    (hy : ∀ m : Marker, m.pos = q → (m.deleted beg fin).pos = y) : b₁.Spans i x y := by
  obtain ⟨s, mark, hs, hp, hmark, hq⟩ := h
  rw [deleteRegion] at hb
  split at hb
  · rw [← Option.some.inj hb]
    refine ⟨s.move (·.deleted beg fin), mark.deleted beg fin, ?_, hx _ hp, ?_, hy _ hq⟩
    · rw [List.getElem?_map, hs, Option.map_some]
    · rw [Section.move, hmark, Option.map_some]
  · cases hb

/-- The buffer gets shorter by what was deleted. -/
theorem Buffer.pointMax_delete (hb : b.deleteRegion beg fin = some b₁) (hbeg : 1 ≤ beg) :
    b₁.pointMax = b.pointMax - (fin - beg) := by
  rw [deleteRegion] at hb
  split at hb
  · next hle =>
    rw [pointMax] at hle
    rw [← Option.some.inj hb, pointMax, pointMax, deleteText, List.length_append, List.length_take,
      List.length_drop]
    omega
  · cases hb

/-- A marker behind a region that is deleted. -/
theorem deleted_behind (hle : beg ≤ fin) (hx : fin ≤ x) :
    ∀ m : Marker, m.pos = x → (m.deleted beg fin).pos = x - (fin - beg) := by
  rintro m rfl
  rw [Marker.deleted_of_ge hle hx]

/-- The sections behind a region that is deleted. -/
theorem Buffer.Follow.delete (h : b.Follow p l) (hb : b.deleteRegion beg fin = some b₁)
    (hbeg : 1 ≤ beg) (hle : beg ≤ fin) (hp : fin ≤ p) : b₁.Follow (p - (fin - beg)) l := by
  induction l generalizing p with
  | nil =>
    have hlt : p < b.pointMax := h
    rw [Follow, pointMax_delete hb hbeg]
    omega
  | cons i l ih =>
    obtain ⟨q, r, hspans, hpq, hqr, hrest⟩ := h
    exact ⟨q - (fin - beg), r - (fin - beg), hspans.delete hb (deleted_behind hle (by omega))
      (deleted_behind hle (by omega)), by omega, by omega, ih hrest (by omega)⟩

/-- A section in front of a region that is deleted. -/
theorem Buffer.Spans.textOf_delete (h : b.Spans i x y) (hb : b.deleteRegion beg fin = some b₁)
    (hx : 1 ≤ x) (hxy : x ≤ y) (hy : y ≤ beg) : b₁.Spans i x y ∧ b₁.textOf i = b.textOf i := by
  have hbefore : ∀ p ≤ beg, ∀ m : Marker, m.pos = p → (m.deleted beg fin).pos = p := by
    rintro _ hp m rfl
    rw [Marker.deleted_of_le hp]
  have hspans := h.delete hb (hbefore x (by omega)) (hbefore y hy)
  refine ⟨hspans, ?_⟩
  obtain ⟨s, mark, hs, rfl, hmark, rfl⟩ := h
  obtain ⟨s', mark', hs', hx', hmark', hy'⟩ := hspans
  have htext : b₁.text = deleteText b.text beg fin ∧ fin ≤ b.pointMax ∧ beg ≤ fin := by
    rw [deleteRegion] at hb
    split at hb
    · next hle => exact ⟨by rw [← Option.some.inj hb], hle.2, hle.1⟩
    · cases hb
  rw [pointMax] at htext
  rw [textOf, hs', Option.elim_some, hmark', Option.elim_some, textOf, hs, Option.elim_some, hmark,
    Option.elim_some, hx', hy', htext.1, deleteText, List.drop_append_of_le_length (by
      rw [List.length_take]
      omega),
    List.take_append_of_le_length (by
      rw [List.length_drop, List.length_take]
      omega), List.drop_take, List.take_take, Nat.min_eq_left (by omega)]

/-- What becomes of the sections behind one that is deleted, with the character behind it. -/
structure Shortened (b b₁ : Buffer) (p next : ℕ) (rest : List ℕ) : Prop where
  alike : b.Alike b₁
  follow : ∃ x y, b₁.Spans next x y ∧ p ≤ x ∧ x < y ∧ b₁.Follow y rest
  next : (b.textOf next).length ≤ (b₁.textOf next).length + 1
  rest : ∀ i ∈ rest, (b₁.textOf i).length = (b.textOf i).length

/-- Deleting the first section and the character behind it shortens the next one by its first
character. -/
theorem Buffer.Follow.delete_next {next : ℕ} (hpq : p < q) (hp : 1 ≤ p)
    (h : b.Follow q (next :: rest)) :
    ∃ b₁, b.deleteRegion p (q + 1) = some b₁ ∧ b₁.text.length + (q - p + 1) = b.text.length
      ∧ Shortened b b₁ p next rest := by
  have hlt := h.lt_pointMax
  obtain ⟨b₁, hb₁⟩ : ∃ b₁, b.deleteRegion p (q + 1) = some b₁ :=
    ⟨_, if_pos ⟨by omega, by omega⟩⟩
  have hmax := pointMax_delete hb₁ hp
  have hlength : b₁.text.length + (q - p + 1) = b.text.length := by
    rw [pointMax, pointMax] at hmax
    rw [pointMax] at hlt
    omega
  obtain ⟨x, y, hnext, hqx, hxy, hrest⟩ := h
  have hmoved : b₁.Spans next (max p (x - (q + 1 - p))) (y - (q + 1 - p)) := by
    refine hnext.delete hb₁ ?_ (deleted_behind (by omega) (by omega))
    rintro m rfl
    rw [Marker.deleted, if_neg (by omega)]
  have hfollow := hrest.delete hb₁ hp (by omega) (by omega)
  refine ⟨b₁, hb₁, hlength, Buffer.alike_deleteRegion hb₁,
    ⟨_, _, hmoved, Nat.le_max_left _ _, by omega, hfollow⟩, ?_, fun i hi => ?_⟩
  · rw [hnext.length_textOf (by omega) hrest.lt_pointMax.le,
      hmoved.length_textOf (by omega) hfollow.lt_pointMax.le]
    omega
  · obtain ⟨x', y', hspans, hyx, hxy', hlt'⟩ := hrest.of_mem hi
    have hspans₁ := hspans.delete hb₁ (deleted_behind (by omega) (by omega))
      (deleted_behind (by omega) (by omega))
    rw [hspans.length_textOf (by omega) hlt'.le, hspans₁.length_textOf (by omega) (by omega)]
    omega

/-! ## The loop -/

/-- The text of the sections of a list that are not in another one. -/
def lengthWithout (b : Buffer) (tail kept : List ℕ) : ℕ :=
  ((tail.filter (· ∉ kept)).map fun i => (b.textOf i).length).sum

/-- Something is left behind of a section that is not kept, or too much is deleted. -/
def Loses (b : Buffer) (tail : List ℕ) (r : List ℕ × Buffer) : Prop :=
  (∃ i ∈ tail, i ∉ r.1 ∧ r.2.textOf i ≠ [])
    ∨ r.2.text.length + lengthWithout b tail r.1 < b.text.length

theorem lengthWithout_of_mem (b : Buffer) (tail : List ℕ) {kept : List ℕ} (h : i ∈ kept) :
    lengthWithout b (i :: tail) kept = lengthWithout b tail kept := by
  rw [lengthWithout, List.filter_cons_of_neg (by simpa using h), lengthWithout]

theorem lengthWithout_of_notMem (b : Buffer) (tail : List ℕ) {kept : List ℕ} (h : i ∉ kept) :
    lengthWithout b (i :: tail) kept = (b.textOf i).length + lengthWithout b tail kept := by
  rw [lengthWithout, List.filter_cons_of_pos (by simpa using h), List.map_cons, List.sum_cons,
    lengthWithout]

/-- Only the next section has got shorter, by one character. -/
theorem Shortened.lengthWithout_le {next : ℕ} (h : Shortened b b₁ p next rest) (kept : List ℕ) :
    lengthWithout b (next :: rest) kept ≤ lengthWithout b₁ (next :: rest) kept + 1 := by
  have hrest : lengthWithout b rest kept = lengthWithout b₁ rest kept := by
    rw [lengthWithout, lengthWithout]
    refine congrArg List.sum (List.map_congr_left fun i hi => ?_)
    exact (h.rest i (List.mem_filter.mp hi).1).symm
  by_cases hnext : next ∈ kept
  · rw [lengthWithout_of_mem b rest hnext, lengthWithout_of_mem b₁ rest hnext, hrest]
    exact Nat.le_succ _
  · have := h.next
    rw [lengthWithout_of_notMem b rest hnext, lengthWithout_of_notMem b₁ rest hnext, hrest]
    omega

/-- The sections that the loop looks at all belong to subprocesses that are running, or it does not
look at any. -/
theorem truncateLoop_kept {max count : ℤ}
    (h : count ≤ max.tdiv 2 ∨ ∀ i ∈ tail.dropLast, b.running i = true) :
    truncateLoop max head tail count b = some (head.reverse ++ tail, b) := by
  induction tail generalizing head with
  | nil => rfl
  | cons obj tail ih =>
    rcases tail with _ | ⟨next, rest⟩
    · rfl
    rw [truncateLoop]
    split
    · next hcount =>
      have hall := h.resolve_left (by omega)
      have hrunning := hall obj List.mem_cons_self
      rw [Buffer.running, Buffer.process] at hrunning
      rcases hs : b.sections[obj]? with _ | s
      · rw [hs] at hrunning
        cases hrunning
      rw [hs, Option.bind_some] at hrunning
      rcases hprocess : s.process with _ | ⟨_ | _, mark⟩
      · rw [hprocess] at hrunning
        cases hrunning
      · rw [Option.bind_some, hprocess]
        simp only
        rw [ih (.inr fun i hi => hall i (List.mem_cons_of_mem _ hi))]
        simp
      · rw [hprocess] at hrunning
        cases hrunning
    · rfl

/-- The loop leaves alone what stands in front of where it is. -/
theorem truncateLoop_frame {max count : ℤ}
    (h : truncateLoop max head (obj :: rest) count b = some r) (hspans : b.Spans obj p q)
    (hp : 1 ≤ p) (hpq : p < q) (hfollow : b.Follow q rest) (hi : b.Spans i x y) (hx : 1 ≤ x)
    (hxy : x ≤ y) (hy : y ≤ p) : r.2.textOf i = b.textOf i := by
  induction rest generalizing head count b obj p q with
  | nil => rw [← Option.some.inj h]
  | cons next rest ih =>
    rw [truncateLoop] at h
    split at h
    · obtain ⟨s, fin, hs, hstart, hfin, hend⟩ := hspans
      obtain ⟨x', y', hnext, hqx, hxy', hrest⟩ := id hfollow
      rw [hs, Option.bind_some] at h
      rcases hprocess : s.process with _ | ⟨_ | _, mark⟩
      · rw [hprocess] at h
        exact ih h hnext (by omega) (by omega) hrest hi (by omega)
      · rw [hprocess] at h
        exact ih h hnext (by omega) (by omega) hrest hi (by omega)
      · rw [hprocess, hfin, Option.bind_some] at h
        obtain ⟨b₁, hb₁, h⟩ := Option.bind_eq_some_iff.mp h
        obtain ⟨b₂, hb₂, -, hshort⟩ := hfollow.delete_next hpq hp
        rw [hstart, hend, hb₂] at hb₁
        obtain rfl := Option.some.inj hb₁
        obtain ⟨x₂, y₂, hnext₂, hle, hlt, hrest₂⟩ := hshort.follow
        obtain ⟨hspans₂, htext⟩ := hi.textOf_delete hb₂ hx hxy hy
        rw [ih h hnext₂ (by omega) hlt hrest₂ hspans₂ (by omega), htext]
    · rw [← Option.some.inj h]

/-- Otherwise the last section that it removes is not removed as a whole. -/
theorem truncateLoop_loses {max count : ℤ} (hcount : max.tdiv 2 < count)
    (hnot : ∃ i ∈ (obj :: rest).dropLast, b.running i = false)
    (hnodup : (head.reverse ++ obj :: rest).Nodup) (hspans : b.Spans obj p q) (hp : 1 ≤ p)
    (hpq : p < q) (hfollow : b.Follow q rest) :
    ∃ r, truncateLoop max head (obj :: rest) count b = some r ∧ Loses b (obj :: rest) r := by
  induction rest generalizing head count b obj p q with
  | nil =>
    obtain ⟨i, hi, -⟩ := hnot
    cases hi
  | cons next rest ih =>
    have hdrop : (head.reverse ++ next :: rest).Nodup :=
      hnodup.sublist ((List.sublist_cons_self obj _).append_left _)
    have hobj : obj ∉ head.reverse ++ next :: rest := by
      obtain ⟨-, htail, hdisjoint⟩ := List.nodup_append.mp hnodup
      rw [List.mem_append, not_or]
      exact ⟨fun h => hdisjoint obj h obj List.mem_cons_self rfl, (List.nodup_cons.mp htail).1⟩
    have hwhole := hspans.length_textOf hp hfollow.lt_pointMax.le
    obtain ⟨x, y, hnext, hqx, hxy, hrest⟩ := id hfollow
    obtain ⟨s, fin, hs, hstart, hfin, hend⟩ := id hspans
    have hrunning : b.running obj = s.process.any (·.status = .run) := by
      rw [Buffer.running, Buffer.process, hs, Option.bind_some]
    have hdropLast : (obj :: next :: rest).dropLast = obj :: (next :: rest).dropLast := rfl
    rw [truncateLoop, if_pos hcount, hs, Option.bind_some]
    rcases hprocess : s.process with _ | ⟨_ | _, mark⟩
    · -- a section without a subprocess is left in the text
      obtain ⟨r, hr⟩ : ∃ r, truncateLoop max head (next :: rest) count b = some r := by
        by_cases hmore : ∃ i ∈ (next :: rest).dropLast, b.running i = false
        · obtain ⟨r, hr, -⟩ := ih hcount hmore hdrop hnext (by omega) (by omega) hrest
          exact ⟨r, hr⟩
        · exact ⟨_, truncateLoop_kept (.inr fun i hi => by
            by_contra hfalse
            exact hmore ⟨i, hi, Bool.eq_false_of_not_eq_true hfalse⟩)⟩
      have hleft := truncateLoop_frame hr hnext (by omega) (by omega) hrest hspans hp hpq.le hqx
      refine ⟨r, hr, .inl ⟨obj, List.mem_cons_self, fun hmem => ?_, ?_⟩⟩
      · exact hobj ((truncateLoop_truncated hr).sublist.subset hmem)
      · rw [hleft, ← List.length_pos_iff, hwhole]
        omega
    · -- of one that is running nothing is touched
      have hnot' : ∃ i ∈ (next :: rest).dropLast, b.running i = false := by
        obtain ⟨i, hi, hfalse⟩ := hnot
        rw [hdropLast] at hi
        rcases List.mem_cons.mp hi with rfl | hi
        · rw [hrunning, hprocess] at hfalse
          cases hfalse
        · exact ⟨i, hi, hfalse⟩
      have hhead : ((obj :: head).reverse ++ next :: rest).Nodup := by
        rwa [List.reverse_cons, List.append_assoc]
      obtain ⟨r, hr, hloses⟩ := ih hcount hnot' hhead hnext (by omega) (by omega) hrest
      have hkept := (truncateLoop_truncated hr).kept obj List.mem_cons_self
      refine ⟨r, hr, hloses.imp ?_ fun hless => ?_⟩
      · rintro ⟨i, hi, hleft⟩
        exact ⟨i, List.mem_cons_of_mem _ hi, hleft⟩
      · rwa [lengthWithout_of_mem b _ hkept]
    · -- behind the text of one that is gone a character is deleted too
      obtain ⟨b₁, hb₁, hlength, hshort⟩ := hfollow.delete_next hpq hp
      have hloop : ∀ r, truncateLoop max head (next :: rest) (count - 1) b₁ = some r →
          (s.fin.bind fun fin => (b.deleteRegion s.start.pos (fin.pos + 1)).bind
            (truncateLoop max head (next :: rest) (count - 1))) = some r := by
        intro r hr
        rw [hfin, Option.bind_some, hstart, hend, hb₁, Option.bind_some, hr]
      by_cases hmore : max.tdiv 2 < count - 1 ∧ ∃ i ∈ (next :: rest).dropLast, b₁.running i = false
      · obtain ⟨x₁, y₁, hnext₁, hle, hlt, hrest₁⟩ := hshort.follow
        obtain ⟨r, hr, hloses⟩ := ih hmore.1 hmore.2 hdrop hnext₁ (by omega) hlt hrest₁
        have hgone : obj ∉ r.1 := fun hmem =>
          hobj ((truncateLoop_truncated hr).sublist.subset hmem)
        refine ⟨r, hloop r hr, hloses.imp ?_ fun hless => ?_⟩
        · rintro ⟨i, hi, hleft⟩
          exact ⟨i, List.mem_cons_of_mem _ hi, hleft⟩
        · have := hshort.lengthWithout_le r.1
          rw [lengthWithout_of_notMem b _ hgone, hwhole]
          omega
      · have hr : truncateLoop max head (next :: rest) (count - 1) b₁
            = some (head.reverse ++ next :: rest, b₁) := by
          refine truncateLoop_kept ((Classical.not_and_iff_not_or_not.mp hmore).imp ?_ ?_)
          · exact Int.not_lt.mp
          · intro hall i hi
            by_contra hfalse
            exact hall ⟨i, hi, Bool.eq_false_of_not_eq_true hfalse⟩
        refine ⟨_, hloop _ hr, .inr ?_⟩
        have hnone : lengthWithout b (next :: rest) (head.reverse ++ next :: rest) = 0 := by
          rw [lengthWithout, List.filter_eq_nil_iff.mpr]
          · rfl
          · intro i hi
            have hmem : i ∈ head.reverse ++ next :: rest := List.mem_append_right _ hi
            simp only [hmem, not_true_eq_false, decide_false, Bool.false_eq_true, not_false_eq_true]
        rw [lengthWithout_of_notMem b _ hobj, hwhole, hnone]
        simp only
        omega

theorem Buffer.Spans.start_eq (h : b.Spans i p q) (h' : b.Spans i x y) : p = x := by
  obtain ⟨s, _, hs, rfl, -, -⟩ := h
  obtain ⟨s', _, hs', rfl, -, -⟩ := h'
  rw [Option.some.inj (hs.symm.trans hs')]

/-- Sections that follow each other are different. -/
theorem Buffer.Follow.nodup (h : b.Follow p l) : l.Nodup := by
  induction l generalizing p with
  | nil => exact List.nodup_nil
  | cons i l ih =>
    obtain ⟨q, r, hspans, hpq, hqr, hrest⟩ := h
    refine List.nodup_cons.mpr ⟨fun hi => ?_, ih hrest⟩
    obtain ⟨x, y, hxy, hrx, -⟩ := hrest.of_mem hi
    have := hspans.start_eq hxy
    omega

/-! ## The buffer afterwards -/

/-- Setting the children leaves the texts alone. -/
theorem textOf_setChildren (b : Buffer) (children : List ℕ) (root i : ℕ) :
    (b.update root fun s => { s with children }).textOf i = b.textOf i := by
  rw [Buffer.textOf, Buffer.update, List.getElem?_modify, Buffer.textOf]
  rcases b.sections[i]? with _ | s
  · rfl
  · rw [Option.map_eq_map, Option.map_some, Option.elim_some, Option.elim_some]
    split <;> rfl

/-- A log of which nothing is lost is consistent. -/
theorem consistent_of_eq {b' : Buffer} (hchildren : b'.children root = b.children root)
    (htext : b'.text = b.text) (hsame : ∀ i, b'.textOf i = b.textOf i) : Consistent root b b' where
  inOrder := hchildren ▸ List.Sublist.refl _
  kept i _ := hsame i
  removed i hi hnot := absurd (hchildren ▸ hi) hnot
  whole := by
    have hnone : (b.children root).filter (· ∉ b'.children root) = [] := by
      rw [hchildren, List.filter_eq_nil_iff]
      intro i hi
      simpa using hi
    rw [hnone, htext]
    rfl
  oldest := ⟨0, by rw [hchildren]; rfl⟩

/-- A log that lost too much is not consistent. -/
theorem not_consistent_of_loses {b' : Buffer} (hchildren : b'.children root = r.1)
    (htext : b'.text = r.2.text) (hsame : ∀ i, b'.textOf i = r.2.textOf i)
    (h : Loses b (b.children root) r) : ¬Consistent root b b' := by
  intro hconsistent
  rcases h with ⟨i, hi, hmem, hne⟩ | hless
  · rw [← hsame] at hne
    exact hne (hconsistent.removed i hi (hchildren ▸ hmem))
  · have hwhole := hconsistent.whole
    rw [hchildren, htext] at hwhole
    rw [lengthWithout] at hless
    omega

/-- **Truncating the log is consistent only if nothing is removed.** -/
theorem consistent_iff {max : ℤ} (hroot : b.root = some root) (hp : 1 ≤ p)
    (hfollow : b.Follow p (b.children root)) :
    ∃ b', magitProcessTruncateLog max b = some b' ∧
      (Consistent root b b' ↔ KeepsAll max b root) := by
  have htruncate : magitProcessTruncateLog max b
      = if max < ((b.children root).length : ℤ) + 1 then
          (truncateLoop max [] (b.children root) (b.children root).length b).map fun r =>
            r.2.update root fun s => { s with children := r.1 }
        else some b := by
    rw [magitProcessTruncateLog, hroot, Option.bind_some]
  rw [htruncate]
  by_cases hfull : max < ((b.children root).length : ℤ) + 1
  swap
  · rw [if_neg hfull]
    exact ⟨b, rfl, iff_of_true (consistent_of_eq rfl rfl fun _ => rfl)
      (.inl (Int.not_lt.mp hfull))⟩
  rw [if_pos hfull]
  by_cases hkeeps : KeepsAll max b root
  · have hloop : truncateLoop max [] (b.children root) (b.children root).length b
        = some (([] : List ℕ).reverse ++ b.children root, b) :=
      truncateLoop_kept (hkeeps.resolve_left (Int.not_le.mpr hfull))
    refine ⟨_, congrArg (Option.map _) hloop, iff_of_true ?_ hkeeps⟩
    refine consistent_of_eq ?_ rfl fun i => textOf_setChildren b _ root i
    rw [Buffer.children_update]
    split <;> rfl
  · obtain ⟨-, hcount, hall⟩ := (not_or.mp hkeeps).imp_right not_or.mp
    have hnot : ∃ i ∈ (b.children root).dropLast, b.running i = false := by
      by_contra hnone
      refine hall fun i hi => ?_
      by_contra hfalse
      exact hnone ⟨i, hi, Bool.eq_false_of_not_eq_true hfalse⟩
    rcases hlist : b.children root with _ | ⟨obj, rest⟩
    · rw [hlist] at hnot
      obtain ⟨i, hi, -⟩ := hnot
      cases hi
    rw [hlist] at hfollow hnot hcount
    have hnodup : (([] : List ℕ).reverse ++ obj :: rest).Nodup := hfollow.nodup
    obtain ⟨q, r, hspans, hpq, hqr, hrest⟩ := hfollow
    obtain ⟨r, hloop, hloses⟩ := truncateLoop_loses (Int.not_le.mp hcount) hnot hnodup hspans
      (by omega) (by omega) hrest
    refine ⟨_, congrArg (Option.map _) hloop, iff_of_false ?_ hkeeps⟩
    rw [← hlist] at hloses
    refine not_consistent_of_loses ?_ rfl (fun i => textOf_setChildren r.2 r.1 root i) hloses
    have hlt : root < r.2.sections.length := by
      rw [← r.2.length_bones, (truncateLoop_truncated hloop).alike.bones, b.length_bones]
      by_contra hge
      rw [Buffer.children, List.getElem?_eq_none (Nat.not_lt.mp hge)] at hlist
      cases hlist
    rw [Buffer.children_update, if_pos ⟨rfl, hlt⟩]

/-- Three subprocesses, of which the first one has ended. -/
def threeStarted : Buffer :=
  (run ⟨id, none⟩ [.start none ['a'], .finish 1 0, .start none ['b'], .start none ['c']]
    created).getD created

theorem consistent_iff_threeStarted :
    ∃ b', magitProcessTruncateLog 3 threeStarted = some b' ∧
      (Consistent 0 threeStarted b' ↔ KeepsAll 3 threeStarted 0) :=
  consistent_iff (p := 1) rfl (by decide)
    ⟨_, _, ⟨_, _, rfl, rfl, rfl, rfl⟩, by decide, by decide,
      _, _, ⟨_, _, rfl, rfl, rfl, rfl⟩, by decide, by decide,
      _, _, ⟨_, _, rfl, rfl, rfl, rfl⟩, by decide, by decide, Nat.le_of_ble_eq_true rfl⟩

/-- The second section begins with `un b`. -/
theorem not_consistent_threeStarted :
    ∃ b', magitProcessTruncateLog 3 threeStarted = some b' ∧ ¬Consistent 0 threeStarted b' :=
  ⟨_, rfl, fun h => absurd (h.kept 2 (by decide)) (by decide)⟩

end

end Magit.ProcessLog
