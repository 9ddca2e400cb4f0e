import Mathlib.Data.List.Basic

/-!
# Emacs/Display — what a buffer hides

The overlays with the property `invisible`, and the characters with the text property of that name.
`Redrawn` says what a command did that worked on one region only: there the cover is the one it
names, and what stands before and behind the region is covered as it was, however much longer or
shorter the region has become.  Such commands compose one after the other (`Redrawn.trans`) and
side by side (`Redrawn.append`).
-/

namespace Emacs

/-- The regions of the invisible overlays, and the positions of the invisible characters. -/
structure Display where
  overlays : List (ℕ × ℕ)
  properties : List ℕ

namespace Display

/-- An invisible overlay covers the position. -/
def Covered (d : Display) (p : ℕ) : Prop := ∃ o ∈ d.overlays, o.1 ≤ p ∧ p < o.2

/-- The character at a position is not shown. -/
def Invisible (d : Display) (p : ℕ) : Prop := d.Covered p ∨ p ∈ d.properties

instance (d : Display) (p : ℕ) : Decidable (d.Covered p) :=
  inferInstanceAs (Decidable (∃ o ∈ d.overlays, o.1 ≤ p ∧ p < o.2))

instance (d : Display) (p : ℕ) : Decidable (d.Invisible p) :=
  inferInstanceAs (Decidable (d.Covered p ∨ p ∈ d.properties))

/-- What is left of an overlay that the region is taken from. -/
def cut (beg fin : ℕ) (o : ℕ × ℕ) : List (ℕ × ℕ) :=
  if o.1 < fin ∧ beg < o.2 then
    if o.1 < beg then
      if fin < o.2 then [(o.1, beg), (fin, o.2)] else [(o.1, beg)]
    else if fin < o.2 then [(fin, o.2)] else []
  else [o]

/-- `remove-overlays`: overlays are split, moved or deleted to leave the region. -/
def removeOverlays (d : Display) (beg fin : ℕ) : Display :=
  { d with overlays := d.overlays.flatMap (cut beg fin) }

/-- `make-overlay`, with the property `evaporate`: an empty one is gone at once. -/
def makeOverlay (d : Display) (beg fin : ℕ) : Display :=
  if beg < fin then { d with overlays := (beg, fin) :: d.overlays } else d

/-- Where an insertion moves a marker of the normal kind, which stays in front of the new text. -/
def behindInsertion (pos n p : ℕ) : ℕ := if pos < p then p + n else p

/-- `insert`: an overlay grows if the text comes to stand at its beginning or inside of it. -/
def insertText (d : Display) (pos n : ℕ) : Display where
  overlays := d.overlays.map fun o => (behindInsertion pos n o.1, behindInsertion pos n o.2)
  properties := d.properties.map fun p => if pos ≤ p then p + n else p

/-- `put-text-property` on the characters at the positions. -/
def putInvisible (d : Display) (positions : List ℕ) : Display :=
  { d with properties := positions ++ d.properties }

/-! ## What is covered behind each of them -/

/-- Removing overlays uncovers the region. -/
theorem covered_removeOverlays (d : Display) (beg fin p : ℕ) :
    (d.removeOverlays beg fin).Covered p ↔ d.Covered p ∧ ¬(beg ≤ p ∧ p < fin) := by
  have hcut : ∀ o : ℕ × ℕ, (∃ o' ∈ cut beg fin o, o'.1 ≤ p ∧ p < o'.2)
      ↔ (o.1 ≤ p ∧ p < o.2) ∧ ¬(beg ≤ p ∧ p < fin) := by
    intro o
    unfold cut
    split_ifs <;> simp <;> omega
  simp only [Covered, removeOverlays, List.mem_flatMap]
  constructor
  · rintro ⟨o', ⟨o, ho, ho'⟩, hp⟩
    obtain ⟨hcovered, hout⟩ := (hcut o).mp ⟨o', ho', hp⟩
    exact ⟨⟨o, ho, hcovered⟩, hout⟩
  · rintro ⟨⟨o, ho, hcovered⟩, hout⟩
    obtain ⟨o', ho', hp⟩ := (hcut o).mpr ⟨hcovered, hout⟩
    exact ⟨o', ⟨o, ho, ho'⟩, hp⟩

/-- An overlay covers the region. -/
theorem covered_makeOverlay (d : Display) (beg fin p : ℕ) :
    (d.makeOverlay beg fin).Covered p ↔ d.Covered p ∨ (beg ≤ p ∧ p < fin) := by
  unfold makeOverlay
  split_ifs with h
  · simp only [Covered, List.mem_cons, exists_eq_or_imp]
    exact or_comm
  · exact (or_iff_left (by omega)).symm

/-- Inserted text is covered if what follows it was. -/
theorem covered_insertText (d : Display) (pos n p : ℕ) :
    (d.insertText pos n).Covered p
      ↔ d.Covered (if p < pos then p else if p < pos + n then pos else p - n) := by
  have hmoved : ∀ o : ℕ × ℕ, (behindInsertion pos n o.1 ≤ p ∧ p < behindInsertion pos n o.2)
      ↔ (o.1 ≤ if p < pos then p else if p < pos + n then pos else p - n)
        ∧ (if p < pos then p else if p < pos + n then pos else p - n) < o.2 := by
    intro o
    unfold behindInsertion
    split_ifs <;> omega
  simp only [Covered, insertText, List.mem_map]
  constructor
  · rintro ⟨_, ⟨o, ho, rfl⟩, hp⟩
    exact ⟨o, ho, (hmoved o).mp hp⟩
  · rintro ⟨o, ho, hp⟩
    exact ⟨_, ⟨o, ho, rfl⟩, (hmoved o).mpr hp⟩

@[simp]
theorem covered_putInvisible (d : Display) (positions : List ℕ) (p : ℕ) :
    (d.putInvisible positions).Covered p ↔ d.Covered p := Iff.rfl

/-! ## One region redrawn -/

/-- `P` on the first `n` positions and `Q` behind them. -/
def splice (n : ℕ) (P Q : ℕ → Prop) (p : ℕ) : Prop := if p < n then P p else Q (p - n)

theorem splice_of_lt {n p : ℕ} (h : p < n) (P Q : ℕ → Prop) : splice n P Q p ↔ P p := by
  rw [splice, if_pos h]

@[simp]
theorem splice_add (n p : ℕ) (P Q : ℕ → Prop) : splice n P Q (n + p) ↔ Q p := by
  rw [splice, if_neg (by omega), Nat.add_sub_cancel_left]

theorem splice_assoc (n m : ℕ) (P Q R : ℕ → Prop) :
    splice n P (splice m Q R) = splice (n + m) (splice n P Q) R := by
  ext p
  rcases Nat.lt_or_ge p n with hlt | hge
  · rw [splice_of_lt hlt, splice_of_lt (by omega), splice_of_lt hlt]
  · obtain ⟨q, rfl⟩ := Nat.exists_eq_add_of_le hge
    rw [splice_add]
    rcases Nat.lt_or_ge q m with hlt | hge
    · rw [splice_of_lt hlt, splice_of_lt (by omega), splice_add]
    · obtain ⟨r, rfl⟩ := Nat.exists_eq_add_of_le hge
      rw [splice_add, ← Nat.add_assoc, splice_add]

theorem splice_imp {n p : ℕ} {P P' Q Q' : ℕ → Prop} (hP : ∀ p, P p → P' p) (hQ : ∀ p, Q p → Q' p)
    (h : splice n P Q p) : splice n P' Q' p := by
  unfold splice at h ⊢
  split_ifs at h ⊢
  · exact hP p h
  · exact hQ _ h

/-- The position is at an offset from `beg` that `P` names. -/
def At (beg : ℕ) (P : ℕ → Prop) (p : ℕ) : Prop := ∃ q, p = beg + q ∧ P q

@[simp]
theorem at_add (beg q : ℕ) (P : ℕ → Prop) : At beg P (beg + q) ↔ P q := by
  constructor
  · rintro ⟨r, hr, hP⟩
    rwa [Nat.add_left_cancel hr]
  · exact fun hP => ⟨q, rfl, hP⟩

/-- What is spliced stands at its place, and the rest behind it. -/
theorem at_splice (beg n p : ℕ) (P Q : ℕ → Prop) :
    At beg (splice n P Q) p ↔ At beg (fun q => q < n ∧ P q) p ∨ At (beg + n) Q p := by
  constructor
  · rintro ⟨q, rfl, hq⟩
    rcases Nat.lt_or_ge q n with hlt | hge
    · exact .inl ⟨q, rfl, hlt, (splice_of_lt hlt P Q).mp hq⟩
    · obtain ⟨r, rfl⟩ := Nat.exists_eq_add_of_le hge
      exact .inr ⟨r, (Nat.add_assoc beg n r).symm, (splice_add n r P Q).mp hq⟩
  · rintro (⟨q, rfl, hlt, hq⟩ | ⟨q, rfl, hq⟩)
    · exact ⟨q, rfl, (splice_of_lt hlt P Q).mpr hq⟩
    · exact ⟨n + q, Nat.add_assoc beg n q, (splice_add n q P Q).mpr hq⟩

theorem at_behind (beg n p : ℕ) (Q : ℕ → Prop) :
    At beg (splice n (fun _ => False) Q) p ↔ At (beg + n) Q p := by
  rw [at_splice]
  exact or_iff_right fun ⟨_, _, _, h⟩ => h

/-- From `beg` to the end of `len` positions, only what `cover` names is covered. -/
def AtMost (beg len : ℕ) (cover : ℕ → Prop) (d : Display) : Prop :=
  ∀ p ≤ len, d.Covered (beg + p) → cover p

/-- From `beg` to the end of `len` positions, what is covered is what `cover` names. -/
def Exactly (beg len : ℕ) (cover : ℕ → Prop) (d : Display) : Prop :=
  ∀ p ≤ len, (d.Covered (beg + p) ↔ cover p)

theorem Exactly.atMost {beg len : ℕ} {cover cover' : ℕ → Prop} {d : Display}
    (h : Exactly beg len cover d) (hcover : ∀ p, cover p → cover' p) : AtMost beg len cover' d :=
  fun p hp hcovered => hcover p ((h p hp).mp hcovered)

theorem AtMost.of_covered {beg len : ℕ} {cover : ℕ → Prop} {d d' : Display}
    (h : AtMost beg len cover d) (hcovered : ∀ p, d'.Covered p ↔ d.Covered p) :
    AtMost beg len cover d' := fun p hp hp' => h p hp ((hcovered _).mp hp')

/-- What covers at most two pieces covers at most each. -/
theorem atMost_splice {beg n m : ℕ} {P Q : ℕ → Prop} {d : Display}
    (h : AtMost beg (n + m) (splice n P Q) d) :
    (∀ p < n, d.Covered (beg + p) → P p) ∧ AtMost (beg + n) m Q d := by
  refine ⟨fun p hp hcovered => ?_, fun p hp hcovered => ?_⟩
  · exact (splice_of_lt hp P Q).mp (h p (by omega) hcovered)
  · rw [Nat.add_assoc] at hcovered
    exact (splice_add n p P Q).mp (h (n + p) (by omega) hcovered)

/-- What covers two pieces exactly covers each exactly. -/
theorem exactly_splice {beg n m : ℕ} {P Q : ℕ → Prop} {d : Display}
    (h : Exactly beg (n + m) (splice n P Q) d) :
    (∀ p < n, (d.Covered (beg + p) ↔ P p)) ∧ Exactly (beg + n) m Q d := by
  refine ⟨fun p hp => ?_, fun p hp => ?_⟩
  · exact (h p (by omega)).trans (splice_of_lt hp P Q)
  · rw [Nat.add_assoc]
    exact (h (n + p) (by omega)).trans (splice_add n p P Q)

/-- The `len` positions from `beg` on became `len'` ones, which are covered as `cover` says. -/
structure Redrawn (beg len len' : ℕ) (cover : ℕ → Prop) (d d' : Display) : Prop where
  before : ∀ p < beg, (d'.Covered p ↔ d.Covered p)
  within : ∀ p < len', (d'.Covered (beg + p) ↔ cover p)
  behind : ∀ p, d'.Covered (beg + len' + p) ↔ d.Covered (beg + len + p)

namespace Redrawn

variable {beg len len' : ℕ} {cover : ℕ → Prop} {d d' : Display}

theorem of_agree (h : ∀ p < len, (d.Covered (beg + p) ↔ cover p)) :
    Redrawn beg len len cover d d := ⟨fun _ _ => Iff.rfl, h, fun _ => Iff.rfl⟩

/-- Drawing twice is drawing once, the second time. -/
theorem trans {len'' : ℕ} {cover' : ℕ → Prop} {d'' : Display}
    (h : Redrawn beg len len' cover d d') (h' : Redrawn beg len' len'' cover' d' d'') :
    Redrawn beg len len'' cover' d d'' where
  before p hp := (h'.before p hp).trans (h.before p hp)
  within := h'.within
  behind p := (h'.behind p).trans (h.behind p)

/-- Two regions side by side, the first one redrawn first. -/
theorem append {m m' : ℕ} {cover' : ℕ → Prop} {d'' : Display}
    (h : Redrawn beg len len' cover d d') (h' : Redrawn (beg + len') m m' cover' d' d'') :
    Redrawn beg (len + m) (len' + m') (splice len' cover cover') d d'' where
  before p hp := (h'.before p (by omega)).trans (h.before p hp)
  within p hp := by
    rcases Nat.lt_or_ge p len' with hlt | hge
    · rw [splice_of_lt hlt, h'.before _ (by omega), h.within p hlt]
    · obtain ⟨q, rfl⟩ := Nat.exists_eq_add_of_le hge
      rw [splice_add, ← Nat.add_assoc, h'.within q (by omega)]
  behind p := by
    have hbehind := h.behind (m + p)
    rw [← Nat.add_assoc, ← Nat.add_assoc] at hbehind
    rw [← Nat.add_assoc, ← Nat.add_assoc, h'.behind, hbehind]

theorem congr {cover' : ℕ → Prop} (h : Redrawn beg len len' cover d d')
    (hcover : ∀ p < len', (cover p ↔ cover' p)) : Redrawn beg len len' cover' d d' :=
  { h with within := fun p hp => (h.within p hp).trans (hcover p hp) }

/-- What was covered before may be said in other words. -/
theorem of_covered {d₀ : Display} (h : Redrawn beg len len' cover d d')
    (hcovered : ∀ p, d.Covered p ↔ d₀.Covered p) : Redrawn beg len len' cover d₀ d' where
  before p hp := (h.before p hp).trans (hcovered p)
  within := h.within
  behind p := (h.behind p).trans (hcovered _)

theorem atMost_behind {m : ℕ} {P : ℕ → Prop} (h : Redrawn beg len len' cover d d')
    (hbehind : AtMost (beg + len) m P d) : AtMost (beg + len') m P d' :=
  fun p hp hcovered => hbehind p hp ((h.behind p).mp hcovered)

/-- In a region that is shown as a whole, and where what follows is not covered, nothing is. -/
theorem atMost_of_shown {P : ℕ → Prop} (h : Redrawn beg len len' (fun _ => False) d d')
    (hbehind : ¬d.Covered (beg + len)) : AtMost beg len' P d' := by
  intro p hp hcovered
  rcases Nat.lt_or_ge p len' with hlt | hge
  · exact absurd hcovered ((h.within p hlt).not.mpr id)
  · rw [Nat.le_antisymm hp hge] at hcovered
    exact absurd ((h.behind 0).mp hcovered) hbehind

/-- What is redrawn to the cover it had is covered as it was. -/
theorem covered_iff (h : Redrawn beg len len cover d d')
    (hcover : ∀ p < len, (d.Covered (beg + p) ↔ cover p)) (p : ℕ) :
    d'.Covered p ↔ d.Covered p := by
  rcases Nat.lt_or_ge p beg with hlt | hge
  · exact h.before p hlt
  obtain ⟨q, rfl⟩ := Nat.exists_eq_add_of_le hge
  rcases Nat.lt_or_ge q len with hlt | hge
  · rw [h.within q hlt, hcover q hlt]
  · obtain ⟨r, rfl⟩ := Nat.exists_eq_add_of_le hge
    rw [← Nat.add_assoc, h.behind r]

end Redrawn

/-- Whatever changed is at an offset from `beg` that `P` names. -/
def ChangedIn (beg : ℕ) (P : ℕ → Prop) (d d' : Display) : Prop :=
  ∀ p, (d'.Covered p ↔ d.Covered p) ∨ At beg P p

namespace ChangedIn

variable {beg : ℕ} {P Q : ℕ → Prop} {d d' d'' : Display}

theorem of_covered (h : ∀ p, d'.Covered p ↔ d.Covered p) : ChangedIn beg P d d' :=
  fun p => .inl (h p)

theorem refl (d : Display) : ChangedIn beg P d d := of_covered fun _ => Iff.rfl

theorem trans (h : ChangedIn beg P d d') (h' : ChangedIn beg P d' d'') : ChangedIn beg P d d'' := by
  intro p
  rcases h p with hsame | hin
  · exact (h' p).imp_left fun hsame' => hsame'.trans hsame
  · exact .inr hin

theorem mono (h : ChangedIn beg P d d') (hPQ : ∀ p, P p → Q p) : ChangedIn beg Q d d' :=
  fun p => (h p).imp_right fun ⟨q, hq, hP⟩ => ⟨q, hq, hPQ q hP⟩

/-- Behind the first `n` positions. -/
theorem behind {n : ℕ} (h : ChangedIn (beg + n) Q d d') : ChangedIn beg (splice n P Q) d d' :=
  fun p => (h p).imp_right fun hat => (at_splice beg n p P Q).mpr (.inr hat)

/-- Within the first `n` positions. -/
theorem within {n : ℕ} {P' : ℕ → Prop} (h : ChangedIn beg P' d d') (hlt : ∀ p, P' p → p < n)
    (hP : ∀ p, P' p → P p) : ChangedIn beg (splice n P Q) d d' :=
  h.mono fun p hp => (splice_of_lt (hlt p hp) P Q).mpr (hP p hp)

/-- A change within what may be covered keeps to it. -/
theorem atMost {len : ℕ} (h : ChangedIn beg P d d') (hd : AtMost beg len P d) :
    AtMost beg len P d' := by
  intro p hp hcovered
  rcases h (beg + p) with hsame | ⟨q, hq, hP⟩
  · exact hd p hp (hsame.mp hcovered)
  · rwa [Nat.add_left_cancel hq]

/-- A region that is redrawn afterwards. -/
theorem redrawn {len len' : ℕ} {cover : ℕ → Prop} (h : ChangedIn beg P d d')
    (hP : ∀ p, P p → p < len) (h' : Redrawn beg len len' cover d' d'') :
    Redrawn beg len len' cover d d'' where
  before p hp := by
    rcases h p with hsame | ⟨q, rfl, -⟩
    · exact (h'.before p hp).trans hsame
    · omega
  within := h'.within
  behind p := by
    rcases h (beg + len + p) with hsame | ⟨q, hq, hq'⟩
    · exact (h'.behind p).trans hsame
    · have := hP q hq'
      omega

end ChangedIn

theorem redrawn_removeOverlays (d : Display) (beg len : ℕ) :
    Redrawn beg len len (fun _ => False) d (d.removeOverlays beg (beg + len)) := by
  constructor <;> intro p <;>
    simp only [covered_removeOverlays] <;> grind

theorem redrawn_makeOverlay (d : Display) (beg len : ℕ) :
    Redrawn beg len len (fun _ => True) d (d.makeOverlay beg (beg + len)) := by
  constructor <;> intro p <;> simp only [covered_makeOverlay] <;> grind

/-- Text inserted where nothing is covered. -/
theorem redrawn_insertText {d : Display} {pos : ℕ} (h : ¬d.Covered pos) (n : ℕ) :
    Redrawn pos 0 n (fun _ => False) d (d.insertText pos n) := by
  constructor <;> intro p <;> simp only [covered_insertText] <;> grind

/-- Hiding a region covers it, and nothing else. -/
theorem covered_hide (d : Display) (beg len p : ℕ) :
    ((d.removeOverlays beg (beg + len)).makeOverlay beg (beg + len)).Covered p
      ↔ d.Covered p ∨ At beg (· < len) p := by
  rw [covered_makeOverlay, covered_removeOverlays]
  constructor
  · rintro (⟨hcovered, -⟩ | hin)
    · exact .inl hcovered
    · exact .inr ⟨p - beg, by omega, by omega⟩
  · rintro (hcovered | ⟨q, rfl, hq⟩)
    · by_cases hin : beg ≤ p ∧ p < beg + len
      · exact .inr hin
      · exact .inl ⟨hcovered, hin⟩
    · exact .inr (by omega)

end Display

end Emacs
