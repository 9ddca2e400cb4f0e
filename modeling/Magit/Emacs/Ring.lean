import Mathlib.Algebra.Order.Ring.Int
import Mathlib.Data.List.Nodup

/-!
# Emacs/Ring — a ring

A ring has room for so many elements, and a new one takes the place of the oldest where there is no
more.  Indexes count from the newest element on and go around.
-/

namespace Emacs

/-- A ring of `ring.el`, its newest element first. -/
structure LispRing (α : Type*) where
  size : ℕ
  items : List α
  size_pos : 0 < size
  length_le : items.length ≤ size

namespace LispRing

variable {α : Type*} {r : LispRing α} {a b : α} {p : α → Prop}

/-- `make-ring` -/
def make (size : ℕ) (hsize : 0 < size) : LispRing α := ⟨size, [], hsize, Nat.zero_le _⟩

/-- `ring-length` -/
def length (r : LispRing α) : ℕ := r.items.length

/-- `ring-insert` -/
def insert (r : LispRing α) (a : α) : LispRing α where
  size := r.size
  items := (a :: r.items).take r.size
  size_pos := r.size_pos
  length_le := List.length_take_le _ _

/-- Where an index that goes around stands. -/
def slot (r : LispRing α) (i : ℤ) : ℕ := (i % r.length).toNat

/-- `ring-ref`, which signals in an empty ring. -/
def ref (r : LispRing α) (i : ℤ) : Option α := r.items[r.slot i]?

/-- `ring-remove` -/
def remove (r : LispRing α) (i : ℤ) : LispRing α where
  size := r.size
  items := r.items.eraseIdx (r.slot i)
  size_pos := r.size_pos
  length_le := (List.length_eraseIdx_le _ _).trans r.length_le

/-- `ring-member` -/
def member [BEq α] (r : LispRing α) (a : α) : Option ℕ := r.items.idxOf? a

theorem items_insert (r : LispRing α) (a : α) :
    (r.insert a).items = (a :: r.items).take r.size := rfl

theorem items_remove (r : LispRing α) (i : ℤ) :
    (r.remove i).items = r.items.eraseIdx (r.slot i) := rfl

theorem mem_insert_self (r : LispRing α) (a : α) : a ∈ (r.insert a).items := by
  obtain ⟨n, hn⟩ := Nat.exists_eq_succ_of_ne_zero r.size_pos.ne'
  rw [items_insert, hn, List.take_succ_cons]
  exact List.mem_cons_self

theorem eq_or_mem_of_mem_insert (h : b ∈ (r.insert a).items) : b = a ∨ b ∈ r.items :=
  List.mem_cons.mp (List.mem_of_mem_take h)

/-- What holds of the elements and of a new one holds of the elements afterwards. -/
theorem forall_insert (h : ∀ b ∈ r.items, p b) (ha : p a) : ∀ b ∈ (r.insert a).items, p b := by
  intro b hb
  rcases eq_or_mem_of_mem_insert hb with rfl | hb
  · exact ha
  · exact h b hb

theorem nodup_insert (h : r.items.Nodup) (ha : a ∉ r.items) : (r.insert a).items.Nodup :=
  (List.nodup_cons.mpr ⟨ha, h⟩).sublist (List.take_sublist _ _)

/-- Every index is taken within the ring. -/
theorem slot_lt (hlen : 0 < r.length) (i : ℤ) : r.slot i < r.length := by
  have hpos : (0 : ℤ) < r.length := Int.natCast_pos.mpr hlen
  have hlt := Int.emod_lt_of_pos i hpos
  have hnonneg := Int.emod_nonneg i hpos.ne'
  rw [slot]
  omega

/-- An index of a ring that is not empty finds an element. -/
theorem exists_ref (hlen : 0 < r.length) (i : ℤ) : ∃ a ∈ r.items, r.ref i = some a :=
  ⟨_, List.getElem_mem (slot_lt hlen i), List.getElem?_eq_getElem _⟩

/-- Going around changes nothing. -/
theorem ref_emod (r : LispRing α) (i : ℤ) : r.ref (i % r.length) = r.ref i := by
  rw [ref, ref, slot, slot, Int.emod_emod]

section

variable [BEq α] [LawfulBEq α]

theorem member_eq_none_iff : r.member a = none ↔ a ∉ r.items := List.idxOf?_eq_none_iff

/-- The element that `ring-member` finds is the one that goes. -/
theorem items_remove_member {i : ℕ} (h : r.member a = some i) :
    (r.remove i).items = r.items.erase a := by
  have hidx : r.items.idxOf a = i := by
    rw [List.idxOf_eq_getD_idxOf?]
    exact congrArg (·.getD r.length) h
  obtain ⟨hlt, -⟩ : ∃ h : i < r.length, _ := List.idxOf?_eq_some_iff.mp h
  have hslot : r.slot i = i := by
    rw [slot, Int.emod_eq_of_lt (Int.natCast_nonneg i) (Int.ofNat_lt.mpr hlt), Int.toNat_natCast]
  rw [items_remove, hslot, ← hidx]
  exact List.eraseIdx_idxOf_eq_erase a r.items

end

end LispRing

end Emacs
