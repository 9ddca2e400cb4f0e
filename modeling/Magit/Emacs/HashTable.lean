import Mathlib.Data.List.Dedup
import Mathlib.Data.List.Induction
import Mathlib.Tactic.Common

/-!
# Emacs/HashTable — values collected under keys

A table is kept as its entries, in the order in which the keys were put into it, which is the order
of `maphash`.  Collecting an alist leaves under each of its keys the values it has there, the last
one first (`gethash_collect`).
-/

namespace Emacs

variable {κ α : Type*} [DecidableEq κ]

/-- `(gethash key table)`, of a table of lists. -/
def gethash (key : κ) : List (κ × List α) → List α
  | [] => []
  | (k, v) :: table => if k = key then v else gethash key table

/-- `(puthash key v table)` -/
def puthash (key : κ) (v : List α) : List (κ × List α) → List (κ × List α)
  | [] => [(key, v)]
  | (k, v') :: table => if k = key then (k, v) :: table else (k, v') :: puthash key v table

/-- Every value of an alist, put in front of those under its key. -/
def collect (alist : List (κ × α)) : List (κ × List α) :=
  alist.foldl (fun table a => puthash a.1 (a.2 :: gethash a.1 table) table) []

/-- `(delete-dups list)`, which keeps the first of equal elements. -/
def deleteDups [DecidableEq α] (l : List α) : List α := l.reverse.dedup.reverse

theorem nodup_deleteDups [DecidableEq α] (l : List α) : (deleteDups l).Nodup :=
  List.nodup_reverse.mpr (List.nodup_dedup _)

@[simp] theorem mem_deleteDups [DecidableEq α] {a : α} {l : List α} : a ∈ deleteDups l ↔ a ∈ l := by
  rw [deleteDups, List.mem_reverse, List.mem_dedup, List.mem_reverse]

/-- The value that was put is found, and the others as before. -/
theorem gethash_puthash (key key' : κ) (v : List α) (table : List (κ × List α)) :
    gethash key' (puthash key v table) = if key = key' then v else gethash key' table := by
  induction table with
  | nil => rfl
  | cons entry table ih =>
    obtain ⟨k, v'⟩ := entry
    rw [puthash]
    by_cases hk : k = key
    · rw [if_pos hk, gethash, gethash, hk]
      split <;> rfl
    · rw [if_neg hk, gethash, gethash, ih]
      by_cases hk' : k = key'
      · rw [if_pos hk', if_pos hk', if_neg fun h => hk (hk'.trans h.symm)]
      · rw [if_neg hk', if_neg hk']

/-- A new key comes last, a known one keeps its place. -/
theorem keys_puthash (key : κ) (v : List α) (table : List (κ × List α)) :
    (puthash key v table).map Prod.fst =
      if key ∈ table.map Prod.fst then table.map Prod.fst else table.map Prod.fst ++ [key] := by
  induction table with
  | nil => rfl
  | cons entry table ih =>
    obtain ⟨k, v'⟩ := entry
    rw [puthash]
    by_cases hk : k = key
    · rw [if_pos hk, List.map_cons, List.map_cons, if_pos (hk ▸ List.mem_cons_self)]
    · rw [if_neg hk, List.map_cons, ih, List.map_cons]
      by_cases hmem : key ∈ table.map Prod.fst
      · rw [if_pos hmem, if_pos (List.mem_cons_of_mem _ hmem)]
      · have hmem' : key ∉ k :: table.map Prod.fst := by
          intro h
          rcases List.mem_cons.mp h with h | h
          · exact hk h.symm
          · exact hmem h
        rw [if_neg hmem, if_neg hmem', List.cons_append]

theorem mem_keys_puthash (key key' : κ) (v : List α) (table : List (κ × List α)) :
    key' ∈ (puthash key v table).map Prod.fst ↔ key' = key ∨ key' ∈ table.map Prod.fst := by
  rw [keys_puthash]
  split
  next h =>
    refine (or_iff_right_of_imp ?_).symm
    rintro rfl
    exact h
  · rw [List.mem_append, List.mem_singleton, or_comm]

/-- No key gets into the table twice. -/
theorem nodup_keys_puthash {table : List (κ × List α)} (h : (table.map Prod.fst).Nodup) (key : κ)
    (v : List α) : ((puthash key v table).map Prod.fst).Nodup := by
  rw [keys_puthash]
  split
  · exact h
  next hnot => exact List.nodup_append_comm.mp (List.nodup_cons.mpr ⟨hnot, h⟩)

/-- An entry of the table is found. -/
theorem gethash_of_mem {table : List (κ × List α)} (hnodup : (table.map Prod.fst).Nodup)
    {key : κ} {v : List α} (h : (key, v) ∈ table) : gethash key table = v := by
  induction table with
  | nil => exact absurd h List.not_mem_nil
  | cons entry table ih =>
    obtain ⟨k, v'⟩ := entry
    obtain ⟨hnot, hrest⟩ := List.nodup_cons.mp hnodup
    rw [gethash]
    rcases List.mem_cons.mp h with heq | hmem
    · obtain ⟨rfl, rfl⟩ := Prod.mk.inj heq
      exact if_pos rfl
    · have hk : k ≠ key := by
        rintro rfl
        exact hnot (List.mem_map.mpr ⟨_, hmem, rfl⟩)
      rw [if_neg hk, ih hrest hmem]

/-! ## Collecting -/

theorem collect_concat (alist : List (κ × α)) (a : κ × α) : collect (alist ++ [a])
    = puthash a.1 (a.2 :: gethash a.1 (collect alist)) (collect alist) := by
  rw [collect, List.foldl_append]
  rfl

/-- The values under a key. -/
def valuesOf (key : κ) (alist : List (κ × α)) : List α :=
  (alist.filter fun a => a.1 = key).map Prod.snd

/-- The values of a key are those of its entries. -/
theorem mem_valuesOf {key : κ} {alist : List (κ × α)} {a : α} :
    a ∈ valuesOf key alist ↔ (key, a) ∈ alist := by
  rw [valuesOf, List.mem_map]
  constructor
  · rintro ⟨entry, hentry, rfl⟩
    obtain ⟨hmem, hkey⟩ := List.mem_filter.mp hentry
    rwa [← of_decide_eq_true hkey]
  · intro h
    exact ⟨(key, a), List.mem_filter.mpr ⟨h, decide_eq_true rfl⟩, rfl⟩

theorem valuesOf_append (key : κ) (alist alist' : List (κ × α)) :
    valuesOf key (alist ++ alist') = valuesOf key alist ++ valuesOf key alist' := by
  rw [valuesOf, List.filter_append, List.map_append]
  rfl

theorem valuesOf_singleton (key : κ) (a : κ × α) :
    valuesOf key [a] = if a.1 = key then [a.2] else [] := by
  rw [valuesOf, List.filter_singleton]
  by_cases h : a.1 = key
  · simp [h]
  · simp [h]

/-- **What is collected for a key** are its values, the last one first. -/
theorem gethash_collect (key : κ) (alist : List (κ × α)) :
    gethash key (collect alist) = (valuesOf key alist).reverse := by
  induction alist using List.reverseRecOn with
  | nil => rfl
  | append_singleton alist a ih =>
    rw [collect_concat, gethash_puthash, valuesOf_append, valuesOf_singleton, List.reverse_append]
    by_cases hkey : a.1 = key
    · rw [if_pos hkey, if_pos hkey, hkey, ih]
      rfl
    · rw [if_neg hkey, if_neg hkey, ih]
      rfl

/-- No key is collected twice. -/
theorem nodup_keys_collect (alist : List (κ × α)) : ((collect alist).map Prod.fst).Nodup := by
  induction alist using List.reverseRecOn with
  | nil => exact List.nodup_nil
  | append_singleton alist a ih =>
    rw [collect_concat]
    exact nodup_keys_puthash ih _ _

/-- The keys that are collected are those of the entries. -/
theorem mem_keys_collect {key : κ} {alist : List (κ × α)} :
    key ∈ (collect alist).map Prod.fst ↔ key ∈ alist.map Prod.fst := by
  induction alist using List.reverseRecOn with
  | nil => exact Iff.rfl
  | append_singleton alist a ih =>
    rw [collect_concat, mem_keys_puthash, ih, List.map_append, List.mem_append, List.map_singleton,
      List.mem_singleton, or_comm]

/-- An entry of the table has the values of the alist under its key. -/
theorem values_of_mem_collect {alist : List (κ × α)} {key : κ} {v : List α}
    (h : (key, v) ∈ collect alist) : v = (valuesOf key alist).reverse := by
  rw [← gethash_collect, gethash_of_mem (nodup_keys_collect alist) h]

end Emacs
