import Mathlib.Data.List.Basic

/-!
# Emacs/AssocCache — a cache in an association list

A call with a key returns the value kept under it, and otherwise runs its body and keeps what that
returns; a body that signals leaves nothing behind.  Calls with one key may have different bodies,
and then it matters which of them ran first: a run returns what it would without the cache exactly
if every call returns what an earlier one with its key kept (`run_empty_eq_map_iff`).
-/

namespace Emacs

/-- A cache with its counts of hits and misses. -/
structure AssocCache (κ β : Type*) where
  hits : ℕ
  misses : ℕ
  entries : List (κ × β)

namespace AssocCache

variable {κ β ε α : Type*} [DecidableEq κ]

/-- Nothing is cached. -/
def empty : AssocCache κ β := ⟨0, 0, []⟩

/-- A call: the entry under its key, or what its body returns, which is kept unless it signals. -/
def call (cache : AssocCache κ β) (key : κ) (body : Except ε β) : Except ε β × AssocCache κ β :=
  match cache.entries.lookup key with
  | some hit => (.ok hit, { cache with hits := cache.hits + 1 })
  | none =>
    let cache := { cache with misses := cache.misses + 1 }
    match body with
    | .ok value => (.ok value, { cache with entries := (key, value) :: cache.entries })
    | .error signal => (.error signal, cache)

/-- Calls one after the other. -/
def run (key : α → κ) (body : α → Except ε β) :
    AssocCache κ β → List α → List (Except ε β) × AssocCache κ β
  | cache, [] => ([], cache)
  | cache, a :: calls =>
    let (result, cache) := cache.call (key a) (body a)
    let (results, cache) := run key body cache calls
    (result :: results, cache)

/-- What is cached is returned, and the cache stays as it is. -/
theorem call_of_hit {cache : AssocCache κ β} {key : κ} {hit : β}
    (h : cache.entries.lookup key = some hit) (body : Except ε β) :
    (cache.call key body).1 = .ok hit ∧ (cache.call key body).2.entries = cache.entries := by
  rw [call, h]
  exact ⟨rfl, rfl⟩

/-- What is not cached is evaluated, and cached if it does not fail. -/
theorem call_of_miss {cache : AssocCache κ β} {key : κ} (h : cache.entries.lookup key = none)
    (body : Except ε β) :
    (cache.call key body).1 = body
      ∧ (cache.call key body).2.entries
        = (body.toOption.map fun value => (key, value)).toList ++ cache.entries := by
  rw [call, h]
  cases body with
  | error signal => exact ⟨rfl, rfl⟩
  | ok value => exact ⟨rfl, rfl⟩

section

variable (key : α → κ) (body : α → Except ε β)

/-- What an earlier call keeps is what a later one with its key returns. -/
def Shares (a b : α) : Prop := key a = key b → ∀ value, body a = .ok value → body b = .ok value

/-- The entries are what the calls return. -/
def Right (entries : List (κ × β)) (b : α) : Prop :=
  ∀ value, entries.lookup (key b) = some value → body b = .ok value

variable {key body}

/-- An entry that is right for one call is shared by it. -/
theorem shares_of_hit {entries : List (κ × β)} {a b : α} {hit : β}
    (hhit : entries.lookup (key a) = some hit) (ha : body a = .ok hit)
    (hb : Right key body entries b) : Shares key body a b := by
  intro hkey value hvalue
  rw [ha, Except.ok.injEq] at hvalue
  exact hb value (by rw [← hkey, hhit, hvalue])

/-- Behind a miss the entries are right if they were and the call shares what it keeps. -/
theorem right_of_miss_iff {entries : List (κ × β)} {a b : α}
    (hmiss : entries.lookup (key a) = none) :
    Right key body (((body a).toOption.map fun value => (key a, value)).toList ++ entries) b
      ↔ Right key body entries b ∧ Shares key body a b := by
  rcases ha : body a with signal | value
  · have hshares : Shares key body a b := fun _ value hvalue => by simp [ha] at hvalue
    exact ⟨fun h => ⟨h, hshares⟩, fun h => h.1⟩
  · have hlookup : ((key a, value) :: entries).lookup (key b)
        = if key b = key a then some value else entries.lookup (key b) := by
      rw [List.lookup_cons]
      by_cases hkey : key b = key a
      · rw [if_pos hkey, hkey, beq_self_eq_true]
      · rw [if_neg hkey, beq_eq_false_iff_ne.mpr hkey]
    change (∀ v, ((key a, value) :: entries).lookup (key b) = some v → body b = .ok v) ↔ _
    rw [hlookup]
    by_cases hkey : key b = key a
    · rw [if_pos hkey]
      constructor
      · intro h
        refine ⟨fun v hv => ?_, fun _ v hv => ?_⟩
        · rw [hkey, hmiss] at hv
          simp at hv
        · rw [ha, Except.ok.injEq] at hv
          rw [← hv, h value rfl]
      · rintro ⟨-, hshares⟩ v hv
        rw [← Option.some.inj hv]
        exact hshares hkey.symm value ha
    · rw [if_neg hkey]
      exact ⟨fun h => ⟨h, fun hab => absurd hab.symm hkey⟩, fun h => h.1⟩

/-- **A run returns what the bodies do** if and only if the entries it begins with are right, and
every call shares what it keeps with the later ones of its key. -/
theorem run_eq_map_iff_of_entries (cache : AssocCache κ β) (calls : List α) :
    (cache.run key body calls).1 = calls.map body
      ↔ (∀ b ∈ calls, Right key body cache.entries b) ∧ calls.Pairwise (Shares key body) := by
  induction calls generalizing cache with
  | nil => simp [run]
  | cons a calls ih =>
    have hrun : (cache.run key body (a :: calls)).1
        = (cache.call (key a) (body a)).1
          :: ((cache.call (key a) (body a)).2.run key body calls).1 := rfl
    rw [hrun, List.map_cons, List.cons.injEq, ih, List.pairwise_cons, List.forall_mem_cons]
    rcases hentry : cache.entries.lookup (key a) with _ | hit
    · obtain ⟨hresult, hentries⟩ := call_of_miss hentry (body a)
      have ha : Right key body cache.entries a := fun value h => by simp [hentry] at h
      rw [hresult, hentries]
      simp only [right_of_miss_iff hentry, forall₂_and, ha, true_and, and_assoc]
    · obtain ⟨hresult, hentries⟩ := call_of_hit hentry (body a)
      rw [hresult, hentries]
      constructor
      · rintro ⟨hhit, hright, hcalls⟩
        refine ⟨⟨fun value h => ?_, hright⟩, fun b hb => ?_, hcalls⟩
        · rw [← hhit, ← Option.some.inj (hentry.symm.trans h)]
        · exact shares_of_hit hentry hhit.symm (hright b hb)
      · rintro ⟨⟨ha, hright⟩, -, hcalls⟩
        exact ⟨(ha hit hentry).symm, hright, hcalls⟩

/-- **Starting from an empty cache** the calls return what they evaluate to exactly if any two with
the same key share it. -/
theorem run_empty_eq_map_iff (calls : List α) :
    ((empty : AssocCache κ β).run key body calls).1 = calls.map body
      ↔ calls.Pairwise (Shares key body) := by
  rw [run_eq_map_iff_of_entries]
  exact and_iff_right fun b _ value h => by simp [empty] at h

end

end AssocCache

end Emacs
