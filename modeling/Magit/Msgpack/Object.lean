import Mathlib.Algebra.Order.Ring.Int
import Mathlib.Data.List.Nodup
import Mathlib.Tactic.Common

/-!
# Msgpack/Object — msgpack objects and the items a packer writes

The msgpack libraries of both ends are not part of the repository.  What the code relies on is kept
here: the objects a decoder yields, the items the packer calls append to a buffer, and how a reader
puts a flat map of such items together again (`unpack`).  How an item is spelled in bytes stays
with the libraries.
-/

namespace Magit

/-- The characters of a C or a Lisp string. -/
abbrev Text := List Char

/-- A decoded object.  No function of the repository looks into the kinds under `other`. -/
inductive MsgpackObject
  | positiveInteger (u64 : UInt64)
  | negativeInteger (i64 : ℤ)
  | str (ptr : Text)
  | map (ptr : List (MsgpackObject × MsgpackObject))
  | other

namespace MsgpackObject

/-- Whether an object is the integer `k`. -/
def isNat (k : ℕ) : MsgpackObject → Bool
  | positiveInteger u => u.toNat == k
  | _ => false

@[simp] theorem isNat_positiveInteger (k : ℕ) (u : UInt64) :
    (positiveInteger u).isNat k = (u.toNat == k) := rfl

/-- `(cdr (assq k msg))` for a message decoded to an alist with integer keys. -/
def assq (k : ℕ) (msg : List (MsgpackObject × MsgpackObject)) : Option MsgpackObject :=
  (msg.find? fun entry => entry.1.isNat k).map Prod.snd

theorem assq_cons (k : ℕ) (entry : MsgpackObject × MsgpackObject)
    (msg : List (MsgpackObject × MsgpackObject)) :
    assq k (entry :: msg) = if entry.1.isNat k then some entry.2 else assq k msg := by
  unfold assq
  rw [List.find?_cons]
  split <;> simp_all

end MsgpackObject

/-- What the packer calls append: a map header, an integer, a string header, or a character of a
string body. -/
inductive WireItem
  | mapHeader (size : ℕ)
  | int (d : ℤ)
  | strHeader (l : ℕ)
  | body (c : Char)
  deriving DecidableEq, Repr

/-- The conversion of a `uint64_t` argument to an `int` parameter. -/
def toCInt (val : UInt64) : ℤ := (val.toNat : ℤ).bmod (2 ^ 32)

theorem toCInt_lt (val : UInt64) : toCInt val < 2 ^ 31 := by
  have hlt := @Int.bmod_lt val.toNat (2 ^ 32) (by omega)
  unfold toCInt
  omega

/-- **The conversion keeps exactly the values an `int` can hold.** -/
theorem toCInt_eq_toNat_iff {val : UInt64} : toCInt val = val.toNat ↔ val.toNat < 2 ^ 31 := by
  constructor
  · intro h
    have := toCInt_lt val
    omega
  · intro h
    exact Int.bmod_eq_of_le (by omega) (by omega)

/-- Two values are converted to the same `int` exactly when they agree in their lower 32 bits. -/
theorem toCInt_inj {a b : UInt64} :
    toCInt a = toCInt b ↔ a.toNat % 2 ^ 32 = b.toNat % 2 ^ 32 := by
  unfold toCInt
  rw [Int.bmod_def, Int.bmod_def]
  omega

/-- `msgpack_pack_map` -/
def msgpackPackMap (packer : List WireItem) (n : ℕ) : List WireItem := packer ++ [.mapHeader n]

/-- `msgpack_pack_int` -/
def msgpackPackInt (packer : List WireItem) (d : ℤ) : List WireItem := packer ++ [.int d]

/-- `msgpack_pack_str` -/
def msgpackPackStr (packer : List WireItem) (l : ℕ) : List WireItem := packer ++ [.strHeader l]

/-- `msgpack_pack_str_body` -/
def msgpackPackStrBody (packer : List WireItem) (b : Text) : List WireItem :=
  packer ++ b.map .body

namespace WireItem

/-- An integer item as an object. -/
def ofInt (d : ℤ) : MsgpackObject :=
  if 0 ≤ d then .positiveInteger (UInt64.ofNat d.toNat) else .negativeInteger d

/-- **An integer passed as an `int` is read back exactly when an `int` holds it.** -/
theorem ofInt_toCInt_eq_iff (val : UInt64) :
    ofInt (toCInt val) = .positiveInteger val ↔ val.toNat < 2 ^ 31 := by
  constructor
  · intro h
    by_cases h0 : 0 ≤ toCInt val
    · rw [ofInt, if_pos h0, MsgpackObject.positiveInteger.injEq, ← UInt64.toNat_inj,
        UInt64.toNat_ofNat'] at h
      have := toCInt_lt val
      omega
    · rw [ofInt, if_neg h0] at h
      exact absurd h (by simp)
  · intro h
    rw [toCInt_eq_toNat_iff.mpr h, ofInt, if_pos (Int.natCast_nonneg _), Int.toNat_natCast,
      UInt64.ofNat_toNat]

/-- Two integers passed as an `int` are read back as the same object exactly when they agree in
their lower 32 bits. -/
theorem ofInt_toCInt_inj {a b : UInt64} :
    ofInt (toCInt a) = ofInt (toCInt b) ↔ a.toNat % 2 ^ 32 = b.toNat % 2 ^ 32 := by
  rw [← toCInt_inj]
  refine ⟨fun h => ?_, congrArg ofInt⟩
  have ha := toCInt_lt a
  have hb := toCInt_lt b
  unfold ofInt at h
  split_ifs at h
  · rw [MsgpackObject.positiveInteger.injEq, ← UInt64.toNat_inj, UInt64.toNat_ofNat',
      UInt64.toNat_ofNat'] at h
    omega
  · exact MsgpackObject.negativeInteger.inj h

/-- The body of a string of known length. -/
def readBody : ℕ → List WireItem → Option (Text × List WireItem)
  | 0, items => some ([], items)
  | l + 1, body c :: items => (readBody l items).map fun r => (c :: r.1, r.2)
  | _ + 1, _ => none

/-- An integer or a string off the front of the items. -/
def readScalar : List WireItem → Option (MsgpackObject × List WireItem)
  | int d :: items => some (ofInt d, items)
  | strHeader l :: items => (readBody l items).map fun r => (.str r.1, r.2)
  | _ => none

/-- As many keys with their values as a map header announced. -/
def readPairs : ℕ → List WireItem → Option (List (MsgpackObject × MsgpackObject) × List WireItem)
  | 0, items => some ([], items)
  | n + 1, items => do
    let (key, items) ← readScalar items
    let (val, items) ← readScalar items
    let (pairs, items) ← readPairs n items
    return ((key, val) :: pairs, items)

/-- The object a buffer holds, if it holds one flat map and nothing more. -/
def unpack : List WireItem → Option MsgpackObject
  | mapHeader n :: items =>
    match readPairs n items with
    | some (pairs, []) => some (.map pairs)
    | _ => none
  | _ => none

/-- The bytes of a string are read back. -/
theorem readBody_map_body (t : Text) (items : List WireItem) :
    readBody t.length (t.map body ++ items) = some (t, items) := by
  induction t with
  | nil => rfl
  | cons c t ih => simp [readBody, ih]

/-- A scalar the way the packer writes it. -/
inductive Scalar
  | int (d : ℤ)
  | str (t : Text)

namespace Scalar

/-- A value as it is packed. -/
def items : Scalar → List WireItem
  | int d => [.int d]
  | str t => .strHeader t.length :: t.map .body

/-- A value as it is read. -/
def object : Scalar → MsgpackObject
  | int d => ofInt d
  | str t => .str t

/-- A scalar is read back. -/
theorem readScalar_items (s : Scalar) (rest : List WireItem) :
    readScalar (s.items ++ rest) = some (s.object, rest) := by
  cases s with
  | int d => rfl
  | str t => simp [items, readScalar, readBody_map_body, object]

end Scalar

/-- The items of a list of entries. -/
def entryItems (entries : List (ℤ × Scalar)) : List WireItem :=
  entries.flatMap fun e => .int e.1 :: e.2.items

/-- The entries of a map are read back. -/
theorem readPairs_entryItems (entries : List (ℤ × Scalar)) (rest : List WireItem) :
    readPairs entries.length (entryItems entries ++ rest)
      = some (entries.map fun e => (ofInt e.1, e.2.object), rest) := by
  induction entries with
  | nil => rfl
  | cons e entries ih =>
    have hkey : readScalar (entryItems (e :: entries) ++ rest)
        = some (ofInt e.1, e.2.items ++ (entryItems entries ++ rest)) := by
      simp [entryItems, readScalar]
    simp [readPairs, hkey, Scalar.readScalar_items, ih]

/-- **A map header announcing as many entries as follow is read back as those entries.** -/
theorem unpack_entryItems (entries : List (ℤ × Scalar)) :
    unpack (.mapHeader entries.length :: entryItems entries)
      = some (.map (entries.map fun e => (ofInt e.1, e.2.object))) := by
  have h := readPairs_entryItems entries []
  rw [List.append_nil] at h
  simp only [unpack, h]

end WireItem

end Magit
