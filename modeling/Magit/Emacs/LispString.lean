import Mathlib.Algebra.Order.Ring.Nat
import Mathlib.Data.List.Basic

/-!
# Emacs/LispString — unibyte and multibyte strings

A Lisp string holds bytes or characters.  Joined with characters, a byte of 128 or more becomes the
character of that raw byte; `string-as-unibyte` turns such a character back into its byte and every
other one into the bytes it is represented by, which from 128 on are at least two
(`stringAsUnibyte_concat_string`).
-/

namespace Emacs

/-- A string of bytes or of characters. -/
inductive LispString
  | unibyte (bytes : List UInt8)
  | multibyte (chars : List ℕ)

/-- The character of a byte: itself, or the character of the raw byte. -/
def byteChar (b : UInt8) : ℕ := if b.toNat < 0x80 then b.toNat else 0x3fff00 + b.toNat

/-- The bytes of a character, those of a raw byte being that byte. -/
def charBytes (c : ℕ) : List UInt8 :=
  if c < 0x80 then [UInt8.ofNat c]
  else if c < 0x800 then [UInt8.ofNat (0xc0 + c / 64), UInt8.ofNat (0x80 + c % 64)]
  else if c < 0x10000 then
    [UInt8.ofNat (0xe0 + c / 64 ^ 2), UInt8.ofNat (0x80 + c / 64 % 64), UInt8.ofNat (0x80 + c % 64)]
  else if c < 0x200000 then
    [UInt8.ofNat (0xf0 + c / 64 ^ 3), UInt8.ofNat (0x80 + c / 64 ^ 2 % 64),
      UInt8.ofNat (0x80 + c / 64 % 64), UInt8.ofNat (0x80 + c % 64)]
  else if c < 0x3fff80 then
    [0xf8, UInt8.ofNat (0x80 + c / 64 ^ 3 % 64), UInt8.ofNat (0x80 + c / 64 ^ 2 % 64),
      UInt8.ofNat (0x80 + c / 64 % 64), UInt8.ofNat (0x80 + c % 64)]
  else [UInt8.ofNat (c - 0x3fff00)]

namespace LispString

/-- `(length s)`. -/
def length : LispString → ℕ
  | unibyte bytes => bytes.length
  | multibyte chars => chars.length

/-- The characters of a string. -/
def chars : LispString → List ℕ
  | unibyte bytes => bytes.map byteChar
  | multibyte chars => chars

end LispString

open LispString

/-- `(string c …)`, unibyte if all characters are ASCII. -/
def string (codes : List ℕ) : LispString :=
  if codes.all (· < 0x80) then unibyte (codes.map UInt8.ofNat) else multibyte codes

/-- `(concat a b)`, multibyte if one of the two is. -/
def concat : LispString → LispString → LispString
  | unibyte a, unibyte b => unibyte (a ++ b)
  | a, b => multibyte (a.chars ++ b.chars)

/-- `(string-as-unibyte s)`: the bytes of the string that results. -/
def stringAsUnibyte : LispString → List UInt8
  | unibyte bytes => bytes
  | multibyte chars => chars.flatMap charBytes

@[simp] theorem stringAsUnibyte_unibyte (bytes : List UInt8) :
    stringAsUnibyte (unibyte bytes) = bytes := rfl

/-- An ASCII character is one byte. -/
theorem charBytes_of_lt {c : ℕ} (h : c < 0x80) : charBytes c = [UInt8.ofNat c] := if_pos h

/-- …and so is the character of a raw byte. -/
theorem charBytes_of_le {c : ℕ} (h : 0x3fff80 ≤ c) :
    charBytes c = [UInt8.ofNat (c - 0x3fff00)] := by
  rw [charBytes, if_neg (by omega), if_neg (by omega), if_neg (by omega), if_neg (by omega),
    if_neg (by omega)]

/-- A byte survives being made a character. -/
@[simp] theorem charBytes_byteChar (b : UInt8) : charBytes (byteChar b) = [b] := by
  unfold byteChar
  split_ifs with h
  · rw [charBytes_of_lt h, UInt8.ofNat_toNat]
  · rw [charBytes_of_le (by omega), Nat.add_sub_cancel_left, UInt8.ofNat_toNat]

/-- **Raw bytes come back as they were**, each from its character. -/
theorem flatMap_charBytes_map_byteChar (bytes : List UInt8) :
    (bytes.map byteChar).flatMap charBytes = bytes := by
  induction bytes with
  | nil => rfl
  | cons b bytes ih => rw [List.map_cons, List.flatMap_cons, charBytes_byteChar, ih]; rfl

theorem flatMap_charBytes_of_lt {codes : List ℕ} (h : ∀ c ∈ codes, c < 0x80) :
    codes.flatMap charBytes = codes.map UInt8.ofNat := by
  rw [← List.flatMap_pure_eq_map]
  exact List.flatMap_congr fun c hc => charBytes_of_lt (h c hc)

/-- A character up to `ÿ` that is not ASCII is two bytes. -/
theorem length_charBytes {c : ℕ} (h : c < 0x100) :
    (charBytes c).length = if c < 0x80 then 1 else 2 := by
  unfold charBytes
  split_ifs <;> first | rfl | omega

/-- There is at least one byte for each character. -/
theorem length_le_flatMap_charBytes {codes : List ℕ} (h : ∀ c ∈ codes, c < 0x100) :
    codes.length ≤ (codes.flatMap charBytes).length := by
  induction codes with
  | nil => exact Nat.zero_le _
  | cons c codes ih =>
    have hc := length_charBytes (h c List.mem_cons_self)
    have hrest := ih fun c' hc' => h c' (List.mem_cons_of_mem _ hc')
    rw [List.flatMap_cons, List.length_append, List.length_cons]
    split_ifs at hc <;> omega

/-- **Characters up to `ÿ` are one byte each exactly if all are ASCII.** -/
theorem flatMap_charBytes_eq_map_iff {codes : List ℕ} (h : ∀ c ∈ codes, c < 0x100) :
    codes.flatMap charBytes = codes.map UInt8.ofNat ↔ ∀ c ∈ codes, c < 0x80 := by
  refine ⟨fun heq => ?_, flatMap_charBytes_of_lt⟩
  induction codes with
  | nil => simp
  | cons c codes ih =>
    have hcodes : ∀ c' ∈ codes, c' < 0x100 := fun c' hc' => h c' (List.mem_cons_of_mem _ hc')
    have hlen := congrArg List.length heq
    have hc := length_charBytes (h c List.mem_cons_self)
    have hrest := length_le_flatMap_charBytes hcodes
    rw [List.flatMap_cons, List.length_append, List.length_map, List.length_cons] at hlen
    have hlt : c < 0x80 := by
      by_contra hge
      rw [if_neg hge] at hc
      omega
    rw [List.flatMap_cons, charBytes_of_lt hlt, List.map_cons, List.singleton_append,
      List.cons_inj_right] at heq
    exact List.forall_mem_cons.mpr ⟨hlt, ih hcodes heq⟩

/-- **Characters joined with bytes, as bytes.** -/
theorem stringAsUnibyte_concat_string (codes : List ℕ) (bytes : List UInt8) :
    stringAsUnibyte (concat (string codes) (unibyte bytes)) = codes.flatMap charBytes ++ bytes := by
  unfold string
  split
  · next h =>
    rw [flatMap_charBytes_of_lt fun c hc => by simpa using List.all_eq_true.mp h c hc]
    rfl
  · show (codes ++ bytes.map byteChar).flatMap charBytes = _
    rw [List.flatMap_append, flatMap_charBytes_map_byteChar]

end Emacs
