import Mathlib.Data.List.Basic

/-!
Byte strings made into valid UTF-8: runes that decode stay, and each byte that does not
begin one is replaced by U+FFFD. The result is always valid, and a string that is valid
already is not changed.
-/
namespace DistributedLabs.Utf8

def decodeRune (s : List UInt8) : Option Char := (ByteArray.mk s.toArray).utf8DecodeChar? 0

/-- The encoding of U+FFFD. -/
def replacement : List UInt8 := [0xEF, 0xBF, 0xBD]

/-- A sequence of encoded runes. -/
def Valid (s : List UInt8) : Prop := ∃ runes : List Char, s = runes.flatMap String.utf8EncodeChar

/-- The first argument bounds the number of runes. -/
def coerceFrom : ℕ → List UInt8 → List UInt8
  | 0, _ => []
  | _ + 1, [] => []
  | fuel + 1, b :: rest =>
    match decodeRune (b :: rest) with
    | some c => String.utf8EncodeChar c ++ coerceFrom fuel ((b :: rest).drop c.utf8Size)
    | none => replacement ++ coerceFrom fuel rest

def coerce (s : List UInt8) : List UInt8 := coerceFrom s.length s

theorem mk_toArray (s : List UInt8) : ByteArray.mk s.toArray = s.toByteArray := by
  apply ByteArray.ext
  rw [List.data_toByteArray]

theorem decodeRune_encode (c : Char) (rest : List UInt8) :
    decodeRune (String.utf8EncodeChar c ++ rest) = some c := by
  rw [decodeRune, mk_toArray, List.toByteArray_append]
  exact ByteArray.utf8DecodeChar?_utf8EncodeChar_append

theorem length_encode_pos (c : Char) : 0 < (String.utf8EncodeChar c).length := by
  rw [String.length_utf8EncodeChar]
  exact c.utf8Size_pos

/-- A decoded rune stays as it is. -/
theorem coerceFrom_encode_append (fuel : ℕ) (c : Char) (rest : List UInt8) :
    coerceFrom (fuel + 1) (String.utf8EncodeChar c ++ rest) =
      String.utf8EncodeChar c ++ coerceFrom fuel rest := by
  obtain ⟨b, tail, htail⟩ := List.exists_cons_of_length_pos (length_encode_pos c)
  have hdecode := decodeRune_encode c rest
  have hdrop : (String.utf8EncodeChar c ++ rest).drop c.utf8Size = rest := by
    rw [← String.length_utf8EncodeChar, List.drop_left]
  rw [htail, List.cons_append] at hdecode hdrop
  rw [htail, List.cons_append, coerceFrom, hdecode]
  simp only [hdrop, htail]

theorem coerceFrom_encoded (runes : List Char) {fuel : ℕ}
    (h : (runes.flatMap String.utf8EncodeChar).length ≤ fuel) :
    coerceFrom fuel (runes.flatMap String.utf8EncodeChar) =
      runes.flatMap String.utf8EncodeChar := by
  induction runes generalizing fuel with
  | nil => cases fuel <;> rfl
  | cons c runes ih =>
    rw [List.flatMap_cons] at h ⊢
    rw [List.length_append] at h
    have hpos := length_encode_pos c
    obtain ⟨fuel, rfl⟩ := Nat.exists_eq_succ_of_ne_zero (n := fuel) (by omega)
    rw [Nat.succ_eq_add_one, coerceFrom_encode_append, ih (by omega)]

theorem Valid.append {s t : List UInt8} (hs : Valid s) (ht : Valid t) : Valid (s ++ t) := by
  obtain ⟨runes, rfl⟩ := hs
  obtain ⟨runes', rfl⟩ := ht
  exact ⟨runes ++ runes', List.flatMap_append.symm⟩

theorem valid_encode (c : Char) : Valid (String.utf8EncodeChar c) := ⟨[c], by simp⟩

theorem valid_coerceFrom (fuel : ℕ) (s : List UInt8) : Valid (coerceFrom fuel s) := by
  induction fuel generalizing s with
  | zero => exact ⟨[], rfl⟩
  | succ fuel ih =>
    cases s with
    | nil => exact ⟨[], rfl⟩
    | cons b rest =>
      rw [coerceFrom]
      split
      · exact (valid_encode _).append (ih _)
      · have hrune : replacement = String.utf8EncodeChar (Char.ofNat 0xFFFD) := by decide
        rw [hrune]
        exact (valid_encode _).append (ih _)

theorem coerce_eq_self_iff {s : List UInt8} : coerce s = s ↔ Valid s := by
  constructor
  · intro h
    rw [← h]
    exact valid_coerceFrom s.length s
  · rintro ⟨runes, rfl⟩
    exact coerceFrom_encoded runes (Nat.le_refl _)

end DistributedLabs.Utf8
