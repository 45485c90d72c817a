import Mathlib.Data.List.TakeWhile
import Mathlib.Data.UInt

/-!
Go strings are sequences of bytes. Here are the pieces of fmt and encoding/hex
that build file names: decimal numbers, hexadecimal bytes and ASCII literals.
A number followed by a hyphen can be read back, whatever comes after it.
-/
namespace DistributedLabs.GoText

abbrev GoString := List UInt8

/-- The bytes of a string literal, all of them ASCII. -/
def ascii (s : String) : GoString := s.toList.map fun c => c.toNat.toUInt8

def digits (n : ℕ) : GoString := (Nat.toDigits 10 n).map fun c => c.toNat.toUInt8

/-- An int under the verb %v. -/
def itoa (n : ℤ) : GoString :=
  if n < 0 then ascii "-" ++ digits n.natAbs else digits n.natAbs

def hexDigit (b : UInt8) : UInt8 := if b < 10 then b + 48 else b + 87

def hexEncodeToString (bytes : List UInt8) : GoString :=
  bytes.flatMap fun b => [hexDigit (b / 16), hexDigit (b % 16)]

theorem itoa_natCast (n : ℕ) : itoa n = digits n := by
  have h : ¬ (n : ℤ) < 0 := by omega
  rw [itoa, if_neg h, Int.natAbs_natCast]

theorem isDigit_bounds {n : ℕ} {c : Char} (hc : c ∈ Nat.toDigits 10 n) :
    48 ≤ c.toNat ∧ c.toNat ≤ 57 := by
  have h := Nat.isDigit_of_mem_toDigits (by decide) (by decide) hc
  simp only [Char.isDigit, Bool.and_eq_true, decide_eq_true_eq] at h
  exact h

theorem digits_injective : Function.Injective digits := by
  intro m n h
  -- the characters, and from them the number, are read back from the bytes
  have hback : ∀ k, (digits k).map (fun b => Char.ofNat b.toNat) = Nat.toDigits 10 k := by
    intro k
    rw [digits, List.map_map]
    refine (List.map_congr_left ?_).trans (List.map_id _)
    intro c hc
    have hbound := isDigit_bounds hc
    have hmod : c.toNat % 2 ^ 8 = c.toNat := Nat.mod_eq_of_lt (by omega)
    simp only [Function.comp_apply, Nat.toUInt8, UInt8.toNat_ofNat', hmod,
      Char.ofNat_toNat, id_eq]
  have hdigits : Nat.toDigits 10 m = Nat.toDigits 10 n := by
    rw [← hback m, h, hback n]
  rw [← Nat.ofDigitChars_ten_toDigits (n := m), hdigits, Nat.ofDigitChars_ten_toDigits]

theorem digits_bounds {n : ℕ} {b : UInt8} (h : b ∈ digits n) : 48 ≤ b.toNat ∧ b.toNat ≤ 57 := by
  obtain ⟨c, hc, rfl⟩ := List.mem_map.mp h
  have hbound := isDigit_bounds hc
  have hmod : c.toNat % 2 ^ 8 = c.toNat := Nat.mod_eq_of_lt (by omega)
  simp only [Nat.toUInt8, UInt8.toNat_ofNat', hmod]
  exact hbound

theorem hyphen_notMem_digits (n : ℕ) : (45 : UInt8) ∉ digits n := by
  intro h
  have hbound := digits_bounds h
  have h45 : (45 : UInt8).toNat = 45 := rfl
  omega

/-- A number starts with a digit or a sign. -/
theorem itoa_head (n : ℤ) : ∃ b rest, itoa n = b :: rest ∧ b.toNat ≤ 57 := by
  unfold itoa
  split
  · exact ⟨45, digits n.natAbs, rfl, by decide⟩
  · cases h : digits n.natAbs with
    | nil =>
      have hempty := congrArg List.length h
      have hpos := Nat.length_toDigits_pos (b := 10) (n := n.natAbs)
      simp only [digits, List.length_map, List.length_nil] at hempty
      omega
    | cons b rest => exact ⟨b, rest, rfl, (digits_bounds (h ▸ List.mem_cons_self)).2⟩

theorem takeWhile_append_cons {α : Type*} [DecidableEq α] {a : α} {l : List α} (h : a ∉ l)
    (r : List α) : (l ++ a :: r).takeWhile (fun b => !decide (b = a)) = l := by
  induction l with
  | nil => simp
  | cons b l ih =>
    have hb : b ≠ a := fun heq => h (by simp [heq])
    have hl : a ∉ l := fun hmem => h (by simp [hmem])
    simp [hb, ih hl]

/-- A number is determined by the text up to the hyphen after it. -/
theorem digits_hyphen_inj {m n : ℕ} {r r' : GoString}
    (h : digits m ++ 45 :: r = digits n ++ 45 :: r') : m = n := by
  apply digits_injective
  rw [← takeWhile_append_cons (hyphen_notMem_digits m) r, h,
    takeWhile_append_cons (hyphen_notMem_digits n) r']

end DistributedLabs.GoText
