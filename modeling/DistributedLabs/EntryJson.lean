import DistributedLabs.OneClientPut

/-!
The text that encoding/json writes for EntryV, and a reader for it. Numbers are
written in decimal without leading zeros; the reader refuses a version that does
not fit its type.
-/
namespace DistributedLabs.EntryJson

open KvTest

def intText : ℤ → List Char
  | .ofNat n => Nat.toDigits 10 n
  | .negSucc n => '-' :: Nat.toDigits 10 (n + 1)

def idText : List Char := "\x7b\"Id\":".toList

def versionText : List Char := ",\"V\":".toList

def entryText (e : EntryV) : List Char :=
  idText ++ (intText e.id ++ (versionText ++ (Nat.toDigits 10 e.v.toNat ++ ['\x7d'])))

def strip : List Char → List Char → Option (List Char)
  | [], text => some text
  | c :: cs, d :: text => if c = d then strip cs text else none
  | _ :: _, [] => none

/-- A number and the text after it. -/
def readNat (acc : ℕ) : List Char → ℕ × List Char
  | [] => (acc, [])
  | c :: text =>
    if c.isDigit then readNat (10 * acc + (c.toNat - 48)) text else (acc, c :: text)

def readInt (text : List Char) : ℤ × List Char :=
  match text with
  | '-' :: text => (-(readNat 0 text).1, (readNat 0 text).2)
  | text => ((readNat 0 text).1, (readNat 0 text).2)

def readEntry (text : List Char) : Option EntryV :=
  (strip idText text).bind fun text =>
    (strip versionText (readInt text).2).bind fun rest =>
      if (readNat 0 rest).2 = ['\x7d'] ∧ (readNat 0 rest).1 < 2 ^ 64 then
        some ⟨(readInt text).1, UInt64.ofNat (readNat 0 rest).1⟩
      else none

theorem strip_append (cs text : List Char) : strip cs (cs ++ text) = some text := by
  induction cs with
  | nil => rfl
  | cons c cs ih => simpa [strip] using ih

theorem readNat_append {ds : List Char} (hds : ∀ d ∈ ds, d.isDigit = true) (acc : ℕ)
    (text : List Char) : readNat acc (ds ++ text) = readNat (Nat.ofDigitChars 10 ds acc) text := by
  induction ds generalizing acc with
  | nil => rfl
  | cons d ds ih =>
    have hd : d.isDigit = true := hds d List.mem_cons_self
    rw [List.cons_append, readNat, if_pos hd,
      ih (fun d' hd' => hds d' (List.mem_cons_of_mem _ hd'))]
    rfl

theorem isDigit_toDigits {n : ℕ} : ∀ d ∈ Nat.toDigits 10 n, d.isDigit = true :=
  fun _ => Nat.isDigit_of_mem_toDigits (by decide) (by decide)

/-- A number ends where no digit follows. -/
theorem readNat_toDigits (n : ℕ) {c : Char} (hc : c.isDigit = false) (text : List Char) :
    readNat 0 (Nat.toDigits 10 n ++ c :: text) = (n, c :: text) := by
  rw [readNat_append isDigit_toDigits, Nat.ofDigitChars_ten_toDigits, readNat, hc]
  rfl

theorem toDigits_head (n : ℕ) : ∃ c cs, Nat.toDigits 10 n = c :: cs ∧ c ≠ '-' := by
  cases h : Nat.toDigits 10 n with
  | nil =>
    have hpos := Nat.length_toDigits_pos (b := 10) (n := n)
    simp [h] at hpos
  | cons c cs =>
    have hdigit : c.isDigit = true := isDigit_toDigits c (h ▸ List.mem_cons_self)
    refine ⟨c, cs, rfl, ?_⟩
    rintro rfl
    cases hdigit

theorem readInt_intText (z : ℤ) {c : Char} (hc : c.isDigit = false) (text : List Char) :
    readInt (intText z ++ c :: text) = (z, c :: text) := by
  cases z with
  | ofNat n =>
    have hread := readNat_toDigits n hc text
    obtain ⟨d, ds, hds, hd⟩ := toDigits_head n
    rw [hds, List.cons_append] at hread
    rw [intText, hds, List.cons_append, readInt]
    · simp [hread]
    · intro rest heq
      exact hd (List.cons.inj heq).1
  | negSucc n =>
    rw [intText, List.cons_append, readInt, readNat_toDigits (n + 1) hc]
    simp [Int.negSucc_eq]

theorem readEntry_entryText (e : EntryV) : readEntry (entryText e) = some e := by
  have hversion : versionText = ',' :: "\"V\":".toList := by decide
  have hid : readInt (intText e.id ++ (versionText ++ (Nat.toDigits 10 e.v.toNat ++ ['\x7d']))) =
      (e.id, versionText ++ (Nat.toDigits 10 e.v.toNat ++ ['\x7d'])) := by
    rw [hversion, List.cons_append]
    exact readInt_intText e.id (by decide) _
  have hv := readNat_toDigits e.v.toNat (c := '\x7d') (by decide) []
  have hlt := e.v.toNat_lt
  simp [readEntry, entryText, strip_append, hid, hv, hlt]

/-- The codec of OneClientPut that reads and writes this text. -/
def entryCodec : EntryCodec where
  marshal e := String.ofList (entryText e)
  unmarshal text := readEntry text.toList
  unmarshal_marshal e := by rw [String.toList_ofList, readEntry_entryText]

example : entryCodec.marshal ⟨-12, 305⟩ = "\x7b\"Id\":-12,\"V\":305\x7d" := by decide

end DistributedLabs.EntryJson
