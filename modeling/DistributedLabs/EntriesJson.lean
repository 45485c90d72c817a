import DistributedLabs.EntryJson
import DistributedLabs.OneClientAppend

/-!
The text that encoding/json writes for a list of append entries, and a reader
for it.
-/
namespace DistributedLabs.EntriesJson

open EntryJson KvAppend

def numberText : List Char := ",\"N\":".toList

def itemText (e : Entry) : List Char :=
  idText ++ (intText e.id ++ (numberText ++ (intText e.n ++ ['\x7d'])))

/-- The items after the first one, and the closing bracket. -/
def restText : List Entry → List Char
  | [] => [']']
  | e :: es => ',' :: (itemText e ++ restText es)

def entriesText : List Entry → List Char
  | [] => ['[', ']']
  | e :: es => '[' :: (itemText e ++ restText es)

/-- An entry and the text after it. -/
def readItem (text : List Char) : Option (Entry × List Char) :=
  (strip idText text).bind fun text =>
    (strip numberText (readInt text).2).bind fun rest =>
      (strip ['\x7d'] (readInt rest).2).map fun after =>
        (⟨(readInt text).1, (readInt rest).1⟩, after)

/-- What follows an item, given more fuel than there are items. -/
def readRest : ℕ → List Char → Option (List Entry)
  | 0, _ => none
  | fuel + 1, text =>
    match text with
    | [']'] => some []
    | ',' :: text => (readItem text).bind fun x => (readRest fuel x.2).map (x.1 :: ·)
    | _ => none

def readEntries (text : List Char) : Option (List Entry) :=
  match text with
  | ['[', ']'] => some []
  | '[' :: text => (readItem text).bind fun x => (readRest text.length x.2).map (x.1 :: ·)
  | _ => none

theorem readItem_itemText (e : Entry) (text : List Char) :
    readItem (itemText e ++ text) = some (e, text) := by
  have hnumber : numberText = ',' :: "\"N\":".toList := by decide
  have hid : ∀ rest, readInt (intText e.id ++ (numberText ++ rest)) =
      (e.id, numberText ++ rest) := by
    intro rest
    rw [hnumber, List.cons_append]
    exact readInt_intText e.id (by decide) _
  have hn := readInt_intText e.n (c := '\x7d') (by decide) text
  simp [readItem, itemText, strip_append, hid, hn, strip]

theorem readRest_restText (es : List Entry) {fuel : ℕ} (hfuel : es.length < fuel) :
    readRest fuel (restText es) = some es := by
  induction es generalizing fuel with
  | nil =>
    obtain ⟨fuel, rfl⟩ := Nat.exists_eq_succ_of_ne_zero (Nat.ne_of_gt hfuel)
    rfl
  | cons e es ih =>
    obtain ⟨fuel, rfl⟩ := Nat.exists_eq_succ_of_ne_zero (Nat.ne_of_gt (Nat.zero_lt_of_lt hfuel))
    have hrest := ih (Nat.lt_of_succ_lt_succ hfuel)
    simp [readRest, restText, readItem_itemText, hrest]

theorem length_le_restText (es : List Entry) : es.length < (restText es).length := by
  induction es with
  | nil => simp [restText]
  | cons e es ih =>
    simp only [restText, List.length_cons, List.length_append]
    omega

theorem readEntries_entriesText (es : List Entry) : readEntries (entriesText es) = some es := by
  cases es with
  | nil => rfl
  | cons e es =>
    have hlt := length_le_restText es
    have hfuel : es.length < (itemText e ++ restText es).length := by
      rw [List.length_append]
      omega
    have hread := readRest_restText es hfuel
    have hhead : idText = '\x7b' :: "\"Id\":".toList := by decide
    rw [entriesText, readEntries, readItem_itemText]
    · rw [Option.bind_some, hread, Option.map_some]
    · intro heq
      simp [itemText, hhead] at heq

/-- The codec of OneClientAppend that reads and writes this text. -/
def entriesCodec : Codec where
  marshal es := String.ofList (entriesText es)
  unmarshal text := readEntries text.toList
  unmarshal_marshal es := by rw [String.toList_ofList, readEntries_entriesText]

example : entriesCodec.marshal [⟨1, 0⟩, ⟨0, 2⟩] =
    "[\x7b\"Id\":1,\"N\":0\x7d,\x7b\"Id\":0,\"N\":2\x7d]" := by decide

end DistributedLabs.EntriesJson
