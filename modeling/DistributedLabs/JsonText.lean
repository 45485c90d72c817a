import DistributedLabs.Grouping
import DistributedLabs.GoText
import Mathlib.Data.List.Sort

/-!
JSON text of a map from strings to lists of strings, written without blanks and
with the keys in order, and a reader for such text. Quotes and backslashes are
escaped; every other byte stands for itself, as it does in encoding/json for
printable ASCII apart from `<`, `>` and `&`.
-/
namespace DistributedLabs.JsonText

open GoText Grouping

def escape (b : UInt8) : GoString := if b = 34 ∨ b = 92 then [92, b] else [b]

def stringText (s : GoString) : GoString := 34 :: s.flatMap escape ++ [34]

/-- The elements of an array and its closing bracket. -/
def elementsText : List GoString → GoString
  | [] => [93]
  | [s] => stringText s ++ [93]
  | s :: rest => stringText s ++ 44 :: elementsText rest

def memberText (m : GoString × List GoString) : GoString :=
  stringText m.1 ++ 58 :: 91 :: elementsText m.2

/-- The members of an object and its closing brace. -/
def membersText : List (GoString × List GoString) → GoString
  | [] => [125]
  | [m] => memberText m ++ [125]
  | m :: rest => memberText m ++ 44 :: membersText rest

/-- A string after its opening quote, and the text after it. -/
def readString : GoString → Option (GoString × GoString)
  | [] => none
  | 34 :: rest => some ([], rest)
  | 92 :: b :: rest => (readString rest).map fun (s, rest) => (b :: s, rest)
  | b :: rest => (readString rest).map fun (s, rest) => (b :: s, rest)

def readElements : ℕ → GoString → Option (List GoString × GoString)
  | fuel + 1, 34 :: rest =>
    match readString rest with
    | some (s, 44 :: rest) => (readElements fuel rest).map fun (l, rest) => (s :: l, rest)
    | some (s, 93 :: rest) => some ([s], rest)
    | _ => none
  | _ + 1, 93 :: rest => some ([], rest)
  | _, _ => none

def readMembers : ℕ → GoString → Option (List (GoString × List GoString))
  | fuel + 1, 34 :: rest =>
    match readString rest with
    | some (k, 58 :: 91 :: rest) =>
      match readElements fuel rest with
      | some (l, 44 :: rest) => (readMembers fuel rest).map fun ms => (k, l) :: ms
      | some (l, [125]) => some [(k, l)]
      | _ => none
    | _ => none
  | _ + 1, [125] => some []
  | _, _ => none

theorem readString_stringText (s rest : GoString) :
    readString (s.flatMap escape ++ 34 :: rest) = some (s, rest) := by
  induction s with
  | nil => simp [readString]
  | cons b s ih =>
    rw [List.flatMap_cons, List.append_assoc]
    by_cases hb : b = 34 ∨ b = 92
    · simp [escape, hb, readString, ih]
    · obtain ⟨h1, h2⟩ := not_or.mp hb
      rw [escape, if_neg hb, List.singleton_append, readString.eq_def]
      split
      · simp at *
      · simp_all
      · simp_all
      · rename_i b' rest' _ _ heq
        obtain ⟨rfl, rfl⟩ := List.cons.inj heq
        rw [ih]
        rfl

theorem readElements_elementsText (l : List GoString) (rest : GoString) (fuel : ℕ)
    (hfuel : l.length < fuel) :
    readElements fuel (elementsText l ++ rest) = some (l, rest) := by
  induction l generalizing fuel with
  | nil =>
    obtain ⟨fuel, rfl⟩ := Nat.exists_eq_succ_of_ne_zero (Nat.ne_of_gt hfuel)
    simp [elementsText, readElements]
  | cons s l ih =>
    obtain ⟨fuel, rfl⟩ := Nat.exists_eq_succ_of_ne_zero (Nat.ne_of_gt (Nat.zero_lt_of_lt hfuel))
    have hread := readString_stringText s
    cases l with
    | nil => simp [elementsText, stringText, readElements, hread]
    | cons s' l =>
      have hrest := ih fuel (Nat.lt_of_succ_lt_succ hfuel)
      simp [elementsText, stringText, readElements, hread, hrest]

/-- Enough fuel for the members and for the elements of each. -/
def fuelOf (ms : List (GoString × List GoString)) : ℕ :=
  (ms.map fun m => m.2.length + 2).sum + 1

theorem readMembers_membersText (ms : List (GoString × List GoString)) (fuel : ℕ)
    (hfuel : fuelOf ms ≤ fuel) : readMembers fuel (membersText ms) = some ms := by
  induction ms generalizing fuel with
  | nil =>
    obtain ⟨fuel, rfl⟩ := Nat.exists_eq_succ_of_ne_zero (Nat.ne_of_gt hfuel)
    simp [membersText, readMembers]
  | cons m ms ih =>
    simp only [fuelOf, List.map_cons, List.sum_cons] at hfuel
    obtain ⟨fuel, rfl⟩ := Nat.exists_eq_succ_of_ne_zero (n := fuel) (by omega)
    have hread := readString_stringText m.1
    have helems : ∀ rest, readElements fuel (elementsText m.2 ++ rest) = some (m.2, rest) :=
      fun rest => readElements_elementsText m.2 rest fuel (by omega)
    cases ms with
    | nil => simp [membersText, memberText, stringText, readMembers, hread, helems]
    | cons m' ms =>
      have hrest := ih fuel (by simp only [fuelOf]; omega)
      simp [membersText, memberText, stringText, readMembers, hread, helems, hrest]

theorem length_lt_elementsText (l : List GoString) : l.length < (elementsText l).length := by
  induction l with
  | nil => simp [elementsText]
  | cons s l ih =>
    cases l with
    | nil => simp [elementsText, stringText]
    | cons s' l =>
      simp only [elementsText, stringText, List.length_append, List.length_cons] at ih ⊢
      omega

theorem fuelOf_le_membersText (ms : List (GoString × List GoString)) :
    fuelOf ms ≤ (membersText ms).length := by
  induction ms with
  | nil => simp [fuelOf, membersText]
  | cons m ms ih =>
    have helems := length_lt_elementsText m.2
    simp only [fuelOf, List.map_cons, List.sum_cons] at ih ⊢
    cases ms with
    | nil =>
      simp only [membersText, memberText, stringText, List.length_append, List.length_cons,
        List.map_nil, List.sum_nil]
      omega
    | cons m' ms =>
      simp only [membersText, memberText, stringText, List.length_append, List.length_cons]
        at ih ⊢
      omega

instance : IsTrans GoString (· ≤ ·) := ⟨fun _ _ _ => List.le_trans⟩

instance : @Std.Antisymm GoString (· ≤ ·) := ⟨fun _ _ => List.le_antisymm⟩

instance : @Std.Total GoString (· ≤ ·) := ⟨List.le_total⟩

/-- Strings in order, sorted by insertion, which evaluates. -/
def sortFinset (keys : Finset GoString) : List GoString :=
  Quotient.liftOn keys.val (List.insertionSort (· ≤ ·)) fun l l' h =>
    List.Perm.eq_of_pairwise' (List.pairwise_insertionSort _ l) (List.pairwise_insertionSort _ l')
      ((List.perm_insertionSort _ l).trans (h.trans (List.perm_insertionSort _ l').symm))

theorem coe_sortFinset (keys : Finset GoString) :
    (sortFinset keys : Multiset GoString) = keys.val := by
  unfold sortFinset
  induction keys.val using Quotient.inductionOn with
  | h l => exact Multiset.coe_eq_coe.mpr (List.perm_insertionSort _ l)

theorem nodup_sortFinset (keys : Finset GoString) : (sortFinset keys).Nodup := by
  rw [← Multiset.coe_nodup, coe_sortFinset]
  exact keys.nodup

theorem mem_sortFinset (keys : Finset GoString) (k : GoString) :
    k ∈ sortFinset keys ↔ k ∈ keys := by
  rw [← Multiset.mem_coe, coe_sortFinset, Finset.mem_val]

def sortedKeys (m : Groups GoString GoString) : List GoString := sortFinset m.keys

def marshal (m : Groups GoString GoString) : GoString :=
  123 :: membersText ((sortedKeys m).map fun k => (k, (m.lookup k).getD []))

/-- A later member overwrites an earlier one with the same key. -/
def ofMembers (ms : List (GoString × List GoString)) : Groups GoString GoString :=
  ms.foldl (fun m e => m.insert e.1 e.2) ∅

def unmarshal : GoString → Option (Groups GoString GoString)
  | 123 :: rest => (readMembers rest.length rest).map ofMembers
  | _ => none

theorem ranges_sortedKeys (m : Groups GoString GoString) : Ranges m (sortedKeys m) where
  nodup := nodup_sortFinset m.keys
  mem_iff k := by rw [sortedKeys, mem_sortFinset, Finmap.mem_keys]

theorem lookup_insertAll (keys : List GoString) (f : GoString → List GoString)
    (m : Groups GoString GoString) (k : GoString) :
    (keys.foldl (fun m k => m.insert k (f k)) m).lookup k =
      if k ∈ keys then some (f k) else m.lookup k := by
  induction keys generalizing m with
  | nil => simp
  | cons k' keys ih =>
    rw [List.foldl_cons, ih]
    by_cases hk : k = k'
    · subst hk
      simp
    · simp [hk, Finmap.lookup_insert_of_ne _ hk]

theorem unmarshal_marshal (m : Groups GoString GoString) : unmarshal (marshal m) = some m := by
  have hread := readMembers_membersText
    ((sortedKeys m).map fun k => (k, (m.lookup k).getD [])) _ (fuelOf_le_membersText _)
  simp only [marshal, unmarshal, hread, Option.map_some, Option.some.injEq, ofMembers,
    List.foldl_map]
  apply Finmap.ext_lookup
  intro k
  rw [lookup_insertAll _ (fun k => (m.lookup k).getD [])]
  cases hk : m.lookup k with
  | none =>
    have hnot : k ∉ sortedKeys m := by
      rw [(ranges_sortedKeys m).mem_iff]
      exact Finmap.lookup_eq_none.mp hk
    simp [hnot]
  | some values =>
    have hmem : k ∈ sortedKeys m := by
      rw [(ranges_sortedKeys m).mem_iff]
      exact Finmap.mem_of_lookup_eq_some hk
    simp [hmem]

end DistributedLabs.JsonText
