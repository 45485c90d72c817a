import Mathlib.Data.Finmap

/-!
Entries grouped by key into a map from keys to lists of values, as a Go map is:
`m[k] = append(m[k], vs...)`. A map is ranged over in any order of its keys, and
nothing here depends on which. `Grouped` says that a map holds, for each key,
all values of the key in a list of entries, in order, and no other key.
-/
namespace DistributedLabs.Grouping

structure Entry (κ ν : Type*) where
  key : κ
  value : ν
  deriving DecidableEq, Repr

variable {κ ν : Type*} [DecidableEq κ]

abbrev Groups (κ ν : Type*) := Finmap fun _ : κ => List ν

/-- The values of a key, in order. -/
def valuesOf (k : κ) (l : List (Entry κ ν)) : List ν :=
  (l.filter fun e => e.key = k).map Entry.value

def appendAt (m : Groups κ ν) (k : κ) (values : List ν) : Groups κ ν :=
  m.insert k ((m.lookup k).getD [] ++ values)

def group (m : Groups κ ν) (l : List (Entry κ ν)) : Groups κ ν :=
  l.foldl (fun m e => appendAt m e.key [e.value]) m

/-- An order in which a map may be ranged over. -/
structure Ranges (m : Groups κ ν) (order : List κ) : Prop where
  nodup : order.Nodup
  mem_iff : ∀ k, k ∈ order ↔ k ∈ m

/-- The orders Go picks: one for each range statement, in turn. -/
structure Iteration (κ ν : Type*) where
  order : ℕ → Groups κ ν → List κ
  ranges : ∀ n m, Ranges m (order n m)

omit [DecidableEq κ] in
theorem Ranges.perm {m : Groups κ ν} {order order' : List κ} (h : Ranges m order)
    (h' : Ranges m order') : order.Perm order' := by
  rw [List.perm_ext_iff_of_nodup h.nodup h'.nodup]
  intro k
  rw [h.mem_iff, h'.mem_iff]

/-- Append the values of each key of the second map to the first. -/
def merge (m tmp : Groups κ ν) (order : List κ) : Groups κ ν :=
  order.foldl (fun m k => appendAt m k ((tmp.lookup k).getD [])) m

def Grouped (l : List (Entry κ ν)) (m : Groups κ ν) : Prop :=
  ∀ k, m.lookup k = if valuesOf k l = [] then none else some (valuesOf k l)

theorem lookup_appendAt (m : Groups κ ν) (k k' : κ) (values : List ν) :
    (appendAt m k values).lookup k' =
      if k' = k then some ((m.lookup k).getD [] ++ values) else m.lookup k' := by
  unfold appendAt
  split
  · subst k'
    exact Finmap.lookup_insert m
  · exact Finmap.lookup_insert_of_ne m ‹_›

theorem valuesOf_append (k : κ) (l l' : List (Entry κ ν)) :
    valuesOf k (l ++ l') = valuesOf k l ++ valuesOf k l' := by
  simp [valuesOf]

theorem valuesOf_cons (k : κ) (e : Entry κ ν) (l : List (Entry κ ν)) :
    valuesOf k (e :: l) = if e.key = k then e.value :: valuesOf k l else valuesOf k l := by
  unfold valuesOf
  by_cases h : e.key = k
  · simp [h]
  · simp [h]

theorem valuesOf_eq_nil {k : κ} {l : List (Entry κ ν)} :
    valuesOf k l = [] ↔ ∀ e ∈ l, e.key ≠ k := by
  simp [valuesOf]

theorem valuesOf_perm {l l' : List (Entry κ ν)} (h : l.Perm l') (k : κ) :
    (valuesOf k l).Perm (valuesOf k l') :=
  (h.filter _).map _

/-- Keeping the entries of some keys keeps all values of these keys. -/
theorem valuesOf_filter (k : κ) (l : List (Entry κ ν)) (p : κ → Bool) :
    valuesOf k (l.filter fun e => p e.key) = if p k then valuesOf k l else [] := by
  induction l with
  | nil => simp [valuesOf]
  | cons e l ih =>
    rw [List.filter_cons]
    by_cases he : e.key = k
    · subst he
      by_cases hp : p e.key = true
      · simpa [hp, valuesOf_cons] using ih
      · simpa [hp, valuesOf_cons] using ih
    · by_cases hp : p e.key = true
      · simpa [hp, valuesOf_cons, he] using ih
      · simpa [hp, valuesOf_cons, he] using ih

theorem lookup_group (m : Groups κ ν) (l : List (Entry κ ν)) (k : κ) :
    (group m l).lookup k =
      if valuesOf k l = [] then m.lookup k
      else some ((m.lookup k).getD [] ++ valuesOf k l) := by
  induction l generalizing m with
  | nil => simp [group, valuesOf]
  | cons e l ih =>
    have hstep : group m (e :: l) = group (appendAt m e.key [e.value]) l := rfl
    rw [hstep, ih, lookup_appendAt, valuesOf_cons]
    by_cases he : k = e.key
    · subst he
      by_cases hnil : valuesOf e.key l = []
      · simp [hnil]
      · simp [hnil]
    · simp [he, Ne.symm he]

theorem grouped_group (l : List (Entry κ ν)) : Grouped l (group ∅ l) := by
  intro k
  rw [lookup_group]
  simp

theorem Grouped.mem_iff {l : List (Entry κ ν)} {m : Groups κ ν} (h : Grouped l m) (k : κ) :
    k ∈ m ↔ ∃ e ∈ l, e.key = k := by
  rw [← Finmap.lookup_isSome, h k]
  by_cases hnil : valuesOf k l = []
  · have hne := valuesOf_eq_nil.mp hnil
    simpa [hnil] using hne
  · have hex := mt valuesOf_eq_nil.mpr hnil
    push Not at hex
    simpa [hnil] using hex

theorem Grouped.lookup_getD {l : List (Entry κ ν)} {m : Groups κ ν} (h : Grouped l m) (k : κ) :
    (m.lookup k).getD [] = valuesOf k l := by
  rw [h k]
  by_cases hnil : valuesOf k l = []
  · simp [hnil]
  · simp [hnil]

theorem lookup_foldl_appendAt (tmp : Groups κ ν) (order : List κ) (hnodup : order.Nodup)
    (m : Groups κ ν) (k : κ) :
    (merge m tmp order).lookup k =
      if k ∈ order then some ((m.lookup k).getD [] ++ (tmp.lookup k).getD [])
      else m.lookup k := by
  induction order generalizing m with
  | nil => simp [merge]
  | cons k' order ih =>
    obtain ⟨hnot, hrest⟩ := List.nodup_cons.mp hnodup
    have hstep : merge m tmp (k' :: order) =
        merge (appendAt m k' ((tmp.lookup k').getD [])) tmp order := rfl
    rw [hstep, ih hrest, lookup_appendAt]
    by_cases hk : k = k'
    · subst hk
      simp [hnot]
    · simp [hk]

/-- Merging in the groups of more entries gives the groups of all of them. -/
theorem Grouped.merge {l l' : List (Entry κ ν)} {m tmp : Groups κ ν} (h : Grouped l m)
    (h' : Grouped l' tmp) {order : List κ} (hr : Ranges tmp order) :
    Grouped (l ++ l') (merge m tmp order) := by
  intro k
  rw [lookup_foldl_appendAt tmp order hr.nodup, h.lookup_getD, h'.lookup_getD, valuesOf_append]
  have hmem : k ∈ order ↔ valuesOf k l' ≠ [] := by
    rw [hr.mem_iff, h'.mem_iff, Ne, valuesOf_eq_nil]
    push Not
    rfl
  by_cases hk : k ∈ order
  · simp [hk, hmem.mp hk]
  · have hnil : valuesOf k l' = [] := by
      by_contra hne
      exact hk (hmem.mpr hne)
    rw [if_neg hk, h k, hnil, List.append_nil]

end DistributedLabs.Grouping
