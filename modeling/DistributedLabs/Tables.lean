import Mathlib.Data.List.Count
import Mathlib.Data.List.Induction
import Mathlib.Data.List.Nodup
import Mathlib.Data.List.Perm.Subperm
import Mathlib.Logic.Function.Basic

/-!
Append-only tables and point updates, as used by every system whose state keeps
a log. An entry of a table is never changed, so facts about an index survive
appending, and an entry of the longer table is an old one or the new last one.
-/
namespace DistributedLabs.Tables

variable {α β : Type*}

theorem update_eq_some [DecidableEq α] {f : α → Option β} {a b : α} {v : Option β} {x : β}
    (h : Function.update f a v b = some x) :
    (b = a ∧ v = some x) ∨ (b ≠ a ∧ f b = some x) := by
  by_cases hab : b = a
  · subst hab
    exact Or.inl ⟨rfl, by simpa using h⟩
  · exact Or.inr ⟨hab, by simpa [hab] using h⟩

theorem update_of_ne_eq_some [DecidableEq α] {f : α → Option β} {a b : α} {v : Option β} {x : β}
    (hne : b ≠ a) (h : f b = some x) : Function.update f a v b = some x := by
  rw [Function.update_of_ne hne, h]

/-- An entry with a property is still there after an update that keeps the property. -/
theorem exists_update_of_exists [DecidableEq α] {f : α → Option β} {a b : α} {y : β}
    {P : β → Prop} (h : ∃ x, f b = some x ∧ P x) (hself : ∀ x, f a = some x → P x → P y) :
    ∃ x, Function.update f a (some y) b = some x ∧ P x := by
  obtain ⟨x, hx, hP⟩ := h
  by_cases hab : b = a
  · subst hab
    exact ⟨y, Function.update_self .., hself x hx hP⟩
  · exact ⟨x, update_of_ne_eq_some hab hx, hP⟩

theorem getElem?_lt {l : List α} {i : ℕ} {x : α} (h : l[i]? = some x) : i < l.length :=
  (List.getElem?_eq_some_iff.mp h).1

theorem getElem?_append_of_some {l : List α} {i : ℕ} {x : α} (l' : List α)
    (h : l[i]? = some x) : (l ++ l')[i]? = some x := by
  rw [List.getElem?_append_left (getElem?_lt h)]
  exact h

theorem getElem?_concat_cases {l : List α} {a x : α} {i : ℕ}
    (h : (l ++ [a])[i]? = some x) : l[i]? = some x ∨ (i = l.length ∧ x = a) := by
  have hlt : i < l.length + 1 := by simpa using getElem?_lt h
  by_cases hi : i < l.length
  · left
    rwa [List.getElem?_append_left hi] at h
  · right
    have hlen : i = l.length := by omega
    subst hlen
    exact ⟨rfl, by simpa using h.symm⟩

theorem getElem?_concat_of_lt {l : List α} {a x : α} {i : ℕ} (hi : i < l.length)
    (h : (l ++ [a])[i]? = some x) : l[i]? = some x := by
  rwa [List.getElem?_append_left hi] at h

/-- Distinct indices whose entries satisfy a predicate are no more numerous
than the entries that do. -/
theorem length_le_countP_of_nodup {p : α → Bool} {l : List α} {idx : List ℕ}
    (hnd : idx.Nodup) (hidx : ∀ i ∈ idx, ∃ x, l[i]? = some x ∧ p x = true) :
    idx.length ≤ l.countP p := by
  induction l using List.reverseRecOn generalizing idx with
  | nil =>
    cases idx with
    | nil => simp
    | cons i idx =>
      obtain ⟨x, hx, _⟩ := hidx i (by simp)
      simp at hx
  | append_singleton l a ih =>
    have hrest : (idx.erase l.length).length ≤ l.countP p := by
      apply ih (hnd.erase _)
      intro i hi
      obtain ⟨hne, hmem⟩ := (List.Nodup.mem_erase_iff hnd).mp hi
      obtain ⟨x, hx, hpx⟩ := hidx i hmem
      rcases getElem?_concat_cases hx with hold | ⟨hlen, _⟩
      · exact ⟨x, hold, hpx⟩
      · exact absurd hlen hne
    rw [List.countP_append]
    by_cases hmem : l.length ∈ idx
    · obtain ⟨x, hx, hpx⟩ := hidx _ hmem
      obtain rfl : a = x := by simpa using hx
      have hlen := List.length_erase_of_mem hmem
      have hpos := List.length_pos_of_mem hmem
      simp only [List.countP_singleton, hpx, if_true]
      omega
    · rw [List.erase_of_not_mem hmem] at hrest
      omega

/-- Two positions of a list that satisfy a predicate counted at most once agree. -/
theorem index_unique_of_countP_le_one {p : α → Bool} {l : List α} (hp : l.countP p ≤ 1)
    {i j : ℕ} {x y : α} (hi : l[i]? = some x) (hj : l[j]? = some y)
    (hx : p x = true) (hy : p y = true) : i = j := by
  by_contra hne
  have hnd : [i, j].Nodup := by simpa using hne
  have htwo : 2 ≤ l.countP p := by
    refine length_le_countP_of_nodup hnd ?_
    intro k hk
    rcases List.mem_pair.mp hk with rfl | rfl
    · exact ⟨x, hi, hx⟩
    · exact ⟨y, hj, hy⟩
  omega

/-- Taking one entry out of a bag. -/
theorem countP_erase_add [DecidableEq α] (p : α → Bool) {l : List α} {a : α} (h : a ∈ l) :
    (l.erase a).countP p + (if p a then 1 else 0) = l.countP p := by
  rw [(List.perm_cons_erase h).countP_eq p, List.countP_cons]

/-- Replacing a counted entry by one that does not count. -/
theorem countP_set_of_pos {p : α → Bool} {l : List α} {i : ℕ} {a b : α} (h : l[i]? = some a)
    (ha : p a = true) (hb : p b = false) : (l.set i b).countP p + 1 = l.countP p := by
  obtain ⟨hi, hget⟩ := List.getElem?_eq_some_iff.mp h
  have hpos : 0 < l.countP p :=
    List.countP_pos_iff.mpr ⟨a, List.mem_of_getElem? h, ha⟩
  rw [List.countP_set hi, hget, ha, hb]
  simp only [if_true, Bool.false_eq_true, if_false]
  omega

/-- A weaker predicate that an entry satisfies on its own counts one more. -/
theorem countP_succ_le {p q : α → Bool} {l : List α} {a : α} (ha : a ∈ l)
    (hpq : ∀ x ∈ l, p x = true → q x = true) (hpa : p a = false) (hqa : q a = true) :
    l.countP p + 1 ≤ l.countP q := by
  obtain ⟨l₁, l₂, rfl⟩ := List.append_of_mem ha
  have h₁ := List.countP_mono_left (l := l₁) fun x hx => hpq x (by simp [hx])
  have h₂ := List.countP_mono_left (l := l₂) fun x hx => hpq x (by simp [hx])
  simp only [List.countP_append, List.countP_cons, hpa, hqa, Bool.false_eq_true, if_false,
    if_true]
  omega

theorem getElem?_set_cases {l : List α} {i j : ℕ} {b x : α} (h : (l.set i b)[j]? = some x) :
    (j = i ∧ x = b) ∨ (j ≠ i ∧ l[j]? = some x) := by
  by_cases hij : j = i
  · left
    subst hij
    have hlt : j < l.length := by simpa using getElem?_lt h
    rw [List.getElem?_set_self hlt] at h
    exact ⟨rfl, (Option.some.inj h).symm⟩
  · right
    rw [List.getElem?_set_ne (Ne.symm hij)] at h
    exact ⟨hij, h⟩

theorem mem_set_cases {l : List α} {i : ℕ} {b x : α} (h : x ∈ l.set i b) : x = b ∨ x ∈ l := by
  obtain ⟨j, hj⟩ := List.mem_iff_getElem?.mp h
  rcases getElem?_set_cases hj with ⟨_, hx⟩ | ⟨_, hx⟩
  · exact Or.inl hx
  · exact Or.inr (List.mem_of_getElem? hx)

end DistributedLabs.Tables
