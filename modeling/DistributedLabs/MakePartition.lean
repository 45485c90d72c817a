import DistributedLabs.ServerGrpPartition
import Mathlib.Algebra.Ring.Parity
import Mathlib.Data.Fintype.Card
import Mathlib.Data.List.Range

/-!
MakePartition splits the servers of a group for a partition that leaves the leader
in a minority. Both lists are made at their full length, then one running index
fills them, first list first, with all servers but the leader, who takes the last
place of the second list. With an odd number of servers every place is written.
With an even number one place too many was made, and it keeps its zero.
-/
namespace DistributedLabs.Tester

/-- The lists of MakePartition and its running index. -/
structure Halves where
  p1 : List ℕ
  p2 : List ℕ
  j : ℕ

/-- The assignment `p[j] = x`, which panics out of range. -/
def store (p : List ℕ) (j x : ℕ) : Option (List ℕ) :=
  if j < p.length then some (p.set j x) else none

/-- One round of the loop of MakePartition. -/
def place (l : ℕ) (h : Halves) (i : ℕ) : Option Halves :=
  if i ≠ l then
    if h.j < h.p1.length then
      (store h.p1 h.j i).map fun p1 => { h with p1 := p1, j := h.j + 1 }
    else
      (store h.p2 (h.j - h.p1.length) i).map fun p2 => { h with p2 := p2, j := h.j + 1 }
  else some h

/-- MakePartition for a group of n servers. -/
def makePartition (n l : ℕ) : Option (List ℕ × List ℕ) :=
  ((List.range n).foldlM (place l)
      ⟨List.replicate (n / 2 + 1) 0, List.replicate (n / 2) 0, 0⟩).bind fun h =>
    (store h.p2 (h.p2.length - 1) l).map fun p2 => (h.p1, p2)

/-- The servers `done` have been written, in this order, to the places of both
lists; `m` is the length of the first list and `N` that of both. -/
structure Filled (m N : ℕ) (done : List ℕ) (h : Halves) : Prop where
  length : h.p1.length = m
  places : h.p1 ++ h.p2 = done ++ List.replicate (N - done.length) 0
  next : h.j = done.length

variable {m N l : ℕ} {done : List ℕ} {h : Halves}

theorem set_next_place (done : List ℕ) (x : ℕ) (hN : done.length < N) :
    (done ++ List.replicate (N - done.length) 0).set done.length x =
      (done ++ [x]) ++ List.replicate (N - (done ++ [x]).length) 0 := by
  obtain ⟨k, hk⟩ : ∃ k, N - done.length = k + 1 := ⟨N - done.length - 1, by omega⟩
  have hk' : N - (done ++ [x]).length = k := by
    rw [List.length_append, List.length_singleton]
    omega
  rw [hk, hk', List.set_append_right _ _ (Nat.le_refl _), Nat.sub_self, List.replicate_succ,
    List.set_cons_zero, List.append_assoc, List.singleton_append]

theorem Filled.place (hf : Filled m N done h) (hN : done.length < N) {i : ℕ} (hi : i ≠ l) :
    ∃ h', Tester.place l h i = some h' ∧ Filled m N (done ++ [i]) h' := by
  have hplaces := congrArg List.length hf.places
  simp only [List.length_append, List.length_replicate] at hplaces
  have hset := set_next_place done i hN
  rw [← hf.places, ← hf.next] at hset
  have hnext : h.j + 1 = (done ++ [i]).length := by
    rw [List.length_append, List.length_singleton, hf.next]
  rw [Tester.place, if_pos hi]
  by_cases hj : h.j < h.p1.length
  · rw [if_pos hj, store, if_pos hj]
    refine ⟨_, rfl, ?_, ?_, hnext⟩
    · exact (List.length_set ..).trans hf.length
    · rw [← hset, List.set_append_left _ _ hj]
  · have hroom : h.j - h.p1.length < h.p2.length := by
      have := hf.next
      omega
    rw [if_neg hj, store, if_pos hroom]
    refine ⟨_, rfl, hf.length, ?_, hnext⟩
    rw [← hset, List.set_append_right _ _ (Nat.not_lt.mp hj)]

theorem Filled.foldlM (hf : Filled m N done h) {is : List ℕ}
    (hN : done.length + (is.filter (· ≠ l)).length ≤ N) :
    ∃ h', is.foldlM (Tester.place l) h = some h' ∧ Filled m N (done ++ is.filter (· ≠ l)) h' := by
  induction is generalizing done h with
  | nil => exact ⟨h, rfl, by simpa using hf⟩
  | cons i is ih =>
    rw [List.foldlM_cons]
    by_cases hi : i = l
    · have hplace : Tester.place l h i = some h := by rw [Tester.place, if_neg (not_not.mpr hi)]
      have hfilter : (i :: is).filter (· ≠ l) = is.filter (· ≠ l) :=
        List.filter_cons_of_neg (by simp [hi])
      rw [hfilter] at hN ⊢
      rw [hplace]
      exact ih hf hN
    · have hfilter : (i :: is).filter (· ≠ l) = i :: is.filter (· ≠ l) :=
        List.filter_cons_of_pos (by simp [hi])
      rw [hfilter] at hN ⊢
      rw [List.length_cons] at hN
      obtain ⟨h₁, hplace, hf₁⟩ := hf.place (by omega) hi
      rw [hplace]
      obtain ⟨h', hrest, hf'⟩ := ih hf₁ (by rw [List.length_append, List.length_singleton]; omega)
      refine ⟨h', hrest, ?_⟩
      rw [List.append_assoc, List.singleton_append] at hf'
      exact hf'

/-- The servers other than the leader, in order. -/
def others (n l : ℕ) : List ℕ := (List.range n).filter (· ≠ l)

theorem mem_others {n i : ℕ} : i ∈ others n l ↔ i < n ∧ i ≠ l := by
  simp [others]

theorem nodup_others (n l : ℕ) : (others n l).Nodup := List.nodup_range.filter _

theorem length_others {n : ℕ} (hl : l < n) : (others n l).length = n - 1 := by
  have herase : others n l = (List.range n).erase l := by
    rw [List.nodup_range.erase_eq_filter]
    simp [others, bne, Bool.beq_eq_decide_eq]
  rw [herase, List.length_erase_of_mem (List.mem_range.mpr hl), List.length_range]

theorem set_last_place (others : List ℕ) (k x : ℕ) :
    (others ++ List.replicate (k + 1) 0).set (others.length + k) x =
      others ++ List.replicate k 0 ++ [x] := by
  rw [List.replicate_succ', ← List.append_assoc, List.set_append_right _ _ (by simp)]
  simp

/-- Besides all servers MakePartition returns one zero too many if n is even. -/
theorem makePartition_eq {n : ℕ} (hn : 2 ≤ n) (hl : l < n) :
    ∃ p1 p2, makePartition n l = some (p1, p2) ∧ p1.length = n / 2 + 1 ∧ p2.length = n / 2 ∧
      l ∈ p2 ∧ p1 ++ p2 = others n l ++ List.replicate ((n + 1) % 2) 0 ++ [l] := by
  have hstart : Filled (n / 2 + 1) (n / 2 + 1 + n / 2) []
      ⟨List.replicate (n / 2 + 1) 0, List.replicate (n / 2) 0, 0⟩ :=
    ⟨List.length_replicate, List.replicate_append_replicate, rfl⟩
  have hlength := length_others hl
  have hroom : ([] : List ℕ).length + ((List.range n).filter (· ≠ l)).length ≤
      n / 2 + 1 + n / 2 := by
    rw [← others, hlength, List.length_nil]
    omega
  obtain ⟨h, hloop, hf⟩ := hstart.foldlM hroom
  rw [List.nil_append, ← others] at hf
  have hspare : n / 2 + 1 + n / 2 - (others n l).length = (n + 1) % 2 + 1 := by
    rw [hlength]
    omega
  have hplaces := hf.places
  rw [hspare] at hplaces
  have hp2 : h.p2.length = n / 2 := by
    have htotal := congrArg List.length hplaces
    rw [List.length_append, List.length_append, List.length_replicate, hf.length, hlength] at htotal
    omega
  have hlast : h.p2.length - 1 < h.p2.length := by omega
  refine ⟨h.p1, h.p2.set (h.p2.length - 1) l, ?_, hf.length, ?_, ?_, ?_⟩
  · rw [makePartition, hloop, Option.bind_some, store, if_pos hlast]
    rfl
  · rw [List.length_set, hp2]
  · exact List.mem_set hlast l
  · have hindex : h.p1.length + (h.p2.length - 1) = (others n l).length + (n + 1) % 2 := by
      rw [hf.length, hp2, hlength]
      omega
    have hset := set_last_place (others n l) ((n + 1) % 2) l
    rw [← hplaces, ← hindex, List.set_append_right _ _ (Nat.le_add_right ..),
      Nat.add_sub_cancel_left] at hset
    exact hset

/-- With an odd number of servers the lists hold every server once. -/
theorem makePartition_of_odd {n : ℕ} (hn : 2 ≤ n) (hodd : Odd n) (hl : l < n) :
    ∃ p1 p2, makePartition n l = some (p1, p2) ∧ p1.length = n / 2 + 1 ∧ p2.length = n / 2 ∧
      l ∈ p2 ∧ (p1 ++ p2).Nodup ∧ ∀ i, i ∈ p1 ++ p2 ↔ i < n := by
  obtain ⟨p1, p2, hmake, hlen₁, hlen₂, hleader, hplaces⟩ := makePartition_eq hn hl
  have hspare : (n + 1) % 2 = 0 := by
    rw [Nat.odd_iff] at hodd
    omega
  rw [hspare, List.replicate_zero, List.append_nil] at hplaces
  refine ⟨p1, p2, hmake, hlen₁, hlen₂, hleader, ?_, ?_⟩
  · rw [hplaces]
    refine List.nodup_append'.mpr ⟨nodup_others n l, List.nodup_singleton l, ?_⟩
    rw [List.disjoint_singleton]
    exact fun hmem => (mem_others.mp hmem).2 rfl
  · intro i
    rw [hplaces, List.mem_append, mem_others, List.mem_singleton]
    by_cases hi : i = l
    · simp [hi, hl]
    · simp [hi]

/-- With an even number of servers the spare zero is a server that is there already. -/
theorem not_nodup_of_even {n : ℕ} (hn : 2 ≤ n) (heven : ¬ Odd n) (hl : l < n)
    {p1 p2 : List ℕ} (hmake : makePartition n l = some (p1, p2)) : ¬ (p1 ++ p2).Nodup := by
  intro hnodup
  obtain ⟨q1, q2, hmake', _, _, _, hplaces⟩ := makePartition_eq hn hl
  have hspare : (n + 1) % 2 = 1 := by
    rw [Nat.not_odd_iff_even, Nat.even_iff] at heven
    omega
  cases hmake.symm.trans hmake'
  rw [hplaces, hspare, List.replicate_one, List.append_assoc] at hnodup
  obtain ⟨_, hlast, hdisjoint⟩ := List.nodup_append'.mp hnodup
  have hl0 : 0 ≠ l := by simpa using hlast
  exact hdisjoint (mem_others.mpr ⟨by omega, hl0⟩) (by simp)

/-- What the lists are for: every server is in exactly one of them, and the leader is
in the shorter one. -/
structure IsolatesLeader (n l : ℕ) (p1 p2 : List ℕ) : Prop where
  nodup₁ : p1.Nodup
  nodup₂ : p2.Nodup
  disjoint : p1.Disjoint p2
  cover : ∀ i < n, i ∈ p1 ∨ i ∈ p2
  leader : l ∈ p2
  shorter : p2.length < p1.length

theorem makePartition_isolates_iff (n l : ℕ) (hn : 3 ≤ n) (hl : l < n) :
    ∃ p1 p2, makePartition n l = some (p1, p2) ∧ (IsolatesLeader n l p1 p2 ↔ Odd n) := by
  have hn' : 2 ≤ n := by omega
  by_cases hodd : Odd n
  · obtain ⟨p1, p2, hmake, hlen₁, hlen₂, hleader, hnodup, hmem⟩ :=
      makePartition_of_odd hn' hodd hl
    obtain ⟨hnodup₁, hnodup₂, hdisjoint⟩ := List.nodup_append'.mp hnodup
    have hcover : ∀ i < n, i ∈ p1 ∨ i ∈ p2 :=
      fun i hi => List.mem_append.mp ((hmem i).mpr hi)
    have hisolates : IsolatesLeader n l p1 p2 :=
      ⟨hnodup₁, hnodup₂, hdisjoint, hcover, hleader, by omega⟩
    exact ⟨p1, p2, hmake, iff_of_true hisolates hodd⟩
  · obtain ⟨p1, p2, hmake, _⟩ := makePartition_eq hn' hl
    refine ⟨p1, p2, hmake, iff_of_false ?_ hodd⟩
    intro h
    exact not_nodup_of_even hn' hodd hl hmake
      (List.nodup_append'.mpr ⟨h.nodup₁, h.nodup₂, h.disjoint⟩)

theorem makePartition_isolates_three :
    ∃ p1 p2, makePartition 3 1 = some (p1, p2) ∧ IsolatesLeader 3 1 p1 p2 := by
  obtain ⟨p1, p2, hmake, hiff⟩ := makePartition_isolates_iff 3 1 (by decide) (by decide)
  exact ⟨p1, p2, hmake, hiff.mpr (by decide)⟩

/-- Server 0 is in both lists. -/
theorem makePartition_four : makePartition 4 3 = some ([0, 1, 2], [0, 3]) ∧
    ¬ IsolatesLeader 4 3 [0, 1, 2] [0, 3] := by
  refine ⟨by decide, fun h => ?_⟩
  exact h.disjoint (List.mem_cons_self ..) (List.mem_cons_self ..)

section Partition

open Transition

variable {n : ℕ} {ω π : Type*} {sg : ServerGrp n ω π}

/-- Partitioned by MakePartition, an odd group leaves its leader with a minority. -/
theorem leader_in_minority (h : calls.Reachable sg) (hn : 2 ≤ n) (hodd : Odd n) (l : Fin n) :
    ∃ p1 p2 : List (Fin n),
      makePartition n l = some (p1.map Fin.val, p2.map Fin.val) ∧
      2 * (Finset.univ.filter fun j => (sg.partition p1 p2).linked l j = true).card < n := by
  obtain ⟨q1, q2, hmake, _, hlen₂, hleader, hnodup, hmem⟩ :=
    makePartition_of_odd hn hodd l.isLt
  have hq1 : ∀ i ∈ q1, i < n := fun i hi => (hmem i).mp (List.mem_append_left _ hi)
  have hq2 : ∀ i ∈ q2, i < n := fun i hi => (hmem i).mp (List.mem_append_right _ hi)
  lift q1 to List (Fin n) using hq1 with p1
  lift q2 to List (Fin n) using hq2 with p2
  refine ⟨p1, p2, hmake, ?_⟩
  rw [← List.map_append] at hnodup hmem
  have hnodup' : (p1 ++ p2).Nodup := hnodup.of_map _
  have hcover : ∀ i, i ∈ p1 ++ p2 := by
    intro i
    obtain ⟨i', hi', heq⟩ := List.mem_map.mp ((hmem i).mpr i.isLt)
    exact Fin.val_injective heq ▸ hi'
  have hl2 : l ∈ p2 := by
    obtain ⟨l', hl', heq⟩ := List.mem_map.mp hleader
    exact Fin.val_injective heq ▸ hl'
  have hl1 : l ∉ p1 := fun hl => List.disjoint_of_nodup_append hnodup' hl hl2
  have hlinked : (Finset.univ.filter fun j => (sg.partition p1 p2).linked l j = true) ⊆
      p2.toFinset := by
    intro j hj
    have hsame := ((named_of_reachable h).partition_linked_iff hnodup' hcover l j).mp
      (Finset.mem_filter.mp hj).2
    rw [List.mem_toFinset]
    exact (hsame.resolve_left fun hp1 => hl1 hp1.1).2
  have hcard := (Finset.card_le_card hlinked).trans p2.toFinset_card_le
  rw [List.length_map] at hlen₂
  rw [Nat.odd_iff] at hodd
  omega

end Partition

end DistributedLabs.Tester
