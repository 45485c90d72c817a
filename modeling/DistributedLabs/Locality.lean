import Mathlib.Data.List.Dedup
import Mathlib.Data.List.Perm.Basic
import Mathlib.Data.List.Sort
import Mathlib.Order.MinMax

/-!
Locality of linearizability. Operations have a call and a return time and belong to
classes. An order of each class that respects time gives each operation a point between
its call and its return: the latest call up to it. Sorting all operations by their
points, in a stable way, merges the orders of the classes into one that respects time.
-/
namespace DistributedLabs.Locality

variable {α κ τ : Type*} [LinearOrder τ]

/-- No operation stands before one that returned before it was called. -/
def Respects (call ret : α → τ) (order : List α) : Prop :=
  order.Pairwise fun a b => ¬ ret b < call a

/-- An order of the operations that respects time and is legal. -/
def Linearizable (call ret : α → τ) (legal : List α → Prop) (ops : List α) : Prop :=
  ∃ order, order.Perm ops ∧ Respects call ret order ∧ legal order

/-- The points of an order, none before `m`. -/
def pointsFrom (call : α → τ) (m : τ) : List α → List (τ × α)
  | [] => []
  | a :: l => (max m (call a), a) :: pointsFrom call (max m (call a)) l

def points (call : α → τ) : List α → List (τ × α)
  | [] => []
  | a :: l => pointsFrom call (call a) (a :: l)

section Points

variable (call : α → τ)

theorem pointsFrom_map (m : τ) (l : List α) : (pointsFrom call m l).map Prod.snd = l := by
  induction l generalizing m with
  | nil => rfl
  | cons a l ih => rw [pointsFrom, List.map_cons, ih]

theorem points_map (l : List α) : (points call l).map Prod.snd = l := by
  cases l with
  | nil => rfl
  | cons a l => exact pointsFrom_map call (call a) (a :: l)

theorem le_pointsFrom (m : τ) (l : List α) : ∀ x ∈ pointsFrom call m l, m ≤ x.1 := by
  induction l generalizing m with
  | nil => simp [pointsFrom]
  | cons a l ih =>
    intro x hx
    rcases List.mem_cons.mp hx with rfl | hrest
    · exact le_max_left _ _
    · exact (le_max_left _ _).trans (ih (max m (call a)) x hrest)

theorem pointsFrom_sorted (m : τ) (l : List α) :
    (pointsFrom call m l).Pairwise fun x y => x.1 ≤ y.1 := by
  induction l generalizing m with
  | nil => exact List.Pairwise.nil
  | cons a l ih => exact List.Pairwise.cons (le_pointsFrom call _ l) (ih _)

theorem points_sorted (l : List α) : (points call l).Pairwise fun x y => x.1 ≤ y.1 := by
  cases l with
  | nil => exact List.Pairwise.nil
  | cons a l => exact pointsFrom_sorted call (call a) (a :: l)

theorem call_le_pointsFrom (m : τ) (l : List α) : ∀ x ∈ pointsFrom call m l, call x.2 ≤ x.1 := by
  induction l generalizing m with
  | nil => simp [pointsFrom]
  | cons a l ih =>
    intro x hx
    rcases List.mem_cons.mp hx with rfl | hrest
    · exact le_max_right _ _
    · exact ih _ x hrest

theorem pointsFrom_le_ret {ret : α → τ} (m : τ) {l : List α} (hwf : ∀ a ∈ l, call a ≤ ret a)
    (hm : ∀ a ∈ l, m ≤ ret a) (htime : Respects call ret l) :
    ∀ x ∈ pointsFrom call m l, x.1 ≤ ret x.2 := by
  induction l generalizing m with
  | nil => simp [pointsFrom]
  | cons a l ih =>
    obtain ⟨hhead, htail⟩ := List.pairwise_cons.mp htime
    intro x hx
    rcases List.mem_cons.mp hx with rfl | hrest
    · exact max_le (hm a (List.mem_cons_self ..)) (hwf a (List.mem_cons_self ..))
    · refine ih (max m (call a)) (fun b hb => hwf b (List.mem_cons_of_mem _ hb)) ?_ htail x hrest
      intro b hb
      exact max_le (hm b (List.mem_cons_of_mem _ hb)) (not_lt.mp (hhead b hb))

theorem points_inside {ret : α → τ} {l : List α} (hwf : ∀ a ∈ l, call a ≤ ret a)
    (htime : Respects call ret l) :
    ∀ x ∈ points call l, call x.2 ≤ x.1 ∧ x.1 ≤ ret x.2 := by
  cases l with
  | nil => simp [points]
  | cons a l =>
    intro x hx
    refine ⟨call_le_pointsFrom call _ _ x hx, pointsFrom_le_ret call _ hwf ?_ htime x hx⟩
    intro b hb
    rcases List.mem_cons.mp hb with rfl | hrest
    · exact hwf b hb
    · exact not_lt.mp ((List.pairwise_cons.mp htime).1 b hrest)

end Points

section Merge

/-- All operations of the classes, sorted by their points. -/
def merged (call : α → τ) (keys : List κ) (order : κ → List α) : List (τ × α) :=
  (keys.flatMap fun k => points call (order k)).insertionSort fun x y => x.1 ≤ y.1

variable {call : α → τ} {keys : List κ} {order : κ → List α}

theorem merged_perm :
    (merged call keys order).Perm (keys.flatMap fun k => points call (order k)) :=
  List.perm_insertionSort _ _

theorem merged_map_perm :
    ((merged call keys order).map Prod.snd).Perm (keys.flatMap order) := by
  have hmap : (keys.flatMap fun k => points call (order k)).map Prod.snd = keys.flatMap order := by
    rw [List.map_flatMap]
    simp only [points_map]
  rw [← hmap]
  exact merged_perm.map Prod.snd

theorem merged_respects {ret : α → τ} (hwf : ∀ k ∈ keys, ∀ a ∈ order k, call a ≤ ret a)
    (htime : ∀ k ∈ keys, Respects call ret (order k)) :
    Respects call ret ((merged call keys order).map Prod.snd) := by
  have hinside : ∀ x ∈ merged call keys order, call x.2 ≤ x.1 ∧ x.1 ≤ ret x.2 := by
    intro x hx
    obtain ⟨k, hk, hmem⟩ := List.mem_flatMap.mp (merged_perm.mem_iff.mp hx)
    exact points_inside call (hwf k hk) (htime k hk) x hmem
  have hsorted : (merged call keys order).Pairwise fun x y => x.1 ≤ y.1 :=
    List.pairwise_insertionSort _ _
  rw [Respects, List.pairwise_map]
  refine hsorted.imp_of_mem ?_
  intro x y hx hy hle hlt
  exact absurd ((hinside y hy).2.trans_lt (hlt.trans_le (hinside x hx).1)) (not_lt.mpr hle)

variable [DecidableEq κ] {key : α → κ}

/-- The operations, class by class. -/
theorem flatMap_classes_perm {keys : List κ} (hnodup : keys.Nodup) {ops : List α}
    (hkeys : ∀ a ∈ ops, key a ∈ keys) :
    (keys.flatMap fun k => ops.filter fun a => key a = k).Perm ops := by
  induction keys generalizing ops with
  | nil =>
    have hnil : ops = [] := List.eq_nil_iff_forall_not_mem.mpr fun a ha =>
      List.not_mem_nil (hkeys a ha)
    rw [hnil]
    exact List.Perm.nil
  | cons k keys ih =>
    obtain ⟨hk, hrest⟩ := List.nodup_cons.mp hnodup
    have hsplit := List.filter_append_perm (fun a => decide (key a = k)) ops
    have hothers : ∀ a ∈ ops.filter (fun a => !decide (key a = k)), key a ∈ keys := by
      intro a ha
      obtain ⟨hmem, hne⟩ := List.mem_filter.mp ha
      exact (List.mem_cons.mp (hkeys a hmem)).resolve_left (by simpa using hne)
    have hsame : (keys.flatMap fun k' => ops.filter fun a => key a = k') =
        keys.flatMap fun k' => (ops.filter fun a => !decide (key a = k)).filter
          fun a => key a = k' := by
      apply List.flatMap_congr
      intro k' hk'
      rw [List.filter_filter]
      apply List.filter_congr
      intro a _
      have hne : k' ≠ k := fun heq => hk (heq ▸ hk')
      by_cases ha : key a = k'
      · simp [ha, hne]
      · simp [ha]
    rw [List.flatMap_cons, hsame]
    exact ((ih hrest hothers).append_left _).trans hsplit

theorem filter_flatMap_class (hnodup : keys.Nodup) (hclass : ∀ k, ∀ a ∈ order k, key a = k)
    {k : κ} (hk : k ∈ keys) :
    (keys.flatMap order).filter (fun a => key a = k) = order k := by
  have hself : (order k).filter (fun a => key a = k) = order k :=
    List.filter_eq_self.mpr fun a ha => decide_eq_true (hclass k a ha)
  have hother : ∀ ks : List κ, k ∉ ks → (ks.flatMap order).filter (fun a => key a = k) = [] := by
    intro ks hks
    rw [List.filter_eq_nil_iff]
    intro a ha
    obtain ⟨k', hk', hmem⟩ := List.mem_flatMap.mp ha
    rw [hclass k' a hmem]
    simp only [decide_eq_true_eq]
    rintro rfl
    exact hks hk'
  obtain ⟨pre, suf, rfl⟩ := List.append_of_mem hk
  have hrest : k ∉ pre ++ suf := (List.nodup_cons.mp (List.nodup_middle.mp hnodup)).1
  rw [List.mem_append, not_or] at hrest
  rw [List.flatMap_append, List.flatMap_cons, List.filter_append, List.filter_append,
    hother pre hrest.1, hother suf hrest.2, hself, List.nil_append, List.append_nil]

/-- The merged order keeps the order of each class. -/
theorem merged_filter (hnodup : keys.Nodup) (hclass : ∀ k, ∀ a ∈ order k, key a = k) {k : κ}
    (hk : k ∈ keys) :
    ((merged call keys order).map Prod.snd).filter (fun a => key a = k) = order k := by
  have hin : (points call (order k)).Sublist (keys.flatMap fun k => points call (order k)) := by
    obtain ⟨pre, suf, rfl⟩ := List.append_of_mem hk
    rw [List.flatMap_append, List.flatMap_cons]
    exact (List.sublist_append_left _ _).trans (List.sublist_append_right _ _)
  -- the sort is stable, so the points of the class stay in order
  have hsub : (points call (order k)).Sublist (merged call keys order) :=
    List.sublist_insertionSort (points_sorted call (order k)) hin
  have hkept : (order k).Sublist
      (((merged call keys order).map Prod.snd).filter fun a => key a = k) := by
    have hfilter := (hsub.map Prod.snd).filter fun a => decide (key a = k)
    rw [points_map, List.filter_eq_self.mpr fun a ha => decide_eq_true (hclass k a ha)] at hfilter
    exact hfilter
  have hperm : (((merged call keys order).map Prod.snd).filter fun a => key a = k).Perm
      ((keys.flatMap order).filter fun a => key a = k) := merged_map_perm.filter _
  rw [filter_flatMap_class hnodup hclass hk] at hperm
  exact (hkept.eq_of_length hperm.length_eq.symm).symm

end Merge

/-- A history is linearizable with every class legal on its own, if and only if each of its
classes is linearizable. -/
theorem linearizable_iff_classes [DecidableEq κ] (call ret : α → τ) (key : α → κ)
    {legal : κ → List α → Prop} (hempty : ∀ k, legal k []) {ops : List α}
    (hwf : ∀ a ∈ ops, call a ≤ ret a) :
    Linearizable call ret (fun order => ∀ k, legal k (order.filter fun a => key a = k)) ops ↔
      ∀ k, Linearizable call ret (legal k) (ops.filter fun a => key a = k) := by
  constructor
  · rintro ⟨order, hperm, htime, hlegal⟩ k
    exact ⟨order.filter fun a => key a = k, hperm.filter _, htime.filter _, hlegal k⟩
  · intro h
    choose order hperm htime hlegal using h
    have hclass : ∀ k, ∀ a ∈ order k, key a = k := fun k a ha =>
      of_decide_eq_true (List.mem_filter.mp ((hperm k).mem_iff.mp ha)).2
    have hmem : ∀ k, ∀ a ∈ order k, a ∈ ops := fun k a ha =>
      (List.mem_filter.mp ((hperm k).mem_iff.mp ha)).1
    have hnodup : (ops.map key).dedup.Nodup := List.nodup_dedup _
    have hall : ((merged call (ops.map key).dedup order).map Prod.snd).Perm ops := by
      refine merged_map_perm.trans ((List.Perm.flatMap_left _ fun k _ => hperm k).trans ?_)
      exact flatMap_classes_perm hnodup fun a ha => List.mem_dedup.mpr (List.mem_map_of_mem ha)
    refine ⟨_, hall, ?_, ?_⟩
    · exact merged_respects (fun k _ a ha => hwf a (hmem k a ha)) fun k _ => htime k
    · intro k
      by_cases hk : k ∈ (ops.map key).dedup
      · rw [merged_filter hnodup hclass hk]
        exact hlegal k
      · have hnone : ((merged call (ops.map key).dedup order).map Prod.snd).filter
            (fun a => key a = k) = [] := by
          rw [List.filter_eq_nil_iff]
          intro a ha
          simp only [decide_eq_true_eq]
          rintro rfl
          exact hk (List.mem_dedup.mpr (List.mem_map_of_mem (hall.mem_iff.mp ha)))
        rw [hnone]
        exact hempty k

end DistributedLabs.Locality
