import Mathlib.Algebra.BigOperators.Group.Finset.Piecewise
import Mathlib.Data.Fintype.Card

/-!
Assignments of finitely many items to groups. The load of a group is the number
of its items, and the energy of an assignment the number of pairs of items with
the same group. Moving an item to a group whose load is lower by two or more
lowers the energy, so such moves come to an end.
-/
namespace DistributedLabs.Loads

variable {σ γ : Type*} [Fintype σ] [DecidableEq γ]

def load (f : σ → γ) (g : γ) : ℕ := (Finset.univ.filter fun s => f s = g).card

def energy (f : σ → γ) : ℕ := ∑ s, load f (f s)

theorem load_le_card (f : σ → γ) (g : γ) : load f g ≤ Fintype.card σ :=
  Finset.card_le_univ _

theorem load_pos_iff {f : σ → γ} {g : γ} : 0 < load f g ↔ ∃ s, f s = g := by
  simp [load, Finset.card_pos, Finset.filter_nonempty_iff]

variable [DecidableEq σ]

/-- The items of a group other than a given one. -/
def others (f : σ → γ) (s : σ) (g : γ) : ℕ :=
  ((Finset.univ.erase s).filter fun t => f t = g).card

theorem load_eq_others (f : σ → γ) (s : σ) (g : γ) :
    load f g = others f s g + if f s = g then 1 else 0 := by
  unfold load others
  rw [← Finset.insert_erase (Finset.mem_univ s), Finset.filter_insert]
  split
  · rw [Finset.card_insert_of_notMem (by simp), Finset.erase_insert_eq_erase,
      Finset.erase_idem]
  · simp

theorem others_update (f : σ → γ) (s : σ) (g g' : γ) :
    others (Function.update f s g) s g' = others f s g' := by
  unfold others
  congr 1
  apply Finset.filter_congr
  intro t ht
  rw [Function.update_of_ne (Finset.ne_of_mem_erase ht)]

/-- The pairs without a given item, and those with it. -/
theorem energy_eq (f : σ → γ) (s : σ) :
    energy f = (∑ t ∈ Finset.univ.erase s, others f s (f t)) + 2 * others f s (f s) + 1 := by
  have hpairs : ∑ t ∈ Finset.univ.erase s, (if f s = f t then 1 else 0) = others f s (f s) := by
    unfold others
    rw [Finset.card_filter]
    simp only [eq_comm]
  have hrest : ∑ t ∈ Finset.univ.erase s, load f (f t) =
      (∑ t ∈ Finset.univ.erase s, others f s (f t)) + others f s (f s) := by
    rw [← hpairs, ← Finset.sum_add_distrib]
    apply Finset.sum_congr rfl
    intro t _
    exact load_eq_others f s (f t)
  have hself := load_eq_others f s (f s)
  rw [if_pos rfl] at hself
  rw [energy, ← Finset.add_sum_erase _ _ (Finset.mem_univ s), hrest, hself]
  omega

theorem energy_update_lt (f : σ → γ) (s : σ) (g : γ) (h : load f g + 2 ≤ load f (f s)) :
    energy (Function.update f s g) < energy f := by
  have hne : f s ≠ g := by
    intro heq
    rw [heq] at h
    omega
  have hfrom := load_eq_others f s (f s)
  have hto := load_eq_others f s g
  rw [if_pos rfl] at hfrom
  rw [if_neg hne] at hto
  have hsame : ∑ t ∈ Finset.univ.erase s,
      others (Function.update f s g) s (Function.update f s g t) =
        ∑ t ∈ Finset.univ.erase s, others f s (f t) := by
    apply Finset.sum_congr rfl
    intro t ht
    rw [others_update, Function.update_of_ne (Finset.ne_of_mem_erase ht)]
  rw [energy_eq f s, energy_eq (Function.update f s g) s, hsame, others_update,
    Function.update_self]
  omega

end DistributedLabs.Loads
