import DistributedLabs.Loads
import Mathlib.Algebra.Order.BigOperators.Group.Finset
import Mathlib.Order.Bounds.Basic

/-!
Balancing by greedy moves. Items outside the groups are placed one by one in a least
loaded group, then items are shifted from a most to a least loaded group. A group
that has gained stays within one of every load and one that has lost has at most one
less than any other, so no group does both, and the result moves as few items as any
balanced assignment.
-/
namespace DistributedLabs.Loads

variable {σ γ : Type*} [Fintype σ] [DecidableEq γ] {G : Finset γ} {f f' a : σ → γ} {g : γ}

/-- The loads of any two groups differ by at most one. -/
def Balanced (G : Finset γ) (f : σ → γ) : Prop := ∀ g ∈ G, ∀ h ∈ G, load f g ≤ load f h + 1

instance (G : Finset γ) (f : σ → γ) : Decidable (Balanced G f) :=
  inferInstanceAs (Decidable (∀ g ∈ G, ∀ h ∈ G, load f g ≤ load f h + 1))

def Gains (f f' : σ → γ) (g : γ) : Prop := ∃ s, f s ≠ g ∧ f' s = g

def Loses (f f' : σ → γ) (g : γ) : Prop := ∃ s, f s = g ∧ f' s ≠ g

omit [Fintype σ] [DecidableEq γ] in
theorem gains_iff_loses_swap : Gains f f' g ↔ Loses f' f g :=
  exists_congr fun _ => and_comm

/-- The items that leave a group of `G`. -/
def moved (G : Finset γ) (f f' : σ → γ) : Finset σ :=
  Finset.univ.filter fun s => f s ∈ G ∧ f' s ≠ f s

/-- The items of `g` that leave it. -/
def leaving (f f' : σ → γ) (g : γ) : Finset σ := Finset.univ.filter fun s => f s = g ∧ f' s ≠ g

def staying (f f' : σ → γ) (g : γ) : Finset σ := Finset.univ.filter fun s => f s = g ∧ f' s = g

theorem load_eq_staying_add (f f' : σ → γ) (g : γ) :
    load f g = (staying f f' g).card + (leaving f f' g).card := by
  unfold load staying leaving
  rw [← Finset.card_filter_add_card_filter_not (fun s => f' s = g), Finset.filter_filter,
    Finset.filter_filter]

theorem staying_comm (f f' : σ → γ) (g : γ) : staying f f' g = staying f' f g := by
  unfold staying
  simp only [and_comm]

theorem leaving_eq_empty (hloses : ¬ Loses f f' g) : leaving f f' g = ∅ := by
  unfold leaving
  rw [Finset.filter_eq_empty_iff]
  intro s _ hs
  exact hloses ⟨s, hs⟩

theorem leaving_swap_eq_empty (hgains : ¬ Gains f f' g) : leaving f' f g = ∅ :=
  leaving_eq_empty (gains_iff_loses_swap.not.mp hgains)

theorem load_sub_le_card_leaving (f f' : σ → γ) (g : γ) :
    load f g - load f' g ≤ (leaving f f' g).card := by
  rw [load_eq_staying_add f f' g, load_eq_staying_add f' f g, staying_comm f' f g]
  omega

theorem loses_of_load_lt (hlt : load f' g < load f g) : Loses f f' g := by
  by_contra hloses
  rw [load_eq_staying_add f f' g, load_eq_staying_add f' f g, staying_comm f' f g,
    leaving_eq_empty hloses, Finset.card_empty] at hlt
  omega

theorem gains_of_lt_load (hlt : load f g < load f' g) : Gains f f' g :=
  gains_iff_loses_swap.mpr (loses_of_load_lt hlt)

theorem load_lt_of_loses (hloses : Loses f f' g) (hgains : ¬ Gains f f' g) :
    load f' g < load f g := by
  obtain ⟨s, hs⟩ := hloses
  have hpos : 0 < (leaving f f' g).card :=
    Finset.card_pos.mpr ⟨s, Finset.mem_filter.mpr ⟨Finset.mem_univ s, hs⟩⟩
  rw [load_eq_staying_add f f' g, load_eq_staying_add f' f g, staying_comm f' f g,
    leaving_swap_eq_empty hgains, Finset.card_empty]
  omega

theorem lt_load_of_gains (hgains : Gains f f' g) (hloses : ¬ Loses f f' g) :
    load f g < load f' g :=
  load_lt_of_loses (gains_iff_loses_swap.mp hgains) (mt gains_iff_loses_swap.mp hloses)

theorem sum_load (hinto : ∀ s, f s ∈ G) : ∑ g ∈ G, load f g = Fintype.card σ :=
  (Finset.card_eq_sum_card_fiberwise fun s _ => hinto s).symm

theorem card_moved (G : Finset γ) (f f' : σ → γ) :
    (moved G f f').card = ∑ g ∈ G, (leaving f f' g).card := by
  rw [Finset.card_eq_sum_card_fiberwise (f := f) (t := G)
    (fun s hs => (Finset.mem_filter.mp hs).2.1)]
  apply Finset.sum_congr rfl
  intro g hg
  congr 1
  ext s
  simp only [moved, leaving, Finset.mem_filter, Finset.mem_univ, true_and]
  constructor
  · rintro ⟨⟨-, hne⟩, rfl⟩
    exact ⟨rfl, hne⟩
  · rintro ⟨rfl, hne⟩
    exact ⟨⟨hg, hne⟩, rfl⟩

/-- How far a redistribution has come: who has gained is among the least loaded, up to
one, and who has lost among the most loaded. -/
structure Fair (G : Finset γ) (f f' : σ → γ) : Prop where
  gains_le : ∀ g ∈ G, Gains f f' g → ∀ h ∈ G, load f' g ≤ load f' h + 1
  le_loses : ∀ g ∈ G, Loses f f' g → ∀ h ∈ G, load f' h ≤ load f' g + 1
  gains_le_loses : ∀ g ∈ G, ∀ h ∈ G, Gains f f' g → Loses f f' h → load f' g ≤ load f' h
  apart : ∀ g ∈ G, Gains f f' g → ¬ Loses f f' g

theorem Fair.card_leaving (hfair : Fair G f f') (hg : g ∈ G) :
    (leaving f f' g).card = load f g - load f' g := by
  rw [load_eq_staying_add f f' g, load_eq_staying_add f' f g, staying_comm f' f g]
  by_cases hgains : Gains f f' g
  · rw [leaving_eq_empty (hfair.apart g hg hgains), Finset.card_empty]
    omega
  · rw [leaving_swap_eq_empty hgains, Finset.card_empty]
    omega

/-- Measured by the loads alone, a balanced assignment takes at least as much away. -/
theorem Fair.sum_sub_le (hfair : Fair G f f') (hinto : ∀ s, f' s ∈ G) (ha : ∀ s, a s ∈ G)
    (hbal : Balanced G a) :
    ∑ g ∈ G, (load f g - load f' g) ≤ ∑ g ∈ G, (load f g - load a g) := by
  by_cases hall : ∀ g ∈ G, load f g - load f' g ≤ load f g - load a g
  · exact Finset.sum_le_sum hall
  · -- some group lost more than it would under `a`, so no group that `a` gives less has gained
    push Not at hall
    obtain ⟨g, hg, hlt⟩ := hall
    have hpoint : ∀ h ∈ G,
        (load f h - load f' h) + load f' h ≤ (load f h - load a h) + load a h := by
      intro h hh
      by_cases hover : load a h < load f' h ∧ load f h < load f' h
      · have hloses : Loses f f' g := loses_of_load_lt (by omega)
        have hgains : Gains f f' h := gains_of_lt_load hover.2
        have hle := hfair.gains_le_loses h hh g hg hgains hloses
        have hnear := hbal g hg h hh
        omega
      · omega
    have hsum := Finset.sum_le_sum hpoint
    rw [Finset.sum_add_distrib, Finset.sum_add_distrib, sum_load hinto, sum_load ha] at hsum
    omega

/-- A fair redistribution moves as few items as any balanced one. -/
theorem Fair.card_moved_le (hfair : Fair G f f') (hinto : ∀ s, f' s ∈ G) (ha : ∀ s, a s ∈ G)
    (hbal : Balanced G a) : (moved G f f').card ≤ (moved G f a).card := by
  calc (moved G f f').card = ∑ g ∈ G, (load f g - load f' g) := by
        rw [card_moved]
        exact Finset.sum_congr rfl fun g hg => hfair.card_leaving hg
    _ ≤ ∑ g ∈ G, (load f g - load a g) := hfair.sum_sub_le hinto ha hbal
    _ ≤ ∑ g ∈ G, (leaving f a g).card :=
        Finset.sum_le_sum fun g _ => load_sub_le_card_leaving f a g
    _ = (moved G f a).card := (card_moved G f a).symm

/-- No item moves between two groups whose loads were balanced before. -/
theorem Fair.eq_of_balanced {K : Finset γ} (hfair : Fair G f f') (hK : K ⊆ G)
    (hbal : Balanced K f) {s : σ} (hs : f s ∈ K) (hs' : f' s ∈ K) : f' s = f s := by
  by_contra hne
  have hgains : Gains f f' (f' s) := ⟨s, Ne.symm hne, rfl⟩
  have hloses : Loses f f' (f s) := ⟨s, rfl, hne⟩
  have hup := lt_load_of_gains hgains (hfair.apart _ (hK hs') hgains)
  have hdown := load_lt_of_loses hloses fun h => hfair.apart _ (hK hs) h hloses
  have hle := hfair.gains_le_loses _ (hK hs') _ (hK hs) hgains hloses
  have hnear := hbal _ hs _ hs'
  omega

/-- The first phase: the items of the groups stay, the others are placed. -/
structure Placing (G : Finset γ) (f f' : σ → γ) : Prop where
  kept : ∀ s, f s ∈ G → f' s = f s
  gains_le : ∀ g ∈ G, Gains f f' g → ∀ h ∈ G, load f' g ≤ load f' h + 1

theorem Placing.refl (G : Finset γ) (f : σ → γ) : Placing G f f where
  kept _ _ := rfl
  gains_le g _ hgains := by
    obtain ⟨s, hne, heq⟩ := hgains
    exact absurd heq hne

theorem Placing.fair (hp : Placing G f f') : Fair G f f' := by
  have hnone : ∀ g ∈ G, ¬ Loses f f' g := by
    rintro g hg ⟨s, rfl, hne⟩
    exact hne (hp.kept s hg)
  exact ⟨hp.gains_le, fun g hg hloses => absurd hloses (hnone g hg),
    fun _ _ h hh _ hloses => absurd hloses (hnone h hh), fun g hg _ => hnone g hg⟩

variable [DecidableEq σ]

theorem load_update_add (f : σ → γ) (s : σ) (g h : γ) :
    load (Function.update f s g) h + (if f s = h then 1 else 0) =
      load f h + if g = h then 1 else 0 := by
  rw [load_eq_others (Function.update f s g) s h, others_update, Function.update_self,
    load_eq_others f s h]
  omega

/-- Placing an item in a least loaded group. -/
theorem Placing.place (hp : Placing G f f') {s : σ} (hs : f' s ∉ G)
    (hmin : ∀ h ∈ G, load f' g ≤ load f' h) : Placing G f (Function.update f' s g) := by
  have hload : ∀ h ∈ G, load (Function.update f' s g) h = load f' h + if g = h then 1 else 0 := by
    intro h hh
    have hne : f' s ≠ h := fun heq => hs (heq ▸ hh)
    have hadd := load_update_add f' s g h
    rwa [if_neg hne, Nat.add_zero] at hadd
  refine ⟨?_, ?_⟩
  · intro t ht
    have hts : t ≠ s := by
      rintro rfl
      exact hs ((hp.kept t ht).symm ▸ ht)
    rw [Function.update_of_ne hts]
    exact hp.kept t ht
  · rintro k hk ⟨t, hne, heq⟩ h hh
    rw [hload k hk, hload h hh]
    by_cases hkg : g = k
    · have := hmin h hh
      subst hkg
      split <;> split <;> omega
    · have hts : t ≠ s := by
        rintro rfl
        exact hkg (by simpa using heq)
      rw [Function.update_of_ne hts] at heq
      have := hp.gains_le k hk ⟨t, hne, heq⟩ h hh
      rw [if_neg hkg]
      omega

section Shift

variable {s : σ} {l k : γ}

omit [Fintype σ] [DecidableEq γ] in
theorem gains_update (h : Gains f (Function.update f' s l) k) : k = l ∨ Gains f f' k := by
  obtain ⟨t, hne, heq⟩ := h
  by_cases hts : t = s
  · subst hts
    exact Or.inl (by simpa using heq.symm)
  · exact Or.inr ⟨t, hne, by simpa [hts] using heq⟩

omit [Fintype σ] [DecidableEq γ] in
theorem loses_update (hs : f s = f' s) (h : Loses f (Function.update f' s l) k) :
    k = f' s ∨ Loses f f' k := by
  obtain ⟨t, heq, hne⟩ := h
  by_cases hts : t = s
  · subst hts
    exact Or.inl (heq.symm.trans hs)
  · exact Or.inr ⟨t, heq, by simpa [hts] using hne⟩

/-- With a gap of two or more, no load falls below the least one before the shift. -/
theorem le_load_update (hgap : load f' l + 2 ≤ load f' (f' s)) (hmin : load f' l ≤ load f' k) :
    load f' l ≤ load (Function.update f' s l) k := by
  have hadd := load_update_add f' s l k
  by_cases hk : f' s = k
  · rw [if_pos hk] at hadd
    rw [hk] at hgap
    omega
  · rw [if_neg hk] at hadd
    omega

theorem load_update_le (hgap : load f' l + 2 ≤ load f' (f' s))
    (hmax : load f' k ≤ load f' (f' s)) :
    load (Function.update f' s l) k ≤ load f' (f' s) := by
  have hadd := load_update_add f' s l k
  by_cases hk : l = k
  · rw [if_pos hk] at hadd
    rw [hk] at hgap
    omega
  · rw [if_neg hk] at hadd
    omega

/-- Shifting an item from a most to a least loaded group, two apart or more. -/
theorem Fair.shift (hfair : Fair G f f') (hs : f' s ∈ G) (hl : l ∈ G)
    (hmax : ∀ h ∈ G, load f' h ≤ load f' (f' s)) (hmin : ∀ h ∈ G, load f' l ≤ load f' h)
    (hgap : load f' l + 2 ≤ load f' (f' s)) : Fair G f (Function.update f' s l) := by
  have hnotgained : ¬ Gains f f' (f' s) := by
    intro hgains
    have hle := hfair.gains_le _ hs hgains l hl
    omega
  have hnotlost : ¬ Loses f f' l := by
    intro hloses
    have hle := hfair.le_loses l hl hloses _ hs
    omega
  have horigin : f s = f' s := by
    by_contra hne
    exact hnotgained ⟨s, hne, rfl⟩
  -- who has gained is at most one above the old minimum, who has lost at most one below
  -- the old maximum, and these two are two apart
  have hup : ∀ k ∈ G, Gains f (Function.update f' s l) k →
      load (Function.update f' s l) k ≤ load f' l + 1 := by
    intro k hk hgk
    have hadd := load_update_add f' s l k
    by_cases hlk : l = k
    · subst hlk
      rw [if_pos rfl] at hadd
      omega
    · have hold := (gains_update hgk).resolve_left (Ne.symm hlk)
      have hle := hfair.gains_le k hk hold l hl
      rw [if_neg hlk] at hadd
      omega
  have hdown : ∀ k ∈ G, Loses f (Function.update f' s l) k →
      load f' (f' s) ≤ load (Function.update f' s l) k + 1 := by
    intro k hk hlk
    have hadd := load_update_add f' s l k
    by_cases hmk : f' s = k
    · rw [if_pos hmk] at hadd
      rw [hmk]
      omega
    · have hold := (loses_update horigin hlk).resolve_left (Ne.symm hmk)
      have hle := hfair.le_loses k hk hold _ hs
      rw [if_neg hmk] at hadd
      omega
  refine ⟨?_, ?_, ?_, ?_⟩
  · intro k hk hgk h hh
    have hk' := hup k hk hgk
    have hh' := le_load_update hgap (hmin h hh)
    omega
  · intro k hk hlk h hh
    have hk' := hdown k hk hlk
    have hh' := load_update_le hgap (hmax h hh)
    omega
  · intro k hk h hh hgk hlh
    have hk' := hup k hk hgk
    have hh' := hdown h hh hlh
    omega
  · intro k hk hgk hlk
    rcases gains_update hgk with rfl | hold
    · rcases loses_update horigin hlk with heq | hold
      · rw [heq] at hgap
        omega
      · exact hnotlost hold
    · rcases loses_update horigin hlk with rfl | hold'
      · exact hnotgained hold
      · exact hfair.apart k hk hold hold'

end Shift

end DistributedLabs.Loads
