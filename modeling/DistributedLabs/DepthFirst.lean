import Mathlib.Algebra.BigOperators.Group.Finset.Basic
import Mathlib.Data.Fintype.Card
import Mathlib.Logic.Relation
import Mathlib.Tactic.Abel

/-!
Depth-first search that marks a vertex before it follows its edges and passes by
the vertices that are marked. Each edge carries a weight, such as lines to print,
that is added when the edge is reached. Since the marks stay from one search to
the next, the total is the weight of the marked vertices, each counted once and
up to the order, whatever cycles there are.
-/
namespace DistributedLabs.DepthFirst

variable {α M : Type*}

structure Search (α M : Type*) where
  seen : Finset α
  total : M

def Adj (edges : α → List (M × α)) (a b : α) : Prop := ∃ e ∈ edges a, e.2 = b

section Weights

variable [AddMonoid M]

def weigh : List (M × α) → M
  | [] => 0
  | e :: es => e.1 + weigh es

theorem weigh_weightless (roots : List α) : weigh (roots.map fun a => ((0 : M), a)) = 0 := by
  induction roots with
  | nil => rfl
  | cons a roots ih => rw [List.map_cons, weigh, ih, add_zero]

def Search.add (s : Search α M) (m : M) : Search α M := { s with total := s.total + m }

@[simp]
theorem Search.add_zero (s : Search α M) : s.add 0 = s := by
  simp [Search.add]

end Weights

variable [AddMonoid M] [DecidableEq α]

def Search.mark (s : Search α M) (a : α) : Search α M := { s with seen := insert a s.seen }

/-- The first argument bounds the depth of the calls. -/
def visit (edges : α → List (M × α)) : ℕ → α → Search α M → Option (Search α M)
  | 0, _, _ => none
  | fuel + 1, a, s =>
    if a ∈ s.seen then some s
    else (edges a).foldlM (fun s e => visit edges fuel e.2 (s.add e.1)) (s.mark a)

/-- The edges of a vertex, one after the other. -/
def follow (edges : α → List (M × α)) (fuel : ℕ) (es : List (M × α)) (s : Search α M) :
    Option (Search α M) :=
  es.foldlM (fun s e => visit edges fuel e.2 (s.add e.1)) s

/-- Searches from several vertices in turn. -/
def visitAll (edges : α → List (M × α)) (fuel : ℕ) (roots : List α) (s : Search α M) :
    Option (Search α M) :=
  roots.foldlM (fun s a => visit edges fuel a s) s

variable {edges : α → List (M × α)} {fuel : ℕ} {a : α} {s s' s'' : Search α M}

theorem visit_of_mem (h : a ∈ s.seen) : visit edges (fuel + 1) a s = some s := by
  rw [visit, if_pos h]

theorem visit_of_notMem (h : a ∉ s.seen) :
    visit edges (fuel + 1) a s = follow edges fuel (edges a) (s.mark a) := by
  rw [visit, if_neg h, follow]

theorem follow_cons (e : M × α) (es : List (M × α)) :
    follow edges fuel (e :: es) s =
      (visit edges fuel e.2 (s.add e.1)).bind (follow edges fuel es) := by
  rw [follow, List.foldlM_cons]
  rfl

theorem follow_weightless (a : α) : follow edges fuel [(0, a)] s = visit edges fuel a s := by
  rw [follow_cons, Search.add_zero]
  exact Option.bind_fun_some _

/-- Searches from several vertices follow weightless edges to them. -/
theorem visitAll_eq_follow (roots : List α) :
    visitAll edges fuel roots s = follow edges fuel (roots.map fun a => (0, a)) s := by
  simp only [visitAll, follow, List.foldlM_map, Search.add_zero]

section Explores

variable {N : Type*} [AddCommMonoid N] {φ : M →+ N}

/-- What a search does to the state: the vertices it marks have all their edges
followed when it returns, and each adds its weight. Vertices marked before need
not be finished. `extra` is what is added besides. -/
structure Explores (edges : α → List (M × α)) (φ : M →+ N) (extra : N) (s s' : Search α M) :
    Prop where
  subset : s.seen ⊆ s'.seen
  closed : ∀ b ∈ s'.seen, b ∉ s.seen → ∀ c, Adj edges b c → c ∈ s'.seen
  total : φ s'.total = φ s.total + extra + ∑ b ∈ s'.seen \ s.seen, φ (weigh (edges b))

theorem Explores.refl (s : Search α M) : Explores edges φ 0 s s where
  subset := Finset.Subset.refl _
  closed := fun _ hb hnot => absurd hb hnot
  total := by simp

theorem Explores.add (s : Search α M) (m : M) : Explores edges φ (φ m) s (s.add m) where
  subset := Finset.Subset.refl _
  closed := fun _ hb hnot => absurd hb hnot
  total := by simp [Search.add]

theorem Explores.trans {m m' : N} (h : Explores edges φ m s s') (h' : Explores edges φ m' s' s'') :
    Explores edges φ (m + m') s s'' where
  subset := h.subset.trans h'.subset
  closed := by
    intro b hb hnot c hc
    by_cases hmid : b ∈ s'.seen
    · exact h'.subset (h.closed b hmid hnot c hc)
    · exact h'.closed b hb hmid c hc
  total := by
    have hsplit : s''.seen \ s.seen = (s'.seen \ s.seen) ∪ (s''.seen \ s'.seen) := by
      ext b
      have h₁ := @h.subset b
      have h₂ := @h'.subset b
      simp only [Finset.mem_sdiff, Finset.mem_union]
      tauto
    have hdisjoint : Disjoint (s'.seen \ s.seen) (s''.seen \ s'.seen) :=
      Finset.disjoint_sdiff.mono_left Finset.sdiff_subset
    rw [hsplit, Finset.sum_union hdisjoint, h'.total, h.total]
    abel

/-- A vertex whose edges have been followed is finished with the search. -/
theorem Explores.of_mark (ha : a ∉ s.seen)
    (h : Explores edges φ (φ (weigh (edges a))) (s.mark a) s')
    (hedges : ∀ b, Adj edges a b → b ∈ s'.seen) : Explores edges φ 0 s s' where
  subset := (Finset.subset_insert a s.seen).trans h.subset
  closed := by
    intro b hb hnot c hc
    by_cases hba : b = a
    · exact hedges c (hba ▸ hc)
    · refine h.closed b hb ?_ c hc
      simp [Search.mark, hba, hnot]
  total := by
    have hmem : a ∈ s'.seen \ s.seen :=
      Finset.mem_sdiff.mpr ⟨h.subset (Finset.mem_insert_self a s.seen), ha⟩
    have herase : s'.seen \ insert a s.seen = (s'.seen \ s.seen).erase a :=
      Finset.sdiff_insert s'.seen s.seen a
    have htotal : φ s'.total = φ s.total + φ (weigh (edges a)) +
        ∑ b ∈ s'.seen \ insert a s.seen, φ (weigh (edges b)) := h.total
    rw [htotal, herase, ← Finset.add_sum_erase _ _ hmem]
    abel

/-- Following a list of edges explores, provided each search it makes does. -/
theorem follow_explores (φ : M →+ N) {es : List (M × α)}
    (hvisit : ∀ a s s', visit edges fuel a s = some s' → Explores edges φ 0 s s' ∧ a ∈ s'.seen)
    (h : follow edges fuel es s = some s') :
    Explores edges φ (φ (weigh es)) s s' ∧ ∀ e ∈ es, e.2 ∈ s'.seen := by
  induction es generalizing s with
  | nil =>
    cases h
    rw [weigh, map_zero]
    exact ⟨Explores.refl _, by simp⟩
  | cons e es ih =>
    rw [follow_cons] at h
    obtain ⟨t, ht, hrest⟩ := Option.bind_eq_some_iff.mp h
    obtain ⟨hfirst, hmem⟩ := hvisit _ _ _ ht
    obtain ⟨hlater, hall⟩ := ih hrest
    have hsofar := ((Explores.add s e.1).trans hfirst).trans hlater
    rw [add_zero, ← map_add] at hsofar
    refine ⟨hsofar, ?_⟩
    intro e' he'
    rcases List.mem_cons.mp he' with rfl | he'
    · exact hlater.subset hmem
    · exact hall e' he'

theorem visit_explores (φ : M →+ N) (h : visit edges fuel a s = some s') :
    Explores edges φ 0 s s' ∧ a ∈ s'.seen := by
  induction fuel generalizing a s s' with
  | zero => cases h
  | succ fuel ih =>
    by_cases ha : a ∈ s.seen
    · rw [visit_of_mem ha] at h
      cases h
      exact ⟨Explores.refl s, ha⟩
    · rw [visit_of_notMem ha] at h
      obtain ⟨hexplores, hedges⟩ := follow_explores φ (fun _ _ _ => ih) h
      have hadj : ∀ b, Adj edges a b → b ∈ s'.seen := by
        rintro b ⟨e, he, rfl⟩
        exact hedges e he
      exact ⟨hexplores.of_mark ha hadj, hexplores.subset (Finset.mem_insert_self a s.seen)⟩

theorem visitAll_explores (φ : M →+ N) {roots : List α}
    (h : visitAll edges fuel roots s = some s') :
    Explores edges φ 0 s s' ∧ ∀ a ∈ roots, a ∈ s'.seen := by
  rw [visitAll_eq_follow] at h
  obtain ⟨hexplores, hall⟩ := follow_explores φ (fun _ _ _ => visit_explores φ) h
  rw [weigh_weightless, map_zero] at hexplores
  exact ⟨hexplores, fun a ha => hall (0, a) (List.mem_map_of_mem ha)⟩

/-- A search only adds marks. -/
theorem visit_subset (h : visit edges fuel a s = some s') : s.seen ⊆ s'.seen :=
  (visit_explores (0 : M →+ ℕ) h).1.subset

end Explores

section Bounds

/-! A search marks nothing outside a set that the edges do not leave. -/

variable {P : α → Prop}

theorem follow_within {es : List (M × α)}
    (hvisit : ∀ a s s', P a → (∀ b ∈ s.seen, P b) → visit edges fuel a s = some s' →
      ∀ b ∈ s'.seen, P b)
    (hes : ∀ e ∈ es, P e.2) (hs : ∀ b ∈ s.seen, P b) (h : follow edges fuel es s = some s') :
    ∀ b ∈ s'.seen, P b := by
  induction es generalizing s with
  | nil =>
    cases h
    exact hs
  | cons e es ih =>
    rw [follow_cons] at h
    obtain ⟨t, ht, hrest⟩ := Option.bind_eq_some_iff.mp h
    have hmid := hvisit e.2 (s.add e.1) t (hes e (List.mem_cons_self ..)) hs ht
    exact ih (fun e' he' => hes e' (List.mem_cons_of_mem _ he')) hmid hrest

theorem visit_within (hP : ∀ a b, P a → Adj edges a b → P b) (ha : P a)
    (hs : ∀ b ∈ s.seen, P b) (h : visit edges fuel a s = some s') : ∀ b ∈ s'.seen, P b := by
  induction fuel generalizing a s s' with
  | zero => cases h
  | succ fuel ih =>
    by_cases hmem : a ∈ s.seen
    · rw [visit_of_mem hmem] at h
      cases h
      exact hs
    · rw [visit_of_notMem hmem] at h
      refine follow_within (fun _ _ _ => ih) (fun e he => hP a e.2 ha ⟨e, he, rfl⟩) ?_ h
      intro b hb
      rcases Finset.mem_insert.mp hb with rfl | hb
      · exact ha
      · exact hs b hb

theorem visitAll_within (hP : ∀ a b, P a → Adj edges a b → P b) {roots : List α}
    (hroots : ∀ a ∈ roots, P a) (hs : ∀ b ∈ s.seen, P b)
    (h : visitAll edges fuel roots s = some s') : ∀ b ∈ s'.seen, P b := by
  rw [visitAll_eq_follow] at h
  refine follow_within (fun _ _ _ => visit_within hP) ?_ hs h
  intro e he
  obtain ⟨a, ha, rfl⟩ := List.mem_map.mp he
  exact hroots a ha

end Bounds

/-- From no marks, searches mark exactly what the roots reach. -/
theorem mem_seen_iff {roots : List α} (hs : s.seen = ∅)
    (h : visitAll edges fuel roots s = some s') (b : α) :
    b ∈ s'.seen ↔ ∃ a ∈ roots, Relation.ReflTransGen (Adj edges) a b := by
  obtain ⟨hexplores, hroots⟩ := visitAll_explores (0 : M →+ ℕ) h
  constructor
  · refine visitAll_within (P := fun b => ∃ a ∈ roots, Relation.ReflTransGen (Adj edges) a b)
      ?_ ?_ ?_ h b
    · rintro b c ⟨a, ha, hab⟩ hbc
      exact ⟨a, ha, hab.tail hbc⟩
    · intro a ha
      exact ⟨a, ha, Relation.ReflTransGen.refl⟩
    · simp [hs]
  · rintro ⟨a, ha, hab⟩
    induction hab with
    | refl => exact hroots a ha
    | tail _ hbc ih => exact hexplores.closed _ ih (by simp [hs]) _ hbc

section Termination

variable [Fintype α]

/-- The vertices not marked yet bound the depth of the calls. -/
def unseen (s : Search α M) : ℕ := (s.seenᶜ).card

omit [AddMonoid M] in
theorem unseen_mono (h : s.seen ⊆ s'.seen) : unseen s' ≤ unseen s :=
  Finset.card_le_card (Finset.compl_subset_compl.mpr h)

omit [AddMonoid M] in
theorem unseen_mark (ha : a ∉ s.seen) : unseen (s.mark a) < unseen s := by
  refine Finset.card_lt_card (Finset.compl_ssubset_compl.mpr ?_)
  exact Finset.ssubset_insert ha

theorem follow_isSome {es : List (M × α)}
    (hvisit : ∀ a (s : Search α M), unseen s < fuel → (visit edges fuel a s).isSome)
    (hfuel : unseen s < fuel) : (follow edges fuel es s).isSome := by
  induction es generalizing s with
  | nil => rfl
  | cons e es ih =>
    obtain ⟨t, ht⟩ := Option.isSome_iff_exists.mp (hvisit e.2 (s.add e.1) hfuel)
    have hmono := unseen_mono (visit_subset ht)
    rw [follow_cons, ht, Option.bind_some]
    exact ih (hmono.trans_lt hfuel)

theorem visit_isSome (hfuel : unseen s < fuel) : (visit edges fuel a s).isSome := by
  induction fuel generalizing a s with
  | zero => exact absurd hfuel (Nat.not_lt_zero _)
  | succ fuel ih =>
    by_cases ha : a ∈ s.seen
    · rw [visit_of_mem ha]
      rfl
    · rw [visit_of_notMem ha]
      have hmark := unseen_mark ha
      exact follow_isSome (fun _ _ => ih) (by omega)

theorem visitAll_isSome (roots : List α) (hfuel : unseen s < fuel) :
    (visitAll edges fuel roots s).isSome := by
  rw [visitAll_eq_follow]
  exact follow_isSome (fun _ _ => visit_isSome) hfuel

end Termination

/-! More depth does not change a result. -/

theorem follow_succ {es : List (M × α)}
    (hvisit : ∀ a s s', visit edges fuel a s = some s' → visit edges (fuel + 1) a s = some s')
    (h : follow edges fuel es s = some s') : follow edges (fuel + 1) es s = some s' := by
  induction es generalizing s with
  | nil => exact h
  | cons e es ih =>
    rw [follow_cons] at h ⊢
    obtain ⟨t, ht, hrest⟩ := Option.bind_eq_some_iff.mp h
    rw [hvisit _ _ _ ht, Option.bind_some]
    exact ih hrest

theorem visit_succ (h : visit edges fuel a s = some s') :
    visit edges (fuel + 1) a s = some s' := by
  induction fuel generalizing a s s' with
  | zero => cases h
  | succ fuel ih =>
    by_cases ha : a ∈ s.seen
    · rw [visit_of_mem ha] at h ⊢
      exact h
    · rw [visit_of_notMem ha] at h ⊢
      exact follow_succ (fun _ _ _ => ih) h

theorem visitAll_mono {roots : List α} {fuel' : ℕ} (hle : fuel ≤ fuel')
    (h : visitAll edges fuel roots s = some s') : visitAll edges fuel' roots s = some s' := by
  induction hle with
  | refl => exact h
  | step _ ih =>
    rw [visitAll_eq_follow] at ih ⊢
    exact follow_succ (fun _ _ _ => visit_succ) ih

end DistributedLabs.DepthFirst
