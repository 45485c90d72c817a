import DistributedLabs.ShardConfigOrder

/-!
Calls that are refused. Join and Leave change the groups one by one and return false at
the first group they cannot add or remove, with the groups before it added or removed.
So a refused call leaves the configuration as it was exactly when the group refused is
the first one visited.
-/
namespace DistributedLabs.Shardcfg

open Grouping

variable {it : Iteration Tgid String} {cfg cfg' : ShardConfig} {joining : Groups Tgid String}

theorem joinLoop_refused {n : ℕ} {rest : List Tgid} {changed : Bool}
    (h : joinLoop it joining n rest changed cfg = .ret false cfg') :
    cfg'.num = cfg.num ∧ cfg'.shards = cfg.shards ∧ ∀ g ∈ cfg.groups, g ∈ cfg'.groups := by
  induction rest generalizing n changed cfg with
  | nil =>
    rw [joinLoop] at h
    split at h <;> cases h
  | cons gid rest ih =>
    rw [joinLoop] at h
    split at h
    · cases h
      exact ⟨rfl, rfl, fun _ hg => hg⟩
    · split at h
      · cases h
      · obtain ⟨hnum, hshards, hgroups⟩ := ih h
        exact ⟨hnum, hshards, fun g hg => hgroups g (Finmap.mem_insert.mpr (Or.inr hg))⟩

theorem leaveLoop_refused {gids : List Tgid} {changed : Bool}
    (h : leaveLoop gids changed cfg = .ret false cfg') :
    cfg'.num = cfg.num ∧ cfg'.shards = cfg.shards ∧ ∀ g ∈ cfg'.groups, g ∈ cfg.groups := by
  induction gids generalizing changed cfg with
  | nil =>
    rw [leaveLoop] at h
    split at h <;> cases h
  | cons gid rest ih =>
    rw [leaveLoop] at h
    split at h
    · obtain ⟨hnum, hshards, hgroups⟩ := ih h
      exact ⟨hnum, hshards, fun g hg => (Finmap.mem_erase.mp (hgroups g hg)).2⟩
    · cases h
      exact ⟨rfl, rfl, fun _ hg => hg⟩

theorem join_refused_intact_iff (h : join it cfg joining = .ret false cfg') :
    cfg' = cfg ↔ ∃ gid ∈ (it.order 0 joining).head?, gid ∈ cfg.groups := by
  unfold join at h
  cases horder : it.order 0 joining with
  | nil =>
    rw [horder] at h
    cases h
  | cons gid rest =>
    rw [horder, joinLoop] at h
    by_cases hin : gid ∈ cfg.groups
    · rw [if_pos hin] at h
      cases h
      simpa using hin
    · rw [if_neg hin] at h
      split at h
      · cases h
      · -- the first group has joined, and no later step takes it out again
        have hadded := (joinLoop_refused h).2.2 gid (Finmap.mem_insert.mpr (Or.inl rfl))
        simp only [List.head?_cons, Option.mem_some_iff, exists_eq_left', hin, iff_false]
        rintro rfl
        exact hin hadded

theorem leave_refused_intact_iff {gids : List Tgid} (h : leave cfg gids = .ret false cfg') :
    cfg' = cfg ↔ ∃ gid ∈ gids.head?, gid ∉ cfg.groups := by
  unfold leave at h
  cases gids with
  | nil => cases h
  | cons gid rest =>
    rw [leaveLoop] at h
    by_cases hin : gid ∈ cfg.groups
    · rw [if_pos hin] at h
      have hgone : gid ∉ cfg'.groups := by
        intro hin'
        exact (Finmap.mem_erase.mp ((leaveLoop_refused h).2.2 gid hin')).1 rfl
      simp only [List.head?_cons, Option.mem_some_iff, exists_eq_left', not_true_eq_false, hin,
        iff_false]
      rintro rfl
      exact hgone hin
    · rw [if_neg hin] at h
      cases h
      simpa using hin

theorem refused_of_rebalanced {n : ℕ} {o : Outcome}
    (h : o.rebalanced it n = .ret false cfg') : o = .ret false cfg' := by
  cases o with
  | ret ok cfg =>
    cases ok with
    | true => cases h
    | false => exact h
  | fatal why => cases h

/-- A call that returns false leaves the number and the shards alone, and the groups
exactly when it is the first group visited that is refused. -/
theorem refused_intact_iff (it : Iteration Tgid String) (cfg cfg' : ShardConfig) :
    (∀ joining, join it cfg joining = .ret false cfg' ∨
        joinBalance it cfg joining = .ret false cfg' →
      cfg'.num = cfg.num ∧ cfg'.shards = cfg.shards ∧
        (cfg' = cfg ↔ ∃ gid ∈ (it.order 0 joining).head?, gid ∈ cfg.groups)) ∧
    ∀ gids, leave cfg gids = .ret false cfg' ∨ leaveBalance it cfg gids = .ret false cfg' →
      cfg'.num = cfg.num ∧ cfg'.shards = cfg.shards ∧
        (cfg' = cfg ↔ ∃ gid ∈ gids.head?, gid ∉ cfg.groups) := by
  constructor
  · intro joining h
    have hjoin : join it cfg joining = .ret false cfg' := h.elim id refused_of_rebalanced
    obtain ⟨hnum, hshards, -⟩ := joinLoop_refused hjoin
    exact ⟨hnum, hshards, join_refused_intact_iff hjoin⟩
  · intro gids h
    have hleave : leave cfg gids = .ret false cfg' := h.elim id refused_of_rebalanced
    obtain ⟨hnum, hshards, -⟩ := leaveLoop_refused hleave
    exact ⟨hnum, hshards, leave_refused_intact_iff hleave⟩

theorem refused_intact_iff_unknownGroup :
    leave onlyGroupOne [99] = .ret false onlyGroupOne ∧
      ∃ gid ∈ [(99 : Tgid)].head?, gid ∉ onlyGroupOne.groups := by
  have hnot : ¬ (99 : Tgid) ∈ onlyGroupOne.groups := by decide
  have hleave : leave onlyGroupOne [99] = .ret false onlyGroupOne := by
    simp only [leave, leaveLoop, hnot, if_false]
  obtain ⟨-, -, hiff⟩ :=
    (refused_intact_iff descendingGids onlyGroupOne onlyGroupOne).2 [99] (Or.inl hleave)
  exact ⟨hleave, hiff.mp rfl⟩

/-- Group 2 together with group 1, which is there already. -/
def groupsOneTwo : Groups Tgid String :=
  Finmap.insert 2 ["server-2-0"] (Finmap.singleton (1 : Tgid) ["server-1-1"])

/-- Group 2 joins before group 1 is refused; group 1 leaves before group 99 is. -/
theorem refused_not_intact :
    (∃ cfg', join descendingGids onlyGroupOne groupsOneTwo = .ret false cfg' ∧
      joinBalance descendingGids onlyGroupOne groupsOneTwo = .ret false cfg' ∧
      cfg'.groups ≠ onlyGroupOne.groups) ∧
    ∃ cfg', leave onlyGroupOne [1, 99] = .ret false cfg' ∧
      leaveBalance descendingGids onlyGroupOne [1, 99] = .ret false cfg' ∧
      cfg'.groups ≠ onlyGroupOne.groups := by
  constructor
  · have horder : descendingGids.order 0 groupsOneTwo = [2, 1] := by
      have hkeys : groupsOneTwo.keys = insert 2 {1} := by decide
      change groupsOneTwo.keys.sort (· ≥ ·) = [2, 1]
      rw [hkeys, Finset.sort_insert _ (by decide) (by decide), Finset.sort_singleton]
    have hnew : ¬ (2 : Tgid) ∈ onlyGroupOne.groups := by decide
    have hapart : overlap onlyGroupOne.groups (descendingGids.order 1 onlyGroupOne.groups)
        (servers groupsOneTwo 2) = none := by decide +kernel
    have hthere : (1 : Tgid) ∈ onlyGroupOne.groups.insert 2 (servers groupsOneTwo 2) := by decide
    have hjoin : join descendingGids onlyGroupOne groupsOneTwo = .ret false
        { onlyGroupOne with
          groups := onlyGroupOne.groups.insert 2 (servers groupsOneTwo 2) } := by
      simp only [join, horder, joinLoop, hnew, hapart, hthere, if_true, if_false]
    refine ⟨_, hjoin, by rw [joinBalance, hjoin]; rfl, ?_⟩
    intro heq
    exact hnew (heq ▸ Finmap.mem_insert.mpr (Or.inl rfl))
  · have hthere : (1 : Tgid) ∈ onlyGroupOne.groups := by decide
    have hother : ¬ (99 : Tgid) ∈ onlyGroupOne.groups.erase 1 := by decide
    have hleave : leave onlyGroupOne [1, 99] = .ret false
        { onlyGroupOne with groups := onlyGroupOne.groups.erase 1 } := by
      simp only [leave, leaveLoop, hthere, hother, if_true, if_false]
    refine ⟨_, hleave, by rw [leaveBalance, hleave]; rfl, ?_⟩
    intro heq
    have hgone : (1 : Tgid) ∉ onlyGroupOne.groups.erase 1 := by decide
    exact hgone (heq ▸ hthere)

end DistributedLabs.Shardcfg
