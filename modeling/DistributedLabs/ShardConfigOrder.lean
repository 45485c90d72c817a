import DistributedLabs.ShardConfig
import Mathlib.Data.Finset.Sort

/-!
Reconfigurations do not depend on the orders in which maps are ranged over. The
analysis sorts the groups before it compares them, and a `join` that returns true adds
all of its groups: whether it does is a property of the two maps alone.
-/
namespace DistributedLabs.Shardcfg

open Grouping

theorem analyze_perm (c : ShardConfig) {order order' : List Tgid} (h : order.Perm order') :
    analyze c order = analyze c order' := by
  have hsort : order.insertionSort (· ≤ ·) = order'.insertionSort (· ≤ ·) := by
    apply List.Perm.eq_of_sortedLE List.sortedLE_insertionSort List.sortedLE_insertionSort
    exact ((List.perm_insertionSort _ _).trans h).trans (List.perm_insertionSort _ _).symm
  rw [analyze, hsort, analyze]

/-- Each range visits the groups from the highest gid down. -/
def descendingGids : Iteration Tgid String where
  order _ m := m.keys.sort (· ≥ ·)
  ranges _ m :=
    { nodup := Finset.sort_nodup ..
      mem_iff := fun k => by rw [Finset.mem_sort, Finmap.mem_keys] }

/-- A configuration in which group 1 has all shards. -/
def onlyGroupOne : ShardConfig := ⟨1, fun _ => 1, Finmap.singleton 1 ["server-1-0"]⟩

variable (it it' : Iteration Tgid String)

theorem analyze_order (n n' : ℕ) (c : ShardConfig) :
    analyze c (it.order n c.groups) = analyze c (it'.order n' c.groups) :=
  analyze_perm c ((it.ranges n c.groups).perm (it'.ranges n' c.groups))

theorem assignShard_order (n n' : ℕ) (c : ShardConfig) (s : Tshid) :
    assignShard it n c s = assignShard it' n' c s := by
  unfold assignShard least
  rw [analyze_order it it' (n + s) (n' + s) c]

theorem assignUnassigned_order (n n' : ℕ) (c : ShardConfig) :
    assignUnassigned it n c = assignUnassigned it' n' c := by
  unfold assignUnassigned
  congr 1
  funext c s
  exact assignShard_order it it' n n' c s

theorem balance_order (n n' : ℕ) (c : ShardConfig) :
    balance it n c = balance it' n' c := by
  induction n, c using balance.induct it generalizing n' with
  | case1 n c order hstop =>
    rw [balance_eq it n c rfl, balance_eq it' n' c (analyze_order it' it n' n c)]
    rw [if_pos hstop, if_pos hstop]
  | case2 n c order hgo ih =>
    rw [balance_eq it n c rfl, balance_eq it' n' c (analyze_order it' it n' n c)]
    rw [if_neg hgo, if_neg hgo]
    exact ih (n' + 1)

theorem rebalance_order (n n' : ℕ) (c : ShardConfig) :
    rebalance it n c = rebalance it' n' c := by
  unfold rebalance
  rw [assignUnassigned_order it it' n n' c, balance_order it it' (n + nShards) (n' + nShards)]

theorem overlap_eq_none {groups : Groups Tgid String} {order : List Tgid}
    (hr : Ranges groups order) (new : List String) :
    overlap groups order new = none ↔ ∀ xgid ∈ groups, (servers groups xgid).Disjoint new := by
  simp only [overlap, List.findSome?_eq_none_iff, Option.map_eq_none_iff, List.find?_eq_none,
    decide_eq_true_eq, hr.mem_iff]
  rfl

/-- The groups `rest` of `joining` can join: none is there yet, and no server is in
two groups. -/
structure Joinable (groups joining : Groups Tgid String) (rest : List Tgid) : Prop where
  fresh : ∀ gid ∈ rest, gid ∉ groups
  apart : ∀ gid ∈ rest, ∀ xgid ∈ groups, (servers groups xgid).Disjoint (servers joining gid)
  pairwise : ∀ gid ∈ rest, ∀ xgid ∈ rest, xgid ≠ gid →
    (servers joining xgid).Disjoint (servers joining gid)

theorem servers_insert (m : Groups Tgid String) (gid xgid : Tgid) (new : List String) :
    servers (m.insert gid new) xgid = if xgid = gid then new else servers m xgid := by
  unfold servers
  split
  · subst xgid
    rw [Finmap.lookup_insert, Option.getD_some]
  · rw [Finmap.lookup_insert_of_ne m ‹_›]

theorem joinable_cons {groups joining : Groups Tgid String} {gid : Tgid} {rest : List Tgid}
    (hnot : gid ∉ rest) :
    Joinable groups joining (gid :: rest) ↔
      gid ∉ groups ∧
      (∀ xgid ∈ groups, (servers groups xgid).Disjoint (servers joining gid)) ∧
      Joinable (groups.insert gid (servers joining gid)) joining rest := by
  constructor
  · intro h
    refine ⟨h.fresh gid (by simp), h.apart gid (by simp), ?_, ?_, ?_⟩
    · intro g hg hin
      rcases Finmap.mem_insert.mp hin with rfl | hold
      · exact hnot hg
      · exact h.fresh g (by simp [hg]) hold
    · intro g hg xgid hx
      rw [servers_insert]
      split
      · exact h.pairwise g (by simp [hg]) gid (by simp) (by rintro rfl; exact hnot hg)
      · exact h.apart g (by simp [hg]) xgid ((Finmap.mem_insert.mp hx).resolve_left ‹_›)
    · intro g hg xgid hx
      exact h.pairwise g (by simp [hg]) xgid (by simp [hx])
  · rintro ⟨hfresh, hapart, h⟩
    refine ⟨?_, ?_, ?_⟩
    · intro g hg hin
      rcases List.mem_cons.mp hg with rfl | hg
      · exact hfresh hin
      · exact h.fresh g hg (Finmap.mem_insert.mpr (Or.inr hin))
    · intro g hg xgid hx
      rcases List.mem_cons.mp hg with rfl | hg
      · exact hapart xgid hx
      · have := h.apart g hg xgid (Finmap.mem_insert.mpr (Or.inr hx))
        rwa [servers_insert, if_neg (by rintro rfl; exact hfresh hx)] at this
    · intro g hg xgid hx hne
      have hhead (x : Tgid) (hxr : x ∈ rest) :
          (servers joining gid).Disjoint (servers joining x) := by
        have := h.apart x hxr gid (Finmap.mem_insert.mpr (Or.inl rfl))
        rwa [servers_insert, if_pos rfl] at this
      rcases List.mem_cons.mp hg with rfl | hg'
      · exact (hhead xgid ((List.mem_cons.mp hx).resolve_left hne)).symm
      · rcases List.mem_cons.mp hx with rfl | hx'
        · exact hhead g hg'
        · exact h.pairwise g hg' xgid hx' hne

/-- The groups after those of `rest` joined. -/
def joined (groups joining : Groups Tgid String) (rest : List Tgid) : Groups Tgid String :=
  rest.foldl (fun groups gid => groups.insert gid (servers joining gid)) groups

theorem lookup_joined (groups joining : Groups Tgid String) (rest : List Tgid) (gid : Tgid) :
    (joined groups joining rest).lookup gid =
      if gid ∈ rest then some (servers joining gid) else groups.lookup gid := by
  induction rest generalizing groups with
  | nil => simp [joined]
  | cons g rest ih =>
    have hstep : joined groups joining (g :: rest) =
        joined (groups.insert g (servers joining g)) joining rest := rfl
    rw [hstep, ih]
    by_cases hg : gid = g
    · subst hg
      simp
    · simp [hg, Finmap.lookup_insert_of_ne]

theorem joinLoop_eq_some (joining : Groups Tgid String) (n : ℕ) {rest : List Tgid}
    (hnodup : rest.Nodup) (changed : Bool) (cfg cfg' : ShardConfig) :
    (joinLoop it joining n rest changed cfg).cfg? = some cfg' ↔
      (changed = true ∨ rest ≠ []) ∧ Joinable cfg.groups joining rest ∧
      cfg' = { cfg with num := cfg.num + 1, groups := joined cfg.groups joining rest } := by
  induction rest generalizing n changed cfg with
  | nil =>
    have hjoin : Joinable cfg.groups joining [] := ⟨by simp, by simp, by simp⟩
    cases changed
    · simp [joinLoop, Outcome.cfg?]
    · simp [joinLoop, Outcome.cfg?, joined, hjoin, eq_comm]
  | cons gid rest ih =>
    obtain ⟨hnot, hrest⟩ := List.nodup_cons.mp hnodup
    rw [joinLoop, joinable_cons hnot]
    have hnone := overlap_eq_none (it.ranges n cfg.groups) (servers joining gid)
    by_cases hin : gid ∈ cfg.groups
    · simp [hin, Outcome.cfg?]
    · rw [if_neg hin]
      cases hover : overlap cfg.groups (it.order n cfg.groups) (servers joining gid) with
      | some found =>
        have hnot' : ¬ ∀ xgid ∈ cfg.groups,
            (servers cfg.groups xgid).Disjoint (servers joining gid) := by
          rw [← hnone, hover]
          simp
        simp only [Outcome.cfg?]
        constructor
        · intro h
          cases h
        · intro h
          exact absurd h.2.1.2.1 hnot'
      | none =>
        rw [ih (n + 1) hrest]
        constructor
        · rintro ⟨-, hjoin, rfl⟩
          exact ⟨by simp, ⟨hin, hnone.mp hover, hjoin⟩, rfl⟩
        · rintro ⟨-, ⟨-, -, hjoin⟩, rfl⟩
          exact ⟨by simp, hjoin, rfl⟩

/-- A join returns true when it can add all of its groups, in whichever order. -/
theorem join_eq_some (cfg cfg' : ShardConfig) (joining : Groups Tgid String)
    {order : List Tgid} (hr : Ranges joining order) :
    (join it cfg joining).cfg? = some cfg' ↔
      order ≠ [] ∧ Joinable cfg.groups joining order ∧
      cfg' = { cfg with num := cfg.num + 1, groups := joined cfg.groups joining order } := by
  have hperm := (it.ranges 0 joining).perm hr
  have hnil : it.order 0 joining ≠ [] ↔ order ≠ [] := by
    rw [Ne, ← List.perm_nil, hperm.congr_left, List.perm_nil]
  have hjoin : Joinable cfg.groups joining (it.order 0 joining) ↔
      Joinable cfg.groups joining order := by
    constructor
    · intro h
      exact ⟨fun g hg => h.fresh g (hperm.mem_iff.mpr hg),
        fun g hg => h.apart g (hperm.mem_iff.mpr hg),
        fun g hg x hx => h.pairwise g (hperm.mem_iff.mpr hg) x (hperm.mem_iff.mpr hx)⟩
    · intro h
      exact ⟨fun g hg => h.fresh g (hperm.mem_iff.mp hg),
        fun g hg => h.apart g (hperm.mem_iff.mp hg),
        fun g hg x hx => h.pairwise g (hperm.mem_iff.mp hg) x (hperm.mem_iff.mp hx)⟩
  have hgroups : joined cfg.groups joining (it.order 0 joining) =
      joined cfg.groups joining order := by
    apply Finmap.ext_lookup
    intro gid
    rw [lookup_joined, lookup_joined]
    simp only [hperm.mem_iff]
  unfold join
  rw [joinLoop_eq_some it joining 1 (it.ranges 0 joining).nodup, hnil, hjoin, hgroups]
  simp

theorem join_order (cfg : ShardConfig) (joining : Groups Tgid String) :
    (join it cfg joining).cfg? = (join it' cfg joining).cfg? := by
  apply Option.ext
  intro cfg'
  rw [join_eq_some it cfg cfg' joining (it.ranges 0 joining),
    join_eq_some it' cfg cfg' joining (it.ranges 0 joining)]

theorem rebalanced_cfg? (n : ℕ) (o : Outcome) :
    (o.rebalanced it n).cfg? = o.cfg?.map (rebalance it n) := by
  cases o with
  | ret ok cfg =>
    cases ok
    · rfl
    · rfl
  | fatal why => rfl

theorem call_order (cfg : ShardConfig) (change : Change) :
    (change.call it cfg).cfg? = (change.call it' cfg).cfg? := by
  have hrebalance (n n' : ℕ) : rebalance it n = rebalance it' n' :=
    funext fun c => rebalance_order it it' n n' c
  cases change with
  | join joining =>
    simp only [Change.call, joinBalance, rebalanced_cfg?]
    rw [join_order it it' cfg joining, hrebalance]
  | leave gids =>
    simp only [Change.call, leaveBalance, rebalanced_cfg?]
    rw [hrebalance]

/-- Two runs of the same calls, from any configuration, that differ only in the orders
of the ranges over maps: when all calls of one return true so do those of the other,
and they end with the same configuration. -/
theorem changeAll_order (its its' : ℕ → Iteration Tgid String) (i i' : ℕ)
    (changes : List Change) (cfg : ShardConfig) :
    changeAll its i changes cfg = changeAll its' i' changes cfg := by
  induction changes generalizing i i' cfg with
  | nil => rfl
  | cons change rest ih =>
    rw [changeAll, changeAll, call_order (its i) (its' i') cfg change]
    congr 1
    funext cfg'
    exact ih (i + 1) (i' + 1) cfg'

/-- Controllers that make the same changes, all returning true, have the same
configuration, whatever the orders in which each ranged over the maps. -/
theorem reconfiguration_deterministic (its its' : ℕ → Iteration Tgid String)
    (changes : List Change) :
    changeAll its 0 changes makeShardConfig = changeAll its' 0 changes makeShardConfig :=
  changeAll_order its its' 0 0 changes makeShardConfig

-- There are such runs: a first group joins.
example (its : ℕ → Iteration Tgid String) :
    (changeAll its 0 [.join (Finmap.singleton 1 ["server-1-0"])] makeShardConfig).isSome := by
  have hr : Ranges (Finmap.singleton (1 : Tgid) ["server-1-0"]) [1] := ⟨by simp, by simp⟩
  have hjoin : Joinable makeShardConfig.groups (Finmap.singleton 1 ["server-1-0"]) [1] :=
    ⟨by simp [makeShardConfig, Finmap.notMem_empty],
      by simp [makeShardConfig, Finmap.notMem_empty], by simp⟩
  have h := (join_eq_some (its 0) _ _ _ hr).mpr ⟨by simp, hjoin, rfl⟩
  simp [changeAll, Change.call, joinBalance, rebalanced_cfg?, h]

end DistributedLabs.Shardcfg
