import DistributedLabs.LoadBalance
import DistributedLabs.ShardConfigOrder
import Mathlib.Algebra.Order.Group.Abs
import Mathlib.Algebra.Order.Group.Int

/-!
Rebalance places and shifts shards greedily, so what holds of greedy balancing holds
of it: it ends, from any assignment, with the shards spread evenly over the groups,
and it moves no more shards than it must.
-/
namespace DistributedLabs.Shardcfg

open Grouping Loads

theorem groups_eq_empty_iff {m : Groups Tgid String} : m = ∅ ↔ m.keys = ∅ := by
  constructor
  · rintro rfl
    exact Finmap.keys_empty
  · intro hkeys
    apply Finmap.ext_lookup
    intro gid
    rw [Finmap.lookup_empty, Finmap.lookup_eq_none, ← Finmap.mem_keys, hkeys]
    exact Finset.notMem_empty gid

theorem keys_nonempty {m : Groups Tgid String} (h : m ≠ ∅) : m.keys.Nonempty := by
  rw [Finset.nonempty_iff_ne_empty]
  exact fun hkeys => h (groups_eq_empty_iff.mpr hkeys)

theorem groups_ne_empty {m : Groups Tgid String} {gid : Tgid} (h : gid ∈ m) : m ≠ ∅ := by
  rintro rfl
  exact Finmap.notMem_empty h

/-- An assignment into some groups stays one when a shard is put into one of them. -/
theorem update_mem {K : Finset Tgid} {shards : Tshid → Tgid} {s t : Tshid} {gid : Tgid}
    (hgid : gid ∈ K) (ht : shards t ∈ K) : Function.update shards s gid t ∈ K := by
  rw [Function.update_apply]
  split
  · exact hgid
  · exact ht

variable (it : Iteration Tgid String)

/-- The analysis of a configuration with groups, in terms of loads. -/
theorem analyze_spec (n : ℕ) {c : ShardConfig} (h : c.groups ≠ ∅) {a : Analysis}
    (ha : analyze c (it.order n c.groups) = a) :
    a.mg ∈ c.groups.keys ∧ a.lg ∈ c.groups.keys ∧
      a.mn = load c.shards a.mg ∧ a.ln = load c.shards a.lg ∧
      (∀ g ∈ c.groups.keys, load c.shards g ≤ load c.shards a.mg) ∧
      ∀ g ∈ c.groups.keys, load c.shards a.lg ≤ load c.shards g := by
  obtain ⟨gid, hgid⟩ := keys_nonempty h
  have hmem : ∀ g, g ∈ it.order n c.groups ↔ g ∈ c.groups.keys := by
    intro g
    rw [(it.ranges n c.groups).mem_iff, Finmap.mem_keys]
  have hx := analyze_extremal c (List.ne_nil_of_mem ((hmem gid).mpr hgid))
  rw [ha] at hx
  have hmn := hx.mn_eq
  have hln := hx.ln_eq
  unfold counts at hmn hln
  refine ⟨(hmem _).mp hx.mg_mem, (hmem _).mp hx.lg_mem, hmn, hln, ?_, ?_⟩
  · intro g hg
    have := hx.le_mn g ((hmem g).mpr hg)
    unfold counts at this
    omega
  · intro g hg
    have := hx.ln_le g ((hmem g).mpr hg)
    unfold counts at this
    omega

/-- The same number and groups. -/
structure SameGroups (c c' : ShardConfig) : Prop where
  num : c'.num = c.num
  groups : c'.groups = c.groups

theorem SameGroups.trans {c c' c'' : ShardConfig} (h : SameGroups c c') (h' : SameGroups c' c'') :
    SameGroups c c'' := ⟨h'.num.trans h.num, h'.groups.trans h.groups⟩

theorem moveOne_sameGroups (c : ShardConfig) (mg lg : Tgid) :
    SameGroups c (moveOne c mg lg) := by
  unfold moveOne
  split
  · exact ⟨rfl, rfl⟩
  · exact ⟨rfl, rfl⟩

/-- One iteration of the first loop. -/
theorem assignShard_spec (n : ℕ) {c : ShardConfig} (hne : c.groups ≠ ∅) {f : Tshid → Tgid}
    (hp : Placing c.groups.keys f c.shards) (s : Tshid) :
    SameGroups c (assignShard it n c s) ∧
      Placing c.groups.keys f (assignShard it n c s).shards ∧
      (assignShard it n c s).shards s ∈ c.groups.keys ∧
      ∀ t, c.shards t ∈ c.groups.keys → (assignShard it n c s).shards t ∈ c.groups.keys := by
  unfold assignShard
  by_cases hs : c.shards s ∈ c.groups
  · rw [if_pos hs]
    exact ⟨⟨rfl, rfl⟩, hp, Finmap.mem_keys.mpr hs, fun _ ht => ht⟩
  · rw [if_neg hs]
    obtain ⟨-, hlg, -, -, -, hmin⟩ := analyze_spec it (n + s) hne rfl
    refine ⟨⟨rfl, rfl⟩, hp.place (fun hkey => hs (Finmap.mem_keys.mp hkey)) hmin, ?_, ?_⟩
    · change Function.update c.shards s _ s ∈ _
      rw [Function.update_self]
      exact hlg
    · intro t ht
      exact update_mem hlg ht

theorem foldl_assignShard_spec (n : ℕ) {f : Tshid → Tgid} (order : List Tshid) {c : ShardConfig}
    (hne : c.groups ≠ ∅) (hp : Placing c.groups.keys f c.shards) :
    SameGroups c (order.foldl (assignShard it n) c) ∧
      Placing c.groups.keys f (order.foldl (assignShard it n) c).shards ∧
      ∀ t, (t ∈ order ∨ c.shards t ∈ c.groups.keys) →
        (order.foldl (assignShard it n) c).shards t ∈ c.groups.keys := by
  induction order generalizing c with
  | nil => exact ⟨⟨rfl, rfl⟩, hp, by simp⟩
  | cons s rest ih =>
    obtain ⟨hsame, hplace, hs, hkeep⟩ := assignShard_spec it n hne hp s
    rw [← hsame.groups] at hne hplace hs hkeep
    obtain ⟨hsame', hplace', hall⟩ := ih hne hplace
    rw [hsame.groups] at hplace' hall hs hkeep
    refine ⟨hsame.trans hsame', hplace', ?_⟩
    rintro t (ht | ht)
    · rcases List.mem_cons.mp ht with rfl | ht
      · exact hall t (Or.inr hs)
      · exact hall t (Or.inl ht)
    · exact hall t (Or.inr (hkeep t ht))

/-- The second loop keeps the shards in the groups and the redistribution fair, and
ends with even loads. -/
theorem balance_spec {f : Tshid → Tgid} (n : ℕ) {c : ShardConfig} (hne : c.groups ≠ ∅)
    (hinto : ∀ s, c.shards s ∈ c.groups.keys) (hfair : Fair c.groups.keys f c.shards) :
    SameGroups c (balance it n c) ∧ (∀ s, (balance it n c).shards s ∈ c.groups.keys) ∧
      Fair c.groups.keys f (balance it n c).shards ∧
      Balanced c.groups.keys (balance it n c).shards := by
  induction n, c using balance.induct it with
  | case1 n c order hstop =>
    obtain ⟨-, -, hmn, hln, hmax, hmin⟩ := analyze_spec it n hne (a := analyze c order) rfl
    rw [balance_eq it n c rfl, if_pos hstop]
    refine ⟨⟨rfl, rfl⟩, hinto, hfair, ?_⟩
    intro g hg h hh
    have := hmax g hg
    have := hmin h hh
    omega
  | case2 n c order hgo ih =>
    obtain ⟨-, hlg, hmn, hln, hmax, hmin⟩ := analyze_spec it n hne (a := analyze c order) rfl
    rw [balance_eq it n c rfl, if_neg hgo]
    have hsame := moveOne_sameGroups c (analyze c order).mg (analyze c order).lg
    obtain ⟨s, hs, hmove⟩ := moveOne_eq c (analyze c order).lg
      (show 0 < counts c (analyze c order).mg by unfold counts; omega)
    have hinto' : ∀ t, (moveOne c (analyze c order).mg (analyze c order).lg).shards t ∈
        c.groups.keys := by
      intro t
      rw [hmove]
      exact update_mem hlg (hinto t)
    have hfair' : Fair c.groups.keys f
        (moveOne c (analyze c order).mg (analyze c order).lg).shards := by
      rw [hmove]
      refine hfair.shift (hinto s) hlg (hs ▸ hmax) hmin ?_
      rw [hs]
      omega
    rw [← hsame.groups] at hne hinto' hfair'
    obtain ⟨hsame', hinto'', hfair'', hbal⟩ := ih hne hinto' hfair'
    rw [hsame.groups] at hinto'' hfair'' hbal
    exact ⟨hsame.trans hsame', hinto'', hfair'', hbal⟩

theorem rebalance_of_empty (n : ℕ) {c : ShardConfig} (h : c.groups = ∅) :
    rebalance it n c = { c with shards := fun _ => 0 } := by
  unfold rebalance
  rw [if_pos (by rw [groups_eq_empty_iff.mp h]; decide)]

theorem rebalance_of_ne (n : ℕ) {c : ShardConfig} (hne : c.groups ≠ ∅) :
    rebalance it n c = balance it (n + nShards) (assignUnassigned it n c) := by
  have hpos := Finset.card_pos.mpr (keys_nonempty hne)
  unfold rebalance
  rw [if_neg (by omega)]

theorem rebalance_spec (n : ℕ) {c : ShardConfig} (hne : c.groups ≠ ∅) :
    SameGroups c (rebalance it n c) ∧ (∀ s, (rebalance it n c).shards s ∈ c.groups.keys) ∧
      Fair c.groups.keys c.shards (rebalance it n c).shards ∧
      Balanced c.groups.keys (rebalance it n c).shards := by
  obtain ⟨hsame, hplace, hall⟩ :=
    foldl_assignShard_spec it n (List.finRange nShards) hne (Placing.refl _ c.shards)
  rw [rebalance_of_ne it n hne]
  unfold assignUnassigned
  have hinto : ∀ s, ((List.finRange nShards).foldl (assignShard it n) c).shards s ∈
      c.groups.keys := fun s => hall s (Or.inl (List.mem_finRange s))
  have hfair := hplace.fair
  rw [← hsame.groups] at hne hinto hfair
  obtain ⟨hsame', hinto', hfair', hbal⟩ := balance_spec it (n + nShards) hne hinto hfair
  rw [hsame.groups] at hinto' hfair' hbal
  exact ⟨hsame.trans hsame', hinto', hfair', hbal⟩

theorem rebalance_sameGroups (n : ℕ) (c : ShardConfig) : SameGroups c (rebalance it n c) := by
  by_cases hempty : c.groups = ∅
  · rw [rebalance_of_empty it n hempty]
    exact ⟨rfl, rfl⟩
  · exact (rebalance_spec it n hempty).1

/-- The second loop with a bound on its iterations, none when it runs out. -/
def moveLoop : ℕ → ℕ → ShardConfig → Option ShardConfig
  | 0, _, _ => none
  | fuel + 1, n, c =>
    let a := analyze c (it.order n c.groups)
    if a.mn < a.ln + 2 then some c else moveLoop fuel (n + 1) (moveOne c a.mg a.lg)

theorem moveLoop_eq_balance {fuel n : ℕ} {c : ShardConfig} (h : energy c.shards < fuel) :
    moveLoop it fuel n c = some (balance it n c) := by
  induction fuel generalizing n c with
  | zero => omega
  | succ fuel ih =>
    rw [moveLoop, balance_eq it n c rfl]
    split
    · rfl
    · rename_i hgo
      have hlt := energy_moveOne_lt c (it.order n c.groups) hgo
      exact ih (by omega)

theorem energy_le (f : Tshid → Tgid) : energy f ≤ nShards * nShards := by
  calc energy f ≤ ∑ _s : Tshid, nShards :=
        Finset.sum_le_sum fun s _ => (load_le_card f (f s)).trans_eq (Fintype.card_fin nShards)
    _ = nShards * nShards := by simp

/-- Rebalance leaves its loop after at most one move for each pair of shards, and ends
with every shard in a group and even loads, or with no shard assigned if there is no
group. -/
theorem rebalance_terminates_balanced (n : ℕ) (c : ShardConfig) :
    (rebalance it n c).num = c.num ∧ (rebalance it n c).groups = c.groups ∧
    (c.groups = ∅ → ∀ s, (rebalance it n c).shards s = 0) ∧
    (c.groups ≠ ∅ →
      moveLoop it (nShards * nShards + 1) (n + nShards) (assignUnassigned it n c) =
        some (rebalance it n c) ∧
      (∀ s, (rebalance it n c).shards s ∈ c.groups) ∧
      ∀ g ∈ c.groups, ∀ h ∈ c.groups,
        |counts (rebalance it n c) g - counts (rebalance it n c) h| ≤ 1) := by
  have hsame := rebalance_sameGroups it n c
  refine ⟨hsame.num, hsame.groups, ?_, ?_⟩
  · intro hempty s
    rw [rebalance_of_empty it n hempty]
  · intro hne
    obtain ⟨-, hinto, -, hbal⟩ := rebalance_spec it n hne
    refine ⟨?_, ?_, ?_⟩
    · rw [rebalance_of_ne it n hne]
      exact moveLoop_eq_balance it (Nat.lt_succ_of_le (energy_le _))
    · intro s
      exact Finmap.mem_keys.mp (hinto s)
    · intro g hg h hh
      have hgh := hbal g (Finmap.mem_keys.mpr hg) h (Finmap.mem_keys.mpr hh)
      have hhg := hbal h (Finmap.mem_keys.mpr hh) g (Finmap.mem_keys.mpr hg)
      unfold counts
      rw [abs_le]
      omega

/-- Every shard is in a group, if there are groups, and their loads are even. -/
structure ShardConfig.IsBalanced (c : ShardConfig) : Prop where
  assigned : c.groups ≠ ∅ → ∀ s, c.shards s ∈ c.groups
  even : Balanced c.groups.keys c.shards

theorem isBalanced_makeShardConfig : makeShardConfig.IsBalanced where
  assigned h := absurd rfl h
  even := by
    intro g hg
    exact absurd (Finmap.mem_keys.mp hg) (Finmap.notMem_empty)

theorem rebalance_isBalanced (n : ℕ) (c : ShardConfig) : (rebalance it n c).IsBalanced := by
  by_cases hempty : c.groups = ∅
  · rw [rebalance_of_empty it n hempty]
    refine ⟨fun h => absurd hempty h, ?_⟩
    intro g hg
    rw [groups_eq_empty_iff.mp hempty] at hg
    exact absurd hg (Finset.notMem_empty g)
  · obtain ⟨hsame, hinto, -, hbal⟩ := rebalance_spec it n hempty
    rw [← hsame.groups] at hinto hbal
    exact ⟨fun _ s => Finmap.mem_keys.mp (hinto s), hbal⟩

/-- With no more groups than shards, each group has a shard. -/
theorem ShardConfig.IsBalanced.load_pos {c : ShardConfig} (h : c.IsBalanced)
    (hcard : c.groups.keys.card ≤ nShards) {gid : Tgid} (hgid : gid ∈ c.groups) :
    0 < load c.shards gid := by
  have hkey := Finmap.mem_keys.mpr hgid
  have hsum := sum_load fun s => Finmap.mem_keys.mpr (h.assigned (groups_ne_empty hgid) s)
  rw [Fintype.card_fin] at hsum
  by_contra hzero
  -- a group without shards leaves at most one shard to each of the others
  have hlt : ∑ g ∈ c.groups.keys, load c.shards g < ∑ _g ∈ c.groups.keys, 1 := by
    refine Finset.sum_lt_sum ?_ ⟨gid, hkey, by omega⟩
    intro g hg
    have := h.even g hg gid hkey
    omega
  rw [hsum, ← Finset.card_eq_sum_ones] at hlt
  omega

/-- A join that returns true adds its groups and leaves the shards alone. -/
theorem join_spec {cfg cfg' : ShardConfig} {joining : Groups Tgid String}
    (h : (join it cfg joining).cfg? = some cfg') :
    cfg'.shards = cfg.shards ∧ cfg'.groups ≠ ∅ ∧
      ∀ g, g ∈ cfg'.groups ↔ g ∈ joining ∨ g ∈ cfg.groups := by
  have hr := it.ranges 0 joining
  obtain ⟨hne, -, rfl⟩ := (join_eq_some it cfg cfg' joining hr).mp h
  have hmem : ∀ g, g ∈ joined cfg.groups joining (it.order 0 joining) ↔
      g ∈ joining ∨ g ∈ cfg.groups := by
    intro g
    rw [← Finmap.lookup_isSome, lookup_joined, ← hr.mem_iff]
    split
    · simp [*]
    · simp [*, Finmap.lookup_isSome]
  obtain ⟨g, hg⟩ := List.exists_mem_of_ne_nil _ hne
  have hin := (hmem g).mpr (Or.inl ((hr.mem_iff g).mp hg))
  exact ⟨rfl, groups_ne_empty hin, hmem⟩

theorem leaveLoop_spec {gids : List Tgid} {changed : Bool} {cfg cfg' : ShardConfig}
    (h : (leaveLoop gids changed cfg).cfg? = some cfg') :
    cfg'.shards = cfg.shards ∧ (∀ g ∈ gids, g ∈ cfg.groups) ∧
      ∀ g, g ∈ cfg'.groups ↔ g ∈ cfg.groups ∧ g ∉ gids := by
  induction gids generalizing changed cfg with
  | nil =>
    cases changed with
    | false => cases h
    | true =>
      cases h
      exact ⟨rfl, by simp, by simp⟩
  | cons gid rest ih =>
    rw [leaveLoop] at h
    split at h
    · rename_i hin
      obtain ⟨hshards, hall, hmem⟩ := ih h
      refine ⟨hshards, ?_, ?_⟩
      · intro g hg
        rcases List.mem_cons.mp hg with rfl | hg
        · exact hin
        · exact (Finmap.mem_erase.mp (hall g hg)).2
      · intro g
        rw [hmem, Finmap.mem_erase, List.mem_cons, not_or]
        tauto
    · cases h

theorem exists_of_rebalanced {n : ℕ} {o : Outcome} {cfg' : ShardConfig}
    (h : (o.rebalanced it n).cfg? = some cfg') :
    ∃ c, o.cfg? = some c ∧ rebalance it n c = cfg' := by
  rw [rebalanced_cfg?] at h
  exact Option.map_eq_some_iff.mp h

/-- A shard that changes its group goes to one that has just joined. -/
theorem joinBalance_moves {cfg cfg' : ShardConfig} {joining : Groups Tgid String}
    (hbal : cfg.IsBalanced) (h : (joinBalance it cfg joining).cfg? = some cfg') {s : Tshid}
    (hs : cfg'.shards s ≠ cfg.shards s) :
    cfg'.shards s ∈ joining ∧ cfg'.shards s ∉ cfg.groups ∧
      (cfg.groups ≠ ∅ → cfg.shards s ∈ cfg.groups) := by
  obtain ⟨c, hjoin, rfl⟩ := exists_of_rebalanced it h
  obtain ⟨hshards, hne, hmem⟩ := join_spec it hjoin
  obtain ⟨-, hinto, hfair, -⟩ := rebalance_spec it (1 + (it.order 0 joining).length) hne
  have hsub : cfg.groups.keys ⊆ c.groups.keys := by
    intro g hg
    exact Finmap.mem_keys.mpr ((hmem g).mpr (Or.inr (Finmap.mem_keys.mp hg)))
  rw [hshards] at hfair
  have hout : (rebalance it (1 + (it.order 0 joining).length) c).shards s ∉ cfg.groups := by
    intro hold
    have hassigned := hbal.assigned (groups_ne_empty hold) s
    exact hs (hfair.eq_of_balanced hsub hbal.even (Finmap.mem_keys.mpr hassigned)
      (Finmap.mem_keys.mpr hold))
  have hin := (hmem _).mp (Finmap.mem_keys.mp (hinto s))
  exact ⟨hin.resolve_right hout, hout, fun hgroups => hbal.assigned hgroups s⟩

/-- A shard that changes its group was in one that has just left. -/
theorem leaveBalance_moves {cfg cfg' : ShardConfig} {gids : List Tgid} (hbal : cfg.IsBalanced)
    (h : (leaveBalance it cfg gids).cfg? = some cfg') {s : Tshid}
    (hs : cfg'.shards s ≠ cfg.shards s) : cfg.shards s ∈ gids ∧ cfg.shards s ∈ cfg.groups := by
  obtain ⟨c, hleave, rfl⟩ := exists_of_rebalanced it h
  obtain ⟨hshards, hall, hmem⟩ := leaveLoop_spec hleave
  have hold : cfg.shards s ∈ cfg.groups := by
    cases gids with
    | nil => cases hleave
    | cons gid rest => exact hbal.assigned (groups_ne_empty (hall gid List.mem_cons_self)) s
  refine ⟨?_, hold⟩
  by_contra hstays
  have hkey : cfg.shards s ∈ c.groups := (hmem _).mpr ⟨hold, hstays⟩
  obtain ⟨-, hinto, hfair, -⟩ := rebalance_spec it 0 (groups_ne_empty hkey)
  rw [hshards] at hfair
  have heven : Balanced c.groups.keys cfg.shards := by
    have hsub : ∀ g ∈ c.groups.keys, g ∈ cfg.groups.keys := by
      intro g hg
      exact Finmap.mem_keys.mpr ((hmem g).mp (Finmap.mem_keys.mp hg)).1
    intro g hg k hk
    exact hbal.even g (hsub g hg) k (hsub k hk)
  exact hs (hfair.eq_of_balanced (Finset.Subset.refl _) heven (Finmap.mem_keys.mpr hkey)
    (hinto s))

/-- The moves between groups from one assignment to another. -/
def moves (c : ShardConfig) (shards : Tshid → Tgid) : ℕ :=
  (moved c.groups.keys c.shards shards).card

/-- Rebalance moves as few shards between groups as any even assignment, and no group
both gains and loses a shard. From a balanced configuration, shards move only to groups
that join and only from groups that leave. -/
theorem rebalance_moves_least (n : ℕ) :
    (∀ c : ShardConfig, c.groups ≠ ∅ →
      IsLeast {k | ∃ shards : Tshid → Tgid, (∀ s, shards s ∈ c.groups) ∧
          Balanced c.groups.keys shards ∧ moves c shards = k}
        (moves c (rebalance it n c).shards) ∧
      ∀ g, ¬ (Gains c.shards (rebalance it n c).shards g ∧
        Loses c.shards (rebalance it n c).shards g)) ∧
    (∀ cfg joining cfg', cfg.IsBalanced → joinBalance it cfg joining = .ret true cfg' →
      ∀ s, cfg'.shards s ≠ cfg.shards s → cfg'.shards s ∈ joining ∧
        cfg'.shards s ∉ cfg.groups ∧ (cfg.groups ≠ ∅ → cfg.shards s ∈ cfg.groups)) ∧
    ∀ cfg gids cfg', cfg.IsBalanced → leaveBalance it cfg gids = .ret true cfg' →
      ∀ s, cfg'.shards s ≠ cfg.shards s → cfg.shards s ∈ gids ∧ cfg.shards s ∈ cfg.groups := by
  refine ⟨?_, ?_, ?_⟩
  · intro c hne
    obtain ⟨-, hinto, hfair, hbal⟩ := rebalance_spec it n hne
    refine ⟨⟨⟨_, fun s => Finmap.mem_keys.mp (hinto s), hbal, rfl⟩, ?_⟩, ?_⟩
    · rintro k ⟨shards, hshards, heven, rfl⟩
      exact hfair.card_moved_le hinto (fun s => Finmap.mem_keys.mpr (hshards s)) heven
    · rintro g ⟨hgains, hloses⟩
      have hg : g ∈ c.groups.keys := by
        obtain ⟨s, -, rfl⟩ := hgains
        exact hinto s
      exact hfair.apart g hg hgains hloses
  · intro cfg joining cfg' hbal h s hs
    exact joinBalance_moves it hbal (by rw [h]; rfl) hs
  · intro cfg gids cfg' hbal h s hs
    exact leaveBalance_moves it hbal (by rw [h]; rfl) hs

def secondGroup : Groups Tgid String := Finmap.singleton 2 ["server-2-0"]

/-- The second group has joined, and has no shard yet. -/
def twoGroups : ShardConfig := ⟨2, fun _ => 1, joined onlyGroupOne.groups secondGroup [2]⟩

theorem join_secondGroup :
    (join descendingGids onlyGroupOne secondGroup).cfg? = some twoGroups := by
  have hr : Ranges secondGroup [2] := ⟨by simp, by simp [secondGroup]⟩
  have hold : servers onlyGroupOne.groups 1 = ["server-1-0"] := by decide
  have hnew : servers secondGroup 2 = ["server-2-0"] := by decide
  have hjoinable : Joinable onlyGroupOne.groups secondGroup [2] := by
    refine ⟨by decide, ?_, by simp⟩
    intro gid hgid xgid hx
    obtain rfl := List.mem_singleton.mp hgid
    obtain rfl : xgid = 1 := by simpa [onlyGroupOne] using hx
    simp [hold, hnew]
  exact (join_eq_some descendingGids _ _ _ hr).mpr ⟨by simp, hjoinable, rfl⟩

/-- The second group takes over at most six shards, and the others when the first
group leaves. -/
theorem rebalance_moves_least_secondGroup :
    moves twoGroups (rebalance descendingGids 0 twoGroups).shards ≤ 6 ∧
    ∃ cfg cfg', joinBalance descendingGids onlyGroupOne secondGroup = .ret true cfg ∧
      (∃ s, cfg.shards s ≠ 1 ∧ cfg.shards s ∈ secondGroup) ∧
      leaveBalance descendingGids cfg [1] = .ret true cfg' ∧
      ∃ s, cfg'.shards s ≠ cfg.shards s ∧ cfg.shards s ∈ [1] := by
  obtain ⟨hleast, hjoins, hleaves⟩ := rebalance_moves_least descendingGids 0
  constructor
  · have hne : (1 : Tgid) ∈ twoGroups.groups := by decide
    exact (hleast twoGroups (groups_ne_empty hne)).1.2
      ⟨fun s => if s.val < 6 then 2 else 1, by decide, by decide, by decide⟩
  · let n := 1 + (descendingGids.order 0 secondGroup).length
    let cfg := rebalance descendingGids n twoGroups
    have hjoin : joinBalance descendingGids onlyGroupOne secondGroup = .ret true cfg := by
      apply Outcome.eq_of_cfg?
      rw [joinBalance, rebalanced_cfg?, join_secondGroup]
      rfl
    have hgroups : cfg.groups = twoGroups.groups :=
      (rebalance_sameGroups descendingGids n twoGroups).groups
    have hone : (1 : Tgid) ∈ cfg.groups := by
      rw [hgroups]
      decide
    have htwo : (2 : Tgid) ∈ cfg.groups := by
      rw [hgroups]
      decide
    have hleave : leaveBalance descendingGids cfg [1] = .ret true (rebalance descendingGids 0
        { cfg with num := cfg.num + 1, groups := cfg.groups.erase 1 }) := by
      rw [leaveBalance, leave, leaveLoop, if_pos hone]
      rfl
    have hbal : cfg.IsBalanced := rebalance_isBalanced descendingGids n twoGroups
    have hcard : cfg.groups.keys.card ≤ nShards := by
      rw [hgroups]
      decide
    refine ⟨cfg, _, hjoin, ?_, hleave, ?_⟩
    · obtain ⟨s, hs⟩ := load_pos_iff.mp (hbal.load_pos hcard htwo)
      have hmoved : cfg.shards s ≠ 1 := by
        rw [hs]
        decide
      exact ⟨s, hmoved, (hjoins _ _ _ ⟨fun _ => by decide, by decide⟩ hjoin s hmoved).1⟩
    · obtain ⟨s, hs⟩ := load_pos_iff.mp (hbal.load_pos hcard hone)
      have hin := (rebalance_isBalanced descendingGids 0
        { cfg with num := cfg.num + 1, groups := cfg.groups.erase 1 }).assigned
      rw [(rebalance_sameGroups descendingGids 0 _).groups] at hin
      have hstays := hin (groups_ne_empty (Finmap.mem_erase.mpr ⟨by decide, htwo⟩)) s
      have hmoved := (Finmap.mem_erase.mp hstays).1.trans_eq hs.symm
      exact ⟨s, hmoved, (hleaves _ _ _ hbal hleave s hmoved).1⟩

/-! ### Membership through the shards -/

def isMember (cfg : ShardConfig) (gid : Tgid) : Bool :=
  (List.finRange nShards).any fun s => cfg.shards s = gid

/-- What every configuration of a history has. -/
structure ShardConfig.Settled (c : ShardConfig) : Prop extends c.IsBalanced where
  unassigned : c.groups = ∅ → ∀ s, c.shards s = 0

theorem rebalance_settled (n : ℕ) (c : ShardConfig) : (rebalance it n c).Settled := by
  refine ⟨rebalance_isBalanced it n c, ?_⟩
  intro hempty s
  rw [rebalance_of_empty it n ((rebalance_sameGroups it n c).groups.symm.trans hempty)]

theorem call_settled {cfg cfg' : ShardConfig} {change : Change}
    (h : (change.call it cfg).cfg? = some cfg') : cfg'.Settled := by
  cases change with
  | join joining =>
    obtain ⟨c, -, rfl⟩ := exists_of_rebalanced it h
    exact rebalance_settled it _ c
  | leave gids =>
    obtain ⟨c, -, rfl⟩ := exists_of_rebalanced it h
    exact rebalance_settled it _ c

theorem changeAll_settled {its : ℕ → Iteration Tgid String} {i : ℕ} {changes : List Change}
    {cfg cfg' : ShardConfig} (hcfg : cfg.Settled)
    (h : changeAll its i changes cfg = some cfg') : cfg'.Settled := by
  induction changes generalizing i cfg with
  | nil =>
    cases h
    exact hcfg
  | cons change rest ih =>
    obtain ⟨c, hcall, hrest⟩ := Option.bind_eq_some_iff.mp h
    exact ih (call_settled (its i) hcall) hrest

theorem isMember_iff_load {c : ShardConfig} {gid : Tgid} :
    isMember c gid = true ↔ 0 < load c.shards gid := by
  rw [load_pos_iff]
  simp [isMember, List.mem_finRange]

/-- In every history of joins and leaves, a group has a shard exactly when it is one of
the groups, as long as there are no more groups than shards. -/
theorem isMember_iff_mem_groups {its : ℕ → Iteration Tgid String} {changes : List Change}
    {cfg : ShardConfig} (h : changeAll its 0 changes makeShardConfig = some cfg)
    (hcard : cfg.groups.keys.card ≤ nShards) {gid : Tgid} (hgid : gid ≠ 0) :
    isMember cfg gid = true ↔ gid ∈ cfg.groups := by
  have hstart : makeShardConfig.Settled := ⟨isBalanced_makeShardConfig, fun _ _ => rfl⟩
  have hsettled := changeAll_settled hstart h
  rw [isMember_iff_load]
  constructor
  · intro hpos
    obtain ⟨s, heq⟩ := load_pos_iff.mp hpos
    have hne : cfg.groups ≠ ∅ := by
      intro hempty
      exact hgid (heq.symm.trans (hsettled.unassigned hempty s))
    exact heq ▸ hsettled.assigned hne s
  · exact hsettled.load_pos hcard

/-- A first group joins. -/
def firstGroup : Groups Tgid String := Finmap.singleton 1 ["server-1-0"]

theorem isMember_iff_mem_groups_firstGroup :
    ∃ cfg, changeAll (fun _ => descendingGids) 0 [.join firstGroup] makeShardConfig = some cfg ∧
      isMember cfg 1 = true ∧ isMember cfg 2 = false := by
  let c : ShardConfig := ⟨1, fun _ => 0, joined ∅ firstGroup [1]⟩
  let n := 1 + (descendingGids.order 0 firstGroup).length
  have hr : Ranges firstGroup [1] := ⟨by simp, by simp [firstGroup]⟩
  have hjoinable : Joinable makeShardConfig.groups firstGroup [1] :=
    ⟨by simp [makeShardConfig, Finmap.notMem_empty],
      by simp [makeShardConfig, Finmap.notMem_empty], by simp⟩
  have hjoin : (join descendingGids makeShardConfig firstGroup).cfg? = some c :=
    (join_eq_some descendingGids _ _ _ hr).mpr ⟨by simp, hjoinable, rfl⟩
  have hall : changeAll (fun _ => descendingGids) 0 [.join firstGroup] makeShardConfig =
      some (rebalance descendingGids n c) := by
    simp only [changeAll, Change.call, joinBalance, rebalanced_cfg?, hjoin, Option.map_some,
      Option.bind_some, n]
  have hgroups := (rebalance_sameGroups descendingGids n c).groups
  have hcard : (rebalance descendingGids n c).groups.keys.card ≤ nShards := by
    rw [hgroups]
    decide
  refine ⟨_, hall, ?_, ?_⟩
  · rw [isMember_iff_mem_groups hall hcard (by decide), hgroups]
    decide
  · rw [← Bool.not_eq_true, isMember_iff_mem_groups hall hcard (by decide), hgroups]
    decide

end DistributedLabs.Shardcfg
