import Mathlib.Data.List.FinRange
import Mathlib.Data.List.Sort
import DistributedLabs.Grouping
import DistributedLabs.Loads

/-!
Shard configurations. Groups join and leave a configuration, and `rebalance`
assigns the shards to the groups there are: first the shards of no group, each to
the least loaded group, then one shard at a time from the most to the least loaded.
Each range over a map runs in an order of its own, taken from an `Iteration`; `n`
is the number of range statements run before.
-/
namespace DistributedLabs.Shardcfg

open Grouping Loads

def nShards : ℕ := 12

abbrev Tgid := ℤ

abbrev Tshid := Fin nShards

/-- Tnum is an int, which wraps. -/
abbrev Tnum := Int64

structure ShardConfig where
  num : Tnum
  shards : Tshid → Tgid
  groups : Groups Tgid String

def makeShardConfig : ShardConfig where
  num := 0
  shards := fun _ => 0
  groups := ∅

structure Analysis where
  mg : Tgid
  mn : ℤ
  lg : Tgid
  ln : ℤ
  deriving DecidableEq

/-- `counts[g]` after the loop over the shards. -/
def counts (c : ShardConfig) (g : Tgid) : ℤ := load c.shards g

def Analysis.visit (count : Tgid → ℤ) (a : Analysis) (g : Tgid) : Analysis :=
  let a := if count g < a.ln then { a with ln := count g, lg := g } else a
  if a.mn < count g then { a with mn := count g, mg := g } else a

/-- The group with the most and the one with the least shards, as the first of the
sorted groups with this number of shards. `order` is the order of the range over the
groups. -/
def analyze (c : ShardConfig) (order : List Tgid) : Analysis :=
  (order.insertionSort (· ≤ ·)).foldl (Analysis.visit (counts c))
    { mg := -1, mn := -1, lg := -1, ln := 257 }

def least (c : ShardConfig) (order : List Tgid) : Tgid := (analyze c order).lg

/-- `c.Shards[s] = g` -/
def ShardConfig.setShard (c : ShardConfig) (s : Tshid) (g : Tgid) : ShardConfig :=
  { c with shards := Function.update c.shards s g }

def assignShard (it : Iteration Tgid String) (n : ℕ) (c : ShardConfig) (s : Tshid) :
    ShardConfig :=
  if c.shards s ∈ c.groups then c
  else c.setShard s (least c (it.order (n + s) c.groups))

def assignUnassigned (it : Iteration Tgid String) (n : ℕ) (c : ShardConfig) : ShardConfig :=
  (List.finRange nShards).foldl (assignShard it n) c

/-- Move the first shard of the group `mg` to `lg`. -/
def moveOne (c : ShardConfig) (mg lg : Tgid) : ShardConfig :=
  match (List.finRange nShards).find? fun s => c.shards s = mg with
  | some s => c.setShard s lg
  | none => c

/-- The analysis after some groups were visited: its groups are among them, with the
most and the least shards of all of them. -/
structure Analysis.Extremal (count : Tgid → ℤ) (visited : List Tgid) (a : Analysis) : Prop where
  mg_mem : a.mg ∈ visited
  mn_eq : a.mn = count a.mg
  lg_mem : a.lg ∈ visited
  ln_eq : a.ln = count a.lg
  ln_le : ∀ g ∈ visited, a.ln ≤ count g
  le_mn : ∀ g ∈ visited, count g ≤ a.mn

theorem Analysis.Extremal.visit {count : Tgid → ℤ} {visited : List Tgid} {a : Analysis}
    (h : a.Extremal count visited) (g : Tgid) :
    (a.visit count g).Extremal count (visited ++ [g]) := by
  have hall {p : Tgid → Prop} (hold : ∀ x ∈ visited, p x) (hnew : p g) :
      ∀ x ∈ visited ++ [g], p x :=
    List.forall_mem_append.mpr ⟨hold, by simpa using hnew⟩
  have hle := h.ln_le a.mg h.mg_mem
  have hmn := h.mn_eq
  unfold Analysis.visit
  by_cases hl : count g < a.ln
  · have hm : ¬ a.mn < count g := by omega
    simp only [hl, if_true, hm, if_false]
    exact ⟨by simp [h.mg_mem], h.mn_eq, by simp, rfl,
      hall (fun x hx => hl.le.trans (h.ln_le x hx)) le_rfl, hall h.le_mn (not_lt.mp hm)⟩
  · simp only [hl, if_false]
    by_cases hm : a.mn < count g
    · simp only [hm, if_true]
      exact ⟨by simp, rfl, by simp [h.lg_mem], h.ln_eq, hall h.ln_le (not_lt.mp hl),
        hall (fun x hx => (h.le_mn x hx).trans hm.le) le_rfl⟩
    · simp only [hm, if_false]
      exact ⟨by simp [h.mg_mem], h.mn_eq, by simp [h.lg_mem], h.ln_eq,
        hall h.ln_le (not_lt.mp hl), hall h.le_mn (not_lt.mp hm)⟩

theorem Analysis.Extremal.foldl {count : Tgid → ℤ} {visited : List Tgid} {a : Analysis}
    (h : a.Extremal count visited) (rest : List Tgid) :
    (rest.foldl (Analysis.visit count) a).Extremal count (visited ++ rest) := by
  induction rest generalizing visited a with
  | nil => simpa using h
  | cons g rest ih =>
    have := ih (h.visit g)
    rwa [List.append_assoc] at this

theorem counts_nonneg (c : ShardConfig) (g : Tgid) : 0 ≤ counts c g :=
  Int.natCast_nonneg _

theorem counts_le (c : ShardConfig) (g : Tgid) : counts c g ≤ 12 := by
  have := load_le_card c.shards g
  rw [Fintype.card_fin] at this
  have h12 : nShards = 12 := rfl
  unfold counts
  omega

/-- Of at least one group the analysis finds groups with the most and the least shards. -/
theorem analyze_extremal (c : ShardConfig) {order : List Tgid} (h : order ≠ []) :
    (analyze c order).Extremal (counts c) order := by
  obtain ⟨g, rest, hsort⟩ : ∃ g rest, order.insertionSort (· ≤ ·) = g :: rest := by
    apply List.exists_cons_of_ne_nil
    intro hnil
    have := List.length_insertionSort (· ≤ ·) order
    rw [hnil] at this
    exact h (List.length_eq_zero_iff.mp this.symm)
  have hnonneg := counts_nonneg c g
  have hle := counts_le c g
  -- The first group replaces both starting values, which lie outside the counts.
  have hfirst : (Analysis.visit (counts c) ⟨-1, -1, -1, 257⟩ g).Extremal (counts c) [g] := by
    have hl : counts c g < 257 := by omega
    have hm : -1 < counts c g := by omega
    simp only [Analysis.visit, hl, if_true, hm]
    exact ⟨by simp, rfl, by simp, rfl, by simp, by simp⟩
  have hall := hfirst.foldl rest
  have heq : analyze c order =
      rest.foldl (Analysis.visit (counts c)) (Analysis.visit (counts c) ⟨-1, -1, -1, 257⟩ g) := by
    rw [analyze, hsort, List.foldl_cons]
  have hmem : ∀ x, x ∈ [g] ++ rest ↔ x ∈ order := by
    intro x
    rw [List.singleton_append, ← hsort, List.mem_insertionSort]
  rw [← heq] at hall
  exact ⟨(hmem _).mp hall.mg_mem, hall.mn_eq, (hmem _).mp hall.lg_mem, hall.ln_eq,
    fun x hx => hall.ln_le x ((hmem x).mpr hx), fun x hx => hall.le_mn x ((hmem x).mpr hx)⟩

/-- A group that has a shard loses one to the other group, and only this one moves. -/
theorem moveOne_eq (c : ShardConfig) {mg : Tgid} (lg : Tgid) (h : 0 < counts c mg) :
    ∃ s, c.shards s = mg ∧ moveOne c mg lg = c.setShard s lg := by
  obtain ⟨s, hs⟩ : ∃ s, c.shards s = mg := by
    have hpos : 0 < load c.shards mg := by
      unfold counts at h
      omega
    exact load_pos_iff.mp hpos
  have hfind : ((List.finRange nShards).find? fun s => c.shards s = mg).isSome := by
    rw [List.find?_isSome]
    exact ⟨s, List.mem_finRange s, by simp [hs]⟩
  obtain ⟨t, ht⟩ := Option.isSome_iff_exists.mp hfind
  refine ⟨t, by simpa using List.find?_some ht, ?_⟩
  rw [moveOne, ht]

/-- The loop goes on only while two groups differ by two shards or more, and each
move lowers the number of pairs of shards in one group. -/
theorem energy_moveOne_lt (c : ShardConfig) (order : List Tgid)
    (h : ¬ (analyze c order).mn < (analyze c order).ln + 2) :
    energy (moveOne c (analyze c order).mg (analyze c order).lg).shards < energy c.shards := by
  have hne : order ≠ [] := by
    rintro rfl
    simp [analyze] at h
  have hx := analyze_extremal c hne
  have hmn := hx.mn_eq
  have hln := hx.ln_eq
  have hnonneg := counts_nonneg c (analyze c order).lg
  obtain ⟨s, hs, hmove⟩ := moveOne_eq c (analyze c order).lg
    (show 0 < counts c (analyze c order).mg by omega)
  rw [hmove]
  apply energy_update_lt
  rw [hs]
  unfold counts at hmn hln
  omega

/-- Move shards from the most to the least loaded group. -/
def balance (it : Iteration Tgid String) (n : ℕ) (c : ShardConfig) : ShardConfig :=
  let order := it.order n c.groups
  if (analyze c order).mn < (analyze c order).ln + 2 then c
  else balance it (n + 1) (moveOne c (analyze c order).mg (analyze c order).lg)
termination_by energy c.shards
decreasing_by exact energy_moveOne_lt c _ ‹_›

theorem balance_eq (it : Iteration Tgid String) (n : ℕ) (c : ShardConfig) {a : Analysis}
    (ha : analyze c (it.order n c.groups) = a) :
    balance it n c =
      if a.mn < a.ln + 2 then c else balance it (n + 1) (moveOne c a.mg a.lg) := by
  rw [balance, ha]

def rebalance (it : Iteration Tgid String) (n : ℕ) (c : ShardConfig) : ShardConfig :=
  if c.groups.keys.card < 1 then { c with shards := fun _ => 0 }
  else balance it (n + nShards) (assignUnassigned it n c)

/-- The calls of `log.Fatalf`. -/
inductive Fatal
  | joinOverlap (gid : Tgid) (server : String) (xgid : Tgid)
  | joinNoChange
  | leaveNoChange

inductive Outcome
  | ret (ok : Bool) (cfg : ShardConfig)
  | fatal (why : Fatal)

/-- The servers of a group, none for a group that is not there. -/
def servers (m : Groups Tgid String) (gid : Tgid) : List String := (m.lookup gid).getD []

/-- The first server found that is in a group of the configuration and in a new one. -/
def overlap (groups : Groups Tgid String) (order : List Tgid) (new : List String) :
    Option (Tgid × String) :=
  order.findSome? fun xgid => ((servers groups xgid).find? (· ∈ new)).map fun s1 => (xgid, s1)

def joinLoop (it : Iteration Tgid String) (joining : Groups Tgid String) :
    ℕ → List Tgid → Bool → ShardConfig → Outcome
  | _, [], changed, cfg =>
    if changed then .ret true { cfg with num := cfg.num + 1 } else .fatal .joinNoChange
  | n, gid :: rest, _, cfg =>
    if gid ∈ cfg.groups then .ret false cfg
    else
      match overlap cfg.groups (it.order n cfg.groups) (servers joining gid) with
      | some (xgid, s1) => .fatal (.joinOverlap gid s1 xgid)
      | none => joinLoop it joining (n + 1) rest true
          { cfg with groups := cfg.groups.insert gid (servers joining gid) }

def join (it : Iteration Tgid String) (cfg : ShardConfig) (joining : Groups Tgid String) :
    Outcome :=
  joinLoop it joining 1 (it.order 0 joining) false cfg

def leaveLoop : List Tgid → Bool → ShardConfig → Outcome
  | [], changed, cfg =>
    if changed then .ret true { cfg with num := cfg.num + 1 } else .fatal .leaveNoChange
  | gid :: rest, _, cfg =>
    if gid ∈ cfg.groups then leaveLoop rest true { cfg with groups := cfg.groups.erase gid }
    else .ret false cfg

def leave (cfg : ShardConfig) (gids : List Tgid) : Outcome := leaveLoop gids false cfg

/-- Rebalance after a call that returned true. -/
def Outcome.rebalanced (it : Iteration Tgid String) (n : ℕ) : Outcome → Outcome
  | .ret true cfg => .ret true (rebalance it n cfg)
  | .ret false cfg => .ret false cfg
  | .fatal why => .fatal why

def joinBalance (it : Iteration Tgid String) (cfg : ShardConfig) (joining : Groups Tgid String) :
    Outcome :=
  (join it cfg joining).rebalanced it (1 + (it.order 0 joining).length)

def leaveBalance (it : Iteration Tgid String) (cfg : ShardConfig) (gids : List Tgid) : Outcome :=
  (leave cfg gids).rebalanced it 0

inductive Change
  | join (joining : Groups Tgid String)
  | leave (gids : List Tgid)

def Change.call (it : Iteration Tgid String) (cfg : ShardConfig) : Change → Outcome
  | .join joining => joinBalance it cfg joining
  | .leave gids => leaveBalance it cfg gids

/-- The configuration of a call that returned true. -/
def Outcome.cfg? : Outcome → Option ShardConfig
  | .ret true cfg => some cfg
  | .ret false _ => none
  | .fatal _ => none

theorem Outcome.eq_of_cfg? {o : Outcome} {cfg : ShardConfig} (h : o.cfg? = some cfg) :
    o = .ret true cfg := by
  cases o with
  | ret ok cfg' =>
    cases ok with
    | true => rw [Option.some.inj h]
    | false => cases h
  | fatal why => cases h

/-- A sequence of calls, the `i`-th with the orders `its i`. There is a result when
all calls return true. -/
def changeAll (its : ℕ → Iteration Tgid String) : ℕ → List Change → ShardConfig →
    Option ShardConfig
  | _, [], cfg => some cfg
  | i, change :: rest, cfg => (change.call (its i) cfg).cfg?.bind (changeAll its (i + 1) rest)

end DistributedLabs.Shardcfg
