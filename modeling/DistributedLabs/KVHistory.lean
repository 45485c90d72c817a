import DistributedLabs.KVServer
import Mathlib.Data.List.Induction

/-!
Histories of the server goroutine: requests in the order they were taken from
opQ, each with its answer. The entry of a key is determined by the Puts on it
that were answered OK, and these carry the versions 0, 1, 2, ... in order, so
two histories of which one extends the other agree on a key until the next
such Put.
-/
namespace DistributedLabs.KVServer

abbrev History := List (KvOp × KvReply)

/-- Each request is answered as `serve` answers it after the earlier ones. -/
def Answers (h : History) : Prop :=
  ∀ pre op r suf, h = pre ++ (op, r) :: suf →
    r = (serve (replay (pre.map Prod.fst)) op).2

theorem answers_nil : Answers [] := by
  intro pre op r suf h
  simp at h

theorem answers_concat_iff (h : History) (op : KvOp) (r : KvReply) :
    Answers (h ++ [(op, r)]) ↔
      Answers h ∧ r = (serve (replay (h.map Prod.fst)) op).2 := by
  constructor
  · intro ha
    refine ⟨?_, ha h op r [] rfl⟩
    intro pre op' r' suf heq
    exact ha pre op' r' (suf ++ [(op, r)]) (by simp [heq])
  · rintro ⟨ha, hr⟩ pre op' r' suf heq
    rcases List.eq_nil_or_concat suf with rfl | ⟨suf', y, rfl⟩
    · obtain ⟨rfl, hx⟩ := List.append_inj' heq rfl
      obtain ⟨rfl, rfl⟩ : op = op' ∧ r = r' := by simpa using hx
      exact hr
    · rw [List.concat_eq_append, ← List.cons_append, ← List.append_assoc] at heq
      exact ha pre op' r' suf' (List.append_inj' heq rfl).1

/-- Every sequence of requests has one history. -/
def historyOf (ops : List KvOp) : History :=
  ops.foldl (fun h op => h ++ [(op, (serve (replay (h.map Prod.fst)) op).2)]) []

theorem answers_historyOf (ops : List KvOp) :
    Answers (historyOf ops) ∧ (historyOf ops).map Prod.fst = ops := by
  induction ops using List.reverseRecOn with
  | nil => exact ⟨answers_nil, rfl⟩
  | append_singleton ops op ih =>
    have heq : historyOf (ops ++ [op]) = historyOf ops ++
        [(op, (serve (replay ((historyOf ops).map Prod.fst)) op).2)] := by
      simp [historyOf]
    rw [heq]
    constructor
    · exact (answers_concat_iff _ _ _).mpr ⟨ih.1, rfl⟩
    · simp [ih.2]

/-- The arguments of a Put on `k` that was answered OK. -/
def appliedArgs (k : String) : KvOp × KvReply → Option PutArgs
  | (.put args, r) => if args.key = k ∧ r.Applied then some args else none
  | (.get _, _) => none

/-- The Puts on `k` that were answered OK, in order. -/
def applied (k : String) (h : History) : List PutArgs := h.filterMap (appliedArgs k)

theorem applied_append (k : String) (h h' : History) :
    applied k (h ++ h') = applied k h ++ applied k h' := by
  simp [applied]

theorem applied_concat (k : String) (h : History) (x : KvOp × KvReply) :
    applied k (h ++ [x]) = applied k h ++ (appliedArgs k x).toList := by
  rw [applied_append]
  cases hx : appliedArgs k x <;> simp [applied, hx]

theorem appliedArgs_eq_some {k : String} {op : KvOp} {r : KvReply} {args : PutArgs} :
    appliedArgs k (op, r) = some args ↔ op = .put args ∧ args.key = k ∧ r.Applied := by
  cases op with
  | get a => simp [appliedArgs]
  | put a =>
    simp only [appliedArgs, Option.ite_none_right_eq_some, Option.some.injEq, KvOp.put.injEq]
    constructor
    · rintro ⟨⟨h1, h2⟩, rfl⟩
      exact ⟨rfl, h1, h2⟩
    · rintro ⟨rfl, h1, h2⟩
      exact ⟨⟨h1, h2⟩, rfl⟩

theorem isSome_appliedArgs {k : String} {op : KvOp} {r : KvReply} :
    (appliedArgs k (op, r)).isSome = true ↔ op.PutsOn k = true ∧ r.Applied := by
  cases op with
  | get args => simp [appliedArgs, KvOp.PutsOn]
  | put args => simp [appliedArgs, KvOp.PutsOn]

/-- A step of the server changes an entry exactly by an applied Put on it. -/
theorem serve_entry (kv : KvMap) (op : KvOp) (k : String) :
    (serve kv op).1 k = match appliedArgs k (op, (serve kv op).2) with
      | some args => some ⟨args.value, args.version + 1⟩
      | none => kv k := by
  by_cases happ : (serve kv op).2.Applied
  · obtain ⟨args, rfl, hv, hkv⟩ := serve_applied kv op happ
    rw [hkv]
    by_cases hk : args.key = k
    · subst hk
      simp [appliedArgs, happ]
    · simp [appliedArgs, hk, Function.update_of_ne (Ne.symm hk)]
  · rw [serve_unapplied kv op happ]
    cases op with
    | get a => rfl
    | put a => simp [appliedArgs, happ]

/-- The last applied Put determines the entry of its key. -/
theorem replay_eq_last (h : History) (ha : Answers h) (k : String) :
    replay (h.map Prod.fst) k =
      (applied k h).getLast?.map fun args => ⟨args.value, args.version + 1⟩ := by
  induction h using List.reverseRecOn with
  | nil => rfl
  | append_singleton h x ih =>
    obtain ⟨op, r⟩ := x
    obtain ⟨ha', rfl⟩ := (answers_concat_iff h op r).mp ha
    rw [List.map_append, List.map_singleton, replay_concat, serve_entry, applied_concat]
    cases hargs : appliedArgs k (op, (serve (replay (h.map Prod.fst)) op).2) with
    | none => simpa using ih ha'
    | some args => simp

/-- Applied Puts carry the number of those before them. -/
theorem applied_version (h : History) (ha : Answers h) (k : String) (i : ℕ) (args : PutArgs)
    (hi : (applied k h)[i]? = some args) : args.version.toNat = i % 2 ^ 64 := by
  induction h using List.reverseRecOn generalizing i args with
  | nil => simp [applied] at hi
  | append_singleton h x ih =>
    obtain ⟨op, r⟩ := x
    obtain ⟨ha', rfl⟩ := (answers_concat_iff h op r).mp ha
    rw [applied_concat] at hi
    cases hargs : appliedArgs k (op, (serve (replay (h.map Prod.fst)) op).2) with
    | none =>
      simp only [hargs, Option.toList_none, List.append_nil] at hi
      exact ih ha' i args hi
    | some args' =>
      simp only [hargs, Option.toList_some] at hi
      by_cases hlt : i < (applied k h).length
      · rw [List.getElem?_append_left hlt] at hi
        exact ih ha' i args hi
      · have hlen := (List.getElem?_eq_some_iff.mp hi).1
        simp only [List.length_append, List.length_singleton] at hlen
        have hieq : i = (applied k h).length := by omega
        subst hieq
        obtain rfl : args' = args := by simpa using hi
        obtain ⟨rfl, rfl, happ⟩ := appliedArgs_eq_some.mp hargs
        obtain ⟨args, hop, hv, _⟩ := serve_applied _ _ happ
        obtain rfl := KvOp.put.inj hop
        -- the version matched, and the entry was left by the previous applied Put
        rw [← hv, version, replay_eq_last h ha']
        cases hlast : (applied args'.key h).getLast? with
        | none => simp [List.getLast?_eq_none_iff.mp hlast]
        | some prev =>
          have hne : applied args'.key h ≠ [] := by
            rintro hnil
            simp [hnil] at hlast
          have hpos : 0 < (applied args'.key h).length := List.length_pos_iff.mpr hne
          have hprev := ih ha' ((applied args'.key h).length - 1) prev
            (by rw [← List.getLast?_eq_getElem?]; exact hlast)
          simp only [Option.map_some, UInt64.toNat_add, UInt64.toNat_one]
          omega

/-- The version of a key counts the applied Puts on it. -/
theorem version_replay (h : History) (ha : Answers h) (k : String) :
    (version (replay (h.map Prod.fst)) k).toNat = (applied k h).length % 2 ^ 64 := by
  rw [version, replay_eq_last h ha]
  cases hlast : (applied k h).getLast? with
  | none => simp [List.getLast?_eq_none_iff.mp hlast]
  | some prev =>
    have hne : applied k h ≠ [] := by
      rintro hnil
      simp [hnil] at hlast
    have hpos : 0 < (applied k h).length := List.length_pos_iff.mpr hne
    have hprev := applied_version h ha k ((applied k h).length - 1) prev
      (by rw [← List.getLast?_eq_getElem?]; exact hlast)
    simp only [Option.map_some, UInt64.toNat_add, UInt64.toNat_one]
    omega

theorem answers_of_append {h h' : History} (ha : Answers (h ++ h')) : Answers h := by
  intro pre op r suf heq
  exact ha pre op r (suf ++ h') (by simp [heq])

/-- Puts answered OK are among the Puts on the key. -/
theorem applied_le_puts (k : String) (h : History) :
    (applied k h).length ≤ (h.map Prod.fst).countP (KvOp.PutsOn k) := by
  induction h with
  | nil => exact Nat.le_refl _
  | cons x h ih =>
    obtain ⟨op, r⟩ := x
    rw [List.map_cons, List.countP_cons]
    cases hargs : appliedArgs k (op, r) with
    | none =>
      rw [applied, List.filterMap_cons_none hargs]
      exact Nat.le_add_right_of_le ih
    | some args =>
      obtain ⟨rfl, hk, _⟩ := appliedArgs_eq_some.mp hargs
      rw [applied, List.filterMap_cons_some hargs, List.length_cons]
      simpa [applied, KvOp.PutsOn, hk] using ih

/-- Before the versions of a key wrap they are 0, 1, 2, ... in order. -/
theorem applied_versions {h : History} (ha : Answers h) {k : String}
    (hbound : (applied k h).length < 2 ^ 64) :
    (applied k h).map (fun args => args.version.toNat) = List.range (applied k h).length := by
  apply List.ext_getElem
  · simp
  · intro i hi _
    have hlt : i < (applied k h).length := by simpa using hi
    have hversion := applied_version h ha k i _ (List.getElem?_eq_getElem hlt)
    simp only [List.getElem_map, List.getElem_range]
    omega

/-- A refused Put changes no key. -/
theorem serve_refused {kv : KvMap} {op : KvOp} {err : Err} (hr : (serve kv op).2 = .put ⟨err⟩)
    (herr : err ≠ .ok) : (serve kv op).1 = kv := by
  apply serve_unapplied
  intro happ
  rw [KvReply.Applied, hr] at happ
  cases happ
  exact herr rfl

theorem no_lost_update (ops : List KvOp) (hbound : ∀ k, ops.countP (KvOp.PutsOn k) < 2 ^ 64)
    (k : String) :
    (applied k (historyOf ops)).map (fun args => args.version.toNat) =
      List.range (applied k (historyOf ops)).length ∧
    (∀ v, (applied k (historyOf ops)).countP (fun args => args.version = v) ≤ 1) ∧
    (∀ pre suf, historyOf ops = pre ++ suf →
      (replay (pre.map Prod.fst) k ≠ none ↔ 0 < (applied k pre).length) ∧
      (version (replay (pre.map Prod.fst)) k).toNat = (applied k pre).length ∧
      ∀ args, (applied k pre).getLast? = some args →
        value (replay (pre.map Prod.fst)) k = args.value) ∧
    ∀ pre op r suf, historyOf ops = pre ++ (op, r) :: suf →
      r = .put ⟨.errVersion⟩ ∨ r = .put ⟨.errNoKey⟩ →
      replay ((pre ++ [(op, r)]).map Prod.fst) = replay (pre.map Prod.fst) := by
  obtain ⟨ha, hops⟩ := answers_historyOf ops
  have hlen : (applied k (historyOf ops)).length < 2 ^ 64 := by
    have hle := applied_le_puts k (historyOf ops)
    have hlt := hbound k
    rw [hops] at hle
    omega
  have hversions := applied_versions ha hlen
  refine ⟨hversions, ?_, ?_, ?_⟩
  · intro v
    have hnodup : ((applied k (historyOf ops)).map PutArgs.version).Nodup := by
      apply List.Nodup.of_map UInt64.toNat
      rw [List.map_map]
      change ((applied k (historyOf ops)).map fun args => args.version.toNat).Nodup
      rw [hversions]
      exact List.nodup_range
    have hcount := List.nodup_iff_count_le_one.mp hnodup v
    simpa [List.count, List.countP_map, Function.comp_def, beq_eq_decide] using hcount
  · intro pre suf hsplit
    rw [hsplit] at ha hlen
    have hpre := answers_of_append ha
    rw [applied_append, List.length_append] at hlen
    refine ⟨?_, ?_, ?_⟩
    · rw [replay_eq_last pre hpre k, List.length_pos_iff]
      simp
    · rw [version_replay pre hpre k, Nat.mod_eq_of_lt (by omega)]
    · intro args hlast
      rw [value, replay_eq_last pre hpre k, hlast]
      rfl
  · intro pre op r suf hsplit hrefused
    have hr := ha pre op r suf hsplit
    rw [List.map_append, List.map_singleton, replay_concat]
    rcases hrefused with herr | herr
    · exact serve_refused (hr.symm.trans herr) nofun
    · exact serve_refused (hr.symm.trans herr) nofun

/-- Two Puts at version 0 on a new key, then one at version 1. -/
def threePuts : List KvOp := [.put ⟨"k", "a", 0⟩, .put ⟨"k", "b", 0⟩, .put ⟨"k", "c", 1⟩]

theorem no_lost_update_threePuts :
    (applied "k" (historyOf threePuts)).map (fun args => args.version.toNat) = [0, 1] ∧
      (version (replay threePuts) "k").toNat = 2 := by
  have hputs : ∀ k, threePuts.countP (KvOp.PutsOn k) < 2 ^ 64 := by
    intro k
    exact Nat.lt_of_le_of_lt List.countP_le_length (by decide)
  obtain ⟨hversions, _, hprefix, _⟩ := no_lost_update threePuts hputs "k"
  have hlen : (applied "k" (historyOf threePuts)).length = 2 := by decide
  obtain ⟨_, hversion, _⟩ := hprefix (historyOf threePuts) [] (List.append_nil _).symm
  rw [hlen] at hversions hversion
  rw [(answers_historyOf threePuts).2] at hversion
  exact ⟨hversions, hversion⟩

end DistributedLabs.KVServer
