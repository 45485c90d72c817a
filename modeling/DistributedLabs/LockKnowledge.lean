import DistributedLabs.ClerkVersions
import DistributedLabs.Lock

/-!
What a lock client may rely on at each of its program counters, as a predicate
of the key's entry, of the number of Puts applied to it and of the answers the
server has given to the clerk call in progress. It survives every change of
hands between two other owners, and the answers the client is given itself.
-/
namespace DistributedLabs.Lock

open KVServer Transition Tables
open Clerk (ver Seen version_eq_ver entry_version entry_present)

variable {ι : Type*}

/-- The id in the lock's key, empty when nobody owns the lock. -/
def owner : Option KvValue → String
  | some v => v.value
  | none => emptyLockOwnerId

/-- What an answered Get still says about the lock's key. -/
structure ReadOk (id : String) (entry : Option KvValue) (ver : ℕ) (r : GetReply) : Prop where
  le : r.version.toNat ≤ ver
  current : r.version.toNat = ver → r.value = owner entry
  present : r.version ≠ 0 → entry ≠ none
  mine : r.value = id → entry = some ⟨id, r.version⟩
  notMine : r.value ≠ id → owner entry ≠ id
  absent : r.err = .errNoKey → r.value = emptyLockOwnerId

/-- Acquire's Put at version `v`. -/
structure AcquirePutOk (id : String) (entry : Option KvValue) (ver : ℕ)
    (seen : KvReply → Prop) (v : Tversion) : Prop where
  le : v.toNat ≤ ver
  free : v.toNat = ver → owner entry = emptyLockOwnerId
  present : v ≠ 0 → entry ≠ none
  answers : ∀ err, seen (.put ⟨err⟩) →
    v.toNat < ver ∧ (err = .ok ∧ owner entry = id ∨ err = .errVersion)

/-- Release's Put at version `v`. Only this Put can have moved the version. -/
structure ReleasePutOk (id : String) (entry : Option KvValue) (ver : ℕ)
    (seen : KvReply → Prop) (v : Tversion) : Prop where
  le : v.toNat ≤ ver
  present : entry ≠ none
  mine : v.toNat = ver → owner entry = id
  done : v.toNat < ver → seen (.put ⟨.ok⟩)
  answers : ∀ err, seen (.put ⟨err⟩) →
    v.toNat < ver ∧ (err = .ok ∧ owner entry ≠ id ∨ err = .errVersion)

def PcInv (id : String) (entry : Option KvValue) (ver : ℕ) (seen : KvReply → Prop) :
    Pc → Prop
  | .idle => True
  | .other => True
  | .acquireGet => ∀ r, seen (.get r) → ReadOk id entry ver r
  | .acquirePut v => AcquirePutOk id entry ver seen v
  | .acquireCheck =>
    entry ≠ none ∧ ∀ r, seen (.get r) → ReadOk id entry ver r ∧ r.err ≠ .errNoKey
  | .releaseGet => ∀ r, seen (.get r) → ReadOk id entry ver r
  | .releasePut v => ReleasePutOk id entry ver seen v
  | .releaseCheck =>
    entry ≠ none ∧ ∀ r, seen (.get r) → ReadOk id entry ver r ∧ r.err ≠ .errNoKey
  | .panicked _ => False

/-- A read survives a change of hands between two other owners. -/
theorem ReadOk.foreign {id : String} {entry entry' : Option KvValue} {ver : ℕ} {r : GetReply}
    (hne : owner entry ≠ id) (hne' : owner entry' ≠ id) (hsome : entry' ≠ none)
    (h : ReadOk id entry ver r) : ReadOk id entry' (ver + 1) r where
  le := Nat.le_succ_of_le h.le
  current heq := by
    have hle := h.le
    omega
  present _ := hsome
  mine hmine := by
    have hentry := h.mine hmine
    rw [hentry] at hne
    exact absurd rfl hne
  notMine _ := hne'
  absent := h.absent

theorem PcInv.foreign {id : String} {entry entry' : Option KvValue} {ver : ℕ}
    {seen : KvReply → Prop} {pc : Pc} (hne : owner entry ≠ id) (hne' : owner entry' ≠ id)
    (hsome : entry' ≠ none) (h : PcInv id entry ver seen pc) :
    PcInv id entry' (ver + 1) seen pc := by
  cases pc with
  | idle => trivial
  | other => trivial
  | acquireGet => exact fun r hr => (h r hr).foreign hne hne' hsome
  | acquirePut v =>
    refine ⟨Nat.le_succ_of_le h.le, fun heq => ?_, fun _ => hsome, fun err herr => ?_⟩
    · have hle := h.le
      omega
    · obtain ⟨hlt, hans⟩ := h.answers err herr
      refine ⟨by omega, ?_⟩
      rcases hans with ⟨_, hmine⟩ | hver
      · exact absurd hmine hne
      · exact Or.inr hver
  | acquireCheck =>
    exact ⟨hsome, fun r hr => ⟨(h.2 r hr).1.foreign hne hne' hsome, (h.2 r hr).2⟩⟩
  | releaseGet => exact fun r hr => (h r hr).foreign hne hne' hsome
  | releasePut v =>
    have hlt : v.toNat < ver := by
      rcases Nat.lt_or_eq_of_le h.le with hlt | heq
      · exact hlt
      · exact absurd (h.mine heq) hne
    refine ⟨by omega, hsome, fun heq => by omega, fun _ => h.done hlt, fun err herr => ?_⟩
    refine ⟨by omega, ?_⟩
    rcases (h.answers err herr).2 with ⟨hok, _⟩ | hver
    · exact Or.inl ⟨hok, hne'⟩
    · exact Or.inr hver
  | releaseCheck =>
    exact ⟨hsome, fun r hr => ⟨(h.2 r hr).1.foreign hne hne' hsome, (h.2 r hr).2⟩⟩
  | panicked p => exact h

section Key

variable {name : String} {net : Clerk.State ι}

/-- A Get answered now reads the key as it is. -/
theorem readOk_get (hs : Clerk.Served net) (hb : ver name net < 2 ^ 64) {id : String}
    (hid : id ≠ emptyLockOwnerId) :
    ReadOk id (net.kv name) (ver name net) (KVServer.get net.kv ⟨name⟩) := by
  have hver := version_eq_ver hs hb
  cases hentry : net.kv name with
  | none =>
    rw [version, hentry] at hver
    have hget : KVServer.get net.kv ⟨name⟩ = ⟨"", 0, .errNoKey⟩ := by simp [KVServer.get, hentry]
    rw [hget]
    exact ⟨by simp, fun _ => rfl, fun h => absurd rfl h, fun h => absurd h.symm hid,
      fun h => h, fun _ => rfl⟩
  | some v =>
    rw [version, hentry] at hver
    have hget : KVServer.get net.kv ⟨name⟩ = ⟨v.value, v.version, .ok⟩ := by
      simp [KVServer.get, hentry]
    rw [hget]
    exact ⟨Nat.le_of_eq hver, fun _ => rfl, fun _ => by simp, fun h => by rw [← h],
      fun h => h, fun h => by cases h⟩

/-- An answer that leaves the key alone fits what the client already knows. -/
theorem PcInv.answered (hs : Clerk.Served net) (hb : ver name net < 2 ^ 64) {id : String}
    (hid : id ≠ emptyLockOwnerId) {pc : Pc} {op : KvOp} {seen : KvReply → Prop}
    (hop : pc.op name id = some op) (hun : ¬ (serve net.kv op).2.Applied)
    (h : PcInv id (net.kv name) (ver name net) seen pc) :
    PcInv id (net.kv name) (ver name net)
      (fun r => seen r ∨ r = (serve net.kv op).2) pc := by
  have hget : ∀ r, KvReply.get r = (serve net.kv (.get ⟨name⟩)).2 →
      r = KVServer.get net.kv ⟨name⟩ := fun r hr => KvReply.get.inj hr
  have hread := readOk_get hs hb hid
  have hpresent : net.kv name ≠ none → (KVServer.get net.kv ⟨name⟩).err ≠ .errNoKey := by
    intro hsome
    obtain ⟨v, hv⟩ := Option.ne_none_iff_exists'.mp hsome
    simp [KVServer.get, hv]
  -- a Put is refused by the version, never for want of the key
  have hput : ∀ value v, ¬ (serve net.kv (.put ⟨name, value, v⟩)).2.Applied →
      v.toNat ≤ ver name net → (v ≠ 0 → net.kv name ≠ none) →
      (serve net.kv (.put ⟨name, value, v⟩)).2 = .put ⟨.errVersion⟩ ∧
        v.toNat < ver name net := by
    intro value v hnot hle hsome
    have hver := version_eq_ver hs hb
    rcases put_cases net.kv ⟨name, value, v⟩ with ⟨_, hp⟩ | ⟨hne, _, hp⟩ | ⟨hv, hnone, _⟩
    · simp [serve, hp, KvReply.Applied] at hnot
    · refine ⟨by simp [serve, hp], ?_⟩
      have hne' : (version net.kv name).toNat ≠ v.toNat :=
        fun heq => hne (UInt64.toNat_inj.mp heq)
      omega
    · exact absurd hnone (hsome hv)
  cases pc with
  | idle => trivial
  | other => trivial
  | acquireGet =>
    obtain rfl := Option.some.inj hop
    rintro r (hr | hr)
    · exact h r hr
    · exact hget r hr ▸ hread
  | acquirePut v =>
    obtain rfl := Option.some.inj hop
    obtain ⟨hans, hlt⟩ := hput id v hun h.le h.present
    refine ⟨h.le, h.free, h.present, ?_⟩
    rintro err (herr | herr)
    · exact h.answers err herr
    · rw [hans] at herr
      exact ⟨hlt, Or.inr (PutReply.mk.inj (KvReply.put.inj herr))⟩
  | acquireCheck =>
    obtain rfl := Option.some.inj hop
    refine ⟨h.1, ?_⟩
    rintro r (hr | hr)
    · exact h.2 r hr
    · exact hget r hr ▸ ⟨hread, hpresent h.1⟩
  | releaseGet =>
    obtain rfl := Option.some.inj hop
    rintro r (hr | hr)
    · exact h r hr
    · exact hget r hr ▸ hread
  | releasePut v =>
    obtain rfl := Option.some.inj hop
    obtain ⟨hans, hlt⟩ := hput emptyLockOwnerId v hun h.le (fun _ => h.present)
    refine ⟨h.le, h.present, h.mine, fun hlt => Or.inl (h.done hlt), ?_⟩
    rintro err (herr | herr)
    · exact h.answers err herr
    · rw [hans] at herr
      exact ⟨hlt, Or.inr (PutReply.mk.inj (KvReply.put.inj herr))⟩
  | releaseCheck =>
    obtain rfl := Option.some.inj hop
    refine ⟨h.1, ?_⟩
    rintro r (hr | hr)
    · exact h.2 r hr
    · exact hget r hr ▸ ⟨hread, hpresent h.1⟩
  | panicked p => exact h

/-- The Put of Acquire is applied. -/
theorem AcquirePutOk.applied {id : String} {entry entry' : Option KvValue} {k : ℕ}
    {seen : KvReply → Prop} {v : Tversion} (hown : owner entry' = id)
    (hsome : entry' ≠ none) (heq : v.toNat = k) (h : AcquirePutOk id entry k seen v) :
    AcquirePutOk id entry' (k + 1) (fun r => seen r ∨ r = .put ⟨.ok⟩) v where
  le := by omega
  free heq' := by omega
  present _ := hsome
  answers err herr := by
    refine ⟨by omega, ?_⟩
    rcases herr with hold | hnew
    · have hlt := (h.answers err hold).1
      omega
    · exact Or.inl ⟨PutReply.mk.inj (KvReply.put.inj hnew), hown⟩

/-- The Put of Release is applied. -/
theorem ReleasePutOk.applied {id : String} {entry entry' : Option KvValue} {k : ℕ}
    {seen : KvReply → Prop} {v : Tversion} (hown : owner entry' ≠ id)
    (hsome : entry' ≠ none) (heq : v.toNat = k) (h : ReleasePutOk id entry k seen v) :
    ReleasePutOk id entry' (k + 1) (fun r => seen r ∨ r = .put ⟨.ok⟩) v where
  le := by omega
  present := hsome
  mine heq' := by omega
  done _ := Or.inr rfl
  answers err herr := by
    refine ⟨by omega, ?_⟩
    rcases herr with hold | hnew
    · have hlt := (h.answers err hold).1
      omega
    · exact Or.inl ⟨PutReply.mk.inj (KvReply.put.inj hnew), hown⟩

end Key

end DistributedLabs.Lock
