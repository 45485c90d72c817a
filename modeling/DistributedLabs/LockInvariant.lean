import DistributedLabs.LockKnowledge

/-!
The invariant of the lock. A Put on the lock's key still in flight either carries
an older version than the key has, so that it can never be applied, or belongs
to a call in progress: to an Acquire that read the key unowned, or to a Release
of the owner. So the key changes hands only by the Put of a client that is
waiting for its answer.
-/
namespace DistributedLabs.Lock

open KVServer Transition Tables
open Clerk (ver Seen)

variable {ι : Type*}

structure Inv (name : String) (id : ι → String) (s : State ι) : Prop where
  behind : Clerk.Behind name s.net
  pc_ok : ∀ c, PcInv (id c) (s.net.kv name) (ver name s.net) (Seen s.net c) (s.pc c)
  call_pc : ∀ c call, s.net.clerks c = some call →
    s.pc c = .other ∧ call.op.PutsOn name = false ∨ (s.pc c).op name (id c) = some call.op
  held_owner : ∀ c, s.held c = true →
    owner (s.net.kv name) = id c ∧ ¬ (s.pc c).Releasing
  owner_inside : ∀ c, owner (s.net.kv name) = id c →
    s.held c = true ∨ (s.pc c).Acquiring ∨ (s.pc c).Releasing

namespace Inv

variable {name : String} {id : ι → String} {s : State ι}

theorem initial (hne : ∀ c, id c ≠ emptyLockOwnerId) :
    Inv name id (initial : State ι) where
  behind := .initial
  pc_ok c := trivial
  call_pc c call h := by simp [Lock.initial, Clerk.initial] at h
  held_owner c h := by simp [Lock.initial] at h
  owner_inside c h := by
    simp only [Lock.initial, Clerk.initial, emptyKv, owner] at h
    exact absurd h.symm (hne c)

theorem idle_of_pc (hs : Inv name id s) {c : ι} (hpc : s.pc c = .idle) :
    s.net.clerks c = none := by
  cases hcall : s.net.clerks c with
  | none => rfl
  | some call =>
    rcases hs.call_pc c call hcall with ⟨hother, _⟩ | hop
    · rw [hpc] at hother
      cases hother
    · rw [hpc] at hop
      cases hop

/-- Steps of the network and of clerks that neither start, answer nor end a call. -/
theorem frame (hs : Inv name id s) {net : Clerk.State ι} (hkv : net.kv = s.net.kv)
    (hexecs : net.execs = s.net.execs) (hcalls : ∀ c, net.callOf c = s.net.callOf c)
    (hbehind : Clerk.Behind name net) : Inv name id { s with net } := by
  refine ⟨hbehind, ?_, ?_, ?_, ?_⟩
  · intro c
    simp only [hkv, Clerk.ver_congr hexecs, Clerk.seen_congr (hcalls c) hexecs]
    exact hs.pc_ok c
  · intro c call hc
    obtain ⟨call', hc', _, hop⟩ := Clerk.State.call_of_callOf_eq (hcalls c) hc
    rw [← hop]
    exact hs.call_pc c call' hc'
  · intro c hheld
    simp only [hkv]
    exact hs.held_owner c hheld
  · intro c hown
    simp only [hkv] at hown
    exact hs.owner_inside c hown

/-- A Put on the lock's key is one of Acquire or of Release. -/
theorem put_cases (hs : Inv name id s) {c : ι} {call : Clerk.Call} {args : PutArgs}
    (hcall : s.net.clerks c = some call) (hop : call.op = .put args)
    (hkey : args.key = name) :
    s.pc c = .acquirePut args.version ∧ args.value = id c ∨
      s.pc c = .releasePut args.version ∧ args.value = emptyLockOwnerId := by
  rcases hs.call_pc c call hcall with ⟨_, hputs⟩ | hpcop
  · simp [hop, KvOp.PutsOn, hkey] at hputs
  · rw [hop] at hpcop
    cases hcase : s.pc c with
    | acquirePut v =>
      rw [hcase] at hpcop
      obtain rfl := KvOp.put.inj (Option.some.inj hpcop)
      exact Or.inl ⟨rfl, rfl⟩
    | releasePut v =>
      rw [hcase] at hpcop
      obtain rfl := KvOp.put.inj (Option.some.inj hpcop)
      exact Or.inr ⟨rfl, rfl⟩
    | _ => simp [hcase, Pc.op] at hpcop

/-- The code puts on the lock's key at a version it has read. -/
theorem put_version_le (hs : Inv name id s) {c : ι} {args : PutArgs}
    (hop : (s.pc c).op name (id c) = some (.put args)) :
    args.version.toNat ≤ ver name s.net := by
  have hinv := hs.pc_ok c
  cases hpc : s.pc c with
  | acquirePut v =>
    rw [hpc] at hop hinv
    obtain rfl := KvOp.put.inj (Option.some.inj hop)
    exact hinv.le
  | releasePut v =>
    rw [hpc] at hop hinv
    obtain rfl := KvOp.put.inj (Option.some.inj hop)
    exact hinv.le
  | _ => simp [hpc, Pc.op] at hop

/-- A request leaves the queue without changing the lock's key. -/
theorem serve_unapplied (hs : Inv name id s) (hne : ∀ c, id c ≠ emptyLockOwnerId)
    (hwf : Clerk.WellFormed s.net) (hserved : Clerk.Served s.net)
    (hb : ver name s.net < 2 ^ 64) (rid : ℕ) (rest : List ℕ) (q : Clerk.Request)
    (hreq : s.net.reqs[rid]? = some q)
    (hun : appliedArgs name (q.op, (serve s.net.kv q.op).2) = none) :
    Inv name id { s with net := s.net.serveHead rid rest q } := by
  have hkv : (s.net.serveHead rid rest q).kv name = s.net.kv name := by
    change (serve s.net.kv q.op).1 name = _
    rw [serve_entry, hun]
  have hver : ver name (s.net.serveHead rid rest q) = ver name s.net := by
    rw [Clerk.ver_serveHead, hun]
    rfl
  refine ⟨hs.behind.serve hwf hserved hb hreq, ?_, hs.call_pc, ?_, ?_⟩
  · intro c
    simp only [hkv, hver]
    rcases Clerk.seen_serveHead_cases hwf rest hreq c with hseen | ⟨call, hcall, hop, hseen⟩
    · rw [hseen]
      exact hs.pc_ok c
    · rw [hseen]
      rcases hs.call_pc c call hcall with ⟨hother, _⟩ | hpcop
      · rw [hother]
        trivial
      · rw [hop] at hpcop
        have hnot : ¬ (serve s.net.kv q.op).2.Applied := by
          intro happ
          obtain ⟨args, hq, _⟩ := KVServer.serve_applied _ _ happ
          rw [hq] at hpcop
          have hkey : args.key = name := by
            cases hpc : s.pc c <;> simp [hpc, Pc.op] at hpcop <;> rw [← hpcop]
          have hsome := appliedArgs_eq_some.mpr ⟨hq, hkey, happ⟩
          rw [hun] at hsome
          cases hsome
        exact (hs.pc_ok c).answered hserved hb (hne c) hpcop hnot
  · intro c hheld
    simp only [hkv]
    exact hs.held_owner c hheld
  · intro c hown
    simp only [hkv] at hown
    exact hs.owner_inside c hown

/-- The only two ways the lock's key changes: by the Put of an Acquire in
progress on a free lock, or by the Put of the owner's Release in progress. -/
theorem handover (hs : Inv name id s) (hwf : Clerk.WellFormed s.net)
    (hserved : Clerk.Served s.net) (hb : ver name s.net < 2 ^ 64) {rid : ℕ} {rest : List ℕ}
    {q : Clerk.Request} {args : PutArgs} (hq : s.net.opQ = rid :: rest)
    (hreq : s.net.reqs[rid]? = some q)
    (happ : appliedArgs name (q.op, (serve s.net.kv q.op).2) = some args) :
    ∃ c call, s.net.clerks c = some call ∧ q.opId = call.opId ∧
      args.version.toNat = ver name s.net ∧
      (s.pc c = .acquirePut args.version ∧ args.value = id c ∧
          owner (s.net.kv name) = emptyLockOwnerId ∨
        s.pc c = .releasePut args.version ∧ args.value = emptyLockOwnerId ∧
          owner (s.net.kv name) = id c) := by
  obtain ⟨c, call, hcall, hid, hop, hcur⟩ := hs.behind.handover hwf hserved hb hq hreq happ
  obtain ⟨_, hkey, _⟩ := appliedArgs_eq_some.mp happ
  have hpc := hs.pc_ok c
  refine ⟨c, call, hcall, hid, hcur, ?_⟩
  rcases hs.put_cases hcall hop hkey with ⟨hacq, hval⟩ | ⟨hrel, hval⟩
  · rw [hacq] at hpc
    exact Or.inl ⟨hacq, hval, hpc.free hcur⟩
  · rw [hrel] at hpc
    exact Or.inr ⟨hrel, hval, hpc.mine hcur⟩

theorem serve_applied (hs : Inv name id s) (hinj : Function.Injective id)
    (hne : ∀ c, id c ≠ emptyLockOwnerId) (hwf : Clerk.WellFormed s.net)
    (hserved : Clerk.Served s.net) (hb : ver name s.net < 2 ^ 64) (rid : ℕ) (rest : List ℕ)
    (q : Clerk.Request) (args : PutArgs) (hq : s.net.opQ = rid :: rest)
    (hreq : s.net.reqs[rid]? = some q)
    (happ : appliedArgs name (q.op, (serve s.net.kv q.op).2) = some args) :
    Inv name id { s with net := s.net.serveHead rid rest q } := by
  obtain ⟨c, call, hcall, hid, hcur, hcase⟩ := hs.handover hwf hserved hb hq hreq happ
  have hok : (serve s.net.kv q.op).2 = .put ⟨.ok⟩ := (appliedArgs_eq_some.mp happ).2.2
  have hkv : (s.net.serveHead rid rest q).kv name = some ⟨args.value, args.version + 1⟩ := by
    change (serve s.net.kv q.op).1 name = _
    rw [serve_entry, happ]
  have hver : ver name (s.net.serveHead rid rest q) = ver name s.net + 1 := by
    rw [Clerk.ver_serveHead, happ]
    rfl
  have hpc := hs.pc_ok c
  -- for every other client the lock passed between two owners that are not it
  have hforeign : ∀ d, d ≠ c → owner (s.net.kv name) ≠ id d ∧ args.value ≠ id d := by
    intro d hd
    have hdc : id c ≠ id d := fun h => hd (hinj h).symm
    rcases hcase with ⟨_, hval, hown⟩ | ⟨_, hval, hown⟩
    · rw [hval, hown]
      exact ⟨(hne d).symm, hdc⟩
    · rw [hval, hown]
      exact ⟨hdc, (hne d).symm⟩
  refine ⟨hs.behind.serve hwf hserved hb hreq, ?_, hs.call_pc, ?_, ?_⟩
  · intro d
    simp only [hkv, hver]
    by_cases hd : d = c
    · subst hd
      rw [Clerk.seen_serveHead hcall hid, hok]
      rcases hcase with ⟨hacq, hval, _⟩ | ⟨hrel, hval, _⟩
      · rw [hacq] at hpc ⊢
        exact hpc.applied hval (by simp) hcur
      · rw [hrel] at hpc ⊢
        refine hpc.applied ?_ (by simp) hcur
        change args.value ≠ id d
        rw [hval]
        exact (hne d).symm
    · obtain ⟨h1, h2⟩ := hforeign d hd
      have h2' : owner (some ⟨args.value, args.version + 1⟩) ≠ id d := h2
      have hseen : Seen (s.net.serveHead rid rest q) d = Seen s.net d := by
        refine Clerk.seen_serveHead_foreign ?_
        intro call' hcall' hid'
        exact hd (hwf.call_unique hcall' hcall (hid'.symm.trans hid))
      rw [hseen]
      exact (hs.pc_ok d).foreign h1 h2' (by simp)
  · intro d hheld
    obtain ⟨hown, hrel⟩ := hs.held_owner d hheld
    by_cases hd : d = c
    · subst hd
      rcases hcase with ⟨_, _, hempty⟩ | ⟨hpc', _, _⟩
      · exact absurd (hown.symm.trans hempty) (hne d)
      · rw [hpc'] at hrel
        exact absurd trivial hrel
    · exact absurd hown (hforeign d hd).1
  · intro d hown
    simp only [hkv, owner] at hown
    by_cases hd : d = c
    · subst hd
      rcases hcase with ⟨hacq, _, _⟩ | ⟨_, hval, _⟩
      · exact Or.inr (Or.inl (by rw [hacq]; trivial))
      · exact absurd (hown.symm.trans hval) (hne d)
    · exact absurd hown (hforeign d hd).2

variable [DecidableEq ι]

/-- A client without a clerk call in progress goes on at another point. -/
theorem relocate (hs : Inv name id s) (c : ι) (net : Clerk.State ι) (pc : Pc) (held : Bool)
    (hkv : net.kv = s.net.kv) (hexecs : net.execs = s.net.execs)
    (hothers : ∀ d, d ≠ c → net.clerks d = s.net.clerks d) (hidle : net.clerks c = none)
    (hbehind : Clerk.Behind name net)
    (hpc : PcInv (id c) (s.net.kv name) (ver name s.net) (fun _ => False) pc)
    (hheld : held = true → owner (s.net.kv name) = id c ∧ ¬ pc.Releasing)
    (hown : owner (s.net.kv name) = id c → held = true ∨ pc.Acquiring ∨ pc.Releasing) :
    Inv name id ⟨net, Function.update s.pc c pc, Function.update s.held c held⟩ := by
  refine ⟨hbehind, ?_, ?_, ?_, ?_⟩
  · simp only [hkv, Clerk.ver_congr hexecs]
    exact Clerk.known_update hexecs hothers hidle hs.pc_ok hpc
  · intro d call hcall
    by_cases hd : d = c
    · subst hd
      rw [hidle] at hcall
      cases hcall
    · rw [hothers d hd] at hcall
      simpa only [Function.update_of_ne hd] using hs.call_pc d call hcall
  · intro d hd
    simp only [hkv]
    by_cases hdc : d = c
    · subst hdc
      simp only [Function.update_self] at hd ⊢
      exact hheld hd
    · simp only [Function.update_of_ne hdc] at hd ⊢
      exact hs.held_owner d hd
  · intro d hd
    simp only [hkv] at hd
    by_cases hdc : d = c
    · subst hdc
      simp only [Function.update_self]
      exact hown hd
    · simp only [Function.update_of_ne hdc]
      exact hs.owner_inside d hd

theorem startAcquire (hs : Inv name id s) (c : ι) (hpc : s.pc c = .idle) :
    Inv name id (s.jump c .acquireGet) := by
  have hinv := hs.relocate c s.net .acquireGet (s.held c) rfl rfl (fun _ _ => rfl)
    (hs.idle_of_pc hpc) hs.behind (fun r hr => hr.elim)
    (fun hheld => ⟨(hs.held_owner c hheld).1, not_false⟩) (fun _ => Or.inr (Or.inl trivial))
  rw [Function.update_eq_self] at hinv
  exact hinv

theorem startRelease (hs : Inv name id s) (c : ι) (hpc : s.pc c = .idle) :
    Inv name id { s.jump c .releaseGet with held := Function.update s.held c false } :=
  hs.relocate c s.net .releaseGet false rfl rfl (fun _ _ => rfl) (hs.idle_of_pc hpc) hs.behind
    (fun r hr => hr.elim) (fun hheld => by cases hheld) (fun _ => Or.inr (Or.inr trivial))

/-- The application is about to use its clerk. -/
theorem startOther (hs : Inv name id s) (c : ι) (hpc : s.pc c = .idle) :
    Inv name id (s.jump c .other) := by
  have hin := hs.owner_inside c
  simp only [hpc, Pc.Acquiring, Pc.Releasing, or_false] at hin
  have hinv := hs.relocate c s.net .other (s.held c) rfl rfl (fun _ _ => rfl)
    (hs.idle_of_pc hpc) hs.behind trivial
    (fun hheld => ⟨(hs.held_owner c hheld).1, not_false⟩) (fun hown => Or.inl (hin hown))
  rw [Function.update_eq_self] at hinv
  exact hinv

/-- A client starts a clerk call, at its program counter or next to the lock. -/
theorem invoke (hs : Inv name id s) (hwf : Clerk.WellFormed s.net) (c : ι) (op : KvOp)
    (hidle : s.net.clerks c = none)
    (hcall : s.pc c = .other ∧ op.PutsOn name = false ∨ (s.pc c).op name (id c) = some op) :
    Inv name id { s with net := s.net.invoke c op } := by
  have hle : ∀ args, op = .put args → args.key = name →
      args.version.toNat ≤ ver name s.net := by
    rintro args rfl hkey
    rcases hcall with ⟨_, hputs⟩ | hop
    · simp [KvOp.PutsOn, hkey] at hputs
    · exact hs.put_version_le hop
  refine ⟨hs.behind.invoke hwf c op hidle hle, ?_, ?_, hs.held_owner, hs.owner_inside⟩
  · simp only [Clerk.seen_invoke hwf op hidle]
    exact hs.pc_ok
  · intro d call hd
    rcases update_eq_some hd with ⟨rfl, hv⟩ | ⟨_, hold⟩
    · obtain rfl := Option.some.inj hv
      exact hcall
    · exact hs.call_pc d call hold

end Inv

end DistributedLabs.Lock
