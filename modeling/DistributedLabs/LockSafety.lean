import DistributedLabs.LockInvariant

/-!
Safety of the lock. When a clerk call returns, what the client has seen tells it
where it may go, so that no panic is reached, Acquire returns only to the owner
and Release only to somebody who is not. Mutual exclusion and the absence of
orphaned locks are read off the invariant.
-/
namespace DistributedLabs.Lock

open KVServer Transition Tables
open Clerk (ver Seen version_eq_ver entry_version entry_present)

variable {ι : Type*}

namespace Inv

variable {name : String} {id : ι → String} {s : State ι}

/-- Where a client may go when its clerk call returns. -/
def Landing (name : String) (id : ι → String) (s : State ι) (c : ι) : Next → Prop
  | .go pc =>
    PcInv (id c) (s.net.kv name) (ver name s.net) (fun _ => False) pc ∧
      (s.held c = true → ¬ pc.Releasing) ∧
      (owner (s.net.kv name) = id c → s.held c = true ∨ pc.Acquiring ∨ pc.Releasing)
  | .acquired => owner (s.net.kv name) = id c
  | .released => s.held c = false ∧ owner (s.net.kv name) ≠ id c

/-- Acquire goes on from any answer without reaching a panic, and returns only
as the owner. -/
theorem landing_acquire (hs : Inv name id s) (hserved : Clerk.Served s.net)
    {c : ι} {reply res : KvReply} {call : Clerk.Call}
    {kv : KvMap} (hpc : (s.pc c).Acquiring) (hop : (s.pc c).op name (id c) = some call.op)
    (hseen : Seen s.net c reply) (hreply : reply = (serve kv call.op).2)
    (hfin : call.finish reply = some res) :
    Landing name id s c (resume (id c) (s.pc c) res) := by
  have hinv := hs.pc_ok c
  have hagain : Landing name id s c (.go .acquireGet) :=
    ⟨fun r hr => hr.elim, fun _ => not_false, fun _ => Or.inr (Or.inl trivial)⟩
  cases hcase : s.pc c with
  | acquireGet =>
    rw [hcase] at hop hinv
    rw [← Option.some.inj hop] at hreply
    subst hreply
    obtain rfl := Clerk.Call.finish_get hfin
    have hread := hinv _ hseen
    simp only [resume, acquire]
    split
    · rename_i hun
      refine ⟨⟨hread.le, ?_, hread.present, fun _ h => h.elim⟩, fun _ => not_false,
        fun _ => Or.inr (Or.inl trivial)⟩
      intro heq
      rw [← hread.current heq]
      exact hun.elim hread.absent fun h => h
    · split
      · rename_i hval
        simp [Landing, hread.mine hval, owner]
      · exact hagain
  | acquirePut v =>
    rw [hcase] at hop hinv
    rw [← Option.some.inj hop] at hreply
    obtain ⟨err, rfl⟩ : ∃ err, reply = .put ⟨err⟩ := ⟨_, hreply⟩
    obtain ⟨hlt, hans⟩ := hinv.answers err hseen
    have hcheck : Landing name id s c (.go .acquireCheck) :=
      ⟨⟨entry_present hserved (by omega), fun r hr => hr.elim⟩, fun _ => not_false,
        fun _ => Or.inr (Or.inl trivial)⟩
    cases res with
    | get r => simp [Clerk.Call.finish] at hfin
    | put r =>
      obtain ⟨err'⟩ := r
      rcases Clerk.Call.finish_put hfin with ⟨rfl, h⟩ | ⟨rfl, h, _⟩ | ⟨rfl, h, _⟩ | ⟨rfl, h⟩
      · rcases hans with ⟨_, hown⟩ | hver
        · exact hown
        · rw [hver] at h
          cases h
      · exact hcheck
      · exact hagain
      · simp only [KvReply.put.injEq, PutReply.mk.injEq] at h
        rcases hans with ⟨hok, _⟩ | hver
        · rw [hok] at h
          cases h
        · rw [hver] at h
          cases h
  | acquireCheck =>
    rw [hcase] at hop hinv
    rw [← Option.some.inj hop] at hreply
    subst hreply
    obtain rfl := Clerk.Call.finish_get hfin
    obtain ⟨hread, herr⟩ := hinv.2 _ hseen
    simp only [resume, acquire, herr, if_false]
    split
    · rename_i hval
      simp [Landing, hread.mine hval, owner]
    · exact hagain
  | _ => simp [hcase, Pc.Acquiring] at hpc

/-- A refusal by version means that the Put of this Release was applied, by
another of its RPCs; so it was sent more than once. -/
theorem release_resent (hs : Inv name id s) (hwf : Clerk.WellFormed s.net)
    (hcount : Clerk.Counted s.net) (hb : s.net.puts name < 2 ^ 64) {c : ι}
    {call : Clerk.Call} {v : Tversion} (hcall : s.net.clerks c = some call)
    (hpc : s.pc c = .releasePut v) (hop : call.op = .put ⟨name, emptyLockOwnerId, v⟩)
    (hseen : Seen s.net c (.put ⟨.errVersion⟩)) : 1 < call.i := by
  have hinv := hs.pc_ok c
  rw [hpc] at hinv
  have hdone := hinv.done (hinv.answers _ hseen).1
  exact Clerk.resent_of_answers hwf hcount hcall hop hb hdone hseen (by simp)

/-- Release goes on from any answer without reaching a panic, and returns only
when it is not the owner. -/
theorem landing_release (hs : Inv name id s) (hne : ∀ c, id c ≠ emptyLockOwnerId)
    (hwf : Clerk.WellFormed s.net) (hserved : Clerk.Served s.net)
    (hcount : Clerk.Counted s.net) (hb : s.net.puts name < 2 ^ 64) {c : ι}
    {reply res : KvReply} {call : Clerk.Call} {kv : KvMap} (hcall : s.net.clerks c = some call)
    (hpc : (s.pc c).Releasing) (hop : (s.pc c).op name (id c) = some call.op)
    (hseen : Seen s.net c reply) (hreply : reply = (serve kv call.op).2)
    (hfin : call.finish reply = some res) :
    Landing name id s c (resume (id c) (s.pc c) res) := by
  have hinv := hs.pc_ok c
  have hheld : s.held c = false := by
    by_contra hh
    exact (hs.held_owner c (by simpa using hh)).2 hpc
  have hnotheld : ∀ p : Prop, s.held c = true → p := by
    intro p hh
    rw [hheld] at hh
    cases hh
  have hvb : ver name s.net < 2 ^ 64 := Nat.lt_of_le_of_lt (hwf.applied_le_puts name) hb
  cases hcase : s.pc c with
  | releaseGet =>
    rw [hcase] at hop hinv
    rw [← Option.some.inj hop] at hreply
    subst hreply
    obtain rfl := Clerk.Call.finish_get hfin
    have hread := hinv _ hseen
    simp only [resume, release]
    split
    · rename_i hout
      refine ⟨hheld, hread.notMine ?_⟩
      rcases hout with hun | hval
      · have hempty := hun.elim hread.absent fun h => h
        rw [hempty]
        exact (hne c).symm
      · exact hval
    · rename_i hout
      obtain ⟨_, hval⟩ := not_or.mp hout
      have hentry := hread.mine (not_not.mp hval)
      have hver := entry_version hserved hvb hentry
      refine ⟨⟨hread.le, by simp [hentry], fun _ => by simp [hentry, owner], fun hlt => ?_,
        fun _ h => h.elim⟩, hnotheld _, fun _ => Or.inr (Or.inr trivial)⟩
      simp only at hver
      omega
  | releasePut v =>
    rw [hcase] at hop hinv
    have hcallop := (Option.some.inj hop).symm
    rw [hcallop] at hreply
    obtain ⟨err, rfl⟩ : ∃ err, reply = .put ⟨err⟩ := ⟨_, hreply⟩
    obtain ⟨hlt, hans⟩ := hinv.answers err hseen
    cases res with
    | get r => simp [Clerk.Call.finish] at hfin
    | put r =>
      obtain ⟨err'⟩ := r
      rcases Clerk.Call.finish_put hfin with ⟨rfl, h⟩ | ⟨rfl, h, _⟩ | ⟨rfl, h, hi⟩ | ⟨rfl, h⟩
      · rcases hans with ⟨_, hown⟩ | hver
        · exact ⟨hheld, hown⟩
        · rw [hver] at h
          cases h
      · exact ⟨⟨hinv.present, fun r hr => hr.elim⟩, hnotheld _,
          fun _ => Or.inr (Or.inr trivial)⟩
      · rw [h] at hseen
        exact absurd (hs.release_resent hwf hcount hb hcall hcase hcallop hseen) hi
      · simp only [KvReply.put.injEq, PutReply.mk.injEq] at h
        rcases hans with ⟨hok, _⟩ | hver
        · rw [hok] at h
          cases h
        · rw [hver] at h
          cases h
  | releaseCheck =>
    rw [hcase] at hop hinv
    rw [← Option.some.inj hop] at hreply
    subst hreply
    obtain rfl := Clerk.Call.finish_get hfin
    obtain ⟨hread, herr⟩ := hinv.2 _ hseen
    simp only [resume, release, herr, if_false]
    split
    · exact ⟨fun r hr => hr.elim, hnotheld _, fun _ => Or.inr (Or.inr trivial)⟩
    · rename_i hval
      refine ⟨hheld, hread.notMine ?_⟩
      rw [not_not.mp hval]
      exact (hne c).symm
  | _ => simp [hcase, Pc.Releasing] at hpc

variable [DecidableEq ι]

theorem land (hs : Inv name id s) {c : ι} {call : Clerk.Call} (rid : ℕ) (res : KvReply)
    {n : Next} (hbehind : Clerk.Behind name (s.net.finish c call rid res))
    (hn : Landing name id s c n) :
    Inv name id ({ s with net := s.net.finish c call rid res }.next c n) := by
  have hmove := fun pc held => hs.relocate c (s.net.finish c call rid res) pc held rfl rfl
    (fun d hd => by simp [hd]) (by simp) hbehind
  cases n with
  | go pc =>
    have hinv := hmove pc (s.held c) hn.1
      (fun hheld => ⟨(hs.held_owner c hheld).1, hn.2.1 hheld⟩) hn.2.2
    rw [Function.update_eq_self] at hinv
    exact hinv
  | acquired =>
    exact hmove .idle true trivial (fun _ => ⟨hn, not_false⟩) (fun _ => Or.inl rfl)
  | released =>
    have hinv := hmove .idle (s.held c) trivial
      (fun hheld => by rw [hn.1] at hheld; cases hheld) (fun hown => absurd hown hn.2)
    rw [Function.update_eq_self] at hinv
    exact hinv

/-- The clerk call of a client returns and the client goes on. -/
theorem ret (hs : Inv name id s) (hne : ∀ c, id c ≠ emptyLockOwnerId)
    (hwf : Clerk.WellFormed s.net) (hserved : Clerk.Served s.net)
    (hcount : Clerk.Counted s.net) (hb : s.net.puts name < 2 ^ 64) (c : ι)
    (call : Clerk.Call) (rid : ℕ) (reply res : KvReply) (hcall : s.net.clerks c = some call)
    (hrid : call.rid = some rid) (hst : s.net.status rid = .served reply)
    (hfin : call.finish reply = some res) :
    Inv name id ({ s with net := s.net.finish c call rid res }.next c
      (resume (id c) (s.pc c) res)) := by
  obtain ⟨e, he, _, ho, hr, kv, hreply⟩ := Clerk.taken_answer hwf hserved hcall hrid hst
  have hseen : Seen s.net c reply := ⟨call, hcall, e, he, ho, hr⟩
  refine hs.land rid res (hs.behind.finish hwf hserved res hcall hrid hst) ?_
  rcases hs.call_pc c call hcall with ⟨hother, _⟩ | hop
  · rw [hother]
    refine ⟨trivial, fun _ => not_false, fun hown => ?_⟩
    have hin := hs.owner_inside c hown
    simpa [hother, Pc.Acquiring, Pc.Releasing] using hin
  · have hside : (s.pc c).Acquiring ∨ (s.pc c).Releasing := by
      cases hpc : s.pc c <;> simp [hpc, Pc.op, Pc.Acquiring, Pc.Releasing] at hop ⊢
    rcases hside with hpc | hpc
    · exact hs.landing_acquire hserved hpc hop hseen hreply hfin
    · exact hs.landing_release hne hwf hserved hcount hb hcall hpc hop hseen hreply hfin

theorem step {t : State ι} (h : Step name id s t) (hinj : Function.Injective id)
    (hne : ∀ c, id c ≠ emptyLockOwnerId) (hwf : Clerk.WellFormed s.net)
    (hserved : Clerk.Served s.net) (hcount : Clerk.Counted s.net)
    (hb : s.net.puts name < 2 ^ 64) (hs : Inv name id s) : Inv name id t := by
  have hvb : ver name s.net < 2 ^ 64 := Nat.lt_of_le_of_lt (hwf.applied_le_puts name) hb
  cases h with
  | acquire c hpc => exact hs.startAcquire c hpc
  | release c hpc => exact hs.startRelease c hpc
  | call c op hop hidle => exact hs.invoke hwf c op hidle (Or.inr hop)
  | other c op hpc hputs hidle =>
    refine (hs.startOther c hpc).invoke hwf c op hidle (Or.inl ⟨?_, hputs⟩)
    simp [State.jump]
  | send c call hcall =>
    exact hs.frame rfl rfl (Clerk.State.callOf_update hcall rfl rfl rfl) (hs.behind.send hcall)
  | drop rid hsent => exact hs.frame rfl rfl (fun _ => rfl) (hs.behind.drop hsent)
  | enqueue rid hsent => exact hs.frame rfl rfl (fun _ => rfl) (hs.behind.enqueue hsent)
  | serve rid rest q hq hreq =>
    cases happ : appliedArgs name (q.op, (serve s.net.kv q.op).2) with
    | none => exact hs.serve_unapplied hne hwf hserved hvb rid rest q hreq happ
    | some args => exact hs.serve_applied hinj hne hwf hserved hvb rid rest q args hq hreq happ
  | retry c call hcall =>
    exact hs.frame rfl rfl (Clerk.State.callOf_update hcall rfl rfl rfl) (hs.behind.retry hcall)
  | ret c call rid reply res hcall hrid hst hfin =>
    exact hs.ret hne hwf hserved hcount hb c call rid reply res hcall hrid hst hfin

end Inv

section Reachable

variable {name : String} {id : ι → String} {s : State ι}

theorem entry_of_owner {c : ι} (hne : id c ≠ emptyLockOwnerId) {entry : Option KvValue}
    (h : owner entry = id c) : ∃ v, entry = some ⟨id c, v⟩ := by
  cases entry with
  | none => exact absurd h.symm hne
  | some v => exact ⟨v.version, by rw [← h]; rfl⟩

/-- A request that `c` has sent. -/
def SentBy (net : Clerk.State ι) (c : ι) (rid : ℕ) : Prop :=
  ∃ q op time, net.reqs[rid]? = some q ∧ net.ops[q.opId]? = some ⟨c, op, time⟩

/-- A client outside Acquire and Release has no Put on the lock's key that has
not returned. -/
theorem sent_returned (hs : Inv name id s) (hwf : Clerk.WellFormed s.net) {c : ι} {rid : ℕ}
    {q : Clerk.Request} (hout : (s.pc c).Outside) (hsent : SentBy s.net c rid)
    (hq : s.net.reqs[rid]? = some q) (hputs : q.op.PutsOn name = true) :
    ∃ ret, s.net.rets q.opId = some ret := by
  obtain ⟨q', op, time, hq', hop⟩ := hsent
  obtain rfl := Option.some.inj (hq'.symm.trans hq)
  cases hret : s.net.rets q'.opId with
  | some ret => exact ⟨ret, rfl⟩
  | none =>
    obtain ⟨call, hcall, hid⟩ := hwf.op_open _ _ hop hret
    have hqop := hwf.req_call_op hcall hq hid.symm
    rcases hs.call_pc c call hcall with ⟨_, hnot⟩ | hpcop
    · rw [← hqop, hputs] at hnot
      cases hnot
    · cases hpc : s.pc c <;> simp [hpc, Pc.Outside, Pc.op] at hout hpcop

/-- Once its call has returned, a Put on the lock's key cannot be applied. -/
theorem returned_put_stale (hs : Inv name id s) (hwf : Clerk.WellFormed s.net)
    (hserved : Clerk.Served s.net) (hvb : ver name s.net < 2 ^ 64) {rid : ℕ}
    {q : Clerk.Request} {ret : Clerk.Return} (hq : s.net.reqs[rid]? = some q)
    (hfl : (s.net.status rid).InFlight) (hret : s.net.rets q.opId = some ret) :
    (serve s.net.kv q.op).1 name = s.net.kv name := by
  rw [serve_entry]
  cases happ : appliedArgs name (q.op, (serve s.net.kv q.op).2) with
  | none => rfl
  | some args =>
    obtain ⟨hop, hkey, hok⟩ := appliedArgs_eq_some.mp happ
    obtain ⟨args', hop', hmatch, _⟩ := KVServer.serve_applied _ _ hok
    obtain rfl := KvOp.put.inj (hop.symm.trans hop')
    rw [hkey] at hmatch
    obtain ⟨c, call, hcall, hid⟩ := (hs.behind.inflight rid q args hq hfl hop hkey).2
      (by rw [← hmatch]; exact version_eq_ver hserved hvb)
    rw [← hid, (hwf.clerk_op c call hcall).1] at hret
    cases hret

variable [DecidableEq ι]

theorem puts_le_of_step {t : State ι} {l : Label ι} (h : step name id s l = some t) :
    s.net.puts name ≤ t.net.puts name := by
  rcases step_net h with heq | ⟨l', hl'⟩
  · rw [heq]
  · exact (Clerk.step_sound hl').puts_le name

theorem inv_of_reachable (hinj : Function.Injective id) (hne : ∀ c, id c ≠ emptyLockOwnerId)
    (hr : (system name id).Reachable s) (hb : s.net.puts name < 2 ^ 64) :
    Inv name id s := by
  refine System.Reachable.invariant_of_bound
    (B := fun s => s.net.puts name < 2 ^ 64) ?_ ?_ ?_ hr hb
  · intro s l t hstep hb
    exact Nat.lt_of_le_of_lt (puts_le_of_step hstep) hb
  · rintro s rfl
    exact Inv.initial hne
  · intro s l t hr hb hs hstep
    have hnet := net_reachable hr
    exact Inv.step (step_sound hstep) hinj hne (Clerk.WellFormed.of_reachable hnet)
      (Clerk.Served.of_reachable hnet) (Clerk.Counted.of_reachable hnet)
      (Nat.lt_of_le_of_lt (puts_le_of_step hstep) hb) hs

/-- Mutual exclusion. Between a return from Acquire and the next call of Release
the server's value is the client's id, in every reachable state. -/
theorem mutual_exclusion (hinj : Function.Injective id)
    (hne : ∀ c, id c ≠ emptyLockOwnerId) (hr : (system name id).Reachable s)
    (hb : s.net.puts name < 2 ^ 64) :
    (∀ c, s.held c = true → ∃ v, s.net.kv name = some ⟨id c, v⟩) ∧
      ∀ c d, s.held c = true → s.held d = true → c = d := by
  have hs := inv_of_reachable hinj hne hr hb
  constructor
  · intro c hc
    exact entry_of_owner (hne c) (hs.held_owner c hc).1
  · intro c d hc hd
    exact hinj ((hs.held_owner c hc).1.symm.trans (hs.held_owner d hd).1)

/-- Two clients with ids "a" and "b". -/
def twoIds : Bool → String
  | false => "a"
  | true => "b"

theorem twoIds_injective : Function.Injective twoIds := by
  intro c d h
  cases c <;> cases d <;> first | rfl | simp [twoIds] at h

theorem twoIds_ne_empty : ∀ c, twoIds c ≠ emptyLockOwnerId := by decide

/-- The labels of a clerk call whose first RPC, numbered `rid`, is answered. -/
def answered (c : Bool) (op : KvOp) (rid : ℕ) : List (Label Bool) :=
  [.clerk (.invoke c op), .clerk (.send c), .clerk (.enqueue rid), .clerk .serve,
    .clerk (.deliver c)]

/-- Acquire's Put takes effect but its reply is lost; the resent Put is refused,
and the Get that follows ErrMaybe finds the client's own id. -/
def acquiredByCheck : List (Label Bool) :=
  .acquire false :: answered false (.get ⟨"l"⟩) 0 ++
    [.clerk (.invoke false (.put ⟨"l", "a", 0⟩)), .clerk (.send false), .clerk (.enqueue 1),
      .clerk .serve, .clerk (.fail false), .clerk (.send false), .clerk (.enqueue 2),
      .clerk .serve, .clerk (.deliver false)] ++
    answered false (.get ⟨"l"⟩) 3

theorem mutual_exclusion_acquiredByCheck :
    ∃ s, (system "l" twoIds).Reachable s ∧ s.held false = true ∧
      (∃ v, s.net.kv "l" = some ⟨"a", v⟩) ∧ s.held true = false := by
  obtain ⟨s, hr, hp⟩ := System.Reachable.of_run_check (S := system "l" twoIds)
    acquiredByCheck rfl
    (p := fun s => decide (s.held false = true ∧ s.net.puts "l" = 2)) (by decide)
  obtain ⟨hheld, hputs⟩ := of_decide_eq_true hp
  obtain ⟨howner, hone⟩ :=
    mutual_exclusion twoIds_injective twoIds_ne_empty hr (by omega)
  refine ⟨s, hr, hheld, howner false hheld, ?_⟩
  cases htrue : s.held true with
  | false => rfl
  | true => cases hone false true hheld htrue

/-- No orphaned lock. The id in the key is that of a client that holds the lock
or is in Acquire or Release. A request that a client outside both has left in
flight never changes the key, whenever it is executed, and the id of a client
that is outside both and does not hold the lock is not in the key. -/
theorem no_orphaned_lock (hinj : Function.Injective id)
    (hne : ∀ c, id c ≠ emptyLockOwnerId) (hr : (system name id).Reachable s)
    (hb : s.net.puts name < 2 ^ 64) :
    (∀ c v, s.net.kv name = some ⟨id c, v⟩ →
        s.held c = true ∨ (s.pc c).Acquiring ∨ (s.pc c).Releasing) ∧
      (∀ c rid, (s.pc c).Outside → SentBy s.net c rid →
        ∀ t, (system name id).Reaches s t → t.net.puts name < 2 ^ 64 →
          (t.net.status rid).InFlight → ∀ q, t.net.reqs[rid]? = some q →
            (serve t.net.kv q.op).1 name = t.net.kv name) ∧
      ∀ c v, (s.pc c).Outside → s.held c = false → s.net.kv name ≠ some ⟨id c, v⟩ := by
  have hs := inv_of_reachable hinj hne hr hb
  have hnet := net_reachable hr
  have hwf := Clerk.WellFormed.of_reachable hnet
  have hin : ∀ c v, s.net.kv name = some ⟨id c, v⟩ →
      s.held c = true ∨ (s.pc c).Acquiring ∨ (s.pc c).Releasing := by
    intro c v hv
    exact hs.owner_inside c (by rw [hv]; rfl)
  refine ⟨hin, ?_, ?_⟩
  · intro c rid hout hsent t hst htb hfl q hq
    have hnet' := net_reachable (hr.reaches hst)
    have ht := inv_of_reachable hinj hne (hr.reaches hst) htb
    have hwf' := Clerk.WellFormed.of_reachable hnet'
    have hvb : ver name t.net < 2 ^ 64 :=
      Nat.lt_of_le_of_lt (hwf'.applied_le_puts name) htb
    have hsent' := hsent
    obtain ⟨q', op, time, hq', hop⟩ := hsent'
    -- the request is the same entry of the table in both states
    obtain rfl : q' = q :=
      Option.some.inj ((Clerk.reqs_of_reaches (net_reaches hst) hq').symm.trans hq)
    cases hputs : q'.op.PutsOn name with
    | false =>
      rw [serve_entry]
      cases happ : appliedArgs name (q'.op, (serve t.net.kv q'.op).2) with
      | none => rfl
      | some args =>
        obtain ⟨hqop, hkey, _⟩ := appliedArgs_eq_some.mp happ
        simp [hqop, KvOp.PutsOn, hkey] at hputs
    | true =>
      obtain ⟨ret, hret⟩ := sent_returned hs hwf hout hsent hq' hputs
      have hret' := (Clerk.ret_stable_of_reaches hnet (net_reaches hst) hret).1
      exact returned_put_stale ht hwf' (Clerk.Served.of_reachable hnet') hvb hq hfl hret'
  · intro c v hout hheld hv
    rcases hin c v hv with h | h | h
    · rw [hheld] at h
      cases h
    · cases hpc : s.pc c <;> simp [hpc, Pc.Outside, Pc.Acquiring] at hout h
    · cases hpc : s.pc c <;> simp [hpc, Pc.Outside, Pc.Releasing] at hout h

/-- The first RPC of Acquire's Put stays in the network while the second is
applied and the client releases the lock. -/
def staleAfterRelease : List (Label Bool) :=
  .acquire false :: answered false (.get ⟨"l"⟩) 0 ++
    [.clerk (.invoke false (.put ⟨"l", "a", 0⟩)), .clerk (.send false),
      .clerk (.fail false), .clerk (.send false), .clerk (.enqueue 2), .clerk .serve,
      .clerk (.deliver false)] ++
    .release false :: answered false (.get ⟨"l"⟩) 3 ++
    answered false (.put ⟨"l", "", 1⟩) 4

theorem no_orphaned_lock_staleAfterRelease :
    ∃ s, (system "l" twoIds).Reachable s ∧ s.pc false = .idle ∧
      s.net.status 1 = .sent ∧ s.net.reqs[1]? = some ⟨1, .put ⟨"l", "a", 0⟩⟩ ∧
      (serve s.net.kv (.put ⟨"l", "a", 0⟩)).1 "l" = s.net.kv "l" := by
  obtain ⟨s, hr, hp⟩ := System.Reachable.of_run_check (S := system "l" twoIds)
    staleAfterRelease rfl
    (p := fun s => decide (s.pc false = .idle ∧ s.net.puts "l" = 3 ∧
      s.net.status 1 = .sent ∧
      s.net.reqs[1]? = some (Clerk.Request.mk 1 (.put ⟨"l", "a", 0⟩)) ∧
      s.net.ops[1]? = some (Clerk.Invocation.mk false (.put ⟨"l", "a", 0⟩) 5))) (by decide)
  obtain ⟨hpc, hputs, hsent, hreq, hop⟩ := of_decide_eq_true hp
  have hb : s.net.puts "l" < 2 ^ 64 := by omega
  obtain ⟨_, hstale, _⟩ := no_orphaned_lock twoIds_injective twoIds_ne_empty hr hb
  refine ⟨s, hr, hpc, hsent, hreq, ?_⟩
  exact hstale false 1 (by rw [hpc]; trivial) ⟨_, _, _, hreq, hop⟩ s System.Reaches.refl hb
    (by rw [hsent]; trivial) _ hreq

/-- None of the panics of Acquire and Release is ever reached. -/
theorem panics_unreachable (hinj : Function.Injective id)
    (hne : ∀ c, id c ≠ emptyLockOwnerId) (hr : (system name id).Reachable s)
    (hb : s.net.puts name < 2 ^ 64) : ∀ c p, s.pc c ≠ .panicked p := by
  intro c p hpc
  have hinv := (inv_of_reachable hinj hne hr hb).pc_ok c
  rw [hpc] at hinv
  exact hinv

/-- The second client, which does not hold the lock, calls Release and Acquire
while the first holds it. -/
def releasedByOther : List (Label Bool) :=
  .acquire false :: answered false (.get ⟨"l"⟩) 0 ++ answered false (.put ⟨"l", "a", 0⟩) 1 ++
    .release true :: answered true (.get ⟨"l"⟩) 2 ++
    .acquire true :: answered true (.get ⟨"l"⟩) 3

theorem panics_unreachable_releasedByOther :
    ∃ s, (system "l" twoIds).Reachable s ∧ s.pc true = .acquireGet ∧
      ∀ c p, s.pc c ≠ .panicked p := by
  obtain ⟨s, hr, hp⟩ := System.Reachable.of_run_check (S := system "l" twoIds)
    releasedByOther rfl
    (p := fun s => decide (s.pc true = .acquireGet ∧ s.net.puts "l" = 1)) (by decide)
  obtain ⟨hpc, hputs⟩ := of_decide_eq_true hp
  exact ⟨s, hr, hpc, panics_unreachable twoIds_injective twoIds_ne_empty hr (by omega)⟩

end Reachable

end DistributedLabs.Lock
