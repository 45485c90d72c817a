import DistributedLabs.ClerkInvariants

/-!
What the answer of Clerk.Put says about the RPCs it sent. A refusal that came
back on the only RPC of the call is final: that RPC was executed and refused,
and no copy of it is left. Put turns ErrVersion on a resend into ErrMaybe, but
returns ErrNoKey as it is, while an earlier copy can still create the key's
next version.
-/
namespace DistributedLabs.Clerk

open KVServer Transition Tables

variable {ι : Type*}

/-- The two definite refusals of Clerk.Put. -/
def Refusal (res : KvReply) : Prop :=
  res = .put ⟨.errVersion⟩ ∨ res = .put ⟨.errNoKey⟩

/-- No RPC of the operation has been applied by the server. -/
def NeverApplied (s : State ι) (o : ℕ) : Prop :=
  ∀ e ∈ s.execs, e.opId = o → ¬ e.reply.Applied

instance (s : State ι) (o : ℕ) : Decidable (NeverApplied s o) :=
  inferInstanceAs (Decidable (∀ e ∈ s.execs, e.opId = o → ¬ e.reply.Applied))

/-- The answers of Put, read back from the reply it got on its i-th RPC. -/
theorem Call.finish_put {call : Call} {reply : KvReply} {err : Err}
    (h : call.finish reply = some (.put ⟨err⟩)) :
    (err = .ok ∧ reply = .put ⟨.ok⟩) ∨
      (err = .errMaybe ∧ reply = .put ⟨.errVersion⟩ ∧ 1 < call.i) ∨
      (err = .errVersion ∧ reply = .put ⟨.errVersion⟩ ∧ ¬ 1 < call.i) ∨
      (err = .errNoKey ∧ reply = .put ⟨.errNoKey⟩) := by
  cases reply with
  | get r => simp [Call.finish] at h
  | put r =>
    obtain ⟨e⟩ := r
    cases e with
    | ok =>
      simp only [Call.finish, put, Option.map_some, Option.some.injEq, KvReply.put.injEq,
        PutReply.mk.injEq] at h
      exact Or.inl ⟨h.symm, rfl⟩
    | errVersion =>
      by_cases hi : 1 < call.i
      · simp only [Call.finish, put, gt_iff_lt, hi, if_true, Option.map_some,
          Option.some.injEq, KvReply.put.injEq, PutReply.mk.injEq] at h
        exact Or.inr (Or.inl ⟨h.symm, rfl, hi⟩)
      · simp only [Call.finish, put, gt_iff_lt, hi, if_false, Option.map_some,
          Option.some.injEq, KvReply.put.injEq, PutReply.mk.injEq] at h
        exact Or.inr (Or.inr (Or.inl ⟨h.symm, rfl, hi⟩))
    | errNoKey =>
      simp only [Call.finish, put, Option.map_some, Option.some.injEq, KvReply.put.injEq,
        PutReply.mk.injEq] at h
      exact Or.inr (Or.inr (Or.inr ⟨h.symm, rfl⟩))
    | errMaybe => simp [Call.finish, put] at h
    | errWrongLeader => simp [Call.finish, put] at h
    | errWrongGroup => simp [Call.finish, put] at h

/-- Clerk.Get returns what the server answered. -/
theorem Call.finish_get {call : Call} {kv : KvMap} {args : GetArgs} {res : KvReply}
    (h : call.finish (serve kv (.get args)).2 = some res) : res = .get (KVServer.get kv args) := by
  cases hkv : kv args.key with
  | none =>
    simp only [serve, KVServer.get, hkv, Call.finish, get, Option.map_some,
      Option.some.injEq] at h
    simp [KVServer.get, hkv, ← h]
  | some v =>
    simp only [serve, KVServer.get, hkv, Call.finish, get, Option.map_some,
      Option.some.injEq] at h
    simp [KVServer.get, hkv, ← h]

/-- The server's answers are ones on which a clerk returns. -/
theorem Call.finish_serve (call : Call) (kv : KvMap) (op : KvOp) :
    call.finish (serve kv op).2 ≠ none := by
  cases op with
  | get args => cases h : kv args.key <;> simp [Call.finish, serve, KVServer.get, h, get]
  | put args =>
    rcases put_cases kv args with ⟨_, hp⟩ | ⟨_, _, hp⟩ | ⟨_, _, hp⟩
    · simp [Call.finish, serve, hp, put]
    · by_cases hi : 1 < call.i <;> simp [Call.finish, serve, hp, put, hi]
    · simp [Call.finish, serve, hp, put]

/-- The call of a client without its attempts. -/
def State.callOf (s : State ι) (c : ι) : Option Request :=
  (s.clerks c).map fun call => ⟨call.opId, call.op⟩

variable {s t : State ι}

theorem State.callOf_eq_some {c : ι} {q : Request} :
    s.callOf c = some q ↔ ∃ call, s.clerks c = some call ∧ call.opId = q.opId ∧ call.op = q.op := by
  obtain ⟨opId, op⟩ := q
  simp [State.callOf]

/-- A call in progress is in progress in both states. -/
theorem State.call_of_callOf_eq {c : ι} (h : t.callOf c = s.callOf c) {call : Call}
    (hcall : t.clerks c = some call) :
    ∃ call', s.clerks c = some call' ∧ call'.opId = call.opId ∧ call'.op = call.op := by
  have hq : t.callOf c = some ⟨call.opId, call.op⟩ := by simp [State.callOf, hcall]
  exact State.callOf_eq_some.mp (h.symm.trans hq)

theorem Served.exec_answer (hs : Served s) {e : Exec} (he : e ∈ s.execs) :
    ∃ kv, e.reply = (serve kv e.op).2 := by
  obtain ⟨pre, suf, hsplit⟩ := List.append_of_mem he
  refine ⟨_, hs.answers (pre.map Exec.entry) e.op e.reply (suf.map Exec.entry) ?_⟩
  rw [State.history, hsplit, List.map_append, List.map_cons]
  rfl

/-- The reply a clerk is about to take is the server's answer to an RPC of the
call in progress. -/
theorem taken_answer (hwf : WellFormed s) (hserved : Served s) {c : ι} {call : Call} {rid : ℕ}
    {reply : KvReply} (hcall : s.clerks c = some call) (hrid : call.rid = some rid)
    (hst : s.status rid = .served reply) :
    ∃ e ∈ s.execs, e.rid = rid ∧ e.opId = call.opId ∧ e.reply = reply ∧
      ∃ kv, reply = (serve kv call.op).2 := by
  have hreq := hwf.clerk_rid c call rid hcall hrid
  obtain ⟨e, he, h1, h2⟩ := hwf.served_exec rid reply (getElem?_lt hreq) hst
  have hreq' := (hwf.exec_req e he).1
  rw [h1, hreq] at hreq'
  simp only [Option.some.injEq, Request.mk.injEq] at hreq'
  obtain ⟨kv, hkv⟩ := hserved.exec_answer he
  exact ⟨e, he, h1, hreq'.1.symm, h2, kv, by rw [← h2, hkv, hreq'.2]⟩

/-- An operation that sent one RPC had that one answered by the server. -/
theorem only_exec_of_single_send (hwf : WellFormed s) {o : ℕ} (honce : s.sends o ≤ 1)
    {e e' : Exec} (he : e ∈ s.execs) (he' : e' ∈ s.execs) (ho : e.opId = o)
    (ho' : e'.opId = o) : e = e' := by
  apply hwf.exec_unique he he'
  exact index_unique_of_countP_le_one honce (hwf.exec_req e he).1 (hwf.exec_req e' he').1
    (by simpa using ho) (by simpa using ho')

theorem refusal_single_send (hcount : Counted s) {o : ℕ} {ret : Return}
    (hret : s.rets o = some ret) (href : Refusal ret.res) (hbound : s.sends o < 2 ^ 64)
    (hnokey : ret.res = .put ⟨.errNoKey⟩ → s.sends o ≤ 1) :
    s.sends o ≤ 1 ∧ ∃ e ∈ s.execs, e.opId = o ∧ ¬ e.reply.Applied := by
  obtain ⟨e, he, call, _, ho, hi, hfin⟩ := hcount.ret_i o ret hret
  rw [Nat.mod_eq_of_lt hbound] at hi
  rcases href with hres | hres
  · rw [hres] at hfin
    rcases Call.finish_put hfin with ⟨h, _⟩ | ⟨h, _⟩ | ⟨_, hreply, hle⟩ | ⟨h, _⟩
    · cases h
    · cases h
    · refine ⟨?_, e, he, ho, by simp [hreply, KvReply.Applied]⟩
      have hlt : ¬ (1 : UInt64).toNat < call.i.toNat := hle
      rw [hi] at hlt
      simpa using hlt
    · cases h
  · have honce := hnokey hres
    rw [hres] at hfin
    rcases Call.finish_put hfin with ⟨h, _⟩ | ⟨h, _⟩ | ⟨h, _⟩ | ⟨_, hreply⟩
    · cases h
    · cases h
    · cases h
    · exact ⟨honce, e, he, ho, by simp [hreply, KvReply.Applied]⟩

variable [DecidableEq ι]

/-- A clerk's attempts are no new calls. -/
theorem State.callOf_update {c : ι} {call call' : Call} (hcall : s.clerks c = some call)
    (hclerks : t.clerks = Function.update s.clerks c (some call'))
    (hid : call'.opId = call.opId) (hop : call'.op = call.op) (d : ι) :
    t.callOf d = s.callOf d := by
  by_cases hd : d = c
  · subst hd
    simp [State.callOf, hclerks, hcall, hid, hop]
  · simp [State.callOf, hclerks, hd]

/-- Returns are permanent, and a returned call sends nothing more. -/
theorem Step.ret_stable {l : Label ι} (h : Step s l t) (hwf : WellFormed s) {o : ℕ}
    {ret : Return} (hret : s.rets o = some ret) :
    t.rets o = some ret ∧ t.sends o = s.sends o := by
  cases h with
  | send c call hcall hrid =>
    refine ⟨hret, ?_⟩
    have hid : call.opId ≠ o := by
      rintro rfl
      rw [(hwf.clerk_op c call hcall).1] at hret
      cases hret
    simp [Counted.sends_send, hid]
  | finish c call rid reply res hcall hrid hserved hfin =>
    have hid : o ≠ call.opId := by
      rintro rfl
      rw [(hwf.clerk_op c call hcall).1] at hret
      cases hret
    exact ⟨by simpa [hid] using hret, rfl⟩
  | _ => exact ⟨hret, rfl⟩

/-- The table of requests only grows. -/
theorem Step.reqs_grow {l : Label ι} (h : Step s l t) : ∃ new, t.reqs = s.reqs ++ new := by
  cases h with
  | send c call hcall hrid => exact ⟨_, rfl⟩
  | _ => exact ⟨[], (List.append_nil _).symm⟩

theorem Step.puts_le {l : Label ι} (h : Step s l t) (k : String) : s.puts k ≤ t.puts k := by
  obtain ⟨new, hnew⟩ := h.reqs_grow
  simp only [State.puts, hnew, List.countP_append]
  omega

theorem reqs_of_reaches (hst : system.Reaches s t) {rid : ℕ} {q : Request}
    (hq : s.reqs[rid]? = some q) : t.reqs[rid]? = some q := by
  induction hst with
  | refl => exact hq
  | tail l _ hstep ih =>
    obtain ⟨new, hnew⟩ := (step_sound hstep).reqs_grow
    rw [hnew]
    exact getElem?_append_of_some new ih

theorem ret_stable_of_reaches (hr : system.Reachable s) (hst : system.Reaches s t)
    {o : ℕ} {ret : Return} (hret : s.rets o = some ret) :
    t.rets o = some ret ∧ t.sends o = s.sends o := by
  induction hst with
  | refl => exact ⟨hret, rfl⟩
  | tail l hst' hstep ih =>
    have hwf := WellFormed.of_reachable (hr.reaches hst')
    obtain ⟨h1, h2⟩ := (step_sound hstep).ret_stable hwf ih.1
    exact ⟨h1, h2.trans ih.2⟩

/-- A refusal that Put received on its first RPC is final: neither before the
return nor at any later time is a request of the call applied. -/
theorem refusal_on_first_send_final (hr : system.Reachable s) {o : ℕ} {ret : Return}
    (hret : s.rets o = some ret) (href : Refusal ret.res)
    (hbound : s.sends o < 2 ^ 64) (hnokey : ret.res = .put ⟨.errNoKey⟩ → s.sends o = 1)
    (hst : system.Reaches s t) : NeverApplied t o := by
  have hrt := hr.reaches hst
  obtain ⟨hret', hsends⟩ := ret_stable_of_reaches hr hst hret
  rw [← hsends] at hbound hnokey
  obtain ⟨honce, e, he, ho, hnot⟩ :=
    refusal_single_send (Counted.of_reachable hrt) hret' href hbound fun h => (hnokey h).le
  intro e' he' ho'
  obtain rfl := only_exec_of_single_send (WellFormed.of_reachable hrt) honce he he' ho ho'
  exact hnot

/-- Key "k" is absent and the one RPC of Put("k", "a", 1) is refused. -/
def refusedAtOnce : List (Label Bool) :=
  [.invoke false (.put ⟨"k", "a", 1⟩), .send false, .enqueue 0, .serve, .deliver false]

/-- The other client then creates "k" at the version that Put asked for. -/
def createdLater : List (Label Bool) :=
  [.invoke true (.put ⟨"k", "b", 0⟩), .send true, .enqueue 1, .serve, .deliver true]

theorem refusal_on_first_send_reached :
    ∃ s t : State Bool, system.Reachable s ∧ s.rets 0 = some ⟨.put ⟨.errNoKey⟩, 0, 4⟩ ∧
      system.Reaches s t ∧ t.kv "k" = some ⟨"b", 1⟩ ∧ NeverApplied t 0 := by
  obtain ⟨s, hr, hp⟩ := System.Reachable.of_run_check (S := system) refusedAtOnce rfl
    (p := fun s => decide (s.rets 0 = some ⟨.put ⟨.errNoKey⟩, 0, 4⟩ ∧ s.sends 0 = 1) &&
      (system.run s createdLater).any fun t : State Bool =>
        decide (t.kv "k" = some (KvValue.mk "b" 1))) (by decide)
  obtain ⟨hs, hlater⟩ := (Bool.and_eq_true _ _).mp hp
  obtain ⟨hret, honce⟩ := of_decide_eq_true hs
  obtain ⟨t, hrun, ht⟩ := (Option.any_eq_true _ _).mp hlater
  have hst := system.reaches_of_run createdLater hrun
  exact ⟨s, t, hr, hret, hst, of_decide_eq_true ht, refusal_on_first_send_final hr hret
    (Or.inr rfl) (by omega) (fun _ => honce) hst⟩

/-- Put("k", "a", 1) is sent twice while "k" is absent. The second RPC is refused
and Put returns ErrNoKey; another clerk creates "k", and the first RPC, whose
Call had failed, is executed at version 1. -/
def refusedThenApplied : List (Label Bool) :=
  [.invoke false (.put ⟨"k", "a", 1⟩), .send false, .fail false, .send false, .enqueue 1,
    .serve, .deliver false, .invoke true (.put ⟨"k", "b", 0⟩), .send true, .enqueue 2,
    .serve, .deliver true, .enqueue 0, .serve]

theorem refusal_not_final :
    ¬ ∀ s : State Bool, system.Reachable s → ∀ o ret, s.rets o = some ret →
      Refusal ret.res → NeverApplied s o := by
  intro hall
  obtain ⟨s, hr, hp⟩ := System.Reachable.of_run_check (S := system) refusedThenApplied rfl
    (p := fun s => decide (s.rets 0 = some ⟨.put ⟨.errNoKey⟩, 1, 6⟩ ∧ ¬ NeverApplied s 0))
    (by decide)
  obtain ⟨hret, happ⟩ := of_decide_eq_true hp
  exact happ (hall s hr 0 _ hret (Or.inr rfl))

end DistributedLabs.Clerk
