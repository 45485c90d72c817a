import DistributedLabs.Clerk
import DistributedLabs.KVHistory
import DistributedLabs.Tables

/-!
What holds in every reachable state of clerks, network and server, whatever the
clerks call. `WellFormed` ties calls, requests, the queue and the executions to
each other. `Timed` orders them by the clock. `Served` says that the executions,
in order, are a run of the server from its empty map. `Counted` says that a
clerk's counter is the number of RPCs of its call, up to wrapping.
-/
namespace DistributedLabs.Clerk

open KVServer Transition Tables

variable {ι : Type*}

structure WellFormed (s : State ι) : Prop where
  clerk_op : ∀ c call, s.clerks c = some call →
    s.rets call.opId = none ∧ ∃ t, s.ops[call.opId]? = some ⟨c, call.op, t⟩
  clerk_rid : ∀ c call rid, s.clerks c = some call → call.rid = some rid →
    s.reqs[rid]? = some ⟨call.opId, call.op⟩
  op_open : ∀ (o : ℕ) (inv : Invocation ι), s.ops[o]? = some inv → s.rets o = none →
    ∃ call, s.clerks inv.client = some call ∧ call.opId = o
  ret_op : ∀ o ret, s.rets o = some ret → o < s.ops.length
  req_op : ∀ (rid : ℕ) (q : Request), s.reqs[rid]? = some q →
    ∃ c t, s.ops[q.opId]? = some ⟨c, q.op, t⟩
  queue_mem : ∀ rid, rid ∈ s.opQ ↔ rid < s.reqs.length ∧ s.status rid = .queued
  queue_nodup : s.opQ.Nodup
  exec_req : ∀ e ∈ s.execs,
    s.reqs[e.rid]? = some ⟨e.opId, e.op⟩ ∧ s.status e.rid = .served e.reply
  served_exec : ∀ rid reply, rid < s.reqs.length → s.status rid = .served reply →
    ∃ e ∈ s.execs, e.rid = rid ∧ e.reply = reply
  exec_nodup : (s.execs.map Exec.rid).Nodup

namespace WellFormed

theorem initial : WellFormed (initial : State ι) where
  clerk_op c call h := by simp [Clerk.initial] at h
  clerk_rid c call rid h := by simp [Clerk.initial] at h
  op_open o inv h := by simp [Clerk.initial] at h
  ret_op o ret h := by simp [Clerk.initial] at h
  req_op rid q h := by simp [Clerk.initial] at h
  queue_mem rid := by simp [Clerk.initial]
  queue_nodup := by simp [Clerk.initial]
  exec_req e h := by simp [Clerk.initial] at h
  served_exec rid reply h := by simp [Clerk.initial] at h
  exec_nodup := by simp [Clerk.initial]

variable {s : State ι}

/-- A call that has not returned is the only call of its client. -/
theorem call_unique (hs : WellFormed s) {c d : ι} {call call' : Call}
    (hc : s.clerks c = some call) (hd : s.clerks d = some call')
    (heq : call.opId = call'.opId) : c = d := by
  obtain ⟨_, t, ht⟩ := hs.clerk_op c call hc
  obtain ⟨_, t', ht'⟩ := hs.clerk_op d call' hd
  rw [heq, ht'] at ht
  simp only [Option.some.injEq, Invocation.mk.injEq] at ht
  exact ht.1.symm

theorem opId_lt (hs : WellFormed s) {c : ι} {call : Call}
    (hc : s.clerks c = some call) : call.opId < s.ops.length := by
  obtain ⟨_, t, ht⟩ := hs.clerk_op c call hc
  exact getElem?_lt ht

theorem req_opId_lt (hs : WellFormed s) {rid : ℕ} {q : Request}
    (hq : s.reqs[rid]? = some q) : q.opId < s.ops.length := by
  obtain ⟨c, t, ht⟩ := hs.req_op rid q hq
  exact getElem?_lt ht

/-- Every request of a call carries the arguments of the call. -/
theorem req_call_op (hs : WellFormed s) {c : ι} {call : Call} {rid : ℕ} {q : Request}
    (hc : s.clerks c = some call) (hq : s.reqs[rid]? = some q)
    (heq : q.opId = call.opId) : q.op = call.op := by
  obtain ⟨_, t, ht⟩ := hs.clerk_op c call hc
  obtain ⟨d, t', ht'⟩ := hs.req_op rid q hq
  rw [heq, ht] at ht'
  simp only [Option.some.injEq, Invocation.mk.injEq] at ht'
  exact ht'.2.1.symm

theorem exec_unique (hs : WellFormed s) {e e' : Exec} (he : e ∈ s.execs)
    (he' : e' ∈ s.execs) (heq : e.rid = e'.rid) : e = e' :=
  List.inj_on_of_nodup_map hs.exec_nodup he he' heq

theorem exec_op (hs : WellFormed s) {e : Exec} (he : e ∈ s.execs) :
    ∃ c t, s.ops[e.opId]? = some ⟨c, e.op, t⟩ :=
  hs.req_op _ _ (hs.exec_req e he).1

/-- Executions of one call carry the arguments of the call. -/
theorem exec_op_eq (hs : WellFormed s) {e : Exec} (he : e ∈ s.execs)
    {inv : Invocation ι} (hinv : s.ops[e.opId]? = some inv) : e.op = inv.op := by
  obtain ⟨c, t, ht⟩ := hs.exec_op he
  rw [hinv] at ht
  exact (congrArg Invocation.op (Option.some.inj ht)).symm

theorem exec_same_op (hs : WellFormed s) {e e' : Exec} (he : e ∈ s.execs)
    (he' : e' ∈ s.execs) (heq : e.opId = e'.opId) : e.op = e'.op := by
  obtain ⟨c, t, ht⟩ := hs.exec_op he'
  exact hs.exec_op_eq he (heq ▸ ht)

theorem drop (hs : WellFormed s) (rid : ℕ) (hsent : s.status rid = .sent) :
    WellFormed (s.drop rid) where
  clerk_op := hs.clerk_op
  clerk_rid := hs.clerk_rid
  op_open := hs.op_open
  ret_op := hs.ret_op
  req_op := hs.req_op
  queue_mem r := by
    simp only [State.drop_opQ, State.drop_reqs, State.drop_status, hs.queue_mem r]
    by_cases hr : r = rid
    · subst hr
      simp [hsent]
    · simp [hr]
  queue_nodup := hs.queue_nodup
  exec_req e he := by
    obtain ⟨hreq, hst⟩ := hs.exec_req e he
    have hne : e.rid ≠ rid := by
      intro heq
      rw [heq, hsent] at hst
      exact Status.noConfusion hst
    exact ⟨hreq, by simpa [hne] using hst⟩
  served_exec r reply hlt hst := by
    by_cases hr : r = rid
    · subst hr
      simp at hst
    · exact hs.served_exec r reply hlt (by simpa [hr] using hst)
  exec_nodup := hs.exec_nodup

theorem enqueue (hs : WellFormed s) (rid : ℕ) (hlt : rid < s.reqs.length)
    (hsent : s.status rid = .sent) : WellFormed (s.enqueue rid) where
  clerk_op := hs.clerk_op
  clerk_rid := hs.clerk_rid
  op_open := hs.op_open
  ret_op := hs.ret_op
  req_op := hs.req_op
  queue_mem r := by
    simp only [State.enqueue_opQ, State.enqueue_reqs, State.enqueue_status, List.mem_append,
      List.mem_singleton, hs.queue_mem r]
    by_cases hr : r = rid
    · subst hr
      simp [hlt]
    · simp [hr]
  queue_nodup := by
    have hnot : rid ∉ s.opQ := by
      rw [hs.queue_mem rid, hsent]
      simp
    simp only [State.enqueue_opQ, List.nodup_append]
    refine ⟨hs.queue_nodup, by simp, ?_⟩
    intro a ha b hb heq
    obtain rfl := List.mem_singleton.mp hb
    exact hnot (heq ▸ ha)
  exec_req e he := by
    obtain ⟨hreq, hst⟩ := hs.exec_req e he
    have hne : e.rid ≠ rid := by
      intro heq
      rw [heq, hsent] at hst
      exact Status.noConfusion hst
    exact ⟨hreq, by simpa [hne] using hst⟩
  served_exec r reply hr hst := by
    by_cases heq : r = rid
    · subst heq
      simp at hst
    · exact hs.served_exec r reply hr (by simpa [heq] using hst)
  exec_nodup := hs.exec_nodup

/-- A queued request has not been executed. -/
theorem not_executed (hs : WellFormed s) (rid : ℕ) (hq : rid ∈ s.opQ) :
    ∀ e ∈ s.execs, e.rid ≠ rid := by
  intro e he heq
  have hst := (hs.exec_req e he).2
  rw [heq, ((hs.queue_mem rid).mp hq).2] at hst
  exact Status.noConfusion hst

theorem serveHead (hs : WellFormed s) (rid : ℕ) (rest : List ℕ) (q : Request)
    (hq : s.opQ = rid :: rest) (hreq : s.reqs[rid]? = some q) :
    WellFormed (s.serveHead rid rest q) where
  clerk_op := hs.clerk_op
  clerk_rid := hs.clerk_rid
  op_open := hs.op_open
  ret_op := hs.ret_op
  req_op := hs.req_op
  queue_mem r := by
    have hold := hs.queue_mem r
    have hnd := hs.queue_nodup
    rw [hq] at hold hnd
    simp only [State.serveHead_opQ, State.serveHead_reqs, State.serveHead_status]
    by_cases hr : r = rid
    · subst hr
      simpa using (List.nodup_cons.mp hnd).1
    · simpa [hr] using hold
  queue_nodup := by
    have hnd := hs.queue_nodup
    rw [hq] at hnd
    exact (List.nodup_cons.mp hnd).2
  exec_req e he := by
    have hnew := hs.not_executed rid (by simp [hq])
    rcases List.mem_append.mp he with hold | hlast
    · obtain ⟨hr, hst⟩ := hs.exec_req e hold
      have hne := hnew e hold
      exact ⟨hr, by simpa [hne] using hst⟩
    · obtain rfl := List.mem_singleton.mp hlast
      exact ⟨hreq, by simp⟩
  served_exec r reply hlt hst := by
    by_cases hr : r = rid
    · subst hr
      refine ⟨_, List.mem_append_right _ (List.mem_singleton.mpr rfl), rfl, ?_⟩
      simpa using hst
    · obtain ⟨e, he, h1, h2⟩ := hs.served_exec r reply hlt (by simpa [hr] using hst)
      exact ⟨e, List.mem_append_left _ he, h1, h2⟩
  exec_nodup := by
    have hnew := hs.not_executed rid (by simp [hq])
    simp only [State.serveHead_execs, List.map_append, List.map_cons, List.map_nil]
    rw [List.nodup_append]
    refine ⟨hs.exec_nodup, by simp, ?_⟩
    intro a ha b hb
    obtain ⟨e, he, rfl⟩ := List.mem_map.mp ha
    obtain rfl := List.mem_singleton.mp hb
    exact hnew e he

variable [DecidableEq ι]

theorem invoke (hs : WellFormed s) (c : ι) (op : KvOp) (hidle : s.clerks c = none) :
    WellFormed (s.invoke c op) where
  clerk_op d call hd := by
    rcases update_eq_some hd with ⟨rfl, hv⟩ | ⟨_, hold⟩
    · obtain rfl := Option.some.inj hv
      refine ⟨?_, s.clock, List.getElem?_concat_length⟩
      cases hret : s.rets s.ops.length with
      | none => exact hret
      | some ret => exact absurd (hs.ret_op _ ret hret) (by omega)
    · obtain ⟨hret, t, ht⟩ := hs.clerk_op d call hold
      exact ⟨hret, t, getElem?_append_of_some _ ht⟩
  clerk_rid d call rid hd hrid := by
    rcases update_eq_some hd with ⟨rfl, hv⟩ | ⟨_, hold⟩
    · obtain rfl := Option.some.inj hv
      simp at hrid
    · exact hs.clerk_rid d call rid hold hrid
  op_open o inv ho hret := by
    rcases getElem?_concat_cases ho with hold | ⟨rfl, rfl⟩
    · obtain ⟨call, hcall, hid⟩ := hs.op_open o inv hold hret
      have hne : inv.client ≠ c := by
        intro heq
        rw [heq, hidle] at hcall
        cases hcall
      exact ⟨call, by simpa [hne] using hcall, hid⟩
    · exact ⟨_, Function.update_self .., rfl⟩
  ret_op o ret h := by
    have hlt := hs.ret_op o ret h
    simp only [State.invoke_ops, List.length_append, List.length_singleton]
    omega
  req_op rid q hq := by
    obtain ⟨d, t, ht⟩ := hs.req_op rid q hq
    exact ⟨d, t, getElem?_append_of_some _ ht⟩
  queue_mem := hs.queue_mem
  queue_nodup := hs.queue_nodup
  exec_req := hs.exec_req
  served_exec := hs.served_exec
  exec_nodup := hs.exec_nodup

/-- A clerk that goes on with the same operation still has it open. -/
theorem clerk_op_update (hs : WellFormed s) {c d : ι} {call call' : Call}
    (hcall : s.clerks c = some call) (next : Call) (hid : next.opId = call.opId)
    (hop : next.op = call.op) (hd : Function.update s.clerks c (some next) d = some call') :
    s.rets call'.opId = none ∧ ∃ t, s.ops[call'.opId]? = some ⟨d, call'.op, t⟩ := by
  rcases update_eq_some hd with ⟨rfl, hv⟩ | ⟨_, hold⟩
  · obtain rfl := Option.some.inj hv
    rw [hid, hop]
    exact hs.clerk_op d call hcall
  · exact hs.clerk_op d call' hold

theorem op_open_update (hs : WellFormed s) {c : ι} {call : Call}
    (hcall : s.clerks c = some call) (next : Call) (hid : next.opId = call.opId) {o : ℕ}
    {inv : Invocation ι} (ho : s.ops[o]? = some inv) (hret : s.rets o = none) :
    ∃ call', Function.update s.clerks c (some next) inv.client = some call' ∧ call'.opId = o := by
  obtain ⟨call', hcall', ho'⟩ := hs.op_open o inv ho hret
  by_cases hc : inv.client = c
  · rw [hc, hcall] at hcall'
    obtain rfl := Option.some.inj hcall'
    exact ⟨next, by simp [hc], hid.trans ho'⟩
  · exact ⟨call', by simpa [hc] using hcall', ho'⟩

theorem send (hs : WellFormed s) (c : ι) (call : Call) (hcall : s.clerks c = some call) :
    WellFormed (s.send c call) where
  clerk_op d call' hd :=
    hs.clerk_op_update hcall { call with i := call.i + 1, rid := some s.reqs.length } rfl rfl hd
  clerk_rid d call' rid hd hrid := by
    rcases update_eq_some hd with ⟨rfl, hv⟩ | ⟨_, hold⟩
    · obtain rfl := Option.some.inj hv
      obtain rfl : s.reqs.length = rid := by simpa using hrid
      exact List.getElem?_concat_length
    · exact getElem?_append_of_some _ (hs.clerk_rid d call' rid hold hrid)
  op_open o inv ho hret :=
    hs.op_open_update hcall { call with i := call.i + 1, rid := some s.reqs.length } rfl ho hret
  ret_op := hs.ret_op
  req_op rid q hq := by
    rcases getElem?_concat_cases hq with hold | ⟨_, rfl⟩
    · exact hs.req_op rid q hold
    · obtain ⟨_, t, ht⟩ := hs.clerk_op c call hcall
      exact ⟨c, t, ht⟩
  queue_mem rid := by
    simp only [State.send_opQ, State.send_reqs, State.send_status, List.length_append,
      List.length_singleton, hs.queue_mem rid]
    by_cases hr : rid = s.reqs.length
    · subst hr
      simp
    · have hlt : rid < s.reqs.length + 1 ↔ rid < s.reqs.length := by omega
      simp [hr, hlt]
  queue_nodup := hs.queue_nodup
  exec_req e he := by
    obtain ⟨hreq, hst⟩ := hs.exec_req e he
    refine ⟨getElem?_append_of_some _ hreq, ?_⟩
    have hne : e.rid ≠ s.reqs.length := Nat.ne_of_lt (getElem?_lt hreq)
    simpa [hne] using hst
  served_exec rid reply hlt hst := by
    simp only [State.send_reqs, State.send_status, List.length_append,
      List.length_singleton] at hlt hst
    by_cases hr : rid = s.reqs.length
    · subst hr
      simp at hst
    · exact hs.served_exec rid reply (by omega) (by simpa [hr] using hst)
  exec_nodup := hs.exec_nodup

theorem retry (hs : WellFormed s) (c : ι) (call : Call) (hcall : s.clerks c = some call) :
    WellFormed (s.retry c call) where
  clerk_op d call' hd :=
    hs.clerk_op_update hcall { call with rid := none } rfl rfl hd
  clerk_rid d call' rid hd hrid := by
    rcases update_eq_some hd with ⟨rfl, hv⟩ | ⟨_, hold⟩
    · obtain rfl := Option.some.inj hv
      simp at hrid
    · exact hs.clerk_rid d call' rid hold hrid
  op_open o inv ho hret :=
    hs.op_open_update hcall { call with rid := none } rfl ho hret
  ret_op := hs.ret_op
  req_op := hs.req_op
  queue_mem := hs.queue_mem
  queue_nodup := hs.queue_nodup
  exec_req := hs.exec_req
  served_exec := hs.served_exec
  exec_nodup := hs.exec_nodup

theorem finish (hs : WellFormed s) (c : ι) (call : Call) (rid : ℕ) (res : KvReply)
    (hcall : s.clerks c = some call) : WellFormed (s.finish c call rid res) where
  clerk_op d call' hd := by
    rcases update_eq_some hd with ⟨rfl, hv⟩ | ⟨hne, hold⟩
    · exact absurd hv (by simp)
    · obtain ⟨hret, t, ht⟩ := hs.clerk_op d call' hold
      have hid : call'.opId ≠ call.opId := fun heq => hne (hs.call_unique hold hcall heq)
      exact ⟨by simpa [hid] using hret, t, ht⟩
  clerk_rid d call' rid' hd hrid := by
    rcases update_eq_some hd with ⟨rfl, hv⟩ | ⟨_, hold⟩
    · exact absurd hv (by simp)
    · exact hs.clerk_rid d call' rid' hold hrid
  op_open o inv ho hret := by
    have hid : o ≠ call.opId := by
      rintro rfl
      simp at hret
    obtain ⟨call', hcall', hid'⟩ := hs.op_open o inv ho (by simpa [hid] using hret)
    have hne : inv.client ≠ c := by
      intro heq
      rw [heq, hcall] at hcall'
      obtain rfl := Option.some.inj hcall'
      exact hid hid'.symm
    exact ⟨call', by simpa [hne] using hcall', hid'⟩
  ret_op o ret h := by
    rcases update_eq_some h with ⟨rfl, _⟩ | ⟨_, hold⟩
    · exact hs.opId_lt hcall
    · exact hs.ret_op o ret hold
  req_op := hs.req_op
  queue_mem := hs.queue_mem
  queue_nodup := hs.queue_nodup
  exec_req := hs.exec_req
  served_exec := hs.served_exec
  exec_nodup := hs.exec_nodup

theorem step {t : State ι} {l : Label ι} (h : Step s l t) (hs : WellFormed s) :
    WellFormed t := by
  cases h with
  | invoke c op hidle => exact hs.invoke c op hidle
  | send c call hcall hrid => exact hs.send c call hcall
  | drop rid hlt hsent => exact hs.drop rid hsent
  | enqueue rid hlt hsent hcap => exact hs.enqueue rid hlt hsent
  | serve rid rest q hq hreq => exact hs.serveHead rid rest q hq hreq
  | fail c call rid hcall hrid => exact hs.retry c call hcall
  | again c call rid reply hcall hrid hserved hfin => exact hs.retry c call hcall
  | finish c call rid reply res hcall hrid hserved hfin => exact hs.finish c call rid res hcall

theorem of_reachable (h : system.Reachable s) : WellFormed s := by
  refine System.Reachable.invariant ?_ ?_ h
  · rintro s rfl
    exact initial
  · intro s l t _ hs hstep
    exact step (step_sound hstep) hs

end WellFormed

structure Timed (s : State ι) : Prop where
  call_lt : ∀ (o : ℕ) (inv : Invocation ι), s.ops[o]? = some inv → inv.call < s.clock
  exec_after_call : ∀ e ∈ s.execs, ∀ inv, s.ops[e.opId]? = some inv → inv.call < e.time
  exec_sorted : s.execs.Pairwise fun e e' => e.time < e'.time
  exec_lt : ∀ e ∈ s.execs, e.time < s.clock
  ret_after_exec : ∀ o ret, s.rets o = some ret → ret.time < s.clock ∧
    ∃ e ∈ s.execs, e.rid = ret.rid ∧ e.time < ret.time

namespace Timed

theorem initial : Timed (initial : State ι) where
  call_lt o inv h := by simp [Clerk.initial] at h
  exec_after_call e h := by simp [Clerk.initial] at h
  exec_sorted := by simp [Clerk.initial]
  exec_lt e h := by simp [Clerk.initial] at h
  ret_after_exec o ret h := by simp [Clerk.initial] at h

variable {s : State ι}

/-- Steps that only move the clock among these fields. -/
theorem tick (hs : Timed s) {t : State ι} (hops : t.ops = s.ops) (hexecs : t.execs = s.execs)
    (hrets : t.rets = s.rets) (hclock : t.clock = s.clock + 1) : Timed t where
  call_lt o inv h := by
    rw [hops] at h
    have hlt := hs.call_lt o inv h
    omega
  exec_after_call e he inv h := by
    rw [hexecs] at he
    rw [hops] at h
    exact hs.exec_after_call e he inv h
  exec_sorted := hexecs ▸ hs.exec_sorted
  exec_lt e he := by
    rw [hexecs] at he
    have hlt := hs.exec_lt e he
    omega
  ret_after_exec o ret h := by
    rw [hrets] at h
    obtain ⟨hlt, e, he, hrid, htime⟩ := hs.ret_after_exec o ret h
    exact ⟨by omega, e, by rwa [hexecs], hrid, htime⟩

theorem serveHead (hs : Timed s) (rid : ℕ) (rest : List ℕ) (q : Request) :
    Timed (s.serveHead rid rest q) where
  call_lt o inv h := Nat.lt_succ_of_lt (hs.call_lt o inv h)
  exec_after_call e he inv h := by
    rcases List.mem_append.mp he with hold | hlast
    · exact hs.exec_after_call e hold inv h
    · obtain rfl := List.mem_singleton.mp hlast
      exact hs.call_lt _ inv h
  exec_sorted := by
    simp only [State.serveHead_execs, List.pairwise_append]
    refine ⟨hs.exec_sorted, List.pairwise_singleton _ _, ?_⟩
    intro e he e' he'
    obtain rfl := List.mem_singleton.mp he'
    exact hs.exec_lt e he
  exec_lt e he := by
    rcases List.mem_append.mp he with hold | hlast
    · exact Nat.lt_succ_of_lt (hs.exec_lt e hold)
    · obtain rfl := List.mem_singleton.mp hlast
      exact Nat.lt_succ_self _
  ret_after_exec o ret h := by
    obtain ⟨hlt, e, he, hrid, htime⟩ := hs.ret_after_exec o ret h
    exact ⟨Nat.lt_succ_of_lt hlt, e, List.mem_append_left _ he, hrid, htime⟩

variable [DecidableEq ι]

theorem invoke (hs : Timed s) (hwf : WellFormed s) (c : ι) (op : KvOp) :
    Timed (s.invoke c op) where
  call_lt o inv h := by
    rcases getElem?_concat_cases h with hold | ⟨_, rfl⟩
    · exact Nat.lt_succ_of_lt (hs.call_lt o inv hold)
    · exact Nat.lt_succ_self _
  exec_after_call e he inv h := by
    have hlt := hwf.req_opId_lt (hwf.exec_req e he).1
    exact hs.exec_after_call e he inv (getElem?_concat_of_lt hlt h)
  exec_sorted := hs.exec_sorted
  exec_lt e he := Nat.lt_succ_of_lt (hs.exec_lt e he)
  ret_after_exec o ret h := by
    obtain ⟨hlt, hexec⟩ := hs.ret_after_exec o ret h
    exact ⟨Nat.lt_succ_of_lt hlt, hexec⟩

theorem finish (hs : Timed s) (hwf : WellFormed s) (c : ι) (call : Call) (rid : ℕ)
    (reply res : KvReply) (hcall : s.clerks c = some call) (hrid : call.rid = some rid)
    (hserved : s.status rid = .served reply) : Timed (s.finish c call rid res) where
  call_lt o inv h := Nat.lt_succ_of_lt (hs.call_lt o inv h)
  exec_after_call := hs.exec_after_call
  exec_sorted := hs.exec_sorted
  exec_lt e he := Nat.lt_succ_of_lt (hs.exec_lt e he)
  ret_after_exec o ret h := by
    rcases update_eq_some h with ⟨rfl, hv⟩ | ⟨_, hold⟩
    · obtain rfl := Option.some.inj hv
      have hlt := getElem?_lt (hwf.clerk_rid c call rid hcall hrid)
      obtain ⟨e, he, h1, _⟩ := hwf.served_exec rid reply hlt hserved
      exact ⟨Nat.lt_succ_self _, e, he, h1, hs.exec_lt e he⟩
    · obtain ⟨hlt, hexec⟩ := hs.ret_after_exec o ret hold
      exact ⟨Nat.lt_succ_of_lt hlt, hexec⟩

theorem step {t : State ι} {l : Label ι} (h : Step s l t) (hwf : WellFormed s)
    (hs : Timed s) : Timed t := by
  cases h with
  | invoke c op hidle => exact hs.invoke hwf c op
  | send c call hcall hrid => exact hs.tick rfl rfl rfl rfl
  | drop rid hlt hsent => exact hs.tick rfl rfl rfl rfl
  | enqueue rid hlt hsent hcap => exact hs.tick rfl rfl rfl rfl
  | serve rid rest q hq hreq => exact hs.serveHead rid rest q
  | fail c call rid hcall hrid => exact hs.tick rfl rfl rfl rfl
  | again c call rid reply hcall hrid hserved hfin => exact hs.tick rfl rfl rfl rfl
  | finish c call rid reply res hcall hrid hserved hfin =>
      exact hs.finish hwf c call rid reply res hcall hrid hserved

theorem of_reachable (h : system.Reachable s) : Timed s := by
  refine System.Reachable.invariant ?_ ?_ h
  · rintro s rfl
    exact initial
  · intro s l t hr hs hstep
    exact step (step_sound hstep) (WellFormed.of_reachable hr) hs

end Timed

def Exec.entry (e : Exec) : KvOp × KvReply := (e.op, e.reply)

/-- The server's history: the executions, in order, without their origin. -/
def State.history (s : State ι) : History := s.execs.map Exec.entry

structure Served (s : State ι) : Prop where
  kv_eq : s.kv = replay (s.history.map Prod.fst)
  answers : Answers s.history

namespace Served

variable {s : State ι}

theorem initial : Served (initial : State ι) where
  kv_eq := rfl
  answers := answers_nil

theorem history_serveHead (rid : ℕ) (rest : List ℕ) (q : Request) :
    (s.serveHead rid rest q).history =
      s.history ++ [(q.op, (serve s.kv q.op).2)] := by
  simp [State.history, Exec.entry]

theorem serveHead (hs : Served s) (rid : ℕ) (rest : List ℕ) (q : Request) :
    Served (s.serveHead rid rest q) where
  kv_eq := by
    rw [history_serveHead, List.map_append, List.map_singleton, replay_concat, ← hs.kv_eq]
    rfl
  answers := by
    rw [history_serveHead]
    exact (answers_concat_iff _ _ _).mpr ⟨hs.answers, by rw [hs.kv_eq]⟩

variable [DecidableEq ι]

theorem step {t : State ι} {l : Label ι} (h : Step s l t) (hs : Served s) : Served t := by
  cases h with
  | serve rid rest q hq hreq => exact hs.serveHead rid rest q
  | _ => exact ⟨hs.kv_eq, hs.answers⟩

theorem of_reachable (h : system.Reachable s) : Served s := by
  refine System.Reachable.invariant ?_ ?_ h
  · rintro s rfl
    exact initial
  · intro s l t _ hs hstep
    exact step (step_sound hstep) hs

end Served

namespace State

/-- The number of RPCs an operation has sent so far. -/
def sends (s : State ι) (o : ℕ) : ℕ := s.reqs.countP fun q => q.opId = o

/-- The number of Put RPCs on a key sent so far. -/
def puts (s : State ι) (k : String) : ℕ := s.reqs.countP fun q => q.op.PutsOn k

end State

namespace State

/-- The executions that applied a Put on `k`. -/
def appliedExecs (s : State ι) (k : String) : List Exec :=
  s.execs.filter fun e => (appliedArgs k e.entry).isSome

theorem length_applied (s : State ι) (k : String) :
    (applied k s.history).length = (s.appliedExecs k).length := by
  rw [appliedExecs, ← List.countP_eq_length_filter, applied, State.history,
    List.filterMap_map, List.length_filterMap_eq_countP]
  rfl

theorem mem_appliedExecs {s : State ι} {k : String} {e : Exec} :
    e ∈ s.appliedExecs k ↔ e ∈ s.execs ∧ e.op.PutsOn k = true ∧ e.reply.Applied := by
  rw [appliedExecs, List.mem_filter, Exec.entry, isSome_appliedArgs]

end State

/-- Applied Puts are distinct requests, so they are no more than were sent. -/
theorem WellFormed.applied_le_puts {s : State ι} (hs : WellFormed s) (k : String) :
    (applied k s.history).length ≤ s.puts k := by
  rw [State.length_applied, ← List.length_map Exec.rid]
  apply length_le_countP_of_nodup
  · exact hs.exec_nodup.sublist (List.filter_sublist.map _)
  · intro i hi
    obtain ⟨e, he, rfl⟩ := List.mem_map.mp hi
    obtain ⟨hmem, hputs, _⟩ := State.mem_appliedExecs.mp he
    exact ⟨_, (hs.exec_req e hmem).1, hputs⟩

theorem WellFormed.sends_le_puts {s : State ι} {k : String} (hwf : WellFormed s) {o : ℕ}
    {inv : Invocation ι} (hinv : s.ops[o]? = some inv) (hputs : inv.op.PutsOn k = true) :
    s.sends o ≤ s.puts k := by
  apply List.countP_mono_left
  intro q hq hid
  obtain ⟨rid, hrid⟩ := List.mem_iff_getElem?.mp hq
  obtain ⟨c, t, ht⟩ := hwf.req_op rid q hrid
  rw [of_decide_eq_true hid, hinv] at ht
  rw [← hputs, Option.some.inj ht]

theorem applied_eq_appliedExecs (s : State ι) (k : String) :
    applied k s.history = (s.appliedExecs k).filterMap fun e => appliedArgs k e.entry := by
  rw [applied, State.history, List.filterMap_map, State.appliedExecs, List.filterMap_filter]
  apply List.filterMap_congr
  intro e _
  cases h : appliedArgs k e.entry <;> simp [h]

/-- Before versions wrap, no two applied executions belong to one call. -/
theorem appliedExecs_opId_nodup {s : State ι} {k : String} (hwf : WellFormed s)
    (hserved : Served s) (hbound : s.puts k < 2 ^ 64) :
    ((s.appliedExecs k).map Exec.opId).Nodup := by
  have hlen := Nat.lt_of_le_of_lt (hwf.applied_le_puts k) hbound
  have hdistinct : (applied k s.history).Nodup := by
    apply List.Nodup.of_map fun args => args.version.toNat
    rw [applied_versions hserved.answers hlen]
    exact List.nodup_range
  rw [applied_eq_appliedExecs, List.Nodup, List.pairwise_filterMap] at hdistinct
  rw [List.Nodup, List.pairwise_map]
  refine hdistinct.imp_of_mem ?_
  intro e e' he he' hne heq
  obtain ⟨hmem, hputs, happ⟩ := State.mem_appliedExecs.mp he
  obtain ⟨hmem', _, happ'⟩ := State.mem_appliedExecs.mp he'
  have hop := hwf.exec_same_op hmem hmem' heq
  cases hargs : e.op with
  | get args => simp [hargs, KvOp.PutsOn] at hputs
  | put args =>
    have hk : args.key = k := by simpa [hargs, KvOp.PutsOn] using hputs
    exact hne args (appliedArgs_eq_some.mpr ⟨hargs, hk, happ⟩) args
      (appliedArgs_eq_some.mpr ⟨hop ▸ hargs, hk, happ'⟩) rfl

structure Counted (s : State ι) : Prop where
  call_i : ∀ c call, s.clerks c = some call → call.i.toNat = s.sends call.opId % 2 ^ 64
  ret_i : ∀ o ret, s.rets o = some ret → ∃ e ∈ s.execs, ∃ call : Call,
    e.rid = ret.rid ∧ e.opId = o ∧ call.i.toNat = s.sends o % 2 ^ 64 ∧
      call.finish e.reply = some ret.res

namespace Counted

variable {s : State ι}

theorem initial : Counted (initial : State ι) where
  call_i c call h := by simp [Clerk.initial] at h
  ret_i o ret h := by simp [Clerk.initial] at h

theorem serveHead (hs : Counted s) (rid : ℕ) (rest : List ℕ) (q : Request) :
    Counted (s.serveHead rid rest q) where
  call_i := hs.call_i
  ret_i o ret h := by
    obtain ⟨e, he, hexec⟩ := hs.ret_i o ret h
    exact ⟨e, List.mem_append_left _ he, hexec⟩

theorem sends_of_fresh (hwf : WellFormed s) : s.sends s.ops.length = 0 := by
  refine List.countP_eq_zero.mpr ?_
  intro q hq
  obtain ⟨rid, hrid⟩ := List.mem_iff_getElem?.mp hq
  have hlt := hwf.req_opId_lt hrid
  simp only [decide_eq_true_eq]
  omega

variable [DecidableEq ι]

theorem sends_send (c : ι) (call : Call) (o : ℕ) :
    (s.send c call).sends o = s.sends o + if call.opId = o then 1 else 0 := by
  simp [State.sends, List.countP_append, List.countP_singleton]

theorem invoke (hs : Counted s) (hwf : WellFormed s) (c : ι) (op : KvOp) :
    Counted (s.invoke c op) where
  call_i d call hd := by
    rcases update_eq_some hd with ⟨rfl, hv⟩ | ⟨_, hold⟩
    · obtain rfl := Option.some.inj hv
      change (0 : ℕ) = s.sends s.ops.length % 2 ^ 64
      rw [sends_of_fresh hwf, Nat.zero_mod]
    · exact hs.call_i d call hold
  ret_i := hs.ret_i

theorem send (hs : Counted s) (hwf : WellFormed s) (c : ι) (call : Call)
    (hcall : s.clerks c = some call) : Counted (s.send c call) where
  call_i d call' hd := by
    rw [sends_send]
    rcases update_eq_some hd with ⟨rfl, hv⟩ | ⟨hne, hold⟩
    · obtain rfl := Option.some.inj hv
      have hi := hs.call_i d call hcall
      simp only [UInt64.toNat_add, UInt64.toNat_one, if_true]
      omega
    · have hid : call.opId ≠ call'.opId :=
        fun heq => hne (hwf.call_unique hold hcall heq.symm)
      simpa [hid] using hs.call_i d call' hold
  ret_i o ret h := by
    obtain ⟨e, he, call', h1, h2, h3, h4⟩ := hs.ret_i o ret h
    have hid : call.opId ≠ o := by
      rintro rfl
      rw [State.send_rets, (hwf.clerk_op c call hcall).1] at h
      cases h
    refine ⟨e, he, call', h1, h2, ?_, h4⟩
    rw [sends_send]
    simpa [hid] using h3

theorem retry (hs : Counted s) (c : ι) (call : Call) (hcall : s.clerks c = some call) :
    Counted (s.retry c call) where
  call_i d call' hd := by
    rcases update_eq_some hd with ⟨rfl, hv⟩ | ⟨_, hold⟩
    · obtain rfl := Option.some.inj hv
      exact hs.call_i d call hcall
    · exact hs.call_i d call' hold
  ret_i := hs.ret_i

theorem finish (hs : Counted s) (hwf : WellFormed s) (c : ι) (call : Call) (rid : ℕ)
    (reply res : KvReply) (hcall : s.clerks c = some call) (hrid : call.rid = some rid)
    (hserved : s.status rid = .served reply) (hfin : call.finish reply = some res) :
    Counted (s.finish c call rid res) where
  call_i d call' hd := by
    rcases update_eq_some hd with ⟨rfl, hv⟩ | ⟨_, hold⟩
    · exact absurd hv (by simp)
    · exact hs.call_i d call' hold
  ret_i o ret h := by
    rcases update_eq_some h with ⟨rfl, hv⟩ | ⟨_, hold⟩
    · obtain rfl := Option.some.inj hv
      have hreq := hwf.clerk_rid c call rid hcall hrid
      obtain ⟨e, he, h1, h2⟩ := hwf.served_exec rid reply (getElem?_lt hreq) hserved
      have hop : e.opId = call.opId := by
        have hreq' := (hwf.exec_req e he).1
        rw [h1, hreq] at hreq'
        simp only [Option.some.injEq, Request.mk.injEq] at hreq'
        exact hreq'.1.symm
      exact ⟨e, he, call, h1, hop, hs.call_i c call hcall, by rw [h2]; exact hfin⟩
    · exact hs.ret_i o ret hold

theorem step {t : State ι} {l : Label ι} (h : Step s l t) (hwf : WellFormed s)
    (hs : Counted s) : Counted t := by
  cases h with
  | invoke c op hidle => exact hs.invoke hwf c op
  | send c call hcall hrid => exact hs.send hwf c call hcall
  | drop rid hlt hsent => exact ⟨hs.call_i, hs.ret_i⟩
  | enqueue rid hlt hsent hcap => exact ⟨hs.call_i, hs.ret_i⟩
  | serve rid rest q hq hreq => exact hs.serveHead rid rest q
  | fail c call rid hcall hrid => exact hs.retry c call hcall
  | again c call rid reply hcall hrid hserved hfin => exact hs.retry c call hcall
  | finish c call rid reply res hcall hrid hserved hfin =>
      exact hs.finish hwf c call rid reply res hcall hrid hserved hfin

theorem of_reachable (h : system.Reachable s) : Counted s := by
  refine System.Reachable.invariant ?_ ?_ h
  · rintro s rfl
    exact initial
  · intro s l t hr hs hstep
    exact step (step_sound hstep) (WellFormed.of_reachable hr) hs

end Counted

end DistributedLabs.Clerk
