import DistributedLabs.ClerkAnswers
import DistributedLabs.Linearizability

/-!
Clerk and server as a linearizable versioned map. The point of an operation is
the execution that applied it, if there is one, and else the execution whose
answer it returned. A Put that returned ErrMaybe may be applied by a copy that
the server executes after the return; such a Put is settled only then.
-/
namespace DistributedLabs.Clerk

open KVServer Transition Tables Linearizability

/-- The map after an applied Put. -/
def store (kv : KvMap) (args : PutArgs) : KvMap :=
  Function.update kv args.key (some ⟨args.value, args.version + 1⟩)

/-- What the documented results of Get and Put allow, one operation at a time. -/
def kvNext (kv : KvMap) : KvOp → KvReply → List KvMap
  | .get args, .get reply => if reply = KVServer.get kv args then [kv] else []
  | .put args, .put ⟨.ok⟩ =>
    if version kv args.key = args.version then [store kv args] else []
  | .put args, .put ⟨.errVersion⟩ =>
    if kv args.key ≠ none ∧ version kv args.key ≠ args.version then [kv] else []
  | .put args, .put ⟨.errNoKey⟩ =>
    if kv args.key = none ∧ args.version ≠ 0 then [kv] else []
  | .put args, .put ⟨.errMaybe⟩ =>
    if version kv args.key = args.version then [store kv args, kv] else [kv]
  | _, _ => []

def kvSpec : Spec KvMap KvOp KvReply where
  init := emptyKv
  next := kvNext

variable {ι : Type*}

namespace State

/-- The record of an operation that has returned. -/
def operation (s : State ι) (o : ℕ) : Option (Operation KvOp KvReply) :=
  match s.ops[o]?, s.rets o with
  | some inv, some ret => some ⟨inv.op, ret.res, inv.call, ret.time⟩
  | _, _ => none

def operations (s : State ι) : List (Operation KvOp KvReply) :=
  (List.range s.ops.length).filterMap s.operation

/-- The execution that applied the operation. -/
def appliedExec (s : State ι) (o : ℕ) : Option Exec :=
  s.execs.find? fun e => e.opId = o ∧ e.reply.Applied

/-- When an operation is settled: at its return, or later if it returned
ErrMaybe and is applied only afterwards. -/
def settledAt (s : State ι) (o : ℕ) (a : Operation KvOp KvReply) : ℕ :=
  match a.output, s.appliedExec o with
  | .put ⟨.errMaybe⟩, some e => max a.ret e.time
  | _, _ => a.ret

def settledOperation (s : State ι) (o : ℕ) : Option (Operation KvOp KvReply) :=
  (s.operation o).map fun a => { a with ret := s.settledAt o a }

def settledOperations (s : State ι) : List (Operation KvOp KvReply) :=
  (List.range s.ops.length).filterMap s.settledOperation

/-- The execution at which an operation takes effect. -/
def IsPoint (s : State ι) (e : Exec) : Prop :=
  e.reply.Applied ∨ (NeverApplied s e.opId ∧ (s.rets e.opId).map Return.rid = some e.rid)

instance (s : State ι) (e : Exec) : Decidable (s.IsPoint e) :=
  inferInstanceAs (Decidable (_ ∨ _))

def point (s : State ι) (e : Exec) : Option (Operation KvOp KvReply) :=
  if s.IsPoint e then s.settledOperation e.opId else none

end State

/-- Every invoked operation has returned, versions have not wrapped, and no Put
that was resent returned ErrNoKey. -/
structure Complete (s : State ι) : Prop where
  returned : ∀ o < s.ops.length, ∃ ret, s.rets o = some ret
  puts_lt : ∀ k, s.puts k < 2 ^ 64
  nokey : ∀ o ret, s.rets o = some ret → ret.res = .put ⟨.errNoKey⟩ → s.sends o ≤ 1

variable {s : State ι}

theorem Served.exec_applied (hserved : Served s) {e : Exec} (he : e ∈ s.execs)
    (happ : e.reply.Applied) : ∃ args, e.op = .put args := by
  obtain ⟨kv, hkv⟩ := hserved.exec_answer he
  obtain ⟨args, hop, _⟩ := KVServer.serve_applied kv e.op (by rw [← hkv]; exact happ)
  exact ⟨args, hop⟩

/-- At most one copy of an operation is applied. -/
theorem applied_unique (hwf : WellFormed s) (hserved : Served s)
    (hputs : ∀ k, s.puts k < 2 ^ 64) {e e' : Exec} (he : e ∈ s.execs) (he' : e' ∈ s.execs)
    (ho : e.opId = e'.opId) (happ : e.reply.Applied) (happ' : e'.reply.Applied) : e = e' := by
  obtain ⟨args, hop⟩ := hserved.exec_applied he happ
  have hop' : e'.op = .put args := by rw [← hwf.exec_same_op he he' ho, hop]
  have hmem : ∀ d ∈ s.execs, d.op = .put args → d.reply.Applied →
      d ∈ s.appliedExecs args.key := by
    intro d hd hdop hdapp
    exact State.mem_appliedExecs.mpr ⟨hd, by simp [hdop, KvOp.PutsOn], hdapp⟩
  exact List.inj_on_of_nodup_map (appliedExecs_opId_nodup hwf hserved (hputs args.key))
    (hmem e he hop happ) (hmem e' he' hop' happ') ho

/-- The execution whose answer the operation returned. -/
theorem answered_exec (hwf : WellFormed s) (htimed : Timed s) (hcount : Counted s) {o : ℕ}
    {ret : Return} (hret : s.rets o = some ret) :
    ∃ e ∈ s.execs, e.opId = o ∧ e.rid = ret.rid ∧ e.time < ret.time ∧
      ∃ call : Call, call.finish e.reply = some ret.res := by
  obtain ⟨e, he, call, hrid, ho, _, hfin⟩ := hcount.ret_i o ret hret
  obtain ⟨_, e', he', hrid', htime⟩ := htimed.ret_after_exec o ret hret
  obtain rfl := hwf.exec_unique he he' (hrid.trans hrid'.symm)
  exact ⟨e, he, ho, hrid, htime, call, hfin⟩

/-- A definite refusal was never applied. -/
theorem Complete.refusal_never_applied (hc : Complete s) (hwf : WellFormed s)
    (hcount : Counted s) {e : Exec} (he : e ∈ s.execs) {args : PutArgs}
    (hop : e.op = .put args) {ret : Return} (hret : s.rets e.opId = some ret)
    (href : Refusal ret.res) : ¬ e.reply.Applied := by
  obtain ⟨c, t, hinv⟩ := hwf.exec_op he
  have hputs : e.op.PutsOn args.key = true := by simp [hop, KvOp.PutsOn]
  have hbound : s.sends e.opId < 2 ^ 64 :=
    Nat.lt_of_le_of_lt (hwf.sends_le_puts hinv hputs) (hc.puts_lt args.key)
  obtain ⟨honce, e', he', ho, hnot⟩ :=
    refusal_single_send hcount hret href hbound (hc.nokey _ ret hret)
  obtain rfl := only_exec_of_single_send hwf honce he he' rfl ho
  exact hnot

/-- What an applied Put returned: OK from the execution that applied it, or
ErrMaybe. -/
theorem Complete.applied_answer (hc : Complete s) (hwf : WellFormed s) (htimed : Timed s)
    (hserved : Served s) (hcount : Counted s) {e : Exec} (he : e ∈ s.execs)
    (happ : e.reply.Applied) {ret : Return} (hret : s.rets e.opId = some ret) :
    (ret.res = .put ⟨.ok⟩ ∧ e.time < ret.time) ∨ ret.res = .put ⟨.errMaybe⟩ := by
  obtain ⟨args, hop⟩ := hserved.exec_applied he happ
  obtain ⟨e', he', ho, _, htime, call, hfin⟩ := answered_exec hwf htimed hcount hret
  obtain ⟨kv, hreply⟩ := hserved.exec_answer he'
  rw [hwf.exec_same_op he' he ho, hop] at hreply
  obtain ⟨err, hres⟩ : ∃ err, ret.res = .put ⟨err⟩ := by
    rw [hreply] at hfin
    obtain ⟨err, _, hres⟩ := Option.map_eq_some_iff.mp hfin
    exact ⟨err, hres.symm⟩
  rw [hres] at hfin
  rcases Call.finish_put hfin with ⟨rfl, hok⟩ | ⟨rfl, _⟩ | ⟨rfl, _⟩ | ⟨rfl, _⟩
  · obtain rfl := applied_unique hwf hserved hc.puts_lt he' he ho hok happ
    exact Or.inl ⟨hres, htime⟩
  · exact Or.inr hres
  · exact absurd happ (hc.refusal_never_applied hwf hcount he hop hret (Or.inl hres))
  · exact absurd happ (hc.refusal_never_applied hwf hcount he hop hret (Or.inr hres))

theorem point_unique (hwf : WellFormed s) (hserved : Served s)
    (hputs : ∀ k, s.puts k < 2 ^ 64) {e e' : Exec} (he : e ∈ s.execs) (he' : e' ∈ s.execs)
    (hp : s.IsPoint e) (hp' : s.IsPoint e') (ho : e.opId = e'.opId) : e = e' := by
  rcases hp with happ | ⟨hnever, hrid⟩
  · rcases hp' with happ' | ⟨hnever', _⟩
    · exact applied_unique hwf hserved hputs he he' ho happ happ'
    · exact absurd happ (hnever' e he ho)
  · rcases hp' with happ' | ⟨_, hrid'⟩
    · exact absurd happ' (hnever e' he' ho.symm)
    · rw [ho, hrid'] at hrid
      exact hwf.exec_unique he he' (Option.some.inj hrid).symm

theorem point_exists (hwf : WellFormed s) (htimed : Timed s) (hcount : Counted s) {o : ℕ}
    {ret : Return} (hret : s.rets o = some ret) :
    ∃ e ∈ s.execs, e.opId = o ∧ s.IsPoint e := by
  by_cases hnever : NeverApplied s o
  · obtain ⟨e, he, rfl, hrid, _⟩ := answered_exec hwf htimed hcount hret
    exact ⟨e, he, rfl, Or.inr ⟨hnever, by rw [hret, hrid]; rfl⟩⟩
  · unfold NeverApplied at hnever
    push Not at hnever
    obtain ⟨e, he, ho, happ⟩ := hnever
    exact ⟨e, he, ho, Or.inl happ⟩

/-- Each operation has exactly one point. -/
theorem Complete.point_ids_perm (hc : Complete s) (hwf : WellFormed s) (htimed : Timed s)
    (hserved : Served s) (hcount : Counted s) :
    ((s.execs.filter fun e => s.IsPoint e).map Exec.opId).Perm (List.range s.ops.length) := by
  refine (List.perm_ext_iff_of_nodup ?_ List.nodup_range).mpr ?_
  · refine List.Nodup.map_on ?_ (hwf.exec_nodup.of_map.filter _)
    intro e he e' he' ho
    simp only [List.mem_filter, decide_eq_true_eq] at he he'
    exact point_unique hwf hserved hc.puts_lt he.1 he'.1 he.2 he'.2 ho
  · intro o
    simp only [List.mem_map, List.mem_filter, decide_eq_true_eq, List.mem_range]
    constructor
    · rintro ⟨e, ⟨he, _⟩, rfl⟩
      exact hwf.req_opId_lt (hwf.exec_req e he).1
    · intro hlt
      obtain ⟨ret, hret⟩ := hc.returned o hlt
      obtain ⟨e, he, ho, hp⟩ := point_exists hwf htimed hcount hret
      exact ⟨e, ⟨he, hp⟩, ho⟩

/-- The records of the operations, in the order of their points. -/
theorem Complete.filterMap_points_perm (hc : Complete s) (hwf : WellFormed s) (htimed : Timed s)
    (hserved : Served s) (hcount : Counted s) {β : Type*} (record : ℕ → Option β) :
    (s.execs.filterMap fun e => if s.IsPoint e then record e.opId else none).Perm
      ((List.range s.ops.length).filterMap record) := by
  have heq : (s.execs.filterMap fun e => if s.IsPoint e then record e.opId else none) =
      ((s.execs.filter fun e => s.IsPoint e).map Exec.opId).filterMap record := by
    rw [List.filterMap_map, List.filterMap_filter]
    refine List.filterMap_congr ?_
    intro e _
    simp
  rw [heq]
  exact (hc.point_ids_perm hwf htimed hserved hcount).filterMap _

theorem Complete.points_perm (hc : Complete s) (hwf : WellFormed s) (htimed : Timed s)
    (hserved : Served s) (hcount : Counted s) :
    (s.execs.filterMap s.point).Perm s.settledOperations :=
  hc.filterMap_points_perm hwf htimed hserved hcount s.settledOperation

/-- The record that a point stands for. -/
theorem Complete.point_eq_some (hwf : WellFormed s) {e : Exec}
    (he : e ∈ s.execs) {a : Operation KvOp KvReply} (hpoint : s.point e = some a) :
    s.IsPoint e ∧ ∃ c t ret, s.ops[e.opId]? = some ⟨c, e.op, t⟩ ∧
      s.rets e.opId = some ret ∧ a = ⟨e.op, ret.res, t,
        s.settledAt e.opId ⟨e.op, ret.res, t, ret.time⟩⟩ := by
  unfold State.point at hpoint
  split at hpoint
  · rename_i hp
    obtain ⟨c, t, hop⟩ := hwf.exec_op he
    obtain ⟨b, hb, rfl⟩ := Option.map_eq_some_iff.mp hpoint
    cases hret : s.rets e.opId with
    | none => simp [State.operation, hop, hret] at hb
    | some ret =>
      simp only [State.operation, hop, hret, Option.some.injEq] at hb
      subst hb
      exact ⟨hp, c, t, ret, hop, rfl, rfl⟩
  · cases hpoint

theorem ret_le_settledAt (o : ℕ) (a : Operation KvOp KvReply) : a.ret ≤ s.settledAt o a := by
  unfold State.settledAt
  split
  · exact Nat.le_max_left _ _
  · exact Nat.le_refl _

/-- A Put that returned ErrMaybe is not settled before it is applied. -/
theorem Complete.applied_le_settledAt (hc : Complete s) (hwf : WellFormed s)
    (hserved : Served s) {e : Exec} (he : e ∈ s.execs) (happ : e.reply.Applied)
    {a : Operation KvOp KvReply} (hout : a.output = .put ⟨.errMaybe⟩) :
    e.time ≤ s.settledAt e.opId a := by
  have hfind : s.appliedExec e.opId = some e := by
    cases h : s.appliedExec e.opId with
    | none =>
      have hnone := List.find?_eq_none.mp h e he
      simp [happ] at hnone
    | some e' =>
      have hprop := List.find?_some h
      simp only [decide_eq_true_eq] at hprop
      rw [applied_unique hwf hserved hc.puts_lt (List.mem_of_find?_eq_some h) he hprop.1
        hprop.2 happ]
  simp only [State.settledAt, hout, hfind]
  exact Nat.le_max_right _ _

theorem Complete.point_inside (hc : Complete s) (hwf : WellFormed s) (htimed : Timed s)
    (hserved : Served s) (hcount : Counted s) {e : Exec} (he : e ∈ s.execs)
    {a : Operation KvOp KvReply} (hpoint : s.point e = some a) :
    a.call ≤ e.time ∧ e.time ≤ a.ret := by
  obtain ⟨hp, c, t, ret, hop, hret, rfl⟩ := Complete.point_eq_some hwf he hpoint
  refine ⟨(htimed.exec_after_call e he _ hop).le, ?_⟩
  have hle := ret_le_settledAt (s := s) e.opId ⟨e.op, ret.res, t, ret.time⟩
  rcases hp with happ | ⟨_, hrid⟩
  · rcases hc.applied_answer hwf htimed hserved hcount he happ hret with ⟨_, htime⟩ | hmaybe
    · exact htime.le.trans hle
    · exact hc.applied_le_settledAt hwf hserved he happ hmaybe
  · obtain ⟨e', he', _, hrid', htime, _⟩ := answered_exec hwf htimed hcount hret
    rw [hret] at hrid
    obtain rfl := hwf.exec_unique he he' ((Option.some.inj hrid).symm.trans hrid'.symm)
    exact htime.le.trans hle

/-- An execution that was not applied but answered the operation is a step of
the specification that leaves the map alone. -/
theorem unapplied_allowed {kv : KvMap} {op : KvOp} {call : Call} {res : KvReply}
    (hnot : ¬ (serve kv op).2.Applied) (hfin : call.finish (serve kv op).2 = some res) :
    kv ∈ kvNext kv op res := by
  cases op with
  | get args =>
    rw [Call.finish_get hfin]
    simp [kvNext]
  | put args =>
    obtain ⟨err, _, rfl⟩ := Option.map_eq_some_iff.mp hfin
    rcases put_cases kv args with ⟨_, hp⟩ | ⟨hv, hsome, hp⟩ | ⟨hv, hnone, hp⟩
    · simp [serve, hp, KvReply.Applied] at hnot
    · rcases Call.finish_put hfin with ⟨_, h⟩ | ⟨rfl, _⟩ | ⟨rfl, _⟩ | ⟨_, h⟩
      · simp [serve, hp] at h
      · simp [kvNext, hv]
      · simp [kvNext, hv, hsome]
      · simp [serve, hp] at h
    · rcases Call.finish_put hfin with ⟨_, h⟩ | ⟨_, h, _⟩ | ⟨_, h, _⟩ | ⟨rfl, _⟩
      · simp [serve, hp] at h
      · simp [serve, hp] at h
      · simp [serve, hp] at h
      · simp [kvNext, hv, hnone]

theorem applied_allowed {kv : KvMap} {op : KvOp} {res : KvReply}
    (happ : (serve kv op).2.Applied) (hres : res = .put ⟨.ok⟩ ∨ res = .put ⟨.errMaybe⟩) :
    (serve kv op).1 ∈ kvNext kv op res := by
  obtain ⟨args, rfl, hv, hkv⟩ := KVServer.serve_applied kv op happ
  rw [hkv]
  rcases hres with rfl | rfl
  · simp [kvNext, hv, store]
  · simp [kvNext, hv, store]

/-- The map after some executions. -/
def mapAfter (execs : List Exec) : KvMap := replay (execs.map Exec.op)

theorem mapAfter_concat (pre : List Exec) (e : Exec) :
    mapAfter (pre ++ [e]) = (serve (mapAfter pre) e.op).1 := by
  rw [mapAfter, List.map_append, List.map_singleton, replay_concat]
  rfl

theorem Served.reply_eq (hserved : Served s) {pre suf : List Exec} {e : Exec}
    (hsplit : s.execs = pre ++ e :: suf) : e.reply = (serve (mapAfter pre) e.op).2 := by
  have hans := hserved.answers (pre.map Exec.entry) e.op e.reply (suf.map Exec.entry)
    (by simp [State.history, hsplit, Exec.entry])
  rw [hans, mapAfter]
  simp [Exec.entry, Function.comp_def]

/-- The map moves at points only, and there as the specification allows. -/
theorem Complete.tracks (hc : Complete s) (hwf : WellFormed s) (htimed : Timed s)
    (hserved : Served s) (hcount : Counted s) :
    Tracks kvSpec s.point mapAfter s.execs where
  start := rfl
  skip pre e suf hsplit hpoint := by
    have he : e ∈ s.execs := by simp [hsplit]
    rw [mapAfter_concat]
    apply KVServer.serve_unapplied
    rw [← hserved.reply_eq hsplit]
    intro happ
    obtain ⟨c, t, hop⟩ := hwf.exec_op he
    obtain ⟨ret, hret⟩ := hc.returned e.opId (getElem?_lt hop)
    simp [State.point, State.IsPoint, happ, State.settledOperation, State.operation, hop,
      hret] at hpoint
  move pre e suf a hsplit hpoint := by
    have he : e ∈ s.execs := by simp [hsplit]
    have hreply := hserved.reply_eq hsplit
    obtain ⟨hp, c, t, ret, hop, hret, rfl⟩ := Complete.point_eq_some hwf he hpoint
    rw [mapAfter_concat]
    by_cases happ : e.reply.Applied
    · refine applied_allowed (by rw [← hreply]; exact happ) ?_
      rcases hc.applied_answer hwf htimed hserved hcount he happ hret with ⟨hok, _⟩ | hmaybe
      · exact Or.inl hok
      · exact Or.inr hmaybe
    · have hrid := (hp.resolve_left happ).2
      obtain ⟨e', he', _, hrid', _, call, hfin⟩ := answered_exec hwf htimed hcount hret
      rw [hret] at hrid
      obtain rfl := hwf.exec_unique he he' ((Option.some.inj hrid).symm.trans hrid'.symm)
      rw [hreply] at happ hfin
      rw [KVServer.serve_unapplied _ _ happ]
      exact unapplied_allowed happ hfin

variable [DecidableEq ι]

/-- Clerk and server are linearizable, with a Put that returned ErrMaybe taken
to last until it is applied if that happens after its return. -/
theorem settled_linearizable (hr : system.Reachable s) (hc : Complete s) :
    Linearizable kvSpec s.settledOperations := by
  have hwf := WellFormed.of_reachable hr
  have htimed := Timed.of_reachable hr
  have hserved := Served.of_reachable hr
  have hcount := Counted.of_reachable hr
  refine linearizable_of_points Exec.time
    (hc.points_perm hwf htimed hserved hcount) htimed.exec_sorted ?_
    (hc.tracks hwf htimed hserved hcount)
  intro e he a hpoint
  exact hc.point_inside hwf htimed hserved hcount he hpoint

/-- Put("k", "x", 2) finds "k" at version 1 with its second RPC, whose ErrVersion
is returned as ErrMaybe. Another clerk moves "k" to version 2, and only then is
the first RPC executed. -/
def appliedAfterReturn : List (Label Bool) :=
  [.invoke true (.put ⟨"k", "b", 0⟩), .send true, .enqueue 0, .serve, .deliver true,
    .invoke false (.put ⟨"k", "x", 2⟩), .send false, .fail false, .send false, .enqueue 2,
    .serve, .deliver false,
    .invoke true (.put ⟨"k", "c", 1⟩), .send true, .enqueue 3, .serve, .deliver true,
    .enqueue 1, .serve,
    .invoke true (.get ⟨"k"⟩), .send true, .enqueue 4, .serve, .deliver true]

/-- The four operations of that run; none overlaps another. -/
def fourOperations : List (Operation KvOp KvReply) :=
  [⟨.put ⟨"k", "b", 0⟩, .put ⟨.ok⟩, 0, 4⟩, ⟨.put ⟨"k", "x", 2⟩, .put ⟨.errMaybe⟩, 5, 11⟩,
    ⟨.put ⟨"k", "c", 1⟩, .put ⟨.ok⟩, 12, 16⟩, ⟨.get ⟨"k"⟩, .get ⟨"x", 3, .ok⟩, 19, 23⟩]

theorem appliedAfterReturn_reached :
    ∃ s : State Bool, system.Reachable s ∧ Complete s ∧ s.operations = fourOperations := by
  obtain ⟨s, hr, hp⟩ := System.Reachable.of_run_check (S := system) appliedAfterReturn rfl
    (p := fun s => decide ((∀ o < s.ops.length, (s.rets o).any fun ret : Return =>
      ret.res ≠ .put ⟨.errNoKey⟩) ∧ s.reqs.length = 5 ∧ s.operations = fourOperations))
    (by decide)
  obtain ⟨hrets, hreqs, hops⟩ := of_decide_eq_true hp
  refine ⟨s, hr, ⟨?_, ?_, ?_⟩, hops⟩
  · intro o ho
    obtain ⟨ret, hret, _⟩ := (Option.any_eq_true _ _).mp (hrets o ho)
    exact ⟨ret, hret⟩
  · intro k
    have hle : s.puts k ≤ s.reqs.length := List.countP_le_length
    omega
  · intro o ret hret hres
    have hany := hrets o ((WellFormed.of_reachable hr).ret_op o ret hret)
    simp [hret, hres] at hany

theorem settled_linearizable_appliedAfterReturn :
    ∃ s : State Bool, system.Reachable s ∧ s.operations = fourOperations ∧
      Linearizable kvSpec s.settledOperations := by
  obtain ⟨s, hr, hc, hops⟩ := appliedAfterReturn_reached
  exact ⟨s, hr, hops, settled_linearizable hr hc⟩

theorem not_linearizable_at_return :
    ¬ ∀ s : State Bool, system.Reachable s → Complete s →
      Linearizable kvSpec s.operations := by
  intro hall
  obtain ⟨s, hr, hc, hops⟩ := appliedAfterReturn_reached
  have hlin := hall s hr hc
  rw [hops] at hlin
  have hacc := accepts_of_sequential (by decide) (by decide) hlin
  exact absurd hacc (by decide)

end DistributedLabs.Clerk
