import DistributedLabs.OneClientPut

/-!
Runs of a single client of OneClientPut while nothing else happens: an RPC that
is answered, one whose reply is lost, and one that fails and is sent again.
-/
namespace DistributedLabs.KvTest

open KVServer Transition

variable {ι : Type*} [DecidableEq ι] {u : Setup ι} {s : State ι} {c : ι}

/-- No request is queued and the clerk of `c` is free. -/
def Quiet (net : Clerk.State ι) (c : ι) : Prop := net.opQ = [] ∧ net.clerks c = none

theorem reaches_invoke {op : KvOp} (hop : u.op c (s.pc c) = some op)
    (hidle : s.net.clerks c = none) :
    (system u).Reaches s { s with net := s.net.invoke c op } := by
  refine System.reaches_of_run _ [.clerk (.invoke c op)] ?_
  simp [System.run, system, step, clients, Clerk.Clients.step, Clerk.step, hop, hidle]

section Call

variable {call : Clerk.Call} (hcall : s.net.clerks c = some call) (hrid : call.rid = none)

include hcall hrid

/-- The RPC is executed and its reply is delivered. -/
theorem reaches_answer (hq : s.net.opQ = []) {res : KvReply}
    (hfin : Clerk.Call.finish { call with i := call.i + 1 } (serve s.net.kv call.op).2 =
      some res) :
    ∃ net, (system u).Reaches s ({ s with net }.next c (u.onePut (u.me c) (s.pc c) res)) ∧
      net.kv = (serve s.net.kv call.op).1 ∧ Quiet net c := by
  let call' : Clerk.Call := { call with i := call.i + 1, rid := some s.net.reqs.length }
  have hfin' : call'.finish (serve ((s.net.send c call).enqueue s.net.reqs.length).kv
      call.op).2 = some res := hfin
  refine ⟨(((s.net.send c call).enqueue s.net.reqs.length).serveHead s.net.reqs.length []
    ⟨call.opId, call.op⟩).finish c call' s.net.reqs.length res,
    System.reaches_of_run _ [.clerk (.send c), .clerk (.enqueue s.net.reqs.length),
      .clerk .serve, .clerk (.deliver c)] ?_, ?_, ?_⟩
  · simp only [call'] at hfin'
    simp [System.run, system, step, clients, Clerk.Clients.step, Clerk.step, Clerk.answer,
      Clerk.opQCap, hcall, hrid, hq, hfin', call']
  · rfl
  · simp [Quiet]

/-- The RPC is executed and its reply is lost. -/
theorem reaches_lost_reply (hq : s.net.opQ = []) :
    ∃ net, (system u).Reaches s { s with net } ∧ net.kv = (serve s.net.kv call.op).1 ∧
      net.opQ = [] ∧ net.clerks c = some { call with i := call.i + 1, rid := none } := by
  let call' : Clerk.Call := { call with i := call.i + 1, rid := some s.net.reqs.length }
  refine ⟨(((s.net.send c call).enqueue s.net.reqs.length).serveHead s.net.reqs.length []
    ⟨call.opId, call.op⟩).retry c call',
    System.reaches_of_run _ [.clerk (.send c), .clerk (.enqueue s.net.reqs.length),
      .clerk .serve, .clerk (.fail c)] ?_, ?_, ?_, ?_⟩
  · simp [System.run, system, step, clients, Clerk.Clients.step, Clerk.step, Clerk.opQCap,
      hcall, hrid, hq, call']
  · rfl
  · simp
  · simp [call']

/-- `n` RPCs in a row fail before they reach the server. -/
theorem reaches_resend (n : ℕ) :
    ∃ net, (system u).Reaches s { s with net } ∧ net.kv = s.net.kv ∧ net.opQ = s.net.opQ ∧
      net.clerks c = some { call with i := call.i + UInt64.ofNat n, rid := none } := by
  induction n with
  | zero =>
    refine ⟨s.net, System.Reaches.refl, rfl, rfl, ?_⟩
    obtain ⟨opId, op, i, rid⟩ := call
    obtain rfl : rid = none := hrid
    simpa using hcall
  | succ n ih =>
    obtain ⟨net, hreach, hkv, hq, hcall'⟩ := ih
    refine ⟨(net.send c { call with i := call.i + UInt64.ofNat n, rid := none }).retry c
      { call with i := call.i + UInt64.ofNat n + 1, rid := some net.reqs.length },
      hreach.trans (System.reaches_of_run _ [.clerk (.send c), .clerk (.fail c)] ?_), ?_, ?_, ?_⟩
    · simp [System.run, system, step, clients, Clerk.Clients.step, Clerk.step, hcall']
    · exact hkv
    · exact hq
    · simp [add_assoc]

end Call

/-- A clerk call of OnePut whose RPC is answered. -/
theorem reaches_call (op : KvOp) (res : KvReply) (hop : u.op c (s.pc c) = some op)
    (hquiet : Quiet s.net c)
    (hfin : Clerk.Call.finish ⟨s.net.ops.length, op, 1, none⟩ (serve s.net.kv op).2 = some res) :
    ∃ net, (system u).Reaches s ({ s with net }.next c (u.onePut (u.me c) (s.pc c) res)) ∧
      net.kv = (serve s.net.kv op).1 ∧ Quiet net c := by
  have hinvoke := reaches_invoke hop hquiet.2
  have hcall : (s.net.invoke c op).clerks c = some ⟨s.net.ops.length, op, 0, none⟩ := by simp
  obtain ⟨net, hreach, hnet⟩ := reaches_answer (u := u)
    (s := { s with net := s.net.invoke c op }) hcall rfl hquiet.1 hfin
  exact ⟨net, hinvoke.trans hreach, hnet⟩

/-- GetJson of an entry that a client stored. -/
theorem reaches_get {ver : Tversion} {err : Err} {e : EntryV} (hpc : s.pc c = .get ver err)
    (hquiet : Quiet s.net c)
    (hkv : s.net.kv u.key = some ⟨u.codec.marshal e, e.v + 1⟩) :
    ∃ net, (system u).Reaches s ({ s with net }.next c
        (u.onePut (u.me c) (.get ver err) (.get ⟨u.codec.marshal e, e.v + 1, .ok⟩))) ∧
      net.kv = s.net.kv ∧ Quiet net c := by
  have hget : KVServer.get s.net.kv ⟨u.key⟩ = ⟨u.codec.marshal e, e.v + 1, .ok⟩ := by
    simp [KVServer.get, hkv]
  rw [← hpc, ← hget]
  refine reaches_call (.get ⟨u.key⟩) _ (by rw [hpc]; rfl) hquiet ?_
  simp [Clerk.Call.finish, serve, hget, Clerk.get]

/-- PutJson at the version of the key. -/
theorem reaches_put {ver : Tversion} (hpc : s.pc c = .put ver) (hquiet : Quiet s.net c)
    (hver : version s.net.kv u.key = ver) :
    ∃ net, (system u).Reaches s ({ s with net }.jump c (.get ver .ok)) ∧
      net.kv u.key = some ⟨u.codec.marshal ⟨u.me c, ver⟩, ver + 1⟩ ∧ Quiet net c := by
  let args : PutArgs := ⟨u.key, u.codec.marshal ⟨u.me c, ver⟩, ver⟩
  have happ : (serve s.net.kv (.put args)).2 = .put ⟨.ok⟩ :=
    congrArg KvReply.put ((put_ok_iff s.net.kv args).mpr hver)
  obtain ⟨net, hreach, hkv, hquiet'⟩ := reaches_call (u := u) (.put args) (.put ⟨.ok⟩)
    (by rw [hpc]; rfl) hquiet (by rw [happ]; rfl)
  refine ⟨net, ?_, ?_, hquiet'⟩
  · simpa [hpc, Setup.onePut, State.next] using hreach
  · have hargs : appliedArgs u.key (.put args, .put ⟨.ok⟩) = some args :=
      appliedArgs_eq_some.mpr ⟨rfl, rfl, rfl⟩
    rw [hkv, serve_entry, happ, hargs]

end DistributedLabs.KvTest
