import DistributedLabs.LockSafety

/-!
The lock can always be had. From every reachable state a client gets the lock
when only it and, if the lock is taken, its owner go on; everybody else may have
stopped, with requests left in the network. The server first answers what has
been queued, then the owner comes out of Acquire and through Release, and then
the client comes out of whatever call it is in and through Acquire.
-/
namespace DistributedLabs.Lock

open KVServer Transition Tables
open Clerk (ver version_eq_ver)

variable {ι : Type*}

/-- The client whose goroutine takes the step. -/
def Label.client : Label ι → Option ι
  | .acquire c => some c
  | .release c => some c
  | .clerk (.invoke c _) => some c
  | .clerk (.send c) => some c
  | .clerk (.fail c) => some c
  | .clerk (.deliver c) => some c
  | .clerk (.drop _) => none
  | .clerk (.enqueue _) => none
  | .clerk .serve => none

/-- Only some of the clients go on. -/
def Only (P : ι → Prop) (_ : State ι) (l : Label ι) : Prop := ∀ x, l.client = some x → P x

variable [DecidableEq ι]

abbrev Leads (name : String) (id : ι → String) (P : ι → Prop) (s t : State ι) : Prop :=
  (system name id).ReachesWithin (Only P) s t

variable {name : String} {id : ι → String} {P : ι → Prop} {s t : State ι} {x : ι}

omit [DecidableEq ι] in
theorem only_client {l : Label ι} (hl : l.client = some x) (hx : P x) : Only P s l := by
  intro y hy
  rw [hl] at hy
  obtain rfl := Option.some.inj hy
  exact hx

omit [DecidableEq ι] in
theorem only_none {l : Label ι} (hl : l.client = none) : Only P s l := by
  intro y hy
  rw [hl] at hy
  cases hy

section Calls

/-- The client goes on with the result of its clerk call. -/
def State.resumed (s : State ι) (id : ι → String) (net : Clerk.State ι) (x : ι)
    (res : KvReply) : State ι :=
  { s with net }.next x (resume (id x) (s.pc x) res)

/-- The client's clerk call on `op` returns what the server answers now. -/
def Answered (name : String) (id : ι → String) (P : ι → Prop) (s : State ι) (x : ι)
    (op : KvOp) : Prop :=
  ∃ (net : Clerk.State ι) (call : Clerk.Call) (res : KvReply),
    Leads name id P s (s.resumed id net x res) ∧ net.opQ = [] ∧
    net.kv = (serve s.net.kv op).1 ∧
    net.puts name = s.net.puts name + (if op.PutsOn name then 1 else 0) ∧
    call.finish (serve s.net.kv op).2 = some res

/-- The clerk sends an RPC and gets its answer at once. -/
theorem answered_send (hx : P x) (hq : s.net.opQ = []) {call : Clerk.Call}
    (hcall : s.net.clerks x = some call) (hrid : call.rid = none) :
    Answered name id P s x call.op := by
  let n := s.net.reqs.length
  let call' : Clerk.Call := { call with i := call.i + 1, rid := some n }
  let a := s.net.send x call
  let b := a.enqueue n
  let d := b.serveHead n [] ⟨call.opId, call.op⟩
  obtain ⟨res, hres⟩ :=
    Option.ne_none_iff_exists'.mp (call'.finish_serve s.net.kv call.op)
  have ha : step name id s (.clerk (.send x)) = some { s with net := a } := by
    simp [step, Clerk.step, hcall, hrid, a]
  have hb : step name id { s with net := a } (.clerk (.enqueue n)) =
      some { s with net := b } := by
    simp [step, Clerk.step, a, b, n, hq, Clerk.opQCap]
  have hd : step name id { s with net := b } (.clerk .serve) = some { s with net := d } := by
    simp [step, Clerk.step, a, b, d, n, hq]
  have hclerk : d.clerks x = some call' := by simp [d, b, a, call', n]
  have hserved : d.status n = .served (serve s.net.kv call.op).2 := Function.update_self ..
  have hdeliver : step name id { s with net := d } (.clerk (.deliver x)) =
      some (s.resumed id (d.finish x call' n res) x res) := by
    have hrid' : call'.rid = some n := rfl
    simp only [step, Clerk.step, Clerk.answer, hclerk, hrid', hserved, hres, Option.map_some]
    rfl
  refine ⟨d.finish x call' n res, call', res, ?_, ?_, ?_, ?_, hres⟩
  · have hsent : Leads name id P s { s with net := a } :=
      .single (a := .clerk (.send x)) (only_client rfl hx) ha
    exact .tail (.clerk (.deliver x)) (.tail (.clerk .serve) (.tail (.clerk (.enqueue n)) hsent
      (only_none rfl) hb) (only_none rfl) hd) (only_client rfl hx) hdeliver
  · rfl
  · rfl
  · simp [Clerk.State.puts, d, b, a, List.countP_append, List.countP_singleton]

theorem answered_call (hx : P x) (hq : s.net.opQ = []) {call : Clerk.Call}
    (hcall : s.net.clerks x = some call) : Answered name id P s x call.op := by
  cases hrid : call.rid with
  | none => exact answered_send hx hq hcall hrid
  | some rid =>
    -- the clerk gives up the RPC it waits for
    have hfail : step name id s (.clerk (.fail x)) =
        some { s with net := s.net.retry x call } := by
      simp [step, Clerk.step, hcall, hrid]
    have hclerk : (s.net.retry x call).clerks x = some { call with rid := none } := by simp
    obtain ⟨net, call', res, hlead, hrest⟩ :=
      answered_send (s := { s with net := s.net.retry x call }) hx hq hclerk rfl
    exact ⟨net, call', res, System.ReachesWithin.trans
      (.single (a := .clerk (.fail x)) (only_client rfl hx) hfail) hlead, hrest⟩

/-- The clerk call at the client's program counter, started if it is not yet. -/
theorem answered_pc (hx : P x) (hq : s.net.opQ = []) {op : KvOp}
    (hop : (s.pc x).op name (id x) = some op)
    (hcalls : ∀ call, s.net.clerks x = some call → call.op = op) :
    Answered name id P s x op := by
  cases hcall : s.net.clerks x with
  | some call =>
    obtain rfl := hcalls call hcall
    exact answered_call hx hq hcall
  | none =>
    have hinvoke : step name id s (.clerk (.invoke x op)) =
        some { s with net := s.net.invoke x op } := by
      simp [step, Clerk.step, hcall, hop]
    have hclerk : (s.net.invoke x op).clerks x = some ⟨s.net.ops.length, op, 0, none⟩ := by simp
    obtain ⟨net, call', res, hlead, hrest⟩ :=
      answered_send (s := { s with net := s.net.invoke x op }) hx hq hclerk rfl
    exact ⟨net, call', res, System.ReachesWithin.trans
      (.single (a := .clerk (.invoke x op)) (only_client rfl hx) hinvoke) hlead, hrest⟩

end Calls

section Settled

def Next.pc : Next → Pc
  | .go pc => pc
  | .acquired => .idle
  | .released => .idle

@[simp]
theorem pc_next (s : State ι) (c : ι) (n : Next) :
    (s.next c n).pc = Function.update s.pc c n.pc := by
  cases n <;> rfl

theorem acquire_ne_other (me : String) (pc : Pc) (res : KvReply) :
    (acquire me pc res).pc ≠ .other := by
  rcases acquire_cases me pc res with ⟨pc', hgo, hin | ⟨p, rfl⟩⟩ | hret
  · rw [hgo]
    rintro rfl
    exact hin
  · simp [hgo, Next.pc]
  · simp [hret, Next.pc]

theorem release_ne_other (me : String) (pc : Pc) (res : KvReply) :
    (release me pc res).pc ≠ .other := by
  rcases release_cases me pc res with ⟨pc', hgo, hin | ⟨p, rfl⟩⟩ | hret
  · rw [hgo]
    rintro rfl
    exact hin
  · simp [hgo, Next.pc]
  · simp [hret, Next.pc]

theorem resume_ne_other (me : String) (pc : Pc) (res : KvReply) :
    (resume me pc res).pc ≠ .other := by
  cases pc with
  | acquireGet => exact acquire_ne_other me _ res
  | acquirePut v => exact acquire_ne_other me _ res
  | acquireCheck => exact acquire_ne_other me _ res
  | releaseGet => exact release_ne_other me _ res
  | releasePut v => exact release_ne_other me _ res
  | releaseCheck => exact release_ne_other me _ res
  | _ => simp [resume, Next.pc]

/-- The key holds the id of a client or nothing, and a client that is in a clerk
call of its own is waiting for its clerk. -/
structure Settled (name : String) (id : ι → String) (s : State ι) : Prop where
  owned : owner (s.net.kv name) = emptyLockOwnerId ∨ ∃ d, owner (s.net.kv name) = id d
  calling : ∀ c, s.pc c = .other → s.net.clerks c ≠ none

namespace Settled

theorem move (hs : Settled name id s) (c : ι) {pc : Pc} (hpc : pc ≠ .other) :
    ∀ d, Function.update s.pc c pc d = .other → d ≠ c ∧ s.net.clerks d ≠ none := by
  intro d hd
  by_cases h : d = c
  · subst h
    rw [Function.update_self] at hd
    exact absurd hd hpc
  · rw [Function.update_of_ne h] at hd
    exact ⟨h, hs.calling d hd⟩

theorem call (hs : Settled name id s) (c : ι) (call : Clerk.Call) (d : ι)
    (hd : s.pc d = .other) : Function.update s.net.clerks c (some call) d ≠ none := by
  by_cases h : d = c
  · subst h
    simp
  · rw [Function.update_of_ne h]
    exact hs.calling d hd

theorem step (h : Step name id s t) (hinv : Inv name id s) (hwf : Clerk.WellFormed s.net)
    (hserved : Clerk.Served s.net) (hb : ver name s.net < 2 ^ 64) (hs : Settled name id s) :
    Settled name id t := by
  cases h with
  | acquire c hpc => exact ⟨hs.owned, fun d hd => (hs.move c (by simp) d hd).2⟩
  | release c hpc => exact ⟨hs.owned, fun d hd => (hs.move c (by simp) d hd).2⟩
  | call c op hop hidle => exact ⟨hs.owned, hs.call c _⟩
  | other c op hpc hputs hidle =>
    refine ⟨hs.owned, fun d hd => ?_⟩
    by_cases h : d = c
    · subst h
      simp
    · have hd' : s.pc d = .other := by simpa [State.jump, h] using hd
      exact hs.call c _ d hd'
  | send c call hcall => exact ⟨hs.owned, hs.call c _⟩
  | drop rid hsent => exact ⟨hs.owned, hs.calling⟩
  | enqueue rid hsent => exact ⟨hs.owned, hs.calling⟩
  | serve rid rest q hq hreq =>
    refine ⟨?_, hs.calling⟩
    change owner ((serve s.net.kv q.op).1 name) = emptyLockOwnerId ∨
      ∃ d, owner ((serve s.net.kv q.op).1 name) = id d
    rw [serve_entry]
    cases happ : appliedArgs name (q.op, (serve s.net.kv q.op).2) with
    | none => exact hs.owned
    | some args =>
      obtain ⟨c, _, _, _, _, hcase⟩ := hinv.handover hwf hserved hb hq hreq happ
      rcases hcase with ⟨_, hval, _⟩ | ⟨_, hval, _⟩
      · exact Or.inr ⟨c, hval⟩
      · exact Or.inl hval
  | retry c call hcall => exact ⟨hs.owned, hs.call c _⟩
  | ret c call rid reply res hcall hrid hst hfin =>
    refine ⟨by rw [net_next]; exact hs.owned, fun d hd => ?_⟩
    rw [pc_next] at hd
    obtain ⟨hne, hsome⟩ := hs.move c (resume_ne_other _ _ _) d hd
    simpa [hne] using hsome

end Settled

theorem settled_of_reachable (hinj : Function.Injective id) (hne : ∀ c, id c ≠ emptyLockOwnerId)
    (hr : (system name id).Reachable s) (hb : s.net.puts name < 2 ^ 64) :
    Settled name id s := by
  refine System.Reachable.invariant_of_bound
    (B := fun s => s.net.puts name < 2 ^ 64) ?_ ?_ ?_ hr hb
  · intro s l t hstep hb
    exact Nat.lt_of_le_of_lt (puts_le_of_step hstep) hb
  · rintro s rfl
    exact ⟨Or.inl rfl, fun c hc => by simp [initial] at hc⟩
  · intro s l t hr hb hs hstep
    have hnet := net_reachable hr
    have hwf := Clerk.WellFormed.of_reachable hnet
    have hb' := Nat.lt_of_le_of_lt (puts_le_of_step hstep) hb
    exact hs.step (step_sound hstep) (inv_of_reachable hinj hne hr hb') hwf
      (Clerk.Served.of_reachable hnet) (Nat.lt_of_le_of_lt (hwf.applied_le_puts name) hb')

end Settled

/-- Nothing is queued at the server, there is room for `k` more Puts up to the limit `m`, and
`o` is the id in the lock's key. -/
structure Calm (name : String) (id : ι → String) (m k : ℕ) (o : String) (s : State ι) :
    Prop where
  reachable : (system name id).Reachable s
  idle : s.net.opQ = []
  limit : m < 2 ^ 64
  room : s.net.puts name + k ≤ m
  own : owner (s.net.kv name) = o

/-- The server answers what has been queued. -/
theorem drain {m k : ℕ} (hr : (system name id).Reachable s) (hm : m < 2 ^ 64)
    (hb : s.net.puts name + k ≤ m) :
    ∃ o t, Leads name id P s t ∧ Calm name id m k o t := by
  induction hq : s.net.opQ generalizing s with
  | nil => exact ⟨_, s, .refl, hr, hq, hm, hb, rfl⟩
  | cons rid rest ih =>
    have hwf := Clerk.WellFormed.of_reachable (net_reachable hr)
    have hlt := ((hwf.queue_mem rid).mp (by simp [hq])).1
    have hserve : step name id s (.clerk .serve) =
        some { s with net := s.net.serveHead rid rest s.net.reqs[rid] } := by
      simp [step, Clerk.step, hq, hlt]
    obtain ⟨o, t, hlead, ht⟩ := ih (hr.step (a := .clerk .serve) hserve) hb rfl
    exact ⟨o, t, System.ReachesWithin.trans
      (.single (a := .clerk .serve) (only_none rfl) hserve) hlead, ht⟩

theorem get_value (kv : KvMap) : (KVServer.get kv ⟨name⟩).value = owner (kv name) := by
  cases h : kv name <;> simp [KVServer.get, h, owner, emptyLockOwnerId]

theorem get_version (kv : KvMap) : (KVServer.get kv ⟨name⟩).version = version kv name := by
  cases h : kv name <;> simp [KVServer.get, h, version]

theorem unowned_get (kv : KvMap) :
    unowned (KVServer.get kv ⟨name⟩) ↔ owner (kv name) = emptyLockOwnerId := by
  cases h : kv name <;> simp [unowned, KVServer.get, h, owner, emptyLockOwnerId]

namespace Calm

variable {m k : ℕ} {o : String} (hinj : Function.Injective id)
  (hne : ∀ c, id c ≠ emptyLockOwnerId)

theorem mono {j : ℕ} (hs : Calm name id m k o s) (h : j ≤ k) : Calm name id m j o s where
  reachable := hs.reachable
  idle := hs.idle
  limit := hs.limit
  room := by
    have := hs.room
    omega
  own := hs.own

theorem version_toNat (hs : Calm name id m k o s) :
    (version s.net.kv name).toNat = ver name s.net := by
  have hroom := hs.room
  have hlimit := hs.limit
  have hnet := net_reachable hs.reachable
  have hle := (Clerk.WellFormed.of_reachable hnet).applied_le_puts name
  have hle' : ver name s.net ≤ s.net.puts name := hle
  exact version_eq_ver (Clerk.Served.of_reachable hnet) (by omega)

include hinj hne

theorem inv (hs : Calm name id m k o s) : Inv name id s := by
  have hroom := hs.room
  have hlimit := hs.limit
  exact inv_of_reachable hinj hne hs.reachable (by omega)

theorem not_panicked (hs : Calm name id m k o s) (p : Panic) : s.pc x ≠ .panicked p := by
  intro hpc
  have hinv := (hs.inv hinj hne).pc_ok x
  rw [hpc] at hinv
  exact hinv

theorem answered (hs : Calm name id m k o s) (hx : P x) {op : KvOp}
    (hop : (s.pc x).op name (id x) = some op) : Answered name id P s x op := by
  refine answered_pc hx hs.idle hop ?_
  intro call hcall
  rcases (hs.inv hinj hne).call_pc x call hcall with ⟨hother, _⟩ | hop'
  · rw [hother] at hop
    cases hop
  · exact Option.some.inj (hop'.symm.trans hop)

/-- A Get of the lock's key returns what is there. -/
theorem get (hs : Calm name id m k o s) (hx : P x)
    (hop : (s.pc x).op name (id x) = some (.get ⟨name⟩)) :
    ∃ t, Leads name id P s t ∧ Calm name id m k o t ∧
      version t.net.kv name = version s.net.kv name ∧
      t.pc x = (resume (id x) (s.pc x) (.get (KVServer.get s.net.kv ⟨name⟩))).pc := by
  obtain ⟨net, call, res, hlead, hq, hkv, hputs, hfin⟩ := hs.answered hinj hne hx hop
  obtain rfl := Clerk.Call.finish_get hfin
  have hroom := hs.room
  refine ⟨_, hlead, ⟨hs.reachable.reaches hlead.reaches, ?_, hs.limit, ?_, ?_⟩, ?_, ?_⟩
  · simpa [State.resumed] using hq
  · simpa [State.resumed, hputs, KvOp.PutsOn] using hroom
  · simpa [State.resumed, hkv, serve] using hs.own
  · simp [State.resumed, hkv, serve]
  · simp [State.resumed]

/-- A Put of the lock's key at its version is applied. -/
theorem put_current (hs : Calm name id m (k + 1) o s) (hx : P x) {value : String} {v : Tversion}
    (hop : (s.pc x).op name (id x) = some (.put ⟨name, value, v⟩))
    (hv : version s.net.kv name = v) :
    ∃ net, Leads name id P s (s.resumed id net x (.put ⟨.ok⟩)) ∧
      Calm name id m k value (s.resumed id net x (.put ⟨.ok⟩)) := by
  obtain ⟨net, call, res, hlead, hq, hkv, hputs, hfin⟩ := hs.answered hinj hne hx hop
  have hroom := hs.room
  have hput : KVServer.put s.net.kv ⟨name, value, v⟩ =
      (Function.update s.net.kv name (some ⟨value, v + 1⟩), ⟨.ok⟩) := by
    rcases put_cases s.net.kv ⟨name, value, v⟩ with ⟨_, h⟩ | ⟨h, _⟩ | ⟨h, hnone, _⟩
    · exact h
    · exact absurd hv h
    · simp only [version, hnone] at hv
      exact absurd hv.symm h
  obtain rfl : res = .put ⟨.ok⟩ := by
    simpa [serve, hput, Clerk.Call.finish, Clerk.put] using hfin.symm
  refine ⟨net, hlead, hs.reachable.reaches hlead.reaches, ?_, hs.limit, ?_, ?_⟩
  · simpa [State.resumed] using hq
  · simp only [State.resumed, net_next, hputs, KvOp.PutsOn, decide_true, if_true]
    omega
  · simp [State.resumed, hkv, serve, hput, owner]

/-- A Put of the lock's key at another version is refused. -/
theorem put_stale (hs : Calm name id m (k + 1) o s) (hx : P x) {value : String} {v : Tversion}
    (hop : (s.pc x).op name (id x) = some (.put ⟨name, value, v⟩))
    (hv : version s.net.kv name ≠ v) :
    ∃ t err, Leads name id P s t ∧ Calm name id m k o t ∧
      (err = .errVersion ∨ err = .errMaybe ∨ err = .errNoKey) ∧
      t.pc x = (resume (id x) (s.pc x) (.put ⟨err⟩)).pc := by
  obtain ⟨net, call, res, hlead, hq, hkv, hputs, hfin⟩ := hs.answered hinj hne hx hop
  have hroom := hs.room
  have hput : (KVServer.put s.net.kv ⟨name, value, v⟩).1 = s.net.kv ∧
      (KVServer.put s.net.kv ⟨name, value, v⟩).2 ≠ ⟨.ok⟩ := by
    rcases put_cases s.net.kv ⟨name, value, v⟩ with ⟨h, _⟩ | ⟨_, _, h⟩ | ⟨_, _, h⟩
    · exact absurd h hv
    · simp [h]
    · simp [h]
  cases res with
  | get r => simp [serve, Clerk.Call.finish] at hfin
  | put r =>
    obtain ⟨err⟩ := r
    refine ⟨_, err, hlead, ⟨hs.reachable.reaches hlead.reaches, ?_, hs.limit, ?_, ?_⟩, ?_, ?_⟩
    · simpa [State.resumed] using hq
    · simp only [State.resumed, net_next, hputs, KvOp.PutsOn, decide_true, if_true]
      omega
    · simpa [State.resumed, hkv, serve, hput.1] using hs.own
    · rcases Clerk.Call.finish_put hfin with ⟨rfl, h⟩ | ⟨rfl, _⟩ | ⟨rfl, _⟩ | ⟨rfl, _⟩
      · exact absurd (KvReply.put.inj h) hput.2
      · exact Or.inr (Or.inl rfl)
      · exact Or.inl rfl
      · exact Or.inr (Or.inr rfl)
    · simp [State.resumed]

section Turns

/-- A refused Put brings Acquire back to a Get. -/
theorem acquirePut_refused (hs : Calm name id m (k + 1) o s) (hx : P x) {v : Tversion}
    (hpc : s.pc x = .acquirePut v) (hv : version s.net.kv name ≠ v) :
    ∃ t, Leads name id P s t ∧ Calm name id m k o t ∧
      (t.pc x = .acquireGet ∨ t.pc x = .acquireCheck) := by
  obtain ⟨t, err, hlead, ht, herr, htpc⟩ := hs.put_stale hinj hne hx (by rw [hpc]; rfl) hv
  refine ⟨t, hlead, ht, ?_⟩
  rw [hpc] at htpc
  rcases herr with rfl | rfl | rfl
  · exact Or.inl htpc
  · exact Or.inr htpc
  · exact absurd htpc (ht.not_panicked hinj hne _)

theorem acquireCheck_get (hs : Calm name id m k o s) (hx : P x) (hpc : s.pc x = .acquireCheck) :
    ∃ t, Leads name id P s t ∧ Calm name id m k o t ∧
      t.pc x = if o = id x then .idle else .acquireGet := by
  obtain ⟨t, hlead, ht, _, htpc⟩ := hs.get hinj hne hx (by rw [hpc]; rfl)
  refine ⟨t, hlead, ht, ?_⟩
  rw [hpc] at htpc
  simp only [resume, acquire, get_value, hs.own] at htpc
  split at htpc
  · exact absurd htpc (ht.not_panicked hinj hne _)
  · split at htpc <;> simp_all [Next.pc]

theorem acquireGet_get (hs : Calm name id m k o s) (hx : P x) (hpc : s.pc x = .acquireGet) :
    ∃ t, Leads name id P s t ∧ Calm name id m k o t ∧
      t.pc x = if o = emptyLockOwnerId then .acquirePut (version t.net.kv name)
        else if o = id x then .idle else .acquireGet := by
  obtain ⟨t, hlead, ht, hver, htpc⟩ := hs.get hinj hne hx (by rw [hpc]; rfl)
  refine ⟨t, hlead, ht, ?_⟩
  rw [hpc] at htpc
  simp only [resume, acquire, unowned_get, get_value, get_version, hs.own] at htpc
  rw [htpc, hver]
  split
  · rfl
  · split <;> rfl

theorem releaseGet_get (hs : Calm name id m k o s) (hx : P x) (hpc : s.pc x = .releaseGet) :
    ∃ t, Leads name id P s t ∧ Calm name id m k o t ∧
      t.pc x = if o = id x then .releasePut (version t.net.kv name) else .idle := by
  obtain ⟨t, hlead, ht, hver, htpc⟩ := hs.get hinj hne hx (by rw [hpc]; rfl)
  refine ⟨t, hlead, ht, ?_⟩
  rw [hpc] at htpc
  simp only [resume, release, unowned_get, get_value, get_version, hs.own] at htpc
  rw [htpc, hver]
  by_cases ho : o = id x
  · simp [ho, hne x, Next.pc]
  · simp [ho, Next.pc]

theorem releaseCheck_get (hs : Calm name id m k o s) (hx : P x) (hpc : s.pc x = .releaseCheck) :
    ∃ t, Leads name id P s t ∧ Calm name id m k o t ∧
      t.pc x = if o = emptyLockOwnerId then .idle else .releaseGet := by
  obtain ⟨t, hlead, ht, _, htpc⟩ := hs.get hinj hne hx (by rw [hpc]; rfl)
  refine ⟨t, hlead, ht, ?_⟩
  rw [hpc] at htpc
  simp only [resume, release, get_value, hs.own] at htpc
  split at htpc
  · exact absurd htpc (ht.not_panicked hinj hne _)
  · rw [htpc]
    by_cases ho : o = emptyLockOwnerId <;> simp [ho, Next.pc]

/-- While the owner's Put of Release is due its version is that of the key. -/
theorem releasePut_version (hs : Calm name id m k (id x) s) {v : Tversion}
    (hpc : s.pc x = .releasePut v) : version s.net.kv name = v := by
  have hinv := (hs.inv hinj hne).pc_ok x
  rw [hpc] at hinv
  rcases Nat.lt_or_eq_of_le hinv.le with hlt | heq
  · rcases (hinv.answers .ok (hinv.done hlt)).2 with ⟨_, hown⟩ | h
    · exact absurd hs.own hown
    · cases h
  · exact UInt64.toNat_inj.mp (hs.version_toNat.trans heq.symm)

/-- Somebody else's Release finds its Put refused. -/
theorem releasePut_refused (hs : Calm name id m (k + 1) o s) (ho : o ≠ id x) (hx : P x)
    {v : Tversion} (hpc : s.pc x = .releasePut v) :
    ∃ t, Leads name id P s t ∧ Calm name id m k o t ∧ t.pc x = .releaseCheck := by
  have hv : version s.net.kv name ≠ v := by
    intro heq
    have hinv := (hs.inv hinj hne).pc_ok x
    rw [hpc] at hinv
    rw [← heq] at hinv
    exact ho (hs.own.symm.trans (hinv.mine hs.version_toNat))
  obtain ⟨t, err, hlead, ht, herr, htpc⟩ := hs.put_stale hinj hne hx (by rw [hpc]; rfl) hv
  refine ⟨t, hlead, ht, ?_⟩
  rw [hpc] at htpc
  rcases herr with rfl | rfl | rfl
  · exact absurd htpc (ht.not_panicked hinj hne _)
  · exact htpc
  · exact absurd htpc (ht.not_panicked hinj hne _)

/-- The clerk call of the application returns. -/
theorem other_returns (hs : Calm name id m k o s) (hx : P x) (hpc : s.pc x = .other) :
    ∃ t, Leads name id P s t ∧ Calm name id m k o t ∧ t.pc x = .idle := by
  have hroom := hs.room
  have hlimit := hs.limit
  have hcalling := (settled_of_reachable hinj hne hs.reachable (by omega)).calling x hpc
  obtain ⟨call, hcall⟩ := Option.ne_none_iff_exists'.mp hcalling
  have hputs : call.op.PutsOn name = false := by
    rcases (hs.inv hinj hne).call_pc x call hcall with ⟨_, h⟩ | h
    · exact h
    · rw [hpc] at h
      cases h
  obtain ⟨net, _, res, hlead, hq, hkv, hcount, _⟩ := answered_call hx hs.idle hcall
  have hkey : net.kv name = s.net.kv name := by
    rw [hkv, serve_entry]
    cases happ : appliedArgs name (call.op, (serve s.net.kv call.op).2) with
    | none => rfl
    | some args =>
      obtain ⟨hop, hkey, _⟩ := appliedArgs_eq_some.mp happ
      simp [hop, KvOp.PutsOn, hkey] at hputs
  refine ⟨_, hlead, ⟨hs.reachable.reaches hlead.reaches, ?_, hs.limit, ?_, ?_⟩, ?_⟩
  · simpa [State.resumed] using hq
  · simpa [State.resumed, hcount, hputs] using hroom
  · simpa [State.resumed, hkey] using hs.own
  · simp [State.resumed, hpc, resume, Next.pc]

end Turns

section Owner

/-- The owner is led to give the lock back. -/
theorem frees_releasePut (hs : Calm name id m (k + 1) (id x) s) (hx : P x) {v : Tversion}
    (hpc : s.pc x = .releasePut v) :
    ∃ t, Leads name id P s t ∧ Calm name id m k emptyLockOwnerId t := by
  obtain ⟨net, hlead, ht⟩ := hs.put_current hinj hne hx (by rw [hpc]; rfl)
    (hs.releasePut_version hinj hne hpc)
  exact ⟨_, hlead, ht⟩

theorem frees_releaseGet (hs : Calm name id m (k + 1) (id x) s) (hx : P x)
    (hpc : s.pc x = .releaseGet) :
    ∃ t, Leads name id P s t ∧ Calm name id m k emptyLockOwnerId t := by
  refine System.ReachesWithin.chain (hs.releaseGet_get hinj hne hx hpc) ?_
  intro t ⟨ht, htpc⟩
  rw [if_pos rfl] at htpc
  exact ht.frees_releasePut hinj hne hx htpc

theorem frees_idle (hs : Calm name id m (k + 1) (id x) s) (hx : P x) (hpc : s.pc x = .idle) :
    ∃ t, Leads name id P s t ∧ Calm name id m k emptyLockOwnerId t := by
  let a : State ι := { s.jump x .releaseGet with held := Function.update s.held x false }
  have hrelease : step name id s (.release x) = some a := by simp [step, hpc, a]
  have ha : Calm name id m (k + 1) (id x) a :=
    ⟨hs.reachable.step (a := .release x) hrelease, hs.idle, hs.limit, hs.room, hs.own⟩
  obtain ⟨t, hlead, ht⟩ := ha.frees_releaseGet hinj hne hx (by simp [a, State.jump])
  exact ⟨t, System.ReachesWithin.trans
    (.single (a := .release x) (only_client rfl hx) hrelease) hlead, ht⟩

theorem frees_acquireGet (hs : Calm name id m (k + 1) (id x) s) (hx : P x)
    (hpc : s.pc x = .acquireGet) :
    ∃ t, Leads name id P s t ∧ Calm name id m k emptyLockOwnerId t := by
  refine System.ReachesWithin.chain (hs.acquireGet_get hinj hne hx hpc) ?_
  intro t ⟨ht, htpc⟩
  rw [if_neg (hne x), if_pos rfl] at htpc
  exact ht.frees_idle hinj hne hx htpc

theorem frees_acquireCheck (hs : Calm name id m (k + 1) (id x) s) (hx : P x)
    (hpc : s.pc x = .acquireCheck) :
    ∃ t, Leads name id P s t ∧ Calm name id m k emptyLockOwnerId t := by
  refine System.ReachesWithin.chain (hs.acquireCheck_get hinj hne hx hpc) ?_
  intro t ⟨ht, htpc⟩
  rw [if_pos rfl] at htpc
  exact ht.frees_idle hinj hne hx htpc

/-- The Put of an Acquire whose client is already the owner is stale. -/
theorem frees_acquirePut (hs : Calm name id m (k + 2) (id x) s) (hx : P x) {v : Tversion}
    (hpc : s.pc x = .acquirePut v) :
    ∃ t, Leads name id P s t ∧ Calm name id m k emptyLockOwnerId t := by
  have hv : version s.net.kv name ≠ v := by
    intro heq
    have hinv := (hs.inv hinj hne).pc_ok x
    rw [hpc] at hinv
    rw [← heq] at hinv
    exact hne x (hs.own.symm.trans (hinv.free hs.version_toNat))
  refine System.ReachesWithin.chain (hs.acquirePut_refused hinj hne hx hpc hv) ?_
  intro t ⟨ht, htpc⟩
  rcases htpc with htpc | htpc
  · exact ht.frees_acquireGet hinj hne hx htpc
  · exact ht.frees_acquireCheck hinj hne hx htpc

/-- Wherever the owner is, it comes to give the lock back. -/
theorem frees (hs : Calm name id m (k + 2) (id x) s) (hx : P x) :
    ∃ t, Leads name id P s t ∧ Calm name id m k emptyLockOwnerId t := by
  have hs' := hs.mono (Nat.le_succ (k + 1))
  cases hpc : s.pc x with
  | idle => exact hs'.frees_idle hinj hne hx hpc
  | other =>
    refine System.ReachesWithin.chain (hs'.other_returns hinj hne hx hpc) ?_
    intro t ⟨ht, htpc⟩
    exact ht.frees_idle hinj hne hx htpc
  | acquireGet => exact hs'.frees_acquireGet hinj hne hx hpc
  | acquirePut v => exact hs.frees_acquirePut hinj hne hx hpc
  | acquireCheck => exact hs'.frees_acquireCheck hinj hne hx hpc
  | releaseGet => exact hs'.frees_releaseGet hinj hne hx hpc
  | releasePut v => exact hs'.frees_releasePut hinj hne hx hpc
  | releaseCheck =>
    refine System.ReachesWithin.chain (hs'.releaseCheck_get hinj hne hx hpc) ?_
    intro t ⟨ht, htpc⟩
    rw [if_neg (hne x)] at htpc
    exact ht.frees_releaseGet hinj hne hx htpc
  | panicked p => exact absurd hpc (hs.not_panicked hinj hne p)

end Owner

section Free

/-- A client is led to take the free lock. -/
theorem wins_acquirePut (hs : Calm name id m (k + 1) emptyLockOwnerId s) (hx : P x)
    (hpc : s.pc x = .acquirePut (version s.net.kv name)) :
    ∃ t, Leads name id P s t ∧ t.held x = true ∧ t.net.puts name ≤ m := by
  obtain ⟨net, hlead, ht⟩ := hs.put_current hinj hne hx (by rw [hpc]; rfl) rfl
  refine ⟨_, hlead, ?_, (Nat.le_add_right _ _).trans ht.room⟩
  simp [State.resumed, hpc, resume, acquire, State.next]

theorem wins_acquireGet (hs : Calm name id m (k + 1) emptyLockOwnerId s) (hx : P x)
    (hpc : s.pc x = .acquireGet) :
    ∃ t, Leads name id P s t ∧ t.held x = true ∧ t.net.puts name ≤ m := by
  refine System.ReachesWithin.chain (hs.acquireGet_get hinj hne hx hpc) ?_
  intro t ⟨ht, htpc⟩
  rw [if_pos rfl] at htpc
  exact ht.wins_acquirePut hinj hne hx htpc

theorem wins_idle (hs : Calm name id m (k + 1) emptyLockOwnerId s) (hx : P x)
    (hpc : s.pc x = .idle) : ∃ t, Leads name id P s t ∧ t.held x = true ∧ t.net.puts name ≤ m := by
  have hacquire : step name id s (.acquire x) = some (s.jump x .acquireGet) := by
    simp [step, hpc]
  have ha : Calm name id m (k + 1) emptyLockOwnerId (s.jump x .acquireGet) :=
    ⟨hs.reachable.step (a := .acquire x) hacquire, hs.idle, hs.limit, hs.room, hs.own⟩
  obtain ⟨t, hlead, ht⟩ := ha.wins_acquireGet hinj hne hx (by simp [State.jump])
  exact ⟨t, System.ReachesWithin.trans
    (.single (a := .acquire x) (only_client rfl hx) hacquire) hlead, ht⟩

theorem wins_acquireCheck (hs : Calm name id m (k + 1) emptyLockOwnerId s) (hx : P x)
    (hpc : s.pc x = .acquireCheck) :
    ∃ t, Leads name id P s t ∧ t.held x = true ∧ t.net.puts name ≤ m := by
  refine System.ReachesWithin.chain (hs.acquireCheck_get hinj hne hx hpc) ?_
  intro t ⟨ht, htpc⟩
  rw [if_neg (hne x).symm] at htpc
  exact ht.wins_acquireGet hinj hne hx htpc

theorem wins_releaseCheck (hs : Calm name id m (k + 1) emptyLockOwnerId s) (hx : P x)
    (hpc : s.pc x = .releaseCheck) :
    ∃ t, Leads name id P s t ∧ t.held x = true ∧ t.net.puts name ≤ m := by
  refine System.ReachesWithin.chain (hs.releaseCheck_get hinj hne hx hpc) ?_
  intro t ⟨ht, htpc⟩
  rw [if_pos rfl] at htpc
  exact ht.wins_idle hinj hne hx htpc

/-- Wherever a client is, it comes to hold the free lock. -/
theorem wins (hs : Calm name id m (k + 2) emptyLockOwnerId s) (hx : P x) :
    ∃ t, Leads name id P s t ∧ t.held x = true ∧ t.net.puts name ≤ m := by
  have hs' := hs.mono (Nat.le_succ (k + 1))
  cases hpc : s.pc x with
  | idle => exact hs'.wins_idle hinj hne hx hpc
  | other =>
    refine System.ReachesWithin.chain (hs'.other_returns hinj hne hx hpc) ?_
    intro t ⟨ht, htpc⟩
    exact ht.wins_idle hinj hne hx htpc
  | acquireGet => exact hs'.wins_acquireGet hinj hne hx hpc
  | acquirePut v =>
    by_cases hv : version s.net.kv name = v
    · exact hs'.wins_acquirePut hinj hne hx (hv ▸ hpc)
    · refine System.ReachesWithin.chain (hs.acquirePut_refused hinj hne hx hpc hv) ?_
      intro t ⟨ht, htpc⟩
      rcases htpc with htpc | htpc
      · exact ht.wins_acquireGet hinj hne hx htpc
      · exact ht.wins_acquireCheck hinj hne hx htpc
  | acquireCheck => exact hs'.wins_acquireCheck hinj hne hx hpc
  | releaseGet =>
    refine System.ReachesWithin.chain (hs'.releaseGet_get hinj hne hx hpc) ?_
    intro t ⟨ht, htpc⟩
    rw [if_neg (hne x).symm] at htpc
    exact ht.wins_idle hinj hne hx htpc
  | releasePut v =>
    refine System.ReachesWithin.chain (hs.releasePut_refused hinj hne (hne x).symm hx hpc) ?_
    intro t ⟨ht, htpc⟩
    exact ht.wins_releaseCheck hinj hne hx htpc
  | releaseCheck => exact hs'.wins_releaseCheck hinj hne hx hpc
  | panicked p => exact absurd hpc (hs.not_panicked hinj hne p)

end Free

end Calm

/-- From every reachable state, however many requests are lost or still under
way, the lock can be had: when the server has answered what is queued, a run in
which only the client and the owner of that moment take steps, with at most four
Puts on the lock's key, brings the client to hold the lock. -/
theorem lock_obtainable (hinj : Function.Injective id) (hne : ∀ c, id c ≠ emptyLockOwnerId)
    (hr : (system name id).Reachable s) (hb : s.net.puts name + 4 < 2 ^ 64) (c : ι) :
    ∃ t u, (system name id).ReachesWithin (Only fun _ => False) s t ∧ t.net.opQ = [] ∧
      (system name id).ReachesWithin
        (Only fun x => x = c ∨ owner (t.net.kv name) = id x) t u ∧
      u.held c = true ∧ u.net.puts name ≤ s.net.puts name + 4 := by
  obtain ⟨o, t, hdrain, ht⟩ := drain (P := fun _ => False) (k := 4) hr hb le_rfl
  have hroom := ht.room
  refine ⟨t, ?_⟩
  rcases (settled_of_reachable hinj hne ht.reachable (by omega)).owned with hfree | ⟨d, hown⟩
  · obtain rfl := ht.own.symm.trans hfree
    obtain ⟨u, hlead, hheld, hputs⟩ := (ht.mono (j := 2) (by omega)).wins hinj hne
      (x := c) (P := fun x => x = c ∨ owner (t.net.kv name) = id x) (Or.inl rfl)
    exact ⟨u, hdrain, ht.idle, hlead, hheld, hputs⟩
  · obtain rfl := ht.own.symm.trans hown
    obtain ⟨u, hlead, hu⟩ := ht.frees hinj hne
      (x := d) (P := fun x => x = c ∨ owner (t.net.kv name) = id x) (Or.inr hown)
    obtain ⟨w, hlead', hheld, hputs⟩ := hu.wins hinj hne
      (x := c) (P := fun x => x = c ∨ owner (t.net.kv name) = id x) (Or.inl rfl)
    exact ⟨w, hdrain, ht.idle, hlead.trans hlead', hheld, hputs⟩

theorem lock_obtainable_acquiredByCheck :
    ∃ s, (system "l" twoIds).Reachable s ∧ s.held false = true ∧
      ∃ t u, (system "l" twoIds).ReachesWithin (Only fun _ => False) s t ∧
        (system "l" twoIds).ReachesWithin
          (Only fun x => x = true ∨ owner (t.net.kv "l") = twoIds x) t u ∧
        u.held true = true ∧ u.net.puts "l" ≤ 6 := by
  obtain ⟨s, hr, hp⟩ := System.Reachable.of_run_check (S := system "l" twoIds)
    acquiredByCheck rfl
    (p := fun s => decide (s.held false = true ∧ s.net.puts "l" = 2)) (by decide)
  obtain ⟨hheld, hputs⟩ := of_decide_eq_true hp
  obtain ⟨t, u, hdrain, _, hlead, hwin, hle⟩ :=
    lock_obtainable twoIds_injective twoIds_ne_empty hr (by omega) true
  exact ⟨s, hr, hheld, t, u, hdrain, hlead, hwin, by omega⟩

end DistributedLabs.Lock
