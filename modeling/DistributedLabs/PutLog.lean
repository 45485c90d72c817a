import DistributedLabs.OpLog
import DistributedLabs.PutAccounting
import Mathlib.Data.Finset.Sort

/-!
The log of a test whose clients run OneClientPut. A client puts at version 0 or
at a version it has read, so each Put is called at a version the key has reached
and the linearizability check of the log cannot fail while the clock goes forward.
-/
namespace DistributedLabs.KvTest

open KVServer Transition Tables OpLog

variable {ι : Type*}

/-- The version with which a client goes on. -/
def Pc.version? : Pc → Option Tversion
  | .select ver => some ver
  | .put ver => some ver
  | .idle => none
  | .get _ _ => none
  | .stopped => none
  | .fatal _ => none

/-- Clients know only versions that the key has reached. -/
structure Informed (u : Setup ι) (s : State ι) : Prop where
  known : ∀ c ver, (s.pc c).version? = some ver → ver.toNat ≤ appliedIn u.key s.net.execs
  read : ∀ e ∈ s.net.execs, ∀ reply, e.op = .get ⟨u.key⟩ → e.reply = .get reply →
    reply.version.toNat ≤ appliedIn u.key s.net.execs
  timely : ∀ (o : ℕ) (c : ι) (args : PutArgs) (t : ℕ), s.net.ops[o]? = some ⟨c, .put args, t⟩ →
    args.key = u.key → args.version.toNat ≤ reached s.net u.key t

/-- All executions so far are earlier than the clock. -/
theorem reached_clock {net : Clerk.State ι} (htimed : Clerk.Timed net) (k : String) :
    reached net k net.clock = appliedIn k net.execs := by
  rw [reached, Clerk.State.appliedExecs, List.countP_filter, appliedIn]
  refine List.countP_congr ?_
  intro e he
  simp [htimed.exec_lt e he]

theorem reached_append {net net' : Clerk.State ι} {new : List Clerk.Exec}
    (h : net'.execs = net.execs ++ new) (k : String) (t : ℕ) :
    reached net k t ≤ reached net' k t := by
  simp only [reached, Clerk.State.appliedExecs, h, List.filter_append, List.countP_append]
  exact Nat.le_add_right _ _

namespace Informed

variable {u : Setup ι} {s t : State ι}

theorem initial : Informed u (initial : State ι) where
  known c ver h := by simp [KvTest.initial, Pc.version?] at h
  read e h := by simp [KvTest.initial, Clerk.initial] at h
  timely o c args t h := by simp [KvTest.initial, Clerk.initial] at h

variable [DecidableEq ι]

theorem jump (hs : Informed u s) {c : ι} {pc : Pc}
    (hpc : ∀ ver, pc.version? = some ver → ver.toNat ≤ appliedIn u.key s.net.execs) :
    Informed u (s.jump c pc) where
  known d ver h := by
    by_cases hd : d = c
    · subst hd
      exact hpc ver (by simpa [State.jump] using h)
    · exact hs.known d ver (by simpa [State.jump, hd] using h)
  read := hs.read
  timely := hs.timely

theorem invoke (hs : Informed u s) (htimed : Clerk.Timed s.net) {c : ι} {op : KvOp}
    (hop : u.op c (s.pc c) = some op ∨ s.pc c = .idle ∧ op.PutsOn u.key = false) :
    Informed u { s with net := s.net.invoke c op } where
  known := hs.known
  read := hs.read
  timely o d args t ho hkey := by
    rcases getElem?_concat_cases ho with hold | ⟨_, hnew⟩
    · exact hs.timely o d args t hold hkey
    · obtain ⟨rfl, rfl, rfl⟩ : d = c ∧ .put args = op ∧ t = s.net.clock := by
        simpa using hnew
      rcases hop with hop | ⟨_, hputs⟩
      · cases hpc : s.pc d with
        | put ver =>
          obtain rfl : _ = args := by simpa [hpc, Setup.op] using hop
          have hknown := hs.known d ver (by rw [hpc]; rfl)
          rw [← reached_clock htimed] at hknown
          exact hknown
        | _ => simp [hpc, Setup.op] at hop
      · simp [KvOp.PutsOn, hkey] at hputs

omit [DecidableEq ι] in
theorem inner (hs : Informed u s) (hwf : Clerk.WellFormed s.net)
    (hserved : Clerk.Served s.net) (hb : s.net.puts u.key < 2 ^ 64) {net : Clerk.State ι}
    (h : Clerk.Inner s.net net) : Informed u { s with net } := by
  rcases h.served with ⟨_, hexecs⟩ | ⟨rid, q, hreq, _, hexecs⟩
  · refine ⟨hexecs ▸ hs.known, hexecs ▸ hs.read, ?_⟩
    rw [h.ops_eq]
    intro o c args t ho hkey
    exact (hs.timely o c args t ho hkey).trans
      (reached_append (hexecs.trans (List.append_nil _).symm) u.key t)
  · have hgrow : appliedIn u.key s.net.execs ≤ appliedIn u.key net.execs := by
      rw [hexecs, appliedIn_append]
      exact Nat.le_add_right _ _
    refine ⟨fun c ver hver => (hs.known c ver hver).trans hgrow, ?_, ?_⟩
    · intro e he reply hop hreply
      rw [hexecs] at he
      rcases List.mem_append.mp he with hold | hlast
      · exact (hs.read e hold reply hop hreply).trans hgrow
      · obtain rfl := List.mem_singleton.mp hlast
        -- a Get answers with the version of the map it reads
        have hversion := version_mapAfter hserved hwf hb (List.append_nil s.net.execs).symm
        have hkv : Clerk.mapAfter s.net.execs = s.net.kv := by
          rw [hserved.kv_eq, Clerk.mapAfter, Clerk.State.history, List.map_map]
          rfl
        have hget : reply.version = version s.net.kv u.key := by
          rw [show q.op = .get ⟨u.key⟩ from hop, serve] at hreply
          rw [← KvReply.get.inj hreply, KVServer.get, version]
          cases s.net.kv u.key <;> rfl
        rw [hget, ← hkv, hversion]
        exact hgrow
    · rw [h.ops_eq]
      intro o c args t ho hkey
      exact (hs.timely o c args t ho hkey).trans (reached_append hexecs u.key t)

theorem finish (hs : Informed u s) (c : ι) (call : Clerk.Call) (rid : ℕ) (res : KvReply) :
    Informed u { s with net := s.net.finish c call rid res } :=
  ⟨hs.known, hs.read, hs.timely⟩

/-- A client goes on with the version it put at or with the one it has read. -/
theorem ret (hs : Informed u s) (hsound : Sound u s) (hwf : Clerk.WellFormed s.net)
    (hserved : Clerk.Served s.net) {c : ι} {call : Clerk.Call} {rid : ℕ} {reply res : KvReply}
    (hcall : s.net.clerks c = some call) (hrid : call.rid = some rid)
    (hst : s.net.status rid = .served reply) (hfin : call.finish reply = some res) :
    Informed u ({ s with net := s.net.finish c call rid res }.next c
      (u.onePut (u.me c) (s.pc c) res)) := by
  have hs' := hs.finish c call rid res
  obtain ⟨e, he, _, hid, hreply, _⟩ := Clerk.taken_answer hwf hserved hcall hrid hst
  cases hpc : s.pc c with
  | get ver err =>
    obtain ⟨v, hv⟩ := hsound.got c call ver err hpc hcall e he hid
    rw [← hreply, hv] at hfin
    obtain rfl : res = .get ⟨u.codec.marshal v, v.v + 1, .ok⟩ := by
      simpa [Clerk.Call.finish, Clerk.get] using hfin.symm
    have hop : e.op = .get ⟨u.key⟩ := by
      rw [show e.op = call.op from hwf.req_call_op hcall (hwf.exec_req e he).1 hid]
      rcases hsound.call_op c call hcall with ⟨hidle, _⟩ | hop
      · rw [hpc] at hidle
        cases hidle
      · simpa [hpc, Setup.op] using hop.symm
    have hle := hs.read e he _ hop hv
    rw [onePut_get]
    split
    · have hselect : Informed u ({ s with
          net := s.net.finish c call rid (.get ⟨u.codec.marshal v, v.v + 1, .ok⟩) }.jump c
            (.select (v.v + 1))) := hs'.jump (by rintro _ ⟨⟩; exact hle)
      exact ⟨hselect.known, hselect.read, hselect.timely⟩
    · exact hs'.jump (by rintro _ ⟨⟩; exact hle)
  | put ver =>
    cases res with
    | get r => exact hs'.jump (by rintro _ ⟨⟩; exact hs.known c ver (by rw [hpc]; rfl))
    | put r =>
      simp only [Setup.onePut]
      split
      · exact hs'.jump (by rintro _ ⟨⟩)
      · exact hs'.jump (by rintro _ ⟨⟩)
  | select ver => exact hs'.jump (by rintro _ ⟨⟩; exact hs.known c ver (by rw [hpc]; rfl))
  | _ => exact hs'.jump (by rintro _ ⟨⟩)

theorem step (hs : Informed u s) (hsound : Sound u s) (hwf : Clerk.WellFormed s.net)
    (htimed : Clerk.Timed s.net) (hserved : Clerk.Served s.net)
    (hb : s.net.puts u.key < 2 ^ 64) (h : Step u s t) : Informed u t := by
  cases h with
  | start c hpc hidle => exact hs.jump (by rintro _ ⟨⟩; exact Nat.zero_le _)
  | done c ver hpc => exact hs.jump (by rintro _ ⟨⟩)
  | default c ver hpc => exact hs.jump (by rintro _ ⟨⟩; exact hs.known c ver (by rw [hpc]; rfl))
  | call c op hop hidle => exact hs.invoke htimed hop
  | inner net h => exact hs.inner hwf hserved hb h
  | ret c call rid reply res hcall hrid hst hfin =>
    exact hs.ret hsound hwf hserved hcall hrid hst hfin

theorem of_reachable (h : (system u).Reachable s) (hb : s.net.puts u.key < 2 ^ 64) :
    Informed u s := by
  refine System.Reachable.invariant_of_bound (I := Informed u)
    (B := fun s => s.net.puts u.key < 2 ^ 64) ?_ ?_ ?_ h hb
  · intro s l t hstep hlt
    exact Nat.lt_of_le_of_lt ((runs u).puts_le hstep u.key) hlt
  · rintro s rfl
    exact initial
  · intro s l t hr hlt hs hstep
    have hnet := net_reachable hr
    exact hs.step (Sound.of_reachable hr) (Clerk.WellFormed.of_reachable hnet)
      (Clerk.Timed.of_reachable hnet) (Clerk.Served.of_reachable hnet)
      (Nat.lt_of_le_of_lt ((runs u).puts_le hstep u.key) hlt) (step_sound hstep)

end Informed

variable [DecidableEq ι] {u : Setup ι} {s : State ι}

theorem orderly_of_reachable (hr : (system u).Reachable s)
    (hkey : ∀ inv ∈ s.net.ops, inv.op.key = u.key)
    (hret : ∀ o < s.net.ops.length, ∃ ret, s.net.rets o = some ret)
    (hputs : s.net.puts u.key < 2 ^ 64) : Orderly s.net where
  returned := hret
  puts_lt k := by
    by_cases hk : k = u.key
    · exact hk ▸ hputs
    · have hwf := Clerk.WellFormed.of_reachable (net_reachable hr)
      have hzero : s.net.puts k = 0 := by
        rw [Clerk.State.puts, List.countP_eq_zero]
        intro q hq hputsOn
        obtain ⟨rid, hrid⟩ := List.mem_iff_getElem?.mp hq
        obtain ⟨c, t, ht⟩ := hwf.req_op rid q hrid
        obtain ⟨args, hop, hargs⟩ := (KvModel.putsOn_iff k q.op).mp hputsOn
        have hsame := hkey _ (List.mem_of_getElem? ht)
        rw [hop] at hsame
        exact hk (hargs.symm.trans hsame)
      omega
  timely o c args t ho := by
    have hsame : args.key = u.key := hkey _ (List.mem_of_getElem? ho)
    rw [hsame]
    exact (Informed.of_reachable hr hputs).timely o c args t ho hsame

theorem oneClientPut_log_linearizable (u : Setup ι) (s : State ι) (hr : (system u).Reachable s)
    (hkey : ∀ inv ∈ s.net.ops, inv.op.key = u.key)
    (hret : ∀ o < s.net.ops.length, ∃ ret, s.net.rets o = some ret)
    (hputs : s.net.puts u.key < 2 ^ 64) (w : Stopwatch s.net) (hw : w.Forward) (cli : ι → ℤ)
    (oplog : List KvModel.Operation) (hlog : oplog.Perm (records w hw cli))
    (it : Grouping.Iteration String KvModel.Operation) :
    ∀ cls ∈ KvModel.partition it oplog,
      Locality.Linearizable KvModel.Operation.call KvModel.Operation.ret KvModel.Legal cls :=
  (orderly_of_reachable hr hkey hret hputs).linearizable (net_reachable hr) w hw cli oplog hlog it

/-- A clock that counts steps, read as each call starts and as it returns. -/
def stepClock (net : Clerk.State ι) : Stopwatch net where
  now t := t
  start o := (net.ops[o]?).elim 0 Clerk.Invocation.call
  stop o := max ((net.ops[o]?).elim 0 Clerk.Invocation.call)
    ((net.rets o).elim 0 Clerk.Return.time)
  start_le_stop _ := Nat.le_max_left _ _
  start_le_call o inv h := by simp [h]
  ret_le_stop o ret h := by
    rw [h]
    exact Nat.le_max_right _ _

omit [DecidableEq ι] in
theorem forward_stepClock (net : Clerk.State ι) : (stepClock net).Forward :=
  fun _ _ h => Int.ofNat_le.mpr h

def sortedKeys : Grouping.Iteration String KvModel.Operation where
  order _ m := m.keys.sort (· ≤ ·)
  ranges _ m := ⟨Finset.sort_nodup _ _, fun k => by simp [Finmap.mem_keys]⟩

set_option maxRecDepth 8000 in
theorem oneClientPut_log_linearizable_maybeThenOk :
    ∃ s : State Bool, (system twoClients).Reachable s ∧ s.net.ops.length = 6 ∧
      ∀ cls ∈ KvModel.partition sortedKeys (records (stepClock s.net)
          (forward_stepClock s.net) twoClients.me),
        Locality.Linearizable KvModel.Operation.call KvModel.Operation.ret KvModel.Legal cls := by
  obtain ⟨s, hr, hp⟩ := System.Reachable.of_run_check (S := system twoClients) maybeThenOk rfl
    (p := fun s => decide (s.net.ops.length = 6 ∧ (∀ inv ∈ s.net.ops, inv.op.key = "k") ∧
      (∀ o < s.net.ops.length, (s.net.rets o).isSome) ∧ s.net.puts "k" < 2 ^ 64))
    (by decide +kernel)
  obtain ⟨hlen, hkey, hret, hputs⟩ := of_decide_eq_true hp
  exact ⟨s, hr, hlen, oneClientPut_log_linearizable twoClients s hr hkey
    (fun o ho => Option.isSome_iff_exists.mp (hret o ho)) hputs (stepClock s.net)
    (forward_stepClock s.net) twoClients.me _ (List.Perm.refl _) sortedKeys⟩

end DistributedLabs.KvTest
