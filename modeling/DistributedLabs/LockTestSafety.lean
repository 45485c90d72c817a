import DistributedLabs.ClerkVersions
import DistributedLabs.LockTest

/-!
The clients of lock_test.go never fail. Under the first lock a client is alone with the key
l0, so that its Get finds the key empty and its two Puts meet the version they were computed
from. A Put of another client from an earlier round may still be in the network; it is behind
the key's version.
-/
namespace DistributedLabs.LockTest

open KVServer Transition Tables
open Clerk (ver Seen)

variable {ι : Type*}

/-- A Put at version `v` of the client that is alone with the key: it is still to be executed,
or it was applied and only its own repetitions were refused. -/
inductive PutOk (was now value : String) (n : ℕ) (seen : KvReply → Prop) (v : Tversion) : Prop
  | pending (hn : n = v.toNat) (hval : value = was) (hseen : ∀ r, ¬ seen r)
  | applied (hn : n = v.toNat + 1) (hval : value = now) (hok : seen (.put ⟨.ok⟩))
      (hseen : ∀ r, seen r → r = .put ⟨.ok⟩ ∨ r = .put ⟨.errVersion⟩)

theorem PutOk.le {was now value : String} {n : ℕ} {seen : KvReply → Prop} {v : Tversion}
    (h : PutOk was now value n seen v) : v.toNat ≤ n := by
  cases h with
  | pending hn _ _ => omega
  | applied hn _ _ _ => omega

/-- What a client knows of l0 at each place, of which `n` Puts were applied. -/
def Known (me value : String) (n : ℕ) (seen : KvReply → Prop) : Pc → Prop
  | .get => value = "" ∧ ∀ r, seen r → ∃ v : Tversion, n = v.toNat ∧ r = .get ⟨"", v, .ok⟩
  | .mark v => PutOk "" me value n seen v
  | .clear v => PutOk me "" value n seen (v + 1)
  | .failed _ => False
  | .before _ => True
  | .inside _ _ => True
  | .init => True
  | .top => True
  | .returned => True

/-- The client works on l0 under the first lock. -/
def Pc.Alone : Pc → Prop
  | .get => True
  | .mark _ => True
  | .clear _ => True
  | _ => False

/-- The client may have written its name. -/
def Pc.Writing : Pc → Prop
  | .mark _ => True
  | .clear _ => True
  | _ => False

/-- The Put before the loop has returned. -/
def Pc.Past : Pc → Prop
  | .before .enter => True
  | .before .leave => True
  | .inside .enter _ => True
  | .inside .leave _ => True
  | .top => True
  | .get => True
  | .mark _ => True
  | .clear _ => True
  | .returned => True
  | _ => False

theorem Pc.Writing.alone {pc : Pc} (h : pc.Writing) : pc.Alone := by
  cases pc <;> trivial

theorem Pc.Alone.past {pc : Pc} (h : pc.Alone) : pc.Past := by
  cases pc <;> trivial

theorem Pc.Alone.held {pc : Pc} (h : pc.Alone) : heldAt .lk1 pc = true := by
  cases pc with
  | get => rfl
  | mark v => rfl
  | clear v => rfl
  | _ => exact h.elim

/-- A client that does not work on the key does not depend on it. -/
theorem Known.elsewhere {me value value' : String} {n n' : ℕ} {seen seen' : KvReply → Prop}
    {pc : Pc} (hpc : ¬ pc.Alone) (h : Known me value n seen pc) :
    Known me value' n' seen' pc := by
  cases pc with
  | get => exact absurd trivial hpc
  | mark v => exact absurd trivial hpc
  | clear v => exact absurd trivial hpc
  | failed f => exact h
  | _ => trivial

structure Inv (S : Setup ι) (s : State ι) : Prop where
  behind : Clerk.Behind "l0" s.net
  past : ∀ c, (s.pc c).Past → 0 < ver "l0" s.net
  known : ∀ c, Known (S.me c) (value s.net.kv "l0") (ver "l0" s.net) (Seen s.net c) (s.pc c)
  quiet : value s.net.kv "l0" = "" ∨ ∃ c, (s.pc c).Writing

section Answers

variable {net : Clerk.State ι} {seen : KvReply → Prop}

/-- The Put of the client that is alone with the key is refused only after it was applied. -/
theorem PutOk.answered {was now v : String} {args : PutArgs} (hserved : Clerk.Served net)
    (hb : ver "l0" net < 2 ^ 64) (hpos : 0 < ver "l0" net) (hkey : args.key = "l0")
    (hun : appliedArgs "l0" (.put args, (serve net.kv (.put args)).2) = none)
    (h : PutOk was now v (ver "l0" net) seen args.version) :
    PutOk was now v (ver "l0" net) (fun r => seen r ∨ r = (serve net.kv (.put args)).2)
      args.version := by
  have hlt := Clerk.Behind.lt_of_refused hserved hb h.le hkey hun
  have hsome := Clerk.entry_present hserved hpos
  have hans : (serve net.kv (.put args)).2 = .put ⟨.errVersion⟩ := by
    rcases put_cases net.kv args with ⟨_, hp⟩ | ⟨_, _, hp⟩ | ⟨_, hnone, _⟩
    · have happ := appliedArgs_eq_some.mpr (⟨rfl, hkey, by simp [serve, hp, KvReply.Applied]⟩ :
        KvOp.put args = .put args ∧ args.key = "l0" ∧ (serve net.kv (.put args)).2.Applied)
      rw [hun] at happ
      cases happ
    · simp [serve, hp]
    · rw [hkey] at hnone
      exact absurd hnone hsome
  cases h with
  | pending hn _ _ => omega
  | applied hn hval hok hseen =>
    refine .applied hn hval (Or.inl hok) ?_
    rintro r (hr | hr)
    · exact hseen r hr
    · exact Or.inr (hr.trans hans)

theorem PutOk.serve {was now v : String} {n : ℕ} {ver' : Tversion} (hn : ver'.toNat = n)
    (h : PutOk was now v n seen ver') :
    PutOk was now now (n + 1) (fun r => seen r ∨ r = .put ⟨.ok⟩) ver' := by
  cases h with
  | pending _ _ hnone =>
    refine .applied (by omega) rfl (Or.inr rfl) ?_
    intro r hr
    exact Or.inl (hr.resolve_left (hnone r))
  | applied hn' _ _ _ => omega

/-- An answer that leaves the key alone fits what the client knows. -/
theorem Known.answered {S : Setup ι} (hserved : Clerk.Served net) (hb : ver "l0" net < 2 ^ 64)
    {c : ι} {pc : Pc} {op : KvOp} (hop : pc.op S c = some op) (hpos : pc.Past → 0 < ver "l0" net)
    (hun : appliedArgs "l0" (op, (serve net.kv op).2) = none)
    (h : Known (S.me c) (value net.kv "l0") (ver "l0" net) seen pc) :
    Known (S.me c) (value net.kv "l0") (ver "l0" net)
      (fun r => seen r ∨ r = (serve net.kv op).2) pc := by
  cases pc with
  | get =>
    obtain rfl := Option.some.inj hop
    refine ⟨h.1, ?_⟩
    rintro r (hr | hr)
    · exact h.2 r hr
    · obtain ⟨v, hv⟩ :=
        Option.ne_none_iff_exists'.mp (Clerk.entry_present hserved (hpos trivial))
      have hempty : v.value = "" := by simpa [value, hv] using h.1
      refine ⟨v.version, (Clerk.entry_version hserved hb hv).symm, ?_⟩
      simp [hr, serve, KVServer.get, hv, hempty]
  | mark v =>
    obtain rfl := Option.some.inj hop
    exact PutOk.answered hserved hb (hpos trivial) rfl hun h
  | clear v =>
    obtain rfl := Option.some.inj hop
    exact PutOk.answered hserved hb (hpos trivial) rfl hun h
  | failed f => exact h
  | _ => trivial

/-- A Put on l0 is one of the three in oneClient. -/
theorem put_l0_cases {S : Setup ι} {c : ι} {pc : Pc} {args : PutArgs}
    (hop : pc.op S c = some (.put args)) (hkey : args.key = "l0") :
    pc = .init ∧ args = ⟨"l0", "", 0⟩ ∨ (∃ v, pc = .mark v ∧ args = ⟨"l0", S.me c, v⟩) ∨
      ∃ v, pc = .clear v ∧ args = ⟨"l0", "", v + 1⟩ := by
  cases pc with
  | init => exact Or.inl ⟨rfl, (KvOp.put.inj (Option.some.inj hop)).symm⟩
  | mark v => exact Or.inr (Or.inl ⟨v, rfl, (KvOp.put.inj (Option.some.inj hop)).symm⟩)
  | clear v => exact Or.inr (Or.inr ⟨v, rfl, (KvOp.put.inj (Option.some.inj hop)).symm⟩)
  | inside m p =>
    have hne := S.name_ne_l0 m.lock
    cases p <;> simp [Pc.op, Lock.Pc.op] at hop <;> subst hop <;> exact absurd hkey hne
  | _ => simp [Pc.op] at hop

/-- The client's own Put is applied. -/
theorem Known.served {S : Setup ι} {c : ι} {pc : Pc} {args : PutArgs} {was : String} {n : ℕ}
    (hop : pc.op S c = some (.put args)) (hkey : args.key = "l0") (hn : args.version.toNat = n)
    (h : Known (S.me c) was n seen pc) :
    Known (S.me c) args.value (n + 1) (fun r => seen r ∨ r = .put ⟨.ok⟩) pc := by
  rcases put_l0_cases hop hkey with ⟨rfl, rfl⟩ | ⟨v, rfl, rfl⟩ | ⟨v, rfl, rfl⟩
  · trivial
  · exact PutOk.serve hn h
  · exact PutOk.serve hn h

end Answers

namespace Inv

variable {S : Setup ι} {s t : State ι}

theorem initial : Inv S (initial : State ι) where
  behind := .initial
  past _ h := h.elim
  known _ := trivial
  quiet := Or.inl rfl

/-- Steps of the network and of clerks that neither start, answer nor end a call. -/
theorem frame (hs : Inv S s) {net : Clerk.State ι} (hkv : net.kv = s.net.kv)
    (hexecs : net.execs = s.net.execs)
    (hcalls : ∀ c, net.callOf c = s.net.callOf c)
    (hbehind : Clerk.Behind "l0" net) : Inv S { s with net } := by
  refine ⟨hbehind, ?_, ?_, ?_⟩
  · simp only [Clerk.ver_congr hexecs]
    exact hs.past
  · intro c
    simp only [Clerk.ver_congr hexecs, hkv, Clerk.seen_congr (hcalls c) hexecs]
    exact hs.known c
  · simp only [hkv]
    exact hs.quiet

theorem serve_unapplied (hs : Inv S s) (hp : Proper S s) (hwf : Clerk.WellFormed s.net)
    (hserved : Clerk.Served s.net) (hb : ver "l0" s.net < 2 ^ 64) {rid : ℕ} {rest : List ℕ}
    {q : Clerk.Request} (hreq : s.net.reqs[rid]? = some q)
    (hun : appliedArgs "l0" (q.op, (serve s.net.kv q.op).2) = none) :
    Inv S { s with net := s.net.serveHead rid rest q } := by
  have hkv : value (s.net.serveHead rid rest q).kv "l0" = value s.net.kv "l0" := by
    simp only [value, Clerk.State.serveHead_kv, serve_entry, hun]
  have hver : ver "l0" (s.net.serveHead rid rest q) = ver "l0" s.net := by
    rw [Clerk.ver_serveHead, hun]
    rfl
  refine ⟨hs.behind.serve hwf hserved hb hreq, ?_, ?_, ?_⟩
  · simp only [hver]
    exact hs.past
  · intro c
    simp only [hkv, hver]
    rcases Clerk.seen_serveHead_cases hwf rest hreq c with hseen | ⟨call, hcall, hop, hseen⟩
    · rw [hseen]
      exact hs.known c
    · rw [hseen]
      have hdue : (s.pc c).op S c = some q.op := hop ▸ hp.due c call hcall
      exact (hs.known c).answered hserved hb hdue (hs.past c) hun
  · simp only [hkv]
    exact hs.quiet

/-- The key is written by the first Put of all, or by the client that is alone with it. -/
theorem serve_applied (hs : Inv S s) (hp : Proper S s) (hwf : Clerk.WellFormed s.net)
    (hserved : Clerk.Served s.net) (hb : ver "l0" s.net < 2 ^ 64)
    (hexcl : ∀ c d, (s.pc c).Alone → (s.pc d).Alone → c = d) {rid : ℕ} {rest : List ℕ}
    {q : Clerk.Request} {args : PutArgs} (hq : s.net.opQ = rid :: rest)
    (hreq : s.net.reqs[rid]? = some q)
    (happ : appliedArgs "l0" (q.op, (serve s.net.kv q.op).2) = some args) :
    Inv S { s with net := s.net.serveHead rid rest q } := by
  have hkv : value (s.net.serveHead rid rest q).kv "l0" = args.value := by
    simp only [value, Clerk.State.serveHead_kv, serve_entry, happ]
  have hver : ver "l0" (s.net.serveHead rid rest q) = ver "l0" s.net + 1 := by
    rw [Clerk.ver_serveHead, happ]
    rfl
  obtain ⟨c, call, hcall, hid, hop, hcur⟩ := hs.behind.handover hwf hserved hb hq hreq happ
  obtain ⟨_, hkey, hok⟩ := appliedArgs_eq_some.mp happ
  have hseen : Seen (s.net.serveHead rid rest q) c =
      fun r => Seen s.net c r ∨ r = .put ⟨.ok⟩ := by
    rw [Clerk.seen_serveHead hcall hid, hok]
  have hdue : (s.pc c).op S c = some (.put args) := hop ▸ hp.due c call hcall
  -- nobody else works on the key
  have hother : ∀ d, d ≠ c → ¬ (s.pc d).Alone := by
    intro d hd hd'
    rcases put_l0_cases hdue hkey with ⟨_, rfl⟩ | ⟨v, hpc, _⟩ | ⟨v, hpc, _⟩
    · have hpos := hs.past d hd'.past
      simp only [UInt64.toNat_zero] at hcur
      omega
    · exact hd (hexcl d c hd' (by rw [hpc]; trivial))
    · exact hd (hexcl d c hd' (by rw [hpc]; trivial))
  refine ⟨hs.behind.serve hwf hserved hb hreq, ?_, ?_, ?_⟩
  · intro d _
    simp only [hver]
    omega
  · intro d
    simp only [hkv, hver]
    by_cases hd : d = c
    · subst hd
      rw [hseen]
      exact (hs.known d).served hdue hkey hcur
    · exact (hs.known d).elsewhere (hother d hd)
  · simp only [hkv]
    rcases put_l0_cases hdue hkey with ⟨_, rfl⟩ | ⟨v, hpc, rfl⟩ | ⟨_, _, rfl⟩
    · exact Or.inl rfl
    · exact Or.inr ⟨c, by rw [hpc]; trivial⟩
    · exact Or.inl rfl

variable [DecidableEq ι]

theorem invoke (hs : Inv S s) (hwf : Clerk.WellFormed s.net) {c : ι} {op : KvOp}
    (hop : (s.pc c).op S c = some op) (hidle : s.net.clerks c = none) :
    Inv S { s with net := s.net.invoke c op } := by
  have hle : ∀ args, op = .put args → args.key = "l0" →
      args.version.toNat ≤ ver "l0" s.net := by
    rintro args rfl hkey
    have hknown := hs.known c
    rcases put_l0_cases hop hkey with ⟨_, rfl⟩ | ⟨v, hpc, rfl⟩ | ⟨v, hpc, rfl⟩
    · simp
    · rw [hpc] at hknown
      exact hknown.le
    · rw [hpc] at hknown
      exact hknown.le
  refine ⟨hs.behind.invoke hwf c op hidle hle, hs.past, ?_, hs.quiet⟩
  simp only [Clerk.seen_invoke hwf op hidle]
  exact hs.known

/-- A client without a clerk call in progress goes on at another place. -/
theorem relocate (hs : Inv S s) {c : ι} {pc : Pc} {net : Clerk.State ι} (i : ι → ℕ)
    (hkv : net.kv = s.net.kv) (hexecs : net.execs = s.net.execs)
    (hother : ∀ d, d ≠ c → net.clerks d = s.net.clerks d) (hidle : net.clerks c = none)
    (hbehind : Clerk.Behind "l0" net) (hpast : pc.Past → 0 < ver "l0" s.net)
    (hknown : Known (S.me c) (value s.net.kv "l0") (ver "l0" s.net) (fun _ => False) pc)
    (hquiet : (s.pc c).Writing → pc.Writing ∨ value s.net.kv "l0" = "") :
    Inv S ⟨net, Function.update s.pc c pc, i⟩ := by
  refine ⟨hbehind, ?_, ?_, ?_⟩
  · intro d hd
    simp only [Clerk.ver_congr hexecs]
    by_cases hdc : d = c
    · subst hdc
      simp only [Function.update_self] at hd
      exact hpast hd
    · simp only [Function.update_of_ne hdc] at hd
      exact hs.past d hd
  · simp only [Clerk.ver_congr hexecs, hkv]
    exact Clerk.known_update hexecs hother hidle hs.known hknown
  · simp only [hkv]
    rcases hs.quiet with hempty | ⟨d, hd⟩
    · exact Or.inl hempty
    · by_cases hdc : d = c
      · subst hdc
        rcases hquiet hd with hpc | hempty
        · exact Or.inr ⟨d, by simpa using hpc⟩
        · exact Or.inl hempty
      · exact Or.inr ⟨d, by simpa [hdc] using hd⟩

/-- The client goes on without a clerk call. -/
theorem jump (hs : Inv S s) {c : ι} {pc : Pc} (hidle : s.net.clerks c = none)
    (hwriting : ¬ (s.pc c).Writing) (hpast : pc.Past → (s.pc c).Past)
    (hknown : Known (S.me c) (value s.net.kv "l0") (ver "l0" s.net) (fun _ => False) pc) :
    Inv S (s.jump c pc) :=
  hs.relocate s.i rfl rfl (fun _ _ => rfl) hidle hs.behind (fun h => hs.past c (hpast h))
    hknown (fun h => absurd h hwriting)

/-- Where a client may go when its clerk call returns. -/
structure Landing (S : Setup ι) (s : State ι) (c : ι) (pc : Pc) : Prop where
  past : pc.Past → 0 < ver "l0" s.net
  known : Known (S.me c) (value s.net.kv "l0") (ver "l0" s.net) (fun _ => False) pc
  quiet : (s.pc c).Writing → pc.Writing ∨ value s.net.kv "l0" = ""

omit [DecidableEq ι] in
theorem landing_inside (hs : Inv S s) (hp : Proper S s) {c : ι} {m : LockCall} {p : Lock.Pc}
    (hpc : s.pc c = .inside m p) (res : KvReply)
    (hexcl : ∀ d, d ≠ c → heldAt .lk1 (resume S c (.inside m p) res) = true →
      ¬ (s.pc d).Alone) : Landing S s c (resume S c (.inside m p) res) := by
  have hpast := hs.past c
  rw [hpc] at hpast
  have hquiet : ¬ (s.pc c).Writing := by simp [hpc, Pc.Writing]
  rcases (hp.fits c m p hpc).resume_cases (S.id m.lock c) res with ⟨p', hgo, _⟩ | hret
  · have hnext : resume S c (.inside m p) res = .inside m p' := by simp only [resume, hgo]
    rw [hnext]
    refine ⟨fun h => hpast ?_, trivial, fun h => absurd h hquiet⟩
    cases m <;> exact h
  · have hnext : resume S c (.inside m p) res = m.after := by
      cases hm : m.acquires <;> simp only [resume, hret, hm] <;> rfl
    rw [hnext] at hexcl ⊢
    refine ⟨fun h => hpast ?_, ?_, fun h => absurd h hquiet⟩
    · cases m <;> exact h
    · cases m with
      | enter =>
        -- whoever may have written its name would have the lock too
        refine ⟨hs.quiet.resolve_right ?_, fun r hr => hr.elim⟩
        rintro ⟨d, hd⟩
        refine hexcl d ?_ rfl hd.alone
        rintro rfl
        exact hquiet hd
      | _ => trivial

omit [DecidableEq ι] in
/-- The Put of the client that is alone with the key returns OK or ErrMaybe. -/
theorem put_returns (hwf : Clerk.WellFormed s.net) (hcount : Clerk.Counted s.net)
    (hb : s.net.puts "l0" < 2 ^ 64) {c : ι} {call : Clerk.Call} {args : PutArgs}
    {reply : KvReply} {err : Err} {was now v : String} {n : ℕ}
    (hcall : s.net.clerks c = some call) (hop : call.op = .put args) (hkey : args.key = "l0")
    (hseen : Seen s.net c reply) (hfin : call.finish reply = some (.put ⟨err⟩))
    (h : PutOk was now v n (Seen s.net c) args.version) :
    (err = .ok ∨ err = .errMaybe) ∧ n = args.version.toNat + 1 ∧ v = now := by
  cases h with
  | pending _ _ hnone => exact absurd hseen (hnone reply)
  | applied hn hval hok honly =>
    refine ⟨?_, hn, hval⟩
    rcases Clerk.Call.finish_put hfin with ⟨rfl, _⟩ | ⟨rfl, _, _⟩ | ⟨_, rfl, hi⟩ | ⟨_, rfl⟩
    · exact Or.inl rfl
    · exact Or.inr rfl
    · -- refused and not repeated, although it was applied
      exact absurd (Clerk.resent_of_answers hwf hcount hcall hop (hkey ▸ hb) hok hseen
        (by simp)) hi
    · have hans := honly _ hseen
      simp at hans

omit [DecidableEq ι] in
theorem landing (hs : Inv S s) (hp : Proper S s) (hwf : Clerk.WellFormed s.net)
    (hserved : Clerk.Served s.net) (hcount : Clerk.Counted s.net)
    (hb : s.net.puts "l0" < 2 ^ 64) {c : ι} {call : Clerk.Call} {rid : ℕ} {reply res : KvReply}
    (hcall : s.net.clerks c = some call) (hrid : call.rid = some rid)
    (hst : s.net.status rid = .served reply) (hfin : call.finish reply = some res)
    (hexcl : ∀ d, d ≠ c → heldAt .lk1 (resume S c (s.pc c) res) = true →
      ¬ (s.pc d).Alone) : Landing S s c (resume S c (s.pc c) res) := by
  obtain ⟨e, he, _, ho, hr, kv, hreply⟩ := Clerk.taken_answer hwf hserved hcall hrid hst
  have hseen : Seen s.net c reply := ⟨call, hcall, e, he, ho, hr⟩
  have hvb : ver "l0" s.net < 2 ^ 64 := Nat.lt_of_le_of_lt (hwf.applied_le_puts "l0") hb
  have hdue := hp.due c call hcall
  have hknown := hs.known c
  have hpast := hs.past c
  -- a Put comes back as the result of a Put
  have hput : ∀ args, call.op = .put args → ∃ err, res = .put ⟨err⟩ := by
    intro args hop
    rw [hreply, hop] at hfin
    obtain ⟨err, _, hres⟩ := Option.map_eq_some_iff.mp hfin
    exact ⟨err, hres.symm⟩
  cases hpc : s.pc c with
  | inside m p =>
    rw [hpc] at hexcl
    exact hs.landing_inside hp hpc res hexcl
  | init =>
    rw [hpc] at hdue
    have hlt := hs.behind.answered c call _ hcall (Option.some.inj hdue).symm rfl e he ho
    exact ⟨fun _ => Nat.lt_of_le_of_lt (Nat.zero_le _) hlt, trivial,
      fun h => by simp [hpc, Pc.Writing] at h⟩
  | get =>
    rw [hpc] at hdue hknown hpast
    obtain ⟨v, hv, hget⟩ := hknown.2 reply hseen
    have hres : res = .get ⟨"", v, .ok⟩ := by
      rw [hget] at hfin
      exact (Option.some.inj hfin).symm
    have hnext : resume S c .get res = .mark v := by simp [hres, resume]
    rw [hnext]
    exact ⟨fun _ => hpast trivial, .pending hv hknown.1 fun r hr => hr,
      fun _ => Or.inl trivial⟩
  | mark v =>
    rw [hpc] at hdue hknown hpast
    have hop : call.op = .put ⟨"l0", S.me c, v⟩ := (Option.some.inj hdue).symm
    obtain ⟨err, rfl⟩ := hput _ hop
    obtain ⟨herr, hn, hval⟩ := put_returns hwf hcount hb hcall hop rfl hseen hfin hknown
    have hnext : resume S c (.mark v) (.put ⟨err⟩) = .clear v := if_pos herr
    rw [hnext]
    refine ⟨fun _ => hpast trivial, .pending ?_ hval fun r hr => hr, fun _ => Or.inl trivial⟩
    have hn' : ver "l0" s.net = v.toNat + 1 := hn
    rw [UInt64.toNat_add, UInt64.toNat_one, Nat.mod_eq_of_lt (by omega)]
    exact hn'
  | clear v =>
    rw [hpc] at hdue hknown hpast
    have hop : call.op = .put ⟨"l0", "", v + 1⟩ := (Option.some.inj hdue).symm
    obtain ⟨err, rfl⟩ := hput _ hop
    obtain ⟨herr, _, hval⟩ := put_returns hwf hcount hb hcall hop rfl hseen hfin hknown
    have hnext : resume S c (.clear v) (.put ⟨err⟩) = .before .leave := if_pos herr
    rw [hnext]
    exact ⟨fun _ => hpast trivial, trivial, fun _ => Or.inr hval⟩
  | _ => simp [hpc, Pc.op] at hdue

theorem step (hr : (system S).Reachable s) {l : Label ι} (h : LockTest.step S s l = some t)
    (hb : t.net.puts "l0" < 2 ^ 64) (hb1 : t.net.puts (S.name .lk1) < 2 ^ 64)
    (hs : Inv S s) : Inv S t := by
  have hnet := net_reachable hr
  have hwf := Clerk.WellFormed.of_reachable hnet
  have hserved := Clerk.Served.of_reachable hnet
  have hcount := Clerk.Counted.of_reachable hnet
  have hp := Proper.of_reachable hr
  have hbs := Nat.lt_of_le_of_lt ((runs S).puts_le h "l0") hb
  have hb1s := Nat.lt_of_le_of_lt ((runs S).puts_le h (S.name .lk1)) hb1
  have hvb : ver "l0" s.net < 2 ^ 64 := Nat.lt_of_le_of_lt (hwf.applied_le_puts "l0") hbs
  have hrt : (system S).Reachable t := hr.step h
  cases step_sound h with
  | enter c m hpc =>
    refine hs.jump (hp.idle (by rw [hpc]; rfl)) (by simp [hpc, Pc.Writing]) ?_ trivial
    rw [hpc]
    cases m <;> exact fun h => h
  | loop c hpc =>
    exact hs.jump (hp.idle (by rw [hpc]; rfl)) (by simp [hpc, Pc.Writing])
      (fun _ => by rw [hpc]; trivial) trivial
  | stop c hpc =>
    exact hs.jump (hp.idle (by rw [hpc]; rfl)) (by simp [hpc, Pc.Writing])
      (fun _ => by rw [hpc]; trivial) trivial
  | call c op hop hidle => exact hs.invoke hwf hop hidle
  | inner l' net hl' hnet' =>
    have hcalls := (Clerk.Inner.of_step hl' hnet').calls
    cases Clerk.step_sound hnet' with
    | invoke c op hidle => exact hl'.elim
    | send c call hcall hrid => exact hs.frame rfl rfl hcalls (hs.behind.send hcall)
    | drop rid hlt hsent => exact hs.frame rfl rfl hcalls (hs.behind.drop hsent)
    | enqueue rid hlt hsent hcap => exact hs.frame rfl rfl hcalls (hs.behind.enqueue hsent)
    | serve rid rest q hq hreq =>
      cases happ : appliedArgs "l0" (q.op, (serve s.net.kv q.op).2) with
      | none => exact hs.serve_unapplied hp hwf hserved hvb hreq happ
      | some args =>
        refine hs.serve_applied hp hwf hserved hvb ?_ hq hreq happ
        intro c d hc hd
        exact holder_unique hr .lk1 hb1s hc.held hd.held
    | fail c call rid hcall hrid => exact hs.frame rfl rfl hcalls (hs.behind.retry hcall)
    | again c call rid reply hcall hrid hst hfin =>
      exact hs.frame rfl rfl hcalls (hs.behind.retry hcall)
    | finish c call rid reply res hcall hrid hst hfin =>
      simp [Clerk.Label.Inner, Clerk.answer, hcall, hrid, hst, hfin] at hl'
  | ret c call rid reply res hcall hrid hst hfin =>
    have hexcl : ∀ d, d ≠ c → heldAt .lk1 (resume S c (s.pc c) res) = true →
        ¬ (s.pc d).Alone := by
      intro d hd hheld halone
      refine hd (holder_unique hrt .lk1 hb1 ?_ ?_)
      · simpa [State.next, State.jump, hd] using halone.held
      · simpa [State.next, State.jump] using hheld
    have hland := hs.landing hp hwf hserved hcount hbs hcall hrid hst hfin hexcl
    have hidle : (s.net.finish c call rid res).clerks c = none := by simp
    have hother : ∀ d, d ≠ c → (s.net.finish c call rid res).clerks d = s.net.clerks d := by
      intro d hd
      simp [hd]
    exact hs.relocate _ rfl rfl hother hidle (hs.behind.finish hwf hserved res hcall hrid hst)
      hland.past hland.known hland.quiet

theorem of_reachable (h : (system S).Reachable s) (hb : s.net.puts "l0" < 2 ^ 64)
    (hb1 : s.net.puts (S.name .lk1) < 2 ^ 64) : Inv S s := by
  refine System.Reachable.invariant_of_bound
    (B := fun s => s.net.puts "l0" < 2 ^ 64 ∧ s.net.puts (S.name .lk1) < 2 ^ 64)
    ?_ ?_ ?_ h ⟨hb, hb1⟩
  · intro s l t hstep ht
    exact ⟨Nat.lt_of_le_of_lt ((runs S).puts_le hstep _) ht.1,
      Nat.lt_of_le_of_lt ((runs S).puts_le hstep _) ht.2⟩
  · rintro s rfl
    exact initial
  · intro s l t hr ht hs hstep
    exact hs.step hr hstep ht.1 ht.2

end Inv

section Main

variable [DecidableEq ι] {S : Setup ι} {s : State ι}

/-- In every interleaving, with any loss, delay and repetition of requests, no client of the
test fails or panics, one client at a time works on l0, and l0 is empty whenever none is
between its two Puts. -/
theorem oneClient_never_fails (h : (system S).Reachable s)
    (hl0 : s.net.puts "l0" < 2 ^ 64) (hname : ∀ l, s.net.puts (S.name l) < 2 ^ 64) :
    (∀ c f, s.pc c ≠ .failed f) ∧ (∀ c m p, s.pc c ≠ .inside m (.panicked p)) ∧
      (∀ c d, (s.pc c).Alone → (s.pc d).Alone → c = d) ∧
      ((∀ c, ¬ (s.pc c).Writing) → value s.net.kv "l0" = "") := by
  have hs := Inv.of_reachable h hl0 (hname .lk1)
  refine ⟨?_, ?_, ?_, ?_⟩
  · intro c f hpc
    have hknown := hs.known c
    rw [hpc] at hknown
    exact hknown
  · intro c m p
    exact not_panicked h (hname m.lock)
  · intro c d hc hd
    exact holder_unique h .lk1 (hname .lk1) hc.held hd.held
  · intro hnone
    exact hs.quiet.resolve_right fun ⟨c, hc⟩ => hnone c hc

def twoClients : Setup Bool where
  name
    | .lk1 => "x"
    | .lk2 => "y"
  id _ := Lock.twoIds
  me c := if c then "1" else "0"
  name_ne := by decide
  name_ne_l0 l := by cases l <;> decide
  id_injective _ := Lock.twoIds_injective
  id_ne_empty _ := Lock.twoIds_ne_empty

/-- A clerk call whose first RPC, numbered `rid`, is answered. -/
def answered (c : Bool) (op : KvOp) (rid : ℕ) : List (Label Bool) :=
  [.clerk (.invoke c op), .clerk (.send c), .clerk (.enqueue rid), .clerk .serve,
    .clerk (.deliver c)]

/-- One client comes to the loop and takes the first lock. The reply to the Put of its name is
lost, and the repetition is refused. -/
def markedTwice : List (Label Bool) :=
  .enter false :: answered false (.get ⟨"x"⟩) 0 ++ answered false (.put ⟨"x", "a", 0⟩) 1 ++
    .enter false :: answered false (.get ⟨"y"⟩) 2 ++ answered false (.put ⟨"y", "a", 0⟩) 3 ++
    .enter false :: answered false (.get ⟨"x"⟩) 4 ++ answered false (.put ⟨"x", "", 1⟩) 5 ++
    .enter false :: answered false (.get ⟨"y"⟩) 6 ++ answered false (.put ⟨"y", "", 1⟩) 7 ++
    answered false (.put ⟨"l0", "", 0⟩) 8 ++ .loop false ::
    .enter false :: answered false (.get ⟨"x"⟩) 9 ++ answered false (.put ⟨"x", "a", 2⟩) 10 ++
    answered false (.get ⟨"l0"⟩) 11 ++
    [.clerk (.invoke false (.put ⟨"l0", "0", 1⟩)), .clerk (.send false), .clerk (.enqueue 12),
      .clerk .serve, .clerk (.fail false), .clerk (.send false), .clerk (.enqueue 13),
      .clerk .serve, .clerk (.deliver false)]

theorem oneClient_never_fails_markedTwice :
    ∃ s, (system twoClients).Reachable s ∧ s.pc false = .clear 1 ∧
      (∀ f, s.pc false ≠ .failed f) ∧ ¬ (s.pc true).Alone := by
  obtain ⟨s, hr, hp⟩ := System.Reachable.of_run_check (S := system twoClients)
    markedTwice rfl
    (p := fun s => decide (s.pc false = .clear 1 ∧ s.net.puts "l0" = 3 ∧
      s.net.puts "x" = 3 ∧ s.net.puts "y" = 2)) (by decide +kernel)
  obtain ⟨hpc, hl0, hx, hy⟩ := of_decide_eq_true hp
  obtain ⟨hfail, _, hone, _⟩ := oneClient_never_fails hr (by omega) fun l => by
    cases l with
    | lk1 => exact Nat.lt_of_le_of_lt (Nat.le_of_eq hx) (by decide)
    | lk2 => exact Nat.lt_of_le_of_lt (Nat.le_of_eq hy) (by decide)
  refine ⟨s, hr, hpc, hfail false, fun halone => ?_⟩
  have heq := hone true false halone (by rw [hpc]; trivial)
  cases heq

end Main

end DistributedLabs.LockTest
