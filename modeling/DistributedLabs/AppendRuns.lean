import DistributedLabs.OneClientAppend

/-!
What the append clients leave under "k". Every Put carries a list that was once
stored, with one entry more, at the version that belongs to it; so the stored
list only grows, and a Put that was executed has missed its version for good.
`Tallied` ties the entries of a client to the appends it has counted.
-/
namespace DistributedLabs.KvAppend

open KVServer KvTest Transition Tables

variable {nclnt : ℕ}

/-- The version at which a list of appends is stored. -/
def verOf (es : List Entry) : Tversion := UInt64.ofNat (es.length + 1)

def Stored (u : Codec) (kv : KvMap) (log : List Entry) : Prop :=
  kv key = some ⟨u.marshal log, verOf log⟩

/-- The list was stored at some time. -/
def Seen (u : Codec) (kv : KvMap) (es : List Entry) : Prop := ∃ log, Stored u kv log ∧ es <+: log

/-- The version of a request is past. -/
def Stale (u : Codec) (kv : KvMap) (ver : Tversion) : Prop :=
  ∃ log, Stored u kv log ∧ ver.toNat ≤ log.length

def Extends (u : Codec) (kv kv' : KvMap) : Prop :=
  ∀ log, Stored u kv log → ∃ log', Stored u kv' log' ∧ log <+: log'

/-- A Put of an entry of client `d` behind a list that was stored. -/
def AppendsTo (u : Codec) (kv : KvMap) (d : Fin nclnt) (e : Entry) (args : PutArgs) : Prop :=
  e.id = d ∧ ∃ es, Seen u kv es ∧ args = ⟨key, u.marshal (es ++ [e]), verOf es⟩

/-- The Puts on the key: that of PutAtLeastOnceJson and those of the clients. -/
def Built (u : Codec) (kv : KvMap) (c : Clnt nclnt) (args : PutArgs) : Prop :=
  args = u.create ∨ ∃ d e, c = some d ∧ AppendsTo u kv d e args

/-- What a client at a program counter knows about the stored list. -/
def Pc.Knows (u : Codec) (kv : KvMap) (c : Fin nclnt) : Pc → Prop
  | .idle => True
  | .select _ => kv key ≠ none
  | .get _ => kv key ≠ none
  | .put i es ver => ∃ es', Seen u kv es' ∧ es = es' ++ [⟨c, i⟩] ∧ ver = verOf es'
  | .stopped => kv key ≠ none
  | .fatal _ => False

structure Sound (u : Codec) (s : State nclnt) : Prop where
  stored : s.net.kv key ≠ none →
    ∃ log, Stored u s.net.kv log ∧ (applied key s.net.history).length = log.length + 1
  asked : ∀ (o : ℕ) (c : Clnt nclnt) (args : PutArgs) (t : ℕ),
    s.net.ops[o]? = some ⟨c, .put args, t⟩ → args.key = key → Built u s.net.kv c args
  executed : ∀ e ∈ s.net.execs, ∀ args, e.op = .put args → args.key = key →
    Stale u s.net.kv args.version ∧ e.reply ≠ .put ⟨.errNoKey⟩
  known : ∀ c, (s.pc c).Knows u s.net.kv c
  spawned : ∀ ver, s.main = .ready ver → s.net.kv key ≠ none
  call_op : ∀ c call, s.net.clerks c = some call → Allowed u s.main s.pc call.op c
  got : ∀ c call i, s.pc c = .get i → s.net.clerks (some c) = some call →
    ∀ e ∈ s.net.execs, e.opId = call.opId →
      ∃ es, Seen u s.net.kv es ∧ e.reply = .get ⟨u.marshal es, verOf es, .ok⟩

section Lists

variable {u : Codec} {kv kv' : KvMap} {log es : List Entry}

theorem Stored.unique (h : Stored u kv log) (h' : Stored u kv es) : log = es := by
  unfold Stored at h h'
  rw [h] at h'
  simp only [Option.some.injEq, KvValue.mk.injEq] at h'
  exact u.marshal_injective h'.1

theorem Stored.present (h : Stored u kv log) : kv key ≠ none := by
  rw [h]
  simp

theorem Stored.version_eq (h : Stored u kv log) : version kv key = verOf log := by
  rw [version, h]

theorem Extends.of_eq (h : kv' key = kv key) : Extends u kv kv' := by
  intro log hlog
  exact ⟨log, h.trans hlog, List.prefix_refl log⟩

theorem Seen.mono (hext : Extends u kv kv') (h : Seen u kv es) : Seen u kv' es := by
  obtain ⟨log, hlog, hpre⟩ := h
  obtain ⟨log', hlog', hle⟩ := hext log hlog
  exact ⟨log', hlog', hpre.trans hle⟩

theorem Stale.mono (hext : Extends u kv kv') {ver : Tversion} (h : Stale u kv ver) :
    Stale u kv' ver := by
  obtain ⟨log, hlog, hle⟩ := h
  obtain ⟨log', hlog', hpre⟩ := hext log hlog
  exact ⟨log', hlog', hle.trans hpre.length_le⟩

theorem Built.mono (hext : Extends u kv kv') {c : Clnt nclnt} {args : PutArgs}
    (h : Built u kv c args) : Built u kv' c args := by
  rcases h with h | ⟨d, e, hc, hid, es, hseen, hargs⟩
  · exact Or.inl h
  · exact Or.inr ⟨d, e, hc, hid, es, hseen.mono hext, hargs⟩

theorem Pc.Knows.mono (hext : Extends u kv kv') (hpresent : kv key ≠ none → kv' key ≠ none)
    {c : Fin nclnt} {pc : Pc} (h : pc.Knows u kv c) : pc.Knows u kv' c := by
  cases pc with
  | idle => trivial
  | select i => exact hpresent h
  | get i => exact hpresent h
  | put i es ver =>
    obtain ⟨es', hseen, hes⟩ := h
    exact ⟨es', hseen.mono hext, hes⟩
  | stopped => exact hpresent h
  | fatal f => exact h

theorem toNat_verOf (h : es.length + 1 < 2 ^ 64) : (verOf es).toNat = es.length + 1 := by
  rw [verOf, UInt64.toNat_ofNat']
  omega

/-- Of the lists that were stored, only the present one belongs to its version. -/
theorem Seen.eq_of_version (hlog : Stored u kv log) (hlt : log.length + 1 < 2 ^ 64)
    (hseen : Seen u kv es) (hver : verOf log = verOf es) : es = log := by
  obtain ⟨log', hlog', hpre⟩ := hseen
  obtain rfl := hlog.unique hlog'
  have hle := hpre.length_le
  have hlen := congrArg UInt64.toNat hver
  rw [toNat_verOf hlt, toNat_verOf (by omega)] at hlen
  exact hpre.eq_of_length (by omega)

theorem Seen.version_lt (hlog : Stored u kv log) (hlt : log.length + 1 < 2 ^ 64)
    (hseen : Seen u kv es) (hver : verOf log ≠ verOf es) : (verOf es).toNat ≤ log.length := by
  obtain ⟨log', hlog', hpre⟩ := hseen
  obtain rfl := hlog.unique hlog'
  have hle := hpre.length_le
  rw [toNat_verOf (by omega)]
  by_contra hgt
  have heq : es.length = log.length := by omega
  exact hver (by rw [verOf, verOf, heq])

end Lists

/-- What serving a request does to the key. -/
inductive Effect (u : Codec) (s : State nclnt) (q : Clerk.Request) : Prop
  | unchanged (hkv : (serve s.net.kv q.op).1 key = s.net.kv key)
      (hargs : appliedArgs key (q.op, (serve s.net.kv q.op).2) = none)
      (hstale : ∀ args, q.op = .put args → args.key = key →
        Stale u s.net.kv args.version ∧ (serve s.net.kv q.op).2 ≠ .put ⟨.errNoKey⟩)
  | created (hnone : s.net.kv key = none) (hop : q.op = .put u.create)
      (hkv : Stored u (serve s.net.kv q.op).1 [])
      (happ : (serve s.net.kv q.op).2.Applied)
  | appended (d : Fin nclnt) (e : Entry) (log : List Entry) (t : ℕ)
      (hinv : s.net.ops[q.opId]? = some ⟨some d, q.op, t⟩) (hid : e.id = d)
      (hlog : Stored u s.net.kv log) (hop : q.op = .put ⟨key, u.marshal (log ++ [e]), verOf log⟩)
      (hkv : Stored u (serve s.net.kv q.op).1 (log ++ [e]))
      (happ : (serve s.net.kv q.op).2.Applied)

namespace Sound

variable {u : Codec} {s t : State nclnt}

theorem initial : Sound u (initial : State nclnt) where
  stored h := absurd rfl h
  asked o c args t h := by simp [KvAppend.initial, Clerk.initial] at h
  executed e h := by simp [KvAppend.initial, Clerk.initial] at h
  known c := trivial
  spawned ver h := by simp [KvAppend.initial] at h
  call_op c call h := by simp [KvAppend.initial, Clerk.initial] at h
  got c call i h := by simp [KvAppend.initial] at h

theorem length_lt (hs : Sound u s) (hwf : Clerk.WellFormed s.net)
    (hb : s.net.puts key < 2 ^ 64) {log : List Entry} (hlog : Stored u s.net.kv log) :
    log.length + 1 < 2 ^ 64 := by
  obtain ⟨log', hlog', hlen⟩ := hs.stored hlog.present
  obtain rfl := hlog.unique hlog'
  have hle := hwf.applied_le_puts key
  omega

theorem effect (hs : Sound u s) (hwf : Clerk.WellFormed s.net) (hb : s.net.puts key < 2 ^ 64)
    {rid : ℕ} {q : Clerk.Request} (hreq : s.net.reqs[rid]? = some q) : Effect u s q := by
  have hentry := serve_entry s.net.kv q.op key
  cases hargs : appliedArgs key (q.op, (serve s.net.kv q.op).2) with
  | none =>
    rw [hargs] at hentry
    refine .unchanged hentry hargs ?_
    intro args hop hkey
    obtain ⟨c, t, ht⟩ := hwf.req_op rid q hreq
    rw [hop] at ht
    have hbuilt := hs.asked _ c args t ht hkey
    have hnot : ¬ (serve s.net.kv q.op).2.Applied := by
      intro happ
      rw [appliedArgs_eq_some.mpr ⟨hop, hkey, happ⟩] at hargs
      cases hargs
    rcases put_cases s.net.kv args with ⟨_, hp⟩ | ⟨hver, hsome, hp⟩ | ⟨hver, hnone, hp⟩
    · simp [serve, hop, hp, KvReply.Applied] at hnot
    · rw [hkey] at hver hsome
      obtain ⟨log, hlog, _⟩ := hs.stored hsome
      refine ⟨⟨log, hlog, ?_⟩, by simp [serve, hop, hp]⟩
      rcases hbuilt with rfl | ⟨d, e, _, _, es, hseen, rfl⟩
      · exact Nat.zero_le _
      · rw [hlog.version_eq] at hver
        exact hseen.version_lt hlog (hs.length_lt hwf hb hlog) hver
    · rw [hkey] at hnone
      rcases hbuilt with rfl | ⟨d, e, _, _, es, ⟨log, hlog, _⟩, _⟩
      · exact absurd rfl hver
      · exact absurd hnone hlog.present
  | some args =>
    obtain ⟨hop, hkey, happ⟩ := appliedArgs_eq_some.mp hargs
    rw [hargs] at hentry
    obtain ⟨c, t, ht⟩ := hwf.req_op rid q hreq
    have hver : version s.net.kv key = args.version := by
      obtain ⟨args', hop', hver, _⟩ := serve_applied s.net.kv q.op happ
      obtain rfl := KvOp.put.inj (hop.symm.trans hop')
      rwa [hkey] at hver
    rcases hs.asked _ c args t (hop ▸ ht) hkey with rfl | ⟨d, e, rfl, hid, es, hseen, rfl⟩
    · refine .created ?_ hop hentry happ
      -- a stored list has a version above 0
      by_contra hsome
      obtain ⟨log, hlog, _⟩ := hs.stored hsome
      have hlen := congrArg UInt64.toNat (hlog.version_eq.symm.trans hver)
      rw [toNat_verOf (hs.length_lt hwf hb hlog)] at hlen
      exact absurd hlen (Nat.succ_ne_zero _)
    · obtain ⟨log, hlog, _⟩ := id hseen
      obtain rfl := hseen.eq_of_version hlog (hs.length_lt hwf hb hlog)
        (hlog.version_eq.symm.trans hver)
      refine .appended d e es t ht hid hlog hop ?_ happ
      rw [Stored, hentry]
      simp [verOf, List.length_append]

/-- At the head of the loop and after it no clerk call is in progress. -/
theorem no_call (hs : Sound u s) {c : Fin nclnt} (hop : u.op (s.pc c) = none) :
    s.net.clerks (some c) = none := by
  cases hcall : s.net.clerks (some c) with
  | none => rfl
  | some call =>
    have hsome : u.op (s.pc c) = some call.op := hs.call_op (some c) call hcall
    rw [hop] at hsome
    cases hsome

theorem jump (hs : Sound u s) {c : Fin nclnt} {pc : Pc} (hidle : s.net.clerks (some c) = none)
    (hpc : pc.Knows u s.net.kv c) : Sound u (s.jump c pc) where
  stored := hs.stored
  asked := hs.asked
  executed := hs.executed
  known d := by
    by_cases hd : d = c
    · subst hd
      simpa [State.jump] using hpc
    · simpa [State.jump, hd] using hs.known d
  spawned := hs.spawned
  call_op d call hd := by
    have hold := hs.call_op d call hd
    cases d with
    | none => exact hold
    | some d =>
      have hne : d ≠ c := by
        rintro rfl
        exact Option.some_ne_none call (hd.symm.trans hidle)
      simpa [State.jump, Allowed, hne] using hold
  got d call i hget hd := by
    have hne : d ≠ c := by
      rintro rfl
      exact Option.some_ne_none call (hd.symm.trans hidle)
    exact hs.got d call i (by simpa [State.jump, hne] using hget) hd

theorem invoke (hs : Sound u s) (hwf : Clerk.WellFormed s.net) {c : Clnt nclnt} {op : KvOp}
    (hop : Allowed u s.main s.pc op c) : Sound u { s with net := s.net.invoke c op } where
  stored := hs.stored
  asked o d args t ho hkey := by
    rcases getElem?_concat_cases ho with hold | ⟨_, hnew⟩
    · exact hs.asked o d args t hold hkey
    · obtain ⟨rfl, rfl, rfl⟩ : d = c ∧ .put args = op ∧ t = s.net.clock := by
        simpa using hnew
      cases d with
      | none =>
        cases hmain : s.main with
        | create ver =>
          simp only [Allowed, hmain, KvOp.put.injEq] at hop
          exact Or.inl hop
        | ready ver => simp [Allowed, hmain, KvOp.PutsOn, hkey] at hop
      | some d =>
        have hknown := hs.known d
        cases hpc : s.pc d with
        | put i es ver =>
          obtain rfl : _ = args := by simpa [Allowed, hpc, Codec.op] using hop
          rw [hpc] at hknown
          obtain ⟨es', hseen, rfl, rfl⟩ := hknown
          exact Or.inr ⟨d, ⟨d, i⟩, rfl, rfl, es', hseen, rfl⟩
        | _ => simp [Allowed, hpc, Codec.op] at hop
  executed := hs.executed
  known := hs.known
  spawned := hs.spawned
  call_op d call hd := by
    rcases update_eq_some hd with ⟨rfl, hv⟩ | ⟨_, hold⟩
    · obtain rfl := Option.some.inj hv
      exact hop
    · exact hs.call_op d call hold
  got d call i hget hd e he hid := by
    rcases update_eq_some hd with ⟨rfl, hv⟩ | ⟨_, hold⟩
    · obtain rfl := Option.some.inj hv
      have hlt := hwf.req_opId_lt (hwf.exec_req e he).1
      exact absurd hid (Nat.ne_of_lt hlt)
    · exact hs.got d call i hget hold e he hid

theorem extends_serve {q : Clerk.Request} (h : Effect u s q) :
    Extends u s.net.kv (serve s.net.kv q.op).1 := by
  cases h with
  | unchanged hkv => exact Extends.of_eq hkv
  | created hnone => exact fun log hlog => absurd hnone hlog.present
  | appended d e log t hinv hid hlog hop hkv =>
    intro log' hlog'
    obtain rfl := hlog.unique hlog'
    exact ⟨log ++ [e], hkv, List.prefix_append log [e]⟩

/-- Serving a request keeps the list and its length in step. -/
theorem stored_serve (hs : Sound u s) (hserved : Clerk.Served s.net) {q : Clerk.Request}
    (h : Effect u s q) (hsome : (serve s.net.kv q.op).1 key ≠ none) :
    ∃ log, Stored u (serve s.net.kv q.op).1 log ∧
      (applied key (s.net.history ++ [(q.op, (serve s.net.kv q.op).2)])).length =
        log.length + 1 := by
  rw [applied_concat, List.length_append]
  cases h with
  | unchanged hkv hargs =>
    obtain ⟨log, hlog, hlen⟩ := hs.stored (hkv ▸ hsome)
    exact ⟨log, hkv.trans hlog, by simp [hargs, hlen]⟩
  | created hnone hop hkv happ =>
    have hnil : applied key s.net.history = [] := by
      have hlast := replay_eq_last s.net.history hserved.answers key
      rw [← hserved.kv_eq, hnone] at hlast
      exact List.getLast?_eq_none_iff.mp (Option.map_eq_none_iff.mp hlast.symm)
    have hargs : appliedArgs key (q.op, (serve s.net.kv q.op).2) = some u.create :=
      appliedArgs_eq_some.mpr ⟨hop, rfl, happ⟩
    exact ⟨[], hkv, by simp [hnil, hargs]⟩
  | appended d e log t hinv hid hlog hop hkv happ =>
    obtain ⟨log', hlog', hlen⟩ := hs.stored hlog.present
    obtain rfl := hlog.unique hlog'
    have hargs := appliedArgs_eq_some.mpr ⟨hop, rfl, happ⟩
    exact ⟨log ++ [e], hkv, by simp [hargs, hlen]⟩

/-- A Put on the key that has been executed is past its version. -/
theorem executed_serve (hs : Sound u s) (hwf : Clerk.WellFormed s.net)
    (hb : s.net.puts key < 2 ^ 64) {q : Clerk.Request} (h : Effect u s q) (args : PutArgs)
    (hop : q.op = .put args) (hkey : args.key = key) :
    Stale u (serve s.net.kv q.op).1 args.version ∧
      (serve s.net.kv q.op).2 ≠ .put ⟨.errNoKey⟩ := by
  cases h with
  | unchanged hkv hargs hstale =>
    obtain ⟨hold, hreply⟩ := hstale args hop hkey
    exact ⟨hold.mono (Extends.of_eq hkv), hreply⟩
  | created hnone hop' hkv happ =>
    obtain rfl := KvOp.put.inj (hop.symm.trans hop')
    refine ⟨⟨[], hkv, Nat.le_refl _⟩, ?_⟩
    rw [happ]
    simp
  | appended d e log t hinv hid hlog hop' hkv happ =>
    obtain rfl := KvOp.put.inj (hop.symm.trans hop')
    refine ⟨⟨log ++ [e], hkv, ?_⟩, ?_⟩
    · rw [toNat_verOf (hs.length_lt hwf hb hlog)]
      simp
    · rw [happ]
      simp

/-- A Get of a client finds a list that is stored. -/
theorem got_serve (hs : Sound u s) (hwf : Clerk.WellFormed s.net) {rid : ℕ}
    {q : Clerk.Request} (hreq : s.net.reqs[rid]? = some q) {c : Fin nclnt} {call : Clerk.Call}
    {i : ℕ} (hpc : s.pc c = .get i) (hcall : s.net.clerks (some c) = some call)
    (hid : q.opId = call.opId) :
    ∃ es, Seen u s.net.kv es ∧
      (serve s.net.kv q.op).2 = .get ⟨u.marshal es, verOf es, .ok⟩ := by
  have hop : q.op = .get ⟨key⟩ := by
    rw [hwf.req_call_op hcall hreq hid]
    have hallowed : u.op (s.pc c) = some call.op := hs.call_op (some c) call hcall
    simpa [hpc, Codec.op] using hallowed.symm
  have hknown := hs.known c
  rw [hpc] at hknown
  obtain ⟨log, hlog, _⟩ := hs.stored hknown
  have hentry : s.net.kv key = some ⟨u.marshal log, verOf log⟩ := hlog
  exact ⟨log, ⟨log, hlog, List.prefix_refl log⟩, by simp [hop, serve, KVServer.get, hentry]⟩

theorem inner (hs : Sound u s) (hwf : Clerk.WellFormed s.net) (hserved : Clerk.Served s.net)
    (hb : s.net.puts key < 2 ^ 64) {net : Clerk.State (Clnt nclnt)}
    (h : Clerk.Inner s.net net) : Sound u { s with net } := by
  have hcall_op : ∀ c call, net.clerks c = some call → Allowed u s.main s.pc call.op c := by
    intro c call hcall
    obtain ⟨call', hcall', _, hop⟩ := h.call_before hcall
    rw [← hop]
    exact hs.call_op c call' hcall'
  rcases h.served with ⟨hkv, hexecs⟩ | ⟨rid, q, hreq, hkv, hexecs⟩
  · refine ⟨?_, ?_, ?_, ?_, ?_, hcall_op, ?_⟩
    · have hhist : net.history = s.net.history := by rw [Clerk.State.history, hexecs]; rfl
      rw [hkv, hhist]
      exact hs.stored
    · rw [h.ops_eq, hkv]
      exact hs.asked
    · rw [hexecs, hkv]
      exact hs.executed
    · exact hkv ▸ hs.known
    · exact hkv ▸ hs.spawned
    · intro c call i hpc hcall e he hid
      obtain ⟨call', hcall', hid', _⟩ := h.call_before hcall
      rw [hkv]
      exact hs.got c call' i hpc hcall' e (hexecs ▸ he) (hid.trans hid'.symm)
  · have heff := hs.effect hwf hb hreq
    have hext := extends_serve heff
    have hpresent := serve_present s.net.kv q.op key
    rw [← hkv] at hext hpresent
    refine ⟨?_, ?_, ?_, ?_, ?_, hcall_op, ?_⟩
    · have hhist : net.history = s.net.history ++ [(q.op, (serve s.net.kv q.op).2)] := by
        simp [Clerk.State.history, hexecs, Clerk.Exec.entry]
      rw [hhist, hkv]
      exact hs.stored_serve hserved heff
    · intro o c args t ho hkey
      rw [h.ops_eq] at ho
      exact (hs.asked o c args t ho hkey).mono hext
    · intro e he args hop hkey
      rw [hexecs] at he
      rcases List.mem_append.mp he with hold | hlast
      · obtain ⟨h1, h2⟩ := hs.executed e hold args hop hkey
        exact ⟨h1.mono hext, h2⟩
      · obtain rfl := List.mem_singleton.mp hlast
        rw [hkv]
        exact hs.executed_serve hwf hb heff args hop hkey
    · exact fun c => (hs.known c).mono hext hpresent
    · exact fun ver hmain => hpresent (hs.spawned ver hmain)
    · intro c call i hpc hcall e he hid
      obtain ⟨call', hcall', hid', _⟩ := h.call_before hcall
      have hid'' := hid.trans hid'.symm
      rw [hexecs] at he
      rcases List.mem_append.mp he with hold | hlast
      · obtain ⟨es, hseen, hreply⟩ := hs.got c call' i hpc hcall' e hold hid''
        exact ⟨es, hseen.mono hext, hreply⟩
      · obtain rfl := List.mem_singleton.mp hlast
        obtain ⟨es, hseen, hreply⟩ := hs.got_serve hwf hreq hpc hcall' hid''
        exact ⟨es, hseen.mono hext, hreply⟩

theorem finish (hs : Sound u s) (c : Clnt nclnt) (call : Clerk.Call) (rid : ℕ) (res : KvReply) :
    Sound u { s with net := s.net.finish c call rid res } where
  stored := hs.stored
  asked := hs.asked
  executed := hs.executed
  known := hs.known
  spawned := hs.spawned
  call_op d call' hd := by
    rcases update_eq_some hd with ⟨_, hv⟩ | ⟨_, hold⟩
    · cases hv
    · exact hs.call_op d call' hold
  got d call' i hpc hd := by
    rcases update_eq_some hd with ⟨_, hv⟩ | ⟨_, hold⟩
    · cases hv
    · exact hs.got d call' i hpc hold

theorem count (hs : Sound u s) (c : Fin nclnt) (ok : Bool) : Sound u (s.count c ok) :=
  ⟨hs.stored, hs.asked, hs.executed, hs.known, hs.spawned, hs.call_op, hs.got⟩

end Sound

variable {u : Codec} {s t : State nclnt}

/-- How a client goes on when its clerk call returns. A Put that is retried has
not been applied. -/
inductive Returns (u : Codec) (s : State nclnt) (d : Fin nclnt) (call : Clerk.Call) :
    KvReply → Next → Prop
  | read (i : ℕ) (es : List Entry) (hpc : s.pc d = .get i) (hseen : Seen u s.net.kv es) :
      Returns u s d call (.get ⟨u.marshal es, verOf es, .ok⟩)
        (.go (.put i (es ++ [⟨d, i⟩]) (verOf es)))
  | ok (i : ℕ) (es : List Entry) (ver : Tversion) (hpc : s.pc d = .put i es ver)
      (happ : call.opId ∈ s.net.appliedOps key) :
      Returns u s d call (.put ⟨.ok⟩) (.counted true (i + 1))
  | maybe (i : ℕ) (es : List Entry) (ver : Tversion) (hpc : s.pc d = .put i es ver) :
      Returns u s d call (.put ⟨.errMaybe⟩) (.counted false (i + 1))
  | retry (i : ℕ) (es : List Entry) (ver : Tversion) (hpc : s.pc d = .put i es ver)
      (hnot : call.opId ∉ s.net.appliedOps key) :
      Returns u s d call (.put ⟨.errVersion⟩) (.go (.get i))

/-- ErrVersion on the only RPC of a call: the call has not been applied. -/
theorem not_applied_of_refused (hwf : Clerk.WellFormed s.net) (hcount : Clerk.Counted s.net)
    (hb : s.net.puts key < 2 ^ 64) {c : Clnt nclnt} {call : Clerk.Call} {e : Clerk.Exec}
    (hcall : s.net.clerks c = some call) (hputs : call.op.PutsOn key = true)
    (he : e ∈ s.net.execs) (hid : e.opId = call.opId) (hreply : e.reply = .put ⟨.errVersion⟩)
    (hi : ¬ 1 < call.i) : call.opId ∉ s.net.appliedOps key := by
  intro hmem
  obtain ⟨e', he', _, happ, hid'⟩ := Clerk.mem_appliedOps.mp hmem
  obtain ⟨_, t, ht⟩ := hwf.clerk_op c call hcall
  have hsends := Nat.lt_of_le_of_lt (hwf.sends_le_puts ht hputs) hb
  have hle : ¬ (1 : UInt64).toNat < call.i.toNat := hi
  rw [hcount.call_i c call hcall, Nat.mod_eq_of_lt hsends] at hle
  obtain rfl := Clerk.only_exec_of_single_send hwf (not_lt.mp hle) he he' hid hid'
  rw [hreply] at happ
  cases happ

theorem Sound.returns (hs : Sound u s) (hwf : Clerk.WellFormed s.net)
    (hserved : Clerk.Served s.net) (hcount : Clerk.Counted s.net) (hb : s.net.puts key < 2 ^ 64)
    {d : Fin nclnt} {call : Clerk.Call} {rid : ℕ} {reply res : KvReply}
    (hcall : s.net.clerks (some d) = some call) (hrid : call.rid = some rid)
    (hst : s.net.status rid = .served reply) (hfin : call.finish reply = some res) :
    Returns u s d call res (u.oneClientAppend d (s.pc d) res) := by
  obtain ⟨e, he, _, hid, hreply, kv, hkv⟩ := Clerk.taken_answer hwf hserved hcall hrid hst
  have hop : u.op (s.pc d) = some call.op := hs.call_op (some d) call hcall
  cases hpc : s.pc d with
  | get i =>
    obtain ⟨es, hseen, hget⟩ := hs.got d call i hpc hcall e he hid
    rw [← hreply, hget] at hfin
    obtain rfl : res = .get ⟨u.marshal es, verOf es, .ok⟩ := by
      simpa [Clerk.Call.finish, Clerk.get] using hfin.symm
    simp only [Codec.oneClientAppend, Codec.getJson, if_true, u.unmarshal_marshal]
    exact .read i es hpc hseen
  | put i es ver =>
    have hop' : call.op = .put ⟨key, u.marshal es, ver⟩ := by
      simpa [hpc, Codec.op] using hop.symm
    have hputs : call.op.PutsOn key = true := by simp [hop', KvOp.PutsOn]
    have heop : e.op = call.op := hwf.req_call_op hcall (hwf.exec_req e he).1 hid
    have hnokey := (hs.executed e he _ (heop.trans hop') rfl).2
    obtain ⟨err, rfl⟩ : ∃ err, res = .put ⟨err⟩ := by
      rw [hkv, hop'] at hfin
      obtain ⟨err, _, herr⟩ := Option.map_eq_some_iff.mp hfin
      exact ⟨err, herr.symm⟩
    rcases Clerk.Call.finish_put hfin with ⟨rfl, h⟩ | ⟨rfl, _⟩ | ⟨rfl, h, hi⟩ | ⟨_, h⟩
    · refine .ok i es ver hpc (Clerk.mem_appliedOps.mpr ⟨e, he, ?_, hreply.trans h, hid⟩)
      rw [heop, hputs]
    · exact .maybe i es ver hpc
    · exact .retry i es ver hpc
        (not_applied_of_refused hwf hcount hb hcall hputs he hid (hreply.trans h) hi)
    · exact absurd (hreply.trans h) hnokey
  | _ => simp [hpc, Codec.op] at hop

namespace Sound

theorem ret (hs : Sound u s) {d : Fin nclnt} {call : Clerk.Call} {rid : ℕ} {res : KvReply}
    {n : Next} (h : Returns u s d call res n) :
    Sound u ({ s with net := s.net.finish (some d) call rid res }.next d n) := by
  have hknown := hs.known d
  have hfin := hs.finish (some d) call rid res
  have hidle : (s.net.finish (some d) call rid res).clerks (some d) = none := by simp
  have hpresent : ∀ {i : ℕ} {es : List Entry} {ver : Tversion}, s.pc d = .put i es ver →
      s.net.kv key ≠ none := by
    intro i es ver hpc
    rw [hpc] at hknown
    obtain ⟨_, ⟨log, hlog, _⟩, _⟩ := hknown
    exact hlog.present
  cases h with
  | read i es hpc hseen => exact hfin.jump hidle ⟨es, hseen, rfl, rfl⟩
  | ok i es ver hpc happ =>
    have hselect : Sound u ({ s with net := s.net.finish (some d) call rid (.put ⟨.ok⟩) }.jump d
        (.select (i + 1))) := hfin.jump hidle (hpresent hpc)
    exact hselect.count d true
  | maybe i es ver hpc =>
    have hselect : Sound u ({ s with
        net := s.net.finish (some d) call rid (.put ⟨.errMaybe⟩) }.jump d
        (.select (i + 1))) := hfin.jump hidle (hpresent hpc)
    exact hselect.count d false
  | retry i es ver hpc hnot => exact hfin.jump hidle (hpresent hpc)

/-- PutAtLeastOnceJson returns only after a Put at version 0 has been executed. -/
theorem ret_main (hs : Sound u s) (hwf : Clerk.WellFormed s.net) (hserved : Clerk.Served s.net)
    {call : Clerk.Call} {rid : ℕ} {reply res : KvReply}
    (hcall : s.net.clerks none = some call) (hrid : call.rid = some rid)
    (hst : s.net.status rid = .served reply) :
    Sound u { s with
      net := s.net.finish none call rid res
      main := putAtLeastOnceJson s.main res } := by
  have hfin := hs.finish none call rid res
  refine ⟨hfin.stored, hfin.asked, hfin.executed, hfin.known, ?_, ?_, hfin.got⟩
  · intro ver hmain
    cases hold : s.main with
    | ready ver' => exact hs.spawned ver' hold
    | create ver' =>
      obtain ⟨e, he, _, hid, _⟩ := Clerk.taken_answer hwf hserved hcall hrid hst
      have hallowed := hs.call_op none call hcall
      simp only [Allowed, hold] at hallowed
      have heop : e.op = call.op := hwf.req_call_op hcall (hwf.exec_req e he).1 hid
      obtain ⟨⟨log, hlog, _⟩, _⟩ := hs.executed e he _ (heop.trans hallowed) rfl
      exact hlog.present
  · intro d call' hd
    rcases update_eq_some hd with ⟨_, hv⟩ | ⟨hne, hold⟩
    · cases hv
    · cases d with
      | none => exact absurd rfl hne
      | some d => exact hs.call_op (some d) call' hold

theorem step (hs : Sound u s) (hwf : Clerk.WellFormed s.net) (hserved : Clerk.Served s.net)
    (hcount : Clerk.Counted s.net) (hb : s.net.puts key < 2 ^ 64) (h : Step u s t) :
    Sound u t := by
  cases h with
  | start c ver hmain hpc => exact hs.jump (hs.no_call (by rw [hpc]; rfl)) (hs.spawned ver hmain)
  | done c i hpc =>
    have hknown := hs.known c
    rw [hpc] at hknown
    exact hs.jump (hs.no_call (by rw [hpc]; rfl)) hknown
  | default c i hpc =>
    have hknown := hs.known c
    rw [hpc] at hknown
    exact hs.jump (hs.no_call (by rw [hpc]; rfl)) hknown
  | call c op hop hidle => exact hs.invoke hwf hop
  | inner net h => exact hs.inner hwf hserved hb h
  | ret c call rid reply res hcall hrid hst hfin =>
    cases c with
    | none => exact hs.ret_main hwf hserved hcall hrid hst
    | some d => exact hs.ret (hs.returns hwf hserved hcount hb hcall hrid hst hfin)

end Sound

theorem Sound.of_reachable (h : (system u).Reachable s) (hb : s.net.puts key < 2 ^ 64) :
    Sound u s := by
  refine System.Reachable.invariant_of_bound (I := Sound u)
    (B := fun s => s.net.puts key < 2 ^ 64) ?_ ?_ ?_ h hb
  · intro s l t hstep hlt
    exact Nat.lt_of_le_of_lt ((runs u).puts_le hstep key) hlt
  · rintro s rfl
    exact Sound.initial
  · intro s l t hr hlt hs hstep
    have hnet := net_reachable hr
    exact hs.step (Clerk.WellFormed.of_reachable hnet) (Clerk.Served.of_reachable hnet)
      (Clerk.Counted.of_reachable hnet) (Nat.lt_of_le_of_lt ((runs u).puts_le hstep key) hlt)
      (step_sound hstep)

end DistributedLabs.KvAppend
