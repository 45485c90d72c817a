import DistributedLabs.EntryJson
import DistributedLabs.PutRuns

/-!
The clients of OneClientPut agree with the server. `Sound` says what they may
rely on: the stored value always names the version it was put at, and a client
that has seen the key finds it again. `Tallied` ties their counters to the calls
of Put that have returned.
-/
namespace DistributedLabs.KvTest

open KVServer Transition Tables

variable {ι : Type*}

/-- What a client at a program counter knows about the key's presence. -/
def Pc.Knows (present : Prop) : Pc → Prop
  | .idle => True
  | .select ver => ver ≠ 0 → present
  | .put ver => ver ≠ 0 → present
  | .get _ err => present ∧ (err = .ok ∨ err = .errVersion ∨ err = .errMaybe)
  | .stopped => True
  | .fatal _ => False

theorem Pc.Knows.mono {p q : Prop} (hpq : p → q) {pc : Pc} (h : pc.Knows p) : pc.Knows q := by
  cases pc with
  | idle => trivial
  | select ver => exact fun hv => hpq (h hv)
  | put ver => exact fun hv => hpq (h hv)
  | get ver err => exact ⟨hpq h.1, h.2⟩
  | stopped => trivial
  | fatal f => exact h

structure Sound (u : Setup ι) (s : State ι) : Prop where
  entry : ∀ v, s.net.kv u.key = some v →
    ∃ e, v.value = u.codec.marshal e ∧ v.version = e.v + 1
  asked : ∀ (o : ℕ) (c : ι) (args : PutArgs) (t : ℕ),
    s.net.ops[o]? = some ⟨c, .put args, t⟩ → args.key = u.key →
      (∃ e, args.value = u.codec.marshal e ∧ args.version = e.v) ∧
        (args.version ≠ 0 → s.net.kv u.key ≠ none)
  executed : ∀ e ∈ s.net.execs, e.op.PutsOn u.key = true →
    s.net.kv u.key ≠ none ∧ e.reply ≠ .put ⟨.errNoKey⟩
  known : ∀ c, (s.pc c).Knows (s.net.kv u.key ≠ none)
  call_op : ∀ c call, s.net.clerks c = some call →
    (s.pc c = .idle ∧ call.op.PutsOn u.key = false) ∨ u.op c (s.pc c) = some call.op
  got : ∀ c call ver err, s.pc c = .get ver err → s.net.clerks c = some call →
    ∀ e ∈ s.net.execs, e.opId = call.opId →
      ∃ v, e.reply = .get ⟨u.codec.marshal v, v.v + 1, .ok⟩

namespace Sound

variable {u : Setup ι} {s : State ι}

theorem initial : Sound u (initial : State ι) where
  entry v h := by simp [KvTest.initial, Clerk.initial, emptyKv] at h
  asked o c args t h := by simp [KvTest.initial, Clerk.initial] at h
  executed e h := by simp [KvTest.initial, Clerk.initial] at h
  known c := trivial
  call_op c call h := by simp [KvTest.initial, Clerk.initial] at h
  got c call ver err h := by simp [KvTest.initial] at h

/-- At the head of the loop and after it no clerk call is in progress. -/
theorem no_call (hs : Sound u s) {c : ι} (hop : u.op c (s.pc c) = none)
    (hpc : s.pc c ≠ .idle) : s.net.clerks c = none := by
  cases hcall : s.net.clerks c with
  | none => rfl
  | some call =>
    rcases hs.call_op c call hcall with ⟨hidle, _⟩ | hsome
    · exact absurd hidle hpc
    · rw [hop] at hsome
      cases hsome

variable [DecidableEq ι]

theorem jump (hs : Sound u s) {c : ι} {pc : Pc} (hidle : s.net.clerks c = none)
    (hpc : pc.Knows (s.net.kv u.key ≠ none)) : Sound u (s.jump c pc) where
  entry := hs.entry
  asked := hs.asked
  executed := hs.executed
  known d := by
    by_cases hd : d = c
    · subst hd
      simpa [State.jump] using hpc
    · simpa [State.jump, hd] using hs.known d
  call_op d call hd := by
    have hne : d ≠ c := by
      rintro rfl
      exact Option.some_ne_none call (hd.symm.trans hidle)
    simpa [State.jump, hne] using hs.call_op d call hd
  got d call ver err hget hd := by
    have hne : d ≠ c := by
      rintro rfl
      exact Option.some_ne_none call (hd.symm.trans hidle)
    exact hs.got d call ver err (by simpa [State.jump, hne] using hget) hd

theorem invoke (hs : Sound u s) (hwf : Clerk.WellFormed s.net) {c : ι} {op : KvOp}
    (hop : u.op c (s.pc c) = some op ∨ s.pc c = .idle ∧ op.PutsOn u.key = false) :
    Sound u { s with net := s.net.invoke c op } where
  entry := hs.entry
  asked o d args t ho hkey := by
    rcases getElem?_concat_cases ho with hold | ⟨_, hnew⟩
    · exact hs.asked o d args t hold hkey
    · obtain ⟨rfl, rfl, rfl⟩ : d = c ∧ .put args = op ∧ t = s.net.clock := by
        simpa using hnew
      rcases hop with hop | ⟨_, hputs⟩
      · cases hpc : s.pc d with
        | put ver =>
          obtain rfl : _ = args := by simpa [hpc, Setup.op] using hop
          have hknown := hs.known d
          rw [hpc] at hknown
          exact ⟨⟨⟨u.me d, ver⟩, rfl, rfl⟩, hknown⟩
        | _ => simp [hpc, Setup.op] at hop
      · simp [KvOp.PutsOn, hkey] at hputs
  executed := hs.executed
  known := hs.known
  call_op d call hd := by
    rcases update_eq_some hd with ⟨rfl, hv⟩ | ⟨_, hold⟩
    · obtain rfl := Option.some.inj hv
      exact hop.symm
    · exact hs.call_op d call hold
  got d call ver err hget hd e he hid := by
    rcases update_eq_some hd with ⟨rfl, hv⟩ | ⟨_, hold⟩
    · obtain rfl := Option.some.inj hv
      have hlt := hwf.req_opId_lt (hwf.exec_req e he).1
      exact absurd hid (Nat.ne_of_lt hlt)
    · exact hs.got d call ver err hget hold e he hid

omit [DecidableEq ι] in
/-- The server keeps the stored value well formed. -/
theorem entry_serve (hs : Sound u s) (hwf : Clerk.WellFormed s.net) {rid : ℕ}
    {q : Clerk.Request} (hreq : s.net.reqs[rid]? = some q) (v : KvValue)
    (hv : (serve s.net.kv q.op).1 u.key = some v) :
    ∃ e, v.value = u.codec.marshal e ∧ v.version = e.v + 1 := by
  rw [serve_entry] at hv
  cases hargs : appliedArgs u.key (q.op, (serve s.net.kv q.op).2) with
  | none =>
    rw [hargs] at hv
    exact hs.entry v hv
  | some args =>
    rw [hargs] at hv
    obtain rfl := Option.some.inj hv
    obtain ⟨hop, hkey, _⟩ := appliedArgs_eq_some.mp hargs
    obtain ⟨c, t, ht⟩ := hwf.req_op rid q hreq
    rw [hop] at ht
    obtain ⟨⟨e, hval, hver⟩, _⟩ := hs.asked _ c args t ht hkey
    exact ⟨e, hval, by simp [hver]⟩

omit [DecidableEq ι] in
/-- A Put on the key finds or creates it. -/
theorem executed_serve (hs : Sound u s) (hwf : Clerk.WellFormed s.net) {rid : ℕ}
    {q : Clerk.Request} (hreq : s.net.reqs[rid]? = some q)
    (hputs : q.op.PutsOn u.key = true) :
    (serve s.net.kv q.op).1 u.key ≠ none ∧ (serve s.net.kv q.op).2 ≠ .put ⟨.errNoKey⟩ := by
  cases hop : q.op with
  | get args => simp [hop, KvOp.PutsOn] at hputs
  | put args =>
    have hkey : args.key = u.key := by simpa [hop, KvOp.PutsOn] using hputs
    obtain ⟨c, t, ht⟩ := hwf.req_op rid q hreq
    rw [hop] at ht
    have hpresent := (hs.asked _ c args t ht hkey).2
    rcases put_cases s.net.kv args with ⟨_, hp⟩ | ⟨_, hkv, hp⟩ | ⟨hver, hkv, _⟩
    · simp [serve, hp, hkey]
    · rw [hkey] at hkv
      simp [serve, hp, hkv]
    · rw [hkey] at hkv
      exact absurd hkv (hpresent hver)

omit [DecidableEq ι] in
/-- A Get of a client that has put finds an entry. -/
theorem got_serve (hs : Sound u s) (hwf : Clerk.WellFormed s.net) {rid : ℕ}
    {q : Clerk.Request} (hreq : s.net.reqs[rid]? = some q) {c : ι} {call : Clerk.Call}
    {ver : Tversion} {err : Err} (hpc : s.pc c = .get ver err)
    (hcall : s.net.clerks c = some call) (hid : q.opId = call.opId) :
    ∃ v, (serve s.net.kv q.op).2 = .get ⟨u.codec.marshal v, v.v + 1, .ok⟩ := by
  have hop : q.op = .get ⟨u.key⟩ := by
    rw [hwf.req_call_op hcall hreq hid]
    rcases hs.call_op c call hcall with ⟨hidle, _⟩ | hop
    · rw [hpc] at hidle
      cases hidle
    · simpa [hpc, Setup.op] using hop.symm
  have hknown := hs.known c
  rw [hpc] at hknown
  obtain ⟨v, hv⟩ := Option.ne_none_iff_exists'.mp hknown.1
  obtain ⟨e, hval, hver⟩ := hs.entry v hv
  exact ⟨e, by simp [hop, serve, KVServer.get, hv, hval, hver]⟩

omit [DecidableEq ι] in
theorem inner (hs : Sound u s) (hwf : Clerk.WellFormed s.net) {net : Clerk.State ι}
    (h : Clerk.Inner s.net net) : Sound u { s with net } := by
  have hcall_op : ∀ c call, net.clerks c = some call →
      (s.pc c = .idle ∧ call.op.PutsOn u.key = false) ∨ u.op c (s.pc c) = some call.op := by
    intro c call hcall
    obtain ⟨call', hcall', _, hop⟩ := h.call_before hcall
    rw [← hop]
    exact hs.call_op c call' hcall'
  rcases h.served with ⟨hkv, hexecs⟩ | ⟨rid, q, hreq, hkv, hexecs⟩
  · refine ⟨?_, ?_, ?_, ?_, hcall_op, ?_⟩
    · exact hkv ▸ hs.entry
    · rw [h.ops_eq, hkv]
      exact hs.asked
    · rw [hexecs, hkv]
      exact hs.executed
    · exact hkv ▸ hs.known
    · intro c call ver err hpc hcall e he hid
      obtain ⟨call', hcall', hid', _⟩ := h.call_before hcall
      exact hs.got c call' ver err hpc hcall' e (hexecs ▸ he) (hid.trans hid'.symm)
  · have hpresent : s.net.kv u.key ≠ none → net.kv u.key ≠ none := by
      rw [hkv]
      exact serve_present s.net.kv q.op u.key
    refine ⟨?_, ?_, ?_, ?_, hcall_op, ?_⟩
    · rw [hkv]
      exact hs.entry_serve hwf hreq
    · intro o c args t ho hkey
      rw [h.ops_eq] at ho
      obtain ⟨hval, hver⟩ := hs.asked o c args t ho hkey
      exact ⟨hval, fun hne => hpresent (hver hne)⟩
    · intro e he hputs
      rw [hexecs] at he
      rcases List.mem_append.mp he with hold | hlast
      · obtain ⟨h1, h2⟩ := hs.executed e hold hputs
        exact ⟨hpresent h1, h2⟩
      · obtain rfl := List.mem_singleton.mp hlast
        rw [hkv]
        exact hs.executed_serve hwf hreq hputs
    · exact fun c => (hs.known c).mono hpresent
    · intro c call ver err hpc hcall e he hid
      obtain ⟨call', hcall', hid', _⟩ := h.call_before hcall
      rw [hexecs] at he
      rcases List.mem_append.mp he with hold | hlast
      · exact hs.got c call' ver err hpc hcall' e hold (hid.trans hid'.symm)
      · obtain rfl := List.mem_singleton.mp hlast
        exact hs.got_serve hwf hreq hpc hcall' (hid.trans hid'.symm)

theorem finish (hs : Sound u s) (c : ι) (call : Clerk.Call) (rid : ℕ) (res : KvReply) :
    Sound u { s with net := s.net.finish c call rid res } where
  entry := hs.entry
  asked := hs.asked
  executed := hs.executed
  known := hs.known
  call_op d call' hd := by
    rcases update_eq_some hd with ⟨_, hv⟩ | ⟨_, hold⟩
    · cases hv
    · exact hs.call_op d call' hold
  got d call' ver err hpc hd := by
    rcases update_eq_some hd with ⟨_, hv⟩ | ⟨_, hold⟩
    · cases hv
    · exact hs.got d call' ver err hpc hold

theorem count (hs : Sound u s) (c : ι) (ok : Bool) : Sound u (s.count c ok) :=
  ⟨hs.entry, hs.asked, hs.executed, hs.known, hs.call_op, hs.got⟩

end Sound

variable {u : Setup ι} {s t : State ι}

/-- GetJson decodes what a client stored, and the entry names its own version,
so OnePut's check of its own value passes. -/
theorem onePut_get (me : ℤ) (ver : Tversion) (err : Err) (e : EntryV) :
    u.onePut me (.get ver err) (.get ⟨u.codec.marshal e, e.v + 1, .ok⟩) =
      if err = .ok ∨ err = .errMaybe then .returned (e.v + 1) (err = .ok)
      else .go (.put (e.v + 1)) := by
  have hcheck : ¬ ((err = .ok ∧ e.v + 1 = ver + 1) ∧ e.id ≠ me ∧ e.v ≠ ver) := by
    rintro ⟨⟨_, hver⟩, _, hne⟩
    exact hne (add_right_cancel hver)
  simp only [Setup.onePut, Setup.getJson, if_true, u.codec.unmarshal_marshal, if_neg hcheck]

/-- How a client goes on when its clerk call `op` returns. -/
inductive Returns (u : Setup ι) (s : State ι) (c : ι) (op : KvOp) : KvReply → Next → Prop
  | other (res : KvReply) (hpc : s.pc c = .idle) (hop : op.PutsOn u.key = false) :
      Returns u s c op res (.go .idle)
  | put (ver : Tversion) (err : Err) (hpc : s.pc c = .put ver)
      (hop : op.PutsOn u.key = true) (hpresent : s.net.kv u.key ≠ none)
      (herr : err = .ok ∨ err = .errVersion ∨ err = .errMaybe) :
      Returns u s c op (.put ⟨err⟩) (.go (.get ver err))
  | counted (ver : Tversion) (err : Err) (ver0 : Tversion) (reply : GetReply)
      (hpc : s.pc c = .get ver err) (herr : err = .ok ∨ err = .errMaybe) :
      Returns u s c op (.get reply) (.returned ver0 (err = .ok))
  | retry (ver ver0 : Tversion) (reply : GetReply) (hpc : s.pc c = .get ver .errVersion) :
      Returns u s c op (.get reply) (.go (.put ver0))

theorem Sound.returns (hs : Sound u s) (hwf : Clerk.WellFormed s.net)
    (hserved : Clerk.Served s.net) {c : ι} {call : Clerk.Call} {rid : ℕ} {reply res : KvReply}
    (hcall : s.net.clerks c = some call) (hrid : call.rid = some rid)
    (hst : s.net.status rid = .served reply) (hfin : call.finish reply = some res) :
    Returns u s c call.op res (u.onePut (u.me c) (s.pc c) res) := by
  obtain ⟨e, he, _, hid, hreply, kv, hkv⟩ :=
    Clerk.taken_answer hwf hserved hcall hrid hst
  rcases hs.call_op c call hcall with ⟨hpc, hputs⟩ | hop
  · rw [hpc]
    exact .other res hpc hputs
  · cases hpc : s.pc c with
    | put ver =>
      have hop' : call.op = .put ⟨u.key, u.codec.marshal ⟨u.me c, ver⟩, ver⟩ := by
        simpa [hpc, Setup.op] using hop.symm
      have hputs : call.op.PutsOn u.key = true := by simp [hop', KvOp.PutsOn]
      have heop : e.op = call.op :=
        hwf.req_call_op hcall (hwf.exec_req e he).1 hid
      obtain ⟨hpresent, hnokey⟩ := hs.executed e he (heop ▸ hputs)
      have hfin' := hfin
      rw [hkv, hop'] at hfin'
      obtain ⟨err, _, rfl⟩ := Option.map_eq_some_iff.mp hfin'
      have herr : err = .ok ∨ err = .errVersion ∨ err = .errMaybe := by
        rcases Clerk.Call.finish_put hfin with ⟨h, _⟩ | ⟨h, _⟩ | ⟨h, _⟩ | ⟨_, h⟩
        · exact Or.inl h
        · exact Or.inr (Or.inr h)
        · exact Or.inr (Or.inl h)
        · exact absurd (hreply.trans h) hnokey
      simp only [Setup.onePut, not_true_eq_false, herr, if_false]
      exact .put ver err hpc hputs hpresent herr
    | get ver err =>
      obtain ⟨v, hv⟩ := hs.got c call ver err hpc hcall e he hid
      rw [← hreply, hv] at hfin
      have hres : res = .get ⟨u.codec.marshal v, v.v + 1, .ok⟩ := by
        simpa [Clerk.Call.finish, Clerk.get] using hfin.symm
      rw [hres, onePut_get]
      have hknown := hs.known c
      rw [hpc] at hknown
      rcases hknown.2 with rfl | rfl | rfl
      · exact .counted ver .ok (v.v + 1) _ hpc (Or.inl rfl)
      · exact .retry ver (v.v + 1) _ hpc
      · exact .counted ver .errMaybe (v.v + 1) _ hpc (Or.inr rfl)
    | _ => simp [hpc, Setup.op] at hop

variable [DecidableEq ι]

namespace Sound

theorem ret (hs : Sound u s) {c : ι} {call : Clerk.Call} {rid : ℕ} {res : KvReply} {n : Next}
    (h : Returns u s c call.op res n) :
    Sound u ({ s with net := s.net.finish c call rid res }.next c n) := by
  have hknown := hs.known c
  have hfin := hs.finish c call rid res
  have hidle : (s.net.finish c call rid res).clerks c = none := by simp
  cases h with
  | other _ hpc hop => exact hfin.jump hidle trivial
  | put ver err hpc hop hpresent herr => exact hfin.jump hidle ⟨hpresent, herr⟩
  | counted ver err ver0 reply hpc herr =>
    rw [hpc] at hknown
    have hselect : Sound u ({ s with net := s.net.finish c call rid (.get reply) }.jump c
        (.select ver0)) := hfin.jump hidle fun _ => hknown.1
    exact hselect.count c _
  | retry ver ver0 reply hpc =>
    rw [hpc] at hknown
    exact hfin.jump hidle fun _ => hknown.1

theorem step (hs : Sound u s) (hwf : Clerk.WellFormed s.net) (hserved : Clerk.Served s.net)
    (h : Step u s t) : Sound u t := by
  cases h with
  | start c hpc hidle => exact hs.jump hidle fun h => absurd rfl h
  | done c ver hpc => exact hs.jump (hs.no_call (by simp [hpc, Setup.op]) (by simp [hpc])) trivial
  | default c ver hpc =>
    have hknown := hs.known c
    rw [hpc] at hknown
    exact hs.jump (hs.no_call (by simp [hpc, Setup.op]) (by simp [hpc])) hknown
  | call c op hop hidle => exact hs.invoke hwf hop
  | inner net h => exact hs.inner hwf h
  | ret c call rid reply res hcall hrid hst hfin =>
    exact hs.ret (hs.returns hwf hserved hcall hrid hst hfin)

theorem of_reachable (h : (system u).Reachable s) : Sound u s := by
  refine System.Reachable.invariant ?_ ?_ h
  · rintro s rfl
    exact initial
  · intro s l t hr hs hstep
    have hnet := net_reachable hr
    exact hs.step (Clerk.WellFormed.of_reachable hnet) (Clerk.Served.of_reachable hnet)
      (step_sound hstep)

end Sound

/-- A call of Put that has returned `err` and is not counted yet. -/
def Pc.pending (err : Err) : Pc → ℕ
  | .get _ err' => if err' = err then 1 else 0
  | _ => 0

/-- The counter of OneClientPut for an answer of Put. -/
def ClntRes.counter (err : Err) (r : ClntRes) : Int64 :=
  if err = .ok then r.nok else if err = .errMaybe then r.nmaybe else 0

/-- A client has counted the calls of Put that returned OK or ErrMaybe. -/
def Tallied (u : Setup ι) (s : State ι) : Prop :=
  ∀ c err, err = .ok ∨ err = .errMaybe →
    (s.res c).counter err + Int64.ofNat ((s.pc c).pending err) =
      Int64.ofNat (s.net.returnedBy u.key err c).card

theorem pending_update {pcs : ι → Pc} {c : ι} {pc : Pc} {err : Err}
    (hpc : pc.pending err = (pcs c).pending err) (d : ι) :
    (Function.update pcs c pc d).pending err = (pcs d).pending err := by
  by_cases hd : d = c
  · subst hd
    simpa using hpc
  · simp [hd]

theorem counter_count (s : State ι) (c d : ι) (err err' : Err)
    (herr : err = .ok ∨ err = .errMaybe) (herr' : err' = .ok ∨ err' = .errMaybe) :
    ((s.count c (err' = .ok)).res d).counter err =
      (s.res d).counter err + Int64.ofNat (if d = c ∧ err' = err then 1 else 0) := by
  by_cases hd : d = c
  · subst hd
    rcases herr with rfl | rfl <;> rcases herr' with rfl | rfl <;>
      simp [State.count, ClntRes.counter]
  · simp [State.count, hd]

namespace Tallied

theorem initial (u : Setup ι) : Tallied u (initial : State ι) := by
  intro c err herr
  rcases herr with rfl | rfl <;> rfl

theorem jump (hs : Tallied u s) {c : ι} {pc : Pc}
    (hpc : ∀ err, pc.pending err = (s.pc c).pending err) : Tallied u (s.jump c pc) := by
  intro d err herr
  simp only [State.jump, pending_update (hpc err) d]
  exact hs d err herr

theorem ret (hs : Tallied u s) (hwf : Clerk.WellFormed s.net) {c : ι} {call : Clerk.Call}
    {rid : ℕ} {res : KvReply} {n : Next} (hcall : s.net.clerks c = some call)
    (h : Returns u s c call.op res n) :
    Tallied u ({ s with net := s.net.finish c call rid res }.next c n) := by
  intro d err herr
  have hold := hs d err herr
  rw [net_next, Clerk.card_returnedBy_finish hwf hcall, Int64.ofNat_add, ← hold]
  cases h with
  | other _ hpc hop =>
    have hpending : Pc.idle.pending err = (s.pc c).pending err := by rw [hpc]
    simp [State.next, State.jump, pending_update hpending, hop]
  | put ver err' hpc hop hpresent herr' =>
    by_cases hd : d = c
    · subst hd
      simp [State.next, State.jump, hpc, Pc.pending, hop]
    · simp [State.next, State.jump, hd]
  | counted ver err' ver0 reply hpc herr' =>
    simp only [State.next]
    rw [counter_count _ c d err err' herr herr']
    by_cases hd : d = c
    · subst hd
      simp [State.count, State.jump, hpc, Pc.pending]
    · simp [State.count, State.jump, hd]
  | retry ver ver0 reply hpc =>
    have hpending : (Pc.put ver0).pending err = (s.pc c).pending err := by
      rw [hpc]
      rcases herr with rfl | rfl <;> rfl
    simp [State.next, State.jump, pending_update hpending]

theorem step (hs : Tallied u s) (hsound : Sound u s) (hwf : Clerk.WellFormed s.net)
    (hserved : Clerk.Served s.net) (h : Step u s t) : Tallied u t := by
  cases h with
  | start c hpc hidle => exact hs.jump fun err => by rw [hpc]; rfl
  | done c ver hpc => exact hs.jump fun err => by rw [hpc]; rfl
  | default c ver hpc => exact hs.jump fun err => by rw [hpc]; rfl
  | call c op hop hidle =>
    intro d err herr
    rw [Clerk.returnedBy_invoke hwf]
    exact hs d err herr
  | inner net h =>
    intro d err herr
    rw [Clerk.returnedBy_congr h.ops_eq h.rets_eq]
    exact hs d err herr
  | ret c call rid reply res hcall hrid hst hfin =>
    exact hs.ret hwf hcall (hsound.returns hwf hserved hcall hrid hst hfin)

theorem of_reachable (h : (system u).Reachable s) : Tallied u s := by
  refine System.Reachable.invariant ?_ ?_ h
  · rintro s rfl
    exact initial u
  · intro s l t hr hs hstep
    have hnet := net_reachable hr
    exact hs.step (Sound.of_reachable hr) (Clerk.WellFormed.of_reachable hnet)
      (Clerk.Served.of_reachable hnet) (step_sound hstep)

end Tallied

/-- Every client that started has stopped. -/
def State.AllStopped (s : State ι) : Prop := ∀ c, s.pc c = .idle ∨ s.pc c = .stopped

omit [DecidableEq ι] in
/-- When all have stopped, every call of Put on the key has returned. -/
theorem Sound.puts_returned (hs : Sound u s) (hwf : Clerk.WellFormed s.net)
    (hstop : s.AllStopped) (o : ℕ) (inv : Clerk.Invocation ι) (hinv : s.net.ops[o]? = some inv)
    (hputs : inv.op.PutsOn u.key = true) : s.net.rets o ≠ none := by
  intro hnone
  obtain ⟨call, hcall, rfl⟩ := hwf.op_open o inv hinv hnone
  obtain ⟨_, t, ht⟩ := hwf.clerk_op inv.client call hcall
  have hop : inv.op = call.op :=
    congrArg Clerk.Invocation.op (Option.some.inj (hinv.symm.trans ht))
  rcases hs.call_op _ call hcall with ⟨_, hother⟩ | hput
  · rw [← hop, hputs] at hother
    cases hother
  · rcases hstop inv.client with hpc | hpc
    · simp [hpc, Setup.op] at hput
    · simp [hpc, Setup.op] at hput

omit [DecidableEq ι] in
theorem Sound.returned_errNoKey (hs : Sound u s) (hwf : Clerk.WellFormed s.net)
    (hserved : Clerk.Served s.net) (hcount : Clerk.Counted s.net) :
    s.net.returned u.key .errNoKey = ∅ := by
  apply Finset.eq_empty_of_forall_notMem
  intro o ho
  obtain ⟨inv, ret, hinv, hputs, hret, hres⟩ := Clerk.mem_returned.mp ho
  obtain ⟨e, he, call, err, _, hop, _, herr, hfin⟩ :=
    Clerk.returned_put hwf hserved hcount hinv hputs hret
  obtain rfl : err = .errNoKey := by simpa [herr] using hres
  rcases Clerk.Call.finish_put hfin with ⟨h, _⟩ | ⟨h, _⟩ | ⟨h, _⟩ | ⟨_, hreply⟩
  · cases h
  · cases h
  · cases h
  · exact (hs.executed e he (by rw [hop, hputs])).2 hreply

variable [Fintype ι]

/-- The sum of ints, in any order. -/
def sumInts (f : ι → Int64) : Int64 := Finset.univ.fold (· + ·) 0 f

/-- The sum that CheckPutConcurrent makes of the clients' results. -/
def State.results (s : State ι) : ClntRes :=
  ⟨sumInts fun c => (s.res c).nok, sumInts fun c => (s.res c).nmaybe⟩

omit [DecidableEq ι] in
theorem sumInts_ofNat (f : ι → ℕ) :
    sumInts (fun c => Int64.ofNat (f c)) = Int64.ofNat (∑ c, f c) := by
  rw [sumInts, Finset.sum_eq_fold]
  exact Finset.fold_hom Int64.ofNat_add

theorem Tallied.results (hs : Tallied u s) (hstop : s.AllStopped) :
    s.results.nok = Int64.ofNat (s.net.returned u.key .ok).card ∧
      s.results.nmaybe = Int64.ofNat (s.net.returned u.key .errMaybe).card := by
  have hcounter : ∀ c err, err = .ok ∨ err = .errMaybe →
      (s.res c).counter err = Int64.ofNat (s.net.returnedBy u.key err c).card := by
    intro c err herr
    have hpending : (s.pc c).pending err = 0 := by
      rcases hstop c with hpc | hpc <;> simp [hpc, Pc.pending]
    rw [← hs c err herr, hpending]
    exact (Int64.add_zero _).symm
  constructor
  · rw [← Clerk.sum_card_returnedBy, ← sumInts_ofNat]
    exact congrArg sumInts (funext fun c => hcounter c .ok (Or.inl rfl))
  · rw [← Clerk.sum_card_returnedBy, ← sumInts_ofNat]
    exact congrArg sumInts (funext fun c => hcounter c .errMaybe (Or.inr rfl))

omit [Fintype ι] in
/-- When no message is lost, no operation is sent twice. -/
theorem sentOnce_of_lossless
    (h : (system u).ReachableWithin (fun _ l => ¬ l.Loses) s) : Clerk.SentOnce s.net := by
  refine System.ReachableWithin.invariant (I := fun s => Clerk.SentOnce s.net) ?_ ?_ h
  · rintro s rfl
    exact Clerk.SentOnce.initial
  · intro s l t hr hs hkeep hstep
    have hnet := net_reachable hr.reachable
    cases l with
    | clerk l =>
      have hnet' := Clerk.Clients.step_net (C := clients u) hstep
      refine hs.step (Clerk.step_sound hnet') ?_ (Clerk.WellFormed.of_reachable hnet)
        (Clerk.Served.of_reachable hnet)
      rintro c rfl
      exact hkeep trivial
    | _ => exact net_of_own hstep (by simp) ▸ hs

/-- The results are the numbers of calls of Put, wrapped, and the version lies between them. -/
theorem results_count (hr : (system u).Reachable s) (hstop : s.AllStopped) :
    ∃ nok nmaybe : ℕ, s.results = ⟨Int64.ofNat nok, Int64.ofNat nmaybe⟩ ∧
      nok + nmaybe ≤ s.net.puts u.key ∧
      (s.net.puts u.key < 2 ^ 64 → nok ≤ (version s.net.kv u.key).toNat ∧
        (version s.net.kv u.key).toNat ≤ nok + nmaybe) := by
  have hnet := net_reachable hr
  have hwf := Clerk.WellFormed.of_reachable hnet
  have hserved := Clerk.Served.of_reachable hnet
  have hcount := Clerk.Counted.of_reachable hnet
  have hsound := Sound.of_reachable hr
  obtain ⟨hnok, hnmaybe⟩ := (Tallied.of_reachable hr).results hstop
  refine ⟨(s.net.returned u.key .ok).card, (s.net.returned u.key .errMaybe).card, ?_,
    Clerk.card_returned_le hwf hcount, fun hlt => ?_⟩
  · rw [← hnok, ← hnmaybe]
  · exact Clerk.version_between hserved hwf hcount hlt
      (hsound.returned_errNoKey hwf hserved hcount) (hsound.puts_returned hwf hstop)

theorem version_between_results (hr : (system u).Reachable s) (hstop : s.AllStopped)
    (hlt : s.net.puts u.key < 2 ^ 64) :
    s.results.nok.toUInt64 ≤ version s.net.kv u.key ∧
      version s.net.kv u.key ≤ (s.results.nok + s.results.nmaybe).toUInt64 := by
  obtain ⟨nok, nmaybe, hres, hle, hbounds⟩ := results_count hr hstop
  obtain ⟨hlow, hhigh⟩ := hbounds hlt
  rw [hres, ← Int64.ofNat_add, Int64.toUInt64_ofNat', Int64.toUInt64_ofNat',
    UInt64.le_iff_toNat_le, UInt64.le_iff_toNat_le, UInt64.toNat_ofNat', UInt64.toNat_ofNat',
    Nat.mod_eq_of_lt (by omega), Nat.mod_eq_of_lt (by omega)]
  exact ⟨hlow, hhigh⟩

theorem int_version_between_results (hr : (system u).Reachable s) (hstop : s.AllStopped)
    (hlt : s.net.puts u.key < 2 ^ 63) :
    s.results.nok.toInt ≤ (version s.net.kv u.key).toNat ∧
      (version s.net.kv u.key).toNat ≤ s.results.nok.toInt + s.results.nmaybe.toInt := by
  obtain ⟨nok, nmaybe, hres, hle, hbounds⟩ := results_count hr hstop
  obtain ⟨hlow, hhigh⟩ := hbounds (by omega)
  rw [hres, Int64.toInt_ofNat_of_lt (by omega), Int64.toInt_ofNat_of_lt (by omega)]
  omega

theorem results_of_lossless (hl : (system u).ReachableWithin (fun _ l => ¬ l.Loses) s)
    (hstop : s.AllStopped) :
    s.results.nmaybe = 0 ∧ version s.net.kv u.key = s.results.nok.toUInt64 := by
  have hr := hl.reachable
  have hnet := net_reachable hr
  have hwf := Clerk.WellFormed.of_reachable hnet
  have hserved := Clerk.Served.of_reachable hnet
  have hcount := Clerk.Counted.of_reachable hnet
  have honce := sentOnce_of_lossless hl
  obtain ⟨hnok, hnmaybe⟩ := (Tallied.of_reachable hr).results hstop
  constructor
  · rw [hnmaybe, honce.returned_errMaybe hwf hserved hcount, Finset.card_empty]
    rfl
  · rw [hnok, Int64.toUInt64_ofNat']
    exact honce.version_eq hwf hserved hcount ((Sound.of_reachable hr).puts_returned hwf hstop)

/-- The results bound the version: read as versions, as CheckPutConcurrent reads them, while
fewer than 2^64 Put RPCs were sent on the key, and as ints while fewer than 2^63 were. -/
theorem put_accounting (u : Setup ι) (s : State ι) (hr : (system u).Reachable s) :
    (∀ c f, s.pc c ≠ .fatal f) ∧
    (s.AllStopped → s.net.puts u.key < 2 ^ 64 →
      s.results.nok.toUInt64 ≤ version s.net.kv u.key ∧
      version s.net.kv u.key ≤ (s.results.nok + s.results.nmaybe).toUInt64) ∧
    (s.AllStopped → s.net.puts u.key < 2 ^ 63 →
      s.results.nok.toInt ≤ (version s.net.kv u.key).toNat ∧
      (version s.net.kv u.key).toNat ≤ s.results.nok.toInt + s.results.nmaybe.toInt) ∧
    ((system u).ReachableWithin (fun _ l => ¬ l.Loses) s → s.AllStopped →
      s.results.nmaybe = 0 ∧ version s.net.kv u.key = s.results.nok.toUInt64 ∧
      (s.net.puts u.key < 2 ^ 63 → (version s.net.kv u.key).toNat = s.results.nok.toInt)) := by
  refine ⟨?_, ?_, ?_, ?_⟩
  · intro c f hpc
    have hknown := (Sound.of_reachable hr).known c
    rw [hpc] at hknown
    exact hknown
  · intro hstop hlt
    exact version_between_results hr hstop hlt
  · intro hstop hlt
    exact int_version_between_results hr hstop hlt
  · intro hlossless hstop
    obtain ⟨hzero, hversion⟩ := results_of_lossless hlossless hstop
    refine ⟨hzero, hversion, fun hlt => ?_⟩
    have hle := int_version_between_results hr hstop hlt
    rw [hzero, Int64.toInt_zero] at hle
    omega

/-- Two clients and the key "k". -/
def twoClients : Setup Bool where
  key := "k"
  codec := EntryJson.entryCodec
  me c := if c then 1 else 0

/-- The RPCs of a clerk call that is answered at once. -/
def answered (c : Bool) (op : KvOp) (rid : ℕ) : List (Label Bool) :=
  [.clerk (.invoke c op), .clerk (.send c), .clerk (.enqueue rid), .clerk .serve,
    .clerk (.deliver c)]

/-- The reply to the first Put is lost and its resend is refused: ErrMaybe. The
other client then puts at version 0, is refused, and puts at version 1. -/
def maybeThenOk : List (Label Bool) :=
  let put (id : ℤ) (v : Tversion) : KvOp :=
    .put ⟨"k", EntryJson.entryCodec.marshal ⟨id, v⟩, v⟩
  [.start false, .default false, .clerk (.invoke false (put 0 0)), .clerk (.send false),
    .clerk (.enqueue 0), .clerk .serve, .clerk (.fail false), .clerk (.send false),
    .clerk (.enqueue 1), .clerk .serve, .clerk (.deliver false)] ++
  answered false (.get ⟨"k"⟩) 2 ++ [.done false, .start true, .default true] ++
  answered true (put 1 0) 3 ++ answered true (.get ⟨"k"⟩) 4 ++
  answered true (put 1 1) 5 ++ answered true (.get ⟨"k"⟩) 6 ++ [.done true]

instance (s : State ι) : Decidable s.AllStopped :=
  inferInstanceAs (Decidable (∀ c, s.pc c = .idle ∨ s.pc c = .stopped))

/-- The second client reads the version that the first has put, and both puts count. -/
def bothOk : List (Label Bool) :=
  let put (id : ℤ) (v : Tversion) : KvOp :=
    .put ⟨"k", EntryJson.entryCodec.marshal ⟨id, v⟩, v⟩
  [.start false, .default false] ++ answered false (put 0 0) 0 ++
  answered false (.get ⟨"k"⟩) 1 ++ [.done false, .start true, .default true] ++
  answered true (put 1 0) 2 ++ answered true (.get ⟨"k"⟩) 3 ++
  answered true (put 1 1) 4 ++ answered true (.get ⟨"k"⟩) 5 ++ [.done true]

set_option maxRecDepth 8000 in
theorem put_accounting_maybeThenOk :
    (∃ s : State Bool, (system twoClients).Reachable s ∧ s.AllStopped ∧
      s.net.puts "k" < 2 ^ 63 ∧ s.results = ⟨1, 1⟩ ∧
      1 ≤ version s.net.kv "k" ∧ version s.net.kv "k" ≤ 2 ∧
      (1 : ℤ) ≤ (version s.net.kv "k").toNat ∧ (version s.net.kv "k").toNat ≤ (1 + 1 : ℤ)) ∧
    ∃ s : State Bool, (system twoClients).ReachableWithin (fun _ l => ¬ l.Loses) s ∧
      s.AllStopped ∧ s.results = ⟨2, 0⟩ ∧ version s.net.kv "k" = 2 := by
  constructor
  · obtain ⟨s, hr, hp⟩ := System.Reachable.of_run_check (S := system twoClients) maybeThenOk rfl
      (p := fun s => decide (s.AllStopped ∧ s.net.puts "k" < 2 ^ 63 ∧ s.results = ⟨1, 1⟩))
      (by decide +kernel)
    obtain ⟨hstop, hputs, hres⟩ := of_decide_eq_true hp
    obtain ⟨_, hversions, hints, _⟩ := put_accounting twoClients s hr
    have hle := hversions hstop (Nat.lt_trans hputs (by decide))
    have hle' := hints hstop hputs
    rw [hres] at hle hle'
    exact ⟨s, hr, hstop, hputs, hres, hle.1, hle.2, hle'.1, hle'.2⟩
  · obtain ⟨s, ⟨s₀, hs₀, hreach⟩, hp⟩ := System.Reachable.of_run_check
      (S := (system twoClients).guard fun _ l => ¬ l.Loses) bothOk rfl
      (p := fun s => decide (s.AllStopped ∧ s.results = ⟨2, 0⟩)) (by decide +kernel)
    obtain ⟨hstop, hres⟩ := of_decide_eq_true hp
    have hl : (system twoClients).ReachableWithin (fun _ l => ¬ l.Loses) s :=
      ⟨s₀, hs₀, hreach.within⟩
    obtain ⟨_, _, _, hlossless⟩ := put_accounting twoClients s hl.reachable
    obtain ⟨_, hversion, _⟩ := hlossless hl hstop
    rw [hres] at hversion
    exact ⟨s, hl, hstop, hres, hversion⟩

/-- The only client, at `pc`. -/
def alone (net : Clerk.State Unit) (pc : Pc) (res : ClntRes) : State Unit :=
  ⟨net, fun _ => pc, fun _ => res⟩

/-- The first RPC of the Put is applied and its reply lost; after 2^64 more
sends Put's counter is 1 again, so a refusal counts as one of a first RPC. -/
theorem reaches_forgotten_put (u : Setup Unit) :
    ∃ net, (system u).Reaches initial (alone net (.get 0 .errVersion) ⟨0, 0⟩) ∧
      net.kv u.key = some ⟨u.codec.marshal ⟨u.me (), 0⟩, 1⟩ ∧ Quiet net () := by
  let op : KvOp := .put ⟨u.key, u.codec.marshal ⟨u.me (), 0⟩, 0⟩
  have hstart : (system u).Reaches initial (alone Clerk.initial (.put 0) ⟨0, 0⟩) :=
    System.reaches_of_run _ [.start (), .default ()] rfl
  have hinvoke : (system u).Reaches (alone Clerk.initial (.put 0) ⟨0, 0⟩)
      (alone (Clerk.initial.invoke () op) (.put 0) ⟨0, 0⟩) := reaches_invoke rfl rfl
  have hcall : (alone (Clerk.initial.invoke () op) (.put 0) ⟨0, 0⟩).net.clerks () =
      some ⟨0, op, 0, none⟩ := rfl
  obtain ⟨net₁, hreach₁, hkv₁, hq₁, hcall₁⟩ := reaches_lost_reply (u := u) hcall rfl rfl
  obtain ⟨net₂, hreach₂, hkv₂, hq₂, hcall₂⟩ := reaches_resend (u := u)
    (s := alone net₁ (.put 0) ⟨0, 0⟩) hcall₁ rfl (2 ^ 64 - 1)
  have hentry : net₂.kv u.key = some ⟨u.codec.marshal ⟨u.me (), 0⟩, 1⟩ := by
    rw [hkv₂]
    change net₁.kv u.key = _
    rw [hkv₁]
    simp [alone, op, serve, KVServer.put, Clerk.initial, emptyKv]
  have hserve : serve net₂.kv op = (net₂.kv, .put ⟨.errVersion⟩) := by
    simp [serve, op, KVServer.put, hentry]
  have hfin : Clerk.Call.finish ⟨0, op, 0 + 1 + UInt64.ofNat (2 ^ 64 - 1) + 1, none⟩
      (serve net₂.kv op).2 = some (.put ⟨.errVersion⟩) := by
    rw [hserve]
    rfl
  obtain ⟨net₃, hreach₃, hkv₃, hquiet⟩ := reaches_answer (u := u)
    (s := alone net₂ (.put 0) ⟨0, 0⟩) hcall₂ rfl (hq₂.trans hq₁) hfin
  refine ⟨net₃, hstart.trans (hinvoke.trans (hreach₁.trans (hreach₂.trans hreach₃))), ?_, hquiet⟩
  rw [hkv₃]
  exact (congrArg (fun r => r.1 u.key) hserve).trans hentry

/-- The client goes on from there: it reads version 1, puts at it and stops. -/
theorem reaches_uncounted_put (u : Setup Unit) :
    ∃ net, (system u).Reaches initial (alone net .stopped ⟨1, 0⟩) ∧
      version net.kv u.key = 2 := by
  obtain ⟨net₁, hreach₁, hkv₁, hquiet₁⟩ := reaches_forgotten_put u
  obtain ⟨net₂, hreach₂, hkv₂, hquiet₂⟩ := reaches_get (u := u)
    (s := alone net₁ (.get 0 .errVersion) ⟨0, 0⟩) rfl hquiet₁ hkv₁
  rw [onePut_get] at hreach₂
  have hentry₂ : net₂.kv u.key = some ⟨u.codec.marshal ⟨u.me (), 0⟩, 1⟩ := by
    rw [hkv₂]
    exact hkv₁
  have hversion : version net₂.kv u.key = 1 := by simp [version, hentry₂]
  obtain ⟨net₃, hreach₃, hkv₃, hquiet₃⟩ := reaches_put (u := u)
    (s := alone net₂ (.put 1) ⟨0, 0⟩) rfl hquiet₂ hversion
  obtain ⟨net₄, hreach₄, hkv₄, hquiet₄⟩ := reaches_get (u := u)
    (s := alone net₃ (.get 1 .ok) ⟨0, 0⟩) rfl hquiet₃ hkv₃
  rw [onePut_get] at hreach₄
  refine ⟨net₄, hreach₁.trans (hreach₂.trans (hreach₃.trans (hreach₄.trans
    (System.reaches_of_run _ [.done ()] rfl)))), ?_⟩
  have hentry₄ : net₄.kv u.key = some ⟨u.codec.marshal ⟨u.me (), 1⟩, 1 + 1⟩ := by
    rw [hkv₄]
    exact hkv₃
  simp only [version, hentry₄]
  rfl

theorem version_exceeds_results :
    ¬ ∀ (u : Setup Unit) (s : State Unit), (system u).Reachable s → s.AllStopped →
      s.results.nok.toInt ≤ (version s.net.kv u.key).toNat ∧
        (version s.net.kv u.key).toNat ≤ s.results.nok.toInt + s.results.nmaybe.toInt := by
  intro hall
  obtain ⟨net, hreach, hversion⟩ := reaches_uncounted_put ⟨"k", EntryJson.entryCodec, fun _ => 0⟩
  obtain ⟨_, hle⟩ := hall _ _ ⟨initial, rfl, hreach⟩ fun _ => Or.inr rfl
  have hres : (alone net .stopped ⟨1, 0⟩).results = ⟨1, 0⟩ := rfl
  change ((version net.kv _).toNat : ℤ) ≤ _ at hle
  rw [hversion, hres] at hle
  exact absurd hle (by decide)

end DistributedLabs.KvTest
