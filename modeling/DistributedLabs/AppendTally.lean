import DistributedLabs.AppendRuns

/-!
The entries of a client in the stored list against what it has counted. Its
appends number 0, 1, 2, ...; an entry can only be that of an append it has
counted, or of the Put in progress if that has been applied, and every append
that ended OK has its entry.
-/
namespace DistributedLabs.KvAppend

open KVServer KvTest Transition Tables

variable {nclnt : ℕ}

/-- How the Put of an append ends. -/
def outcome (ok : Bool) : Err := if ok then .ok else .errMaybe

/-- The appends of a client that ended OK, or ErrMaybe. -/
def State.ended (s : State nclnt) (ok : Bool) (c : Fin nclnt) : ℕ :=
  (s.net.returnedBy key (outcome ok) (some c)).card

/-- The number of the next append of a client. -/
def State.iter (s : State nclnt) (c : Fin nclnt) : ℕ := s.ended true c + s.ended false c

def Pc.iteration : Pc → Option ℕ
  | .select i => some i
  | .get i => some i
  | .put i _ _ => some i
  | .idle => none
  | .stopped => none
  | .fatal _ => none

/-- The entries of a client. -/
def entriesOf (c : Fin nclnt) (log : List Entry) : List Entry :=
  log.filter fun e => e.id = (c : ℤ)

/-- The Put in progress has been applied. -/
def Current (s : State nclnt) (c : Fin nclnt) : Prop :=
  ∃ call, s.net.clerks (some c) = some call ∧ call.opId ∈ s.net.appliedOps key

structure Tally (s : State nclnt) (log : List Entry) (c : Fin nclnt) : Prop where
  below : ∀ e ∈ entriesOf c log,
    0 ≤ e.n ∧ (e.n < s.iter c ∨ e.n = s.iter c ∧ Current s c)
  mine : Current s c → ⟨c, s.iter c⟩ ∈ entriesOf c log
  increasing : (entriesOf c log).Pairwise fun e e' => e.n < e'.n
  enough : s.ended true c ≤ (entriesOf c log).countP fun e => e.n < (s.iter c : ℤ)

structure Tallied (u : Codec) (s : State nclnt) : Prop where
  counter : ∀ c i, (s.pc c).iteration = some i → i = s.iter c
  counted : ∀ c, s.res c = ⟨Int64.ofNat (s.ended true c), Int64.ofNat (s.ended false c)⟩
  fresh : ∀ c, s.pc c = .idle → ∀ ok, s.ended ok c = 0
  ids : ∀ log, Stored u s.net.kv log → ∀ e ∈ log, ∃ c : Fin nclnt, e.id = c
  tally : ∀ log, Stored u s.net.kv log → ∀ c, Tally s log c

variable {u : Codec} {s t : State nclnt}

theorem State.iter_congr {c : Fin nclnt} (hended : ∀ ok, t.ended ok c = s.ended ok c) :
    t.iter c = s.iter c := by
  rw [State.iter, hended, hended, State.iter]

theorem State.iter_counted {c : Fin nclnt} {ok : Bool}
    (hended : ∀ ok', t.ended ok' c = s.ended ok' c + if ok' = ok then 1 else 0) :
    t.iter c = s.iter c + 1 := by
  rw [State.iter, hended, hended, State.iter]
  cases ok
  · exact (Nat.add_assoc _ _ _).symm
  · exact Nat.add_right_comm _ _ _

theorem Tally.congr {log : List Entry} {c : Fin nclnt} (h : Tally s log c)
    (hended : ∀ ok, t.ended ok c = s.ended ok c) (hcur : Current t c ↔ Current s c) :
    Tally t log c := by
  have hiter := State.iter_congr hended
  constructor
  · rw [hiter, hcur]
    exact h.below
  · rw [hiter, hcur]
    exact h.mine
  · exact h.increasing
  · rw [hiter, hended]
    exact h.enough

/-- Only a Put can have been applied. -/
theorem Current.put (hs : Sound u s) (hwf : Clerk.WellFormed s.net) {c : Fin nclnt}
    (h : Current s c) : ∃ i es ver, s.pc c = .put i es ver := by
  obtain ⟨call, hcall, hmem⟩ := h
  obtain ⟨e, he, hputs, _, hid⟩ := Clerk.mem_appliedOps.mp hmem
  have heop : e.op = call.op := hwf.req_call_op hcall (hwf.exec_req e he).1 hid
  rw [heop] at hputs
  have hop : u.op (s.pc c) = some call.op := hs.call_op (some c) call hcall
  cases hpc : s.pc c with
  | put i es ver => exact ⟨i, es, ver, rfl⟩
  | get i =>
    have hget : call.op = .get ⟨key⟩ := by simpa [hpc, Codec.op] using hop.symm
    simp [hget, KvOp.PutsOn] at hputs
  | _ => simp [hpc, Codec.op] at hop

/-- The request that extends the list belongs to the Put in progress, which had
not been applied before. -/
theorem Sound.appended_current (hs : Sound u s) (ht : Tallied u s)
    (hwf : Clerk.WellFormed s.net) (hcount : Clerk.Counted s.net)
    (hb : s.net.puts key < 2 ^ 64) {q : Clerk.Request} {d : Fin nclnt} {e : Entry}
    {log : List Entry} {t : ℕ} (hinv : s.net.ops[q.opId]? = some ⟨some d, q.op, t⟩)
    (hlog : Stored u s.net.kv log)
    (hop : q.op = .put ⟨key, u.marshal (log ++ [e]), verOf log⟩) :
    e = ⟨d, s.iter d⟩ ∧ ¬ Current s d ∧
      ∃ call, s.net.clerks (some d) = some call ∧ call.opId = q.opId := by
  -- an execution of this operation would have left its version behind
  have hnone : ∀ x ∈ s.net.execs, x.opId ≠ q.opId := by
    intro x hx heq
    have hxop := hwf.exec_op_eq hx (heq ▸ hinv)
    obtain ⟨⟨log', hlog', hle⟩, _⟩ := hs.executed x hx _ (hxop.trans hop) rfl
    obtain rfl := hlog.unique hlog'
    rw [toNat_verOf (hs.length_lt hwf hb hlog)] at hle
    omega
  have hopen : s.net.rets q.opId = none := by
    by_contra hret
    obtain ⟨ret, hret⟩ := Option.ne_none_iff_exists'.mp hret
    obtain ⟨x, hx, _, _, hxid, _⟩ := hcount.ret_i q.opId ret hret
    exact hnone x hx hxid
  obtain ⟨call, hcall, hcallid⟩ := hwf.op_open q.opId _ hinv hopen
  obtain ⟨_, t', ht'⟩ := hwf.clerk_op (some d) call hcall
  rw [hcallid, hinv] at ht'
  have hcallop : call.op = q.op :=
    (congrArg Clerk.Invocation.op (Option.some.inj ht')).symm
  refine ⟨?_, ?_, call, hcall, hcallid⟩
  · have hallowed : u.op (s.pc d) = some call.op := hs.call_op (some d) call hcall
    rw [hcallop, hop] at hallowed
    cases hpc : s.pc d with
    | put i es ver =>
      simp only [hpc, Codec.op, Option.some.injEq, KvOp.put.injEq, PutArgs.mk.injEq,
        true_and] at hallowed
      have hes := u.marshal_injective hallowed.1
      have hknown := hs.known d
      rw [hpc] at hknown
      obtain ⟨es', _, hes', _⟩ := hknown
      have hi := ht.counter d i (by rw [hpc]; rfl)
      obtain ⟨_, hlast⟩ := List.append_inj' (hes.symm.trans hes') rfl
      rw [List.cons.inj hlast |>.1, ← hi]
    | _ => simp [hpc, Codec.op] at hallowed
  · rintro ⟨call', hcall', hmem⟩
    obtain rfl := Option.some.inj (hcall'.symm.trans hcall)
    obtain ⟨x, hx, _, _, hxid⟩ := Clerk.mem_appliedOps.mp hmem
    exact hnone x hx (hxid.trans hcallid)

/-- Serving a request of another client's call does not matter to a client. -/
theorem current_inner {net : Clerk.State (Clnt nclnt)} (h : Clerk.Inner s.net net) {c : Fin nclnt}
    (happ : ∀ call, s.net.clerks (some c) = some call →
      (call.opId ∈ net.appliedOps key ↔ call.opId ∈ s.net.appliedOps key)) :
    Current { s with net } c ↔ Current s c := by
  constructor
  · rintro ⟨call, hcall, hmem⟩
    obtain ⟨call', hcall', hid, _⟩ := h.call_before hcall
    exact ⟨call', hcall', (happ call' hcall').mp (hid ▸ hmem)⟩
  · rintro ⟨call, hcall, hmem⟩
    obtain ⟨call', hcall', hid, _⟩ := h.call_after hcall
    exact ⟨call', hcall', hid ▸ (happ call hcall).mpr hmem⟩

theorem mem_appliedOps_served {net : Clerk.State (Clnt nclnt)} {rid : ℕ} {q : Clerk.Request}
    (hexecs : net.execs = s.net.execs ++
      [⟨rid, q.opId, q.op, (serve s.net.kv q.op).2, s.net.clock⟩]) (o : ℕ) :
    o ∈ net.appliedOps key ↔ o ∈ s.net.appliedOps key ∨
      (q.op.PutsOn key = true ∧ (serve s.net.kv q.op).2.Applied) ∧ o = q.opId := by
  simp only [Clerk.mem_appliedOps, hexecs, List.mem_append, List.mem_singleton]
  constructor
  · rintro ⟨e, he | rfl, hputs, happ, rfl⟩
    · exact Or.inl ⟨e, he, hputs, happ, rfl⟩
    · exact Or.inr ⟨⟨hputs, happ⟩, rfl⟩
  · rintro (⟨e, he, hputs, happ, rfl⟩ | ⟨⟨hputs, happ⟩, rfl⟩)
    · exact ⟨e, Or.inl he, hputs, happ, rfl⟩
    · exact ⟨_, Or.inr rfl, hputs, happ, rfl⟩

/-- The client whose request is served gains its entry. -/
theorem Tally.append {log : List Entry} {d : Fin nclnt} (h : Tally s log d)
    (hended : ∀ ok, t.ended ok d = s.ended ok d) (hold : ¬ Current s d)
    (hnew : Current t d) : Tally t (log ++ [⟨d, s.iter d⟩]) d := by
  have hiter := State.iter_congr hended
  have hentries : entriesOf d (log ++ [⟨d, s.iter d⟩]) =
      entriesOf d log ++ [⟨d, s.iter d⟩] := by
    simp [entriesOf]
  have hlt : ∀ e ∈ entriesOf d log, 0 ≤ e.n ∧ e.n < s.iter d := by
    intro e he
    obtain ⟨hpos, hn | ⟨_, hcur⟩⟩ := h.below e he
    · exact ⟨hpos, hn⟩
    · exact absurd hcur hold
  constructor
  · rw [hentries, hiter]
    intro e he
    rcases List.mem_append.mp he with he | he
    · obtain ⟨hpos, hn⟩ := hlt e he
      exact ⟨hpos, Or.inl hn⟩
    · obtain rfl := List.mem_singleton.mp he
      exact ⟨Int.natCast_nonneg _, Or.inr ⟨rfl, hnew⟩⟩
  · intro _
    rw [hentries, hiter]
    exact List.mem_append_right _ (List.mem_singleton_self _)
  · rw [hentries, List.pairwise_append]
    refine ⟨h.increasing, List.pairwise_singleton _ _, ?_⟩
    intro e he e' he'
    obtain rfl := List.mem_singleton.mp he'
    exact (hlt e he).2
  · rw [hentries, hiter, hended, List.countP_append]
    exact Nat.le_add_right_of_le h.enough

theorem Tally.append_other {log : List Entry} {c : Fin nclnt} {e : Entry} (h : Tally s log c)
    (hid : e.id ≠ c) (hended : ∀ ok, t.ended ok c = s.ended ok c)
    (hcur : Current t c ↔ Current s c) : Tally t (log ++ [e]) c := by
  have hentries : entriesOf c (log ++ [e]) = entriesOf c log := by
    simp [entriesOf, hid]
  have h' := h.congr hended hcur
  constructor
  · rw [hentries]
    exact h'.below
  · rw [hentries]
    exact h'.mine
  · rw [hentries]
    exact h'.increasing
  · rw [hentries]
    exact h'.enough

/-- The client counts an append whose Put has returned. -/
theorem Tally.counted {log : List Entry} {d : Fin nclnt} (h : Tally s log d) {ok : Bool}
    (hended : ∀ ok', t.ended ok' d = s.ended ok' d + if ok' = ok then 1 else 0)
    (hcur : ok = true → Current s d) (hnot : ¬ Current t d) : Tally t log d := by
  have hiter := State.iter_counted hended
  have hle : ∀ e ∈ entriesOf d log, e.n < s.iter d → e.n < (s.iter d + 1 : ℕ) := by
    intro e _ hn
    omega
  constructor
  · intro e he
    obtain ⟨hpos, hn⟩ := h.below e he
    refine ⟨hpos, Or.inl ?_⟩
    rw [hiter]
    rcases hn with hn | ⟨hn, _⟩
    · exact hle e he hn
    · omega
  · exact fun hcur => absurd hcur hnot
  · exact h.increasing
  · rw [hiter, hended]
    cases ok with
    | false =>
      refine h.enough.trans (List.countP_mono_left ?_)
      intro e he hn
      exact decide_eq_true (hle e he (of_decide_eq_true hn))
    | true =>
      refine (Nat.succ_le_succ h.enough).trans (countP_succ_le (h.mine (hcur rfl)) ?_ ?_ ?_)
      · intro e he hn
        exact decide_eq_true (hle e he (of_decide_eq_true hn))
      · simp
      · simp

section Returned

variable {net : Clerk.State (Clnt nclnt)} {c : Clnt nclnt} {call : Clerk.Call} {rid : ℕ}
  {res : KvReply} (hnet : t.net = s.net.finish c call rid res)

include hnet

/-- A call that has returned is no longer in progress. -/
theorem not_current_finish {d : Fin nclnt} (hd : c = some d) : ¬ Current t d := by
  rintro ⟨call', hcall', _⟩
  rw [hnet, hd] at hcall'
  simp at hcall'

theorem current_finish {d : Fin nclnt} (hd : c ≠ some d) : Current t d ↔ Current s d := by
  unfold Current
  rw [hnet]
  simp only [Clerk.State.finish_clerks, Function.update_of_ne (Ne.symm hd)]
  rfl

theorem ended_finish (hwf : Clerk.WellFormed s.net) (hcall : s.net.clerks c = some call)
    (ok : Bool) (d : Fin nclnt) :
    t.ended ok d = s.ended ok d +
      if some d = c ∧ call.op.PutsOn key = true ∧ res = .put ⟨outcome ok⟩ then 1 else 0 := by
  rw [State.ended, hnet]
  exact Clerk.card_returnedBy_finish hwf hcall rid res (some d)

end Returned

namespace Tallied

theorem initial : Tallied u (initial : State nclnt) where
  counter c i h := by simp [KvAppend.initial, Pc.iteration] at h
  counted c := rfl
  fresh c h ok := rfl
  ids log h := by simp [Stored, KvAppend.initial, Clerk.initial, emptyKv] at h
  tally log h := by simp [Stored, KvAppend.initial, Clerk.initial, emptyKv] at h

theorem jump (hs : Tallied u s) {c : Fin nclnt} {pc : Pc} (hidle : pc ≠ .idle)
    (hpc : ∀ i, pc.iteration = some i → i = s.iter c) : Tallied u (s.jump c pc) where
  counter d i h := by
    by_cases hd : d = c
    · subst hd
      exact hpc i (by simpa [State.jump] using h)
    · exact hs.counter d i (by simpa [State.jump, hd] using h)
  counted := hs.counted
  fresh d h := by
    have hd : d ≠ c := by
      rintro rfl
      exact hidle (by simpa [State.jump] using h)
    exact hs.fresh d (by simpa [State.jump, hd] using h)
  ids := hs.ids
  tally log hlog d := (hs.tally log hlog d).congr (fun _ => rfl) Iff.rfl

/-- The clerks go on and no Put ends; `tally` is left to show. -/
theorem frame (hs : Tallied u s) {net : Clerk.State (Clnt nclnt)}
    (hended : ∀ ok c, State.ended { s with net } ok c = s.ended ok c)
    (hids : ∀ log, Stored u net.kv log → ∀ e ∈ log, ∃ c : Fin nclnt, e.id = c)
    (htally : ∀ log, Stored u net.kv log → ∀ c, Tally { s with net } log c) :
    Tallied u { s with net } where
  counter c i h := (hs.counter c i h).trans (State.iter_congr fun ok => hended ok c).symm
  counted c := by
    rw [hended, hended]
    exact hs.counted c
  fresh c h ok := (hended ok c).trans (hs.fresh c h ok)
  ids := hids
  tally := htally

theorem invoke (hs : Tallied u s) (hwf : Clerk.WellFormed s.net) {c : Clnt nclnt} {op : KvOp}
    (hidle : s.net.clerks c = none) : Tallied u { s with net := s.net.invoke c op } := by
  have hended : ∀ ok d, State.ended { s with net := s.net.invoke c op } ok d =
      s.ended ok d := by
    intro ok d
    rw [State.ended, Clerk.returnedBy_invoke hwf]
    rfl
  refine hs.frame hended hs.ids ?_
  intro log hlog d
  refine (hs.tally log hlog d).congr (fun ok => hended ok d) ?_
  constructor
  · rintro ⟨call, hcall, hmem⟩
    rcases update_eq_some hcall with ⟨_, hv⟩ | ⟨_, hold⟩
    · -- the new call has no execution yet
      obtain rfl := Option.some.inj hv
      obtain ⟨e, he, _, _, hid⟩ := Clerk.mem_appliedOps.mp hmem
      have hlt := hwf.req_opId_lt (hwf.exec_req e he).1
      exact absurd hid (Nat.ne_of_lt hlt)
    · exact ⟨call, hold, hmem⟩
  · rintro ⟨call, hcall, hmem⟩
    have hne : some d ≠ c := by
      rintro rfl
      rw [hidle] at hcall
      cases hcall
    exact ⟨call, by simpa [hne] using hcall, hmem⟩

theorem ended_inner {net : Clerk.State (Clnt nclnt)} (h : Clerk.Inner s.net net) (ok : Bool)
    (c : Fin nclnt) : State.ended { s with net } ok c = s.ended ok c := by
  rw [State.ended, Clerk.returnedBy_congr h.ops_eq h.rets_eq]
  rfl

/-- Before the list is created no client runs. -/
theorem tally_nil (hs : Tallied u s) (hsound : Sound u s) (hnone : s.net.kv key = none)
    {net : Clerk.State (Clnt nclnt)} (h : Clerk.Inner s.net net) (c : Fin nclnt) :
    Tally { s with net } [] c := by
  have hidle : s.pc c = .idle := by
    have hknown := hsound.known c
    cases hpc : s.pc c with
    | idle => rfl
    | put i es ver =>
      rw [hpc] at hknown
      obtain ⟨_, ⟨log, hlog, _⟩, _⟩ := hknown
      exact absurd hnone hlog.present
    | fatal f =>
      rw [hpc] at hknown
      exact hknown.elim
    | _ =>
      rw [hpc] at hknown
      exact absurd hnone hknown
  have hzero := hs.fresh c hidle true
  have hcall := hsound.no_call (c := c) (by rw [hidle]; rfl)
  constructor
  · intro e he
    cases he
  · rintro ⟨call, hsome, _⟩
    obtain ⟨call', hsome', _⟩ := h.call_before hsome
    rw [hcall] at hsome'
    cases hsome'
  · exact List.Pairwise.nil
  · rw [ended_inner h, hzero]
    exact Nat.zero_le _

theorem served (hs : Tallied u s) (hsound : Sound u s) (hwf : Clerk.WellFormed s.net)
    (hcount : Clerk.Counted s.net) (hb : s.net.puts key < 2 ^ 64)
    {net : Clerk.State (Clnt nclnt)} (h : Clerk.Inner s.net net)
    {rid : ℕ} {q : Clerk.Request} (hreq : s.net.reqs[rid]? = some q)
    (hkv : net.kv = (serve s.net.kv q.op).1)
    (hexecs : net.execs = s.net.execs ++
      [⟨rid, q.opId, q.op, (serve s.net.kv q.op).2, s.net.clock⟩]) :
    Tallied u { s with net } := by
  have hmem := mem_appliedOps_served hexecs
  have heffect := hsound.effect hwf hb hreq
  refine hs.frame (ended_inner h) ?_ ?_
  · intro log hlog e he
    have hstored : Stored u (serve s.net.kv q.op).1 log := hkv ▸ hlog
    cases heffect with
    | unchanged heq => exact hs.ids log (heq.symm.trans hstored) e he
    | created hnone hop hnil =>
      obtain rfl := hnil.unique hstored
      cases he
    | appended d e' log' t hinv hid hlog' hop hnew =>
      obtain rfl := hnew.unique hstored
      rcases List.mem_append.mp he with he | he
      · exact hs.ids log' hlog' e he
      · obtain rfl := List.mem_singleton.mp he
        exact ⟨d, hid⟩
  · intro log hlog c
    have hstored : Stored u (serve s.net.kv q.op).1 log := hkv ▸ hlog
    cases heffect with
    | unchanged heq hargs =>
      have hnot : ¬ (q.op.PutsOn key = true ∧ (serve s.net.kv q.op).2.Applied) := by
        rw [← isSome_appliedArgs, hargs]
        exact Bool.false_ne_true
      refine (hs.tally log (heq.symm.trans hstored) c).congr (ended_inner h · c)
        (current_inner h fun call _ => ?_)
      simp [hmem, hnot]
    | created hnone hop hnil happ =>
      obtain rfl := hnil.unique hstored
      exact hs.tally_nil hsound hnone h c
    | appended d e log' t hinv hid hlog' hop hnew happ =>
      obtain rfl := hnew.unique hstored
      obtain ⟨rfl, hold, call, hcall, hcallid⟩ :=
        hsound.appended_current hs hwf hcount hb hinv hlog' hop
      have htally := hs.tally log' hlog' c
      by_cases hc : c = d
      · subst hc
        obtain ⟨call', hcall', hid', _⟩ := h.call_after hcall
        refine htally.append (ended_inner h · c) hold
          ⟨call', hcall', (hmem _).mpr (Or.inr ⟨⟨?_, happ⟩, ?_⟩)⟩
        · simp [hop, KvOp.PutsOn]
        · rw [hid', hcallid]
      · refine htally.append_other ?_ (ended_inner h · c) (current_inner h fun call₁ hcall₁ => ?_)
        · simpa [Fin.ext_iff, eq_comm] using hc
        · have hne : call₁.opId ≠ q.opId := by
            intro heq
            exact hc (Option.some.inj (hwf.call_unique hcall₁ hcall (heq.trans hcallid.symm)))
          simp [hmem, hne]

theorem inner (hs : Tallied u s) (hsound : Sound u s) (hwf : Clerk.WellFormed s.net)
    (hcount : Clerk.Counted s.net) (hb : s.net.puts key < 2 ^ 64)
    {net : Clerk.State (Clnt nclnt)} (h : Clerk.Inner s.net net) :
    Tallied u { s with net } := by
  rcases h.served with ⟨hkv, hexecs⟩ | ⟨rid, q, hreq, hkv, hexecs⟩
  · refine hs.frame (ended_inner h) (hkv ▸ hs.ids) ?_
    intro log hlog c
    have hold : Stored u s.net.kv log := hkv ▸ hlog
    refine (hs.tally log hold c).congr (ended_inner h · c) (current_inner h fun call _ => ?_)
    simp only [Clerk.mem_appliedOps, hexecs]
  · exact hs.served hsound hwf hcount hb h hreq hkv hexecs

/-- A call has returned that ended no append; the code behind its clerk is to go on. -/
theorem returned (hs : Tallied u s) (hwf : Clerk.WellFormed s.net) {c : Clnt nclnt}
    {call : Clerk.Call} (rid : ℕ) (res : KvReply) (hcall : s.net.clerks c = some call)
    (hres : ∀ ok, c ≠ none → res ≠ .put ⟨outcome ok⟩)
    (hcur : ∀ d, c = some d → ¬ Current s d) :
    Tallied u { s with net := s.net.finish c call rid res } := by
  have hended : ∀ ok d, State.ended { s with net := s.net.finish c call rid res } ok d =
      s.ended ok d := by
    intro ok d
    rw [ended_finish (s := s) rfl hwf hcall, if_neg, Nat.add_zero]
    rintro ⟨rfl, _, heq⟩
    exact hres ok (by simp) heq
  refine hs.frame hended hs.ids fun log hlog d => ?_
  refine (hs.tally log hlog d).congr (fun ok => hended ok d) ?_
  by_cases hd : c = some d
  · exact iff_of_false (not_current_finish rfl hd) (hcur d hd)
  · exact current_finish rfl hd

theorem ret_counted (hs : Tallied u s) (hwf : Clerk.WellFormed s.net) {d : Fin nclnt}
    {call : Clerk.Call} {rid : ℕ} (ok : Bool) {i : ℕ}
    (hcall : s.net.clerks (some d) = some call) (hputs : call.op.PutsOn key = true)
    (hi : i = s.iter d) (hcur : ok = true → Current s d) :
    Tallied u (({ s with net := s.net.finish (some d) call rid (.put ⟨outcome ok⟩) }.jump d
      (.select (i + 1))).count d ok) := by
  let t := ({ s with net := s.net.finish (some d) call rid (.put ⟨outcome ok⟩) }.jump d
    (.select (i + 1))).count d ok
  have hmine : ∀ ok', t.ended ok' d = s.ended ok' d + if ok' = ok then 1 else 0 := by
    intro ok'
    rw [ended_finish (s := s) (t := t) rfl hwf hcall]
    cases ok <;> cases ok' <;> simp [hputs, outcome]
  have hother : ∀ c, c ≠ d → ∀ ok', t.ended ok' c = s.ended ok' c := by
    intro c hc ok'
    rw [ended_finish (s := s) (t := t) rfl hwf hcall, if_neg, Nat.add_zero]
    rintro ⟨heq, _⟩
    exact hc (Option.some.inj heq)
  have hpc : ∀ c, c ≠ d → t.pc c = s.pc c := by
    intro c hc
    simp [t, State.count, State.jump, hc]
  have hiter := State.iter_counted hmine
  refine ⟨?_, ?_, ?_, hs.ids, ?_⟩
  · intro c j hj
    by_cases hc : c = d
    · subst hc
      obtain rfl : i + 1 = j := by simpa [State.count, State.jump, Pc.iteration] using hj
      exact (congrArg (· + 1) hi).trans hiter.symm
    · have hj' : (t.pc c).iteration = some j := hj
      rw [hpc c hc] at hj'
      exact (hs.counter c j hj').trans (State.iter_congr (hother c hc)).symm
  · intro c
    have hold := hs.counted c
    by_cases hc : c = d
    · subst hc
      change t.res c = ⟨Int64.ofNat (t.ended true c), Int64.ofNat (t.ended false c)⟩
      rw [hmine, hmine]
      cases ok <;> simp [t, State.count, State.jump, hold, Int64.ofNat_add]
    · change t.res c = ⟨Int64.ofNat (t.ended true c), Int64.ofNat (t.ended false c)⟩
      rw [hother c hc, hother c hc, ← hold]
      simp [t, State.count, State.jump, hc]
  · intro c hidle ok'
    have hc : c ≠ d := by
      rintro rfl
      simp [State.count, State.jump] at hidle
    have hidle' : t.pc c = .idle := hidle
    rw [hpc c hc] at hidle'
    exact (hother c hc ok').trans (hs.fresh c hidle' ok')
  · intro log hlog c
    by_cases hc : c = d
    · subst hc
      exact (hs.tally log hlog c).counted hmine hcur (not_current_finish (s := s) (t := t) rfl rfl)
    · exact (hs.tally log hlog c).congr (hother c hc)
        (current_finish (s := s) (t := t) rfl (by simpa using Ne.symm hc))

theorem ret (hs : Tallied u s) (hsound : Sound u s) (hwf : Clerk.WellFormed s.net)
    {d : Fin nclnt} {call : Clerk.Call} {rid : ℕ} {res : KvReply}
    (hcall : s.net.clerks (some d) = some call) {n : Next} (h : Returns u s d call res n) :
    Tallied u ({ s with net := s.net.finish (some d) call rid res }.next d n) := by
  have hop : u.op (s.pc d) = some call.op := hsound.call_op (some d) call hcall
  have hputs : ∀ i es ver, s.pc d = .put i es ver → call.op.PutsOn key = true := by
    intro i es ver hpc
    rw [hpc] at hop
    rw [← Option.some.inj hop]
    simp [KvOp.PutsOn]
  cases h with
  | read i es hpc hseen =>
    have hs' := hs.returned hwf rid (.get ⟨u.marshal es, verOf es, .ok⟩) hcall (by simp) ?_
    · refine hs'.jump (by simp) ?_
      rintro _ ⟨⟩
      exact hs'.counter d i (by rw [hpc]; rfl)
    · rintro _ ⟨⟩ hcur
      obtain ⟨_, _, _, hput⟩ := hcur.put hsound hwf
      rw [hpc] at hput
      cases hput
  | ok i es ver hpc happ =>
    exact hs.ret_counted hwf true hcall (hputs i es ver hpc)
      (hs.counter d i (by rw [hpc]; rfl)) fun _ => ⟨call, hcall, happ⟩
  | maybe i es ver hpc =>
    exact hs.ret_counted hwf false hcall (hputs i es ver hpc)
      (hs.counter d i (by rw [hpc]; rfl)) fun h => by cases h
  | retry i es ver hpc hnot =>
    have hs' := hs.returned hwf rid (.put ⟨.errVersion⟩) hcall ?_ ?_
    · refine hs'.jump (by simp) ?_
      rintro _ ⟨⟩
      exact hs'.counter d i (by rw [hpc]; rfl)
    · intro ok _
      cases ok <;> simp [outcome]
    · rintro _ ⟨⟩ ⟨call', hcall', hmem⟩
      obtain rfl := Option.some.inj (hcall'.symm.trans hcall)
      exact hnot hmem

theorem step (hs : Tallied u s) (hsound : Sound u s) (hwf : Clerk.WellFormed s.net)
    (hserved : Clerk.Served s.net) (hcount : Clerk.Counted s.net)
    (hb : s.net.puts key < 2 ^ 64) (h : Step u s t) : Tallied u t := by
  cases h with
  | start c ver hmain hpc =>
    refine hs.jump (by simp) ?_
    rintro _ ⟨⟩
    simp [State.iter, hs.fresh c hpc]
  | done c i hpc => exact hs.jump (by simp) (by rintro _ ⟨⟩)
  | default c i hpc =>
    refine hs.jump (by simp) ?_
    rintro _ ⟨⟩
    exact hs.counter c i (by rw [hpc]; rfl)
  | call c op hop hidle => exact hs.invoke hwf hidle
  | inner net h => exact hs.inner hsound hwf hcount hb h
  | ret c call rid reply res hcall hrid hst hfin =>
    cases c with
    | none =>
      have hs' := hs.returned hwf rid res hcall (by simp) (by simp)
      exact ⟨hs'.counter, hs'.counted, hs'.fresh, hs'.ids, fun log hlog c =>
        (hs'.tally log hlog c).congr (fun _ => rfl) Iff.rfl⟩
    | some d =>
      exact hs.ret hsound hwf hcall (hsound.returns hwf hserved hcount hb hcall hrid hst hfin)

theorem of_reachable (h : (system u).Reachable s) (hb : s.net.puts key < 2 ^ 64) :
    Tallied u s := by
  refine System.Reachable.invariant_of_bound (I := Tallied u)
    (B := fun s => s.net.puts key < 2 ^ 64) ?_ ?_ ?_ h hb
  · intro s l t hstep hlt
    exact Nat.lt_of_le_of_lt ((runs u).puts_le hstep key) hlt
  · rintro s rfl
    exact initial
  · intro s l t hr hlt hs hstep
    have hlt' := Nat.lt_of_le_of_lt ((runs u).puts_le hstep key) hlt
    have hnet := net_reachable hr
    exact hs.step (Sound.of_reachable hr hlt') (Clerk.WellFormed.of_reachable hnet)
      (Clerk.Served.of_reachable hnet) (Clerk.Counted.of_reachable hnet) hlt' (step_sound hstep)

end Tallied

end DistributedLabs.KvAppend
