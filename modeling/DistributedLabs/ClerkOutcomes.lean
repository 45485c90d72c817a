import DistributedLabs.ClerkAnswers
import Mathlib.Algebra.BigOperators.Group.Finset.Basic

/-!
The outcomes of all Put calls on a key against what the server applied. Before
versions wrap, a call is applied at most once, a call that returned OK was
applied, and a call that returned ErrVersion was not. When no Call fails, no
operation is sent twice.
-/
namespace DistributedLabs.Clerk

open KVServer Transition Tables

variable {ι : Type*}

namespace State

/-- The calls of Put on `k` that have returned `err`. -/
def returned (s : State ι) (k : String) (err : Err) : Finset ℕ :=
  (Finset.range s.ops.length).filter fun o =>
    (s.ops[o]?).any (fun inv => inv.op.PutsOn k) ∧
      (s.rets o).any fun ret => ret.res = .put ⟨err⟩

/-- Those of one client. -/
def returnedBy (s : State ι) [DecidableEq ι] (k : String) (err : Err) (c : ι) : Finset ℕ :=
  (s.returned k err).filter fun o => (s.ops[o]?).any fun inv => inv.client = c

/-- The calls of Put on `k` that the server has applied. -/
def appliedOps (s : State ι) (k : String) : Finset ℕ :=
  ((s.appliedExecs k).map Exec.opId).toFinset

end State

variable {s t : State ι} {k : String}

theorem mem_returned {err : Err} {o : ℕ} :
    o ∈ s.returned k err ↔ ∃ inv ret, s.ops[o]? = some inv ∧ inv.op.PutsOn k = true ∧
      s.rets o = some ret ∧ ret.res = .put ⟨err⟩ := by
  simp only [State.returned, Finset.mem_filter, Finset.mem_range, Option.any_eq_true,
    decide_eq_true_eq]
  constructor
  · rintro ⟨_, ⟨inv, hinv, hputs⟩, ret, hret, hres⟩
    exact ⟨inv, ret, hinv, hputs, hret, hres⟩
  · rintro ⟨inv, ret, hinv, hputs, hret, hres⟩
    exact ⟨getElem?_lt hinv, ⟨inv, hinv, hputs⟩, ret, hret, hres⟩

theorem mem_appliedOps {o : ℕ} :
    o ∈ s.appliedOps k ↔
      ∃ e ∈ s.execs, e.op.PutsOn k = true ∧ e.reply.Applied ∧ e.opId = o := by
  simp only [State.appliedOps, List.mem_toFinset, List.mem_map, State.mem_appliedExecs]
  constructor
  · rintro ⟨e, ⟨he, hputs, happ⟩, rfl⟩
    exact ⟨e, he, hputs, happ, rfl⟩
  · rintro ⟨e, he, hputs, happ, rfl⟩
    exact ⟨e, ⟨he, hputs, happ⟩, rfl⟩

/-- The version of a key counts the calls that were applied to it. -/
theorem card_appliedOps (hwf : WellFormed s) (hserved : Served s)
    (hbound : s.puts k < 2 ^ 64) : (s.appliedOps k).card = (version s.kv k).toNat := by
  have hlen := Nat.lt_of_le_of_lt (hwf.applied_le_puts k) hbound
  rw [State.appliedOps, List.toFinset_card_of_nodup (appliedExecs_opId_nodup hwf hserved hbound),
    List.length_map, ← State.length_applied, hserved.kv_eq, version_replay _ hserved.answers,
    Nat.mod_eq_of_lt hlen]

/-- The RPC on whose reply a call of Put returned. -/
theorem returned_put (hwf : WellFormed s) (hserved : Served s) (hcount : Counted s) {o : ℕ}
    {inv : Invocation ι} {ret : Return} (hinv : s.ops[o]? = some inv)
    (hputs : inv.op.PutsOn k = true) (hret : s.rets o = some ret) :
    ∃ e ∈ s.execs, ∃ (call : Call) (err : Err), e.opId = o ∧ e.op = inv.op ∧
      call.i.toNat = s.sends o % 2 ^ 64 ∧ ret.res = .put ⟨err⟩ ∧
      call.finish e.reply = some (.put ⟨err⟩) := by
  obtain ⟨e, he, call, _, rfl, hi, hfin⟩ := hcount.ret_i o ret hret
  have hop := hwf.exec_op_eq he hinv
  obtain ⟨kv, hkv⟩ := hserved.exec_answer he
  cases hargs : inv.op with
  | get args => simp [hargs, KvOp.PutsOn] at hputs
  | put args =>
    rw [hop, hargs] at hkv
    have hfin' := hfin
    rw [hkv] at hfin'
    obtain ⟨err, _, herr⟩ := Option.map_eq_some_iff.mp hfin'
    exact ⟨e, he, call, err, rfl, hop.trans hargs, hi, herr.symm, by rw [hfin, herr]⟩

/-- Every call that returned was sent. -/
theorem card_returned_le (hwf : WellFormed s) (hcount : Counted s) :
    (s.returned k .ok).card + (s.returned k .errMaybe).card ≤ s.puts k := by
  have hdisjoint : Disjoint (s.returned k .ok) (s.returned k .errMaybe) := by
    refine Finset.disjoint_left.mpr ?_
    intro o ho ho'
    obtain ⟨_, ret, _, _, hret, hres⟩ := mem_returned.mp ho
    obtain ⟨_, ret', _, _, hret', hres'⟩ := mem_returned.mp ho'
    obtain rfl := Option.some.inj (hret.symm.trans hret')
    rw [hres] at hres'
    cases hres'
  have hsent : ∀ err, s.returned k err ⊆
      ((s.reqs.filter fun q => q.op.PutsOn k).map Request.opId).toFinset := by
    intro err o ho
    obtain ⟨inv, ret, hinv, hputs, hret, _⟩ := mem_returned.mp ho
    obtain ⟨e, he, _, _, rfl, _⟩ := hcount.ret_i o ret hret
    have hmem := List.mem_of_getElem? (hwf.exec_req e he).1
    refine List.mem_toFinset.mpr (List.mem_map.mpr ⟨_, List.mem_filter.mpr ⟨hmem, ?_⟩, rfl⟩)
    rw [hwf.exec_op_eq he hinv, hputs]
  rw [← Finset.card_union_of_disjoint hdisjoint]
  refine (Finset.card_le_card (Finset.union_subset (hsent .ok) (hsent .errMaybe))).trans ?_
  refine (List.toFinset_card_le _).trans ?_
  rw [List.length_map, State.puts, List.countP_eq_length_filter]

theorem returned_ok_subset (hwf : WellFormed s) (hserved : Served s) (hcount : Counted s) :
    s.returned k .ok ⊆ s.appliedOps k := by
  intro o ho
  obtain ⟨inv, ret, hinv, hputs, hret, hres⟩ := mem_returned.mp ho
  obtain ⟨e, he, call, err, hid, hop, _, herr, hfin⟩ :=
    returned_put hwf hserved hcount hinv hputs hret
  obtain rfl : err = .ok := by simpa [herr] using hres
  rcases Call.finish_put hfin with ⟨_, hreply⟩ | ⟨h, _⟩ | ⟨h, _⟩ | ⟨h, _⟩
  · exact mem_appliedOps.mpr ⟨e, he, by rw [hop, hputs], hreply, hid⟩
  · cases h
  · cases h
  · cases h

/-- A call that was applied and has returned told the application that it was,
or that it may have been, unless it said that the key is missing. -/
theorem appliedOps_subset (hwf : WellFormed s) (hserved : Served s) (hcount : Counted s)
    (hbound : s.puts k < 2 ^ 64) (hnokey : s.returned k .errNoKey = ∅)
    (hall : ∀ (o : ℕ) (inv : Invocation ι), s.ops[o]? = some inv → inv.op.PutsOn k = true →
      s.rets o ≠ none) :
    s.appliedOps k ⊆ s.returned k .ok ∪ s.returned k .errMaybe := by
  intro o ho
  obtain ⟨e, he, hputs, happ, rfl⟩ := mem_appliedOps.mp ho
  obtain ⟨c, t, hinv⟩ := hwf.exec_op he
  obtain ⟨ret, hret⟩ := Option.ne_none_iff_exists'.mp (hall _ _ hinv hputs)
  obtain ⟨e', _, call, err, _, _, _, herr, hfin⟩ :=
    returned_put hwf hserved hcount hinv hputs hret
  have hmem : ∀ err', err = err' → e.opId ∈ s.returned k err' := by
    rintro err' rfl
    exact mem_returned.mpr ⟨_, ret, hinv, hputs, hret, herr⟩
  rcases Call.finish_put hfin with ⟨h, _⟩ | ⟨h, _⟩ | ⟨rfl, _⟩ | ⟨h, _⟩
  · exact Finset.mem_union_left _ (hmem _ h)
  · exact Finset.mem_union_right _ (hmem _ h)
  · -- ErrVersion: the only RPC of the call was refused
    have hsends := Nat.lt_of_le_of_lt (hwf.sends_le_puts hinv hputs) hbound
    obtain ⟨honce, e'', he'', hid, hnot⟩ :=
      refusal_single_send hcount hret (Or.inl herr) hsends (by simp [herr])
    obtain rfl := only_exec_of_single_send hwf honce he he'' rfl hid
    exact absurd happ hnot
  · exact absurd (hmem _ h) (by simp [hnokey])

/-- When every call of Put on the key has returned, its version lies between the
calls that returned OK and those together with the calls that returned ErrMaybe. -/
theorem version_between (hr : Served s) (hwf : WellFormed s) (hcount : Counted s)
    (hbound : s.puts k < 2 ^ 64) (hnokey : s.returned k .errNoKey = ∅)
    (hall : ∀ (o : ℕ) (inv : Invocation ι), s.ops[o]? = some inv → inv.op.PutsOn k = true →
      s.rets o ≠ none) :
    (s.returned k .ok).card ≤ (version s.kv k).toNat ∧
      (version s.kv k).toNat ≤ (s.returned k .ok).card + (s.returned k .errMaybe).card := by
  rw [← card_appliedOps hwf hr hbound]
  constructor
  · exact Finset.card_le_card (returned_ok_subset hwf hr hcount)
  · exact (Finset.card_le_card (appliedOps_subset hwf hr hcount hbound hnokey hall)).trans
      (Finset.card_union_le _ _)

/-- No operation has been sent twice. -/
structure SentOnce (s : State ι) : Prop where
  waiting : ∀ c call, s.clerks c = some call → call.rid = none → s.sends call.opId = 0
  sends_le : ∀ o, s.sends o ≤ 1

theorem SentOnce.initial : SentOnce (initial : State ι) where
  waiting c call h := by simp [Clerk.initial] at h
  sends_le o := by simp [State.sends, Clerk.initial]

variable [DecidableEq ι]

theorem SentOnce.step {l : Label ι} (hs : SentOnce s) (h : Step s l t)
    (hfail : ∀ c, l ≠ .fail c) (hwf : WellFormed s) (hserved : Served s) : SentOnce t := by
  cases h with
  | invoke c op hidle =>
    refine ⟨?_, hs.sends_le⟩
    intro d call hd hrid
    rcases update_eq_some hd with ⟨rfl, hv⟩ | ⟨_, hold⟩
    · obtain rfl := Option.some.inj hv
      exact Counted.sends_of_fresh hwf
    · exact hs.waiting d call hold hrid
  | send c call hcall hrid =>
    have hzero := hs.waiting c call hcall hrid
    constructor
    · intro d call' hd hrid'
      rcases update_eq_some hd with ⟨rfl, hv⟩ | ⟨hne, hold⟩
      · obtain rfl := Option.some.inj hv
        simp at hrid'
      · have hid : call.opId ≠ call'.opId :=
          fun heq => hne (hwf.call_unique hold hcall heq.symm)
        simpa [Counted.sends_send, hid] using hs.waiting d call' hold hrid'
    · intro o
      rw [Counted.sends_send]
      have hle := hs.sends_le o
      split
      · rename_i heq
        rw [← heq]
        omega
      · omega
  | drop rid hlt hsent => exact ⟨hs.waiting, hs.sends_le⟩
  | enqueue rid hlt hsent hcap => exact ⟨hs.waiting, hs.sends_le⟩
  | serve rid rest q hq hreq => exact ⟨hs.waiting, hs.sends_le⟩
  | fail c call rid hcall hrid => exact absurd rfl (hfail c)
  | again c call rid reply hcall hrid hst hfin =>
    obtain ⟨e, he, _, _, hreply, kv, hkv⟩ := taken_answer hwf hserved hcall hrid hst
    rw [hkv] at hfin
    exact absurd hfin (call.finish_serve kv call.op)
  | finish c call rid reply res hcall hrid hst hfin =>
    refine ⟨?_, hs.sends_le⟩
    intro d call' hd hrid'
    rcases update_eq_some hd with ⟨rfl, hv⟩ | ⟨_, hold⟩
    · cases hv
    · exact hs.waiting d call' hold hrid'

omit [DecidableEq ι] in
/-- ErrMaybe is returned only after a resend. -/
theorem SentOnce.returned_errMaybe (hs : SentOnce s) (hwf : WellFormed s) (hserved : Served s)
    (hcount : Counted s) : s.returned k .errMaybe = ∅ := by
  apply Finset.eq_empty_of_forall_notMem
  intro o ho
  obtain ⟨inv, ret, hinv, hputs, hret, hres⟩ := mem_returned.mp ho
  obtain ⟨e, he, call, err, _, _, hi, herr, hfin⟩ :=
    returned_put hwf hserved hcount hinv hputs hret
  obtain rfl : err = .errMaybe := by simpa [herr] using hres
  rcases Call.finish_put hfin with ⟨h, _⟩ | ⟨_, _, hlt⟩ | ⟨h, _⟩ | ⟨h, _⟩
  · cases h
  · have hlt' : (1 : UInt64).toNat < call.i.toNat := hlt
    have hle := hs.sends_le o
    rw [hi, Nat.mod_eq_of_lt (by omega)] at hlt'
    exact absurd hlt' (by simpa using hle)
  · cases h
  · cases h

omit [DecidableEq ι] in
/-- Each call was executed once at most, and returned what that execution answered. -/
theorem SentOnce.appliedOps_eq (hs : SentOnce s) (hwf : WellFormed s) (hserved : Served s)
    (hcount : Counted s)
    (hall : ∀ (o : ℕ) (inv : Invocation ι), s.ops[o]? = some inv → inv.op.PutsOn k = true →
      s.rets o ≠ none) : s.appliedOps k = s.returned k .ok := by
  refine Finset.Subset.antisymm ?_ (returned_ok_subset hwf hserved hcount)
  intro o ho
  obtain ⟨e, he, hputs, happ, rfl⟩ := mem_appliedOps.mp ho
  obtain ⟨c, t, hinv⟩ := hwf.exec_op he
  obtain ⟨ret, hret⟩ := Option.ne_none_iff_exists'.mp (hall _ _ hinv hputs)
  obtain ⟨e', he', call, err, hid, _, _, herr, hfin⟩ :=
    returned_put hwf hserved hcount hinv hputs hret
  obtain rfl := only_exec_of_single_send hwf (hs.sends_le e.opId) he he' rfl hid
  have hreply : e.reply = .put ⟨.ok⟩ := happ
  rw [hreply] at hfin
  have hok : err = .ok := by simpa [Call.finish, put] using hfin.symm
  exact mem_returned.mpr ⟨_, ret, hinv, hputs, hret, by rw [herr, hok]⟩

omit [DecidableEq ι] in
/-- Then the version is the number of calls that returned OK, wrapped as both are. -/
theorem SentOnce.version_eq (hs : SentOnce s) (hwf : WellFormed s) (hserved : Served s)
    (hcount : Counted s)
    (hall : ∀ (o : ℕ) (inv : Invocation ι), s.ops[o]? = some inv → inv.op.PutsOn k = true →
      s.rets o ≠ none) : version s.kv k = UInt64.ofNat (s.returned k .ok).card := by
  have hnodup : ((s.appliedExecs k).map Exec.opId).Nodup := by
    refine List.Nodup.map_on ?_ ((List.Nodup.of_map _ hwf.exec_nodup).filter _)
    intro e he e' he' heq
    obtain ⟨hmem, _⟩ := State.mem_appliedExecs.mp he
    obtain ⟨hmem', _⟩ := State.mem_appliedExecs.mp he'
    exact only_exec_of_single_send hwf (hs.sends_le e.opId) hmem hmem' rfl heq.symm
  rw [← hs.appliedOps_eq hwf hserved hcount hall, State.appliedOps,
    List.toFinset_card_of_nodup hnodup, List.length_map, ← State.length_applied]
  refine UInt64.toNat_inj.mp ?_
  rw [UInt64.toNat_ofNat', hserved.kv_eq, version_replay _ hserved.answers]

section Clients

variable {err : Err}

theorem mem_returnedBy {c : ι} {o : ℕ} :
    o ∈ s.returnedBy k err c ↔ ∃ inv ret, s.ops[o]? = some inv ∧ inv.client = c ∧
      inv.op.PutsOn k = true ∧ s.rets o = some ret ∧ ret.res = .put ⟨err⟩ := by
  simp only [State.returnedBy, Finset.mem_filter, mem_returned, Option.any_eq_true,
    decide_eq_true_eq]
  constructor
  · rintro ⟨⟨inv, ret, hinv, hrest⟩, inv', hinv', hc⟩
    obtain rfl := Option.some.inj (hinv'.symm.trans hinv)
    exact ⟨inv', ret, hinv, hc, hrest⟩
  · rintro ⟨inv, ret, hinv, hc, hrest⟩
    exact ⟨⟨inv, ret, hinv, hrest⟩, inv, hinv, hc⟩

theorem sum_card_returnedBy [Fintype ι] :
    ∑ c, (s.returnedBy k err c).card = (s.returned k err).card := by
  rw [← Finset.card_biUnion]
  · congr 1
    ext o
    simp only [Finset.mem_biUnion, Finset.mem_univ, true_and, mem_returnedBy, mem_returned]
    constructor
    · rintro ⟨c, inv, ret, hinv, _, hrest⟩
      exact ⟨inv, ret, hinv, hrest⟩
    · rintro ⟨inv, ret, hinv, hrest⟩
      exact ⟨inv.client, inv, ret, hinv, rfl, hrest⟩
  · intro c _ d _ hne
    refine Finset.disjoint_left.mpr ?_
    intro o ho ho'
    obtain ⟨inv, _, hinv, hc, _⟩ := mem_returnedBy.mp ho
    obtain ⟨inv', _, hinv', hd, _⟩ := mem_returnedBy.mp ho'
    obtain rfl := Option.some.inj (hinv.symm.trans hinv')
    exact hne (hc.symm.trans hd)

theorem returnedBy_congr (hops : t.ops = s.ops) (hrets : t.rets = s.rets) (c : ι) :
    t.returnedBy k err c = s.returnedBy k err c := by
  simp only [State.returnedBy, State.returned, hops, hrets]

/-- A call that starts has not returned. -/
theorem returnedBy_invoke (hwf : WellFormed s) (c d : ι) (op : KvOp) :
    (s.invoke c op).returnedBy k err d = s.returnedBy k err d := by
  ext o
  simp only [mem_returnedBy, State.invoke_ops, State.invoke_rets]
  constructor
  · rintro ⟨inv, ret, hinv, hc, hputs, hret, hres⟩
    exact ⟨inv, ret, getElem?_concat_of_lt (hwf.ret_op o ret hret) hinv, hc, hputs, hret, hres⟩
  · rintro ⟨inv, ret, hinv, hrest⟩
    exact ⟨inv, ret, getElem?_append_of_some _ hinv, hrest⟩

/-- A call that returns is counted for its client, key and answer. -/
theorem card_returnedBy_finish (hwf : WellFormed s) {c : ι} {call : Call}
    (hcall : s.clerks c = some call) (rid : ℕ) (res : KvReply) (d : ι) :
    ((s.finish c call rid res).returnedBy k err d).card = (s.returnedBy k err d).card +
      if d = c ∧ call.op.PutsOn k = true ∧ res = .put ⟨err⟩ then 1 else 0 := by
  obtain ⟨hnone, t, ht⟩ := hwf.clerk_op c call hcall
  have hnew : call.opId ∉ s.returnedBy k err d := by
    intro hmem
    obtain ⟨_, ret, _, _, _, hret, _⟩ := mem_returnedBy.mp hmem
    rw [hnone] at hret
    cases hret
  have hmem : ∀ o, o ∈ (s.finish c call rid res).returnedBy k err d ↔
      o ∈ s.returnedBy k err d ∨
        o = call.opId ∧ d = c ∧ call.op.PutsOn k = true ∧ res = .put ⟨err⟩ := by
    intro o
    by_cases ho : o = call.opId
    · subst ho
      simp [mem_returnedBy, ht, hnone, @eq_comm _ c d]
    · simp [mem_returnedBy, ho]
  split
  · rename_i hcond
    rw [← Finset.card_insert_of_notMem hnew]
    congr 1
    ext o
    rw [hmem, Finset.mem_insert]
    constructor
    · rintro (hold | ⟨rfl, _⟩)
      · exact Or.inr hold
      · exact Or.inl rfl
    · rintro (rfl | hold)
      · exact Or.inr ⟨rfl, hcond⟩
      · exact Or.inl hold
  · rename_i hcond
    rw [Nat.add_zero]
    congr 1
    ext o
    rw [hmem]
    exact or_iff_left fun h => hcond h.2

end Clients

/-- A label that neither starts a call nor ends one. -/
def Label.Inner (s : State ι) : Label ι → Prop
  | .invoke _ _ => False
  | .deliver c => answer s c = none
  | .send _ => True
  | .drop _ => True
  | .enqueue _ => True
  | .serve => True
  | .fail _ => True

/-- What such a step does: the calls go on, and the server's map changes only as it serves a
request. -/
structure Inner (s t : State ι) : Prop where
  ops_eq : t.ops = s.ops
  rets_eq : t.rets = s.rets
  calls : ∀ c, t.callOf c = s.callOf c
  served : (t.kv = s.kv ∧ t.execs = s.execs) ∨
    ∃ (rid : ℕ) (q : Request), s.reqs[rid]? = some q ∧ t.kv = (serve s.kv q.op).1 ∧
      t.execs = s.execs ++ [⟨rid, q.opId, q.op, (serve s.kv q.op).2, s.clock⟩]

namespace Inner

theorem of_step {l : Label ι} (hl : l.Inner s) (h : Clerk.step s l = some t) : Inner s t := by
  cases step_sound h with
  | invoke c op hidle => exact hl.elim
  | send c call hcall hrid =>
    exact ⟨rfl, rfl, State.callOf_update hcall rfl rfl rfl, Or.inl ⟨rfl, rfl⟩⟩
  | drop rid hlt hsent => exact ⟨rfl, rfl, fun _ => rfl, Or.inl ⟨rfl, rfl⟩⟩
  | enqueue rid hlt hsent hcap => exact ⟨rfl, rfl, fun _ => rfl, Or.inl ⟨rfl, rfl⟩⟩
  | serve rid rest q hq hreq =>
    exact ⟨rfl, rfl, fun _ => rfl, Or.inr ⟨rid, q, hreq, rfl, rfl⟩⟩
  | fail c call rid hcall hrid =>
    exact ⟨rfl, rfl, State.callOf_update hcall rfl rfl rfl, Or.inl ⟨rfl, rfl⟩⟩
  | again c call rid reply hcall hrid hserved hfin =>
    exact ⟨rfl, rfl, State.callOf_update hcall rfl rfl rfl, Or.inl ⟨rfl, rfl⟩⟩
  | finish c call rid reply res hcall hrid hserved hfin =>
    simp [Label.Inner, answer, hcall, hrid, hserved, hfin] at hl

omit [DecidableEq ι] in
/-- A call in progress was in progress before. -/
theorem call_before (h : Inner s t) {c : ι} {call : Call} (hcall : t.clerks c = some call) :
    ∃ call', s.clerks c = some call' ∧ call'.opId = call.opId ∧ call'.op = call.op :=
  State.call_of_callOf_eq (h.calls c) hcall

omit [DecidableEq ι] in
/-- A call in progress stays in progress. -/
theorem call_after (h : Inner s t) {c : ι} {call : Call} (hcall : s.clerks c = some call) :
    ∃ call', t.clerks c = some call' ∧ call'.opId = call.opId ∧ call'.op = call.op :=
  State.call_of_callOf_eq (h.calls c).symm hcall

end Inner

end DistributedLabs.Clerk
