import DistributedLabs.ClerkLinearizable
import DistributedLabs.KvLocality

/-!
The log of clerk calls that the tests give to the linearizability checker. The
wrappers of kvtest1 read a clock before and after each call of a clerk and append
the call with its result. The comment there speaks of the monotonic clock, but
time.Unix(0, 0) carries no monotonic reading, so that time.Since(t0) is
wall-clock time and may go back. If it does not, and if clients put only at
versions that the key had reached when they called, KvModel accepts what is
logged for each key.
-/
namespace DistributedLabs.OpLog

open KVServer Transition Tables Clerk

variable {ι : Type*} {s : Clerk.State ι}

/-- The clock readings around the calls: `now` is the clock at each step, and the
wrapper of call `o` reads it at `start o` and `stop o`. -/
structure Stopwatch (s : Clerk.State ι) where
  now : ℕ → ℤ
  start : ℕ → ℕ
  stop : ℕ → ℕ
  start_le_stop : ∀ o, start o ≤ stop o
  start_le_call : ∀ (o : ℕ) (inv : Invocation ι), s.ops[o]? = some inv → start o ≤ inv.call
  ret_le_stop : ∀ o ret, s.rets o = some ret → ret.time ≤ stop o

/-- The wall clock is not set back while the test runs. -/
def Stopwatch.Forward (w : Stopwatch s) : Prop :=
  ∀ ⦃i j : ℕ⦄, i ≤ j → w.now i ≤ w.now j

/-- What the wrappers append for a call that has returned; `cli` numbers the clients. -/
def record (w : Stopwatch s) (hw : w.Forward) (cli : ι → ℤ) (o : ℕ) : Option KvModel.Operation :=
  match s.ops[o]?, s.rets o with
  | some inv, some ret => some
      { clientId := cli inv.client
        input := KvModel.input inv.op
        call := w.now (w.start o)
        output := KvModel.output ret.res
        ret := w.now (w.stop o)
        call_le_ret := hw (w.start_le_stop o) }
  | _, _ => none

def records (w : Stopwatch s) (hw : w.Forward) (cli : ι → ℤ) : List KvModel.Operation :=
  (List.range s.ops.length).filterMap (record w hw cli)

/-- The number of Puts on a key applied before a time: its version then. -/
def reached (s : Clerk.State ι) (k : String) (t : ℕ) : ℕ :=
  (s.appliedExecs k).countP fun e => e.time < t

/-- Every call has returned, versions have not wrapped, and each Put was called
at a version that its key had reached. -/
structure Orderly (s : Clerk.State ι) : Prop where
  returned : ∀ o < s.ops.length, ∃ ret, s.rets o = some ret
  puts_lt : ∀ k, s.puts k < 2 ^ 64
  timely : ∀ (o : ℕ) (c : ι) (args : PutArgs) (t : ℕ),
    s.ops[o]? = some ⟨c, .put args, t⟩ → args.version.toNat ≤ reached s args.key t

section Versions

variable {pre suf : List Exec} {e : Exec}

/-- The executions that applied a Put on a key. -/
def appliedIn (k : String) (execs : List Exec) : ℕ :=
  execs.countP fun e => (appliedArgs k e.entry).isSome

theorem appliedIn_append (k : String) (execs execs' : List Exec) :
    appliedIn k (execs ++ execs') = appliedIn k execs + appliedIn k execs' :=
  List.countP_append

theorem length_applied_entries (k : String) (execs : List Exec) :
    (applied k (execs.map Exec.entry)).length = appliedIn k execs := by
  rw [applied, List.filterMap_map, List.length_filterMap_eq_countP]
  rfl

/-- Before versions wrap, a key's version is the number of Puts applied so far. -/
theorem version_mapAfter (hserved : Served s) (hwf : WellFormed s) {k : String}
    (hb : s.puts k < 2 ^ 64) (hsplit : s.execs = pre ++ suf) :
    (version (mapAfter pre) k).toNat = appliedIn k pre := by
  have hans : Answers (pre.map Exec.entry) := by
    have h := hserved.answers
    rw [State.history, hsplit, List.map_append] at h
    exact answers_of_append h
  have hle := hwf.applied_le_puts k
  rw [State.history, length_applied_entries, hsplit, appliedIn_append] at hle
  have hops : (pre.map Exec.entry).map Prod.fst = pre.map Exec.op := by simp [Exec.entry]
  have hversion := version_replay _ hans k
  rw [hops, length_applied_entries] at hversion
  rw [mapAfter, hversion]
  exact Nat.mod_eq_of_lt (by omega)

/-- What a key had reached by the time of a call, it still has when a request of
the call is executed. -/
theorem reached_le (htimed : Timed s) (hsplit : s.execs = pre ++ e :: suf) {k : String} {t : ℕ}
    (ht : t < e.time) : reached s k t ≤ appliedIn k pre := by
  have hlate : ∀ e' ∈ e :: suf, ¬ e'.time < t := by
    intro e' he' hlt
    have hsorted := htimed.exec_sorted
    rw [hsplit] at hsorted
    have htail := (List.pairwise_append.mp hsorted).2.1
    rcases List.mem_cons.mp he' with rfl | he'
    · omega
    · have := List.rel_of_pairwise_cons htail he'
      omega
  rw [reached, State.appliedExecs, List.countP_filter, hsplit, List.countP_append]
  have hzero : ((e :: suf).countP fun a => decide (a.time < t) &&
      (appliedArgs k a.entry).isSome) = 0 := by
    rw [List.countP_eq_zero]
    intro e' he' hp
    simp only [Bool.and_eq_true, decide_eq_true_eq] at hp
    exact hlate e' he' hp.1
  rw [hzero, Nat.add_zero]
  refine List.countP_mono_left ?_
  intro e' _ hp
  simp only [Bool.and_eq_true] at hp
  exact hp.2

end Versions

namespace Orderly

variable {pre suf : List Exec} {e : Exec}

/-- A Put finds its key at the version it carries or beyond. -/
theorem version_le (ho : Orderly s) (hserved : Served s) (hwf : WellFormed s)
    (htimed : Timed s) (hsplit : s.execs = pre ++ e :: suf) {args : PutArgs}
    (hop : e.op = .put args) :
    args.version.toNat ≤ (version (mapAfter pre) args.key).toNat := by
  have he : e ∈ s.execs := by simp [hsplit]
  obtain ⟨c, t, hinv⟩ := hwf.exec_op he
  have htime := htimed.exec_after_call e he _ hinv
  rw [version_mapAfter hserved hwf (ho.puts_lt args.key) hsplit]
  exact (ho.timely _ c args t (hop ▸ hinv)).trans (reached_le htimed hsplit htime)

/-- No Put finds its key missing. -/
theorem reply_ne_errNoKey (ho : Orderly s) (hserved : Served s) (hwf : WellFormed s)
    (htimed : Timed s) (he : e ∈ s.execs) : e.reply ≠ .put ⟨.errNoKey⟩ := by
  obtain ⟨pre, suf, hsplit⟩ := List.append_of_mem he
  rw [hserved.reply_eq hsplit]
  intro hreply
  obtain ⟨args, hop, hnone, hver⟩ := (KvModel.serve_errNoKey_iff _ _).mp hreply
  have hle := ho.version_le hserved hwf htimed hsplit hop
  rw [version, hnone] at hle
  exact hver (UInt64.toNat_inj.mp (Nat.le_zero.mp hle))

theorem complete (ho : Orderly s) (hserved : Served s) (hwf : WellFormed s) (htimed : Timed s)
    (hcount : Counted s) : Complete s where
  returned := ho.returned
  puts_lt := ho.puts_lt
  nokey o ret hret hres := by
    obtain ⟨e, he, _, _, _, call, hfin⟩ := answered_exec hwf htimed hcount hret
    rw [hres] at hfin
    rcases Call.finish_put hfin with ⟨h, _⟩ | ⟨h, _⟩ | ⟨h, _⟩ | ⟨_, hreply⟩
    · cases h
    · cases h
    · cases h
    · exact absurd hreply (ho.reply_ne_errNoKey hserved hwf htimed he)

/-- A Put that was refused is past its version, so no copy of it is applied later. -/
theorem applied_before_refused (ho : Orderly s) (hserved : Served s) (hwf : WellFormed s)
    (htimed : Timed s) {e e' : Exec} (he : e ∈ s.execs) (he' : e' ∈ s.execs)
    (hid : e.opId = e'.opId) (hrefused : e.reply = .put ⟨.errVersion⟩)
    (happ : e'.reply.Applied) : e'.time < e.time := by
  by_contra hlate
  obtain ⟨pre', suf, hsplit'⟩ := List.append_of_mem he'
  have hmem : e ∈ pre' := by
    rw [hsplit'] at he
    rcases List.mem_append.mp he with hpre | hrest
    · exact hpre
    rcases List.mem_cons.mp hrest with rfl | hsuf
    · rw [hrefused] at happ
      cases happ
    · have hsorted := htimed.exec_sorted
      rw [hsplit'] at hsorted
      have htail := (List.pairwise_append.mp hsorted).2.1
      exact absurd (List.rel_of_pairwise_cons htail hsuf) hlate
  obtain ⟨pre, mid, rfl⟩ := List.append_of_mem hmem
  have hsplit : s.execs = pre ++ e :: (mid ++ e' :: suf) := by simp [hsplit']
  obtain ⟨args, hop'⟩ := hserved.exec_applied he' happ
  have hop : e.op = .put args := (hwf.exec_same_op he he' hid).trans hop'
  -- the key stood beyond the version when `e` was refused, and at it when `e'` was applied
  have hne : version (mapAfter pre) args.key ≠ args.version := by
    intro heq
    have hreply := hserved.reply_eq hsplit
    rw [hop, hrefused, serve] at hreply
    have hok := (put_ok_iff (mapAfter pre) args).mpr heq
    rw [hok] at hreply
    cases hreply
  have heq : version (mapAfter (pre ++ e :: mid)) args.key = args.version := by
    have hreply := hserved.reply_eq hsplit'
    rw [hop', happ, serve] at hreply
    exact (put_ok_iff _ args).mp (KvReply.put.inj hreply).symm
  have hle := ho.version_le hserved hwf htimed hsplit hop
  have hlt : args.version.toNat ≠ (version (mapAfter pre) args.key).toNat :=
    fun h => hne (UInt64.toNat_inj.mp h.symm)
  have hgrow : (version (mapAfter pre) args.key).toNat ≤ args.version.toNat := by
    rw [← heq, version_mapAfter hserved hwf (ho.puts_lt _) hsplit,
      version_mapAfter hserved hwf (ho.puts_lt _) hsplit', appliedIn_append]
    exact Nat.le_add_right _ _
  omega

/-- A call takes effect between the two readings of the clock around it. -/
theorem point_inside (ho : Orderly s) (hserved : Served s) (hwf : WellFormed s)
    (htimed : Timed s) (hcount : Counted s) (he : e ∈ s.execs) (hp : s.IsPoint e)
    {inv : Invocation ι} {ret : Return} (hinv : s.ops[e.opId]? = some inv)
    (hret : s.rets e.opId = some ret) : inv.call ≤ e.time ∧ e.time ≤ ret.time := by
  have hc := ho.complete hserved hwf htimed hcount
  refine ⟨(htimed.exec_after_call e he inv hinv).le, ?_⟩
  obtain ⟨e', he', hid', hrid', htime', call, hfin⟩ := answered_exec hwf htimed hcount hret
  rcases hp with happ | ⟨_, hrid⟩
  · rcases hc.applied_answer hwf htimed hserved hcount he happ hret with ⟨_, htime⟩ | hmaybe
    · exact htime.le
    · rw [hmaybe] at hfin
      rcases Call.finish_put hfin with ⟨h, _⟩ | ⟨_, hreply, _⟩ | ⟨h, _⟩ | ⟨h, _⟩
      · cases h
      · have := ho.applied_before_refused hserved hwf htimed he' he hid' hreply happ
        omega
      · cases h
      · cases h
  · rw [hret] at hrid
    obtain rfl := hwf.exec_unique he he' ((Option.some.inj hrid).symm.trans hrid'.symm)
    exact htime'.le

end Orderly

/-- KvModel lets an ErrMaybe stand for what the server did, whatever it was. -/
theorem accepted_maybe (kv : KvMap) (args : PutArgs) :
    KvModel.accepted (KvModel.entry kv args.key)
        (KvModel.input (.put args), KvModel.output (.put ⟨.errMaybe⟩)) =
      some (KvModel.entry (serve kv (.put args)).1 args.key) := by
  rcases put_cases kv args with ⟨hv, hp⟩ | ⟨hv, _, hp⟩ | ⟨hv, hnone, hp⟩
  · have hentry : KvModel.entry (serve kv (.put args)).1 args.key =
        ⟨args.value, args.version + 1⟩ := by
      simp [serve, hp, KvModel.entry, value, version]
    rw [hentry]
    simp [KvModel.accepted, KvModel.step, KvModel.input, KvModel.output, KvModel.entry, hv,
      KvModel.errText]
  · simp [KvModel.accepted, KvModel.step, KvModel.input, KvModel.output, KvModel.entry, hv,
      KvModel.errText, serve, hp]
  · have hne : version kv args.key ≠ args.version := by
      rw [version, hnone]
      exact Ne.symm hv
    simp [KvModel.accepted, KvModel.step, KvModel.input, KvModel.output, KvModel.entry, hne,
      KvModel.errText, serve, hp]

/-- The model follows the server at the point of a call, given what the call returned. -/
theorem Orderly.accepted_point (ho : Orderly s) (hserved : Served s) (hwf : WellFormed s)
    (htimed : Timed s) (hcount : Counted s) {pre suf : List Exec} {e : Exec}
    (hsplit : s.execs = pre ++ e :: suf) (hp : s.IsPoint e) {ret : Return}
    (hret : s.rets e.opId = some ret) :
    KvModel.accepted (KvModel.entry (mapAfter pre) e.op.key)
        (KvModel.input e.op, KvModel.output ret.res) =
      some (KvModel.entry (mapAfter (pre ++ [e])) e.op.key) := by
  have he : e ∈ s.execs := by simp [hsplit]
  have hc := ho.complete hserved hwf htimed hcount
  have hreply := hserved.reply_eq hsplit
  have hnokey := ho.reply_ne_errNoKey hserved hwf htimed he
  rw [mapAfter_concat]
  have hmaybe : ∀ args, e.op = .put args → ret.res = .put ⟨.errMaybe⟩ →
      KvModel.accepted (KvModel.entry (mapAfter pre) e.op.key)
          (KvModel.input e.op, KvModel.output ret.res) =
        some (KvModel.entry (serve (mapAfter pre) e.op).1 e.op.key) := by
    intro args hop hres
    rw [hop, hres]
    exact accepted_maybe (mapAfter pre) args
  have hsame : ret.res = e.reply →
      KvModel.accepted (KvModel.entry (mapAfter pre) e.op.key)
          (KvModel.input e.op, KvModel.output ret.res) =
        some (KvModel.entry (serve (mapAfter pre) e.op).1 e.op.key) := by
    intro hres
    rw [hreply] at hnokey
    rw [hres, hreply, KvModel.accepted_serve, if_neg hnokey]
  rcases hp with happ | ⟨_, hrid⟩
  · rcases hc.applied_answer hwf htimed hserved hcount he happ hret with ⟨hok, _⟩ | hres
    · exact hsame (hok.trans happ.symm)
    · obtain ⟨args, hop⟩ := hserved.exec_applied he happ
      exact hmaybe args hop hres
  · obtain ⟨e', he', _, hrid', _, call, hfin⟩ := answered_exec hwf htimed hcount hret
    rw [hret] at hrid
    obtain rfl := hwf.exec_unique he he' ((Option.some.inj hrid).symm.trans hrid'.symm)
    cases hop : e.op with
    | get args =>
      rw [hop] at hreply hsame
      rw [hreply] at hfin
      exact hsame ((Call.finish_get hfin).trans hreply.symm)
    | put args =>
      have hfin' := hfin
      rw [hreply, hop] at hfin'
      obtain ⟨err, _, herr⟩ := Option.map_eq_some_iff.mp hfin'
      rw [← herr] at hfin
      rw [hop] at hmaybe hsame
      rcases Call.finish_put hfin with ⟨h, h'⟩ | ⟨h, _⟩ | ⟨h, h', _⟩ | ⟨_, h'⟩
      · exact hsame (by rw [← herr, h, h'])
      · exact hmaybe args rfl (by rw [← herr, h])
      · exact hsame (by rw [← herr, h, h'])
      · exact absurd h' hnokey

section Log

variable (w : Stopwatch s) (hw : w.Forward) (cli : ι → ℤ)

/-- The record of the call that takes effect at an execution. -/
def pointRecord (e : Exec) : Option KvModel.Operation :=
  if s.IsPoint e then record w hw cli e.opId else none

def ordered (execs : List Exec) : List KvModel.Operation := execs.filterMap (pointRecord w hw cli)

theorem pointRecord_eq_some (hwf : WellFormed s) {e : Exec} (he : e ∈ s.execs)
    {a : KvModel.Operation} (h : pointRecord w hw cli e = some a) :
    s.IsPoint e ∧ ∃ inv ret, s.ops[e.opId]? = some inv ∧ s.rets e.opId = some ret ∧
      a.step = (KvModel.input e.op, KvModel.output ret.res) ∧ a.call = w.now (w.start e.opId) ∧
        a.ret = w.now (w.stop e.opId) := by
  unfold pointRecord at h
  split at h
  · rename_i hp
    obtain ⟨c, t, hinv⟩ := hwf.exec_op he
    cases hret : s.rets e.opId with
    | none => simp [record, hinv, hret] at h
    | some ret =>
      simp only [record, hinv, hret, Option.some.injEq] at h
      subst h
      exact ⟨hp, _, ret, hinv, rfl, rfl, rfl, rfl⟩
  · cases h

theorem key_of_step {a : KvModel.Operation} {op : KvOp} {out : KvModel.KvOutput}
    (h : a.step = (KvModel.input op, out)) : a.key = op.key := by
  have hinput : a.input = KvModel.input op := congrArg Prod.fst h
  rw [KvModel.Operation.key, hinput]
  cases op <;> rfl

theorem Orderly.respects (ho : Orderly s) (hserved : Served s) (hwf : WellFormed s)
    (htimed : Timed s) (hcount : Counted s) :
    Locality.Respects KvModel.Operation.call KvModel.Operation.ret
      (ordered w hw cli s.execs) := by
  refine List.Pairwise.filterMap _ ?_ (htimed.exec_sorted.imp_of_mem (S := fun e e' =>
    e.time < e'.time ∧ e ∈ s.execs ∧ e' ∈ s.execs) fun he he' hlt => ⟨hlt, he, he'⟩)
  rintro e e' ⟨hlt, he, he'⟩ a ha b hb hba
  obtain ⟨hp, inv, ret, hinv, hret, _, hcall, _⟩ := pointRecord_eq_some w hw cli hwf he ha
  obtain ⟨hp', inv', ret', hinv', hret', _, _, hstop⟩ := pointRecord_eq_some w hw cli hwf he' hb
  have h1 := (ho.point_inside hserved hwf htimed hcount he hp hinv hret).1
  have h2 := (ho.point_inside hserved hwf htimed hcount he' hp' hinv' hret').2
  rw [hcall, hstop] at hba
  have hle : w.start e.opId ≤ w.stop e'.opId := by
    have h3 := w.start_le_call _ inv hinv
    have h4 := w.ret_le_stop _ ret' hret'
    omega
  exact absurd (hw hle) (not_le.mpr hba)

/-- After any of the executions the model of a key is in the state of the
server's entry. -/
theorem Orderly.acceptedAll_ordered (ho : Orderly s) (hserved : Served s) (hwf : WellFormed s)
    (htimed : Timed s) (hcount : Counted s) (k : String) (pre suf : List Exec)
    (hsplit : s.execs = pre ++ suf) :
    KvModel.acceptedAll KvModel.init
        (((ordered w hw cli pre).filter fun a => a.key = k).map KvModel.Operation.step) =
      some (KvModel.entry (mapAfter pre) k) := by
  induction pre using List.reverseRecOn generalizing suf with
  | nil => rfl
  | append_singleton pre e ih =>
    have hsplit' : s.execs = pre ++ e :: suf := by simpa using hsplit
    have he : e ∈ s.execs := by simp [hsplit']
    have hc := ho.complete hserved hwf htimed hcount
    have hrest := ih (e :: suf) hsplit'
    have hconcat : ordered w hw cli (pre ++ [e]) =
        ordered w hw cli pre ++ (pointRecord w hw cli e).toList := by
      rw [ordered, List.filterMap_append]
      cases h : pointRecord w hw cli e <;> simp [ordered, h]
    rw [hconcat, List.filter_append, List.map_append, KvModel.acceptedAll_append, hrest,
      Option.bind_some]
    cases hrec : pointRecord w hw cli e with
    | none =>
      -- what is no point has not been applied
      have hnot : ¬ e.reply.Applied := by
        intro happ
        obtain ⟨c, t, hinv⟩ := hwf.exec_op he
        obtain ⟨ret, hret⟩ := ho.returned e.opId (getElem?_lt hinv)
        have hp : s.IsPoint e := Or.inl happ
        simp [pointRecord, hp, record, hinv, hret] at hrec
      rw [hserved.reply_eq hsplit'] at hnot
      rw [mapAfter_concat, serve_unapplied _ _ hnot]
      rfl
    | some a =>
      obtain ⟨hp, _, ret, _, hret, hstep, _⟩ := pointRecord_eq_some w hw cli hwf he hrec
      have hkey := key_of_step hstep
      rw [Option.toList_some]
      by_cases hk : a.key = k
      · subst hk
        have hacc := ho.accepted_point hserved hwf htimed hcount hsplit' hp hret
        rw [List.filter_cons_of_pos (by simp), List.filter_nil, List.map_singleton,
          KvModel.acceptedAll, hstep, hkey, hacc]
        rfl
      · have hne : e.op.key ≠ k := hkey ▸ hk
        rw [List.filter_cons_of_neg (by simpa using hk), List.filter_nil, mapAfter_concat,
          KvModel.entry_serve_of_ne _ _ hne]
        rfl

end Log

variable [DecidableEq ι]

/-- In any order of the log and of its keys, the checker finds the class of each
key linearizable. -/
theorem Orderly.linearizable (ho : Orderly s) (hr : Clerk.system.Reachable s) (w : Stopwatch s)
    (hw : w.Forward) (cli : ι → ℤ) (oplog : List KvModel.Operation)
    (hlog : oplog.Perm (records w hw cli))
    (it : Grouping.Iteration String KvModel.Operation) :
    ∀ cls ∈ KvModel.partition it oplog,
      Locality.Linearizable KvModel.Operation.call KvModel.Operation.ret KvModel.Legal cls := by
  have hwf := WellFormed.of_reachable hr
  have htimed := Timed.of_reachable hr
  have hserved := Served.of_reachable hr
  have hcount := Counted.of_reachable hr
  have hc := ho.complete hserved hwf htimed hcount
  intro cls hcls
  obtain ⟨k, _, rfl⟩ := (KvModel.mem_partition it oplog cls).mp hcls
  refine ⟨(ordered w hw cli s.execs).filter fun a => a.key = k, ?_, ?_, ?_⟩
  · exact ((hc.filterMap_points_perm hwf htimed hserved hcount _).trans hlog.symm).filter _
  · exact (ho.respects w hw cli hserved hwf htimed hcount).filter _
  · have hacc := ho.acceptedAll_ordered w hw cli hserved hwf htimed hcount k s.execs [] (by simp)
    rw [KvModel.Legal, hacc]
    rfl

end DistributedLabs.OpLog
