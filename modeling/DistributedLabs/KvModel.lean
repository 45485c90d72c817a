import DistributedLabs.KVHistory

/-!
The oracle of the linearizability checks: KvModel steps one key's value and version
by a request and the answer that was observed. It is fed here with what the server
answers. It accepts a Put that is refused only with ErrVersion or ErrMaybe, so it
follows the server as long as no Put is refused with ErrNoKey.
-/
namespace DistributedLabs.KvModel

open KVServer

structure KvInput where
  op : UInt8
  key : String
  value : String
  version : UInt64
  deriving DecidableEq, Repr

structure KvOutput where
  value : String
  version : UInt64
  err : String
  deriving DecidableEq, Repr

structure KvState where
  value : String
  version : UInt64
  deriving DecidableEq, Repr

def init : KvState := ⟨"", 0⟩

/-- The next state has no fixed type: it is a text after an unknown operation. -/
inductive NextState
  | state (st : KvState)
  | text (s : String)
  deriving DecidableEq, Repr

def step (st : KvState) (inp : KvInput) (out : KvOutput) : Bool × NextState :=
  if inp.op = 0 then (out.value = st.value, .state st)
  else if inp.op = 1 then
    if st.version = inp.version then
      (out.err = "OK" ∨ out.err = "ErrMaybe", .state ⟨inp.value, st.version + 1⟩)
    else (out.err = "ErrVersion" ∨ out.err = "ErrMaybe", .state st)
  else (false, .text "<invalid>")

/-- The state after an accepted step. -/
def accepted (st : KvState) (x : KvInput × KvOutput) : Option KvState :=
  match step st x.1 x.2 with
  | (true, .state st') => some st'
  | (true, .text _) => none
  | (false, _) => none

/-- The state after a sequence of steps, all of them accepted. -/
def acceptedAll : KvState → List (KvInput × KvOutput) → Option KvState
  | st, [] => some st
  | st, x :: rest => (accepted st x).bind fun st' => acceptedAll st' rest

/-- The texts of rpc.Err. -/
def errText : Err → String
  | .ok => "OK"
  | .errNoKey => "ErrNoKey"
  | .errVersion => "ErrVersion"
  | .errMaybe => "ErrMaybe"
  | .errWrongLeader => "ErrWrongLeader"
  | .errWrongGroup => "ErrWrongGroup"

/-- What the harness records of a request. -/
def input : KvOp → KvInput
  | .get args => ⟨0, args.key, "", 0⟩
  | .put args => ⟨1, args.key, args.value, args.version⟩

def output : KvReply → KvOutput
  | .get reply => ⟨reply.value, reply.version, errText reply.err⟩
  | .put reply => ⟨"", 0, errText reply.err⟩

/-- The requests on one key with their answers, in order. -/
def feed (k : String) (h : History) : List (KvInput × KvOutput) :=
  (h.filter fun x => x.1.key = k).map fun x => (input x.1, output x.2)

/-- The server's entry as a state of the model, with the initial one for an absent key. -/
def entry (kv : KvMap) (k : String) : KvState := ⟨value kv k, version kv k⟩

/-- The first Put on the key, if there is one, is at version 0. -/
def FirstPutAtZero (k : String) (ops : List KvOp) : Prop :=
  ∀ args, ops.find? (KvOp.PutsOn k) = some (.put args) → args.version = 0

theorem acceptedAll_append (st : KvState) (l l' : List (KvInput × KvOutput)) :
    acceptedAll st (l ++ l') = (acceptedAll st l).bind fun st' => acceptedAll st' l' := by
  induction l generalizing st with
  | nil => rfl
  | cons x l ih =>
    rw [List.cons_append, acceptedAll, acceptedAll, Option.bind_assoc]
    congr 1
    funext st'
    exact ih st'

theorem feed_concat (k : String) (h : History) (op : KvOp) (r : KvReply) :
    feed k (h ++ [(op, r)]) =
      feed k h ++ if op.key = k then [(input op, output r)] else [] := by
  by_cases hk : op.key = k
  · simp [feed, hk]
  · simp [feed, hk]

/-- A request on another key leaves the entry alone. -/
theorem entry_serve_of_ne (kv : KvMap) (op : KvOp) {k : String} (hk : op.key ≠ k) :
    entry (serve kv op).1 k = entry kv k := by
  have hkv : (serve kv op).1 k = kv k := by
    by_cases happ : (serve kv op).2.Applied
    · obtain ⟨args, rfl, _, hupdate⟩ := serve_applied kv op happ
      have hne : k ≠ args.key := Ne.symm hk
      rw [hupdate, Function.update_of_ne hne]
    · rw [serve_unapplied kv op happ]
  unfold entry value version
  rw [hkv]

/-- The oracle follows the server, except that it refuses an ErrNoKey. -/
theorem accepted_serve (kv : KvMap) (op : KvOp) :
    accepted (entry kv op.key) (input op, output (serve kv op).2) =
      if (serve kv op).2 = .put ⟨.errNoKey⟩ then none
      else some (entry (serve kv op).1 op.key) := by
  cases op with
  | get args =>
    have hvalue : (KVServer.get kv args).value = value kv args.key := by
      unfold KVServer.get value
      split <;> rfl
    simp [accepted, step, input, output, serve, KvOp.key, entry, hvalue]
  | put args =>
    rcases put_cases kv args with ⟨hv, hp⟩ | ⟨hv, hsome, hp⟩ | ⟨hv, hnone, hp⟩
    · have hentry : entry (serve kv (.put args)).1 args.key = ⟨args.value, args.version + 1⟩ := by
        simp [serve, hp, entry, value, version]
      rw [KvOp.key, hentry]
      simp [accepted, step, input, output, serve, hp, entry, hv, errText]
    · simp [accepted, step, input, output, serve, KvOp.key, hp, entry, hv, errText]
    · have hzero : version kv args.key ≠ args.version := by
        rw [version, hnone]
        exact Ne.symm hv
      simp [accepted, step, input, output, serve, KvOp.key, hp, entry, hzero, errText]

theorem serve_errNoKey_iff (kv : KvMap) (op : KvOp) :
    (serve kv op).2 = .put ⟨.errNoKey⟩ ↔
      ∃ args, op = .put args ∧ kv args.key = none ∧ args.version ≠ 0 := by
  cases op with
  | get args => simp [serve]
  | put args =>
    rcases put_cases kv args with ⟨hv, hp⟩ | ⟨hv, hsome, hp⟩ | ⟨hv, hnone, hp⟩
    · have hzero : kv args.key = none → args.version = 0 := by
        intro hnone
        rw [← hv, version, hnone]
      simpa [serve, hp] using hzero
    · simp [serve, hp, hsome]
    · simp [serve, hp, hnone, hv]

theorem putsOn_iff (k : String) (op : KvOp) :
    KvOp.PutsOn k op = true ↔ ∃ args, op = .put args ∧ args.key = k := by
  cases op with
  | get args => simp [KvOp.PutsOn]
  | put args => simp [KvOp.PutsOn]

theorem firstPutAtZero_concat (k : String) (ops : List KvOp) (op : KvOp) :
    FirstPutAtZero k (ops ++ [op]) ↔ FirstPutAtZero k ops ∧
      (ops.find? (KvOp.PutsOn k) = none →
        ∀ args, op = .put args → args.key = k → args.version = 0) := by
  unfold FirstPutAtZero
  rw [List.find?_append]
  cases hfind : ops.find? (KvOp.PutsOn k) with
  | some first => simp
  | none =>
    by_cases hputs : KvOp.PutsOn k op = true
    · obtain ⟨args, rfl, hkey⟩ := (putsOn_iff k op).mp hputs
      simp [hputs, hkey]
    · have hnot : ∀ args, op = .put args → args.key ≠ k := fun args hop hkey =>
        hputs ((putsOn_iff k op).mpr ⟨args, hop, hkey⟩)
      simp only [Option.none_or, List.find?_singleton, hputs]
      simpa using fun args hop hkey => absurd hkey (hnot args hop)

/-- A key is absent until the first Put on it, and present after it if that is at version 0. -/
theorem replay_eq_none_iff (ops : List KvOp) (k : String) (h : FirstPutAtZero k ops) :
    replay ops k = none ↔ ops.find? (KvOp.PutsOn k) = none := by
  induction ops using List.reverseRecOn with
  | nil => simp [replay, emptyKv]
  | append_singleton ops op ih =>
    obtain ⟨hops, hop⟩ := (firstPutAtZero_concat k ops op).mp h
    have ih := ih hops
    rw [replay_concat, List.find?_append]
    cases hfind : ops.find? (KvOp.PutsOn k) with
    | some first =>
      have hpresent : replay ops k ≠ none := by simp [ih, hfind]
      simp [serve_present (replay ops) op k hpresent]
    | none =>
      have habsent := ih.mpr hfind
      by_cases hputs : KvOp.PutsOn k op = true
      · obtain ⟨args, rfl, hkey⟩ := (putsOn_iff k op).mp hputs
        have hzero := hop hfind args rfl hkey
        subst hkey
        simp [hputs, serve, put, habsent, hzero]
      · have hsame : (serve (replay ops) op).1 k = replay ops k := by
          by_cases happ : (serve (replay ops) op).2.Applied
          · obtain ⟨args, rfl, _, hupdate⟩ := serve_applied _ op happ
            have hne : k ≠ args.key := fun heq =>
              hputs ((putsOn_iff k _).mpr ⟨args, rfl, heq.symm⟩)
            rw [hupdate, Function.update_of_ne hne]
          · rw [serve_unapplied _ op happ]
        simp [hsame, habsent, hputs]

/-- The oracle, fed with the answers of the server, is in the state of the server's entry
as long as the first Put on the key is at version 0, and has refused an answer otherwise. -/
theorem acceptedAll_feed (h : History) (ha : Answers h) (k : String) :
    (FirstPutAtZero k (h.map Prod.fst) →
      acceptedAll init (feed k h) = some (entry (replay (h.map Prod.fst)) k)) ∧
    (¬ FirstPutAtZero k (h.map Prod.fst) → acceptedAll init (feed k h) = none) := by
  induction h using List.reverseRecOn with
  | nil => exact ⟨fun _ => rfl, fun hnot => absurd (by simp [FirstPutAtZero]) hnot⟩
  | append_singleton h x ih =>
    obtain ⟨op, r⟩ := x
    obtain ⟨hprev, hr⟩ := (answers_concat_iff h op r).mp ha
    obtain ⟨ihok, ihbad⟩ := ih hprev
    rw [List.map_append, List.map_singleton, firstPutAtZero_concat, feed_concat,
      acceptedAll_append, replay_concat]
    by_cases hops : FirstPutAtZero k (h.map Prod.fst)
    · rw [ihok hops, Option.bind_some]
      have habsent := replay_eq_none_iff _ k hops
      by_cases hk : op.key = k
      · subst hk
        have hstep := accepted_serve (replay (h.map Prod.fst)) op
        rw [← hr] at hstep
        have hrefused := serve_errNoKey_iff (replay (h.map Prod.fst)) op
        rw [← hr] at hrefused
        rw [if_pos rfl, acceptedAll, hstep]
        by_cases hnokey : r = .put ⟨.errNoKey⟩
        · obtain ⟨args, rfl, hnone, hv⟩ := hrefused.mp hnokey
          rw [if_pos hnokey]
          exact ⟨fun hok => absurd (hok.2 (habsent.mp hnone) args rfl rfl) hv, fun _ => rfl⟩
        · have hgood : (h.map Prod.fst).find? (KvOp.PutsOn op.key) = none →
              ∀ args, op = .put args → args.key = op.key → args.version = 0 := by
            rintro hfind args rfl _
            by_contra hv
            exact hnokey (hrefused.mpr ⟨args, rfl, habsent.mpr hfind, hv⟩)
          rw [if_neg hnokey]
          exact ⟨fun _ => rfl, fun hnot => absurd ⟨hops, hgood⟩ hnot⟩
      · have hgood : ∀ args, op = .put args → args.key = k → args.version = 0 := by
          rintro args rfl hkey
          exact absurd hkey hk
        rw [if_neg hk, entry_serve_of_ne _ op hk]
        exact ⟨fun _ => rfl, fun hnot => absurd ⟨hops, fun _ => hgood⟩ hnot⟩
    · rw [ihbad hops, Option.bind_none]
      exact ⟨fun hok => absurd hok.1 hops, fun _ => rfl⟩

theorem firstPutAtZero_of_append {k : String} {ops ops' : List KvOp}
    (h : FirstPutAtZero k (ops ++ ops')) : FirstPutAtZero k ops := by
  intro args hfind
  apply h args
  rw [List.find?_append, hfind, Option.some_or]

/-- Fed with the server's answers to any requests, the oracle accepts every step on a key
and stays in the state of the server's entry, exactly if the first Put on the key is at
version 0. -/
theorem oracle_accepts_iff (ops : List KvOp) (k : String) :
    (∀ pre suf, historyOf ops = pre ++ suf →
      acceptedAll init (feed k pre) = some (entry (replay (pre.map Prod.fst)) k)) ↔
    FirstPutAtZero k ops := by
  obtain ⟨ha, hops⟩ := answers_historyOf ops
  constructor
  · intro haccepts
    by_contra hnot
    have hall := haccepts (historyOf ops) [] (List.append_nil _).symm
    rw [← hops] at hnot
    rw [(acceptedAll_feed _ ha k).2 hnot] at hall
    cases hall
  · intro hfirst pre suf hsplit
    rw [hsplit] at ha hops
    apply (acceptedAll_feed pre (answers_of_append ha) k).1
    rw [← hops, List.map_append] at hfirst
    exact firstPutAtZero_of_append hfirst

/-- The server refuses a Put at version 1 on a key that is not there, and the oracle
refuses the answer. -/
theorem oracle_refuses_noKey :
    (historyOf [.put ⟨"k", "a", 1⟩]).map Prod.snd = [.put ⟨.errNoKey⟩] ∧
      acceptedAll init (feed "k" (historyOf [.put ⟨"k", "a", 1⟩])) = none := by
  decide

end DistributedLabs.KvModel
