import DistributedLabs.ClerkAnswers

/-!
What a client can know of a key from the answers to its call in progress, and why
old requests do no harm: when the clients put on a key only at versions they have
read, a Put that is still in the network after its call has returned carries a
version that the key has left behind, so only a call in progress can change the
key.
-/
namespace DistributedLabs.Clerk

open KVServer Transition Tables

variable {ι : Type*}

/-- The number of Puts applied to the key. -/
def ver (k : String) (s : State ι) : ℕ := (applied k s.history).length

/-- The server has answered `r` to an RPC of the call that `c` has in progress. -/
def Seen (s : State ι) (c : ι) (r : KvReply) : Prop :=
  ∃ call, s.clerks c = some call ∧ ∃ e ∈ s.execs, e.opId = call.opId ∧ e.reply = r

section Key

variable {k : String} {s : State ι}

/-- The key's version is the number of Puts applied to it. -/
theorem version_eq_ver (hs : Served s) (hb : ver k s < 2 ^ 64) :
    (version s.kv k).toNat = ver k s := by
  rw [hs.kv_eq, version_replay s.history hs.answers k]
  exact Nat.mod_eq_of_lt hb

theorem entry_version (hs : Served s) (hb : ver k s < 2 ^ 64) {v : KvValue}
    (h : s.kv k = some v) : v.version.toNat = ver k s := by
  have hv := version_eq_ver hs hb
  rw [version, h] at hv
  exact hv

theorem entry_present (hs : Served s) (hv : 0 < ver k s) : s.kv k ≠ none := by
  rw [hs.kv_eq, replay_eq_last _ hs.answers]
  intro hnone
  have hnil := List.getLast?_eq_none_iff.mp (Option.map_eq_none_iff.mp hnone)
  simp [ver, hnil] at hv

theorem ver_congr {t : State ι} (hexecs : t.execs = s.execs) : ver k t = ver k s := by
  simp only [ver, State.history, hexecs]

theorem ver_serveHead (s : State ι) (rid : ℕ) (rest : List ℕ) (q : Request) :
    ver k (s.serveHead rid rest q) =
      ver k s + (appliedArgs k (q.op, (serve s.kv q.op).2)).toList.length := by
  rw [ver, Served.history_serveHead, applied_concat, List.length_append, ver]

end Key

section Answers

variable {s t : State ι} {c : ι}

theorem seen_congr (hcall : t.callOf c = s.callOf c) (hexecs : t.execs = s.execs) :
    Seen t c = Seen s c := by
  funext r
  apply propext
  constructor
  · rintro ⟨call, hc, e, he, ho, hr⟩
    obtain ⟨call', hc', hid, _⟩ := State.call_of_callOf_eq hcall hc
    exact ⟨call', hc', e, hexecs ▸ he, ho.trans hid.symm, hr⟩
  · rintro ⟨call, hc, e, he, ho, hr⟩
    obtain ⟨call', hc', hid, _⟩ := State.call_of_callOf_eq hcall.symm hc
    exact ⟨call', hc', e, hexecs ▸ he, ho.trans hid.symm, hr⟩

theorem seen_of_idle (h : s.clerks c = none) : Seen s c = fun _ => False := by
  funext r
  apply propext
  refine ⟨?_, False.elim⟩
  rintro ⟨call, hc, _⟩
  rw [h] at hc
  cases hc

/-- An answer is seen by the client whose call it answers. -/
theorem seen_serveHead {rid : ℕ} {rest : List ℕ} {q : Request} {call : Call}
    (hcall : s.clerks c = some call) (hid : q.opId = call.opId) :
    Seen (s.serveHead rid rest q) c = fun r => Seen s c r ∨ r = (serve s.kv q.op).2 := by
  funext r
  apply propext
  constructor
  · rintro ⟨call', hc, e, he, ho, hr⟩
    obtain rfl : call = call' := Option.some.inj (hcall.symm.trans hc)
    rcases List.mem_append.mp he with hold | hlast
    · exact Or.inl ⟨call, hcall, e, hold, ho, hr⟩
    · obtain rfl := List.mem_singleton.mp hlast
      exact Or.inr hr.symm
  · rintro (⟨call', hc, e, he, ho, hr⟩ | hr)
    · exact ⟨call', hc, e, List.mem_append_left _ he, ho, hr⟩
    · exact ⟨call, hcall, _, List.mem_append_right _ (List.mem_singleton.mpr rfl), hid, hr.symm⟩

/-- The answer to another client's request is not seen. -/
theorem seen_serveHead_foreign {rid : ℕ} {rest : List ℕ} {q : Request}
    (hq : ∀ call, s.clerks c = some call → q.opId ≠ call.opId) :
    Seen (s.serveHead rid rest q) c = Seen s c := by
  funext r
  apply propext
  constructor
  · rintro ⟨call, hc, e, he, ho, hr⟩
    rcases List.mem_append.mp he with hold | hlast
    · exact ⟨call, hc, e, hold, ho, hr⟩
    · obtain rfl := List.mem_singleton.mp hlast
      exact absurd ho (hq call hc)
  · rintro ⟨call, hc, e, he, ho, hr⟩
    exact ⟨call, hc, e, List.mem_append_left _ he, ho, hr⟩

/-- A request is of a client's call in progress, or its answer is not seen by the client. -/
theorem seen_serveHead_cases (hwf : WellFormed s) {rid : ℕ} (rest : List ℕ) {q : Request}
    (hreq : s.reqs[rid]? = some q) (c : ι) :
    Seen (s.serveHead rid rest q) c = Seen s c ∨
      ∃ call, s.clerks c = some call ∧ call.op = q.op ∧
        Seen (s.serveHead rid rest q) c = fun r => Seen s c r ∨ r = (serve s.kv q.op).2 := by
  by_cases hmine : ∃ call, s.clerks c = some call ∧ q.opId = call.opId
  · obtain ⟨call, hcall, hid⟩ := hmine
    exact Or.inr ⟨call, hcall, (hwf.req_call_op hcall hreq hid).symm, seen_serveHead hcall hid⟩
  · exact Or.inl (seen_serveHead_foreign fun call hcall hid => hmine ⟨call, hcall, hid⟩)

variable [DecidableEq ι]

theorem seen_invoke (hwf : WellFormed s) (op : KvOp) (hidle : s.clerks c = none) (d : ι) :
    Seen (s.invoke c op) d = Seen s d := by
  by_cases hd : d = c
  · subst hd
    rw [seen_of_idle hidle]
    funext r
    apply propext
    refine ⟨?_, False.elim⟩
    rintro ⟨call, hc, e, he, ho, _⟩
    -- nothing was executed for the new call
    obtain rfl : _ = call := Option.some.inj (by simpa using hc)
    have hlt := hwf.req_opId_lt (hwf.exec_req e he).1
    simp only at ho hlt
    omega
  · exact seen_congr (by simp [State.callOf, hd]) rfl

/-- A client without a call in progress goes on at another place; what the
others know is not touched. -/
theorem known_update {α : Type*} {P : ι → (KvReply → Prop) → α → Prop} {place : ι → α} {a : α}
    (hexecs : t.execs = s.execs) (hothers : ∀ d, d ≠ c → t.clerks d = s.clerks d)
    (hidle : t.clerks c = none) (h : ∀ d, P d (Seen s d) (place d))
    (hc : P c (fun _ => False) a) (d : ι) : P d (Seen t d) (Function.update place c a d) := by
  by_cases hd : d = c
  · subst hd
    rw [Function.update_self, seen_of_idle hidle]
    exact hc
  · rw [Function.update_of_ne hd, seen_congr (by simp only [State.callOf, hothers d hd]) hexecs]
    exact h d

end Answers

structure Behind (k : String) (s : State ι) : Prop where
  call_le : ∀ c call args, s.clerks c = some call → call.op = .put args → args.key = k →
    args.version.toNat ≤ ver k s
  answered : ∀ c call args, s.clerks c = some call → call.op = .put args → args.key = k →
    ∀ e ∈ s.execs, e.opId = call.opId → args.version.toNat < ver k s
  inflight : ∀ (rid : ℕ) (q : Request) (args : PutArgs), s.reqs[rid]? = some q →
    (s.status rid).InFlight → q.op = .put args → args.key = k →
    args.version.toNat ≤ ver k s ∧ (args.version.toNat = ver k s →
      ∃ c call, s.clerks c = some call ∧ call.opId = q.opId)

namespace Behind

variable {k : String} {s t : State ι}

theorem initial : Behind k (initial : State ι) where
  call_le c call args h := by simp [Clerk.initial] at h
  answered c call args h := by simp [Clerk.initial] at h
  inflight rid q args h := by simp [Clerk.initial] at h

/-- A Put on the key that is refused is behind the key's version. -/
theorem lt_of_refused {args : PutArgs} (hserved : Served s) (hb : ver k s < 2 ^ 64)
    (hle : args.version.toNat ≤ ver k s) (hkey : args.key = k)
    (hun : appliedArgs k (.put args, (serve s.kv (.put args)).2) = none) :
    args.version.toNat < ver k s := by
  have hver := version_eq_ver hserved hb
  rcases put_cases s.kv args with ⟨_, hput⟩ | ⟨hne, _, _⟩ | ⟨hne, hnone, _⟩
  · have happ : appliedArgs k (.put args, (serve s.kv (.put args)).2) = some args :=
      appliedArgs_eq_some.mpr ⟨rfl, hkey, by simp [serve, hput, KvReply.Applied]⟩
    rw [hun] at happ
    cases happ
  · rw [hkey] at hne
    have hne' : (version s.kv k).toNat ≠ args.version.toNat :=
      fun heq => hne (UInt64.toNat_inj.mp heq)
    omega
  · rw [hkey] at hnone
    have hzero : (version s.kv k).toNat = 0 := by simp [version, hnone]
    have hpos : args.version.toNat ≠ 0 := fun hzero => hne (UInt64.toNat_inj.mp hzero)
    omega

/-- An applied Put on the key belongs to a call in progress and has its version. -/
theorem handover (hs : Behind k s) (hwf : WellFormed s) (hserved : Served s)
    (hb : ver k s < 2 ^ 64) {rid : ℕ} {rest : List ℕ} {q : Request} {args : PutArgs}
    (hq : s.opQ = rid :: rest) (hreq : s.reqs[rid]? = some q)
    (happ : appliedArgs k (q.op, (serve s.kv q.op).2) = some args) :
    ∃ c call, s.clerks c = some call ∧ q.opId = call.opId ∧ call.op = .put args ∧
      args.version.toNat = ver k s := by
  obtain ⟨hop, hkey, hok⟩ := appliedArgs_eq_some.mp happ
  obtain ⟨args', hop', hmatch, _⟩ := KVServer.serve_applied _ _ hok
  obtain rfl := KvOp.put.inj (hop.symm.trans hop')
  rw [hkey] at hmatch
  have hcur : args.version.toNat = ver k s := by
    rw [← hmatch]
    exact version_eq_ver hserved hb
  have hqueued : (s.status rid).InFlight :=
    Or.inr ((hwf.queue_mem rid).mp (by simp [hq])).2
  obtain ⟨c, call, hcall, hid⟩ := (hs.inflight rid q args hreq hqueued hop hkey).2 hcur
  refine ⟨c, call, hcall, hid.symm, ?_, hcur⟩
  rw [← hwf.req_call_op hcall hreq hid.symm, hop]

/-- Fewer requests are in flight. -/
theorem forget (hs : Behind k s) {status : ℕ → Status} {opQ : List ℕ} {clock : ℕ}
    (hfl : ∀ rid, (status rid).InFlight → (s.status rid).InFlight) :
    Behind k { s with status, opQ, clock } where
  call_le := hs.call_le
  answered := hs.answered
  inflight rid q args hq h := hs.inflight rid q args hq (hfl rid h)

theorem serve (hs : Behind k s) (hwf : WellFormed s) (hserved : Served s)
    (hb : ver k s < 2 ^ 64) {rid : ℕ} {rest : List ℕ} {q : Request}
    (hreq : s.reqs[rid]? = some q) : Behind k (s.serveHead rid rest q) := by
  have hver : ver k (s.serveHead rid rest q) = ver k s +
      (appliedArgs k (q.op, (KVServer.serve s.kv q.op).2)).toList.length :=
    ver_serveHead s rid rest q
  have hmono : ver k s ≤ ver k (s.serveHead rid rest q) := by omega
  refine ⟨?_, ?_, ?_⟩
  · intro c call args hcall hop hkey
    exact (hs.call_le c call args hcall hop hkey).trans hmono
  · intro c call args hcall hop hkey e he ho
    rcases List.mem_append.mp he with hold | hnew
    · exact Nat.lt_of_lt_of_le (hs.answered c call args hcall hop hkey e hold ho) hmono
    · obtain rfl := List.mem_singleton.mp hnew
      have hqop : q.op = .put args := (hwf.req_call_op hcall hreq ho).trans hop
      have hle := hs.call_le c call args hcall hop hkey
      cases happ : appliedArgs k (q.op, (KVServer.serve s.kv q.op).2) with
      | none =>
        rw [hqop] at happ
        exact Nat.lt_of_lt_of_le (lt_of_refused hserved hb hle hkey happ) hmono
      | some args' =>
        rw [happ] at hver
        simp only [Option.toList_some, List.length_singleton] at hver
        omega
  · intro r q' args hq' hfl hop hkey
    have hne : r ≠ rid := by
      rintro rfl
      simp [Status.InFlight] at hfl
    obtain ⟨hle, hopen⟩ := hs.inflight r q' args hq' (by simpa [hne] using hfl) hop hkey
    exact ⟨hle.trans hmono, fun heq => hopen (by omega)⟩

theorem drop (hs : Behind k s) {rid : ℕ} (hsent : s.status rid = .sent) :
    Behind k (s.drop rid) := by
  refine hs.forget ?_
  intro r hfl
  by_cases hr : r = rid
  · subst hr
    exact Or.inl hsent
  · simpa [hr] using hfl

theorem enqueue (hs : Behind k s) {rid : ℕ} (hsent : s.status rid = .sent) :
    Behind k (s.enqueue rid) := by
  refine hs.forget ?_
  intro r hfl
  by_cases hr : r = rid
  · subst hr
    exact Or.inl hsent
  · simpa [hr] using hfl

variable [DecidableEq ι]

theorem invoke (hs : Behind k s) (hwf : WellFormed s) (c : ι) (op : KvOp)
    (hidle : s.clerks c = none)
    (hle : ∀ args, op = .put args → args.key = k → args.version.toNat ≤ ver k s) :
    Behind k (s.invoke c op) where
  call_le d call args hcall hop hkey := by
    rcases update_eq_some hcall with ⟨rfl, h⟩ | ⟨_, hold⟩
    · obtain rfl := Option.some.inj h
      exact hle args hop hkey
    · exact hs.call_le d call args hold hop hkey
  answered d call args hcall hop hkey e he ho := by
    rcases update_eq_some hcall with ⟨rfl, h⟩ | ⟨_, hold⟩
    · -- nothing was executed for the new call
      obtain rfl := Option.some.inj h
      obtain ⟨_, _, hinv⟩ := hwf.exec_op he
      have hlt := getElem?_lt hinv
      simp only at ho
      omega
    · exact hs.answered d call args hold hop hkey e he ho
  inflight rid q args hq hfl hop hkey := by
    obtain ⟨hle, hopen⟩ := hs.inflight rid q args hq hfl hop hkey
    refine ⟨hle, fun heq => ?_⟩
    obtain ⟨d, call, hcall, hid⟩ := hopen heq
    have hne : d ≠ c := by
      rintro rfl
      rw [hidle] at hcall
      cases hcall
    exact ⟨d, call, by simpa [hne] using hcall, hid⟩

/-- A clerk's attempts change nothing in the arguments of its call. -/
theorem attempt (hs : Behind k s) {c : ι} {call : Call} (hcall : s.clerks c = some call)
    (call' : Call) (hid : call'.opId = call.opId) (hop : call'.op = call.op) {s' : State ι}
    (hclerks : s'.clerks = Function.update s.clerks c (some call'))
    (hexecs : s'.execs = s.execs)
    (hinflight : ∀ (rid : ℕ) (q : Request), s'.reqs[rid]? = some q → (s'.status rid).InFlight →
      s.reqs[rid]? = some q ∧ (s.status rid).InFlight ∨ q = ⟨call.opId, call.op⟩) :
    Behind k s' := by
  have hver : ver k s' = ver k s := ver_congr hexecs
  have hcalls : ∀ d call₁, s'.clerks d = some call₁ →
      ∃ call₂, s.clerks d = some call₂ ∧ call₁.opId = call₂.opId ∧ call₁.op = call₂.op := by
    intro d call₁ h
    rw [hclerks] at h
    rcases update_eq_some h with ⟨rfl, heq⟩ | ⟨_, hold⟩
    · obtain rfl := Option.some.inj heq
      exact ⟨call, hcall, hid, hop⟩
    · exact ⟨call₁, hold, rfl, rfl⟩
  have hopen : ∀ o, (∃ d call₂, s.clerks d = some call₂ ∧ call₂.opId = o) →
      ∃ d call₁, s'.clerks d = some call₁ ∧ call₁.opId = o := by
    rintro o ⟨d, call₂, h, ho⟩
    by_cases hd : d = c
    · subst hd
      obtain rfl := Option.some.inj (hcall.symm.trans h)
      exact ⟨d, call', by simp [hclerks], hid.trans ho⟩
    · exact ⟨d, call₂, by simpa [hclerks, hd] using h, ho⟩
  refine ⟨?_, ?_, ?_⟩
  · intro d call₁ args h hput hkey
    obtain ⟨call₂, h₂, _, hop₂⟩ := hcalls d call₁ h
    rw [hver]
    exact hs.call_le d call₂ args h₂ (hop₂ ▸ hput) hkey
  · intro d call₁ args h hput hkey e he ho
    obtain ⟨call₂, h₂, hid₂, hop₂⟩ := hcalls d call₁ h
    rw [hver]
    rw [hexecs] at he
    exact hs.answered d call₂ args h₂ (hop₂ ▸ hput) hkey e he (ho.trans hid₂)
  · intro rid q args hq hfl hput hkey
    rw [hver]
    rcases hinflight rid q hq hfl with ⟨hq', hfl'⟩ | rfl
    · obtain ⟨hle, hcur⟩ := hs.inflight rid q args hq' hfl' hput hkey
      exact ⟨hle, fun heq => hopen _ (hcur heq)⟩
    · exact ⟨hs.call_le c call args hcall hput hkey, fun _ => hopen _ ⟨c, call, hcall, rfl⟩⟩

theorem send (hs : Behind k s) {c : ι} {call : Call} (hcall : s.clerks c = some call) :
    Behind k (s.send c call) := by
  refine hs.attempt hcall { call with i := call.i + 1, rid := some s.reqs.length }
    rfl rfl rfl rfl ?_
  intro rid q hq hfl
  rcases getElem?_concat_cases hq with hold | ⟨_, rfl⟩
  · have hne : rid ≠ s.reqs.length := (getElem?_lt hold).ne
    exact Or.inl ⟨hold, by simpa [hne] using hfl⟩
  · exact Or.inr rfl

theorem retry (hs : Behind k s) {c : ι} {call : Call} (hcall : s.clerks c = some call) :
    Behind k (s.retry c call) :=
  hs.attempt hcall { call with rid := none } rfl rfl rfl rfl
    fun _ _ hq hfl => Or.inl ⟨hq, hfl⟩

theorem finish (hs : Behind k s) (hwf : WellFormed s) (hserved : Served s) {c : ι} {call : Call}
    {rid : ℕ} {reply : KvReply} (res : KvReply) (hcall : s.clerks c = some call)
    (hrid : call.rid = some rid) (hst : s.status rid = .served reply) :
    Behind k (s.finish c call rid res) where
  call_le d call' args h := by
    rcases update_eq_some h with ⟨_, hnone⟩ | ⟨_, hold⟩
    · cases hnone
    · exact hs.call_le d call' args hold
  answered d call' args h := by
    rcases update_eq_some h with ⟨_, hnone⟩ | ⟨_, hold⟩
    · cases hnone
    · exact hs.answered d call' args hold
  inflight r q args hq hfl hop hkey := by
    obtain ⟨hle, hopen⟩ := hs.inflight r q args hq hfl hop hkey
    refine ⟨hle, fun heq => ?_⟩
    obtain ⟨d, call', hcall', hid⟩ := hopen heq
    have hne : d ≠ c := by
      rintro rfl
      -- the call that returns was answered, so its version is behind
      obtain rfl := Option.some.inj (hcall.symm.trans hcall')
      obtain ⟨e, he, _, ho, _⟩ := taken_answer hwf hserved hcall hrid hst
      have hcallop : call.op = .put args := by rw [← hwf.req_call_op hcall hq hid.symm, hop]
      have hlt := hs.answered d call args hcall hcallop hkey e he ho
      have heq' : args.version.toNat = ver k s := heq
      omega
    exact ⟨d, call', by simpa [hne] using hcall', hid⟩

end Behind

/-- A call that got two different answers was sent more than once. -/
theorem resent_of_answers {s : State ι} (hwf : WellFormed s) (hcount : Counted s) {c : ι}
    {call : Call} {args : PutArgs} (hcall : s.clerks c = some call) (hop : call.op = .put args)
    (hb : s.puts args.key < 2 ^ 64) {r r' : KvReply} (hr : Seen s c r) (hr' : Seen s c r')
    (hne : r ≠ r') : 1 < call.i := by
  obtain ⟨call₁, hcall₁, e₁, he₁, ho₁, hr₁⟩ := hr
  obtain ⟨call₂, hcall₂, e₂, he₂, ho₂, hr₂⟩ := hr'
  obtain rfl := Option.some.inj (hcall.symm.trans hcall₁)
  obtain rfl := Option.some.inj (hcall.symm.trans hcall₂)
  obtain ⟨_, time, hinv⟩ := hwf.clerk_op c call hcall
  have hle : s.sends call.opId ≤ s.puts args.key :=
    hwf.sends_le_puts hinv (by simp [hop, KvOp.PutsOn])
  have hi := hcount.call_i c call hcall
  rw [Nat.mod_eq_of_lt (by omega)] at hi
  by_contra hnot
  have honce : s.sends call.opId ≤ 1 := by
    have hlt : ¬ (1 : UInt64).toNat < call.i.toNat := hnot
    rw [hi] at hlt
    simpa using hlt
  obtain rfl := only_exec_of_single_send hwf honce he₁ he₂ ho₁ ho₂
  exact hne (hr₁.symm.trans hr₂)

end DistributedLabs.Clerk
