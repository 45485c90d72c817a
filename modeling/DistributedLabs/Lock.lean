import DistributedLabs.Clerk

/-!
The spin lock of kvsrv1/lock over a clerk. Each client is one goroutine that
calls Acquire and Release, in any order, and may use its clerk for anything but
Puts on the lock's key in between. The program counter names the clerk call of
Acquire or Release that is due or in progress; the clerks, the network and the
server are those of `Clerk`.
-/
namespace DistributedLabs.Lock

open KVServer Transition

def emptyLockOwnerId : String := ""

/-- The panic branches of Acquire and Release. -/
inductive Panic
  | acquireKeyDeleted
  | acquirePutNoKey
  | releasePutVersion
  | releaseKeyDeleted
  | releasePutNoKey
  deriving DecidableEq, Repr

inductive Pc
  | idle
  | other
  | acquireGet
  | acquirePut (version : Tversion)
  | acquireCheck
  | releaseGet
  | releasePut (version : Tversion)
  | releaseCheck
  | panicked (p : Panic)
  deriving DecidableEq, Repr

/-- Inside a call of Acquire. -/
def Pc.Acquiring : Pc → Prop
  | .acquireGet => True
  | .acquirePut _ => True
  | .acquireCheck => True
  | .idle => False
  | .other => False
  | .releaseGet => False
  | .releasePut _ => False
  | .releaseCheck => False
  | .panicked _ => False

/-- Outside Acquire and Release, perhaps in a clerk call of the application. -/
def Pc.Outside : Pc → Prop
  | .idle => True
  | .other => True
  | .acquireGet => False
  | .acquirePut _ => False
  | .acquireCheck => False
  | .releaseGet => False
  | .releasePut _ => False
  | .releaseCheck => False
  | .panicked _ => False

/-- Inside a call of Release. -/
def Pc.Releasing : Pc → Prop
  | .releaseGet => True
  | .releasePut _ => True
  | .releaseCheck => True
  | .idle => False
  | .other => False
  | .acquireGet => False
  | .acquirePut _ => False
  | .acquireCheck => False
  | .panicked _ => False

/-- The clerk call the code makes at a program counter. -/
def Pc.op (name id : String) : Pc → Option KvOp
  | .acquireGet => some (.get ⟨name⟩)
  | .acquirePut version => some (.put ⟨name, id, version⟩)
  | .acquireCheck => some (.get ⟨name⟩)
  | .releaseGet => some (.get ⟨name⟩)
  | .releasePut version => some (.put ⟨name, emptyLockOwnerId, version⟩)
  | .releaseCheck => some (.get ⟨name⟩)
  | .idle => none
  | .other => none
  | .panicked _ => none

/-- Where the code goes when the clerk call returns. -/
inductive Next
  | go (pc : Pc)
  | acquired
  | released
  deriving DecidableEq, Repr

def unowned (reply : GetReply) : Prop :=
  reply.err = .errNoKey ∨ reply.value = emptyLockOwnerId

instance (reply : GetReply) : Decidable (unowned reply) :=
  inferInstanceAs (Decidable (_ ∨ _))

/-- The body of Acquire's loop, cut at its clerk calls. -/
def acquire (id : String) : Pc → KvReply → Next
  | .acquireGet, .get reply =>
    if unowned reply then .go (.acquirePut reply.version)
    else if reply.value = id then .acquired
    else .go .acquireGet
  | .acquirePut _, .put ⟨.ok⟩ => .acquired
  | .acquirePut _, .put ⟨.errVersion⟩ => .go .acquireGet
  | .acquirePut _, .put ⟨.errMaybe⟩ => .go .acquireCheck
  | .acquirePut _, .put ⟨.errNoKey⟩ => .go (.panicked .acquirePutNoKey)
  | .acquireCheck, .get reply =>
    if reply.err = .errNoKey then .go (.panicked .acquireKeyDeleted)
    else if reply.value = id then .acquired
    else .go .acquireGet
  | _, _ => .go .acquireGet

/-- The body of Release's loop, cut at its clerk calls. -/
def release (id : String) : Pc → KvReply → Next
  | .releaseGet, .get reply =>
    if unowned reply ∨ reply.value ≠ id then .released
    else .go (.releasePut reply.version)
  | .releasePut _, .put ⟨.ok⟩ => .released
  | .releasePut _, .put ⟨.errVersion⟩ => .go (.panicked .releasePutVersion)
  | .releasePut _, .put ⟨.errMaybe⟩ => .go .releaseCheck
  | .releasePut _, .put ⟨.errNoKey⟩ => .go (.panicked .releasePutNoKey)
  | .releaseCheck, .get reply =>
    if reply.err = .errNoKey then .go (.panicked .releaseKeyDeleted)
    else if reply.value ≠ emptyLockOwnerId then .go .releaseGet
    else .released
  | _, _ => .go .releaseGet

def resume (id : String) (pc : Pc) (res : KvReply) : Next :=
  match pc with
  | .acquireGet => acquire id pc res
  | .acquirePut _ => acquire id pc res
  | .acquireCheck => acquire id pc res
  | .releaseGet => release id pc res
  | .releasePut _ => release id pc res
  | .releaseCheck => release id pc res
  | .other => .go .idle
  | .idle => .go pc
  | .panicked _ => .go pc

/-- Acquire goes on in its own code, or returns. -/
theorem acquire_cases (id : String) (pc : Pc) (res : KvReply) :
    (∃ pc', acquire id pc res = .go pc' ∧ (pc'.Acquiring ∨ ∃ p, pc' = .panicked p)) ∨
      acquire id pc res = .acquired := by
  fun_cases acquire <;> simp [Pc.Acquiring]

theorem release_cases (id : String) (pc : Pc) (res : KvReply) :
    (∃ pc', release id pc res = .go pc' ∧ (pc'.Releasing ∨ ∃ p, pc' = .panicked p)) ∨
      release id pc res = .released := by
  fun_cases release <;> simp [Pc.Releasing]

/-- `held c`: c has returned from Acquire and not yet called Release. -/
structure State (ι : Type*) where
  net : Clerk.State ι
  pc : ι → Pc
  held : ι → Bool

variable {ι : Type*}

def initial : State ι where
  net := Clerk.initial
  pc := fun _ => .idle
  held := fun _ => false

inductive Label (ι : Type*)
  | acquire (c : ι)
  | release (c : ι)
  | clerk (l : Clerk.Label ι)

variable [DecidableEq ι]

namespace State

def jump (s : State ι) (c : ι) (pc : Pc) : State ι :=
  { s with pc := Function.update s.pc c pc }

/-- Resume the code of `c` with the result of its clerk call. -/
def next (s : State ι) (c : ι) : Next → State ι
  | .go pc => s.jump c pc
  | .acquired => { s.jump c .idle with held := Function.update s.held c true }
  | .released => s.jump c .idle

end State

def step (name : String) (id : ι → String) (s : State ι) : Label ι → Option (State ι)
  | .acquire c => if s.pc c = .idle then some (s.jump c .acquireGet) else none
  | .release c =>
    if s.pc c = .idle then
      some { s.jump c .releaseGet with held := Function.update s.held c false }
    else none
  | .clerk (.invoke c op) =>
    if (s.pc c).op name (id c) = some op then
      (Clerk.step s.net (.invoke c op)).map fun net => { s with net }
    else if s.pc c = .idle ∧ op.PutsOn name = false then
      (Clerk.step s.net (.invoke c op)).map fun net => { s.jump c .other with net }
    else none
  | .clerk (.deliver c) =>
    (Clerk.step s.net (.deliver c)).map fun net =>
      match Clerk.answer s.net c with
      | some res => { s with net }.next c (resume (id c) (s.pc c) res)
      | none => { s with net }
  | .clerk l => (Clerk.step s.net l).map fun net => { s with net }

def system (name : String) (id : ι → String) : System (State ι) (Label ι) where
  start s := s = initial
  step := step name id

/-- What each label can do, with its guard. -/
inductive Step (name : String) (id : ι → String) : State ι → State ι → Prop
  | acquire (s : State ι) (c : ι) (hpc : s.pc c = .idle) :
      Step name id s (s.jump c .acquireGet)
  | release (s : State ι) (c : ι) (hpc : s.pc c = .idle) :
      Step name id s
        { s.jump c .releaseGet with held := Function.update s.held c false }
  | call (s : State ι) (c : ι) (op : KvOp) (hop : (s.pc c).op name (id c) = some op)
      (hidle : s.net.clerks c = none) : Step name id s { s with net := s.net.invoke c op }
  | other (s : State ι) (c : ι) (op : KvOp) (hpc : s.pc c = .idle)
      (hputs : op.PutsOn name = false) (hidle : s.net.clerks c = none) :
      Step name id s { s.jump c .other with net := s.net.invoke c op }
  | send (s : State ι) (c : ι) (call : Clerk.Call) (hcall : s.net.clerks c = some call) :
      Step name id s { s with net := s.net.send c call }
  | drop (s : State ι) (rid : ℕ) (hsent : s.net.status rid = .sent) :
      Step name id s { s with net := s.net.drop rid }
  | enqueue (s : State ι) (rid : ℕ) (hsent : s.net.status rid = .sent) :
      Step name id s { s with net := s.net.enqueue rid }
  | serve (s : State ι) (rid : ℕ) (rest : List ℕ) (q : Clerk.Request)
      (hq : s.net.opQ = rid :: rest) (hreq : s.net.reqs[rid]? = some q) :
      Step name id s { s with net := s.net.serveHead rid rest q }
  | retry (s : State ι) (c : ι) (call : Clerk.Call) (hcall : s.net.clerks c = some call) :
      Step name id s { s with net := s.net.retry c call }
  | ret (s : State ι) (c : ι) (call : Clerk.Call) (rid : ℕ) (reply res : KvReply)
      (hcall : s.net.clerks c = some call) (hrid : call.rid = some rid)
      (hserved : s.net.status rid = .served reply) (hfin : call.finish reply = some res) :
      Step name id s ({ s with net := s.net.finish c call rid res }.next c
        (resume (id c) (s.pc c) res))

/-- Clerk steps that the application does not see. -/
private theorem step_sound_inner {name : String} {id : ι → String} {s : State ι}
    {l : Clerk.Label ι} {net : Clerk.State ι} (h : Clerk.Step s.net l net)
    (hinvoke : ∀ c op, l ≠ .invoke c op) (hdeliver : ∀ c, l ≠ .deliver c) :
    Step name id s { s with net } := by
  cases h with
  | invoke c op hidle => exact absurd rfl (hinvoke c op)
  | send c call hcall hrid => exact .send s c call hcall
  | drop rid hlt hsent => exact .drop s rid hsent
  | enqueue rid hlt hsent hcap => exact .enqueue s rid hsent
  | serve rid rest q hq hreq => exact .serve s rid rest q hq hreq
  | fail c call rid hcall hrid => exact .retry s c call hcall
  | again c call rid reply hcall hrid hserved hfin => exact absurd rfl (hdeliver c)
  | finish c call rid reply res hcall hrid hserved hfin => exact absurd rfl (hdeliver c)

theorem step_sound {name : String} {id : ι → String} {s t : State ι} {l : Label ι}
    (h : step name id s l = some t) : Step name id s t := by
  cases l with
  | acquire c =>
    simp only [step] at h
    split at h
    · cases h
      exact .acquire s c ‹_›
    · cases h
  | release c =>
    simp only [step] at h
    split at h
    · cases h
      exact .release s c ‹_›
    · cases h
  | clerk l =>
    cases l with
    | invoke c op =>
      simp only [step] at h
      split at h
      · obtain ⟨net, hnet, rfl⟩ := Option.map_eq_some_iff.mp h
        cases Clerk.step_sound hnet with
        | invoke _ _ hidle => exact .call s c op ‹_› hidle
      · split at h
        · rename_i hg
          obtain ⟨net, hnet, rfl⟩ := Option.map_eq_some_iff.mp h
          cases Clerk.step_sound hnet with
          | invoke _ _ hidle => exact .other s c op hg.1 hg.2 hidle
        · cases h
    | deliver c =>
      obtain ⟨net, hnet, rfl⟩ := Option.map_eq_some_iff.mp h
      cases Clerk.step_sound hnet with
      | again _ call rid reply hcall hrid hserved hfin =>
        simp only [Clerk.answer, hcall, hrid, hserved, hfin]
        exact .retry s c call hcall
      | finish _ call rid reply res hcall hrid hserved hfin =>
        simp only [Clerk.answer, hcall, hrid, hserved, hfin]
        exact .ret s c call rid reply res hcall hrid hserved hfin
    | send c =>
      obtain ⟨net, hnet, rfl⟩ := Option.map_eq_some_iff.mp h
      exact step_sound_inner (Clerk.step_sound hnet) (by simp) (by simp)
    | drop rid =>
      obtain ⟨net, hnet, rfl⟩ := Option.map_eq_some_iff.mp h
      exact step_sound_inner (Clerk.step_sound hnet) (by simp) (by simp)
    | enqueue rid =>
      obtain ⟨net, hnet, rfl⟩ := Option.map_eq_some_iff.mp h
      exact step_sound_inner (Clerk.step_sound hnet) (by simp) (by simp)
    | serve =>
      obtain ⟨net, hnet, rfl⟩ := Option.map_eq_some_iff.mp h
      exact step_sound_inner (Clerk.step_sound hnet) (by simp) (by simp)
    | fail c =>
      obtain ⟨net, hnet, rfl⟩ := Option.map_eq_some_iff.mp h
      exact step_sound_inner (Clerk.step_sound hnet) (by simp) (by simp)

@[simp]
theorem net_next (s : State ι) (c : ι) (n : Next) : (s.next c n).net = s.net := by
  cases n <;> rfl

theorem step_net {name : String} {id : ι → String} {s t : State ι} {l : Label ι}
    (h : step name id s l = some t) :
    t.net = s.net ∨ ∃ l', Clerk.step s.net l' = some t.net := by
  cases l with
  | acquire c =>
    simp only [step] at h
    split at h
    · cases h
      exact Or.inl rfl
    · cases h
  | release c =>
    simp only [step] at h
    split at h
    · cases h
      exact Or.inl rfl
    · cases h
  | clerk l =>
    refine Or.inr ⟨l, ?_⟩
    cases l with
    | invoke c op =>
      simp only [step] at h
      split at h
      · obtain ⟨net, hnet, rfl⟩ := Option.map_eq_some_iff.mp h
        exact hnet
      · split at h
        · obtain ⟨net, hnet, rfl⟩ := Option.map_eq_some_iff.mp h
          exact hnet
        · cases h
    | deliver c =>
      obtain ⟨net, hnet, rfl⟩ := Option.map_eq_some_iff.mp h
      split
      · rw [hnet, net_next]
      · exact hnet
    | _ =>
      obtain ⟨net, hnet, rfl⟩ := Option.map_eq_some_iff.mp h
      exact hnet

/-- The clerks, the network and the server under the lock run as they do under
any application. -/
theorem net_reaches {name : String} {id : ι → String} {s t : State ι}
    (h : (system name id).Reaches s t) : Clerk.system.Reaches s.net t.net :=
  h.map State.net fun _ _ _ hstep => step_net hstep

theorem net_reachable {name : String} {id : ι → String} {s : State ι}
    (h : (system name id).Reachable s) : Clerk.system.Reachable s.net := by
  refine System.Reachable.map (T := Clerk.system) State.net ?_ ?_ h
  · rintro s rfl
    rfl
  · intro s l t hstep
    exact step_net hstep

end DistributedLabs.Lock
