import DistributedLabs.ClerkClients
import DistributedLabs.LockSafety

/-!
The clients of kvsrv1/lock/lock_test.go. Each makes two locks over its clerk, takes and
releases both once, and then goes round a loop: under the first lock it reads the key l0,
which must be empty, writes its name there and empties it again. Seen from one lock, what a
client does with the other lock and with l0 is just other use of its clerk, so each lock runs
here as it does in `Lock`.
-/
namespace DistributedLabs.LockTest

open KVServer Transition Tables

inductive Lk
  | lk1
  | lk2
  deriving DecidableEq, Repr

/-- The names of the locks, the ids that MakeLock draws for them and the clients' numbers as
text. The names and the ids are random; they are taken to be different. -/
structure Setup (ι : Type*) where
  name : Lk → String
  id : Lk → ι → String
  me : ι → String
  name_ne : name .lk1 ≠ name .lk2
  name_ne_l0 : ∀ l, name l ≠ "l0"
  id_injective : ∀ l, Function.Injective (id l)
  id_ne_empty : ∀ l c, id l c ≠ Lock.emptyLockOwnerId

/-- The calls of Acquire and Release, in the order of the text of oneClient. -/
inductive LockCall
  | acquire1
  | acquire2
  | release1
  | release2
  | enter
  | leave
  deriving DecidableEq, Repr

def LockCall.lock : LockCall → Lk
  | .acquire1 => .lk1
  | .acquire2 => .lk2
  | .release1 => .lk1
  | .release2 => .lk2
  | .enter => .lk1
  | .leave => .lk1

/-- Whether it calls Acquire. -/
def LockCall.acquires : LockCall → Bool
  | .acquire1 => true
  | .acquire2 => true
  | .release1 => false
  | .release2 => false
  | .enter => true
  | .leave => false

def LockCall.start (m : LockCall) : Lock.Pc := if m.acquires then .acquireGet else .releaseGet

/-- The calls of Fatalf, with what they print besides the client's number. -/
inductive Failure
  | twoClients (val : String)
  | getFailed (err : Err)
  | putFailed (err : Err)
  deriving DecidableEq, Repr

/-- Where oneClient is: before a call of Acquire or Release, inside one, or at one of its own
clerk calls: `init` is the Put before the loop, `top` the select. -/
inductive Pc
  | before (m : LockCall)
  | inside (m : LockCall) (pc : Lock.Pc)
  | init
  | top
  | get
  | mark (ver : Tversion)
  | clear (ver : Tversion)
  | returned
  | failed (f : Failure)
  deriving DecidableEq, Repr

/-- What follows the call. -/
def LockCall.after : LockCall → Pc
  | .acquire1 => .before .acquire2
  | .acquire2 => .before .release1
  | .release1 => .before .release2
  | .release2 => .init
  | .enter => .get
  | .leave => .top

variable {ι : Type*}

/-- The clerk call that is due. -/
def Pc.op (S : Setup ι) (c : ι) : Pc → Option KvOp
  | .inside m pc => pc.op (S.name m.lock) (S.id m.lock c)
  | .init => some (.put ⟨"l0", "", 0⟩)
  | .get => some (.get ⟨"l0"⟩)
  | .mark ver => some (.put ⟨"l0", S.me c, ver⟩)
  | .clear ver => some (.put ⟨"l0", "", ver + 1⟩)
  | .before _ => none
  | .top => none
  | .returned => none
  | .failed _ => none

/-- oneClient goes on with the result of a clerk call. -/
def resume (S : Setup ι) (c : ι) : Pc → KvReply → Pc
  | .inside m pc, res =>
    match Lock.resume (S.id m.lock c) pc res with
    | .go pc => .inside m pc
    | .acquired => m.after
    | .released => m.after
  | .init, _ => .top
  | .get, .get reply =>
    if reply.err = .ok then
      if reply.value ≠ "" then .failed (.twoClients reply.value) else .mark reply.version
    else .failed (.getFailed reply.err)
  | .mark ver, .put ⟨err⟩ =>
    if err = .ok ∨ err = .errMaybe then .clear ver else .failed (.putFailed err)
  | .clear _, .put ⟨err⟩ =>
    if err = .ok ∨ err = .errMaybe then .before .leave else .failed (.putFailed err)
  | pc, _ => pc

/-- `i c` is the loop variable, of which oneClient returns `ClntRes{i, 0}`. -/
structure State (ι : Type*) where
  net : Clerk.State ι
  pc : ι → Pc
  i : ι → ℕ

def initial : State ι where
  net := Clerk.initial
  pc := fun _ => .before .acquire1
  i := fun _ => 1

inductive Label (ι : Type*)
  | enter (c : ι)
  | loop (c : ι)
  | stop (c : ι)
  | clerk (l : Clerk.Label ι)

variable [DecidableEq ι]

def State.jump (s : State ι) (c : ι) (pc : Pc) : State ι :=
  { s with pc := Function.update s.pc c pc }

/-- A round of the loop ends with the return of its Release. -/
def State.next (s : State ι) (c : ι) (pc : Pc) : State ι :=
  { s.jump c pc with
    i := if pc = .top ∧ s.pc c ≠ .init then Function.update s.i c (s.i c + 1) else s.i }

def clients (S : Setup ι) : Clerk.Clients ι (State ι) where
  net := State.net
  onNet s net := { s with net }
  due s c op := (s.pc c).op S c = some op
  decDue _ _ _ := inferInstance
  resume s c res := s.next c (resume S c (s.pc c) res)
  net_onNet _ _ := rfl
  net_resume _ _ _ := rfl

/-- The channel done may be found closed at any time. -/
def step (S : Setup ι) (s : State ι) : Label ι → Option (State ι)
  | .enter c =>
    match s.pc c with
    | .before m => some (s.jump c (.inside m m.start))
    | _ => none
  | .loop c => if s.pc c = .top then some (s.jump c (.before .enter)) else none
  | .stop c => if s.pc c = .top then some (s.jump c .returned) else none
  | .clerk l => (clients S).step s l

def system (S : Setup ι) : System (State ι) (Label ι) where
  start s := s = initial
  step := step S

/-- What each label can do, with its guard. -/
inductive Step (S : Setup ι) (s : State ι) : State ι → Prop
  | enter (c : ι) (m : LockCall) (hpc : s.pc c = .before m) :
      Step S s (s.jump c (.inside m m.start))
  | loop (c : ι) (hpc : s.pc c = .top) : Step S s (s.jump c (.before .enter))
  | stop (c : ι) (hpc : s.pc c = .top) : Step S s (s.jump c .returned)
  | call (c : ι) (op : KvOp) (hop : (s.pc c).op S c = some op)
      (hidle : s.net.clerks c = none) : Step S s { s with net := s.net.invoke c op }
  | inner (l : Clerk.Label ι) (net : Clerk.State ι) (hl : l.Inner s.net)
      (h : Clerk.step s.net l = some net) : Step S s { s with net }
  | ret (c : ι) (call : Clerk.Call) (rid : ℕ) (reply res : KvReply)
      (hcall : s.net.clerks c = some call) (hrid : call.rid = some rid)
      (hserved : s.net.status rid = .served reply) (hfin : call.finish reply = some res) :
      Step S s ({ s with net := s.net.finish c call rid res }.next c
        (resume S c (s.pc c) res))

variable {S : Setup ι} {s t : State ι}

theorem step_sound {l : Label ι} (h : step S s l = some t) : Step S s t := by
  cases l with
  | enter c =>
    simp only [step] at h
    split at h
    · cases h
      exact .enter c _ ‹_›
    · cases h
  | loop c =>
    simp only [step] at h
    split at h
    · cases h
      exact .loop c ‹_›
    · cases h
  | stop c =>
    simp only [step] at h
    split at h
    · cases h
      exact .stop c ‹_›
    · cases h
  | clerk l =>
    cases Clerk.Clients.step_sound h with
    | call c op hdue hidle => exact .call c op hdue hidle
    | inner l net hl hnet => exact .inner l net hl hnet
    | ret c call rid reply res hcall hrid hserved hfin =>
      exact .ret c call rid reply res hcall hrid hserved hfin

theorem runs (S : Setup ι) : (clients S).Runs (system S) where
  start := by
    rintro s rfl
    rfl
  step := by
    intro s l t h
    cases l with
    | clerk l => exact Or.inr ⟨l, h⟩
    | _ =>
      left
      simp only [system, step] at h
      split at h
      · cases h
        rfl
      · cases h

theorem net_reachable (h : (system S).Reachable s) : Clerk.system.Reachable s.net :=
  (runs S).net_reachable h

/-- The program counter of a lock call is one of the method it calls. -/
def LockCall.Fits (m : LockCall) (pc : Lock.Pc) : Prop :=
  (if m.acquires then pc.Acquiring else pc.Releasing) ∨ ∃ p, pc = .panicked p

/-- A client without a clerk call that is due is not in one, and a clerk call in progress is
the one that is due. -/
structure Proper (S : Setup ι) (s : State ι) : Prop where
  due : ∀ c call, s.net.clerks c = some call → (s.pc c).op S c = some call.op
  fits : ∀ c m pc, s.pc c = .inside m pc → m.Fits pc

theorem LockCall.fits_start (m : LockCall) : m.Fits m.start := by
  cases m <;> exact Or.inl trivial

/-- Acquire and Release go on in their own code, or return. -/
theorem LockCall.Fits.resume_cases {m : LockCall} {pc : Lock.Pc} (h : m.Fits pc) (me : String)
    (res : KvReply) :
    (∃ pc', Lock.resume me pc res = .go pc' ∧ m.Fits pc') ∨
      Lock.resume me pc res = if m.acquires then .acquired else .released := by
  rcases h with h | ⟨p, rfl⟩
  · cases hm : m.acquires with
    | true =>
      have hacq : Lock.resume me pc res = Lock.acquire me pc res := by
        cases pc <;> simp [hm, Lock.Pc.Acquiring, Lock.resume] at h ⊢
      rw [hacq]
      rcases Lock.acquire_cases me pc res with ⟨pc', hgo, hin⟩ | hret
      · exact Or.inl ⟨pc', hgo, by simpa [LockCall.Fits, hm] using hin⟩
      · exact Or.inr hret
    | false =>
      have hrel : Lock.resume me pc res = Lock.release me pc res := by
        cases pc <;> simp [hm, Lock.Pc.Releasing, Lock.resume] at h ⊢
      rw [hrel]
      rcases Lock.release_cases me pc res with ⟨pc', hgo, hin⟩ | hret
      · exact Or.inl ⟨pc', hgo, by simpa [LockCall.Fits, hm] using hin⟩
      · exact Or.inr hret
  · exact Or.inl ⟨_, rfl, Or.inr ⟨p, rfl⟩⟩

/-- After the return of a lock call comes something else than a lock call. -/
theorem LockCall.after_ne_inside (m m' : LockCall) (pc : Lock.Pc) : m.after ≠ .inside m' pc := by
  cases m <;> simp [LockCall.after]

omit [DecidableEq ι] in
theorem resume_ne_inside {c : ι} {pc : Pc} {res : KvReply}
    (hpc : ∀ m p, pc ≠ .inside m p) (m : LockCall) (p : Lock.Pc) :
    resume S c pc res ≠ .inside m p := by
  fun_cases resume <;> simp_all

namespace Proper

omit [DecidableEq ι] in
theorem idle (hs : Proper S s) {c : ι} (hop : (s.pc c).op S c = none) :
    s.net.clerks c = none := by
  cases hcall : s.net.clerks c with
  | none => rfl
  | some call =>
    have hdue := hs.due c call hcall
    rw [hop] at hdue
    cases hdue

/-- The client moves while its clerk is idle. -/
theorem move (hs : Proper S s) {c : ι} {pc : Pc} {net : Clerk.State ι}
    (hidle : net.clerks c = none) (hother : ∀ d, d ≠ c → net.clerks d = s.net.clerks d)
    (hfits : ∀ m p, pc = .inside m p → m.Fits p) {i : ι → ℕ} :
    Proper S ⟨net, Function.update s.pc c pc, i⟩ where
  due d call hcall := by
    by_cases hd : d = c
    · subst hd
      rw [hidle] at hcall
      cases hcall
    · simp only [Function.update_of_ne hd]
      exact hs.due d call (hother d hd ▸ hcall)
  fits d m p hpc := by
    by_cases hd : d = c
    · subst hd
      simp only [Function.update_self] at hpc
      exact hfits m p hpc
    · simp only [Function.update_of_ne hd] at hpc
      exact hs.fits d m p hpc

theorem step (hs : Proper S s) (h : Step S s t) : Proper S t := by
  cases h with
  | enter c m hpc =>
    refine hs.move (hs.idle (by rw [hpc]; rfl)) (fun _ _ => rfl) ?_
    rintro _ _ ⟨⟩
    exact m.fits_start
  | loop c hpc =>
    exact hs.move (hs.idle (by rw [hpc]; rfl)) (fun _ _ => rfl) (by simp)
  | stop c hpc =>
    exact hs.move (hs.idle (by rw [hpc]; rfl)) (fun _ _ => rfl) (by simp)
  | call c op hop hidle =>
    refine ⟨?_, hs.fits⟩
    intro d call hcall
    rcases update_eq_some hcall with ⟨rfl, heq⟩ | ⟨_, hold⟩
    · obtain rfl := Option.some.inj heq
      exact hop
    · exact hs.due d call hold
  | inner l net hl h =>
    refine ⟨?_, hs.fits⟩
    intro d call hcall
    obtain ⟨call', hcall', _, hop⟩ := (Clerk.Inner.of_step hl h).call_before hcall
    rw [← hop]
    exact hs.due d call' hcall'
  | ret c call rid reply res hcall hrid hserved hfin =>
    have hidle : (s.net.finish c call rid res).clerks c = none := by simp
    have hother : ∀ d, d ≠ c → (s.net.finish c call rid res).clerks d = s.net.clerks d := by
      intro d hd
      simp [hd]
    refine hs.move hidle hother ?_
    intro m p hpc
    cases hcase : s.pc c with
    | inside m' p' =>
      rw [hcase] at hpc
      rcases (hs.fits c m' p' hcase).resume_cases (S.id m'.lock c) res with
        ⟨p'', hgo, hfits⟩ | hret
      · simp only [resume, hgo] at hpc
        cases hpc
        exact hfits
      · cases hm : m'.acquires <;> simp only [resume, hret, hm] at hpc <;>
          exact absurd hpc (m'.after_ne_inside m p)
    | _ => exact absurd hpc (resume_ne_inside (by simp [hcase]) m p)

theorem of_reachable (h : (system S).Reachable s) : Proper S s := by
  refine System.Reachable.invariant (I := Proper S) ?_ ?_ h
  · rintro s rfl
    exact ⟨fun c call h => by simp [initial, Clerk.initial] at h,
      fun c m pc h => by simp [initial] at h⟩
  · intro s l t _ hs hstep
    exact hs.step (step_sound hstep)

end Proper

section View

/-- Whether the client has a lock at a place in its program: from a return of Acquire to the
next call of Release. A client that fails has the first lock. -/
def heldAt : Lk → Pc → Bool
  | .lk1, .before .acquire2 => true
  | .lk1, .inside .acquire2 _ => true
  | .lk1, .before .release1 => true
  | .lk1, .get => true
  | .lk1, .mark _ => true
  | .lk1, .clear _ => true
  | .lk1, .before .leave => true
  | .lk1, .failed _ => true
  | .lk2, .before .release1 => true
  | .lk2, .inside .release1 _ => true
  | .lk2, .before .release2 => true
  | _, _ => false

/-- Where the client is as seen from a lock, `busy` while its clerk is in a call. -/
def lockPc (l : Lk) (busy : Bool) : Pc → Lock.Pc
  | .inside m pc => if m.lock = l then pc else if busy then .other else .idle
  | _ => if busy then .other else .idle

/-- The state as seen from a lock. -/
def view (l : Lk) (s : State ι) : Lock.State ι where
  net := s.net
  pc c := lockPc l (s.net.clerks c).isSome (s.pc c)
  held c := heldAt l (s.pc c)

omit [DecidableEq ι] in
@[simp]
theorem view_net (l : Lk) (s : State ι) : (view l s).net = s.net := rfl

/-- The place is in the code of the lock. -/
def InCode (l : Lk) (pc : Pc) : Prop := ∃ m p, pc = .inside m p ∧ m.lock = l

omit [DecidableEq ι] in
theorem lockPc_of_not_inCode {l : Lk} {pc : Pc} (h : ¬ InCode l pc) (busy : Bool) :
    lockPc l busy pc = if busy then .other else .idle := by
  cases pc with
  | inside m p => exact if_neg fun hm => h ⟨m, p, rfl, hm⟩
  | _ => rfl

omit [DecidableEq ι] in
/-- A clerk call from outside the code of the lock is none of the lock's Puts. -/
theorem putsOn_of_not_inCode {l : Lk} {c : ι} {pc : Pc} {op : KvOp} (h : ¬ InCode l pc)
    (hop : pc.op S c = some op) : op.PutsOn (S.name l) = false := by
  have hl0 : "l0" ≠ S.name l := (S.name_ne_l0 l).symm
  cases pc with
  | inside m p =>
    have hne : S.name m.lock ≠ S.name l := by
      have hm : m.lock ≠ l := fun hm => h ⟨m, p, rfl, hm⟩
      cases hlock : m.lock <;> cases l <;> simp_all [S.name_ne, S.name_ne.symm]
    cases p <;> simp [Pc.op, Lock.Pc.op] at hop <;> subst hop <;> simp [KvOp.PutsOn, hne]
  | _ => simp [Pc.op] at hop <;> subst hop <;> simp [KvOp.PutsOn, hl0]

/-- Only the calls of a lock's own methods change who has the lock. -/
theorem heldAt_inside {m : LockCall} {l : Lk} (h : m.acquires = true ∨ m.lock ≠ l)
    (pc : Lock.Pc) : heldAt l (.inside m pc) = heldAt l (.before m) := by
  cases m <;> cases l <;> first | rfl | simp [LockCall.acquires, LockCall.lock] at h

theorem heldAt_inside_own (m : LockCall) (pc : Lock.Pc) :
    heldAt m.lock (.inside m pc) = false := by
  cases m <;> rfl

theorem heldAt_after (m : LockCall) : heldAt m.lock m.after = m.acquires := by
  cases m <;> rfl

theorem heldAt_after_of_ne {m : LockCall} {l : Lk} (h : m.lock ≠ l) (pc : Lock.Pc) :
    heldAt l m.after = heldAt l (.inside m pc) := by
  cases m <;> cases l <;> first | rfl | exact absurd rfl h

theorem heldAt_inside_eq (m : LockCall) (l : Lk) (pc pc' : Lock.Pc) :
    heldAt l (.inside m pc) = heldAt l (.inside m pc') := by
  cases m <;> cases l <;> rfl

omit [DecidableEq ι] in
theorem heldAt_resume {l : Lk} {c : ι} {pc : Pc} (h : ¬ InCode l pc) (res : KvReply) :
    heldAt l (resume S c pc res) = heldAt l pc := by
  cases pc with
  | inside m p =>
    have hm : m.lock ≠ l := fun hm => h ⟨m, p, rfl, hm⟩
    simp only [resume]
    split
    · exact heldAt_inside_eq m l _ p
    · exact heldAt_after_of_ne hm p
    · exact heldAt_after_of_ne hm p
  | get =>
    cases res with
    | put r => rfl
    | get reply =>
      simp only [resume]
      split
      · split <;> cases l <;> rfl
      · cases l <;> rfl
  | mark v =>
    cases res with
    | get r => rfl
    | put r =>
      simp only [resume]
      split <;> cases l <;> rfl
  | clear v =>
    cases res with
    | get r => rfl
    | put r =>
      simp only [resume]
      split <;> cases l <;> rfl
  | init => cases l <;> rfl
  | _ => cases res <;> rfl

omit [DecidableEq ι] in
theorem not_inCode_resume {l : Lk} {c : ι} {pc : Pc} (h : ¬ InCode l pc) (res : KvReply) :
    ¬ InCode l (resume S c pc res) := by
  rintro ⟨m, p, hpc, hm⟩
  cases pc with
  | inside m' p' =>
    have hm' : m'.lock ≠ l := fun hm' => h ⟨m', p', rfl, hm'⟩
    simp only [resume] at hpc
    split at hpc
    · cases hpc
      exact hm' hm
    · exact m'.after_ne_inside m p hpc
    · exact m'.after_ne_inside m p hpc
  | _ => exact resume_ne_inside (by simp) m p hpc

/-- Seen from a lock, a client that moves has a new place and may have got or given the lock. -/
theorem view_move (l : Lk) (s : State ι) (net : Clerk.State ι) (c : ι) (pc : Pc) (i : ι → ℕ)
    (hother : ∀ d, d ≠ c → (net.clerks d).isSome = (s.net.clerks d).isSome) :
    view l ⟨net, Function.update s.pc c pc, i⟩ =
      ⟨net, Function.update (view l s).pc c (lockPc l (net.clerks c).isSome pc),
        Function.update (view l s).held c (heldAt l pc)⟩ := by
  simp only [view, Lock.State.mk.injEq, true_and]
  constructor
  · funext d
    by_cases hd : d = c
    · subst hd
      simp
    · simp [hd, hother d hd]
  · funext d
    by_cases hd : d = c
    · subst hd
      simp
    · simp [hd]

theorem reaches_view_enter (hs : Proper S s) (l : Lk) {c : ι} {m : LockCall}
    (hpc : s.pc c = .before m) :
    (Lock.system (S.name l) (S.id l)).Reaches (view l s)
      (view l (s.jump c (.inside m m.start))) := by
  have hidle : s.net.clerks c = none := hs.idle (by rw [hpc]; rfl)
  have hnow : (view l s).pc c = .idle := by simp [view, hpc, lockPc, hidle]
  have hheld : (view l s).held c = heldAt l (.before m) := by simp [view, hpc]
  rw [State.jump, view_move l s s.net c _ _ (fun _ _ => rfl)]
  by_cases hl : m.lock = l
  · cases hm : m.acquires with
    | true =>
      refine .tail (.acquire c) .refl ?_
      have hsame : heldAt l (.inside m m.start) = (view l s).held c := by
        rw [hheld, heldAt_inside (Or.inl hm)]
      rw [hsame, Function.update_eq_self]
      simp [Lock.system, Lock.step, hnow, Lock.State.jump, lockPc, hl, LockCall.start, hm]
    | false =>
      refine .tail (.release c) .refl ?_
      have hnot : heldAt l (.inside m m.start) = false := hl ▸ heldAt_inside_own m _
      rw [hnot]
      simp [Lock.system, Lock.step, hnow, Lock.State.jump, lockPc, hl, LockCall.start, hm]
  · -- a call of the other lock starts with no clerk call
    have hsame : heldAt l (.inside m m.start) = (view l s).held c := by
      rw [hheld, heldAt_inside (Or.inr hl)]
    have hplace : lockPc l (s.net.clerks c).isSome (.inside m m.start) = (view l s).pc c := by
      simp [hnow, lockPc, hl, hidle]
    rw [hsame, hplace, Function.update_eq_self, Function.update_eq_self]
    exact .refl

theorem view_jump_eq (hs : Proper S s) (l : Lk) {c : ι} {pc : Pc}
    (hop : (s.pc c).op S c = none) (hin : ¬ InCode l (s.pc c)) (hin' : ¬ InCode l pc)
    (hheld : heldAt l pc = heldAt l (s.pc c)) : view l (s.jump c pc) = view l s := by
  have hidle : s.net.clerks c = none := hs.idle hop
  rw [State.jump, view_move l s s.net c _ _ (fun _ _ => rfl), lockPc_of_not_inCode hin', hheld]
  have hplace : (view l s).pc c = .idle := by
    simp [view, lockPc_of_not_inCode hin, hidle]
  have hthere : (if (s.net.clerks c).isSome then Lock.Pc.other else .idle) = (view l s).pc c := by
    simp [hplace, hidle]
  rw [hthere, Function.update_eq_self]
  change (⟨s.net, (view l s).pc, Function.update (view l s).held c ((view l s).held c)⟩ :
    Lock.State ι) = view l s
  rw [Function.update_eq_self]
  rfl

theorem reaches_view_call (l : Lk) {c : ι} {op : KvOp} (hop : (s.pc c).op S c = some op)
    (hidle : s.net.clerks c = none) :
    (Lock.system (S.name l) (S.id l)).Reaches (view l s)
      (view l { s with net := s.net.invoke c op }) := by
  have hnet : Clerk.step s.net (.invoke c op) = some (s.net.invoke c op) := by
    simp [Clerk.step, hidle]
  have hother : ∀ d, d ≠ c →
      ((s.net.invoke c op).clerks d).isSome = (s.net.clerks d).isSome := by
    intro d hd
    simp [hd]
  have hbusy : ((s.net.invoke c op).clerks c).isSome = true := by simp
  have hview : view l { s with net := s.net.invoke c op } =
      ⟨s.net.invoke c op, Function.update (view l s).pc c (lockPc l true (s.pc c)),
        (view l s).held⟩ := by
    have h := view_move l s (s.net.invoke c op) c (s.pc c) s.i hother
    rw [hbusy, Function.update_eq_self] at h
    rw [h]
    change (⟨_, _, Function.update (view l s).held c ((view l s).held c)⟩ : Lock.State ι) = _
    rw [Function.update_eq_self]
  refine .tail (.clerk (.invoke c op)) .refl ?_
  rw [hview]
  by_cases hin : InCode l (s.pc c)
  · obtain ⟨m, p, hpc, hm⟩ := hin
    have hnow : (view l s).pc c = p := by simp [view, hpc, lockPc, hm]
    have hthere : lockPc l true (s.pc c) = (view l s).pc c := by simp [hnow, hpc, lockPc, hm]
    have hdue : ((view l s).pc c).op (S.name l) (S.id l c) = some op := by
      rw [hnow, ← hm]
      simpa [hpc, Pc.op] using hop
    rw [hthere, Function.update_eq_self]
    simp [Lock.system, Lock.step, hdue, hnet]
  · have hnow : (view l s).pc c = .idle := by simp [view, lockPc_of_not_inCode hin, hidle]
    have hputs := putsOn_of_not_inCode hin hop
    rw [lockPc_of_not_inCode hin]
    simp [Lock.system, Lock.step, hnow, Lock.Pc.op, hputs, hnet, Lock.State.jump]

theorem reaches_view_inner (l : Lk) {l' : Clerk.Label ι} {net : Clerk.State ι}
    (hl' : l'.Inner s.net) (h : Clerk.step s.net l' = some net) :
    (Lock.system (S.name l) (S.id l)).Reaches (view l s) (view l { s with net }) := by
  have hview : view l { s with net } = { view l s with net } := by
    simp only [view, Lock.State.mk.injEq, true_and, and_true]
    funext c
    have hcall := congrArg Option.isSome ((Clerk.Inner.of_step hl' h).calls c)
    simp only [Clerk.State.callOf, Option.isSome_map] at hcall
    rw [hcall]
  refine .tail (.clerk l') .refl ?_
  rw [hview]
  cases l' with
  | invoke c op => exact hl'.elim
  | deliver c =>
    have hnone : Clerk.answer s.net c = none := hl'
    simp [Lock.system, Lock.step, h, hnone]
  | _ => simp [Lock.system, Lock.step, h]

/-- The lock's code goes on with the result of its clerk call. -/
theorem view_ret_inside (hs : Proper S s) (net : Clerk.State ι) {c : ι} {m : LockCall}
    {p : Lock.Pc} (hpc : s.pc c = .inside m p) (res : KvReply) (i : ι → ℕ)
    (hidle : net.clerks c = none)
    (hother : ∀ d, d ≠ c → (net.clerks d).isSome = (s.net.clerks d).isSome) :
    view m.lock ⟨net, Function.update s.pc c (resume S c (s.pc c) res), i⟩ =
      { view m.lock s with net }.next c (Lock.resume (S.id m.lock c) p res) := by
  rw [view_move m.lock s net c _ _ hother, hidle, hpc]
  have hheld : ∀ p', heldAt m.lock (.inside m p') = (view m.lock s).held c := by
    intro p'
    simp only [view, hpc]
    exact heldAt_inside_eq m m.lock p' p
  have hafter : lockPc m.lock false m.after = .idle :=
    lockPc_of_not_inCode (fun ⟨m', p', h, _⟩ => m.after_ne_inside m' p' h) false
  rcases (hs.fits c m p hpc).resume_cases (S.id m.lock c) res with ⟨p', hgo, _⟩ | hret
  · simp only [resume, hgo, hheld, Function.update_eq_self]
    simp [lockPc, Lock.State.next, Lock.State.jump]
  · cases hm : m.acquires with
    | true =>
      have hown : heldAt m.lock m.after = true := (heldAt_after m).trans hm
      simp [resume, hret, hm, hafter, hown, Lock.State.next, Lock.State.jump]
    | false =>
      have hnot : heldAt m.lock m.after = (view m.lock s).held c := by
        rw [heldAt_after, hm, ← hheld p, heldAt_inside_own]
      simp [resume, hret, hm, hafter, hnot, Lock.State.next, Lock.State.jump]

theorem reaches_view_ret (hs : Proper S s) (l : Lk) {c : ι} {call : Clerk.Call} {rid : ℕ}
    {reply res : KvReply} (hcall : s.net.clerks c = some call) (hrid : call.rid = some rid)
    (hserved : s.net.status rid = .served reply) (hfin : call.finish reply = some res) :
    (Lock.system (S.name l) (S.id l)).Reaches (view l s)
      (view l ({ s with net := s.net.finish c call rid res }.next c
        (resume S c (s.pc c) res))) := by
  have hstep : Lock.step (S.name l) (S.id l) (view l s) (.clerk (.deliver c)) =
      some ({ view l s with net := s.net.finish c call rid res }.next c
        (Lock.resume (S.id l c) ((view l s).pc c) res)) := by
    simp [Lock.step, Clerk.step, Clerk.answer, hcall, hrid, hserved, hfin]
  have hidle : (s.net.finish c call rid res).clerks c = none := by simp
  have hother : ∀ d, d ≠ c →
      ((s.net.finish c call rid res).clerks d).isSome = (s.net.clerks d).isSome := by
    intro d hd
    simp [hd]
  refine .tail (.clerk (.deliver c)) .refl ?_
  refine hstep.trans (congrArg some ?_)
  by_cases hin : InCode l (s.pc c)
  · obtain ⟨m, p, hpc, rfl⟩ := hin
    have hnow : (view m.lock s).pc c = p := by simp [view, hpc, lockPc]
    rw [hnow]
    exact (view_ret_inside hs _ hpc res _ hidle hother).symm
  · have hnow : (view l s).pc c = .other := by
      simp [view, lockPc_of_not_inCode hin, hcall]
    rw [hnow]
    have hview := view_move l s (s.net.finish c call rid res) c (resume S c (s.pc c) res)
      ({ s with net := s.net.finish c call rid res }.next c (resume S c (s.pc c) res)).i hother
    have hheld : heldAt l (resume S c (s.pc c) res) = (view l s).held c := heldAt_resume hin res
    rw [hidle, lockPc_of_not_inCode (not_inCode_resume hin res), hheld,
      Function.update_eq_self] at hview
    exact hview.symm

theorem reaches_view (hs : Proper S s) (h : Step S s t) (l : Lk) :
    (Lock.system (S.name l) (S.id l)).Reaches (view l s) (view l t) := by
  cases h with
  | enter c m hpc => exact reaches_view_enter hs l hpc
  | loop c hpc =>
    have hsame : view l (s.jump c (.before .enter)) = view l s := by
      refine view_jump_eq hs l (by rw [hpc]; rfl) ?_ ?_ ?_
      · simp [hpc, InCode]
      · simp [InCode]
      · rw [hpc]
        cases l <;> rfl
    rw [hsame]
    exact .refl
  | stop c hpc =>
    have hsame : view l (s.jump c .returned) = view l s := by
      refine view_jump_eq hs l (by rw [hpc]; rfl) ?_ ?_ ?_
      · simp [hpc, InCode]
      · simp [InCode]
      · rw [hpc]
        cases l <;> rfl
    rw [hsame]
    exact .refl
  | call c op hop hidle => exact reaches_view_call l hop hidle
  | inner l' net hl' hnet => exact reaches_view_inner l hl' hnet
  | ret c call rid reply res hcall hrid hserved hfin =>
    exact reaches_view_ret hs l hcall hrid hserved hfin

/-- Each lock runs under the test as it does under any application. -/
theorem view_reachable (h : (system S).Reachable s) (l : Lk) :
    (Lock.system (S.name l) (S.id l)).Reachable (view l s) := by
  refine System.Reachable.invariant
    (I := fun s => (Lock.system (S.name l) (S.id l)).Reachable (view l s)) ?_ ?_ h
  · rintro s rfl
    refine ⟨_, rfl, ?_⟩
    have hview : view l (initial : State ι) = Lock.initial := by cases l <;> rfl
    rw [hview]
    exact .refl
  · intro s l' t hr hs hstep
    exact hs.reaches (reaches_view (Proper.of_reachable hr) (step_sound hstep) l)

theorem lock_inv (h : (system S).Reachable s) (l : Lk)
    (hb : s.net.puts (S.name l) < 2 ^ 64) :
    Lock.Inv (S.name l) (S.id l) (view l s) :=
  Lock.inv_of_reachable (S.id_injective l) (S.id_ne_empty l) (view_reachable h l) hb

/-- At most one client has a lock. -/
theorem holder_unique (h : (system S).Reachable s) (l : Lk)
    (hb : s.net.puts (S.name l) < 2 ^ 64) {c d : ι} (hc : heldAt l (s.pc c) = true)
    (hd : heldAt l (s.pc d) = true) : c = d := by
  have hs := lock_inv h l hb
  exact S.id_injective l ((hs.held_owner c hc).1.symm.trans (hs.held_owner d hd).1)

/-- None of the panics of Acquire and Release is reached. -/
theorem not_panicked (h : (system S).Reachable s) {c : ι} {m : LockCall} {p : Lock.Panic}
    (hb : s.net.puts (S.name m.lock) < 2 ^ 64) : s.pc c ≠ .inside m (.panicked p) := by
  intro hpc
  have hinv := (lock_inv h m.lock hb).pc_ok c
  have hnow : (view m.lock s).pc c = .panicked p := by simp [view, hpc, lockPc]
  rw [hnow] at hinv
  exact hinv

end View

end DistributedLabs.LockTest
