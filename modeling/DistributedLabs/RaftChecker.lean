import DistributedLabs.Tables
import DistributedLabs.Transition
import Mathlib.Data.Finmap
import Mathlib.Data.List.FinRange

/-!
The agreement checker of the Raft tests. The tester keeps a copy of every
server's committed entries: `CheckLogs` compares one entry with all copies before
recording it, `IngestLog` replaces a server's whole copy without looking at the
others. The servers that call them, with and without snapshots, come after.
-/
namespace DistributedLabs.RaftTest

open Transition Transition.System

/-- A Go `map[int]any`. The type of commands stands for the comparable values of
`any`; its default element is the nil that a missing key reads as. -/
abbrev Log (γ : Type*) := Finmap fun _ : ℤ => γ

/-- The bytes of a snapshot, up to labgob: what the two decodes give, if they succeed. -/
inductive Snapshot (γ : Type*) where
  | undecodable
  | state (lastIncludedIndex : ℤ) (xlog : List γ)

structure ApplyMsg (γ : Type*) where
  commandValid : Bool
  command : γ
  commandIndex : ℤ
  snapshotValid : Bool
  snapshot : Option (Snapshot γ)
  snapshotIndex : ℤ

structure RaftServer (γ : Type*) where
  applyErr : String
  logs : Log γ

structure Test (n : ℕ) (γ : Type*) where
  srvs : Fin n → RaftServer γ
  maxIndex : ℤ

variable {n : ℕ} {γ : Type*} [DecidableEq γ] [ToString γ]

def newRaftServer : RaftServer γ := ⟨"", ∅⟩

def makeTest (n : ℕ) (γ : Type*) : Test n γ := ⟨fun _ => newRaftServer, 0⟩

def RaftServer.entry (rs : RaftServer γ) (i : ℤ) : Option γ := rs.logs.lookup i

def Test.setLogs (ts : Test n γ) (i : Fin n) (logs : Log γ) : Test n γ :=
  { ts with srvs := Function.update ts.srvs i { ts.srvs i with logs := logs } }

def commitText (index : ℤ) (i : Fin n) (v : γ) (j : Fin n) (old : γ) : String :=
  "commit index=" ++ (toString index ++ " server=" ++ toString i ++ " " ++ toString v ++
    " != server=" ++ toString j ++ " " ++ toString old)

/-- The body of the loop over the servers: a mismatch overwrites the message. -/
def Test.compare (ts : Test n γ) (i : Fin n) (m : ApplyMsg γ) (errMsg : String) (j : Fin n) :
    String :=
  match (ts.srvs j).entry m.commandIndex with
  | some old =>
    if old ≠ m.command then commitText m.commandIndex i m.command j old else errMsg
  | none => errMsg

def Test.checkLogs (ts : Test n γ) (i : Fin n) (m : ApplyMsg γ) : (String × Bool) × Test n γ :=
  let errMsg := (List.finRange n).foldl (ts.compare i m) ""
  let prevok := ((ts.srvs i).entry (m.commandIndex - 1)).isSome
  let recorded := ts.setLogs i ((ts.srvs i).logs.insert m.commandIndex m.command)
  ((errMsg, prevok), { recorded with maxIndex := max m.commandIndex ts.maxIndex })

def Test.ingestLog (ts : Test n γ) (i : Fin n) (xlog : Log γ) : Test n γ := ts.setLogs i xlog

def Test.recordErr (ts : Test n γ) (i : Fin n) (err : String) : Test n γ :=
  { ts with srvs := Function.update ts.srvs i { ts.srvs i with applyErr := err } }

inductive Event (n : ℕ) (γ : Type*) where
  | checkLogs (i : Fin n) (m : ApplyMsg γ)
  | ingestLog (i : Fin n) (xlog : Log γ)
  | applyErr (i : Fin n) (err : String)

/-- The tester, with the messages that its `CheckLogs` calls have returned. -/
structure Session (n : ℕ) (γ : Type*) where
  ts : Test n γ
  msgs : List String

def Session.handle (s : Session n γ) : Event n γ → Session n γ
  | .checkLogs i m => ⟨(s.ts.checkLogs i m).2, s.msgs ++ [(s.ts.checkLogs i m).1.1]⟩
  | .ingestLog i xlog => { s with ts := s.ts.ingestLog i xlog }
  | .applyErr i err => { s with ts := s.ts.recordErr i err }

def session (n : ℕ) (γ : Type*) [DecidableEq γ] [ToString γ] :
    System (Session n γ) (Event n γ) where
  start s := s = ⟨makeTest n γ, []⟩
  step s e := some (s.handle e)

/-- No `CheckLogs` call has returned an error. -/
def Session.Silent (s : Session n γ) : Prop := ∀ msg ∈ s.msgs, msg = ""

/-- Any two recorded logs hold the same command at every index present in both. -/
def Test.Agree (ts : Test n γ) : Prop :=
  ∀ i j k v w, (ts.srvs i).entry k = some v → (ts.srvs j).entry k = some w → v = w

/-- What `IngestLog` does not check: the new log agrees with the copies of the others. -/
def IngestAgrees (s : Session n γ) : Event n γ → Prop
  | .ingestLog i xlog => ∀ j ≠ i, ∀ k v w, xlog.lookup k = some v →
      (s.ts.srvs j).entry k = some w → v = w
  | _ => True

omit [DecidableEq γ] in
theorem commitText_ne_empty (index : ℤ) (i : Fin n) (v : γ) (j : Fin n) (old : γ) :
    commitText index i v j old ≠ "" := by
  intro h
  have hpart := (String.append_eq_empty_iff.mp h).1
  exact absurd hpart (by decide)

theorem Test.compare_eq_empty {ts : Test n γ} {i j : Fin n} {m : ApplyMsg γ} {errMsg : String} :
    ts.compare i m errMsg j = "" ↔
      errMsg = "" ∧ ∀ old, (ts.srvs j).entry m.commandIndex = some old → old = m.command := by
  unfold Test.compare
  cases h : (ts.srvs j).entry m.commandIndex with
  | none => simp
  | some old =>
    by_cases hold : old = m.command
    · simp [hold]
    · simp [hold, commitText_ne_empty]

theorem Test.foldl_compare_eq_empty {ts : Test n γ} {i : Fin n} {m : ApplyMsg γ}
    (servers : List (Fin n)) (errMsg : String) :
    servers.foldl (ts.compare i m) errMsg = "" ↔ errMsg = "" ∧ ∀ j ∈ servers, ∀ old,
      (ts.srvs j).entry m.commandIndex = some old → old = m.command := by
  induction servers generalizing errMsg with
  | nil => simp
  | cons j rest ih =>
    rw [List.foldl_cons, ih, Test.compare_eq_empty]
    simp [and_assoc]

/-- `CheckLogs` stays silent exactly when no recorded log, the caller's own
included, holds another command at the index. -/
theorem Test.checkLogs_silent {ts : Test n γ} {i : Fin n} {m : ApplyMsg γ} :
    (ts.checkLogs i m).1.1 = "" ↔
      ∀ j old, (ts.srvs j).entry m.commandIndex = some old → old = m.command := by
  have hfold := ts.foldl_compare_eq_empty (i := i) (m := m) (List.finRange n) ""
  simpa [Test.checkLogs] using hfold

omit [DecidableEq γ] [ToString γ] in
theorem Test.entry_setLogs {ts : Test n γ} {i j : Fin n} {logs : Log γ} {k : ℤ} {v : γ}
    (h : ((ts.setLogs i logs).srvs j).entry k = some v) :
    (j = i ∧ logs.lookup k = some v) ∨ (j ≠ i ∧ (ts.srvs j).entry k = some v) := by
  by_cases hji : j = i
  · subst hji
    exact Or.inl ⟨rfl, by simpa [Test.setLogs, RaftServer.entry] using h⟩
  · exact Or.inr ⟨hji, by simpa [Test.setLogs, hji] using h⟩

omit [DecidableEq γ] [ToString γ] in
/-- Replacing one copy keeps agreement when the new copy agrees with the others. -/
theorem Test.Agree.setLogs {ts : Test n γ} (h : ts.Agree) {i : Fin n} {logs : Log γ}
    (hlogs : ∀ j ≠ i, ∀ k v w, logs.lookup k = some v → (ts.srvs j).entry k = some w → v = w) :
    (ts.setLogs i logs).Agree := by
  intro a b k v w ha hb
  rcases Test.entry_setLogs ha with ⟨hai, hv⟩ | ⟨hai, hv⟩
  · rcases Test.entry_setLogs hb with ⟨_, hw⟩ | ⟨hbi, hw⟩
    · exact Option.some.inj (hv.symm.trans hw)
    · exact hlogs b hbi k v w hv hw
  · rcases Test.entry_setLogs hb with ⟨_, hw⟩ | ⟨_, hw⟩
    · exact (hlogs a hai k w v hw hv).symm
    · exact h a b k v w hv hw

theorem Test.Agree.checkLogs {ts : Test n γ} (h : ts.Agree) {i : Fin n} {m : ApplyMsg γ}
    (hsilent : (ts.checkLogs i m).1.1 = "") : (ts.checkLogs i m).2.Agree := by
  have hsame := Test.checkLogs_silent.mp hsilent
  change (ts.setLogs i ((ts.srvs i).logs.insert m.commandIndex m.command)).Agree
  refine h.setLogs ?_
  intro j _ k v w hv hw
  by_cases hk : k = m.commandIndex
  · subst hk
    rw [Finmap.lookup_insert] at hv
    cases hv
    exact (hsame j w hw).symm
  · rw [Finmap.lookup_insert_of_ne _ hk] at hv
    exact h i j k v w hv hw

omit [DecidableEq γ] [ToString γ] in
theorem Test.Agree.recordErr {ts : Test n γ} (h : ts.Agree) (i : Fin n) (err : String) :
    (ts.recordErr i err).Agree := by
  have hentry : ∀ j k, ((ts.recordErr i err).srvs j).entry k = (ts.srvs j).entry k := by
    intro j k
    by_cases hji : j = i
    · subst hji
      simp [Test.recordErr, RaftServer.entry]
    · simp [Test.recordErr, hji]
  intro a b k v w ha hb
  rw [hentry] at ha hb
  exact h a b k v w ha hb

theorem Session.agree_handle {s : Session n γ} {e : Event n γ}
    (h : s.Silent → s.ts.Agree) (he : IngestAgrees s e) (hsilent : (s.handle e).Silent) :
    (s.handle e).ts.Agree := by
  cases e with
  | checkLogs i m =>
    have hold : s.Silent := fun msg hmsg => hsilent msg (List.mem_append_left _ hmsg)
    have hnew : (s.ts.checkLogs i m).1.1 = "" :=
      hsilent _ (List.mem_append_right _ List.mem_cons_self)
    exact (h hold).checkLogs hnew
  | ingestLog i xlog => exact (h hsilent).setLogs he
  | applyErr i err => exact (h hsilent).recordErr i err

omit [DecidableEq γ] [ToString γ] in
theorem makeTest_agree : (makeTest n γ).Agree := by
  intro i j k v w hv
  exact absurd hv (by simp [makeTest, newRaftServer, RaftServer.entry])

/-- The checker is sound on every run in which each ingested log agrees with the
copies of the other servers at that time. -/
theorem checker_sound {s : Session n γ} (h : (session n γ).ReachableWithin IngestAgrees s)
    (hsilent : s.Silent) : s.ts.Agree := by
  have hinv : s.Silent → s.ts.Agree := by
    refine h.invariant (I := fun s => s.Silent → s.ts.Agree) ?_ ?_
    · intro s hs _
      rw [hs]
      exact makeTest_agree
    · intro s e t _ ih he hstep
      cases hstep
      exact Session.agree_handle ih he
  exact hinv hsilent

/-- Server 1 ingests the entry that server 0 has recorded and goes on from there. -/
theorem checker_sound_sharedSnapshot :
    ∃ s : Session 2 ℕ, (s.ts.srvs 0).entry 1 = some 7 ∧ (s.ts.srvs 1).entry 1 = some 7 ∧
      (s.ts.srvs 1).entry 2 = some 9 ∧ s.ts.Agree := by
  let shared : Log ℕ := Finmap.singleton 1 7
  let e₁ : Event 2 ℕ := .checkLogs 0 ⟨true, 7, 1, false, none, 0⟩
  let e₂ : Event 2 ℕ := .ingestLog 1 shared
  let e₃ : Event 2 ℕ := .checkLogs 1 ⟨true, 9, 2, false, none, 0⟩
  let s₀ : Session 2 ℕ := ⟨makeTest 2 ℕ, []⟩
  have hingest : IngestAgrees (s₀.handle e₁) e₂ := by
    intro j hj k v w hv hw
    have hk : k = 1 := by simpa [shared] using Finmap.mem_of_lookup_eq_some hv
    obtain rfl : j = 0 := by omega
    subst hk
    have hentry : ((s₀.handle e₁).ts.srvs 0).entry 1 = shared.lookup 1 := by decide +kernel
    exact Option.some.inj ((hv.symm.trans hentry.symm).trans hw)
  have hreach : (session 2 ℕ).ReachableWithin IngestAgrees
      (((s₀.handle e₁).handle e₂).handle e₃) := by
    refine ⟨s₀, rfl, ReachesWithin.tail e₃ ?_ trivial rfl⟩
    refine ReachesWithin.tail e₂ ?_ hingest rfl
    exact ReachesWithin.tail e₁ ReachesWithin.refl trivial rfl
  have hmsgs : (((s₀.handle e₁).handle e₂).handle e₃).msgs = ["", ""] := by decide +kernel
  have hsilent : (((s₀.handle e₁).handle e₂).handle e₃).Silent := by
    intro msg hmsg
    rw [hmsgs] at hmsg
    simpa using hmsg
  exact ⟨_, by decide +kernel, by decide +kernel, by decide +kernel, checker_sound hreach hsilent⟩

/-! ### The servers -/

/-- How a call to the tester fares: its request or its reply may get lost. -/
inductive Rpc where
  | lost
  | unanswered
  | answered
  deriving DecidableEq

inductive Pc where
  | receiving
  | reporting (err : String)
  | dying (err : String)
  | dead
  deriving DecidableEq

/-- One `rfsrv`. `snapshots` are the calls it has made to `rf.Snapshot`. -/
structure Rfsrv (γ : Type*) where
  lastApplied : ℤ
  log : Log γ
  snapshots : List (ℤ × Snapshot γ)
  pc : Pc

structure Cluster (n : ℕ) (γ : Type*) where
  session : Session n γ
  rfsrvs : Fin n → Rfsrv γ

inductive Label (n : ℕ) (γ : Type*) where
  | newRfsrv (i : Fin n) (sn : Option (Snapshot γ)) (rpc : Rpc)
  | applier (i : Fin n) (m : ApplyMsg γ) (rpc : Rpc)
  | applyErr (i : Fin n) (rpc : Rpc)

def snapShotInterval : ℤ := 10

def Rpc.send (rpc : Rpc) (s : Session n γ) (e : Event n γ) : Session n γ :=
  if rpc = .lost then s else s.handle e

/-- `TesterProxy.CheckLogs`. -/
def Rpc.checkLogs (rpc : Rpc) (s : Session n γ) (i : Fin n) (m : ApplyMsg γ) :
    (String × Bool) × Session n γ :=
  (if rpc = .answered then (s.ts.checkLogs i m).1 else ("ErrRPC", false),
    rpc.send s (.checkLogs i m))

/-- The end of a loop iteration: an error is passed on before the next message. -/
def Rfsrv.finish (rs : Rfsrv γ) (err : String) : Rfsrv γ :=
  { rs with pc := if err = "" then .receiving else .reporting err }

/-- The loop that writes the entries of a snapshot into the log, from index `j` on. -/
def ofEntries : List γ → ℕ → Log γ → Log γ
  | [], _, log => log
  | v :: rest, j, log => ofEntries rest (j + 1) (log.insert (j : ℤ) v)

def Rfsrv.ingestSnap (rs : Rfsrv γ) (me : Fin n) (snapshot : Option (Snapshot γ)) (index : ℤ) :
    String × Rfsrv γ :=
  match snapshot with
  | none => ("nil snapshot", rs)
  | some .undecodable => ("failed to decode snapshot", rs)
  | some (.state lastIncludedIndex xlog) =>
    if index ≠ -1 ∧ index ≠ lastIncludedIndex then
      ("server " ++ toString me ++ " snapshot doesn't match m.SnapshotIndex", rs)
    else
      ("", { rs with
        log := ofEntries xlog 0 ∅
        lastApplied := lastIncludedIndex })

/-- The entries from 0 on, nil where the log has none. -/
def takeSnapshot [Inhabited γ] (log : Log γ) (index : ℤ) : Snapshot γ :=
  .state index ((List.range (index + 1).toNat).map fun j : ℕ => (log.lookup (j : ℤ)).getD default)

/-- The bookkeeping after a command, with the periodic snapshot. -/
def Rfsrv.record [Inhabited γ] (rs : Rfsrv γ) (m : ApplyMsg γ) : Rfsrv γ :=
  let log := rs.log.insert m.commandIndex m.command
  { rs with
    log := log
    lastApplied := m.commandIndex
    snapshots :=
      if (m.commandIndex + 1) % snapShotInterval = 0 then
        rs.snapshots ++ [(m.commandIndex, takeSnapshot log m.commandIndex)]
      else rs.snapshots }

/-- One iteration of `applier`, for servers without snapshots. -/
def Rfsrv.applier (rs : Rfsrv γ) (me : Fin n) (s : Session n γ) (m : ApplyMsg γ) (rpc : Rpc) :
    Rfsrv γ × Session n γ :=
  if m.commandValid = false then (rs, s)
  else
    let ((errMsg, prevok), s') := rpc.checkLogs s me m
    let errMsg :=
      if 1 < m.commandIndex ∧ prevok = false then
        "server " ++ toString me ++ " apply out of order " ++ toString m.commandIndex
      else errMsg
    (rs.finish errMsg, s')

/-- One iteration of `applierSnap`. The log goes to the tester even when
`ingestSnap` failed and it is still the old one. -/
def Rfsrv.applierSnap [Inhabited γ] (rs : Rfsrv γ) (me : Fin n) (s : Session n γ)
    (m : ApplyMsg γ) (rpc : Rpc) : Rfsrv γ × Session n γ :=
  if m.snapshotValid then
    let (errMsg, rs') := rs.ingestSnap me m.snapshot m.snapshotIndex
    (rs'.finish errMsg, rpc.send s (.ingestLog me rs'.log))
  else if m.commandValid then
    if m.commandIndex ≠ rs.lastApplied + 1 then
      let errMsg := "server " ++ toString me ++ " apply out of order, expected index " ++
        toString (rs.lastApplied + 1) ++ ", got " ++ toString m.commandIndex
      ((rs.record m).finish errMsg, s)
    else
      let ((errMsg, prevok), s') := rpc.checkLogs s me m
      let errMsg :=
        if errMsg ≠ "ErrRPC" ∧ 1 < m.commandIndex ∧ prevok = false then
          "server " ++ toString me ++ " apply out of order " ++ toString m.commandIndex
        else errMsg
      ((rs.record m).finish errMsg, s')
  else (rs, s)

/-- A server process starts over, with the snapshot its persister holds (none when
it is nil or empty) if snapshots are in use. -/
def newRfsrv (snapshot : Bool) (me : Fin n) (s : Session n γ) (sn : Option (Snapshot γ))
    (rpc : Rpc) : Rfsrv γ × Session n γ :=
  let fresh : Rfsrv γ := ⟨0, ∅, [], .receiving⟩
  if snapshot ∧ sn.isSome then
    let (err, rs) := fresh.ingestSnap me sn (-1)
    if err ≠ "" then ({ rs with pc := .dying err }, s)
    else (rs, rpc.send s (.ingestLog me rs.log))
  else (fresh, s)

def Cluster.put (c : Cluster n γ) (i : Fin n) (r : Rfsrv γ × Session n γ) : Cluster n γ :=
  ⟨r.2, Function.update c.rfsrvs i r.1⟩

def cluster (n : ℕ) (γ : Type*) [DecidableEq γ] [Inhabited γ] [ToString γ] (snapshot : Bool) :
    System (Cluster n γ) (Label n γ) where
  start c := (session n γ).start c.session ∧ ∀ i, c.rfsrvs i = ⟨0, ∅, [], .dead⟩
  step c label :=
    match label with
    | .newRfsrv i sn rpc => some (c.put i (newRfsrv snapshot i c.session sn rpc))
    | .applier i m rpc =>
      if (c.rfsrvs i).pc = .receiving then
        some (c.put i (if snapshot then (c.rfsrvs i).applierSnap i c.session m rpc
          else (c.rfsrvs i).applier i c.session m rpc))
      else none
    | .applyErr i rpc =>
      match (c.rfsrvs i).pc with
      | .reporting err =>
        some (c.put i ({ c.rfsrvs i with pc := .receiving },
          rpc.send c.session (.applyErr i err)))
      | .dying err =>
        some (c.put i ({ c.rfsrvs i with pc := .dead }, rpc.send c.session (.applyErr i err)))
      | _ => none

omit [DecidableEq γ] [ToString γ] in
theorem lookup_ofEntries (xlog : List γ) (j : ℕ) (log : Log γ) (k : ℕ) :
    (ofEntries xlog j log).lookup (k : ℤ) =
      if j ≤ k ∧ k < j + xlog.length then xlog[k - j]? else log.lookup (k : ℤ) := by
  induction xlog generalizing j log with
  | nil => simp [ofEntries]
  | cons v rest ih =>
    rw [ofEntries, ih]
    rcases lt_trichotomy k j with hk | rfl | hk
    · have hne : (k : ℤ) ≠ j := by omega
      rw [if_neg (by omega), if_neg (by omega), Finmap.lookup_insert_of_ne _ hne]
    · rw [if_neg (by omega), if_pos (by simp), Finmap.lookup_insert, Nat.sub_self]
      rfl
    · have hne : (k : ℤ) ≠ j := by omega
      have hsub : k - j = k - (j + 1) + 1 := by omega
      rw [Finmap.lookup_insert_of_ne _ hne, hsub, List.getElem?_cons_succ, List.length_cons]
      congr 1
      apply propext
      omega

omit [DecidableEq γ] [ToString γ] in
/-- A server that ingests a snapshot has the log it was taken from, up to its index. -/
theorem ingestSnap_takeSnapshot [Inhabited γ] (rs : Rfsrv γ) (me : Fin n) (log : Log γ)
    (index : ℤ) {k : ℕ} {v : γ} (hk : (k : ℤ) ≤ index) (hv : log.lookup (k : ℤ) = some v) :
    (rs.ingestSnap me (some (takeSnapshot log index)) index).2.log.lookup (k : ℤ) = some v := by
  have hlt : k < (index + 1).toNat := by omega
  have hget : (List.range (index + 1).toNat)[k]? = some k := List.getElem?_range hlt
  simp only [Rfsrv.ingestSnap, takeSnapshot, ne_eq, not_true_eq_false, and_false, if_false]
  rw [lookup_ofEntries, if_pos (by simpa using hlt), Nat.sub_zero, List.getElem?_map, hget]
  simp [hv]

/-- What a step of a server tells the tester: at most one event, and an ingested
log only with snapshots. -/
def Tells (snapshot : Bool) (s s' : Session n γ) : Prop :=
  s' = s ∨ ∃ e, s' = s.handle e ∧ (snapshot = false → IngestAgrees s e)

theorem Rpc.send_tells (rpc : Rpc) (s : Session n γ) (e : Event n γ) {snapshot : Bool}
    (he : snapshot = false → IngestAgrees s e) : Tells snapshot s (rpc.send s e) := by
  by_cases h : rpc = .lost
  · exact Or.inl (if_pos h)
  · exact Or.inr ⟨e, if_neg h, he⟩

theorem newRfsrv_tells (snapshot : Bool) (me : Fin n) (s : Session n γ)
    (sn : Option (Snapshot γ)) (rpc : Rpc) :
    Tells snapshot s (newRfsrv snapshot me s sn rpc).2 := by
  unfold newRfsrv
  by_cases hsn : snapshot = true ∧ sn.isSome = true
  · rw [if_pos hsn]
    dsimp only
    split
    · exact Or.inl rfl
    · exact rpc.send_tells s _ (by simp [hsn.1])
  · rw [if_neg hsn]
    exact Or.inl rfl

theorem Rfsrv.applier_tells (rs : Rfsrv γ) (me : Fin n) (s : Session n γ) (m : ApplyMsg γ)
    (rpc : Rpc) : Tells false s (rs.applier me s m rpc).2 := by
  unfold Rfsrv.applier
  split
  · exact Or.inl rfl
  · exact rpc.send_tells s (.checkLogs me m) fun _ => trivial

variable [Inhabited γ]

theorem Rfsrv.applierSnap_tells (rs : Rfsrv γ) (me : Fin n) (s : Session n γ) (m : ApplyMsg γ)
    (rpc : Rpc) : Tells true s (rs.applierSnap me s m rpc).2 := by
  unfold Rfsrv.applierSnap
  split
  · exact rpc.send_tells s _ (by simp)
  · split
    · split
      · exact Or.inl rfl
      · exact rpc.send_tells s (.checkLogs me m) (by simp)
    · exact Or.inl rfl

theorem cluster_step_tells {snapshot : Bool} {c c' : Cluster n γ} {label : Label n γ}
    (h : (cluster n γ snapshot).step c label = some c') :
    Tells snapshot c.session c'.session := by
  cases label with
  | newRfsrv i sn rpc =>
    cases h
    exact newRfsrv_tells snapshot i c.session sn rpc
  | applier i m rpc =>
    simp only [cluster] at h
    split at h
    · cases h
      cases snapshot with
      | true => exact (c.rfsrvs i).applierSnap_tells i c.session m rpc
      | false => exact (c.rfsrvs i).applier_tells i c.session m rpc
    · cases h
  | applyErr i rpc =>
    simp only [cluster] at h
    split at h
    · cases h
      exact rpc.send_tells c.session _ fun _ => trivial
    · cases h
      exact rpc.send_tells c.session _ fun _ => trivial
    · cases h

/-- Every run of the servers is a run of the tester. -/
theorem session_reachable {snapshot : Bool} {c : Cluster n γ}
    (h : (cluster n γ snapshot).Reachable c) : (session n γ).Reachable c.session := by
  refine Reachable.map (S := cluster n γ snapshot) Cluster.session (fun _ hc => hc.1) ?_ h
  intro c label c' hstep
  rcases cluster_step_tells hstep with heq | ⟨e, heq, _⟩
  · exact Or.inl heq
  · exact Or.inr ⟨e, congrArg some heq.symm⟩

/-- Without snapshots no log is ingested, and the checker is sound on every run. -/
theorem checker_sound_of_no_snapshots {c : Cluster n γ} (h : (cluster n γ false).Reachable c)
    (hsilent : c.session.Silent) : c.session.ts.Agree := by
  have hinv : c.session.Silent → c.session.ts.Agree := by
    refine h.invariant (I := fun c => c.session.Silent → c.session.ts.Agree) ?_ ?_
    · intro c hc _
      rw [hc.1]
      exact makeTest_agree
    · intro c label c' _ ih hstep hsilent
      rcases cluster_step_tells hstep with heq | ⟨e, heq, he⟩
      · rw [heq] at hsilent ⊢
        exact ih hsilent
      · rw [heq] at hsilent ⊢
        exact Session.agree_handle ih (he rfl) hsilent
  exact hinv hsilent

/-! ### A snapshot that no one compares -/

def command (index : ℤ) (v : ℕ) : ApplyMsg ℕ := ⟨true, v, index, false, none, 0⟩

def snapshotMsg (index : ℤ) (xlog : List ℕ) : ApplyMsg ℕ :=
  ⟨false, 0, 0, true, some (.state index xlog), index⟩

/-- Server i applies command 7 at index 1; server j is handed a snapshot with
command 8 at that index. -/
def divergentLabels (i j : Fin n) : List (Label n ℕ) :=
  [.newRfsrv i none .answered, .newRfsrv j none .answered,
    .applier i (command 1 7) .answered, .applier j (snapshotMsg 1 [0, 8]) .answered]

/-- The two recorded logs differ at index 1, and neither `CheckLogs` nor the
servers have reported anything. -/
def Cluster.divergedSilently (i j : Fin n) (c : Cluster n ℕ) : Bool :=
  c.session.msgs = [""] && (c.session.ts.srvs i).applyErr = "" &&
    (c.session.ts.srvs j).applyErr = "" && (c.rfsrvs i).pc = .receiving &&
    (c.rfsrvs j).pc = .receiving && (c.session.ts.srvs i).entry 1 = some 7 &&
    (c.session.ts.srvs j).entry 1 = some 8

theorem snapshot_diverges_silently :
    ∃ c : Cluster 2 ℕ, (cluster 2 ℕ true).Reachable c ∧ (session 2 ℕ).Reachable c.session ∧
      c.session.Silent ∧ (∀ i, (c.session.ts.srvs i).applyErr = "") ∧ ¬ c.session.ts.Agree := by
  obtain ⟨c, hc, hp⟩ := Reachable.of_run_check (S := cluster 2 ℕ true) (divergentLabels 0 1)
    (s := ⟨⟨makeTest 2 ℕ, []⟩, fun _ => ⟨0, ∅, [], .dead⟩⟩) (p := Cluster.divergedSilently 0 1)
    ⟨rfl, fun _ => rfl⟩ (by decide +kernel)
  simp only [Cluster.divergedSilently, Bool.and_eq_true, decide_eq_true_eq] at hp
  obtain ⟨⟨⟨⟨⟨⟨hmsgs, h0⟩, h1⟩, -⟩, -⟩, hv⟩, hw⟩ := hp
  refine ⟨c, hc, session_reachable hc, ?_, ?_, ?_⟩
  · intro msg hmsg
    rw [hmsgs] at hmsg
    simpa using hmsg
  · intro i
    match i with
    | 0 => exact h0
    | 1 => exact h1
  · intro hagree
    exact absurd (hagree 0 1 1 7 8 hv hw) (by decide)

end DistributedLabs.RaftTest
