import DistributedLabs.RaftChecker

/-!
The checker of the Raft tests raises no false alarm. The Raft library below the servers feeds
each of them the commands of one committed sequence, in order from where the process or the
last snapshot left off, and hands out only snapshots that some server has taken; a call to the
tester fails only when the calling process is being killed. Servers crash, start over, catch up
by each other's snapshots and report to the tester in any interleaving.
-/
namespace DistributedLabs.RaftTest

open Transition Transition.System

variable {n : ℕ} {γ : Type*} [DecidableEq γ] [Inhabited γ] [ToString γ]

/-- The servers above the Raft library. `applied` is the index up to which Raft has fed the
apply channel of the present process, `pool` are the snapshots handed to Raft so far. -/
structure Harness (n : ℕ) (γ : Type*) where
  servers : Cluster n γ
  alive : Fin n → Bool
  applied : Fin n → ℕ
  pool : List (ℤ × Snapshot γ)

inductive Move (n : ℕ) (γ : Type*)
  | start (i : Fin n) (sn : Option ℕ) (rpc : Rpc)
  | command (i : Fin n) (rpc : Rpc)
  | install (i : Fin n) (sn : ℕ) (rpc : Rpc)
  | other (i : Fin n) (m : ApplyMsg γ)
  | report (i : Fin n) (rpc : Rpc)
  | kill (i : Fin n)

namespace Harness

def message (committed : ℕ → γ) (index : ℕ) : ApplyMsg γ :=
  ⟨true, committed index, index, false, none, 0⟩

def snapshotMessage (p : ℤ × Snapshot γ) : ApplyMsg γ := ⟨false, default, 0, true, some p.2, p.1⟩

/-- Server i has made its step; after a call without an answer it takes no other. -/
def after (s : Harness n γ) (i : Fin n) (rpc : Rpc) (applied : ℕ) (c : Cluster n γ) :
    Harness n γ :=
  ⟨c, Function.update s.alive i (rpc = .answered), Function.update s.applied i applied,
    s.pool ++ (c.rfsrvs i).snapshots⟩

def step (committed : ℕ → γ) (snapshot : Bool) (s : Harness n γ) :
    Move n γ → Option (Harness n γ)
  | .start i none rpc =>
    ((cluster n γ snapshot).step s.servers (.newRfsrv i none rpc)).map (s.after i rpc 0)
  | .start i (some k) rpc =>
    match s.pool[k]? with
    | some p =>
      ((cluster n γ snapshot).step s.servers (.newRfsrv i (some p.2) rpc)).map
        (s.after i rpc p.1.toNat)
    | none => none
  | .command i rpc =>
    if s.alive i then
      ((cluster n γ snapshot).step s.servers
        (.applier i (message committed (s.applied i + 1)) rpc)).map
          (s.after i rpc (s.applied i + 1))
    else none
  | .install i k rpc =>
    match s.pool[k]? with
    | some p =>
      if s.alive i then
        ((cluster n γ snapshot).step s.servers (.applier i (snapshotMessage p) rpc)).map
          (s.after i rpc p.1.toNat)
      else none
    | none => none
  | .other i m =>
    if s.alive i ∧ m.commandValid = false ∧ m.snapshotValid = false then
      ((cluster n γ snapshot).step s.servers (.applier i m .answered)).map
        (s.after i .answered (s.applied i))
    else none
  | .report i rpc =>
    if s.alive i then
      ((cluster n γ snapshot).step s.servers (.applyErr i rpc)).map
        (s.after i rpc (s.applied i))
    else none
  | .kill i => some { s with alive := Function.update s.alive i false }

end Harness

def harness (n : ℕ) (committed : ℕ → γ) (snapshot : Bool) : System (Harness n γ) (Move n γ) where
  start s := (cluster n γ snapshot).start s.servers ∧ (∀ i, s.alive i = false) ∧ s.pool = []
  step := Harness.step committed snapshot

/-- The entry at an index: a snapshot has nil at 0, where no command is. -/
def expected (committed : ℕ → γ) (k : ℕ) : γ := if k = 0 then default else committed k

/-- The log holds nothing but committed entries. -/
def Copies (committed : ℕ → γ) (log : Log γ) : Prop :=
  ∀ k v, log.lookup k = some v → ∃ j : ℕ, k = j ∧ v = expected committed j

def Faithful (committed : ℕ → γ) (p : ℤ × Snapshot γ) : Prop :=
  ∃ k : ℕ, p = ((k : ℤ), .state k ((List.range (k + 1)).map (expected committed)))

section Logs

variable {committed : ℕ → γ}

omit [DecidableEq γ] [ToString γ]

theorem expected_of_pos {k : ℕ} (h : 0 < k) : expected committed k = committed k :=
  if_neg (by omega)

theorem Copies.empty : Copies committed ∅ := by
  intro k v h
  simp at h

theorem Copies.insert {log : Log γ} (h : Copies committed log) (k : ℕ) :
    Copies committed (log.insert (k : ℤ) (expected committed k)) := by
  intro k' v hv
  by_cases hk : k' = k
  · subst hk
    rw [Finmap.lookup_insert] at hv
    exact ⟨k, rfl, (Option.some.inj hv).symm⟩
  · rw [Finmap.lookup_insert_of_ne _ hk] at hv
    exact h k' v hv

theorem ofEntries_range (k : ℕ) (j : ℕ) :
    (ofEntries ((List.range (k + 1)).map (expected committed)) 0 ∅).lookup (j : ℤ) =
      if j ≤ k then some (expected committed j) else none := by
  rw [lookup_ofEntries]
  by_cases hj : j ≤ k
  · have hlt : j < k + 1 := by omega
    simp [hj, hlt]
  · have hnot : ¬ j < k + 1 := by omega
    simp [hj, hnot]

theorem Copies.ofEntries (j : ℕ) (xlog : List γ) {log : Log γ} (h : Copies committed log)
    (hx : ∀ i v, xlog[i]? = some v → v = expected committed (j + i)) :
    Copies committed (ofEntries xlog j log) := by
  induction xlog generalizing j log with
  | nil => exact h
  | cons v rest ih =>
    have hv : v = expected committed j := hx 0 v rfl
    rw [RaftTest.ofEntries, hv]
    refine ih (j + 1) (h.insert j) ?_
    intro i w hw
    rw [hx (i + 1) w hw]
    congr 1
    omega

/-- A snapshot of a log that has all entries up to the index. -/
theorem Faithful.take {log : Log γ} {k : ℕ} (hcopies : Copies committed log)
    (hall : ∀ j : ℕ, 0 < j → j ≤ k → log.lookup (j : ℤ) = some (committed j)) :
    Faithful committed ((k : ℤ), takeSnapshot log k) := by
  refine ⟨k, ?_⟩
  have hlen : ((k : ℤ) + 1).toNat = k + 1 := by omega
  simp only [takeSnapshot, hlen, Prod.mk.injEq, true_and, Snapshot.state.injEq]
  refine List.map_congr_left ?_
  intro j hj
  have hle : j ≤ k := by
    have hlt := List.mem_range.mp hj
    omega
  rcases Nat.eq_zero_or_pos j with rfl | hpos
  · cases hzero : log.lookup ((0 : ℕ) : ℤ) with
    | none => simp [expected]
    | some v =>
      obtain ⟨i, hi, rfl⟩ := hcopies _ v hzero
      obtain rfl : i = 0 := by omega
      rfl
  · rw [hall j hpos hle, expected_of_pos hpos]
    rfl

end Logs

/-- The tester has seen nothing wrong and its copies are committed. -/
structure Tidy (committed : ℕ → γ) (s : Session n γ) : Prop where
  silent : s.Silent
  noErr : ∀ i, (s.ts.srvs i).applyErr = ""
  copies : ∀ i, Copies committed (s.ts.srvs i).logs

namespace Tidy

variable {committed : ℕ → γ} {s : Session n γ}

omit [DecidableEq γ] [ToString γ] in
theorem initial : Tidy committed (⟨makeTest n γ, []⟩ : Session n γ) where
  silent msg h := by simp at h
  noErr i := rfl
  copies i := Copies.empty

theorem silent_checkLogs (hs : Tidy committed s) (i : Fin n) {m : ApplyMsg γ} {k : ℕ}
    (hindex : m.commandIndex = k) (hcmd : m.command = expected committed k) :
    (s.ts.checkLogs i m).1.1 = "" := by
  rw [Test.checkLogs_silent]
  intro j old hold
  rw [hindex] at hold
  obtain ⟨k', hk', rfl⟩ := hs.copies j _ old hold
  obtain rfl : k = k' := by omega
  exact hcmd.symm

omit [DecidableEq γ] [ToString γ] in
theorem setLogs (hs : Tidy committed s) (i : Fin n) {logs : Log γ} (hlogs : Copies committed logs)
    {msgs : List String} (hmsgs : ∀ msg ∈ msgs, msg = "") (maxIndex : ℤ) :
    Tidy committed ⟨{ s.ts.setLogs i logs with maxIndex }, s.msgs ++ msgs⟩ where
  silent msg h := by
    rcases List.mem_append.mp h with hold | hnew
    · exact hs.silent msg hold
    · exact hmsgs msg hnew
  noErr j := by
    by_cases hj : j = i
    · subst hj
      simpa [Test.setLogs] using hs.noErr j
    · simpa [Test.setLogs, hj] using hs.noErr j
  copies j := by
    by_cases hj : j = i
    · subst hj
      simpa [Test.setLogs] using hlogs
    · simpa [Test.setLogs, hj] using hs.copies j

theorem checkLogs (hs : Tidy committed s) (i : Fin n) {m : ApplyMsg γ} {k : ℕ}
    (hindex : m.commandIndex = k) (hcmd : m.command = expected committed k) :
    Tidy committed (s.handle (.checkLogs i m)) := by
  have hquiet := hs.silent_checkLogs i hindex hcmd
  refine hs.setLogs i ?_ ?_ _
  · rw [hindex, hcmd]
    exact (hs.copies i).insert k
  · intro msg hmsg
    rw [List.mem_singleton.mp hmsg]
    exact hquiet

theorem ingestLog (hs : Tidy committed s) (i : Fin n) {xlog : Log γ}
    (hx : Copies committed xlog) : Tidy committed (s.handle (.ingestLog i xlog)) := by
  have hnone : ∀ msg ∈ ([] : List String), msg = "" := by simp
  have h := hs.setLogs i hx hnone s.ts.maxIndex
  rw [List.append_nil] at h
  exact h

theorem send (hs : Tidy committed s) (rpc : Rpc) {e : Event n γ}
    (he : Tidy committed (s.handle e)) : Tidy committed (rpc.send s e) := by
  unfold Rpc.send
  split
  · exact hs
  · exact he

end Tidy

omit [Inhabited γ] in
/-- The entries of another server's copy are not touched. -/
theorem entry_handle_of_ne {s : Session n γ} {i j : Fin n} (h : j ≠ i) (rpc : Rpc) {e : Event n γ}
    (he : (∃ m, e = .checkLogs i m) ∨ ∃ xlog, e = .ingestLog i xlog) (k : ℤ) :
    ((rpc.send s e).ts.srvs j).entry k = (s.ts.srvs j).entry k := by
  unfold Rpc.send
  split
  · rfl
  · rcases he with ⟨m, rfl⟩ | ⟨xlog, rfl⟩
    · simp [Session.handle, Test.checkLogs, Test.setLogs, h]
    · simp [Session.handle, Test.ingestLog, Test.setLogs, h]

/-- What a server and the tester's copy of its log have in common after `applied` entries. -/
structure Serving (committed : ℕ → γ) (snapshot : Bool) (rs : Rfsrv γ) (copy : RaftServer γ)
    (applied : ℕ) : Prop where
  receiving : rs.pc = .receiving
  recorded : 0 < applied → (copy.entry applied).isSome = true
  last : snapshot = true → rs.lastApplied = applied
  copies : snapshot = true → Copies committed rs.log
  complete : snapshot = true → ∀ j : ℕ, 0 < j → j ≤ applied →
    rs.log.lookup (j : ℤ) = some (committed j)

structure Quiet (committed : ℕ → γ) (snapshot : Bool) (s : Harness n γ) : Prop where
  tidy : Tidy committed s.servers.session
  pool : ∀ p ∈ s.pool, Faithful committed p
  bare : snapshot = false → s.pool = []
  taken : ∀ i, ∀ p ∈ (s.servers.rfsrvs i).snapshots, Faithful committed p
  untaken : snapshot = false → ∀ i, (s.servers.rfsrvs i).snapshots = []
  serving : ∀ i, s.alive i = true →
    Serving committed snapshot (s.servers.rfsrvs i) (s.servers.session.ts.srvs i) (s.applied i)

/-- What a step of server i leaves behind, for the server and for the session. -/
structure Outcome (committed : ℕ → γ) (snapshot : Bool) (s : Session n γ) (i : Fin n) (rpc : Rpc)
    (applied : ℕ) (r : Rfsrv γ × Session n γ) : Prop where
  tidy : Tidy committed r.2
  others : ∀ j, j ≠ i → ∀ k, (r.2.ts.srvs j).entry k = (s.ts.srvs j).entry k
  taken : ∀ p ∈ r.1.snapshots, Faithful committed p
  untaken : snapshot = false → r.1.snapshots = []
  serving : rpc = .answered → Serving committed snapshot r.1 (r.2.ts.srvs i) applied

section Steps

variable {committed : ℕ → γ} {snapshot : Bool} {s : Harness n γ}

omit [DecidableEq γ] [ToString γ] in
theorem Serving.congr {rs : Rfsrv γ} {copy copy' : RaftServer γ} {applied : ℕ}
    (h : Serving committed snapshot rs copy applied)
    (hentry : ∀ k, copy'.entry k = copy.entry k) :
    Serving committed snapshot rs copy' applied where
  receiving := h.receiving
  recorded hpos := by
    rw [hentry]
    exact h.recorded hpos
  last := h.last
  copies := h.copies
  complete := h.complete

omit [DecidableEq γ] [ToString γ] in
theorem Quiet.after (hs : Quiet committed snapshot s) {i : Fin n} {rpc : Rpc} {applied : ℕ}
    {r : Rfsrv γ × Session n γ}
    (hr : Outcome committed snapshot s.servers.session i rpc applied r) :
    Quiet committed snapshot (s.after i rpc applied (s.servers.put i r)) where
  tidy := hr.tidy
  pool p hp := by
    rcases List.mem_append.mp hp with hold | hnew
    · exact hs.pool p hold
    · exact hr.taken p (by simpa [Cluster.put] using hnew)
  bare hsnap := by
    simp [Harness.after, Cluster.put, hs.bare hsnap, hr.untaken hsnap]
  taken j p hp := by
    by_cases hj : j = i
    · subst hj
      exact hr.taken p (by simpa [Harness.after, Cluster.put] using hp)
    · exact hs.taken j p (by simpa [Harness.after, Cluster.put, hj] using hp)
  untaken hsnap j := by
    by_cases hj : j = i
    · subst hj
      simpa [Harness.after, Cluster.put] using hr.untaken hsnap
    · simpa [Harness.after, Cluster.put, hj] using hs.untaken hsnap j
  serving j halive := by
    by_cases hj : j = i
    · subst hj
      have hans : rpc = .answered := by simpa [Harness.after] using halive
      simpa [Harness.after, Cluster.put] using hr.serving hans
    · have halive' : s.alive j = true := by simpa [Harness.after, hj] using halive
      have hsame := (hs.serving j halive').congr (hr.others j hj)
      simpa [Harness.after, Cluster.put, hj] using hsame

/-- A server checks in the next command of the committed sequence. -/
theorem checkLogs_next {session : Session n γ} (ht : Tidy committed session) (i : Fin n)
    {copy : RaftServer γ} (hcopy : session.ts.srvs i = copy) {k : ℕ}
    (hrec : 0 < k → (copy.entry k).isSome = true) :
    let m := Harness.message committed (k + 1)
    (session.ts.checkLogs i m).1.1 = "" ∧
      (1 < m.commandIndex → (session.ts.checkLogs i m).1.2 = true) ∧
      (((session.handle (.checkLogs i m)).ts.srvs i).entry ((k + 1 : ℕ) : ℤ)).isSome = true := by
  intro m
  have hcmd : m.command = expected committed (k + 1) := (expected_of_pos (by omega)).symm
  refine ⟨ht.silent_checkLogs i rfl hcmd, ?_, ?_⟩
  · intro hlt
    have hpos : 0 < k := by
      have hlt' : (1 : ℤ) < ((k + 1 : ℕ) : ℤ) := hlt
      omega
    have hindex : m.commandIndex - 1 = (k : ℤ) := by
      change ((k + 1 : ℕ) : ℤ) - 1 = k
      omega
    change ((session.ts.srvs i).entry (m.commandIndex - 1)).isSome = true
    rw [hindex, hcopy]
    exact hrec hpos
  · simp [Session.handle, Test.checkLogs, Test.setLogs, RaftServer.entry, m, Harness.message]

/-- The next command passes the check of `applier`, if the tester answers. -/
theorem applier_next {session : Session n γ} (ht : Tidy committed session) (rs : Rfsrv γ)
    (i : Fin n) {k : ℕ} (hrec : 0 < k → ((session.ts.srvs i).entry k).isSome = true)
    (rpc : Rpc) :
    ∃ err, rs.applier i session (Harness.message committed (k + 1)) rpc =
        (rs.finish err, rpc.send session (.checkLogs i (Harness.message committed (k + 1)))) ∧
      (rpc = .answered → err = "") := by
  refine ⟨_, rfl, ?_⟩
  rintro rfl
  obtain ⟨hquiet, hprev, _⟩ := checkLogs_next ht i rfl hrec
  refine (if_neg ?_).trans hquiet
  rintro ⟨hlt, hfalse⟩
  exact absurd ((hprev hlt).symm.trans hfalse) (by simp)

/-- The next command passes the checks of `applierSnap`, if the tester answers. -/
theorem applierSnap_next {session : Session n γ} (ht : Tidy committed session) {rs : Rfsrv γ}
    (i : Fin n) {k : ℕ} (hlast : rs.lastApplied = k)
    (hrec : 0 < k → ((session.ts.srvs i).entry k).isSome = true) (rpc : Rpc) :
    ∃ err, rs.applierSnap i session (Harness.message committed (k + 1)) rpc =
        ((rs.record (Harness.message committed (k + 1))).finish err,
          rpc.send session (.checkLogs i (Harness.message committed (k + 1)))) ∧
      (rpc = .answered → err = "") := by
  have hindex : ¬ (Harness.message committed (k + 1)).commandIndex ≠ rs.lastApplied + 1 := by
    rw [hlast]
    exact fun hne => hne rfl
  refine ⟨_, (if_neg hindex), ?_⟩
  rintro rfl
  obtain ⟨hquiet, hprev, _⟩ := checkLogs_next ht i rfl hrec
  refine (if_neg ?_).trans hquiet
  rintro ⟨_, hlt, hfalse⟩
  exact absurd ((hprev hlt).symm.trans hfalse) (by simp)

theorem Tidy.message {session : Session n γ} (ht : Tidy committed session) (i : Fin n) (k : ℕ)
    (rpc : Rpc) :
    Tidy committed (rpc.send session (.checkLogs i (Harness.message committed (k + 1)))) :=
  ht.send rpc (ht.checkLogs i rfl (expected_of_pos (by omega)).symm)

/-- A command without snapshots. -/
theorem outcome_applier {rs : Rfsrv γ} {session : Session n γ} {i : Fin n} {k : ℕ} (rpc : Rpc)
    (ht : Tidy committed session) (hsnaps : rs.snapshots = [])
    (hs : Serving committed false rs (session.ts.srvs i) k) :
    Outcome committed false session i rpc (k + 1)
      (rs.applier i session (Harness.message committed (k + 1)) rpc) := by
  obtain ⟨err, heq, herr⟩ := applier_next ht rs i hs.recorded rpc
  rw [heq]
  refine ⟨ht.message i k rpc, fun j hj index => entry_handle_of_ne hj rpc (Or.inl ⟨_, rfl⟩) index,
    ?_, fun _ => hsnaps, ?_⟩
  · intro p hp
    have hp' : p ∈ rs.snapshots := hp
    rw [hsnaps] at hp'
    cases hp'
  · intro hans
    rw [herr hans, hans]
    exact ⟨rfl, fun _ => (checkLogs_next ht i rfl hs.recorded).2.2, by simp, by simp, by simp⟩

/-- A command with snapshots. -/
theorem outcome_command {rs : Rfsrv γ} {session : Session n γ} {i : Fin n} {k : ℕ} (rpc : Rpc)
    (ht : Tidy committed session) (hsnaps : ∀ p ∈ rs.snapshots, Faithful committed p)
    (hs : Serving committed true rs (session.ts.srvs i) k) :
    Outcome committed true session i rpc (k + 1)
      (rs.applierSnap i session (Harness.message committed (k + 1)) rpc) := by
  have hlog : (rs.record (Harness.message committed (k + 1))).log =
      rs.log.insert ((k + 1 : ℕ) : ℤ) (expected committed (k + 1)) := by
    rw [expected_of_pos (by omega)]
    rfl
  have hcopies : Copies committed (rs.record (Harness.message committed (k + 1))).log := by
    rw [hlog]
    exact (hs.copies rfl).insert (k + 1)
  have hcomplete : ∀ j : ℕ, 0 < j → j ≤ k + 1 →
      (rs.record (Harness.message committed (k + 1))).log.lookup (j : ℤ) = some (committed j) := by
    intro j hpos hle
    rw [hlog]
    rcases Nat.lt_or_eq_of_le hle with hlt | rfl
    · have hne : (j : ℤ) ≠ ((k + 1 : ℕ) : ℤ) := by omega
      rw [Finmap.lookup_insert_of_ne _ hne]
      exact hs.complete rfl j hpos (by omega)
    · rw [Finmap.lookup_insert, expected_of_pos hpos]
  have htaken : ∀ p ∈ (rs.record (Harness.message committed (k + 1))).snapshots,
      Faithful committed p := by
    intro p hp
    simp only [Rfsrv.record] at hp
    split at hp
    · rcases List.mem_append.mp hp with hold | hnew
      · exact hsnaps p hold
      · rw [List.mem_singleton.mp hnew]
        exact Faithful.take hcopies hcomplete
    · exact hsnaps p hp
  obtain ⟨err, heq, herr⟩ := applierSnap_next ht i (hs.last rfl) hs.recorded rpc
  rw [heq]
  refine ⟨ht.message i k rpc, fun j hj index => entry_handle_of_ne hj rpc (Or.inl ⟨_, rfl⟩) index,
    htaken, by simp, ?_⟩
  intro hans
  rw [herr hans, hans]
  exact ⟨rfl, fun _ => (checkLogs_next ht i rfl hs.recorded).2.2, fun _ => rfl, fun _ => hcopies,
    fun _ => hcomplete⟩

/-- A server that takes over a faithful snapshot and tells the tester. -/
theorem outcome_ingest {rs : Rfsrv γ} {session : Session n γ} {i : Fin n} {k : ℕ} (rpc : Rpc)
    (ht : Tidy committed session) (hsnaps : ∀ p ∈ rs.snapshots, Faithful committed p)
    (hpc : rs.pc = .receiving) (hlast : rs.lastApplied = k)
    (hlog : rs.log = ofEntries ((List.range (k + 1)).map (expected committed)) 0 ∅) :
    Outcome committed true session i rpc k (rs, rpc.send session (.ingestLog i rs.log)) := by
  have hcopies : Copies committed rs.log := by
    rw [hlog]
    refine Copies.empty.ofEntries 0 _ ?_
    intro j v hv
    rw [List.getElem?_map] at hv
    obtain ⟨j', hj', rfl⟩ := Option.map_eq_some_iff.mp hv
    have heq := (List.getElem?_eq_some_iff.mp hj').2
    rw [List.getElem_range] at heq
    rw [← heq, Nat.zero_add]
  refine ⟨ht.send rpc (ht.ingestLog i hcopies),
    fun j hj index => entry_handle_of_ne hj rpc (Or.inr ⟨_, rfl⟩) index, hsnaps, by simp, ?_⟩
  rintro rfl
  have hcopy : ((session.handle (.ingestLog i rs.log)).ts.srvs i).logs = rs.log := by
    simp [Session.handle, Test.ingestLog, Test.setLogs]
  refine ⟨hpc, fun _ => ?_, fun _ => hlast, fun _ => hcopies, fun _ j hpos hle => ?_⟩
  · change (((session.handle (.ingestLog i rs.log)).ts.srvs i).logs.lookup (k : ℤ)).isSome = true
    rw [hcopy, hlog, ofEntries_range, if_pos le_rfl]
    rfl
  · rw [hlog, ofEntries_range, if_pos hle, expected_of_pos hpos]

/-- A snapshot on the apply channel. -/
theorem outcome_install {rs : Rfsrv γ} {session : Session n γ} {i : Fin n} (rpc : Rpc)
    (ht : Tidy committed session) (hsnaps : ∀ p ∈ rs.snapshots, Faithful committed p)
    {p : ℤ × Snapshot γ} (hp : Faithful committed p) :
    Outcome committed true session i rpc p.1.toNat
      (rs.applierSnap i session (Harness.snapshotMessage p) rpc) := by
  obtain ⟨k, rfl⟩ := hp
  have hingest : rs.ingestSnap i
      (some (.state k ((List.range (k + 1)).map (expected committed)))) k =
      ("", { rs with
        log := ofEntries ((List.range (k + 1)).map (expected committed)) 0 ∅
        lastApplied := k }) := if_neg (by simp)
  simp only [Rfsrv.applierSnap, Harness.snapshotMessage, hingest, if_true, Int.toNat_natCast]
  exact outcome_ingest rpc ht hsnaps rfl rfl rfl

/-- A process starts without a snapshot. -/
theorem outcome_fresh {session : Session n γ} {i : Fin n} (rpc : Rpc)
    (ht : Tidy committed session) :
    Outcome committed snapshot session i rpc 0 (newRfsrv snapshot i session none rpc) := by
  have hfresh : newRfsrv snapshot i session none rpc = (⟨0, ∅, [], .receiving⟩, session) :=
    if_neg (by simp)
  rw [hfresh]
  refine ⟨ht, fun _ _ _ => rfl, by simp, fun _ => rfl, fun _ => ⟨rfl, by simp, fun _ => rfl,
    fun _ => Copies.empty, fun _ j hpos hle => ?_⟩⟩
  omega

/-- A process starts from a snapshot. -/
theorem outcome_restart {session : Session n γ} {i : Fin n} (rpc : Rpc)
    (ht : Tidy committed session) {p : ℤ × Snapshot γ} (hp : Faithful committed p) :
    Outcome committed true session i rpc p.1.toNat (newRfsrv true i session (some p.2) rpc) := by
  obtain ⟨k, rfl⟩ := hp
  have hingest : (⟨0, ∅, [], .receiving⟩ : Rfsrv γ).ingestSnap i
      (some (.state k ((List.range (k + 1)).map (expected committed)))) (-1) =
      ("", ⟨k, ofEntries ((List.range (k + 1)).map (expected committed)) 0 ∅, [], .receiving⟩) := by
    simp [Rfsrv.ingestSnap]
  simp only [newRfsrv, hingest, Option.isSome_some, and_self, if_true, ne_eq, not_true_eq_false,
    if_false, Int.toNat_natCast]
  exact outcome_ingest rpc ht (by simp) rfl rfl rfl

theorem Quiet.step {t : Harness n γ} {l : Move n γ} (hs : Quiet committed snapshot s)
    (h : Harness.step committed snapshot s l = some t) : Quiet committed snapshot t := by
  have hcfg : ∀ p ∈ s.pool, snapshot = true := by
    intro p hp
    by_contra hfalse
    rw [hs.bare (by simpa using hfalse)] at hp
    cases hp
  cases l with
  | start i sn rpc =>
    cases sn with
    | none =>
      cases h
      exact hs.after (outcome_fresh rpc hs.tidy)
    | some k =>
      simp only [Harness.step] at h
      split at h
      · rename_i p hp
        cases h
        have hmem := List.mem_of_getElem? hp
        obtain rfl := hcfg p hmem
        exact hs.after (outcome_restart rpc hs.tidy (hs.pool p hmem))
      · cases h
  | command i rpc =>
    simp only [Harness.step] at h
    split at h
    · rename_i halive
      have hserv := hs.serving i halive
      obtain ⟨c, hc, rfl⟩ := Option.map_eq_some_iff.mp h
      simp only [cluster, hserv.receiving, if_true] at hc
      cases hc
      cases snapshot with
      | true => exact hs.after (outcome_command rpc hs.tidy (hs.taken i) hserv)
      | false => exact hs.after (outcome_applier rpc hs.tidy (hs.untaken rfl i) hserv)
    · cases h
  | install i k rpc =>
    simp only [Harness.step] at h
    split at h
    · rename_i p hp
      split at h
      · rename_i halive
        have hserv := hs.serving i halive
        have hmem := List.mem_of_getElem? hp
        obtain rfl := hcfg p hmem
        obtain ⟨c, hc, rfl⟩ := Option.map_eq_some_iff.mp h
        simp only [cluster, hserv.receiving, if_true] at hc
        cases hc
        exact hs.after (outcome_install rpc hs.tidy (hs.taken i) (hs.pool p hmem))
      · cases h
    · cases h
  | other i m =>
    simp only [Harness.step] at h
    split at h
    · rename_i hg
      obtain ⟨halive, hcmd, hsn⟩ := hg
      have hserv := hs.serving i halive
      obtain ⟨c, hc, rfl⟩ := Option.map_eq_some_iff.mp h
      have hsame : (if snapshot = true then
          (s.servers.rfsrvs i).applierSnap i s.servers.session m .answered
          else (s.servers.rfsrvs i).applier i s.servers.session m .answered) =
          (s.servers.rfsrvs i, s.servers.session) := by
        cases snapshot <;> simp [Rfsrv.applierSnap, Rfsrv.applier, hcmd, hsn]
      simp only [cluster, hserv.receiving, if_true, hsame] at hc
      cases hc
      exact hs.after ⟨hs.tidy, fun _ _ _ => rfl, hs.taken i, fun hf => hs.untaken hf i,
        fun _ => hserv⟩
    · cases h
  | report i rpc =>
    simp only [Harness.step] at h
    split at h
    · rename_i halive
      obtain ⟨c, hc, _⟩ := Option.map_eq_some_iff.mp h
      simp [cluster, (hs.serving i halive).receiving] at hc
    · cases h
  | kill i =>
    cases h
    refine ⟨hs.tidy, hs.pool, hs.bare, hs.taken, hs.untaken, ?_⟩
    intro j hj
    by_cases hji : j = i
    · subst hji
      simp at hj
    · exact hs.serving j (by simpa [hji] using hj)

theorem Quiet.of_reachable (h : (harness n committed snapshot).Reachable s) :
    Quiet committed snapshot s := by
  refine Reachable.invariant (I := Quiet committed snapshot) ?_ ?_ h
  · rintro s ⟨⟨hsession, hdead⟩, halive, hpool⟩
    have hsession' : s.servers.session = ⟨makeTest n γ, []⟩ := hsession
    refine ⟨hsession' ▸ Tidy.initial, by simp [hpool], fun _ => hpool, ?_, ?_, ?_⟩
    · intro i p hp
      simp [hdead i] at hp
    · intro _ i
      simp [hdead i]
    · intro i hi
      rw [halive i] at hi
      cases hi
  · intro s l t _ hs hstep
    exact hs.step hstep

end Steps

section Main

variable {committed : ℕ → γ} {snapshot : Bool} {s : Harness n γ}

end Main

end DistributedLabs.RaftTest
