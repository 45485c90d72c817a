import DistributedLabs.Annotations
import Mathlib.Data.Fintype.Pi
import Mathlib.Data.List.FinRange
import Mathlib.Data.List.GetD

/-!
How the tester annotates partitions and crashes. It keeps its own flags of the servers
and issues calls for one tag: a color while some server is cut off or down, an end once
all is well again. AnnotateConnection, AnnotateShutdown and AnnotateRestart only do so
when a flag has changed, so their ends always meet an annotation that is on-going.
AnnotateClearFailure does not look, and is the only call whose end may be unmatched.
-/
namespace DistributedLabs.Annotations

def tagInfo : String := "$ Test Info"

def colorInfo : String := "#FAFAFA"

/-- The flags of the n servers of a test. -/
structure FrameworkInfo (n : ℕ) where
  connected : Fin n → Bool
  crashed : Fin n → Bool

def mkFrameworkInfo (n : ℕ) : FrameworkInfo n := ⟨fun _ => true, fun _ => false⟩

/-- The verb %v for a slice of ints. -/
def formatInts (ids : List ℕ) : String :=
  "[" ++ " ".intercalate (ids.map fun id => toString id) ++ "]"

variable {n : ℕ}

namespace FrameworkInfo

def crashes (finfo : FrameworkInfo n) : List (Fin n) :=
  (List.finRange n).filter fun id => finfo.crashed id

/-- The servers that are up and connected. -/
def conn (finfo : FrameworkInfo n) : List (Fin n) :=
  (List.finRange n).filter fun id => !finfo.crashed id && finfo.connected id

/-- The servers that are up and cut off, each in a partition of its own. -/
def alone (finfo : FrameworkInfo n) : List (Fin n) :=
  (List.finRange n).filter fun id => !finfo.crashed id && !finfo.connected id

def text (finfo : FrameworkInfo n) : String :=
  "partition = " ++ String.join (finfo.alone.map fun id => "[" ++ toString id.val ++ "] ") ++
    (if finfo.conn = [] then "" else formatInts (finfo.conn.map Fin.val)) ++
    if finfo.crashes = [] then "" else " / crash = " ++ formatInts (finfo.crashes.map Fin.val)

/-- No partitions and no crashes. -/
def AllWell (finfo : FrameworkInfo n) : Prop :=
  (∀ id, finfo.connected id = true) ∧ ∀ id, finfo.crashed id = false

instance (finfo : FrameworkInfo n) : Decidable finfo.AllWell :=
  inferInstanceAs (Decidable (_ ∧ _))

/-- The call that annotateFault makes. -/
def annotateFault (finfo : FrameworkInfo n) : Call :=
  if finfo.AllWell then .continuousEnd tagPartition
  else .continuousColor tagPartition finfo.text finfo.text colorFault

/-- The loop of AnnotateShutdown and AnnotateRestart: set the flags, and say whether
one has changed. -/
def setCrashed (finfo : FrameworkInfo n) (down : Bool) (servers : List (Fin n)) :
    Bool × FrameworkInfo n :=
  servers.foldl (fun s id =>
    (s.1 || s.2.crashed id != down,
      { s.2 with crashed := Function.update s.2.crashed id down })) (false, finfo)

/-- `copy(finfo.connected, connection)`. -/
def copyConnected (finfo : FrameworkInfo n) (connection : List Bool) : FrameworkInfo n :=
  { finfo with connected := fun id => connection.getD id (finfo.connected id) }

def annotateConnection (finfo : FrameworkInfo n) (connection : List Bool) :
    FrameworkInfo n × Option Call :=
  if List.ofFn finfo.connected = connection then (finfo, none)
  else (finfo.copyConnected connection, some (finfo.copyConnected connection).annotateFault)

def annotateTwoPartitions (finfo : FrameworkInfo n) (p1 p2 : List ℕ) :
    FrameworkInfo n × Option Call :=
  let text := "partition = " ++ formatInts p1 ++ " " ++ formatInts p2
  (finfo, some (.continuousColor tagPartition text text colorFault))

def annotateClearFailure (_ : FrameworkInfo n) : FrameworkInfo n × Option Call :=
  (⟨fun _ => true, fun _ => false⟩, some (.continuousEnd tagPartition))

/-- AnnotateShutdown and AnnotateRestart after their loops. -/
def annotateCrashed (finfo : FrameworkInfo n) (down : Bool) (servers : List (Fin n)) :
    FrameworkInfo n × Option Call :=
  let (changed, finfo) := finfo.setCrashed down servers
  (finfo, if changed then some finfo.annotateFault else none)

def annotateShutdown (finfo : FrameworkInfo n) (servers : List (Fin n)) :
    FrameworkInfo n × Option Call :=
  finfo.annotateCrashed true servers

def annotateRestart (finfo : FrameworkInfo n) (servers : List (Fin n)) :
    FrameworkInfo n × Option Call :=
  finfo.annotateCrashed false servers

def annotateShutdownAll (finfo : FrameworkInfo n) : FrameworkInfo n × Option Call :=
  finfo.annotateShutdown (List.finRange n)

def annotateRestartAll (finfo : FrameworkInfo n) : FrameworkInfo n × Option Call :=
  finfo.annotateRestart (List.finRange n)

end FrameworkInfo

inductive FaultCall (n : ℕ)
  | connection (connection : List Bool)
  | twoPartitions (p1 p2 : List ℕ)
  | clearFailure
  | shutdown (servers : List (Fin n))
  | restart (servers : List (Fin n))
  | shutdownAll
  | restartAll

/-- The flags after a call of the tester, and the call it makes on the annotations. -/
def FrameworkInfo.issue (finfo : FrameworkInfo n) : FaultCall n → FrameworkInfo n × Option Call
  | .connection connection => finfo.annotateConnection connection
  | .twoPartitions p1 p2 => finfo.annotateTwoPartitions p1 p2
  | .clearFailure => finfo.annotateClearFailure
  | .shutdown servers => finfo.annotateShutdown servers
  | .restart servers => finfo.annotateRestart servers
  | .shutdownAll => finfo.annotateShutdownAll
  | .restartAll => finfo.annotateRestartAll

/-- A test so far: the flags and the calls made on the annotations. -/
structure TestRun (n : ℕ) where
  finfo : FrameworkInfo n
  events : List Event

/-- A call of the tester and the timestamp taken in it. -/
structure FaultEvent (n : ℕ) where
  time : ℤ
  call : FaultCall n

def TestRun.perform (s : TestRun n) (c : FaultEvent n) : TestRun n :=
  let (finfo, call) := s.finfo.issue c.call
  ⟨finfo, s.events ++ (call.map fun call => ⟨c.time, call⟩).toList⟩

def TestRun.after (calls : List (FaultEvent n)) : TestRun n :=
  calls.foldl TestRun.perform ⟨mkFrameworkInfo n, []⟩

/-- The flags passed are those of all servers. -/
def FaultCall.WellSized : FaultCall n → Prop
  | .connection flags => flags.length = n
  | _ => True

section Issue

variable {finfo : FrameworkInfo n}

/-- What a call of the tester can do. An end only comes where all is well, and then
either after some server was not well or from AnnotateClearFailure. -/
inductive Issues (finfo : FrameworkInfo n) (c : FaultCall n) :
    FrameworkInfo n → Option Call → Prop
  | nothing (finfo' : FrameworkInfo n) : (finfo'.AllWell ↔ finfo.AllWell) →
    c ≠ .clearFailure → Issues finfo c finfo' none
  | color (finfo' : FrameworkInfo n) (text : String) : c ≠ .clearFailure →
    Issues finfo c finfo' (some (.continuousColor tagPartition text text colorFault))
  | ended (finfo' : FrameworkInfo n) : finfo'.AllWell → (c ≠ .clearFailure → ¬ finfo.AllWell) →
    Issues finfo c finfo' (some (.continuousEnd tagPartition))

theorem Issues.annotateFault {c : FaultCall n} {finfo' : FrameworkInfo n}
    (hc : c ≠ .clearFailure) (hchanged : finfo'.AllWell → ¬ finfo.AllWell) :
    Issues finfo c finfo' (some finfo'.annotateFault) := by
  unfold FrameworkInfo.annotateFault
  split
  · rename_i hwell
    exact Issues.ended finfo' hwell fun _ => hchanged hwell
  · exact Issues.color finfo' _ hc

theorem ofFn_copyConnected {connection : List Bool} (h : connection.length = n) :
    List.ofFn (finfo.copyConnected connection).connected = connection := by
  subst h
  have hconnected : (finfo.copyConnected connection).connected = connection.get := by
    funext id
    exact List.getD_eq_getElem _ _ id.isLt
  rw [hconnected, List.ofFn_get]

theorem issues_annotateConnection {connection : List Bool} (h : connection.length = n) :
    Issues finfo (.connection connection) (finfo.annotateConnection connection).1
      (finfo.annotateConnection connection).2 := by
  unfold FrameworkInfo.annotateConnection
  split
  · exact Issues.nothing finfo Iff.rfl (by simp)
  · rename_i hne
    refine Issues.annotateFault (by simp) fun hafter hbefore => hne ?_
    have hsame : finfo.connected = (finfo.copyConnected connection).connected := by
      funext id
      rw [hbefore.1 id, hafter.1 id]
    rw [hsame, ofFn_copyConnected h]

theorem setCrashed_concat (down : Bool) (servers : List (Fin n)) (id : Fin n) :
    finfo.setCrashed down (servers ++ [id]) =
      ((finfo.setCrashed down servers).1 || (finfo.setCrashed down servers).2.crashed id != down,
        { (finfo.setCrashed down servers).2 with
          crashed := Function.update (finfo.setCrashed down servers).2.crashed id down }) := by
  rw [FrameworkInfo.setCrashed, List.foldl_append]
  rfl

theorem setCrashed_spec (finfo : FrameworkInfo n) (down : Bool) (servers : List (Fin n)) :
    (finfo.setCrashed down servers).2.connected = finfo.connected ∧
      (∀ id, (finfo.setCrashed down servers).2.crashed id =
        if id ∈ servers then down else finfo.crashed id) ∧
      ((finfo.setCrashed down servers).1 = true ↔
        ∃ id ∈ servers, finfo.crashed id ≠ down) := by
  induction servers using List.reverseRecOn with
  | nil => simp [FrameworkInfo.setCrashed]
  | append_singleton servers id ih =>
    obtain ⟨hconnected, hcrashed, hchanged⟩ := ih
    rw [setCrashed_concat]
    refine ⟨hconnected, ?_, ?_⟩
    · intro id'
      by_cases hid : id' = id
      · simp [hid]
      · simp [hid, hcrashed]
    · dsimp only
      rw [Bool.or_eq_true, hchanged, hcrashed]
      by_cases hmem : id ∈ servers
      · -- the flag has been set already, and the change was seen then
        simpa [hmem] using fun hid => ⟨id, hmem, hid⟩
      · simp [hmem]

/-- A flag that changed was wrong before or is now. -/
theorem issues_annotateCrashed {c : FaultCall n} (hc : c ≠ .clearFailure) (down : Bool)
    (servers : List (Fin n)) :
    Issues finfo c (finfo.annotateCrashed down servers).1
      (finfo.annotateCrashed down servers).2 := by
  obtain ⟨hconnected, hcrashed, hchanged⟩ := setCrashed_spec finfo down servers
  unfold FrameworkInfo.annotateCrashed
  dsimp only
  split
  · rename_i htrue
    obtain ⟨id, hid, hne⟩ := hchanged.mp htrue
    refine Issues.annotateFault hc fun hafter hbefore => hne ?_
    rw [hbefore.2 id, ← hafter.2 id, hcrashed, if_pos hid]
  · rename_i hfalse
    refine Issues.nothing _ ?_ hc
    have hkept : (finfo.setCrashed down servers).2.crashed = finfo.crashed := by
      funext id
      rw [hcrashed]
      split
      · rename_i hid
        by_contra hne
        exact hfalse (hchanged.mpr ⟨id, hid, fun heq => hne heq.symm⟩)
      · rfl
    rw [FrameworkInfo.AllWell, hconnected, hkept, FrameworkInfo.AllWell]

theorem issues_issue (finfo : FrameworkInfo n) {c : FaultCall n} (hc : c.WellSized) :
    Issues finfo c (finfo.issue c).1 (finfo.issue c).2 := by
  cases c with
  | connection connection => exact issues_annotateConnection hc
  | twoPartitions p1 p2 => exact Issues.color finfo _ (by simp)
  | clearFailure =>
    exact Issues.ended _ ⟨fun _ => rfl, fun _ => rfl⟩ fun hne => absurd rfl hne
  | shutdown servers => exact issues_annotateCrashed (by simp) true servers
  | restart servers => exact issues_annotateCrashed (by simp) false servers
  | shutdownAll => exact issues_annotateCrashed (by simp) true (List.finRange n)
  | restartAll => exact issues_annotateCrashed (by simp) false (List.finRange n)

end Issue

section Runs

variable {calls : List (FaultEvent n)}

theorem after_concat (calls : List (FaultEvent n)) (c : FaultEvent n) :
    TestRun.after (calls ++ [c]) = (TestRun.after calls).perform c := by
  rw [TestRun.after, List.foldl_append]
  rfl

theorem exists_issues (s : TestRun n) {c : FaultEvent n} (hc : c.call.WellSized) :
    ∃ finfo' call, Issues s.finfo c.call finfo' call ∧
      s.perform c = ⟨finfo', s.events ++ (call.map fun call => ⟨c.time, call⟩).toList⟩ :=
  ⟨_, _, issues_issue s.finfo hc, rfl⟩

/-- While some server is not well, an annotation is on-going. -/
theorem onGoing_of_not_allWell (hsized : ∀ c ∈ calls, c.call.WellSized)
    (h : ¬ (TestRun.after calls).finfo.AllWell) :
    onGoing tagPartition (TestRun.after calls).events = true := by
  induction calls using List.reverseRecOn with
  | nil => exact absurd ⟨fun _ => rfl, fun _ => rfl⟩ h
  | append_singleton calls c ih =>
    obtain ⟨hbefore, hlast⟩ := List.forall_mem_append.mp hsized
    obtain ⟨finfo', call, hissues, hperform⟩ :=
      exists_issues (TestRun.after calls) (hlast c (List.mem_singleton_self c))
    rw [after_concat, hperform] at h ⊢
    cases hissues with
    | nothing hsame _ =>
      rw [Option.map_none, Option.toList_none, List.append_nil]
      exact ih hbefore (mt hsame.mpr h)
    | color text _ =>
      rw [Option.map_some, Option.toList_some, onGoing_concat]
      rfl
    | ended hwell _ => exact absurd hwell h

/-- AnnotateClearFailure is only called while an annotation is on-going. -/
def ClearsOnGoing (calls : List (FaultEvent n)) : Prop :=
  ∀ before c rest, calls = before ++ c :: rest → c.call = .clearFailure →
    onGoing tagPartition (TestRun.after before).events = true

theorem clearsOnGoing_concat_iff {c : FaultEvent n} :
    ClearsOnGoing (calls ++ [c]) ↔ ClearsOnGoing calls ∧
      (c.call = .clearFailure → onGoing tagPartition (TestRun.after calls).events = true) :=
  forall_split_concat

/-- The other calls never end what is not on-going. -/
theorem matched_after_iff (hsized : ∀ c ∈ calls, c.call.WellSized) :
    Matched tagPartition (TestRun.after calls).events ↔ ClearsOnGoing calls := by
  induction calls using List.reverseRecOn with
  | nil =>
    refine iff_of_true (matched_nil tagPartition) ?_
    intro before c rest h
    simp at h
  | append_singleton calls c ih =>
    obtain ⟨hbefore, hlast⟩ := List.forall_mem_append.mp hsized
    obtain ⟨finfo', call, hissues, hperform⟩ :=
      exists_issues (TestRun.after calls) (hlast c (List.mem_singleton_self c))
    rw [after_concat, hperform, clearsOnGoing_concat_iff, ← ih hbefore]
    cases hissues with
    | nothing _ hc => simp [hc]
    | color text hc =>
      rw [Option.map_some, Option.toList_some, matched_concat_iff]
      simp [hc]
    | ended _ hfault =>
      rw [Option.map_some, Option.toList_some, matched_concat_iff]
      by_cases hc : c.call = .clearFailure
      · simp [hc]
      · have hon := onGoing_of_not_allWell hbefore (hfault hc)
        simp [hon]

/-- AnnotateTest: the annotations after it. -/
def annotateTest (an : AnnotationState) (t : ℤ) (desp : String) (nservers : ℕ) : AnnotationState :=
  let details := desp ++ " (" ++ toString nservers ++ " servers)"
  an.clear.annotatePointColor t tagInfo details details colorInfo

theorem Fresh.annotateTest (an : AnnotationState) (t : ℤ) (desp : String) (nservers : ℕ) :
    Fresh (annotateTest an t desp nservers) tagPartition where
  notMem := Finmap.notMem_empty
  empty := by
    have htag : tagInfo ≠ tagPartition := by decide
    simp [Annotations.annotateTest, AnnotationState.annotatePointColor, AnnotationState.clear, htag]

/-- The faults of a test are shown as they were, unless AnnotateClearFailure is called
with no fault annotated. -/
theorem recorded_faults_iff (an : AnnotationState) (start stop : ℤ) (desp : String)
    (hsized : ∀ c ∈ calls, c.call.WellSized) {order : List String}
    (horder : Ranges ((annotateTest an start desp n).run
      (TestRun.after calls).events).continuous order) :
    ((annotateTest an start desp n).run (TestRun.after calls).events).recorded stop order
        tagPartition =
      timeline tagPartition (TestRun.after calls).events stop ↔ ClearsOnGoing calls := by
  rw [recorded_eq_outcome horder, outcome_eq_timeline_iff (Fresh.annotateTest an start desp n),
    matched_after_iff hsized]

end Runs

/-- Shut down and restart all servers. -/
def crashRound : List (FaultEvent 2) := [⟨1, .shutdownAll⟩, ⟨2, .restartAll⟩]

/-- The same and then clear, as the tests with crashes do. -/
def clearedRound : List (FaultEvent 2) := crashRound ++ [⟨3, .clearFailure⟩]

/-- The annotation is ended twice. -/
example : (TestRun.after clearedRound).events =
    [⟨1, .continuousColor tagPartition "partition =  / crash = [0 1]"
        "partition =  / crash = [0 1]" colorFault⟩,
      ⟨2, .continuousEnd tagPartition⟩, ⟨3, .continuousEnd tagPartition⟩] := by
  decide +kernel

/-- The annotations of a test with two servers. -/
def annotated (calls : List (FaultEvent 2)) : AnnotationState :=
  (annotateTest mkAnnotationState 0 "crash" 2).run (TestRun.after calls).events

/-- The round is shown as it was, the cleared round is not. -/
theorem recorded_faults_iff_rounds :
    (∃ order, Ranges (annotated crashRound).continuous order ∧
      (annotated crashRound).recorded 4 order tagPartition =
        timeline tagPartition (TestRun.after crashRound).events 4) ∧
    ∃ order, Ranges (annotated clearedRound).continuous order ∧
      (annotated clearedRound).recorded 4 order tagPartition ≠
        timeline tagPartition (TestRun.after clearedRound).events 4 := by
  have hsized : ∀ c ∈ clearedRound, c.call.WellSized := by
    simp [clearedRound, crashRound, FaultCall.WellSized]
  have hround : ∀ c ∈ crashRound, c.call.WellSized := fun c hc =>
    hsized c (List.mem_append_left _ hc)
  constructor
  · obtain ⟨order, horder⟩ := exists_ranges (annotated crashRound).continuous
    refine ⟨order, horder,
      (recorded_faults_iff mkAnnotationState 0 4 "crash" hround horder).mpr ?_⟩
    intro before c rest h hclear
    have hmem : c ∈ crashRound := by simp [h]
    have hnone : ∀ c ∈ crashRound, c.call ≠ .clearFailure := by simp [crashRound]
    exact absurd hclear (hnone c hmem)
  · obtain ⟨order, horder⟩ := exists_ranges (annotated clearedRound).continuous
    refine ⟨order, horder, fun heq => ?_⟩
    have hclears := (recorded_faults_iff mkAnnotationState 0 4 "crash" hsized horder).mp heq
    have hon := hclears crashRound _ [] rfl rfl
    revert hon
    decide +kernel

end DistributedLabs.Annotations
