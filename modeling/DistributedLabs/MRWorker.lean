import DistributedLabs.Coordinator
import DistributedLabs.MRTaskSpec

/-!
A worker process, one file operation at a time: the loop of Worker with doMap and
doReduce unrolled, so that other workers and a crash may come between any two
operations. The random name of a new intermediate file is taken to be fresh. A
map attempt may fail at any call and is then given up.
-/
namespace DistributedLabs.MRWorker

open GoText Files Grouping MRTask Coordinator

structure Program where
  json : Json
  mapf : GoString → GoString → List KeyValue
  reducef : GoString → List GoString → GoString

/-- An execution of doMap, with the names of the files created so far. -/
structure MapAttempt where
  tid : ℤ
  file : GoString
  nReduce : ℕ
  input : GoString
  names : List GoString
  deriving DecidableEq, Repr

namespace MapAttempt

def nextName (a : MapAttempt) (rand : Fin 16 → UInt8) : GoString :=
  generateUniqueIntermediateFilename a.tid a.names.length rand

def addName (a : MapAttempt) (rand : Fin 16 → UInt8) : MapAttempt :=
  { a with names := a.names ++ [a.nextName rand] }

def name (a : MapAttempt) (r : ℕ) : GoString := a.names.getD r []

/-- Partition `r` of the output of mapf, as JSON. -/
def content (P : Program) (a : MapAttempt) (r : ℕ) : GoString :=
  P.json.marshal (sortedResults a.nReduce (P.mapf a.file a.input) r)

/-- The loop over intermediateFiles that makes convIntermediateFiles. -/
def intermediateFiles (a : MapAttempt) : List IntermediateFile :=
  a.names.zipIdx.map fun p => ⟨p.2, p.1⟩

def completion (a : MapAttempt) : CompleteTaskArgs := ⟨.map, a.tid, a.intermediateFiles, []⟩

end MapAttempt

def reduceCompletion (tid : ℤ) : CompleteTaskArgs := ⟨.reduce, tid, [], []⟩

/-- Where a worker stands in its loop. -/
inductive Worker
  | idle
  | waiting
  | mapRead (tid : ℤ) (file : GoString) (nReduce : ℕ)
  | mapCreate (a : MapAttempt)
  | mapWrite (a : MapAttempt) (rest : List ℕ)
  | reduceRead (tid : ℤ) (rest contents : List GoString)
  | reduceWrite (tid : ℤ) (rest : List Record) (offset : ℕ)
  | completing
  | exited
  deriving DecidableEq, Repr

/-- The switch on the type of a reply; other types go round the loop again. -/
def Worker.receive (reply : ReqTaskReply) : Worker :=
  match reply.type with
  | .map => .mapRead reply.tid reply.file reply.nReduce
  | .reduce => .reduceRead reply.tid reply.files []
  | .sleep => .idle
  | .other _ => .idle

inductive Action
  | read
  | create (rand : Fin 16 → UInt8)
  | compute (order : List ℕ)
  | write
  | writeFails (n : ℕ)
  | fail
  | reduceCreate (it : Iteration GoString GoString)
  | returned
  | crash

/-- One operation of a worker on the disk. -/
def act (P : Program) (disk : Disk) (worker : Worker) : Action → Option (Worker × Disk)
  | .read =>
    match worker with
    | .mapRead tid file nReduce =>
      match disk file with
      | some input => some (.mapCreate ⟨tid, file, nReduce, input, []⟩, disk)
      | none => some (.idle, disk)
    | .reduceRead tid (file :: rest) contents =>
      match disk file with
      | some content => some (.reduceRead tid rest (contents ++ [content]), disk)
      | none => some (.reduceRead tid rest contents, disk)
    | _ => none
  | .create rand =>
    match worker with
    | .mapCreate a =>
      if a.names.length < a.nReduce ∧ disk (a.nextName rand) = none then
        some (.mapCreate (a.addName rand), Files.create disk (a.nextName rand))
      else none
    | _ => none
  | .compute order =>
    match worker with
    | .mapCreate a =>
      if a.names.length = a.nReduce ∧ order.Perm (List.range a.nReduce) then
        some (.mapWrite a order, disk)
      else none
    | _ => none
  | .write =>
    match worker with
    | .mapWrite a (r :: rest) =>
      some (.mapWrite a rest, Files.write disk (a.name r) 0 (a.content P r))
    | .reduceWrite tid (record :: rest) offset =>
      some (.reduceWrite tid rest (offset + record.format.length),
        Files.write disk (outputName tid) offset record.format)
    | _ => none
  | .writeFails n =>
    match worker with
    | .mapWrite a (r :: _) =>
      some (.idle, Files.write disk (a.name r) 0 ((a.content P r).take n))
    | _ => none
  | .fail =>
    match worker with
    | .mapRead _ _ _ => some (.idle, disk)
    | .mapCreate _ => some (.idle, disk)
    | _ => none
  | .reduceCreate it =>
    match worker with
    | .reduceRead tid [] contents =>
      match mergeFiles P.json it 0 contents ∅ with
      | some reductionMap =>
        some (.reduceWrite tid (reduceRecords P.reducef reductionMap
          (it.order contents.length reductionMap)) 0, Files.create disk (outputName tid))
      | none => some (.idle, disk)
    | _ => none
  | .returned =>
    match worker with
    | .completing => some (.idle, disk)
    | _ => none
  | .crash => some (.exited, disk)

/-- The file that an operation creates or writes. -/
def target (worker : Worker) : Action → Option GoString
  | .create rand =>
    match worker with
    | .mapCreate a => some (a.nextName rand)
    | _ => none
  | .write =>
    match worker with
    | .mapWrite a (r :: _) => some (a.name r)
    | .reduceWrite tid (_ :: _) _ => some (outputName tid)
    | _ => none
  | .writeFails _ =>
    match worker with
    | .mapWrite a (r :: _) => some (a.name r)
    | _ => none
  | .reduceCreate _ =>
    match worker with
    | .reduceRead tid [] _ => some (outputName tid)
    | _ => none
  | .read => none
  | .compute _ => none
  | .fail => none
  | .returned => none
  | .crash => none

inductive Act (P : Program) (disk : Disk) : Worker → Action → Worker → Disk → Prop
  | mapRead (tid : ℤ) (file : GoString) (nReduce : ℕ) (input : GoString)
      (hfile : disk file = some input) :
      Act P disk (.mapRead tid file nReduce) .read
        (.mapCreate ⟨tid, file, nReduce, input, []⟩) disk
  | mapNoFile (tid : ℤ) (file : GoString) (nReduce : ℕ) :
      Act P disk (.mapRead tid file nReduce) .read .idle disk
  | create (a : MapAttempt) (rand : Fin 16 → UInt8) (hlt : a.names.length < a.nReduce)
      (hfresh : disk (a.nextName rand) = none) :
      Act P disk (.mapCreate a) (.create rand) (.mapCreate (a.addName rand))
        (Files.create disk (a.nextName rand))
  | compute (a : MapAttempt) (order : List ℕ) (hlen : a.names.length = a.nReduce)
      (hperm : order.Perm (List.range a.nReduce)) :
      Act P disk (.mapCreate a) (.compute order) (.mapWrite a order) disk
  | mapWrite (a : MapAttempt) (r : ℕ) (rest : List ℕ) :
      Act P disk (.mapWrite a (r :: rest)) .write (.mapWrite a rest)
        (Files.write disk (a.name r) 0 (a.content P r))
  | writeFails (a : MapAttempt) (r : ℕ) (rest : List ℕ) (n : ℕ) :
      Act P disk (.mapWrite a (r :: rest)) (.writeFails n) .idle
        (Files.write disk (a.name r) 0 ((a.content P r).take n))
  | mapReadFails (tid : ℤ) (file : GoString) (nReduce : ℕ) :
      Act P disk (.mapRead tid file nReduce) .fail .idle disk
  | createFails (a : MapAttempt) : Act P disk (.mapCreate a) .fail .idle disk
  | reduceRead (tid : ℤ) (file : GoString) (rest contents : List GoString)
      (content : GoString) (hfile : disk file = some content) :
      Act P disk (.reduceRead tid (file :: rest) contents) .read
        (.reduceRead tid rest (contents ++ [content])) disk
  | reduceNoFile (tid : ℤ) (file : GoString) (rest contents : List GoString)
      (hfile : disk file = none) :
      Act P disk (.reduceRead tid (file :: rest) contents) .read
        (.reduceRead tid rest contents) disk
  | reduceCreate (tid : ℤ) (contents : List GoString) (it : Iteration GoString GoString)
      (reductionMap : Contents)
      (hmerge : mergeFiles P.json it 0 contents ∅ = some reductionMap) :
      Act P disk (.reduceRead tid [] contents) (.reduceCreate it)
        (.reduceWrite tid (reduceRecords P.reducef reductionMap
          (it.order contents.length reductionMap)) 0) (Files.create disk (outputName tid))
  | reduceBadFile (tid : ℤ) (contents : List GoString) (it : Iteration GoString GoString) :
      Act P disk (.reduceRead tid [] contents) (.reduceCreate it) .idle disk
  | reduceWrite (tid : ℤ) (record : Record) (rest : List Record) (offset : ℕ) :
      Act P disk (.reduceWrite tid (record :: rest) offset) .write
        (.reduceWrite tid rest (offset + record.format.length))
        (Files.write disk (outputName tid) offset record.format)
  | returned : Act P disk .completing .returned .idle disk
  | crash (worker : Worker) : Act P disk worker .crash .exited disk

theorem act_sound {P : Program} {disk disk' : Disk} {worker worker' : Worker} {a : Action}
    (h : act P disk worker a = some (worker', disk')) : Act P disk worker a worker' disk' := by
  cases a with
  | read =>
    simp only [act] at h
    split at h
    · split at h
      · cases h
        exact .mapRead _ _ _ _ ‹_›
      · cases h
        exact .mapNoFile _ _ _
    · split at h
      · cases h
        exact .reduceRead _ _ _ _ _ ‹_›
      · cases h
        exact .reduceNoFile _ _ _ _ ‹_›
    · cases h
  | create rand =>
    simp only [act] at h
    split at h
    · split at h
      · rename_i hg
        cases h
        exact .create _ rand hg.1 hg.2
      · cases h
    · cases h
  | compute order =>
    simp only [act] at h
    split at h
    · split at h
      · rename_i hg
        cases h
        exact .compute _ order hg.1 hg.2
      · cases h
    · cases h
  | write =>
    simp only [act] at h
    split at h
    · cases h
      exact .mapWrite _ _ _
    · cases h
      exact .reduceWrite _ _ _ _
    · cases h
  | writeFails n =>
    simp only [act] at h
    split at h
    · cases h
      exact .writeFails _ _ _ n
    · cases h
  | fail =>
    simp only [act] at h
    split at h
    · cases h
      exact .mapReadFails _ _ _
    · cases h
      exact .createFails _
    · cases h
  | reduceCreate it =>
    simp only [act] at h
    split at h
    · split at h
      · cases h
        exact .reduceCreate _ _ it _ ‹_›
      · cases h
        exact .reduceBadFile _ _ it
    · cases h
  | returned =>
    simp only [act] at h
    split at h
    · cases h
      exact .returned
    · cases h
  | crash =>
    cases h
    exact .crash worker

/-- An operation leaves every other file alone. -/
theorem Act.frame {P : Program} {disk disk' : Disk} {worker worker' : Worker} {a : Action}
    (h : Act P disk worker a worker' disk') {name : GoString}
    (hname : target worker a ≠ some name) : disk' name = disk name := by
  have hne : ∀ {n : GoString}, target worker a = some n → name ≠ n := by
    intro n hn heq
    exact hname (heq ▸ hn)
  cases h with
  | create a rand => exact create_of_ne disk (hne rfl)
  | mapWrite a r rest => exact write_of_ne disk (hne rfl) 0 _
  | writeFails a r rest n => exact write_of_ne disk (hne rfl) 0 _
  | reduceCreate tid contents it m => exact create_of_ne disk (hne rfl)
  | reduceWrite tid record rest offset => exact write_of_ne disk (hne rfl) offset _
  | _ => rfl

end DistributedLabs.MRWorker
