import DistributedLabs.Files
import DistributedLabs.Grouping

/-!
The work of one MapReduce task: doMap, which partitions the output of mapf into
one JSON file for each reducer, and doReduce, which merges such files and writes
one record for each key. encoding/json is a parameter. Each range over a Go map
takes its order from an argument, and each system call may fail.
-/
namespace DistributedLabs.MRTask

open GoText Files Grouping

abbrev KeyValue := Entry GoString GoString

/-- intermediateFileContents, a `map[string][]string`. -/
abbrev Contents := Groups GoString GoString

/-- json.Marshal of such a map, and json.Unmarshal into an empty one. -/
structure Json where
  marshal : Contents → GoString
  unmarshal : GoString → Option Contents

def fnv32a (bytes : GoString) : UInt32 :=
  bytes.foldl (fun h b => (h ^^^ b.toUInt32) * 16777619) 2166136261

def ihash (key : GoString) : ℕ := (fnv32a key &&& 0x7fffffff).toNat

def generateUniqueIntermediateFilename (mapTid reduceTid : ℤ) (rand : Fin 16 → UInt8) :
    GoString :=
  ascii "mr-" ++ itoa mapTid ++ ascii "-" ++ itoa reduceTid ++ ascii "-" ++
    hexEncodeToString (List.ofFn rand)

/-- doMap's first loop: create the intermediate files, or stop at the first
failure. -/
def createFiles (mapTid : ℤ) (rand : ℕ → Fin 16 → UInt8) :
    List ℕ → Io → Option (List GoString) × Io
  | [], io => (some [], io)
  | reduceTid :: rest, io =>
    let fn := generateUniqueIntermediateFilename mapTid reduceTid (rand reduceTid)
    match io.create fn with
    | (false, io) => (none, io)
    | (true, io) =>
      match createFiles mapTid rand rest io with
      | (none, io) => (none, io)
      | (some names, io) => (some (fn :: names), io)

/-- sortedResults: the output of mapf, one map for each reducer. -/
def sortedResults (nReduce : ℕ) (mapResults : List KeyValue) : ℕ → Contents :=
  mapResults.foldl
    (fun sorted kv =>
      let reduceTid := ihash kv.key % nReduce
      Function.update sorted reduceTid (appendAt (sorted reduceTid) kv.key [kv.value]))
    fun _ => ∅

/-- doMap's last loop, over the reducers in the order of `range sortedResults`. -/
def writeFiles (json : Json) (names : List GoString) (sorted : ℕ → Contents) :
    List ℕ → Io → Bool × Io
  | [], io => (true, io)
  | reduceTid :: rest, io =>
    match io.write (names.getD reduceTid []) 0 (json.marshal (sorted reduceTid)) with
    | (_, false, io) => (false, io)
    | (_, true, io) => writeFiles json names sorted rest io

def doMap (json : Json) (mapf : GoString → GoString → List KeyValue)
    (inputFile inputContents : GoString) (mapTid : ℤ) (nReduce : ℕ)
    (rand : ℕ → Fin 16 → UInt8) (order : List ℕ) (io : Io) : Option (List GoString) × Io :=
  match createFiles mapTid rand (List.range nReduce) io with
  | (none, io) => (none, io)
  | (some names, io) =>
    let sorted := sortedResults nReduce (mapf inputFile inputContents)
    match writeFiles json names sorted order io with
    | (false, io) => (none, io)
    | (true, io) => (some names, io)

structure Record where
  key : GoString
  output : GoString
  deriving DecidableEq, Repr

/-- The verb "%v %v\n". -/
def Record.format (r : Record) : GoString := r.key ++ ascii " " ++ r.output ++ ascii "\n"

/-- doReduce's first loop; `i` counts the files done. -/
def mergeFiles (json : Json) (it : Iteration GoString GoString) :
    ℕ → List GoString → Contents → Option Contents
  | _, [], reductionMap => some reductionMap
  | i, fc :: rest, reductionMap =>
    match json.unmarshal fc with
    | none => none
    | some tmp => mergeFiles json it (i + 1) rest (merge reductionMap tmp (it.order i tmp))

/-- Records written one Fprintf at a time; its errors are not looked at. -/
def writeRecords (name : GoString) : List Record → ℕ → Io → Io
  | [], _, io => io
  | r :: rest, offset, io =>
    match io.write name offset r.format with
    | (n, _, io) => writeRecords name rest (offset + n) io

def reduceRecords (reducef : GoString → List GoString → GoString) (reductionMap : Contents)
    (order : List GoString) : List Record :=
  order.map fun k => ⟨k, reducef k ((reductionMap.lookup k).getD [])⟩

def outputName (reducerTid : ℤ) : GoString := ascii "mr-out-" ++ itoa reducerTid

/-- Whether doReduce returned nil, and the state after it. -/
def doReduce (json : Json) (it : Iteration GoString GoString)
    (reducef : GoString → List GoString → GoString) (fileContents : List GoString)
    (reducerTid : ℤ) (io : Io) : Bool × Io :=
  match mergeFiles json it 0 fileContents ∅ with
  | none => (false, io)
  | some reductionMap =>
    match io.create (outputName reducerTid) with
    | (false, io) => (false, io)
    | (true, io) =>
      let order := it.order fileContents.length reductionMap
      (true, writeRecords (outputName reducerTid)
        (reduceRecords reducef reductionMap order) 0 io)

end DistributedLabs.MRTask
