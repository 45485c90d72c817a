import DistributedLabs.JsonText
import DistributedLabs.MRSequential

/-!
Distributed and sequential MapReduce write the same records. Each reduce task
tabulates the pairs that hash to it; a key hashes to one reducer whatever map
task emitted it, so together the reduce tasks tabulate all pairs, and so does
mrsequential.
-/
namespace DistributedLabs.MREquivalence

open GoText Files Grouping MRTask MRSequential

def ValidUtf8 (s : GoString) : Prop := (ByteArray.mk s.toArray).IsValidUTF8

def ValidContents (m : Contents) : Prop :=
  ∀ k values, m.lookup k = some values → ValidUtf8 k ∧ ∀ v ∈ values, ValidUtf8 v

/-- Maps of valid UTF-8 strings survive json.Marshal and json.Unmarshal. -/
def RoundTrips (json : Json) : Prop :=
  ∀ m, ValidContents m → json.unmarshal (json.marshal m) = some m

/-- A run of map task `mapTid` that succeeded and left these contents in its
files, one for each reducer. -/
def Mapped (json : Json) (mapf : GoString → GoString → List KeyValue) (nReduce mapTid : ℕ)
    (file : GoString × GoString) (contents : List GoString) : Prop :=
  ∃ rand order io names io', order.Perm (List.range nReduce) ∧
    doMap json mapf file.1 file.2 mapTid nReduce rand order io = (some names, io') ∧
    names.map io'.files = contents.map some

/-- A run of reduce task `reducerTid` without I/O failure that left this output. -/
def Reduced (json : Json) (reducef : GoString → List GoString → GoString) (reducerTid : ℕ)
    (fileContents : List GoString) (out : GoString) : Prop :=
  ∃ it io io', io.Sound ∧ doReduce json it reducef fileContents reducerTid io = (true, io') ∧
    io'.files (outputName reducerTid) = some out

/-- All pairs, in map-task order. -/
def emitted (mapf : GoString → GoString → List KeyValue)
    (files : List (GoString × GoString)) : List KeyValue :=
  files.flatMap fun f => mapf f.1 f.2

theorem validContents_group {kvs : List KeyValue}
    (hvalid : ∀ kv ∈ kvs, ValidUtf8 kv.key ∧ ValidUtf8 kv.value) :
    ValidContents (group ∅ kvs) := by
  intro k values hlookup
  rw [grouped_group kvs k] at hlookup
  split at hlookup
  · cases hlookup
  · rename_i hne
    cases hlookup
    constructor
    · have hex := mt valuesOf_eq_nil.mpr hne
      push Not at hex
      obtain ⟨kv, hkv, rfl⟩ := hex
      exact (hvalid kv hkv).1
    · intro v hv
      obtain ⟨kv, hkv, rfl⟩ := List.mem_map.mp hv
      exact (hvalid kv (List.mem_filter.mp hkv).1).2

theorem Mapped.unmarshal {json : Json} (hjson : RoundTrips json)
    {mapf : GoString → GoString → List KeyValue} {nReduce mapTid : ℕ}
    {file : GoString × GoString} {contents : List GoString}
    (h : Mapped json mapf nReduce mapTid file contents)
    (hvalid : ∀ kv ∈ mapf file.1 file.2, ValidUtf8 kv.key ∧ ValidUtf8 kv.value)
    {r : ℕ} (hr : r < nReduce) :
    ∃ tmp, json.unmarshal (contents.getD r []) = some tmp ∧
      Grouped (partition nReduce r (mapf file.1 file.2)) tmp := by
  obtain ⟨rand, order, io, names, io', horder, hmap, hcontents⟩ := h
  obtain ⟨hlen, _, hfiles⟩ := doMap_eq_some horder hmap
  have hclen : contents.length = nReduce := by
    rw [← hlen]
    simpa using (congrArg List.length hcontents).symm
  have hfile : some (contents.getD r []) =
      some (json.marshal (group ∅ (partition nReduce r (mapf file.1 file.2)))) := by
    rw [← hfiles r hr]
    have hget := congrArg (fun l => l[r]?) hcontents
    simpa [List.getD_eq_getElem, hlen, hclen, hr] using hget.symm
  refine ⟨_, ?_, grouped_group _⟩
  rw [Option.some.inj hfile]
  apply hjson
  exact validContents_group fun kv hkv => hvalid kv (List.mem_filter.mp hkv).1

/-- A key's values are all in the partition it hashes to. -/
theorem valuesOf_partition (nReduce r : ℕ) (k : GoString) (kvs : List KeyValue)
    (hk : ihash k % nReduce = r) : valuesOf k (partition nReduce r kvs) = valuesOf k kvs := by
  rw [partition, valuesOf_filter k kvs fun k' => ihash k' % nReduce = r]
  simp [hk]

/-- Reducers that tabulate their partitions tabulate everything. -/
theorem tabulates_partitions {reducef : GoString → List GoString → GoString} {nReduce : ℕ}
    (hpos : 0 < nReduce) {kvs : List KeyValue} {records : ℕ → List Record}
    (h : ∀ r < nReduce, Tabulates reducef (partition nReduce r kvs) (records r)) :
    Tabulates reducef kvs ((List.range nReduce).flatMap records) := by
  have hhash : ∀ r < nReduce, ∀ rec ∈ records r, ihash rec.key % nReduce = r := by
    intro r hr rec hrec
    obtain ⟨kv, hkv, rfl⟩ := ((h r hr).mem_iff rec).mp hrec
    simpa using (List.mem_filter.mp hkv).2
  constructor
  · rw [List.map_flatMap, List.nodup_flatMap]
    constructor
    · intro r hr
      exact (h r (List.mem_range.mp hr)).nodup
    · refine List.nodup_range.imp_of_mem ?_
      intro r r' hr hr' hne k hk hk'
      obtain ⟨rec, hrec, rfl⟩ := List.mem_map.mp hk
      obtain ⟨rec', hrec', heq⟩ := List.mem_map.mp hk'
      apply hne
      rw [← hhash r (List.mem_range.mp hr) rec hrec,
        ← hhash r' (List.mem_range.mp hr') rec' hrec', heq]
  · intro rec
    simp only [List.mem_flatMap, List.mem_range]
    constructor
    · rintro ⟨r, hr, hrec⟩
      obtain ⟨kv, hkv, rfl⟩ := ((h r hr).mem_iff rec).mp hrec
      obtain ⟨hmem, hk⟩ := List.mem_filter.mp hkv
      exact ⟨kv, hmem, by rw [valuesOf_partition _ _ _ _ (by simpa using hk)]⟩
    · rintro ⟨kv, hkv, rfl⟩
      refine ⟨ihash kv.key % nReduce, Nat.mod_lt _ hpos, ?_⟩
      refine ((h _ (Nat.mod_lt _ hpos)).mem_iff _).mpr ⟨kv, ?_, ?_⟩
      · exact List.mem_filter.mpr ⟨hkv, by simp⟩
      · rw [valuesOf_partition _ _ _ _ rfl]

theorem partition_emitted (mapf : GoString → GoString → List KeyValue)
    (files : List (GoString × GoString)) (nReduce r : ℕ) :
    partition nReduce r (emitted mapf files) =
      (files.map fun f => partition nReduce r (mapf f.1 f.2)).flatten := by
  rw [partition, emitted, List.filter_flatMap, List.flatMap_def]
  rfl

/-- The contents that reduce task `r` reads, one for each map task. -/
def reduceInputs (files : List (GoString × GoString)) (contents : ℕ → List GoString) (r : ℕ) :
    List GoString :=
  (List.range files.length).map fun m => (contents m).getD r []

theorem reduceInputs_grouped {json : Json} (hjson : RoundTrips json)
    {mapf : GoString → GoString → List KeyValue} {files : List (GoString × GoString)}
    (hvalid : ∀ kv ∈ emitted mapf files, ValidUtf8 kv.key ∧ ValidUtf8 kv.value)
    {nReduce : ℕ} {contents : ℕ → List GoString}
    (hmap : ∀ (m : ℕ) (hm : m < files.length),
      Mapped json mapf nReduce m files[m] (contents m)) {r : ℕ} (hr : r < nReduce) :
    List.Forall₂ (fun fc part => ∃ tmp, json.unmarshal fc = some tmp ∧ Grouped part tmp)
      (reduceInputs files contents r)
      (files.map fun f => partition nReduce r (mapf f.1 f.2)) := by
  rw [List.forall₂_iff_get]
  refine ⟨by simp [reduceInputs], ?_⟩
  intro m h₁ h₂
  have hm : m < files.length := by simpa [reduceInputs] using h₁
  have hkv : ∀ kv ∈ mapf files[m].1 files[m].2, ValidUtf8 kv.key ∧ ValidUtf8 kv.value := by
    intro kv hkv
    exact hvalid kv (List.mem_flatMap.mpr ⟨files[m], List.getElem_mem hm, hkv⟩)
  simpa [reduceInputs] using (hmap m hm).unmarshal hjson hkv hr

/-- A reduce task over the map tasks' files, without I/O failure, succeeds and
tabulates its partition. -/
theorem doReduce_tabulates {json : Json} (hjson : RoundTrips json)
    {mapf : GoString → GoString → List KeyValue}
    (reducef : GoString → List GoString → GoString) {files : List (GoString × GoString)}
    (hvalid : ∀ kv ∈ emitted mapf files, ValidUtf8 kv.key ∧ ValidUtf8 kv.value)
    {nReduce : ℕ} {contents : ℕ → List GoString}
    (hmap : ∀ (m : ℕ) (hm : m < files.length),
      Mapped json mapf nReduce m files[m] (contents m)) {r : ℕ} (hr : r < nReduce)
    (it : Iteration GoString GoString) {io : Io} (hsound : io.Sound) :
    ∃ records io', doReduce json it reducef (reduceInputs files contents r) r io = (true, io') ∧
      io'.files (outputName r) = some (records.flatMap Record.format) ∧
      Tabulates reducef (partition nReduce r (emitted mapf files)) records := by
  obtain ⟨m, hmerge, hgrouped⟩ := mergeFiles_grouped it (i := 0)
    (reduceInputs_grouped hjson hvalid hmap hr) (grouped_group [])
  rw [List.nil_append, ← partition_emitted] at hgrouped
  obtain ⟨io', hdone, hwritten⟩ := doReduce_of_sound reducef r hsound hmerge
  exact ⟨_, io', hdone, hwritten, Tabulates.reduceRecords hgrouped (it.ranges _ m)⟩

/-- A key of some pair has one record, and in one reducer's output only. -/
theorem Tabulates.record_unique {reducef : GoString → List GoString → GoString} {nReduce : ℕ}
    (hpos : 0 < nReduce) {kvs : List KeyValue} {records : ℕ → List Record}
    (h : ∀ r < nReduce, Tabulates reducef (partition nReduce r kvs) (records r))
    {kv : KeyValue} (hkv : kv ∈ kvs) :
    ∃ r < nReduce, (records r).filter (fun rec => rec.key = kv.key) =
        [⟨kv.key, reducef kv.key (valuesOf kv.key kvs)⟩] ∧
      ∀ r' < nReduce, r' ≠ r → ∀ rec ∈ records r', rec.key ≠ kv.key := by
  refine ⟨ihash kv.key % nReduce, Nat.mod_lt _ hpos, ?_, ?_⟩
  · have htab := h _ (Nat.mod_lt (ihash kv.key) hpos)
    have hmem : (⟨kv.key, reducef kv.key (valuesOf kv.key kvs)⟩ : Record) ∈
        records (ihash kv.key % nReduce) := by
      refine (htab.mem_iff _).mpr ⟨kv, List.mem_filter.mpr ⟨hkv, by simp⟩, ?_⟩
      rw [valuesOf_partition _ _ _ _ rfl]
    -- a list with distinct keys has at most one record of the key
    obtain ⟨pre, suf, hsplit⟩ := List.append_of_mem hmem
    have hnodup := htab.nodup
    rw [hsplit, List.map_append, List.map_cons, List.nodup_append, List.nodup_cons] at hnodup
    rw [hsplit, List.filter_append, List.filter_cons_of_pos (by simp)]
    have hpre : pre.filter (fun rec => rec.key = kv.key) = [] := by
      simp only [List.filter_eq_nil_iff, decide_eq_true_eq]
      intro rec hrec heq
      exact hnodup.2.2 _ (List.mem_map_of_mem hrec) _ (List.mem_cons_self ..) heq
    have hsuf : suf.filter (fun rec => rec.key = kv.key) = [] := by
      simp only [List.filter_eq_nil_iff, decide_eq_true_eq]
      intro rec hrec heq
      exact hnodup.2.1.1 (List.mem_map.mpr ⟨rec, hrec, heq⟩)
    rw [hpre, hsuf, List.nil_append]
  · intro r' hr' hne rec hrec heq
    obtain ⟨kv', hkv', rfl⟩ := ((h r' hr').mem_iff rec).mp hrec
    have hhash : ihash kv'.key % nReduce = r' := by
      simpa using (List.mem_filter.mp hkv').2
    exact hne (by rw [← hhash, ← heq])

theorem tabulates_sorted {reducef : GoString → List GoString → GoString}
    (hreduce : ∀ k vs vs', vs.Perm vs' → reducef k vs = reducef k vs') (bykey : KeySort)
    (kvs : List KeyValue) : Tabulates reducef kvs (scan reducef (bykey.sort kvs)) :=
  (tabulates_scan _ _ le_rfl (bykey.sorted kvs)).of_perm hreduce (bykey.perm kvs)

/-- Distributed MapReduce writes the records that mrsequential writes: without I/O
failure each doReduce over the map tasks' files returns nil, and so does mrsequential. -/
theorem distributed_eq_sequential {json : Json} (hjson : RoundTrips json)
    {mapf : GoString → GoString → List KeyValue}
    {reducef : GoString → List GoString → GoString}
    (hreduce : ∀ k vs vs', vs.Perm vs' → reducef k vs = reducef k vs')
    {files : List (GoString × GoString)}
    (hvalid : ∀ kv ∈ emitted mapf files, ValidUtf8 kv.key ∧ ValidUtf8 kv.value)
    {nReduce : ℕ} (hpos : 0 < nReduce) {contents : ℕ → List GoString}
    (hmap : ∀ (m : ℕ) (hm : m < files.length),
      Mapped json mapf nReduce m files[m] (contents m))
    (it : ℕ → Iteration GoString GoString) (ios : ℕ → Io) (hred : ∀ r < nReduce, (ios r).Sound)
    (bykey : KeySort) {io : Io} (hsound : io.Sound)
    (hfiles : ∀ f ∈ files, io.files f.1 = some f.2) :
    ∃ (records : ℕ → List Record) (ios' : ℕ → Io) (io' : Io),
      (∀ r < nReduce,
        doReduce json (it r) reducef (reduceInputs files contents r) r (ios r) =
          (true, ios' r) ∧
        (ios' r).files (outputName r) = some ((records r).flatMap Record.format)) ∧
      mrsequential mapf reducef bykey (files.map Prod.fst) io = some io' ∧
      io'.files (ascii "mr-out-0") =
        some ((scan reducef (bykey.sort (emitted mapf files))).flatMap Record.format) ∧
      ((List.range nReduce).flatMap records).Perm
        (scan reducef (bykey.sort (emitted mapf files))) ∧
      ∀ kv ∈ emitted mapf files,
        ∃ r < nReduce, (records r).filter (fun rec => rec.key = kv.key) =
            [⟨kv.key, reducef kv.key (valuesOf kv.key (emitted mapf files))⟩] ∧
          ∀ r' < nReduce, r' ≠ r → ∀ rec ∈ records r', rec.key ≠ kv.key := by
  have hrun : ∀ r, ∃ records io', r < nReduce →
      doReduce json (it r) reducef (reduceInputs files contents r) r (ios r) = (true, io') ∧
      io'.files (outputName r) = some (records.flatMap Record.format) ∧
      Tabulates reducef (partition nReduce r (emitted mapf files)) records := by
    intro r
    by_cases hr : r < nReduce
    · obtain ⟨records, io', h⟩ := doReduce_tabulates hjson reducef hvalid hmap hr
        (it r) (hred r hr)
      exact ⟨records, io', fun _ => h⟩
    · exact ⟨[], ios r, fun h => absurd h hr⟩
  choose records ios' hrun using hrun
  have htab : ∀ r < nReduce,
      Tabulates reducef (partition nReduce r (emitted mapf files)) (records r) :=
    fun r hr => (hrun r hr).2.2
  obtain ⟨io', hseq, hout⟩ := mrsequential_of_sound reducef bykey hsound hfiles
  refine ⟨records, ios', io', ?_, hseq, hout, ?_, ?_⟩
  · intro r hr
    exact ⟨(hrun r hr).1, (hrun r hr).2.1⟩
  · exact (tabulates_partitions hpos htab).perm (tabulates_sorted hreduce bykey _)
  · intro kv hkv
    exact Tabulates.record_unique hpos htab hkv

section WordCount

/-- encoding/json as far as printable ASCII goes. -/
def jsonText : Json where
  marshal := JsonText.marshal
  unmarshal := JsonText.unmarshal

theorem roundTrips_jsonText : RoundTrips jsonText :=
  fun m _ => JsonText.unmarshal_marshal m

def sortedIteration : Iteration GoString GoString where
  order _ m := JsonText.sortedKeys m
  ranges _ m := JsonText.ranges_sortedKeys m

def KeyLe (a b : KeyValue) : Prop := a.key ≤ b.key

instance : DecidableRel KeyLe := fun a b => inferInstanceAs (Decidable (a.key ≤ b.key))

instance : IsTrans KeyValue KeyLe := ⟨fun _ _ _ => List.le_trans⟩

instance : Std.Total KeyLe := ⟨fun a b => List.le_total a.key b.key⟩

def insertionSortByKey : KeySort where
  sort kva := kva.insertionSort KeyLe
  perm kva := List.perm_insertionSort KeyLe kva
  sorted kva := List.pairwise_insertionSort KeyLe kva

/-- Each byte of the contents is a word, counted once. -/
def countMap (_ contents : GoString) : List KeyValue :=
  contents.map fun b => ⟨[b], ascii "1"⟩

def countReduce (_ : GoString) (values : List GoString) : GoString := digits values.length

theorem countReduce_perm (k : GoString) (vs vs' : List GoString) (h : vs.Perm vs') :
    countReduce k vs = countReduce k vs' := by
  rw [countReduce, countReduce, h.length_eq]

def twoFiles : List (GoString × GoString) :=
  [(ascii "x.txt", ascii "aba"), (ascii "y.txt", ascii "bc")]

/-- The disk that holds just the two files. -/
def twoFilesIo : Io where
  files name := (twoFiles.find? fun f => f.1 = name).map Prod.snd
  faults _ := none
  calls := 0

theorem twoFilesIo_sound : twoFilesIo.Sound := fun _ => rfl

theorem twoFiles_valid : ∀ kv ∈ emitted countMap twoFiles,
    ValidUtf8 kv.key ∧ ValidUtf8 kv.value := by
  unfold ValidUtf8
  decide

/-- What the map tasks leave: the keys a and c hash to reducer 0, b to reducer 1. -/
def twoFilesContents : ℕ → List GoString
  | 0 => [ascii "\x7b\"a\":[\"1\",\"1\"]\x7d", ascii "\x7b\"b\":[\"1\"]\x7d"]
  | _ => [ascii "\x7b\"c\":[\"1\"]\x7d", ascii "\x7b\"b\":[\"1\"]\x7d"]

/-- The map tasks, which write the second reducer's file first. -/
def twoFilesMap (m : ℕ) (file : GoString × GoString) : Option (List GoString) × Io :=
  doMap jsonText countMap file.1 file.2 m 2 (fun _ _ => 0) [1, 0] twoFilesIo

def twoFilesReduce (r : ℕ) : Bool × Io :=
  doReduce jsonText sortedIteration countReduce (reduceInputs twoFiles twoFilesContents r) r
    twoFilesIo

set_option maxRecDepth 4000 in
theorem twoFiles_mapped (m : ℕ) (hm : m < twoFiles.length) :
    Mapped jsonText countMap 2 m twoFiles[m] (twoFilesContents m) := by
  have hrun : ∀ m : Fin 2, (twoFilesMap m twoFiles[m]).1.map
      (List.map (twoFilesMap m twoFiles[m]).2.files) =
        some ((twoFilesContents m).map some) := by decide +kernel
  obtain ⟨names, hnames, hcontents⟩ := Option.map_eq_some_iff.mp (hrun ⟨m, hm⟩)
  exact ⟨_, [1, 0], twoFilesIo, names, _, by decide, Prod.ext hnames rfl, hcontents⟩

set_option maxRecDepth 4000 in
/-- The words a, b, a and b, c, counted by two map and two reduce tasks and by
mrsequential. -/
theorem distributed_eq_sequential_twoFiles :
    (∀ (m : ℕ) (hm : m < twoFiles.length),
      Mapped jsonText countMap 2 m twoFiles[m] (twoFilesContents m)) ∧
    (twoFilesReduce 0).2.files (outputName 0) = some (ascii "a 2\nc 1\n") ∧
    (twoFilesReduce 1).2.files (outputName 1) = some (ascii "b 2\n") ∧
    ∃ (records : ℕ → List Record) (ios' : ℕ → Io) (io' : Io),
      (∀ r < 2, twoFilesReduce r = (true, ios' r) ∧
        (ios' r).files (outputName r) = some ((records r).flatMap Record.format)) ∧
      mrsequential countMap countReduce insertionSortByKey [ascii "x.txt", ascii "y.txt"]
        twoFilesIo = some io' ∧
      io'.files (ascii "mr-out-0") = some (ascii "a 2\nb 2\nc 1\n") ∧
      (records 0 ++ records 1).Perm
        [⟨ascii "a", ascii "2"⟩, ⟨ascii "b", ascii "2"⟩, ⟨ascii "c", ascii "1"⟩] := by
  have hscan : scan countReduce (insertionSortByKey.sort (emitted countMap twoFiles)) =
      [⟨ascii "a", ascii "2"⟩, ⟨ascii "b", ascii "2"⟩, ⟨ascii "c", ascii "1"⟩] := by
    decide +kernel
  refine ⟨twoFiles_mapped, by decide +kernel, by decide +kernel, ?_⟩
  obtain ⟨records, ios', io', hred, hseq, hout, hperm, _⟩ :=
    distributed_eq_sequential roundTrips_jsonText countReduce_perm twoFiles_valid (by decide)
      twoFiles_mapped (fun _ => sortedIteration) (fun _ => twoFilesIo)
      (fun _ _ => twoFilesIo_sound) insertionSortByKey twoFilesIo_sound (by decide)
  rw [hscan] at hout hperm
  refine ⟨records, ios', io', hred, hseq, ?_, ?_⟩
  · rw [hout]
    decide
  · have hrange : List.range 2 = [0, 1] := rfl
    simpa [hrange] using hperm

end WordCount

end DistributedLabs.MREquivalence
