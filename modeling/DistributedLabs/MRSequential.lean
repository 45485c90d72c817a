import DistributedLabs.MRTaskSpec

/-!
main/mrsequential.go, the sequential MapReduce that the tests compare with. It
sorts all pairs by key and scans runs of equal keys. `Tabulates` is what its
records and those of a reduce task have in common: one record for each key, over
all values of the key.
-/
namespace DistributedLabs.MRSequential

open GoText Files Grouping MRTask

/-- sort.Sort by key: some reordering without a descent; it need not be stable. -/
structure KeySort where
  sort : List KeyValue → List KeyValue
  perm : ∀ kva, (sort kva).Perm kva
  sorted : ∀ kva, (sort kva).Pairwise fun a b => ¬ b.key < a.key

section Scan

variable (reducef : GoString → List GoString → GoString)

/-- The inner loops over one run of equal keys, of which `values` are done. -/
def scanRun (key : GoString) (values : List GoString) : List KeyValue → List Record
  | [] => [⟨key, reducef key values⟩]
  | kv :: rest =>
    if kv.key = key then scanRun key (values ++ [kv.value]) rest
    else ⟨key, reducef key values⟩ :: scanRun kv.key [kv.value] rest

def scan : List KeyValue → List Record
  | [] => []
  | kv :: rest => scanRun reducef kv.key [kv.value] rest

end Scan

/-- The loop that reads the input files; a failure is fatal. -/
def readInputs (mapf : GoString → GoString → List KeyValue) :
    List GoString → Io → Option (List KeyValue × Io)
  | [], io => some ([], io)
  | filename :: rest, io =>
    match io.readFile filename with
    | (none, _) => none
    | (some content, io) =>
      (readInputs mapf rest io).map fun (kva, io) => (mapf filename content ++ kva, io)

/-- Writes to the nil file that a failed os.Create returns do nothing. -/
def mrsequential (mapf : GoString → GoString → List KeyValue)
    (reducef : GoString → List GoString → GoString) (bykey : KeySort)
    (filenames : List GoString) (io : Io) : Option Io :=
  match readInputs mapf filenames io with
  | none => none
  | some (intermediate, io) =>
    match io.create (ascii "mr-out-0") with
    | (false, io) => some io
    | (true, io) =>
      some (writeRecords (ascii "mr-out-0") (scan reducef (bykey.sort intermediate)) 0 io)

/-- One record for each key of the pairs, over all values of the key. -/
structure Tabulates (reducef : GoString → List GoString → GoString) (kvs : List KeyValue)
    (records : List Record) : Prop where
  nodup : (records.map Record.key).Nodup
  mem_iff : ∀ r, r ∈ records ↔
    ∃ kv ∈ kvs, r = ⟨kv.key, reducef kv.key (valuesOf kv.key kvs)⟩

namespace Tabulates

variable {reducef : GoString → List GoString → GoString}

theorem perm {kvs : List KeyValue} {records records' : List Record}
    (h : Tabulates reducef kvs records) (h' : Tabulates reducef kvs records') :
    records.Perm records' := by
  refine (List.perm_ext_iff_of_nodup h.nodup.of_map h'.nodup.of_map).mpr ?_
  intro r
  rw [h.mem_iff, h'.mem_iff]

/-- The order of the pairs does not matter if that of the values does not. -/
theorem of_perm (hreduce : ∀ k vs vs', vs.Perm vs' → reducef k vs = reducef k vs')
    {kvs kvs' : List KeyValue} (hperm : kvs.Perm kvs') {records : List Record}
    (h : Tabulates reducef kvs records) : Tabulates reducef kvs' records where
  nodup := h.nodup
  mem_iff r := by
    rw [h.mem_iff]
    constructor
    · rintro ⟨kv, hkv, rfl⟩
      exact ⟨kv, hperm.mem_iff.mp hkv, by rw [hreduce _ _ _ (valuesOf_perm hperm kv.key)]⟩
    · rintro ⟨kv, hkv, rfl⟩
      exact ⟨kv, hperm.mem_iff.mpr hkv, by rw [hreduce _ _ _ (valuesOf_perm hperm kv.key)]⟩

/-- The records of the groups, in any order of the keys. -/
theorem reduceRecords {kvs : List KeyValue} {m : Contents} (hm : Grouped kvs m)
    {order : List GoString} (hr : Ranges m order) :
    Tabulates reducef kvs (reduceRecords reducef m order) where
  nodup := by
    have hkeys : (MRTask.reduceRecords reducef m order).map Record.key = order := by
      rw [MRTask.reduceRecords, List.map_map]
      exact List.map_id order
    rw [hkeys]
    exact hr.nodup
  mem_iff r := by
    simp only [MRTask.reduceRecords, List.mem_map, hr.mem_iff, hm.mem_iff, hm.lookup_getD]
    constructor
    · rintro ⟨_, ⟨kv, hkv, rfl⟩, rfl⟩
      exact ⟨kv, hkv, rfl⟩
    · rintro ⟨kv, hkv, rfl⟩
      exact ⟨_, ⟨kv, hkv, rfl⟩, rfl⟩

end Tabulates

section Scan

variable {reducef : GoString → List GoString → GoString}

/-- On sorted pairs the run of a least key takes in all of its values. -/
theorem scanRun_eq {key : GoString} {values : List GoString} {kvs : List KeyValue}
    (hsorted : kvs.Pairwise fun a b => ¬ b.key < a.key) (hleast : ∀ kv ∈ kvs, ¬ kv.key < key) :
    scanRun reducef key values kvs =
      ⟨key, reducef key (values ++ valuesOf key kvs)⟩ ::
        scan reducef (kvs.filter fun kv => kv.key ≠ key) := by
  induction kvs generalizing values with
  | nil => simp [scanRun, scan, valuesOf]
  | cons kv kvs ih =>
    obtain ⟨hhead, htail⟩ := List.pairwise_cons.mp hsorted
    by_cases hk : kv.key = key
    · rw [scanRun, if_pos hk, ih htail fun kv' h => hleast kv' (List.mem_cons_of_mem _ h)]
      simp [valuesOf_cons, hk]
    · -- no later key is the current one again
      have hnone : ∀ kv' ∈ kv :: kvs, kv'.key ≠ key := by
        intro kv' hkv' heq
        rcases List.mem_cons.mp hkv' with rfl | hmem
        · exact hk heq
        · have h1 := hhead kv' hmem
          have h2 := hleast kv (List.mem_cons_self ..)
          rw [heq] at h1
          exact hk (List.le_antisymm h1 h2)
      have hvalues : valuesOf key (kv :: kvs) = [] := valuesOf_eq_nil.mpr hnone
      have hfilter : (kv :: kvs).filter (fun kv => kv.key ≠ key) = kv :: kvs := by
        rw [List.filter_eq_self]
        intro kv' hkv'
        simpa using hnone kv' hkv'
      rw [hvalues, hfilter, List.append_nil, scanRun, if_neg hk, scan]

theorem tabulates_scan (n : ℕ) (kvs : List KeyValue) (hn : kvs.length ≤ n)
    (hsorted : kvs.Pairwise fun a b => ¬ b.key < a.key) :
    Tabulates reducef kvs (scan reducef kvs) := by
  -- the pairs left after a run are fewer and still sorted
  induction n generalizing kvs with
  | zero =>
    obtain rfl := List.length_eq_zero_iff.mp (Nat.le_zero.mp hn)
    exact ⟨by simp [scan], by simp [scan]⟩
  | succ n ih =>
    cases kvs with
    | nil => exact ⟨by simp [scan], by simp [scan]⟩
    | cons kv kvs =>
      obtain ⟨hhead, htail⟩ := List.pairwise_cons.mp hsorted
      have hlen : (kvs.filter fun kv' => kv'.key ≠ kv.key).length ≤ n :=
        (List.length_filter_le _ _).trans (Nat.le_of_succ_le_succ hn)
      have hrest := ih _ hlen (htail.filter _)
      have hvalues : ∀ k, k ≠ kv.key →
          valuesOf k (kvs.filter fun kv' => kv'.key ≠ kv.key) = valuesOf k (kv :: kvs) := by
        intro k hk
        rw [valuesOf_filter k kvs fun k' => k' ≠ kv.key, valuesOf_cons]
        simp [hk, Ne.symm hk]
      rw [scan, scanRun_eq htail hhead]
      constructor
      · rw [List.map_cons, List.nodup_cons]
        refine ⟨?_, hrest.nodup⟩
        intro hmem
        obtain ⟨r, hr, hkey⟩ := List.mem_map.mp hmem
        obtain ⟨kv', hkv', rfl⟩ := (hrest.mem_iff r).mp hr
        exact absurd hkey (by simpa using (List.mem_filter.mp hkv').2)
      · intro r
        rw [List.mem_cons, hrest.mem_iff]
        constructor
        · rintro (rfl | ⟨kv', hkv', rfl⟩)
          · exact ⟨kv, List.mem_cons_self .., by simp [valuesOf_cons]⟩
          · obtain ⟨hmem, hne⟩ := List.mem_filter.mp hkv'
            exact ⟨kv', List.mem_cons_of_mem _ hmem, by rw [hvalues _ (by simpa using hne)]⟩
        · rintro ⟨kv', hkv', rfl⟩
          by_cases hk : kv'.key = kv.key
          · left
            simp [valuesOf_cons, hk]
          · right
            have hmem := (List.mem_cons.mp hkv').resolve_left fun h => hk (by rw [h])
            exact ⟨kv', List.mem_filter.mpr ⟨hmem, by simpa using hk⟩, by rw [hvalues _ hk]⟩

end Scan

theorem readInputs_of_sound (mapf : GoString → GoString → List KeyValue)
    {files : List (GoString × GoString)} {io : Io} (hsound : io.Sound)
    (hfiles : ∀ f ∈ files, io.files f.1 = some f.2) :
    ∃ io', io'.Sound ∧ readInputs mapf (files.map Prod.fst) io =
      some (files.flatMap fun f => mapf f.1 f.2, io') := by
  induction files generalizing io with
  | nil => exact ⟨io, hsound, rfl⟩
  | cons f files ih =>
    have hread := Io.readFile_of_sound hsound (hfiles f (List.mem_cons_self ..))
    obtain ⟨io', hsound', hrest⟩ := ih (Io.sound_tick (Io.sound_tick hsound io.files) io.files)
      fun f' hf' => hfiles f' (List.mem_cons_of_mem _ hf')
    refine ⟨io', hsound', ?_⟩
    simp only [List.map_cons, readInputs, hread, hrest, Option.map_some, List.flatMap_cons]

/-- Without I/O failure mrsequential finishes and leaves the records of the sorted pairs. -/
theorem mrsequential_of_sound {mapf : GoString → GoString → List KeyValue}
    (reducef : GoString → List GoString → GoString) (bykey : KeySort)
    {files : List (GoString × GoString)} {io : Io} (hsound : io.Sound)
    (hfiles : ∀ f ∈ files, io.files f.1 = some f.2) :
    ∃ io', mrsequential mapf reducef bykey (files.map Prod.fst) io = some io' ∧
      io'.files (ascii "mr-out-0") =
        some ((scan reducef (bykey.sort (files.flatMap fun f => mapf f.1 f.2))).flatMap
          Record.format) := by
  obtain ⟨io₁, hsound₁, hread⟩ := readInputs_of_sound mapf hsound hfiles
  simp only [mrsequential, hread, Io.create_of_sound hsound₁]
  refine ⟨_, rfl, ?_⟩
  exact writeRecords_of_sound [] (Io.sound_tick hsound₁ _) (by simp)

end DistributedLabs.MRSequential
