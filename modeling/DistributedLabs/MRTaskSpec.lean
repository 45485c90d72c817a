import DistributedLabs.MRTask
import Mathlib.Data.List.GetD

/-!
What doMap and doReduce leave on disk. A doMap that succeeds has written, for
each reducer, the groups of the pairs that hash to it, to files with distinct
names. A doReduce without I/O failure has written one record for each key of
the merged groups.
-/
namespace DistributedLabs.MRTask

open GoText Files Grouping

theorem intermediateFilename_eq (mapTid r : ℤ) (b : Fin 16 → UInt8) :
    generateUniqueIntermediateFilename mapTid r b =
      ascii "mr-" ++ (itoa mapTid ++ 45 :: (itoa r ++ 45 :: hexEncodeToString (List.ofFn b))) := by
  have hyphen : ascii "-" = [45] := by decide
  simp only [generateUniqueIntermediateFilename, hyphen, List.append_assoc, List.cons_append,
    List.nil_append]

theorem intermediateFilename_inj {mapTid : ℤ} {r r' : ℕ} {b b' : Fin 16 → UInt8}
    (h : generateUniqueIntermediateFilename mapTid r b =
      generateUniqueIntermediateFilename mapTid r' b') : r = r' := by
  rw [intermediateFilename_eq, intermediateFilename_eq, itoa_natCast, itoa_natCast] at h
  have htail := List.append_cancel_left (List.append_cancel_left h)
  exact digits_hyphen_inj (List.cons.inj htail).2

theorem intermediateFilename_tid_inj {i j : ℕ} {r r' : ℤ} {b b' : Fin 16 → UInt8}
    (h : generateUniqueIntermediateFilename i r b =
      generateUniqueIntermediateFilename j r' b') : i = j := by
  rw [intermediateFilename_eq, intermediateFilename_eq, itoa_natCast, itoa_natCast] at h
  exact digits_hyphen_inj (List.append_cancel_left h)

theorem intermediateFilename_ne_outputName (mapTid reduceTid reducerTid : ℤ)
    (b : Fin 16 → UInt8) :
    generateUniqueIntermediateFilename mapTid reduceTid b ≠ outputName reducerTid := by
  intro h
  have hstart : ascii "mr-out-" = ascii "mr-" ++ 111 :: ascii "ut-" := by decide
  obtain ⟨c, rest, hitoa, hbound⟩ := itoa_head mapTid
  simp only [generateUniqueIntermediateFilename, outputName, hstart, hitoa, List.append_assoc,
    List.append_cancel_left_eq, List.cons_append, List.cons.injEq] at h
  have hc : c.toNat = 111 := by
    rw [h.1]
    rfl
  omega

section Create

variable {mapTid : ℤ} {rand : ℕ → Fin 16 → UInt8}

theorem createFiles_cons_eq_some {r : ℕ} {rs : List ℕ} {io io' : Io} {names : List GoString}
    (h : createFiles mapTid rand (r :: rs) io = (some names, io')) :
    ∃ rest, names = generateUniqueIntermediateFilename mapTid r (rand r) :: rest ∧
      createFiles mapTid rand rs (io.tick (create io.files
        (generateUniqueIntermediateFilename mapTid r (rand r)))) = (some rest, io') := by
  simp only [createFiles] at h
  split at h
  · cases h
  · rename_i io₁ hcreate
    split at h
    · cases h
    · rename_i rest io₂ hrest
      cases h
      rw [Io.create_eq_true hcreate] at hrest
      exact ⟨rest, rfl, hrest⟩

theorem createFiles_eq_some {rs : List ℕ} {io io' : Io} {names : List GoString}
    (h : createFiles mapTid rand rs io = (some names, io')) :
    names = rs.map (fun r : ℕ => generateUniqueIntermediateFilename mapTid r (rand r)) ∧
      (∀ name, name ∉ names → io'.files name = io.files name) ∧
      ∀ name ∈ names, io'.files name = some [] := by
  induction rs generalizing io names with
  | nil =>
    cases h
    simp
  | cons r rs ih =>
    obtain ⟨rest, rfl, hrest⟩ := createFiles_cons_eq_some h
    obtain ⟨hnames, hother, hempty⟩ := ih hrest
    refine ⟨by rw [hnames, List.map_cons], ?_, ?_⟩
    · intro name hname
      rw [List.mem_cons, not_or] at hname
      rw [hother name hname.2, Io.tick_files, create_of_ne _ hname.1]
    · intro name hname
      by_cases hmem : name ∈ rest
      · exact hempty name hmem
      · have heq := (List.mem_cons.mp hname).resolve_right hmem
        rw [hother name hmem, Io.tick_files, heq, create_self]

/-- The files are created unless one of the next calls, one for each file, fails. -/
theorem createFiles_isSome_iff (mapTid : ℤ) (rand : ℕ → Fin 16 → UInt8) (rs : List ℕ) (io : Io) :
    (createFiles mapTid rand rs io).1.isSome ↔
      ∀ k < rs.length, io.faults (io.calls + k) = none := by
  induction rs generalizing io with
  | nil => simp [createFiles]
  | cons r rs ih =>
    rw [List.length_cons, Nat.forall_lt_succ_left]
    cases hfault : io.faults io.calls with
    | some n => simp [createFiles, Io.create, hfault]
    | none =>
      have hrest := ih (io.tick (create io.files
        (generateUniqueIntermediateFilename mapTid r (rand r))))
      simp only [Io.tick_faults, Io.tick_calls, Nat.add_assoc, Nat.add_comm 1] at hrest
      rw [← hrest]
      simp only [createFiles, Io.create_of_no_fault hfault, true_and]
      split
      · rename_i hnone
        simp [hnone]
      · rename_i hsome
        simp [hsome]

theorem createFiles_calls {rs : List ℕ} {io io' : Io} {names : List GoString}
    (h : createFiles mapTid rand rs io = (some names, io')) :
    io'.faults = io.faults ∧ io'.calls = io.calls + rs.length := by
  induction rs generalizing io names with
  | nil =>
    cases h
    exact ⟨rfl, rfl⟩
  | cons r rs ih =>
    obtain ⟨rest, _, hrest⟩ := createFiles_cons_eq_some h
    obtain ⟨hfaults, hcalls⟩ := ih hrest
    refine ⟨hfaults, ?_⟩
    rw [hcalls, Io.tick_calls, List.length_cons, Nat.add_assoc, Nat.add_comm 1]

theorem intermediateNames_nodup {rs : List ℕ} (hrs : rs.Nodup) :
    (rs.map fun r : ℕ => generateUniqueIntermediateFilename mapTid r (rand r)).Nodup :=
  hrs.map_on fun _ _ _ _ h => intermediateFilename_inj h

end Create

theorem writeFiles_eq_true {json : Json} {names : List GoString} {sorted : ℕ → Contents}
    (hnames : names.Nodup) {order : List ℕ} {io io' : Io} (horder : order.Nodup)
    (hlt : ∀ r ∈ order, r < names.length)
    (hempty : ∀ r ∈ order, io.files (names.getD r []) = some [])
    (h : writeFiles json names sorted order io = (true, io')) :
    (∀ r ∈ order, io'.files (names.getD r []) = some (json.marshal (sorted r))) ∧
      ∀ name, (∀ r ∈ order, name ≠ names.getD r []) → io'.files name = io.files name := by
  induction order generalizing io with
  | nil =>
    cases h
    simp
  | cons r order ih =>
    simp only [writeFiles] at h
    split at h
    · cases h
    · rename_i n io₁ hwrite
      obtain ⟨hnot, hrest⟩ := List.nodup_cons.mp horder
      have hio := Io.write_eq_true hwrite
      have hr := hlt r (List.mem_cons_self ..)
      -- the other reducers' files are different ones
      have hdiff : ∀ r' ∈ order, names.getD r' [] ≠ names.getD r [] := by
        intro r' hr' heq
        have hr'' := hlt r' (List.mem_cons_of_mem _ hr')
        rw [List.getD_eq_getElem _ _ hr'', List.getD_eq_getElem _ _ hr] at heq
        exact hnot (hnames.getElem_inj_iff.mp heq ▸ hr')
      obtain ⟨hdone, hother⟩ := ih hrest (fun r' hr' => hlt r' (List.mem_cons_of_mem _ hr'))
        (fun r' hr' => by
          rw [hio, Io.tick_files, write_of_ne _ (hdiff r' hr')]
          exact hempty r' (List.mem_cons_of_mem _ hr')) h
      have hself : io'.files (names.getD r []) = some (json.marshal (sorted r)) := by
        rw [hother _ fun r' hr' heq => hdiff r' hr' heq.symm, hio, Io.tick_files, write_self,
          hempty r (List.mem_cons_self ..)]
        exact congrArg some (writeAt_length [] _)
      constructor
      · intro r' hr'
        rcases List.mem_cons.mp hr' with rfl | hmem
        · exact hself
        · exact hdone r' hmem
      · intro name hname
        rw [hother name fun r' hr' => hname r' (List.mem_cons_of_mem _ hr'), hio,
          Io.tick_files, write_of_ne _ (hname r (List.mem_cons_self ..))]

theorem writeFiles_eq_true_iff (json : Json) (names : List GoString) (sorted : ℕ → Contents)
    (order : List ℕ) (io : Io) :
    (writeFiles json names sorted order io).1 = true ↔
      ∀ k < order.length, io.faults (io.calls + k) = none := by
  induction order generalizing io with
  | nil => simp [writeFiles]
  | cons r order ih =>
    rw [List.length_cons, Nat.forall_lt_succ_left]
    cases hfault : io.faults io.calls with
    | some n => simp [writeFiles, Io.write, hfault]
    | none =>
      have hrest := ih (io.tick (write io.files (names.getD r []) 0 (json.marshal (sorted r))))
      simp only [Io.tick_faults, Io.tick_calls, Nat.add_assoc, Nat.add_comm 1] at hrest
      rw [← hrest]
      simp only [writeFiles, Io.write_of_no_fault hfault, true_and]

/-- The pairs that hash to a reducer. -/
def partition (nReduce r : ℕ) (mapResults : List KeyValue) : List KeyValue :=
  mapResults.filter fun kv => ihash kv.key % nReduce = r

theorem sortedResults_eq (nReduce : ℕ) (mapResults : List KeyValue) (r : ℕ) :
    sortedResults nReduce mapResults r = group ∅ (partition nReduce r mapResults) := by
  -- the loop, started from any maps, adds to each reducer's map its own pairs
  have hloop : ∀ (kvs : List KeyValue) (sorted : ℕ → Contents),
      kvs.foldl (fun sorted kv =>
        Function.update sorted (ihash kv.key % nReduce)
          (appendAt (sorted (ihash kv.key % nReduce)) kv.key [kv.value])) sorted r =
        group (sorted r) (partition nReduce r kvs) := by
    intro kvs
    induction kvs with
    | nil =>
      intro sorted
      rfl
    | cons kv kvs ih =>
      intro sorted
      rw [List.foldl_cons, ih]
      by_cases hr : ihash kv.key % nReduce = r
      · subst hr
        simp [partition, group]
      · simp [partition, hr, Function.update_of_ne (Ne.symm hr)]
  exact hloop mapResults fun _ => ∅

/-- doMap either fails or leaves each reducer's groups in a file of its own. -/
theorem doMap_eq_some {json : Json} {mapf : GoString → GoString → List KeyValue}
    {inputFile inputContents : GoString} {mapTid : ℤ} {nReduce : ℕ}
    {rand : ℕ → Fin 16 → UInt8} {order : List ℕ} (horder : order.Perm (List.range nReduce))
    {io io' : Io} {names : List GoString}
    (h : doMap json mapf inputFile inputContents mapTid nReduce rand order io =
      (some names, io')) :
    names.length = nReduce ∧ names.Nodup ∧
      ∀ r < nReduce, io'.files (names.getD r []) =
        some (json.marshal (group ∅ (partition nReduce r (mapf inputFile inputContents)))) := by
  simp only [doMap] at h
  split at h
  · cases h
  · rename_i created io₁ hcreate
    split at h
    · cases h
    · rename_i io₂ hwrite
      cases h
      obtain ⟨hnames, _, hempty⟩ := createFiles_eq_some hcreate
      have hlen : names.length = nReduce := by simp [hnames]
      have hnodup : names.Nodup := by
        rw [hnames]
        exact intermediateNames_nodup List.nodup_range
      have hlt : ∀ r ∈ order, r < names.length := by
        intro r hr
        rw [hlen]
        exact List.mem_range.mp (horder.mem_iff.mp hr)
      obtain ⟨hdone, _⟩ := writeFiles_eq_true hnodup
        (horder.nodup_iff.mpr List.nodup_range) hlt (fun r hr => hempty _ (by
          rw [List.getD_eq_getElem _ _ (hlt r hr)]
          exact List.getElem_mem _)) hwrite
      refine ⟨hlen, hnodup, ?_⟩
      intro r hr
      rw [← sortedResults_eq]
      exact hdone r (horder.mem_iff.mpr (List.mem_range.mpr hr))

theorem forall_lt_add_iff {p : ℕ → Prop} {a b : ℕ} :
    (∀ k < a + b, p k) ↔ (∀ k < a, p k) ∧ ∀ k < b, p (a + k) := by
  constructor
  · intro h
    exact ⟨fun k hk => h k (by omega), fun k hk => h (a + k) (by omega)⟩
  · rintro ⟨hfirst, hlater⟩ k hk
    by_cases hlt : k < a
    · exact hfirst k hlt
    · have hk' := hlater (k - a) (by omega)
      rwa [Nat.add_sub_cancel' (by omega)] at hk'

/-- doMap fails exactly when one of its calls does: it creates nReduce files, then
writes them. -/
theorem doMap_isSome_iff (json : Json) (mapf : GoString → GoString → List KeyValue)
    (inputFile inputContents : GoString) (mapTid : ℤ) (nReduce : ℕ)
    (rand : ℕ → Fin 16 → UInt8) (order : List ℕ) (io : Io) :
    (doMap json mapf inputFile inputContents mapTid nReduce rand order io).1.isSome ↔
      ∀ k < nReduce + order.length, io.faults (io.calls + k) = none := by
  have hcreate := createFiles_isSome_iff mapTid rand (List.range nReduce) io
  rw [List.length_range] at hcreate
  rw [forall_lt_add_iff, ← hcreate]
  unfold doMap
  split
  · rename_i io₁ hfail
    simp [hfail]
  · rename_i names io₁ hcreated
    obtain ⟨hfaults, hcalls⟩ := createFiles_calls hcreated
    have hwrite := writeFiles_eq_true_iff json names
      (sortedResults nReduce (mapf inputFile inputContents)) order io₁
    rw [hfaults, hcalls, List.length_range] at hwrite
    simp only [Nat.add_assoc] at hwrite
    rw [← hwrite, hcreated]
    dsimp only
    split
    · rename_i hfail
      simp [hfail]
    · rename_i hdone
      simp [hdone]

/-- Without I/O failure doMap succeeds. -/
theorem doMap_of_sound (json : Json) (mapf : GoString → GoString → List KeyValue)
    (inputFile inputContents : GoString) (mapTid : ℤ) (nReduce : ℕ)
    (rand : ℕ → Fin 16 → UInt8) (order : List ℕ) {io : Io} (hsound : io.Sound) :
    ∃ names io', doMap json mapf inputFile inputContents mapTid nReduce rand order io =
      (some names, io') := by
  have hsome := (doMap_isSome_iff json mapf inputFile inputContents mapTid nReduce rand order
    io).mpr fun _ _ => hsound _
  obtain ⟨names, hnames⟩ := Option.isSome_iff_exists.mp hsome
  exact ⟨names, _, Prod.ext hnames rfl⟩

/-- Merging files that hold the groups of some pairs gives the groups of all. -/
theorem mergeFiles_grouped {json : Json} (it : Iteration GoString GoString)
    {fileContents : List GoString} {parts : List (List KeyValue)}
    (hfiles : List.Forall₂ (fun fc part => ∃ tmp, json.unmarshal fc = some tmp ∧
      Grouped part tmp) fileContents parts)
    {i : ℕ} {before : List KeyValue} {m : Contents} (hm : Grouped before m) :
    ∃ m', mergeFiles json it i fileContents m = some m' ∧
      Grouped (before ++ parts.flatten) m' := by
  induction hfiles generalizing i before m with
  | nil => exact ⟨m, rfl, by simpa using hm⟩
  | @cons fc part rest parts hfc _ ih =>
    obtain ⟨tmp, htmp, hpart⟩ := hfc
    obtain ⟨m', hm', hgrouped⟩ := ih (i := i + 1) (hm.merge hpart (it.ranges i tmp))
    refine ⟨m', ?_, by simpa using hgrouped⟩
    simp only [mergeFiles, htmp]
    exact hm'

theorem writeRecords_of_no_fault {name : GoString} {records : List Record} {io : Io}
    (old : GoString) (hok : ∀ k < records.length, io.faults (io.calls + k) = none)
    (hold : io.files name = some old) :
    (writeRecords name records old.length io).files name =
      some (old ++ records.flatMap Record.format) := by
  induction records generalizing io old with
  | nil => simpa [writeRecords] using hold
  | cons r records ih =>
    have hfirst : io.faults io.calls = none := hok 0 (by simp)
    simp only [writeRecords, Io.write_of_no_fault hfirst]
    have hnext : (io.tick (write io.files name old.length r.format)).files name =
        some (old ++ r.format) := by
      rw [Io.tick_files, write_self, hold]
      simp
    have hlater : ∀ k < records.length,
        (io.tick (write io.files name old.length r.format)).faults
          ((io.tick (write io.files name old.length r.format)).calls + k) = none := by
      intro k hk
      rw [Io.tick_faults, Io.tick_calls, Nat.add_assoc, Nat.add_comm 1 k]
      exact hok (k + 1) (by simpa using hk)
    have hrest := ih _ hlater hnext
    rw [List.length_append] at hrest
    rw [hrest, List.flatMap_cons, List.append_assoc]

theorem writeRecords_of_sound {name : GoString} {records : List Record} {io : Io}
    (old : GoString) (hsound : io.Sound) (hold : io.files name = some old) :
    (writeRecords name records old.length io).files name =
      some (old ++ records.flatMap Record.format) :=
  writeRecords_of_no_fault old (fun _ _ => hsound _) hold

/-- Files that decode are reduced without error if no call fails, and the output file
then holds the records of the merged groups. -/
theorem doReduce_of_sound {json : Json} {it : Iteration GoString GoString}
    (reducef : GoString → List GoString → GoString) {fileContents : List GoString}
    (reducerTid : ℤ) {io : Io} (hsound : io.Sound) {m : Contents}
    (hm : mergeFiles json it 0 fileContents ∅ = some m) :
    ∃ io', doReduce json it reducef fileContents reducerTid io = (true, io') ∧
      io'.files (outputName reducerTid) =
        some ((reduceRecords reducef m (it.order fileContents.length m)).flatMap
          Record.format) := by
  simp only [doReduce, hm, Io.create_of_sound hsound]
  refine ⟨_, rfl, ?_⟩
  exact writeRecords_of_sound [] (Io.sound_tick hsound _) (by simp)

end DistributedLabs.MRTask
