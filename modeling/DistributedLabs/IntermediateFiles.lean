import DistributedLabs.MREquivalence
import DistributedLabs.Utf8Coerce

/-!
What becomes of the output of a map task in its intermediate files. doMap either fails
with one of its calls or leaves each pair in the file of its reducer. encoding/json is
documented to replace invalid UTF-8 in strings by U+FFFD, and to let a later member of
an object overwrite an earlier one with the same key. So a file gives back the groups
that were written exactly when all keys and values in it are valid UTF-8.
-/
namespace DistributedLabs.IntermediateFiles

open GoText Files Grouping MRTask MREquivalence JsonText

/-- The members of the object for a map, in the order in which they are written. -/
def members (m : Contents) (order : List GoString) : List (GoString × List GoString) :=
  order.map fun k => (Utf8.coerce k, ((m.lookup k).getD []).map Utf8.coerce)

/-- What encoding/json documents of writing such a map and reading it again. -/
def Documented (json : Json) : Prop :=
  ∀ m, ∃ order, Ranges m order ∧
    json.unmarshal (json.marshal m) = some (ofMembers (members m order))

theorem validUtf8_iff {s : GoString} : ValidUtf8 s ↔ Utf8.Valid s := by
  unfold ValidUtf8
  rw [Utf8.mk_toArray]
  constructor
  · rintro ⟨runes, h⟩
    exact ⟨runes, List.toByteArray_inj.mp h⟩
  · rintro ⟨runes, rfl⟩
    exact ⟨runes, rfl⟩

theorem coerce_eq_self_iff {s : GoString} : Utf8.coerce s = s ↔ ValidUtf8 s :=
  Utf8.coerce_eq_self_iff.trans validUtf8_iff.symm

theorem map_coerce_eq_self_iff {values : List GoString} :
    values.map Utf8.coerce = values ↔ ∀ v ∈ values, ValidUtf8 v := by
  induction values with
  | nil => simp
  | cons v values ih => simp [coerce_eq_self_iff, ih]

theorem mem_ofMembers {ms : List (GoString × List GoString)} {k : GoString}
    (h : k ∈ ofMembers ms) : ∃ e ∈ ms, e.1 = k := by
  have hfold : ∀ (ms : List (GoString × List GoString)) (m : Contents),
      k ∈ ms.foldl (fun m e => m.insert e.1 e.2) m → k ∈ m ∨ ∃ e ∈ ms, e.1 = k := by
    intro ms
    induction ms with
    | nil =>
      intro m hk
      exact Or.inl hk
    | cons e ms ih =>
      intro m hk
      rcases ih _ hk with hin | ⟨e', he', hkey⟩
      · rcases Finmap.mem_insert.mp hin with heq | hm
        · exact Or.inr ⟨e, List.mem_cons_self, heq.symm⟩
        · exact Or.inl hm
      · exact Or.inr ⟨e', List.mem_cons_of_mem e he', hkey⟩
  exact (hfold ms ∅ h).resolve_left Finmap.notMem_empty

/-- When every key is valid, no member is overwritten. -/
theorem lookup_ofMembers {m : Contents} {order : List GoString} (hr : Ranges m order)
    (hkeys : ∀ k ∈ m, ValidUtf8 k) (k : GoString) :
    (ofMembers (members m order)).lookup k = (m.lookup k).map (List.map Utf8.coerce) := by
  have hmembers : members m order =
      order.map fun k => (k, ((m.lookup k).getD []).map Utf8.coerce) := by
    apply List.map_congr_left
    intro k hk
    rw [coerce_eq_self_iff.mpr (hkeys k ((hr.mem_iff k).mp hk))]
  rw [hmembers, ofMembers, List.foldl_map,
    lookup_insertAll order fun k => ((m.lookup k).getD []).map Utf8.coerce]
  by_cases hk : k ∈ m
  · obtain ⟨values, hvalues⟩ := Finmap.mem_iff.mp hk
    rw [if_pos ((hr.mem_iff k).mpr hk), hvalues]
    rfl
  · rw [if_neg (mt (hr.mem_iff k).mp hk), Finmap.lookup_empty, Finmap.lookup_eq_none.mpr hk]
    rfl

/-- Reading back gives the map itself exactly when it holds valid strings only. -/
theorem ofMembers_eq_iff {m : Contents} {order : List GoString} (hr : Ranges m order) :
    ofMembers (members m order) = m ↔ ValidContents m := by
  constructor
  · intro heq
    -- the keys read back are all valid, so those of the map are
    have hkeys : ∀ k ∈ m, ValidUtf8 k := by
      intro k hk
      rw [← heq] at hk
      obtain ⟨e, he, rfl⟩ := mem_ofMembers hk
      obtain ⟨k', -, rfl⟩ := List.mem_map.mp he
      exact validUtf8_iff.mpr (Utf8.valid_coerceFrom _ _)
    intro k values hvalues
    refine ⟨hkeys k (Finmap.mem_of_lookup_eq_some hvalues), ?_⟩
    have hlookup := lookup_ofMembers hr hkeys k
    rw [heq, hvalues, Option.map_some, Option.some.injEq] at hlookup
    exact map_coerce_eq_self_iff.mp hlookup.symm
  · intro hvalid
    have hkeys : ∀ k ∈ m, ValidUtf8 k := by
      intro k hk
      obtain ⟨values, hvalues⟩ := Finmap.mem_iff.mp hk
      exact (hvalid k values hvalues).1
    apply Finmap.ext_lookup
    intro k
    rw [lookup_ofMembers hr hkeys]
    cases hvalues : m.lookup k with
    | none => rfl
    | some values =>
      rw [Option.map_some, map_coerce_eq_self_iff.mpr (hvalid k values hvalues).2]

theorem validContents_group_iff {kvs : List KeyValue} :
    ValidContents (group ∅ kvs) ↔ ∀ kv ∈ kvs, ValidUtf8 kv.key ∧ ValidUtf8 kv.value := by
  refine ⟨?_, validContents_group⟩
  intro h kv hkv
  have hmem : kv.value ∈ valuesOf kv.key kvs :=
    List.mem_map.mpr ⟨kv, List.mem_filter.mpr ⟨hkv, by simp⟩, rfl⟩
  have hlookup := grouped_group kvs kv.key
  rw [if_neg (List.ne_nil_of_mem hmem)] at hlookup
  obtain ⟨hkey, hvalues⟩ := h _ _ hlookup
  exact ⟨hkey, hvalues _ hmem⟩

/-- The file doMap wrote for a reducer decodes to the groups it made for it exactly when
the pairs of that reducer are valid UTF-8. -/
theorem intermediate_file_transports_iff {json : Json} (hjson : Documented json)
    {mapf : GoString → GoString → List KeyValue} {inputFile inputContents : GoString}
    {mapTid : ℤ} {nReduce : ℕ} {rand : ℕ → Fin 16 → UInt8} {order : List ℕ}
    (horder : order.Perm (List.range nReduce)) {io io' : Io} {names : List GoString}
    (h : doMap json mapf inputFile inputContents mapTid nReduce rand order io =
      (some names, io')) {r : ℕ} (hr : r < nReduce) :
    ∃ fc, io'.files (names.getD r []) = some fc ∧
      (json.unmarshal fc = some (sortedResults nReduce (mapf inputFile inputContents) r) ↔
        ∀ kv ∈ mapf inputFile inputContents, ihash kv.key % nReduce = r →
          ValidUtf8 kv.key ∧ ValidUtf8 kv.value) := by
  obtain ⟨-, -, hfiles⟩ := doMap_eq_some horder h
  refine ⟨_, hfiles r hr, ?_⟩
  obtain ⟨written, hranges, hdecode⟩ :=
    hjson (group ∅ (partition nReduce r (mapf inputFile inputContents)))
  rw [sortedResults_eq, hdecode, Option.some.injEq, ofMembers_eq_iff hranges,
    validContents_group_iff]
  simp [partition]

/-- A codec that does what is documented, with the keys in order. -/
def coercingJson : Json where
  marshal m := 123 :: membersText (members m (sortedKeys m))
  unmarshal := JsonText.unmarshal

theorem unmarshal_coercingJson (m : Contents) :
    coercingJson.unmarshal (coercingJson.marshal m) =
      some (ofMembers (members m (sortedKeys m))) := by
  have hread := readMembers_membersText (members m (sortedKeys m)) _ (fuelOf_le_membersText _)
  simp only [coercingJson, JsonText.unmarshal, hread, Option.map_some]

theorem documented_coercingJson : Documented coercingJson :=
  fun m => ⟨sortedKeys m, ranges_sortedKeys m, unmarshal_coercingJson m⟩

/-- An empty disk on which no call fails. -/
def emptyDisk : Io := ⟨fun _ => none, fun _ => none, 0⟩

theorem sound_emptyDisk : emptyDisk.Sound := fun _ => rfl

def noRand (_ : ℕ) (_ : Fin 16) : UInt8 := 0

def oneWord (_ _ : GoString) : List KeyValue := [⟨ascii "a", ascii "1"⟩]

theorem intermediate_file_transports_iff_oneWord :
    ∃ names io' fc, doMap coercingJson oneWord [] [] 0 1 noRand [0] emptyDisk =
        (some names, io') ∧ io'.files (names.getD 0 []) = some fc ∧
      coercingJson.unmarshal fc = some (sortedResults 1 (oneWord [] []) 0) := by
  obtain ⟨names, io', hmap⟩ := doMap_of_sound coercingJson oneWord [] [] 0 1 noRand [0]
    sound_emptyDisk
  obtain ⟨fc, hfc, hiff⟩ := intermediate_file_transports_iff documented_coercingJson
    (List.Perm.refl [0]) hmap (r := 0) Nat.one_pos
  refine ⟨names, io', fc, hmap, hfc, hiff.mpr ?_⟩
  intro kv hkv _
  obtain rfl : kv = ⟨ascii "a", ascii "1"⟩ := List.mem_singleton.mp hkv
  exact ⟨coerce_eq_self_iff.mp (by decide +kernel), coerce_eq_self_iff.mp (by decide +kernel)⟩

/-- Two keys of one invalid byte each. -/
def twoBytes (_ _ : GoString) : List KeyValue := [⟨[0xFF], ascii "1"⟩, ⟨[0xFE], ascii "2"⟩]

/-- The two keys become one and the value of the first is all that is left. -/
theorem intermediate_file_merges_keys :
    ∃ names io' fc, doMap coercingJson twoBytes [] [] 0 1 noRand [0] emptyDisk =
        (some names, io') ∧ io'.files (names.getD 0 []) = some fc ∧
      coercingJson.unmarshal fc = some (Finmap.singleton Utf8.replacement [ascii "1"]) ∧
      coercingJson.unmarshal fc ≠ some (sortedResults 1 (twoBytes [] []) 0) := by
  obtain ⟨names, io', hmap⟩ := doMap_of_sound coercingJson twoBytes [] [] 0 1 noRand [0]
    sound_emptyDisk
  obtain ⟨-, -, hfiles⟩ := doMap_eq_some (List.Perm.refl [0]) hmap
  have hkeys : sortedKeys (group ∅ (partition 1 0 (twoBytes [] []))) = [[0xFE], [0xFF]] := by
    decide +kernel
  have hdecode : coercingJson.unmarshal (coercingJson.marshal
      (group ∅ (partition 1 0 (twoBytes [] [])))) =
        some (Finmap.singleton Utf8.replacement [ascii "1"]) := by
    rw [unmarshal_coercingJson, hkeys]
    decide +kernel
  refine ⟨names, io', _, hmap, hfiles 0 Nat.one_pos, hdecode, ?_⟩
  rw [hdecode]
  decide +kernel

/-- The map a reducer's file holds: the keys that hash to it, each with all its values. -/
theorem lookup_partition (nReduce r : ℕ) (kvs : List KeyValue) (k : GoString) :
    (group ∅ (partition nReduce r kvs)).lookup k =
      if ihash k % nReduce = r ∧ valuesOf k kvs ≠ [] then some (valuesOf k kvs) else none := by
  have hvalues := valuesOf_filter k kvs fun k => decide (ihash k % nReduce = r)
  rw [grouped_group, partition, hvalues]
  by_cases hk : ihash k % nReduce = r
  · by_cases hnil : valuesOf k kvs = [] <;> simp [hk, hnil]
  · simp [hk]

theorem doMap_partitions_or_fails (json : Json) (mapf : GoString → GoString → List KeyValue)
    (inputFile inputContents : GoString) (mapTid : ℤ) (nReduce : ℕ) (hpos : 1 ≤ nReduce)
    (rand : ℕ → Fin 16 → UInt8) (order : List ℕ) (horder : order.Perm (List.range nReduce))
    (io : Io) :
    let emitted := mapf inputFile inputContents
    let result := doMap json mapf inputFile inputContents mapTid nReduce rand order io
    (result.1 = none ↔ ∃ k < 2 * nReduce, io.faults (io.calls + k) ≠ none) ∧
      ∀ names, result.1 = some names →
        names.length = nReduce ∧ names.Nodup ∧
        ∃ contents : ℕ → Contents,
          (∀ r < nReduce,
            result.2.files (names.getD r []) = some (json.marshal (contents r)) ∧
            ∀ k, (contents r).lookup k =
              if ihash k % nReduce = r ∧ valuesOf k emitted ≠ [] then
                some (valuesOf k emitted)
              else none) ∧
          ∀ kv ∈ emitted, ∃! r, r < nReduce ∧
            ∃ values, (contents r).lookup kv.key = some values ∧ kv.value ∈ values := by
  intro emitted result
  constructor
  · have hsome := doMap_isSome_iff json mapf inputFile inputContents mapTid nReduce rand order io
    rw [horder.length_eq, List.length_range, ← Nat.two_mul] at hsome
    rw [← Option.not_isSome_iff_eq_none, hsome]
    simp
  · intro names hnames
    obtain ⟨hlen, hnodup, hfiles⟩ := doMap_eq_some horder (Prod.ext hnames rfl)
    refine ⟨hlen, hnodup, fun r => group ∅ (partition nReduce r emitted), ?_, ?_⟩
    · intro r hr
      exact ⟨hfiles r hr, lookup_partition nReduce r emitted⟩
    · intro kv hkv
      have hvalue : kv.value ∈ valuesOf kv.key emitted :=
        List.mem_map.mpr ⟨kv, List.mem_filter.mpr ⟨hkv, by simp⟩, rfl⟩
      refine ⟨ihash kv.key % nReduce, ⟨Nat.mod_lt _ hpos, valuesOf kv.key emitted, ?_, hvalue⟩, ?_⟩
      · rw [lookup_partition, if_pos ⟨rfl, List.ne_nil_of_mem hvalue⟩]
      · rintro r ⟨_, values, hlookup, _⟩
        rw [lookup_partition] at hlookup
        split at hlookup
        · rename_i hhash
          exact hhash.1.symm
        · cases hlookup

def fourPairs (_ _ : GoString) : List KeyValue :=
  [⟨ascii "a", ascii "1"⟩, ⟨ascii "b", ascii "2"⟩, ⟨ascii "a", ascii "3"⟩, ⟨ascii "c", ascii "4"⟩]

/-- An empty disk on which the fourth call writes two bytes and fails. -/
def fullDisk : Io := { emptyDisk with faults := fun n => if n = 3 then some 2 else none }

/-- The keys a and c hash to reducer 0 and b to reducer 1; with the last write failing
doMap fails. -/
theorem doMap_partitions_fourPairs :
    (∃ (names : List GoString) (contents : ℕ → Contents),
      (doMap coercingJson fourPairs [] [] 0 2 noRand [1, 0] emptyDisk).1 = some names ∧
      names.length = 2 ∧ names.Nodup ∧
      (∀ r < 2, (doMap coercingJson fourPairs [] [] 0 2 noRand [1, 0] emptyDisk).2.files
        (names.getD r []) = some (coercingJson.marshal (contents r))) ∧
      (contents 0).lookup (ascii "a") = some [ascii "1", ascii "3"] ∧
      (contents 0).lookup (ascii "b") = none ∧
      (contents 1).lookup (ascii "b") = some [ascii "2"]) ∧
    (doMap coercingJson fourPairs [] [] 0 2 noRand [1, 0] fullDisk).1 = none := by
  have h := doMap_partitions_or_fails coercingJson fourPairs [] [] 0 2 (by decide) noRand [1, 0]
    (by decide)
  constructor
  · obtain ⟨names, io', hmap⟩ := doMap_of_sound coercingJson fourPairs [] [] 0 2 noRand [1, 0]
      sound_emptyDisk
    obtain ⟨hlen, hnodup, contents, hcontents, _⟩ :=
      (h emptyDisk).2 names (congrArg Prod.fst hmap)
    refine ⟨names, contents, congrArg Prod.fst hmap, hlen, hnodup,
      fun r hr => (hcontents r hr).1, ?_, ?_, ?_⟩
    · rw [(hcontents 0 Nat.two_pos).2, if_pos (by decide +kernel)]
      rfl
    · rw [(hcontents 0 Nat.two_pos).2, if_neg (by decide +kernel)]
    · rw [(hcontents 1 Nat.one_lt_two).2, if_pos (by decide +kernel)]
      rfl
  · exact (h fullDisk).1.mpr ⟨3, by decide, by decide⟩

end DistributedLabs.IntermediateFiles
