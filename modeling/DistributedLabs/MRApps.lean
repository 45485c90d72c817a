import DistributedLabs.Fields
import DistributedLabs.IntermediateFiles
import DistributedLabs.JobEquivalence

/-!
The applications mrapps/wc.go and mrapps/indexer.go run as jobs. A word is a maximal run of
letters; bytes that are not UTF-8 are read as U+FFFD, which is no letter, so words are valid
UTF-8 whatever the input files hold. unicode.IsLetter is a parameter. Of a job that is done,
the output files hold one line for each word: the number of places at which it starts, or the
sorted names of the documents it occurs in.
-/
namespace DistributedLabs.MRApps

open GoText Files Transition Grouping MRTask MREquivalence MRSequential MRWorker

structure Rune where
  char : Char
  bytes : GoString
  deriving DecidableEq, Repr

def runeError : Char := Char.ofNat 0xFFFD

/-- The runes that `range` goes over; the first argument bounds their number. -/
def runesFrom : ℕ → GoString → List Rune
  | 0, _ => []
  | _ + 1, [] => []
  | fuel + 1, b :: rest =>
    match Utf8.decodeRune (b :: rest) with
    | some c => ⟨c, (b :: rest).take c.utf8Size⟩ :: runesFrom fuel ((b :: rest).drop c.utf8Size)
    | none => ⟨runeError, [b]⟩ :: runesFrom fuel rest

def runes (s : GoString) : List Rune := runesFrom s.length s

/-- strings.FieldsFunc, which cuts at the runes that satisfy `f`. -/
def fieldsFunc (f : Char → Bool) (s : GoString) : List GoString :=
  (Fields.fields (fun r => !f r.char) (runes s)).map fun field => field.flatMap Rune.bytes

section Words

variable (isLetter : Char → Bool)

def words (contents : GoString) : List GoString := fieldsFunc (fun r => !isLetter r) contents

/-- The word that starts at the rune numbered `i`, empty if none does. -/
def wordAt (contents : GoString) (i : ℕ) : GoString :=
  (Fields.runAt (fun r => isLetter r.char) (runes contents) i).flatMap Rune.bytes

/-- The places in a file at which a word starts. -/
def placesIn (word contents : GoString) : List ℕ :=
  (List.range (runes contents).length).filter fun i => wordAt isLetter contents i = word

/-- The places of a word, with the names of the files they are in. -/
def places (inputs : List (GoString × GoString)) (word : GoString) : List (GoString × ℕ) :=
  inputs.flatMap fun f => (placesIn isLetter word f.2).map fun i => (f.1, i)

variable {isLetter}

end Words

section Job

variable {ω : Type*} [DecidableEq ω] {P : Program} {s t : MapReduce.State ω}
  {inputs : List (GoString × GoString)}

end Job

namespace Wc

/-- Map of wc.go. -/
def map (isLetter : Char → Bool) (_ contents : GoString) : List KeyValue :=
  (words isLetter contents).map fun w => ⟨w, ascii "1"⟩

/-- Reduce of wc.go. -/
def reduce (_ : GoString) (values : List GoString) : GoString := itoa values.length

variable {isLetter : Char → Bool} {inputs : List (GoString × GoString)}

variable {ω : Type*} [DecidableEq ω] {s t : MapReduce.State ω} {json : Json}

end Wc

namespace Indexer

/-- The orders in which `for w := range m` goes over the words of a document. -/
structure Ranging where
  order : GoString → Finset GoString → List GoString
  nodup : ∀ document m, (order document m).Nodup
  mem_iff : ∀ document m w, w ∈ order document m ↔ w ∈ m

/-- Map of indexer.go. -/
def map (isLetter : Char → Bool) (ranging : Ranging) (document value : GoString) :
    List KeyValue :=
  (ranging.order document (words isLetter value).toFinset).map fun w => ⟨w, document⟩

/-- sort.Strings. -/
def sortStrings (values : List GoString) : List GoString := values.insertionSort (· ≤ ·)

/-- Reduce of indexer.go; the verb is "%d %s". -/
def reduce (_ : GoString) (values : List GoString) : GoString :=
  itoa values.length ++ ascii " " ++ (ascii ",").intercalate (sortStrings values)

variable {isLetter : Char → Bool} {ranging : Ranging} {inputs : List (GoString × GoString)}

variable {ω : Type*} [DecidableEq ω] {s t : MapReduce.State ω} {json : Json}

end Indexer

end DistributedLabs.MRApps
