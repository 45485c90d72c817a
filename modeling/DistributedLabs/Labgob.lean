import DistributedLabs.DepthFirst
import DistributedLabs.GoText
import DistributedLabs.Utf8Coerce
import Mathlib.Algebra.FreeMonoid.Basic

/-!
labgob's check for lower-case fields. checkType follows the fields, elements and
keys of a type and warns of each struct field that gob would drop; the types it
has met are remembered for the whole program. Types may refer to each other in
cycles. The check is a depth-first search, so every field of the types reachable
from those checked is reported exactly once.
-/
namespace DistributedLabs.Labgob

open GoText DepthFirst

structure Field (τ : Type*) where
  name : GoString
  type : τ

/-- The kinds checkType tells apart, with the types they refer to. -/
inductive Kind (τ : Type*)
  | struct (fields : List (Field τ))
  | slice (elem : τ)
  | array (elem : τ)
  | ptr (elem : τ)
  | map (elem key : τ)
  | other

/-- The types of a program as reflect shows them. -/
structure Types (τ : Type*) where
  name : τ → GoString
  kind : τ → Kind τ

/-- The variables of the package, and what has been printed. -/
structure State (τ : Type*) where
  checked : Finset τ
  errorCount : ℕ
  printed : List GoString

variable {τ : Type*}

/-- utf8.DecodeRuneInString without the width; bytes that are no rune give U+FFFD. -/
def decodeRuneInString (s : GoString) : Char := (Utf8.decodeRune s).getD (Char.ofNat 0xFFFD)

/-- The line printed for a field of a type. -/
def warning (g : Types τ) (t : τ) (f : Field τ) : GoString :=
  ascii "labgob error: lower-case field " ++ f.name ++ ascii " of " ++ g.name t ++
    ascii " in RPC or persist/snapshot will break your Raft\n"

def State.warn (s : State τ) (g : Types τ) (t : τ) (f : Field τ) : State τ :=
  { s with errorCount := s.errorCount + 1, printed := s.printed ++ [warning g t f] }

section Check

variable [DecidableEq τ]

/-- `isUpper` is unicode.IsUpper. The number bounds the depth of the calls. -/
def checkType (g : Types τ) (isUpper : Char → Bool) : ℕ → τ → State τ → Option (State τ)
  | 0, _, _ => none
  | fuel + 1, t, s =>
    if t ∈ s.checked then some s
    else
      let s := { s with checked := insert t s.checked }
      match g.kind t with
      | .struct fields =>
        fields.foldlM (fun s f =>
          checkType g isUpper fuel f.type
            (if isUpper (decodeRuneInString f.name) = false then s.warn g t f else s)) s
      | .slice elem => checkType g isUpper fuel elem s
      | .array elem => checkType g isUpper fuel elem s
      | .ptr elem => checkType g isUpper fuel elem s
      | .map elem key =>
        (checkType g isUpper fuel elem s).bind fun s => checkType g isUpper fuel key s
      | .other => some s

/-- checkValue, on a value of the given type. -/
def checkValue (g : Types τ) (isUpper : Char → Bool) (fuel : ℕ) (s : State τ) (t : τ) :
    Option (State τ) :=
  checkType g isUpper fuel t s

def checkValues (g : Types τ) (isUpper : Char → Bool) (fuel : ℕ) (ts : List τ) (s : State τ) :
    Option (State τ) :=
  ts.foldlM (checkValue g isUpper fuel) s

end Check

/-- One type refers to another through a field, an element or a key. -/
inductive Refers (g : Types τ) : τ → τ → Prop
  | field {t : τ} {fields : List (Field τ)} {f : Field τ} :
    g.kind t = .struct fields → f ∈ fields → Refers g t f.type
  | slice {t elem : τ} : g.kind t = .slice elem → Refers g t elem
  | array {t elem : τ} : g.kind t = .array elem → Refers g t elem
  | ptr {t elem : τ} : g.kind t = .ptr elem → Refers g t elem
  | elem {t elem key : τ} : g.kind t = .map elem key → Refers g t elem
  | key {t elem key : τ} : g.kind t = .map elem key → Refers g t key

def Reaches (g : Types τ) : τ → τ → Prop := Relation.ReflTransGen (Refers g)

def fields (g : Types τ) (t : τ) : List (Field τ) :=
  match g.kind t with
  | .struct fields => fields
  | _ => []

def lowerCaseFields (g : Types τ) (isUpper : Char → Bool) (t : τ) : List (Field τ) :=
  (fields g t).filter fun f => isUpper (decodeRuneInString f.name) = false

section Search

variable (g : Types τ) (isUpper : Char → Bool)

/-- Additions to errorCount and lines printed, in order. -/
abbrev Reports := ℕ × FreeAddMonoid GoString

/-- What a field adds. -/
def report (t : τ) (f : Field τ) : Reports :=
  if isUpper (decodeRuneInString f.name) = false then (1, .of (warning g t f)) else 0

/-- The edges of the search that checkType makes. -/
def edges (t : τ) : List (Reports × τ) :=
  match g.kind t with
  | .struct fields => fields.map fun f => (report g isUpper t f, f.type)
  | .slice elem | .array elem | .ptr elem => [(0, elem)]
  | .map elem key => [(0, elem), (0, key)]
  | .other => []

def State.toSearch (s : State τ) : Search τ Reports :=
  ⟨s.checked, (s.errorCount, .ofList s.printed)⟩

theorem toSearch_injective :
    Function.Injective (State.toSearch : State τ → Search τ Reports) := by
  rintro ⟨checked, errorCount, printed⟩ ⟨checked', errorCount', printed'⟩ h
  simp only [State.toSearch, Search.mk.injEq, Prod.mk.injEq,
    EmbeddingLike.apply_eq_iff_eq] at h
  rw [h.1, h.2.1, h.2.2]

theorem toSearch_warn (s : State τ) (t : τ) (f : Field τ) :
    (if isUpper (decodeRuneInString f.name) = false then s.warn g t f else s).toSearch =
      s.toSearch.add (report g isUpper t f) := by
  unfold report
  split
  · rfl
  · rw [Search.add_zero]

theorem adj_edges_iff (t u : τ) : Adj (edges g isUpper) t u ↔ Refers g t u := by
  constructor
  · rintro ⟨e, he, rfl⟩
    unfold edges at he
    split at he
    case h_1 fields hkind =>
      obtain ⟨f, hf, rfl⟩ := List.mem_map.mp he
      exact Refers.field hkind hf
    case h_2 elem hkind =>
      cases List.mem_singleton.mp he
      exact Refers.slice hkind
    case h_3 elem hkind =>
      cases List.mem_singleton.mp he
      exact Refers.array hkind
    case h_4 elem hkind =>
      cases List.mem_singleton.mp he
      exact Refers.ptr hkind
    case h_5 elem key hkind =>
      rcases List.mem_cons.mp he with rfl | he
      · exact Refers.elem hkind
      · cases List.mem_singleton.mp he
        exact Refers.key hkind
    case h_6 => cases he
  · intro h
    cases h with
    | @field _ f hkind hf =>
      exact ⟨(report g isUpper t f, f.type), by simpa [edges, hkind] using ⟨f, hf, rfl, rfl⟩, rfl⟩
    | slice hkind => exact ⟨(0, u), by simp [edges, hkind], rfl⟩
    | array hkind => exact ⟨(0, u), by simp [edges, hkind], rfl⟩
    | ptr hkind => exact ⟨(0, u), by simp [edges, hkind], rfl⟩
    | elem hkind => exact ⟨(0, u), by simp [edges, hkind], rfl⟩
    | key hkind => exact ⟨(0, u), by simp [edges, hkind], rfl⟩

theorem weigh_fields (t : τ) (fs : List (Field τ)) :
    weigh (fs.map fun f => (report g isUpper t f, f.type)) =
      ((fs.filter fun f => isUpper (decodeRuneInString f.name) = false).length,
        .ofList ((fs.filter fun f => isUpper (decodeRuneInString f.name) = false).map
          (warning g t))) := by
  induction fs with
  | nil => rfl
  | cons f fs ih =>
    rw [List.map_cons, weigh, ih, report]
    by_cases hf : isUpper (decodeRuneInString f.name) = false
    · simp [hf, Nat.add_comm]
    · simp [hf]

/-- A type weighs as much as it has lower-case fields. -/
theorem weigh_edges (t : τ) :
    weigh (edges g isUpper t) =
      ((lowerCaseFields g isUpper t).length,
        .ofList ((lowerCaseFields g isUpper t).map (warning g t))) := by
  unfold edges lowerCaseFields fields
  cases hkind : g.kind t with
  | struct fs => exact weigh_fields g isUpper t fs
  | slice elem | array elem | ptr elem | map elem key | other =>
    simp only [weigh, add_zero]
    rfl

/-- The printed lines without their order. -/
def lines : Reports →+ Multiset GoString where
  toFun r := (r.2.toList : Multiset GoString)
  map_zero' := rfl
  map_add' r r' := by simp

theorem lines_apply (r : Reports) : lines r = (r.2.toList : Multiset GoString) := rfl

/-- A map between states commutes with a loop if it does with every round. -/
theorem map_foldlM {σ σ' β : Type*} (φ : σ → σ') {f : σ → β → Option σ}
    {f' : σ' → β → Option σ'} (h : ∀ s b, (f s b).map φ = f' (φ s) b) (l : List β) (s : σ) :
    (l.foldlM f s).map φ = l.foldlM f' (φ s) := by
  induction l generalizing s with
  | nil => rfl
  | cons b l ih =>
    rw [List.foldlM_cons, List.foldlM_cons, ← h s b]
    cases f s b with
    | none => rfl
    | some t => exact ih t

variable [DecidableEq τ]

/-- checkType is the depth-first search over `edges`. -/
theorem checkType_toSearch (fuel : ℕ) (t : τ) (s : State τ) :
    (checkType g isUpper fuel t s).map State.toSearch =
      visit (edges g isUpper) fuel t s.toSearch := by
  induction fuel generalizing t s with
  | zero => rfl
  | succ fuel ih =>
    by_cases ht : t ∈ s.checked
    · rw [checkType, if_pos ht]
      exact (visit_of_mem (s := s.toSearch) ht).symm
    · rw [checkType, if_neg ht, visit_of_notMem (s := s.toSearch) ht, edges]
      dsimp only
      cases g.kind t with
      | struct fields =>
        rw [follow, List.foldlM_map]
        refine map_foldlM State.toSearch ?_ fields _
        intro s f
        rw [ih, toSearch_warn]
      | slice elem | array elem | ptr elem =>
        rw [ih, follow_weightless]
        rfl
      | map elem key =>
        dsimp only
        have helem : Option.map State.toSearch (checkType g isUpper fuel elem
            { s with checked := insert t s.checked }) =
            visit (edges g isUpper) fuel elem (s.toSearch.mark t) := ih elem _
        rw [follow_cons, Search.add_zero, ← helem]
        cases checkType g isUpper fuel elem { s with checked := insert t s.checked } with
        | none => rfl
        | some s' => exact (ih key s').trans (follow_weightless key).symm
      | other => rfl

theorem checkValues_toSearch (fuel : ℕ) (ts : List τ) (s : State τ) :
    (checkValues g isUpper fuel ts s).map State.toSearch =
      visitAll (edges g isUpper) fuel ts s.toSearch :=
  map_foldlM State.toSearch (fun s t => checkType_toSearch g isUpper fuel t s) ts s

end Search

/-- Calls from any state return, and one result serves all depths from the number of
types on. -/
theorem checkValues_terminates [Fintype τ] [DecidableEq τ] (g : Types τ)
    (isUpper : Char → Bool) (ts : List τ) (s₀ : State τ) :
    ∃ s, ∀ fuel, Fintype.card τ < fuel → checkValues g isUpper fuel ts s₀ = some s := by
  have hunseen : unseen s₀.toSearch < Fintype.card τ + 1 :=
    Nat.lt_succ_of_le (Finset.card_le_univ _)
  have hsome : (visitAll (edges g isUpper) (Fintype.card τ + 1) ts s₀.toSearch).isSome :=
    visitAll_isSome ts hunseen
  obtain ⟨r, hr⟩ := Option.isSome_iff_exists.mp hsome
  have hsearch := checkValues_toSearch g isUpper (Fintype.card τ + 1) ts s₀
  rw [hr] at hsearch
  obtain ⟨s, _, hsr⟩ := Option.map_eq_some_iff.mp hsearch
  refine ⟨s, ?_⟩
  intro fuel hfuel
  have hmore := checkValues_toSearch g isUpper fuel ts s₀
  rw [visitAll_mono hfuel hr, ← hsr] at hmore
  obtain ⟨s', hs', heq⟩ := Option.map_eq_some_iff.mp hmore
  rw [hs', toSearch_injective heq]

/-- The package before the first call. -/
def initial (errorCount : ℕ) : State τ := ⟨∅, errorCount, []⟩

theorem checkValues_counts_once [Fintype τ] [DecidableEq τ] (g : Types τ)
    (isUpper : Char → Bool) (ts : List τ) (errorCount : ℕ) :
    ∃ s, (∀ fuel, Fintype.card τ < fuel →
        checkValues g isUpper fuel ts (initial errorCount) = some s) ∧
      (∀ u, u ∈ s.checked ↔ ∃ t ∈ ts, Reaches g t u) ∧
      s.errorCount = errorCount + ∑ u ∈ s.checked, (lowerCaseFields g isUpper u).length ∧
      (s.printed : Multiset GoString) = ∑ u ∈ s.checked,
        ((lowerCaseFields g isUpper u).map (warning g u) : Multiset GoString) := by
  obtain ⟨s, hs⟩ := checkValues_terminates g isUpper ts (initial errorCount)
  have hsearch := checkValues_toSearch g isUpper (Fintype.card τ + 1) ts (initial errorCount)
  rw [hs _ (Nat.lt_succ_self _)] at hsearch
  refine ⟨s, hs, ?_, ?_, ?_⟩
  · intro u
    have hadj : Adj (edges g isUpper) = Refers g := by
      funext t u
      exact propext (adj_edges_iff g isUpper t u)
    have hseen := mem_seen_iff rfl hsearch.symm u
    rw [hadj] at hseen
    exact hseen
  · have htotal := (visitAll_explores (AddMonoidHom.fst ℕ _) hsearch.symm).1.total
    simpa [weigh_edges, initial, State.toSearch] using htotal
  · have htotal := (visitAll_explores lines hsearch.symm).1.total
    simpa [weigh_edges, initial, State.toSearch, lines_apply] using htotal

/-- The types of TestCapital: []map[*T4]int, and *[]map[T4]int for decoding. -/
inductive CapitalType
  | int | t4 | ptrT4 | mapPtrT4 | sliceMapPtrT4 | mapT4 | sliceMapT4 | ptrSliceMapT4
  deriving DecidableEq

def capitalTypes : Types CapitalType where
  name
    | .int => ascii "int"
    | .t4 => ascii "T4"
    | _ => []
  kind
    | .int => .other
    | .t4 => .struct [⟨ascii "Yes", .int⟩, ⟨ascii "no", .int⟩]
    | .ptrT4 => .ptr .t4
    | .mapPtrT4 => .map .int .ptrT4
    | .sliceMapPtrT4 => .slice .mapPtrT4
    | .mapT4 => .map .int .t4
    | .sliceMapT4 => .slice .mapT4
    | .ptrSliceMapT4 => .ptr .sliceMapT4

example : (checkValues capitalTypes Char.isUpper 9 [.sliceMapPtrT4, .ptrSliceMapT4]
    (initial 0)).map State.errorCount = some 1 := by
  decide +kernel

end DistributedLabs.Labgob
