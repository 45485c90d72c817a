import Mathlib.Data.List.TakeWhile
import Mathlib.Data.List.Range

/-!
A list cut into its fields: the maximal runs of elements that satisfy a predicate. One
pass collects them from left to right. They are the runs found by looking at each place of
the list by itself: a run starts where the element before, if any, does not satisfy the
predicate.
-/
namespace DistributedLabs.Fields

variable {α : Type*} (p : α → Bool)

/-- `field` is the field being read. -/
def fieldsFrom (field : List α) : List α → List (List α)
  | [] => if field = [] then [] else [field]
  | a :: rest =>
    if p a then fieldsFrom (field ++ [a]) rest
    else if field = [] then fieldsFrom [] rest
    else field :: fieldsFrom [] rest

def fields (l : List α) : List (List α) := fieldsFrom p [] l

/-- The run that starts at place `i`, empty if none does. -/
def runAt (l : List α) (i : ℕ) : List α :=
  if (l.take i).getLast?.any p then [] else (l.drop i).takeWhile p

def runs (l : List α) : List (List α) :=
  ((List.range l.length).map (runAt p l)).filter fun run => run ≠ []

variable {p}

end DistributedLabs.Fields
