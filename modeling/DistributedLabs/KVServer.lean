import Mathlib.Data.UInt
import Mathlib.Logic.Function.Basic

/-!
The versioned key/value server of kvsrv1. One goroutine owns the map and takes
operations from opQ one at a time, so the state after any number of requests is
a fold of `serve` over the order in which they were taken. Versions are uint64
and wrap; the bounds on the number of Puts appear where monotonicity is used.
-/
namespace DistributedLabs.KVServer

inductive Err
  | ok
  | errNoKey
  | errVersion
  | errMaybe
  | errWrongLeader
  | errWrongGroup
  deriving DecidableEq, Repr

abbrev Tversion := UInt64

structure PutArgs where
  key : String
  value : String
  version : Tversion
  deriving DecidableEq, Repr

structure PutReply where
  err : Err
  deriving DecidableEq, Repr

structure GetArgs where
  key : String
  deriving DecidableEq, Repr

structure GetReply where
  value : String
  version : Tversion
  err : Err
  deriving DecidableEq, Repr

structure KvValue where
  value : String
  version : Tversion
  deriving DecidableEq, Repr

/-- The kvOp taken from opQ, tagged with its type and carrying its arguments. -/
inductive KvOp
  | get (args : GetArgs)
  | put (args : PutArgs)
  deriving DecidableEq, Repr

/-- What is sent back on the operation's reply channel. -/
inductive KvReply
  | get (reply : GetReply)
  | put (reply : PutReply)
  deriving DecidableEq, Repr

/-- The server's `map[string]kvValue`. -/
abbrev KvMap := String → Option KvValue

def emptyKv : KvMap := fun _ => none

def KvOp.key : KvOp → String
  | .get args => args.key
  | .put args => args.key

/-- A Put request on the given key. -/
def KvOp.PutsOn (k : String) : KvOp → Bool
  | .get _ => false
  | .put args => args.key = k

def get (kv : KvMap) (args : GetArgs) : GetReply :=
  match kv args.key with
  | some v => ⟨v.value, v.version, .ok⟩
  | none => ⟨"", 0, .errNoKey⟩

def put (kv : KvMap) (args : PutArgs) : KvMap × PutReply :=
  match kv args.key with
  | some v =>
    if v.version ≠ args.version then
      (kv, ⟨.errVersion⟩)
    else
      (Function.update kv args.key (some ⟨args.value, v.version + 1⟩), ⟨.ok⟩)
  | none =>
    if args.version = 0 then
      (Function.update kv args.key (some ⟨args.value, 1⟩), ⟨.ok⟩)
    else
      (kv, ⟨.errNoKey⟩)

/-- One iteration of the server goroutine. -/
def serve (kv : KvMap) : KvOp → KvMap × KvReply
  | .get args => (kv, .get (get kv args))
  | .put args => ((put kv args).1, .put (put kv args).2)

/-- The version a Put must carry to be applied: 0 for an absent key. -/
def version (kv : KvMap) (k : String) : Tversion :=
  match kv k with
  | some v => v.version
  | none => 0

/-- The stored value, the empty string for an absent key. -/
def value (kv : KvMap) (k : String) : String :=
  match kv k with
  | some v => v.value
  | none => ""

/-- The reply that tells the client its Put was applied. -/
def KvReply.Applied (r : KvReply) : Prop := r = .put ⟨.ok⟩

instance (r : KvReply) : Decidable r.Applied := inferInstanceAs (Decidable (r = _))

/-- Put as a compare-and-set: exactly a matching version is applied, and the
two refusals tell a present key from an absent one. -/
theorem put_cases (kv : KvMap) (args : PutArgs) :
    (version kv args.key = args.version ∧ put kv args =
        (Function.update kv args.key (some ⟨args.value, args.version + 1⟩), ⟨.ok⟩)) ∨
      (version kv args.key ≠ args.version ∧ kv args.key ≠ none ∧
        put kv args = (kv, ⟨.errVersion⟩)) ∨
      (args.version ≠ 0 ∧ kv args.key = none ∧ put kv args = (kv, ⟨.errNoKey⟩)) := by
  cases h : kv args.key with
  | none =>
    by_cases hv : args.version = 0
    · left
      simp [version, put, h, hv]
    · right
      right
      simp [put, h, hv]
  | some v =>
    by_cases hv : v.version = args.version
    · left
      simp [version, put, h, hv]
    · right
      left
      simp [version, put, h, hv]

theorem put_ok_iff (kv : KvMap) (args : PutArgs) :
    (put kv args).2 = ⟨.ok⟩ ↔ version kv args.key = args.version := by
  rcases put_cases kv args with ⟨hv, hp⟩ | ⟨hv, _, hp⟩ | ⟨hv, hnone, hp⟩
  · simp [hp, hv]
  · simp [hp, hv]
  · simp [hp, version, hnone, Ne.symm hv]

/-- Serving a request changes the map only by answering an applied Put. -/
theorem serve_unapplied (kv : KvMap) (op : KvOp) (h : ¬ (serve kv op).2.Applied) :
    (serve kv op).1 = kv := by
  cases op with
  | get args => rfl
  | put args =>
    rcases put_cases kv args with ⟨_, hp⟩ | ⟨_, _, hp⟩ | ⟨_, _, hp⟩
    · simp [serve, hp, KvReply.Applied] at h
    · simp [serve, hp]
    · simp [serve, hp]

theorem serve_applied (kv : KvMap) (op : KvOp) (h : (serve kv op).2.Applied) :
    ∃ args, op = .put args ∧ version kv args.key = args.version ∧
      (serve kv op).1 =
        Function.update kv args.key (some ⟨args.value, args.version + 1⟩) := by
  cases op with
  | get args => simp [serve, KvReply.Applied] at h
  | put args =>
    rcases put_cases kv args with ⟨hv, hp⟩ | ⟨_, _, hp⟩ | ⟨_, _, hp⟩
    · exact ⟨args, rfl, hv, by simp [serve, hp]⟩
    · simp [serve, hp, KvReply.Applied] at h
    · simp [serve, hp, KvReply.Applied] at h

/-- A key that is present stays present: nothing deletes. -/
theorem serve_present (kv : KvMap) (op : KvOp) (k : String) (h : kv k ≠ none) :
    (serve kv op).1 k ≠ none := by
  by_cases happ : (serve kv op).2.Applied
  · obtain ⟨args, _, _, hkv⟩ := serve_applied kv op happ
    rw [hkv]
    by_cases hk : k = args.key
    · subst hk
      simp
    · simpa [hk] using h
  · rw [serve_unapplied kv op happ]
    exact h

/-- Requests served one after another from an empty map, newest last. -/
def replay (ops : List KvOp) : KvMap :=
  ops.foldl (fun kv op => (serve kv op).1) emptyKv

theorem replay_concat (ops : List KvOp) (op : KvOp) :
    replay (ops ++ [op]) = (serve (replay ops) op).1 := by
  simp [replay]

end DistributedLabs.KVServer
