import DistributedLabs.Transition
import Mathlib.Data.Finmap
import Mathlib.Data.Finset.Dedup

/-!
Calls multiplexed over one connection. Each SendReceive draws a tag, registers a
channel for it in the callMap, writes its request and waits; the one reader of
the client matches what comes back by tag, and when the connection fails it
closes the callMap and fails whatever is still registered. The peer answers each
request in a goroutine of its own. A message carries, beside what is on the wire,
the number of the call it belongs to; no step looks at that number.
-/
namespace DistributedLabs.Demux

open Transition

abbrev Ttag := UInt32

/-- The transport's msg; `origin` is not on the wire. -/
structure Msg where
  tag : Ttag
  data : List UInt8
  ok : Bool
  origin : ℕ
  deriving DecidableEq, Repr

structure Reply where
  rep : List UInt8
  ok : Bool
  err : Option String
  deriving DecidableEq, Repr

/-- What put's error makes SendReceive return. -/
def Reply.connClosed : Reply := ⟨[], false, some "conn closed"⟩

def Reply.readerFail : Reply := ⟨[], false, some "reader reply fail"⟩

/-- A channel is named by the number of the call that made it. -/
structure CallMap where
  closed : Bool
  calls : Finmap fun _ : Ttag => ℕ

namespace CallMap

def newCallMap : CallMap := ⟨false, ∅⟩

def close (cm : CallMap) : CallMap := { cm with closed := true }

/-- None is the error of a closed map. -/
def put (cm : CallMap) (tag : Ttag) (ch : ℕ) : Option CallMap :=
  if cm.closed then none else some { cm with calls := cm.calls.insert tag ch }

def remove (cm : CallMap) (tag : Ttag) : Option (ℕ × CallMap) :=
  (cm.calls.lookup tag).map fun ch => (ch, { cm with calls := cm.calls.erase tag })

/-- The lists that outstanding may return, by the order of its range. -/
def Outstanding (cm : CallMap) (ts : List Ttag) : Prop :=
  ts.Nodup ∧ ts.toFinset = cm.calls.keys

instance (cm : CallMap) (ts : List Ttag) : Decidable (cm.Outstanding ts) :=
  inferInstanceAs (Decidable (_ ∧ _))

theorem put_eq_some {cm cm' : CallMap} {tag : Ttag} {ch : ℕ} (h : cm.put tag ch = some cm') :
    cm.closed = false ∧ cm' = { cm with calls := cm.calls.insert tag ch } := by
  cases hclosed : cm.closed with
  | true => simp [put, hclosed] at h
  | false => exact ⟨rfl, by simpa [put, hclosed, eq_comm] using h⟩

theorem put_eq_none {cm : CallMap} {tag : Ttag} {ch : ℕ} :
    cm.put tag ch = none ↔ cm.closed = true := by
  cases hclosed : cm.closed <;> simp [put, hclosed]

end CallMap

/-- Where a SendReceive stands: its tag drawn, its channel in the callMap, its
request written and itself at the channel, or returned. -/
inductive Pc
  | tagged
  | registered
  | waiting
  | returned (r : Reply)
  deriving DecidableEq, Repr

def Pc.isReturned : Pc → Bool
  | .returned _ => true
  | _ => false

structure Call where
  tag : Ttag
  req : List UInt8
  pc : Pc
  deriving DecidableEq, Repr

/-- The client's reader: at ReadCall, with a message, at a call's channel (on its
way back to ReadCall, or with tags left to fail), after the failed ReadCall,
after closing the callMap, failing the outstanding tags, at its end, or stopped
by log.Fatalf for a tag that is not in the callMap. -/
inductive Reader
  | reading
  | got (m : Msg)
  | sending (ch : ℕ) (r : Reply) (rest : Option (List Ttag))
  | failed
  | closed
  | draining (ts : List Ttag)
  | stopped
  | fatal (tag : Ttag)
  deriving DecidableEq, Repr

/-- The peer: before it has the InitMsg, in its reader, or out of it. -/
inductive Srv
  | init
  | reading
  | stopped
  deriving DecidableEq, Repr

/-- A goroutine of DemuxSrv.reader, with what ServeRequest returned. -/
structure Handler where
  tag : Ttag
  req : List UInt8
  origin : ℕ
  result : Option (List UInt8 × Bool)
  deriving DecidableEq, Repr

/-- One call of ServeRequest and what it returned. -/
structure Served where
  origin : ℕ
  req : List UInt8
  rep : List UInt8
  ok : Bool
  deriving DecidableEq, Repr

/-- `issued` counts the tags drawn, `checked` and `closing` the Close calls past
isClosed and past the transport's Close. `served`, `registered` and `delivered`
record the calls of ServeRequest, the puts and the replies handed over. -/
structure State where
  nextTag : Ttag
  issued : ℕ
  calls : ℕ → Option Call
  callmap : CallMap
  reader : Reader
  checked : ℕ
  closing : ℕ
  broken : Bool
  toSrv : List Msg
  toClnt : List Msg
  srv : Srv
  serving : List Handler
  served : List Served
  registered : List ℕ
  delivered : List ℕ

/-- After NewDemuxClnt, whose InitMsg took the first tag. -/
def initial : State where
  nextTag := 1
  issued := 1
  calls := fun _ => none
  callmap := .newCallMap
  reader := .reading
  checked := 0
  closing := 0
  broken := false
  toSrv := []
  toClnt := []
  srv := .init
  serving := []
  served := []
  registered := []
  delivered := []

inductive Label
  | send (req : List UInt8)
  | put (id : ℕ)
  | write (id : ℕ) (delivered : Bool)
  | read
  | readErr
  | reply
  | handOver
  | closeCallmap
  | outstanding (ts : List Ttag)
  | isClosed
  | closeTrans
  | closeDone
  | fail
  | srvInit
  | srvRead
  | srvErr
  | serve (v : Handler) (rep : List UInt8) (ok : Bool)
  | srvWrite (v : Handler) (delivered : Bool)
  deriving DecidableEq, Repr

namespace State

def outstanding (s : State) (id : ℕ) : Bool := (s.calls id).any fun c => !c.pc.isReturned

/-- No call has been outstanding while 2^32 further tags were issued. -/
def TagFree (s : State) : Prop :=
  ∀ id < s.issued, s.outstanding id = true → s.issued < id + 2 ^ 32

instance (s : State) : Decidable s.TagFree := inferInstanceAs (Decidable (∀ _ < _, _))

def goto (s : State) (id : ℕ) (c : Call) (pc : Pc) : State :=
  { s with calls := Function.update s.calls id (some { c with pc }) }

/-- SendReceive draws its tag. -/
def begin (s : State) (req : List UInt8) : State :=
  { s with
    nextTag := s.nextTag + 1
    issued := s.issued + 1
    calls := Function.update s.calls s.issued (some ⟨s.nextTag, req, .tagged⟩) }

def register (s : State) (id : ℕ) (c : Call) (cm : CallMap) : State :=
  { s.goto id c .registered with callmap := cm, registered := s.registered ++ [id] }

def writeCall (s : State) (id : ℕ) (c : Call) : State :=
  { s.goto id c .waiting with toSrv := s.toSrv ++ [⟨c.tag, c.req, true, id⟩] }

/-- DemuxClnt.reply up to its send. -/
def reply (s : State) (tag : Ttag) (r : Reply) (rest : Option (List Ttag)) : State :=
  match s.callmap.remove tag with
  | some (ch, cm) => { s with callmap := cm, reader := .sending ch r rest }
  | none => { s with reader := .fatal tag }

/-- Where the reader goes on after a reply. -/
def resume : Option (List Ttag) → Reader
  | none => .reading
  | some ts => .draining ts

/-- `ch <- reply`, and SendReceive returns it. -/
def handOver (s : State) (id : ℕ) (c : Call) (r : Reply) (rest : Option (List Ttag)) : State :=
  { s.goto id c (.returned r) with reader := resume rest, delivered := s.delivered ++ [id] }

def spawn (s : State) (m : Msg) (rest : List Msg) : State :=
  { s with toSrv := rest, serving := ⟨m.tag, m.data, m.origin, none⟩ :: s.serving }

def serve (s : State) (v : Handler) (rep : List UInt8) (ok : Bool) : State :=
  { s with
    serving := { v with result := some (rep, ok) } :: s.serving.erase v
    served := s.served ++ [⟨v.origin, v.req, rep, ok⟩] }

/-- The goroutine's WriteCall, and its end. -/
def srvWrite (s : State) (v : Handler) (rep : List UInt8) (ok : Bool) : State :=
  { s with
    serving := s.serving.erase v
    toClnt := s.toClnt ++ [⟨v.tag, rep, ok, v.origin⟩] }

end State

/-- A connection delivers in order. Once it is broken, by a failure or by the
Close of either side, a ReadCall may fail, and a WriteCall may be lost; what had
arrived before may still be read. -/
def step (s : State) : Label → Option State
  | .send req => if s.TagFree then some (s.begin req) else none
  | .put id =>
    match s.calls id with
    | some c =>
      if c.pc = .tagged then
        match s.callmap.put c.tag id with
        | some cm => some (s.register id c cm)
        | none => some (s.goto id c (.returned .connClosed))
      else none
    | none => none
  | .write id delivered =>
    match s.calls id with
    | some c =>
      if c.pc = .registered then
        if delivered then some (s.writeCall id c)
        else if s.broken then some (s.goto id c .waiting) else none
      else none
    | none => none
  | .read =>
    match s.reader, s.toClnt with
    | .reading, m :: rest => some { s with reader := .got m, toClnt := rest }
    | _, _ => none
  | .readErr =>
    match s.reader with
    | .reading => if s.broken then some { s with reader := .failed } else none
    | _ => none
  | .reply =>
    match s.reader with
    | .got m => some (s.reply m.tag ⟨m.data, m.ok, none⟩ none)
    | .draining (t :: ts) => some (s.reply t .readerFail (some ts))
    | .draining [] => some { s with reader := .stopped }
    | _ => none
  | .handOver =>
    match s.reader with
    | .sending id r rest =>
      match s.calls id with
      | some c => if c.pc = .waiting then some (s.handOver id c r rest) else none
      | none => none
    | _ => none
  | .closeCallmap =>
    match s.reader with
    | .failed => some { s with callmap := s.callmap.close, reader := .closed }
    | _ => none
  | .outstanding ts =>
    match s.reader with
    | .closed => if s.callmap.Outstanding ts then some { s with reader := .draining ts } else none
    | _ => none
  | .isClosed => if s.callmap.closed then none else some { s with checked := s.checked + 1 }
  | .closeTrans =>
    if 0 < s.checked then
      some { s with checked := s.checked - 1, closing := s.closing + 1, broken := true }
    else none
  | .closeDone =>
    if 0 < s.closing then some { s with closing := s.closing - 1, callmap := s.callmap.close }
    else none
  | .fail => some { s with broken := true }
  | .srvInit => if s.srv = .init then some { s with srv := .reading } else none
  | .srvRead =>
    match s.toSrv with
    | m :: rest => if s.srv = .reading then some (s.spawn m rest) else none
    | [] => none
  | .srvErr =>
    if s.broken ∧ s.srv ≠ .stopped then some { s with srv := .stopped } else none
  | .serve v rep ok =>
    if v ∈ s.serving ∧ v.result = none then some (s.serve v rep ok) else none
  | .srvWrite v delivered =>
    match v.result with
    | some (rep, ok) =>
      if v ∈ s.serving then
        if delivered then some (s.srvWrite v rep ok)
        else if s.broken then some { s with serving := s.serving.erase v } else none
      else none
    | none => none

def system : System State Label where
  start s := s = initial
  step := step

/-- What each label can do, with its guard. -/
inductive Step (s : State) : Label → State → Prop
  | send (req : List UInt8) (hfree : s.TagFree) : Step s (.send req) (s.begin req)
  | put {id : ℕ} {c : Call} {cm : CallMap} (hc : s.calls id = some c) (hpc : c.pc = .tagged)
      (hput : s.callmap.put c.tag id = some cm) : Step s (.put id) (s.register id c cm)
  | refuse {id : ℕ} {c : Call} (hc : s.calls id = some c) (hpc : c.pc = .tagged)
      (hput : s.callmap.put c.tag id = none) :
      Step s (.put id) (s.goto id c (.returned .connClosed))
  | write {id : ℕ} {c : Call} (hc : s.calls id = some c) (hpc : c.pc = .registered) :
      Step s (.write id true) (s.writeCall id c)
  | writeLost {id : ℕ} {c : Call} (hc : s.calls id = some c) (hpc : c.pc = .registered)
      (hbroken : s.broken = true) : Step s (.write id false) (s.goto id c .waiting)
  | read {m : Msg} {rest : List Msg} (hreader : s.reader = .reading)
      (hclnt : s.toClnt = m :: rest) : Step s .read { s with reader := .got m, toClnt := rest }
  | readErr (hreader : s.reader = .reading) (hbroken : s.broken = true) :
      Step s .readErr { s with reader := .failed }
  | reply {m : Msg} (hreader : s.reader = .got m) :
      Step s .reply (s.reply m.tag ⟨m.data, m.ok, none⟩ none)
  | replyFail {t : Ttag} {ts : List Ttag} (hreader : s.reader = .draining (t :: ts)) :
      Step s .reply (s.reply t .readerFail (some ts))
  | stop (hreader : s.reader = .draining []) : Step s .reply { s with reader := .stopped }
  | handOver {id : ℕ} {c : Call} {r : Reply} {rest : Option (List Ttag)}
      (hreader : s.reader = .sending id r rest) (hc : s.calls id = some c)
      (hpc : c.pc = .waiting) : Step s .handOver (s.handOver id c r rest)
  | closeCallmap (hreader : s.reader = .failed) :
      Step s .closeCallmap { s with callmap := s.callmap.close, reader := .closed }
  | outstanding {ts : List Ttag} (hreader : s.reader = .closed)
      (hts : s.callmap.Outstanding ts) :
      Step s (.outstanding ts) { s with reader := .draining ts }
  | isClosed (hopen : s.callmap.closed = false) :
      Step s .isClosed { s with checked := s.checked + 1 }
  | closeTrans (hchecked : 0 < s.checked) : Step s .closeTrans
      { s with checked := s.checked - 1, closing := s.closing + 1, broken := true }
  | closeDone (hclosing : 0 < s.closing) : Step s .closeDone
      { s with closing := s.closing - 1, callmap := s.callmap.close }
  | fail : Step s .fail { s with broken := true }
  | srvInit (hpeer : s.srv = .init) : Step s .srvInit { s with srv := .reading }
  | srvRead {m : Msg} {rest : List Msg} (hsrv : s.toSrv = m :: rest)
      (hpeer : s.srv = .reading) : Step s .srvRead (s.spawn m rest)
  | srvErr (hbroken : s.broken = true) (hpeer : s.srv ≠ .stopped) :
      Step s .srvErr { s with srv := .stopped }
  | serve {v : Handler} (rep : List UInt8) (ok : Bool) (hv : v ∈ s.serving)
      (hres : v.result = none) : Step s (.serve v rep ok) (s.serve v rep ok)
  | srvWrite {v : Handler} {rep : List UInt8} {ok : Bool} (hv : v ∈ s.serving)
      (hres : v.result = some (rep, ok)) : Step s (.srvWrite v true) (s.srvWrite v rep ok)
  | srvWriteLost {v : Handler} {rep : List UInt8} {ok : Bool} (hv : v ∈ s.serving)
      (hres : v.result = some (rep, ok)) (hbroken : s.broken = true) :
      Step s (.srvWrite v false) { s with serving := s.serving.erase v }

theorem step_sound {s t : State} {l : Label} (h : step s l = some t) : Step s l t := by
  cases l with
  | send req =>
    obtain ⟨hfree, rfl⟩ : s.TagFree ∧ s.begin req = t := by simpa [step] using h
    exact .send req hfree
  | put id =>
    simp only [step] at h
    split at h
    · rename_i c hc
      split at h
      · rename_i hpc
        split at h
        · rename_i cm hput
          cases h
          exact .put hc hpc hput
        · rename_i hput
          cases h
          exact .refuse hc hpc hput
      · cases h
    · cases h
  | write id delivered =>
    simp only [step] at h
    split at h
    · rename_i c hc
      split at h
      · rename_i hpc
        cases delivered with
        | true =>
          cases h
          exact .write hc hpc
        | false =>
          obtain ⟨hbroken, rfl⟩ : s.broken = true ∧ s.goto id c .waiting = t := by
            simpa using h
          exact .writeLost hc hpc hbroken
      · cases h
    · cases h
  | read =>
    simp only [step] at h
    split at h
    · rename_i m rest hreader hclnt
      cases h
      exact .read hreader hclnt
    · cases h
  | readErr =>
    simp only [step] at h
    split at h
    · rename_i hreader
      obtain ⟨hbroken, rfl⟩ : s.broken = true ∧ _ = t := by simpa using h
      exact .readErr hreader hbroken
    · cases h
  | reply =>
    simp only [step] at h
    split at h
    · rename_i m hreader
      cases h
      exact .reply hreader
    · rename_i tag ts hreader
      cases h
      exact .replyFail hreader
    · rename_i hreader
      cases h
      exact .stop hreader
    · cases h
  | handOver =>
    simp only [step] at h
    split at h
    · rename_i id r rest hreader
      split at h
      · rename_i c hc
        obtain ⟨hpc, rfl⟩ : c.pc = .waiting ∧ s.handOver id c r rest = t := by simpa using h
        exact .handOver hreader hc hpc
      · cases h
    · cases h
  | closeCallmap =>
    simp only [step] at h
    split at h
    · rename_i hreader
      cases h
      exact .closeCallmap hreader
    · cases h
  | outstanding ts =>
    simp only [step] at h
    split at h
    · rename_i hreader
      obtain ⟨hts, rfl⟩ : s.callmap.Outstanding ts ∧ _ = t := by simpa using h
      exact .outstanding hreader hts
    · cases h
  | isClosed =>
    obtain ⟨hopen, rfl⟩ : s.callmap.closed = false ∧ _ = t := by simpa [step] using h
    exact .isClosed hopen
  | closeTrans =>
    obtain ⟨hchecked, rfl⟩ : 0 < s.checked ∧ _ = t := by simpa [step] using h
    exact .closeTrans hchecked
  | closeDone =>
    obtain ⟨hclosing, rfl⟩ : 0 < s.closing ∧ _ = t := by simpa [step] using h
    exact .closeDone hclosing
  | fail =>
    cases h
    exact .fail
  | srvInit =>
    obtain ⟨hpeer, rfl⟩ : s.srv = .init ∧ _ = t := by simpa [step] using h
    exact .srvInit hpeer
  | srvRead =>
    simp only [step] at h
    split at h
    · rename_i m rest hsrv
      obtain ⟨hpeer, rfl⟩ : s.srv = .reading ∧ s.spawn m rest = t := by simpa using h
      exact .srvRead hsrv hpeer
    · cases h
  | srvErr =>
    obtain ⟨⟨hbroken, hpeer⟩, rfl⟩ : (s.broken = true ∧ s.srv ≠ .stopped) ∧ _ = t := by
      simpa [step] using h
    exact .srvErr hbroken hpeer
  | serve v rep ok =>
    obtain ⟨⟨hv, hres⟩, rfl⟩ : (v ∈ s.serving ∧ v.result = none) ∧ s.serve v rep ok = t := by
      simpa [step] using h
    exact .serve rep ok hv hres
  | srvWrite v delivered =>
    simp only [step] at h
    split at h
    · rename_i rep ok hres
      split at h
      · rename_i hv
        cases delivered with
        | true =>
          cases h
          exact .srvWrite hv hres
        | false =>
          obtain ⟨hbroken, rfl⟩ : s.broken = true ∧ _ = t := by simpa using h
          exact .srvWriteLost hv hres hbroken
      · cases h
    · cases h

end DistributedLabs.Demux
