import Mathlib.Data.List.TakeDrop
import Mathlib.Tactic.Common

/-!
Buffered reading and writing on a connection, after io.ReadFull and the readers
and writers of bufio. A reader meets the incoming bytes in pieces of any size; a
connection that fails takes only so many bytes of what is written to it.
-/
namespace DistributedLabs.Bufio

inductive Error
  | eof
  | unexpectedEOF
  | other (text : String)
  deriving DecidableEq, Repr

variable {β : Type*}

/-- The pieces that the reads of a connection meet one after another, and what a
read returns once there are no more. -/
structure Source (β : Type*) where
  chunks : List (List β)
  stop : Error

/-- Read with room for n bytes: at most one piece. -/
def Source.read (s : Source β) (n : ℕ) : Except Error (List β) × Source β :=
  match s.chunks with
  | [] => (.error s.stop, s)
  | c :: chunks =>
    (.ok (c.take n), { s with chunks := if c.length ≤ n then chunks else c.drop n :: chunks })

structure Reader (β : Type*) where
  size : ℕ
  buf : List β
  source : Source β

def newReaderSize (source : Source β) (size : ℕ) : Reader β := ⟨size, [], source⟩

namespace Reader

/-- At most one read of the connection, past the buffer when there is room for at
least as much as it holds. -/
def read (r : Reader β) (n : ℕ) : Except Error (List β) × Reader β :=
  if r.buf.isEmpty then
    if r.size ≤ n then ((r.source.read n).1, { r with source := (r.source.read n).2 })
    else
      match r.source.read r.size with
      | (.error e, source) => (.error e, { r with source })
      | (.ok b, source) => (.ok (b.take n), { r with buf := b.drop n, source })
  else (.ok (r.buf.take n), { r with buf := r.buf.drop n })

/-- What is still to be read. -/
def pending (r : Reader β) : List β := r.buf ++ r.source.chunks.flatten

/-- Every read takes bytes or finishes an empty piece. -/
def weight (r : Reader β) : ℕ := r.pending.length + r.source.chunks.length

end Reader

theorem Source.read_spec (s : Source β) {n : ℕ} (hn : 0 < n) :
    (s.chunks = [] ∧ s.read n = (.error s.stop, s)) ∨
      ∃ b s', s.read n = (.ok b, s') ∧ b.length ≤ n ∧
        b ++ s'.chunks.flatten = s.chunks.flatten ∧ s'.chunks.length ≤ s.chunks.length ∧
        (b = [] → s'.chunks.length < s.chunks.length) := by
  rcases s with ⟨_ | ⟨c, chunks⟩, stop⟩
  · exact Or.inl ⟨rfl, rfl⟩
  · refine Or.inr ⟨_, _, rfl, List.length_take_le n c, ?_⟩
    by_cases hc : c.length ≤ n
    · simp [hc, List.take_of_length_le hc]
    · simp only [hc, if_false, List.flatten_cons, List.length_cons, Nat.le_refl, true_and,
        ← List.append_assoc, List.take_append_drop]
      intro hnil
      simp only [List.take_eq_nil_iff] at hnil
      rcases hnil with rfl | rfl
      · exact absurd hn (Nat.lt_irrefl 0)
      · exact absurd (Nat.zero_le n) hc

/-- With an empty buffer both ways of reading come to one read of the connection
whose bytes are split between the caller and the buffer. -/
theorem Reader.read_of_isEmpty {r : Reader β} (hbuf : r.buf = []) {n : ℕ} (hn : 0 < n) :
    (r.source.chunks = [] ∧ r.read n = (.error r.source.stop, r)) ∨
      ∃ b source, r.read n = (.ok (b.take n), { r with buf := b.drop n, source }) ∧
        b ++ source.chunks.flatten = r.source.chunks.flatten ∧
        source.chunks.length ≤ r.source.chunks.length ∧
        (b = [] → source.chunks.length < r.source.chunks.length) := by
  rcases r with ⟨size, buf, source⟩
  subst hbuf
  by_cases hsize : size ≤ n
  · rcases source.read_spec hn with ⟨hempty, hread⟩ | ⟨b, source', hread, hb, hrest⟩
    · exact Or.inl ⟨hempty, by simp [Reader.read, hsize, hread]⟩
    · refine Or.inr ⟨b, source', ?_, hrest⟩
      simp [Reader.read, hsize, hread, List.take_of_length_le hb, hb]
  · have hpos : 0 < size := by omega
    rcases source.read_spec hpos with ⟨hempty, hread⟩ | ⟨b, source', hread, _, hrest⟩
    · exact Or.inl ⟨hempty, by simp [Reader.read, hsize, hread]⟩
    · exact Or.inr ⟨b, source', by simp [Reader.read, hsize, hread], hrest⟩

theorem Reader.read_spec (r : Reader β) {n : ℕ} (hn : 0 < n) :
    (r.pending = [] ∧ ∃ e r', r.read n = (.error e, r') ∧ r'.pending = []) ∨
      ∃ b r', r.read n = (.ok b, r') ∧ b.length ≤ n ∧ b ++ r'.pending = r.pending ∧
        r'.weight < r.weight := by
  rcases hbuf : r.buf with _ | ⟨x, buf⟩
  · rcases Reader.read_of_isEmpty hbuf hn with
      ⟨hempty, hread⟩ | ⟨b, source, hread, happ, hle, hlt⟩
    · have hpending : r.pending = [] := by simp [Reader.pending, hbuf, hempty]
      exact Or.inl ⟨hpending, _, r, hread, hpending⟩
    · refine Or.inr ⟨_, _, hread, List.length_take_le n b, ?_, ?_⟩
      · rw [Reader.pending, Reader.pending, hbuf, List.nil_append, ← happ, ← List.append_assoc,
          List.take_append_drop]
      · have hlen := congrArg List.length happ
        rw [List.length_append] at hlen
        simp only [Reader.weight, Reader.pending, hbuf, List.nil_append, List.length_append,
          List.length_drop]
        rcases b with _ | ⟨y, b⟩
        · have hfewer := hlt rfl
          simp only [List.length_nil] at hlen ⊢
          omega
        · rw [List.length_cons] at hlen ⊢
          omega
  · refine Or.inr ⟨r.buf.take n, { r with buf := r.buf.drop n }, by simp [Reader.read, hbuf],
      List.length_take_le n _, ?_, ?_⟩
    · rw [Reader.pending, Reader.pending, ← List.append_assoc, List.take_append_drop]
    · simp only [Reader.weight, Reader.pending, List.length_append, List.length_drop, hbuf,
        List.length_cons]
      omega

set_option linter.unusedVariables false in
/-- The loop of io.ReadFull: read until n bytes are there or a read fails. -/
def readLoop (r : Reader β) (n : ℕ) (got : List β) : List β × Option Error × Reader β :=
  if hmore : got.length < n then
    match hread : r.read (n - got.length) with
    | (.error e, r') => (got, some e, r')
    | (.ok b, r') => readLoop r' n (got ++ b)
  else (got, none, r)
termination_by r.weight
decreasing_by
  rcases r.read_spec (Nat.sub_pos_of_lt hmore) with ⟨_, e, r₁, hr₁, _⟩ | ⟨b₁, r₁, hr₁, _, _, hlt⟩
  · rw [hread] at hr₁
    cases hr₁
  · rw [hread] at hr₁
    cases hr₁
    exact hlt

def readFull (r : Reader β) (n : ℕ) : List β × Option Error × Reader β :=
  match readLoop r n [] with
  | (b, err, r) =>
    if n ≤ b.length then (b, none, r)
    else if 0 < b.length ∧ err = some .eof then (b, some .unexpectedEOF, r)
    else (b, err, r)

/-- However the bytes arrive, the loop ends with as many of them as it needs, or
with all there are and an error. -/
theorem readLoop_spec (r : Reader β) (n : ℕ) (got : List β) (hgot : got.length ≤ n) :
    (n ≤ got.length + r.pending.length →
      (readLoop r n got).1 = got ++ r.pending.take (n - got.length) ∧
      (readLoop r n got).2.2.pending = r.pending.drop (n - got.length)) ∧
    (got.length + r.pending.length < n →
      (readLoop r n got).1 = got ++ r.pending ∧ (readLoop r n got).2.1 ≠ none ∧
      (readLoop r n got).2.2.pending = []) := by
  fun_induction readLoop r n got with
  | case1 r got hmore e r' hread =>
    rcases r.read_spec (Nat.sub_pos_of_lt hmore) with ⟨hempty, e₁, r₁, hr₁, hdone⟩ | ⟨_, _, hr₁, _⟩
    · rw [hread] at hr₁
      cases hr₁
      refine ⟨?_, ?_⟩
      · intro hle
        simp only [hempty, List.length_nil] at hle
        omega
      · intro _
        simp [hempty, hdone]
    · rw [hread] at hr₁
      cases hr₁
  | case2 r got hmore b r' hread ih =>
    rcases r.read_spec (Nat.sub_pos_of_lt hmore) with ⟨_, _, _, hr₁, _⟩ | ⟨b₁, r₁, hr₁, hb, happ, _⟩
    · rw [hread] at hr₁
      cases hr₁
    · rw [hread] at hr₁
      cases hr₁
      have hlen : (got ++ b).length = got.length + b.length := List.length_append
      have htotal := congrArg List.length happ
      rw [List.length_append] at htotal
      obtain ⟨hfull, hshort⟩ := ih (by omega)
      refine ⟨?_, ?_⟩
      · intro hle
        obtain ⟨hbytes, hrest⟩ := hfull (by omega)
        have hsub : n - got.length = b.length + (n - (got ++ b).length) := by omega
        rw [hbytes, hrest, ← happ, hsub, List.take_length_add_append, List.drop_length_add_append,
          List.append_assoc]
        exact ⟨rfl, rfl⟩
      · intro hlt
        obtain ⟨hbytes, herr, hrest⟩ := hshort (by omega)
        rw [hbytes, ← happ, List.append_assoc]
        exact ⟨rfl, herr, hrest⟩
  | case3 r got hmore =>
    have heq : n - got.length = 0 := by omega
    refine ⟨?_, ?_⟩
    · intro _
      simp [heq]
    · intro hlt
      omega

theorem readFull_of_le {r : Reader β} {n : ℕ} (h : n ≤ r.pending.length) :
    ∃ r', readFull r n = (r.pending.take n, none, r') ∧ r'.pending = r.pending.drop n := by
  obtain ⟨hbytes, hrest⟩ := (readLoop_spec r n [] (Nat.zero_le n)).1 (by simpa using h)
  rcases hloop : readLoop r n [] with ⟨b, err, r'⟩
  rw [hloop] at hbytes hrest
  simp only [List.nil_append, List.length_nil, Nat.sub_zero] at hbytes hrest
  have hlen : n ≤ b.length := by
    rw [hbytes, List.length_take]
    omega
  refine ⟨r', ?_, hrest⟩
  rw [readFull, hloop, ← hbytes]
  exact if_pos hlen

theorem readFull_of_lt {r : Reader β} {n : ℕ} (h : r.pending.length < n) :
    ∃ b e r', readFull r n = (b, some e, r') ∧ r'.pending = [] := by
  obtain ⟨hbytes, herr, hrest⟩ := (readLoop_spec r n [] (Nat.zero_le n)).2 (by simpa using h)
  rcases hloop : readLoop r n [] with ⟨b, err, r'⟩
  rw [hloop] at hbytes herr hrest
  have hlen : ¬ n ≤ b.length := by
    rw [show b = r.pending by simpa using hbytes]
    omega
  obtain ⟨e, rfl⟩ := Option.ne_none_iff_exists'.mp herr
  simp only [readFull, hloop, hlen, if_false]
  split
  · exact ⟨b, _, r', rfl, hrest⟩
  · exact ⟨b, e, r', rfl, hrest⟩

/-- The bytes that a connection took, and how many it takes in all before its
writes fail; none if they never do. -/
structure Sink (β : Type*) where
  sent : List β
  limit : Option ℕ
  broken : Error

/-- What a connection takes of all that is written to it. -/
def clip (limit : Option ℕ) (bytes : List β) : List β :=
  match limit with
  | none => bytes
  | some k => bytes.take k

/-- The number of bytes taken, the error if that is not all of them. -/
def Sink.write (s : Sink β) (p : List β) : ℕ × Option Error × Sink β :=
  let sent := clip s.limit (s.sent ++ p)
  let n := sent.length - s.sent.length
  (n, if n < p.length then some s.broken else none, { s with sent })

structure Writer (β : Type*) where
  size : ℕ
  buf : List β
  err : Option Error
  sink : Sink β

def newWriterSize (sink : Sink β) (size : ℕ) : Writer β := ⟨size, [], none, sink⟩

namespace Writer

/-- Write to the connection past the empty buffer. -/
def direct (w : Writer β) (p : List β) : Writer β :=
  match w.sink.write p with
  | (_, err, sink) => { w with err, sink }

def flush (w : Writer β) : Writer β :=
  if w.err.isSome || w.buf.isEmpty then w
  else
    match w.sink.write w.buf with
    | (_, none, sink) => { w with buf := [], sink }
    | (n, some e, sink) => { w with buf := w.buf.drop n, err := some e, sink }

/-- The loop of Write runs at most twice: what does not fit fills up the buffer,
and what does not fit into the emptied buffer is not buffered. -/
def write (w : Writer β) (p : List β) : Writer β :=
  if w.err.isSome then w
  else
    let n := w.size - w.buf.length
    if p.length ≤ n then { w with buf := w.buf ++ p }
    else if w.buf.isEmpty then w.direct p
    else
      let w := { w with buf := w.buf ++ p.take n }.flush
      if w.err.isSome then w
      else if (p.drop n).length ≤ w.size then { w with buf := p.drop n }
      else w.direct (p.drop n)

end Writer

theorem clip_append_of_ne {limit : Option ℕ} {bytes : List β} (h : clip limit bytes ≠ bytes)
    (p : List β) : clip limit (bytes ++ p) = clip limit bytes ∧
      clip limit (bytes ++ p) ≠ bytes ++ p := by
  rcases limit with _ | k
  · exact absurd rfl h
  · have hlt : k < bytes.length := by
      by_contra hle
      exact h (List.take_of_length_le (by omega))
    have heq : clip (some k) (bytes ++ p) = clip (some k) bytes :=
      List.take_append_of_le_length (by omega)
    refine ⟨heq, ?_⟩
    intro hall
    have hlen := congrArg List.length hall
    simp only [clip, List.length_take, List.length_append] at hlen
    omega

theorem Sink.write_spec {s : Sink β} (hs : clip s.limit s.sent = s.sent) (p : List β) :
    ((s.write p).2.1 = none ↔ clip s.limit (s.sent ++ p) = s.sent ++ p) := by
  rcases s with ⟨sent, _ | k, broken⟩
  · simp [Sink.write, clip]
  · have hle : sent.length ≤ k := by
      have hlen := congrArg List.length hs
      simp only [clip, List.length_take] at hlen
      omega
    simp only [Sink.write, clip, List.length_take, List.length_append, List.take_eq_self_iff,
      ite_eq_right_iff, reduceCtorEq, imp_false]
    omega

/-- A working connection has taken what it was given, and a failed one its part. -/
inductive Writer.Carries (limit : Option ℕ) (stream : List β) (w : Writer β) : Prop
  | up (hlimit : w.sink.limit = limit) (herr : w.err = none)
      (hstream : w.sink.sent ++ w.buf = stream) (hsent : clip limit w.sink.sent = w.sink.sent)
  | down (hlimit : w.sink.limit = limit) (herr : w.err ≠ none)
      (hsent : w.sink.sent = clip limit stream) (hshort : clip limit stream ≠ stream)

namespace Writer

variable {limit : Option ℕ} {stream : List β} {w : Writer β}

theorem carries_direct (hlimit : w.sink.limit = limit) (hbuf : w.buf = [])
    (hsent : clip limit w.sink.sent = w.sink.sent) (p : List β) :
    Carries limit (w.sink.sent ++ p) (w.direct p) := by
  subst hlimit
  have hspec := Sink.write_spec hsent p
  by_cases herr : (w.sink.write p).2.1 = none
  · refine .up rfl herr ?_ ?_
    · rw [show (w.direct p).buf = [] from hbuf, List.append_nil]
      exact hspec.mp herr
    · exact (congrArg (clip w.sink.limit) (hspec.mp herr))
  · exact .down rfl herr rfl (fun hall => herr (hspec.mpr hall))

theorem flush_of_buffered (herr : w.err = none) (hbuf : w.buf ≠ []) :
    w.flush.sink = (w.sink.write w.buf).2.2 ∧ w.flush.err = (w.sink.write w.buf).2.1 ∧
      (w.flush.err = none → w.flush.buf = []) := by
  rcases hwrite : w.sink.write w.buf with ⟨n, _ | e, sink⟩
  · have hflush : w.flush = { w with buf := [], sink } := by
      simp [Writer.flush, herr, hbuf, hwrite]
    rw [hflush]
    exact ⟨rfl, herr, fun _ => rfl⟩
  · have hflush : w.flush = { w with buf := w.buf.drop n, err := some e, sink } := by
      simp [Writer.flush, herr, hbuf, hwrite]
    rw [hflush]
    exact ⟨rfl, rfl, fun h => absurd h (Option.some_ne_none e)⟩

theorem Carries.flush (hw : Carries limit stream w) :
    Carries limit stream w.flush ∧ (w.flush.err = none → w.flush.buf = []) := by
  cases hw with
  | down hlimit herr hsent hshort =>
    have hsame : w.flush = w := by
      rw [Writer.flush, Option.isSome_iff_ne_none.mpr herr]
      rfl
    rw [hsame]
    exact ⟨.down hlimit herr hsent hshort, fun h => absurd h herr⟩
  | up hlimit herr hstream hsent =>
    by_cases hbuf : w.buf = []
    · have hsame : w.flush = w := by simp [Writer.flush, hbuf]
      rw [hsame]
      exact ⟨.up hlimit herr hstream hsent, fun _ => hbuf⟩
    · subst hlimit hstream
      obtain ⟨hsink, hflush, hempty⟩ := flush_of_buffered herr hbuf
      have hlimit : w.flush.sink.limit = w.sink.limit := by rw [hsink]; rfl
      have hafter : w.flush.sink.sent = clip w.sink.limit (w.sink.sent ++ w.buf) := by
        rw [hsink]; rfl
      have hspec := Sink.write_spec hsent w.buf
      rw [← hflush] at hspec
      refine ⟨?_, hempty⟩
      by_cases hok : w.flush.err = none
      · have hall := hspec.mp hok
        refine .up hlimit hok ?_ ?_
        · rw [hempty hok, List.append_nil, hafter, hall]
        · rw [hafter, hall, hall]
      · exact .down hlimit hok hafter fun hall => hok (hspec.mpr hall)

/-- Nothing changes any more after an error. -/
theorem Carries.append_of_err (hw : Carries limit stream w) (herr : w.err ≠ none) (p : List β) :
    Carries limit (stream ++ p) w := by
  cases hw with
  | up _ hnone _ _ => exact absurd hnone herr
  | down hlimit _ hsent hshort =>
    obtain ⟨hclip, hne⟩ := clip_append_of_ne hshort p
    exact .down hlimit herr (hsent.trans hclip.symm) hne

/-- Bytes that find the buffer empty are kept or go to the connection at once. -/
theorem Carries.write_fresh (hw : Carries limit stream w) (herr : w.err = none)
    (hbuf : w.buf = []) (p : List β) :
    Carries limit (stream ++ p)
      (if p.length ≤ w.size then { w with buf := p } else w.direct p) := by
  cases hw with
  | down _ hsome _ _ => exact absurd herr hsome
  | up hlimit _ hstream hsent =>
    rw [hbuf, List.append_nil] at hstream
    subst hstream
    split
    · exact .up hlimit herr rfl hsent
    · exact carries_direct hlimit hbuf hsent p

theorem Carries.write (hw : Carries limit stream w) (p : List β) :
    Carries limit (stream ++ p) (w.write p) := by
  by_cases herr : w.err = none
  · by_cases hbuf : w.buf = []
    · have hwrite : w.write p = if p.length ≤ w.size then { w with buf := p } else w.direct p := by
        simp [Writer.write, herr, hbuf]
      rw [hwrite]
      exact hw.write_fresh herr hbuf p
    · have hadd : ∀ q, Carries limit (stream ++ q) { w with buf := w.buf ++ q } := by
        cases hw with
        | down _ hsome _ _ => exact absurd herr hsome
        | up hlimit _ hstream hsent =>
          intro q
          exact .up hlimit herr (by rw [← hstream, List.append_assoc]) hsent
      by_cases hfits : p.length ≤ w.size - w.buf.length
      · have hwrite : w.write p = { w with buf := w.buf ++ p } := by
          simp [Writer.write, herr, hfits]
        rw [hwrite]
        exact hadd p
      · -- the buffer is filled up and flushed before the rest is written
        obtain ⟨hflushed, hempty⟩ := (hadd (p.take (w.size - w.buf.length))).flush
        rw [herr] at hflushed hempty
        rw [← List.take_append_drop (w.size - w.buf.length) p, ← List.append_assoc]
        simp only [Writer.write, herr, hfits, hbuf, List.isEmpty_iff, Option.isSome_none,
          Bool.false_eq_true, if_false, List.take_append_drop]
        split
        · rename_i hsome
          exact hflushed.append_of_err (Option.isSome_iff_ne_none.mp hsome) _
        · rename_i hnone
          have hok := Option.not_isSome_iff_eq_none.mp hnone
          exact hflushed.write_fresh hok (hempty hok) _
  · have hsame : w.write p = w := by simp [Writer.write, Option.isSome_iff_ne_none.mpr herr]
    rw [hsame]
    exact hw.append_of_err herr p

theorem Carries.sent_eq (hw : Carries limit stream w) (hbuf : w.err = none → w.buf = []) :
    w.sink.sent = clip limit stream := by
  cases hw with
  | up _ herr hstream hsent =>
    rw [hbuf herr, List.append_nil] at hstream
    rw [← hstream, hsent]
  | down _ _ hsent _ => exact hsent

end Writer

end DistributedLabs.Bufio
