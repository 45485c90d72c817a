import DistributedLabs.BufferedStream
import DistributedLabs.Demux

/-!
The transport of the demux: WriteCall sends the length of an encoded msg and the
encoding, ReadCall reads them back through a buffer. However the bytes arrive,
and wherever they stop, ReadCall returns the calls whose frames arrived whole and
errors after them.
-/
namespace DistributedLabs.Wire

open Bufio
open Demux (Ttag)

def MSGLEN : ℕ := 65536

/-- A nil slice is none. -/
structure Msg where
  tag : Ttag
  data : Option (List UInt8)
  ok : Bool
  deriving DecidableEq, Repr

/-- The same call, empty and nil data identified. -/
structure Msg.Same (m m' : Msg) : Prop where
  tag_eq : m.tag = m'.tag
  data_eq : m.data.getD [] = m'.data.getD []
  ok_eq : m.ok = m'.ok

/-- Marshall and Unmarshall of a msg, which round-trip. Unmarshall ends the
process when it cannot decode. -/
structure Gob where
  marshall : Msg → List UInt8
  unmarshall : List UInt8 → Option Msg
  roundTrip : ∀ m, ∃ m', unmarshall (marshall m) = some m' ∧ m.Same m'

/-- binary.LittleEndian.PutUint32 -/
def putUint32 (v : UInt32) : List UInt8 :=
  [v.toUInt8, (v >>> 8).toUInt8, (v >>> 16).toUInt8, (v >>> 24).toUInt8]

/-- binary.LittleEndian.Uint32 -/
def uint32 : List UInt8 → UInt32
  | [b0, b1, b2, b3] =>
    b0.toUInt32 ||| b1.toUInt32 <<< 8 ||| b2.toUInt32 <<< 16 ||| b3.toUInt32 <<< 24
  | _ => 0

structure Transport where
  rdr : Reader UInt8
  wrt : Writer UInt8

def newTransport (source : Source UInt8) (sink : Sink UInt8) : Transport :=
  ⟨newReaderSize source MSGLEN, newWriterSize sink MSGLEN⟩

variable (gob : Gob)

/-- None when Unmarshall ends the process. -/
def readCall (t : Transport) : Option (Except Error Msg × Transport) :=
  match readFull t.rdr 4 with
  | (_, some err, rdr) => some (.error err, { t with rdr })
  | (header, none, rdr) =>
    let nbyte := (uint32 header).toNat
    match readFull rdr nbyte with
    | (_, some err, rdr) => some (.error err, { t with rdr })
    | (b, none, rdr) =>
      if b.length ≠ nbyte then some (.error (.other "short read"), { t with rdr })
      else (gob.unmarshall b).map fun m => (.ok m, { t with rdr })

def writeCall (t : Transport) (tag : Ttag) (d : Option (List UInt8)) (ok : Bool) :
    Option Error × Transport :=
  let b := gob.marshall ⟨tag, d, ok⟩
  let wrt := t.wrt.write (putUint32 (UInt32.ofNat b.length))
  if wrt.err.isSome then (wrt.err, { t with wrt })
  else
    let wrt := wrt.write b
    if wrt.err.isSome then (wrt.err, { t with wrt })
    else (wrt.flush.err, { t with wrt := wrt.flush })

/-- Successive calls of WriteCall. -/
def writeCalls (t : Transport) (calls : List Msg) : Transport :=
  calls.foldl (fun t m => (writeCall gob t m.tag m.data m.ok).2) t

/-- What ReadCall returns after i calls of it. -/
def readCallAfter : ℕ → Transport → Option (Except Error Msg)
  | 0, t => (readCall gob t).map Prod.fst
  | i + 1, t => (readCall gob t).bind fun r => readCallAfter i r.2

/-- The bytes that a connection takes from the given calls. -/
def sentBy (limit : Option ℕ) (broken : Error) (calls : List Msg) : List UInt8 :=
  (writeCalls gob (newTransport ⟨[], .eof⟩ ⟨[], limit, broken⟩) calls).wrt.sink.sent

theorem uint32_putUint32 (v : UInt32) : uint32 (putUint32 v) = v := by
  apply UInt32.toBitVec_inj.mp
  ext i hi
  simp only [putUint32, uint32, UInt32.toBitVec_or, UInt32.toBitVec_shiftLeft,
    UInt8.toBitVec_toUInt32, UInt32.toBitVec_toUInt8, UInt32.toBitVec_shiftRight,
    UInt32.toBitVec_ofNat, BitVec.ofNat_eq_ofNat, BitVec.reduceMod, BitVec.ushiftRight_eq',
    BitVec.toNat_ofNat, Nat.reducePow, Nat.reduceMod, BitVec.shiftLeft_eq', BitVec.getElem_or,
    BitVec.getElem_setWidth, BitVec.getLsbD_setWidth, BitVec.getElem_shiftLeft,
    BitVec.getLsbD_ushiftRight]
  grind

/-- A frame on the wire. -/
def frame (body : List UInt8) : List UInt8 := putUint32 (UInt32.ofNat body.length) ++ body

/-- The body of the first frame, if it is there in full, and what follows it. -/
def nextFrame (bytes : List UInt8) : Option (List UInt8 × List UInt8) :=
  let nbyte := (uint32 (bytes.take 4)).toNat
  if 4 + nbyte ≤ bytes.length then some ((bytes.drop 4).take nbyte, bytes.drop (4 + nbyte))
  else none

theorem length_frame (body : List UInt8) : (frame body).length = 4 + body.length :=
  List.length_append

/-- A frame that is cut off is not taken for another one. -/
theorem nextFrame_take {body : List UInt8} (hbody : body.length < 2 ^ 32) (rest : List UInt8)
    (cut : ℕ) :
    nextFrame ((frame body ++ rest).take cut) =
      if (frame body).length ≤ cut then some (body, rest.take (cut - (frame body).length))
      else none := by
  have hnbyte : ∀ r, (uint32 ((frame body ++ r).take 4)).toNat = body.length := by
    intro r
    have hheader : (frame body ++ r).take 4 = putUint32 (UInt32.ofNat body.length) := rfl
    rw [hheader, uint32_putUint32, UInt32.toNat_ofNat']
    exact Nat.mod_eq_of_lt hbody
  by_cases hcut : (frame body).length ≤ cut
  · have hwhole : (frame body ++ rest).take cut =
        frame body ++ rest.take (cut - (frame body).length) := by
      rw [List.take_append, List.take_of_length_le hcut]
    have hdrop : ∀ r, (frame body ++ r).drop 4 = body ++ r := fun _ => rfl
    have hlen : 4 + body.length ≤
        (frame body ++ rest.take (cut - (frame body).length)).length := by
      rw [List.length_append, length_frame]
      exact Nat.le_add_right _ _
    rw [hwhole, nextFrame, hnbyte, if_pos hlen, if_pos hcut, ← List.drop_drop, hdrop,
      List.take_left, List.drop_left]
  · rw [if_neg hcut, nextFrame, if_neg]
    intro hle
    have hlen : ((frame body ++ rest).take cut).length ≤ cut := List.length_take_le _ _
    rw [List.take_take, min_eq_left (by omega), hnbyte, ← length_frame] at hle
    exact hcut (hle.trans hlen)

/-- All that the calls put on the wire. -/
def stream (calls : List Msg) : List UInt8 := calls.flatMap fun m => frame (gob.marshall m)

variable {t : Transport}

theorem readCall_of_nextFrame {body rest : List UInt8} {m : Msg}
    (h : nextFrame t.rdr.pending = some (body, rest)) (hm : gob.unmarshall body = some m) :
    ∃ t', readCall gob t = some (.ok m, t') ∧ t'.rdr.pending = rest := by
  simp only [nextFrame, Option.ite_none_right_eq_some, Option.some.injEq, Prod.mk.injEq] at h
  obtain ⟨hle, hbody, hrest⟩ := h
  obtain ⟨rdr, hheader, hpending⟩ := readFull_of_le (r := t.rdr) (n := 4) (by omega)
  obtain ⟨rdr', hread, hpending'⟩ := readFull_of_le (r := rdr)
    (n := (uint32 (t.rdr.pending.take 4)).toNat) (by rw [hpending, List.length_drop]; omega)
  rw [hpending, hbody] at hread
  rw [hpending, List.drop_drop, hrest] at hpending'
  have hlen : body.length = (uint32 (t.rdr.pending.take 4)).toNat := by
    rw [← hbody, List.length_take, List.length_drop]
    omega
  refine ⟨{ t with rdr := rdr' }, ?_, hpending'⟩
  simp [readCall, hheader, hread, hlen, hm]

theorem readCall_of_nextFrame_eq_none (h : nextFrame t.rdr.pending = none) :
    ∃ e t', readCall gob t = some (.error e, t') ∧ t'.rdr.pending = [] := by
  simp only [nextFrame, ite_eq_right_iff, reduceCtorEq, imp_false, Nat.not_le] at h
  by_cases hfour : t.rdr.pending.length < 4
  · obtain ⟨b, e, rdr, hheader, hpending⟩ := readFull_of_lt hfour
    exact ⟨e, { t with rdr }, by simp only [readCall, hheader], hpending⟩
  · obtain ⟨rdr, hheader, hpending⟩ := readFull_of_le (r := t.rdr) (n := 4) (by omega)
    obtain ⟨b, e, rdr', hread, hpending'⟩ := readFull_of_lt (r := rdr)
      (n := (uint32 (t.rdr.pending.take 4)).toNat) (by rw [hpending, List.length_drop]; omega)
    exact ⟨e, { t with rdr := rdr' }, by simp only [readCall, hheader, hread], hpending'⟩

/-- The given call, or an error if there is none. -/
def Returns : Option Msg → Except Error Msg → Prop
  | some m, .ok m' => m.Same m'
  | none, .error _ => True
  | _, _ => False

/-- After an error nothing is left to be read, and errors follow. -/
theorem readCallAfter_of_nextFrame_eq_none (i : ℕ) (h : nextFrame t.rdr.pending = none) :
    ∃ r, readCallAfter gob i t = some r ∧ Returns none r := by
  induction i generalizing t with
  | zero =>
    obtain ⟨e, t', hread, _⟩ := readCall_of_nextFrame_eq_none gob h
    exact ⟨.error e, by rw [readCallAfter, hread]; rfl, trivial⟩
  | succ i ih =>
    obtain ⟨e, t', hread, hpending⟩ := readCall_of_nextFrame_eq_none gob h
    obtain ⟨r, hr, hreturns⟩ := ih (t := t') (by rw [hpending]; rfl)
    exact ⟨r, by rw [readCallAfter, hread]; exact hr, hreturns⟩

theorem readCallAfter_of_stream {calls : List Msg}
    (hfits : ∀ m ∈ calls, (gob.marshall m).length < 2 ^ 32) (cut i : ℕ)
    (h : t.rdr.pending = (stream gob calls).take cut) :
    ∃ r, readCallAfter gob i t = some r ∧
      Returns (if (stream gob (calls.take (i + 1))).length ≤ cut then calls[i]? else none) r := by
  induction calls generalizing i cut t with
  | nil =>
    rw [List.getElem?_nil, ite_self]
    exact readCallAfter_of_nextFrame_eq_none gob i (by rw [h]; simp [stream, nextFrame])
  | cons m calls ih =>
    have hlength : (stream gob ((m :: calls).take (i + 1))).length =
        (frame (gob.marshall m)).length + (stream gob (calls.take i)).length := by
      simp [stream]
    have hnext := nextFrame_take (hfits m List.mem_cons_self) (stream gob calls) cut
    rw [show frame (gob.marshall m) ++ stream gob calls = stream gob (m :: calls) from rfl, ← h]
      at hnext
    rw [hlength]
    by_cases hcut : (frame (gob.marshall m)).length ≤ cut
    · rw [if_pos hcut] at hnext
      obtain ⟨m', hm', hsame⟩ := gob.roundTrip m
      obtain ⟨t', hread, hpending⟩ := readCall_of_nextFrame gob hnext hm'
      rcases i with _ | i
      · refine ⟨.ok m', by rw [readCallAfter, hread]; rfl, ?_⟩
        rw [if_pos (by simpa [stream] using hcut)]
        exact hsame
      · obtain ⟨r, hr, hreturns⟩ :=
          ih (fun m hm => hfits m (List.mem_cons_of_mem _ hm)) _ i hpending
        refine ⟨r, by rw [readCallAfter, hread]; exact hr, ?_⟩
        have hiff : (frame (gob.marshall m)).length + (stream gob (calls.take (i + 1))).length ≤
            cut ↔ (stream gob (calls.take (i + 1))).length ≤
              cut - (frame (gob.marshall m)).length := by omega
        rw [List.getElem?_cons_succ, if_congr hiff rfl rfl]
        exact hreturns
    · rw [if_neg hcut] at hnext
      rw [if_neg (by omega)]
      exact readCallAfter_of_nextFrame_eq_none gob i hnext

theorem writeCall_carries {limit : Option ℕ} {bytes : List UInt8}
    (ht : t.wrt.Carries limit bytes) (m : Msg) :
    (writeCall gob t m.tag m.data m.ok).2.wrt.Carries limit
      (bytes ++ frame (gob.marshall m)) ∧
      ((writeCall gob t m.tag m.data m.ok).2.wrt.err = none →
        (writeCall gob t m.tag m.data m.ok).2.wrt.buf = []) := by
  have hheader := ht.write (putUint32 (UInt32.ofNat (gob.marshall m).length))
  rw [frame, ← List.append_assoc]
  simp only [writeCall]
  split
  · rename_i hsome
    have herr := Option.isSome_iff_ne_none.mp hsome
    exact ⟨hheader.append_of_err herr _, fun h => absurd h herr⟩
  · have hbody := hheader.write (gob.marshall m)
    split
    · rename_i hsome
      exact ⟨hbody, fun h => absurd h (Option.isSome_iff_ne_none.mp hsome)⟩
    · exact hbody.flush

theorem writeCalls_carries {limit : Option ℕ} {bytes : List UInt8}
    (ht : t.wrt.Carries limit bytes) (hbuf : t.wrt.err = none → t.wrt.buf = [])
    (calls : List Msg) :
    (writeCalls gob t calls).wrt.Carries limit (bytes ++ stream gob calls) ∧
      ((writeCalls gob t calls).wrt.err = none → (writeCalls gob t calls).wrt.buf = []) := by
  induction calls generalizing t bytes with
  | nil => exact ⟨by simpa [stream, writeCalls] using ht, hbuf⟩
  | cons m calls ih =>
    obtain ⟨hcall, hempty⟩ := writeCall_carries gob ht m
    have hrest := ih hcall hempty
    rw [List.append_assoc] at hrest
    exact hrest

theorem sentBy_eq_clip (limit : Option ℕ) (broken : Error) (calls : List Msg) :
    sentBy gob limit broken calls = clip limit (stream gob calls) := by
  have hnew : (newTransport ⟨[], .eof⟩ ⟨[], limit, broken⟩).wrt.Carries limit [] :=
    .up rfl rfl rfl (by cases limit <;> simp [newTransport, newWriterSize, clip])
  obtain ⟨hcarries, hbuf⟩ := writeCalls_carries gob hnew (fun _ => rfl) calls
  rw [List.nil_append] at hcarries
  exact hcarries.sent_eq hbuf

theorem readCall_returns_written (calls : List Msg)
    (hfits : ∀ m ∈ calls, (gob.marshall m).length < 2 ^ 32) (broken : Error)
    (chunks : List (List UInt8)) (stop : Error) (sink : Sink UInt8) :
    (chunks.flatten = sentBy gob none broken calls →
      ∀ i, ∃ r, readCallAfter gob i (newTransport ⟨chunks, stop⟩ sink) = some r ∧
        Returns calls[i]? r) ∧
    ∀ cut, chunks.flatten = (sentBy gob none broken calls).take cut →
      ∀ i, ∃ r, readCallAfter gob i (newTransport ⟨chunks, stop⟩ sink) = some r ∧
        Returns (if (sentBy gob none broken (calls.take (i + 1))).length ≤ cut then calls[i]?
          else none) r := by
  have hpending : (newTransport ⟨chunks, stop⟩ sink).rdr.pending = chunks.flatten := rfl
  simp only [sentBy_eq_clip, clip]
  constructor
  · intro hwhole i
    have hshort : (stream gob (calls.take (i + 1))).length ≤ (stream gob calls).length :=
      ((List.take_prefix (i + 1) calls).flatMap _).length_le
    have hread := readCallAfter_of_stream gob hfits (stream gob calls).length i
      (hpending.trans (hwhole.trans List.take_length.symm))
    rwa [if_pos hshort] at hread
  · intro cut hcut i
    exact readCallAfter_of_stream gob hfits cut i (hpending.trans hcut)

/-- The tag, the flag and the data one after another. -/
def plainGob : Gob where
  marshall m := putUint32 m.tag ++ (if m.ok then 1 else 0) :: m.data.getD []
  unmarshall
    | b0 :: b1 :: b2 :: b3 :: ok :: data => some ⟨uint32 [b0, b1, b2, b3], some data, ok == 1⟩
    | _ => none
  roundTrip m := by
    refine ⟨_, rfl, (uint32_putUint32 m.tag).symm, rfl, ?_⟩
    cases m.ok <;> rfl

/-- The stream is cut in the header of the second frame, and its first header
arrives in two pieces. -/
theorem readCall_returns_written_cutHeader :
    ∃ r₀ r₁, readCallAfter plainGob 0 (newTransport
        ⟨[[5, 0, 0], [0, 1, 0, 0, 0, 1, 6, 0]], .eof⟩ ⟨[], none, .eof⟩) = some r₀ ∧
      Returns (some ⟨1, none, true⟩) r₀ ∧
      readCallAfter plainGob 1 (newTransport
        ⟨[[5, 0, 0], [0, 1, 0, 0, 0, 1, 6, 0]], .eof⟩ ⟨[], none, .eof⟩) = some r₁ ∧
      Returns none r₁ := by
  have hcut := (readCall_returns_written plainGob [⟨1, none, true⟩, ⟨2, some [7], false⟩]
    (by decide) .eof [[5, 0, 0], [0, 1, 0, 0, 0, 1, 6, 0]] .eof ⟨[], none, .eof⟩).2 11 (by decide)
  obtain ⟨r₀, hread₀, hreturns₀⟩ := hcut 0
  obtain ⟨r₁, hread₁, hreturns₁⟩ := hcut 1
  rw [if_pos (by decide)] at hreturns₀
  rw [if_neg (by decide)] at hreturns₁
  exact ⟨r₀, r₁, hread₀, hreturns₀, hread₁, hreturns₁⟩

/-- A connection that breaks while it is written to cuts the stream where it breaks. -/
theorem readCall_of_broken {calls : List Msg}
    (hfits : ∀ m ∈ calls, (gob.marshall m).length < 2 ^ 32) {broken : Error} {limit : ℕ}
    {chunks : List (List UInt8)} (hsent : chunks.flatten = sentBy gob (some limit) broken calls)
    (stop : Error) (sink : Sink UInt8) (i : ℕ) :
    ∃ r, readCallAfter gob i (newTransport ⟨chunks, stop⟩ sink) = some r ∧
      Returns (if (sentBy gob none broken (calls.take (i + 1))).length ≤ limit then calls[i]?
        else none) r := by
  rw [sentBy_eq_clip] at hsent ⊢
  exact readCallAfter_of_stream gob hfits limit i hsent

end DistributedLabs.Wire
