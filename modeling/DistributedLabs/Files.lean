import DistributedLabs.GoText
import Mathlib.Logic.Function.Basic
import Mathlib.Tactic.Simps.Basic

/-!
A file system whose files are created, truncated by creating them again, and
written through handles that keep an offset of their own. Nothing is removed.
`Io` adds failures: each system call may fail, a write after some of its bytes.
-/
namespace DistributedLabs.Files

open GoText

abbrev Disk := GoString → Option GoString

/-- A write at an offset; a gap left by a truncation reads as zeros. -/
def writeAt (old : GoString) (offset : ℕ) (bytes : GoString) : GoString :=
  old.take offset ++ List.replicate (offset - old.length) 0 ++ bytes ++
    old.drop (offset + bytes.length)

def create (files : Disk) (name : GoString) : Disk :=
  Function.update files name (some [])

def write (files : Disk) (name : GoString) (offset : ℕ) (bytes : GoString) : Disk :=
  Function.update files name ((files name).map fun old => writeAt old offset bytes)

@[simp]
theorem writeAt_length (old bytes : GoString) :
    writeAt old old.length bytes = old ++ bytes := by
  simp [writeAt]

@[simp]
theorem create_self (files : Disk) (name : GoString) : create files name name = some [] :=
  Function.update_self ..

theorem create_of_ne (files : Disk) {name other : GoString} (h : other ≠ name) :
    create files name other = files other :=
  Function.update_of_ne h ..

theorem write_self (files : Disk) (name : GoString) (offset : ℕ) (bytes : GoString) :
    write files name offset bytes name =
      (files name).map fun old => writeAt old offset bytes :=
  Function.update_self ..

theorem write_of_ne (files : Disk) {name other : GoString} (h : other ≠ name) (offset : ℕ)
    (bytes : GoString) : write files name offset bytes other = files other :=
  Function.update_of_ne h ..

/-- `faults n` is set if the n-th call fails; a failing write has then written
that many bytes. -/
structure Io where
  files : Disk
  faults : ℕ → Option ℕ
  calls : ℕ

namespace Io

@[simps]
def tick (io : Io) (files : Disk) : Io := { io with files, calls := io.calls + 1 }

/-- os.Create: whether it succeeded, and the state after it. -/
def create (io : Io) (name : GoString) : Bool × Io :=
  match io.faults io.calls with
  | none => (true, io.tick (Files.create io.files name))
  | some _ => (false, io.tick io.files)

/-- File.Write on a handle at the given offset: the number of bytes written,
whether that was all, and the state after it. -/
def write (io : Io) (name : GoString) (offset : ℕ) (bytes : GoString) : ℕ × Bool × Io :=
  match io.faults io.calls with
  | none => (bytes.length, true, io.tick (Files.write io.files name offset bytes))
  | some n =>
    ((bytes.take n).length, false, io.tick (Files.write io.files name offset (bytes.take n)))

/-- Open and read a whole file: two calls, either of which may fail. -/
def readFile (io : Io) (name : GoString) : Option GoString × Io :=
  match io.faults io.calls, io.files name with
  | none, some content =>
    match io.faults (io.calls + 1) with
    | none => (some content, (io.tick io.files).tick io.files)
    | some _ => (none, (io.tick io.files).tick io.files)
  | _, _ => (none, io.tick io.files)

/-- No call fails. -/
def Sound (io : Io) : Prop := ∀ n, io.faults n = none

theorem create_of_no_fault {io : Io} (h : io.faults io.calls = none) (name : GoString) :
    io.create name = (true, io.tick (Files.create io.files name)) := by
  simp [create, h]

theorem write_of_no_fault {io : Io} (h : io.faults io.calls = none) (name : GoString)
    (offset : ℕ) (bytes : GoString) :
    io.write name offset bytes =
      (bytes.length, true, io.tick (Files.write io.files name offset bytes)) := by
  simp [write, h]

theorem readFile_of_no_fault {io : Io} (h : io.faults io.calls = none)
    (h' : io.faults (io.calls + 1) = none) {name content : GoString}
    (hfile : io.files name = some content) :
    io.readFile name = (some content, (io.tick io.files).tick io.files) := by
  simp [readFile, h, h', hfile]

theorem create_of_sound {io : Io} (h : io.Sound) (name : GoString) :
    io.create name = (true, io.tick (Files.create io.files name)) :=
  create_of_no_fault (h io.calls) name

theorem readFile_of_sound {io : Io} (h : io.Sound) {name content : GoString}
    (hfile : io.files name = some content) :
    io.readFile name = (some content, (io.tick io.files).tick io.files) :=
  readFile_of_no_fault (h io.calls) (h (io.calls + 1)) hfile

theorem sound_tick {io : Io} (h : io.Sound) (files : Disk) : (io.tick files).Sound := h

theorem create_eq_true {io io' : Io} {name : GoString} (h : io.create name = (true, io')) :
    io' = io.tick (Files.create io.files name) := by
  unfold create at h
  split at h
  · cases h
    rfl
  · cases h

theorem write_eq_true {io io' : Io} {name : GoString} {offset n : ℕ} {bytes : GoString}
    (h : io.write name offset bytes = (n, true, io')) :
    io' = io.tick (Files.write io.files name offset bytes) := by
  unfold write at h
  split at h
  · cases h
    rfl
  · cases h

end Io

end DistributedLabs.Files
