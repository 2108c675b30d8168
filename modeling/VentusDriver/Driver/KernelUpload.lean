import VentusDriver.Device.SameTables
import VentusDriver.Device.StatusCodes
import VentusDriver.Driver.LocalMemory
import VentusDriver.Driver.MemCopy

/-! The upload of a kernel. The text of an image is decoded into an array of words, and a loop copies the
array to the device in chunks. The offset of the loop counts digits of the text; it is used as an index of
the array, and as many words are printed as a chunk has bytes. -/
namespace VentusDriver
open Foundation Foundation.Intervals

/-! ### The text -/

/-- The value of a hexadecimal digit. -/
def hexValue (c : Char) : Option ℕ :=
  if '0'.toNat ≤ c.toNat ∧ c.toNat ≤ '9'.toNat then some (c.toNat - '0'.toNat)
  else if 'a'.toNat ≤ c.toNat ∧ c.toNat ≤ 'f'.toNat then some (c.toNat - 'a'.toNat + 10)
  else if 'A'.toNat ≤ c.toNat ∧ c.toNat ≤ 'F'.toNat then some (c.toNat - 'A'.toNat + 10)
  else none

/-- The digits up to the first character that is none, behind a value read so far. -/
def stoulFrom (value : ℕ) : List Char → ℕ
  | [] => value
  | c :: rest =>
    match hexValue c with
    | none => value
    | some digit => stoulFrom (value * 16 + digit) rest

/-- `std::stoul` in base 16 for a text without leading blanks, sign or `0x`. Without a digit it throws. -/
def stoul : List Char → Option ℕ
  | [] => none
  | c :: rest => (hexValue c).map fun digit => stoulFrom digit rest

/-- The exception of `std::stoul`. -/
def invalidArgument : Failure := .error "std::invalid_argument" "stoul"

/-- One round of the decoding loop: the value of eight characters. -/
def decodeGroup (content : List Char) (i : ℕ) : Except Failure ℕ :=
  if content.length < i * 8 then .error .outOfRange
  else
    match stoul ((content.drop (i * 8)).take 8) with
    | none => .error invalidArgument
    | some value => .ok (u32 value)

/-- The decoding loop from group `i` on, with `k` groups left. -/
def decodeGroups (content : List Char) : ℕ → ℕ → Except Failure (List ℕ)
  | _, 0 => .ok []
  | i, k + 1 =>
    match decodeGroup content i with
    | .error e => .error e
    | .ok value => (decodeGroups content (i + 1) k).map (value :: ·)

namespace KernelText

end KernelText

namespace KernelText
variable (text : KernelText)

end KernelText

/-! ### The call -/

/-- What a call finds on the host: the words that stand behind its array, and the address that `malloc`
gives it for its buffer. -/
structure HostFrame where
  behind : ℕ → ℕ
  buffer : ℕ
  buffer_ne : buffer ≠ 0

/-- The elements of the array from `start` up to `stop`. -/
structure Window where
  start : ℕ
  stop : ℕ
  deriving DecidableEq, Repr

/-- The interface, and the parts of the array that were read. -/
structure KernelUpload where
  api : Api
  reads : List Window

namespace Api

/-- `memcpy` to an address of the host. -/
def fillHost (s : Api) (addr len : ℕ) (data : ℕ → UInt8) : Api :=
  { s with host := fun a => if addr ≤ a ∧ a < addr + len then data (a - addr) else s.host a }

/-- The size of a transfer. -/
def bufferTransferSize : ℕ := 65536

end Api

namespace KernelUpload
open Api

section Loop
variable (values : List ℕ) (frame : HostFrame) (size taskID : ℕ)

/-- What stands at an index of the array or behind it. -/
def element (j : ℕ) : ℕ := values[j]?.getD (frame.behind j)

/-- The size of the chunk at an offset. -/
def chunkSize (offset : ℕ) : ℕ := min bufferTransferSize (size - offset)

/-- `memcpy(buffer, values + offset, chunk_size)`: the offset counts elements, the size bytes. -/
def copyChunk (offset : ℕ) (s : KernelUpload) : KernelUpload :=
  ⟨s.api.fillHost frame.buffer (chunkSize size offset) fun j =>
      byteOf (element values frame (offset + j / 4)) (j % 4),
    s.reads ++ [⟨offset, offset + (chunkSize size offset + 3) / 4⟩]⟩

/-- Print as many elements as the chunk has bytes. -/
def printChunk (offset : ℕ) (s : KernelUpload) : KernelUpload :=
  { s with reads := s.reads ++ [⟨offset, offset + chunkSize size offset⟩] }

/-- A round of the loop. The result is 0 where the loop goes on. -/
def uploadChunk (offset : ℕ) (s : KernelUpload) : Except Failure ℤ × KernelUpload :=
  let s := copyChunk values frame size offset s
  match s.api.vtMalloc bufferTransferSize .kernelMem taskID 0 with
  | (.error e, api) => (.error e, { s with api := api })
  | (.ok (err, devMemAddr), api) =>
    if err ≠ 0 then (.ok (-1), { s with api := api })
    else
      let s := printChunk size offset { s with api := api }
      let r := s.api.vtCopyToDev devMemAddr frame.buffer (chunkSize size offset) taskID 0
      (r.1, { s with api := r.2 })

/-- The loop with `k` rounds left. -/
def uploadChunks : ℕ → ℕ → KernelUpload → Except Failure ℤ × KernelUpload
  | 0, _, s => (.ok 0, s)
  | k + 1, offset, s =>
    let r := uploadChunk values frame size taskID offset s
    if r.1 = .ok 0 then uploadChunks k (offset + chunkSize size offset) r.2 else r

/-- The rounds in which the offset is below the size. -/
def rounds : ℕ := (size + (bufferTransferSize - 1)) / bufferTransferSize

end Loop
end KernelUpload

namespace Api
open KernelUpload

/-- The number of values is an `int`; an array of negative size is undefined. -/
def vtUploadKernelBytes (s : Api) (frame : HostFrame) (content : Option (List Char)) (size : ℕ) (taskID : ℤ) :
    Except Failure ℤ × KernelUpload :=
  match content with
  | none => (.ok (-1), ⟨s, []⟩)
  | some content =>
    if size = 0 then (.ok (-1), ⟨s, []⟩)
    else
      let numValues := i32 (size / 8)
      if numValues < 0 then (.error (.device .undefined), ⟨s, []⟩)
      else
        match decodeGroups content 0 numValues.toNat with
        | .error e => (.error e, ⟨s, []⟩)
        | .ok values => uploadChunks values frame size (u64OfInt taskID) (rounds size) 0 ⟨s, []⟩

end Api

/-! ### What the call is for -/

namespace Driver

/-- The 32-bit word at a virtual address. -/
def wordAt (d : Driver) (root addr : ℕ) : ℕ :=
  littleEndian 4 (d.processor.ram.readVirt root addr 4 fun _ => 0).2

end Driver

namespace KernelText

end KernelText

namespace KernelUpload

end KernelUpload

namespace Api

section Denies
variable {task k addr : ℕ} {s : Api}

end Denies

end Api

/-! ### Two drivers that differ outside the tables of a task -/

namespace Driver
open PhysicalMemory
variable {d d' : Driver} {t : ℕ}

lemma returned_map {α β : Type} {r : Except Failure α} (f : α → β) : Returned (r.map f) ↔ Returned r := by
  cases r with
  | error e => cases e with
    | device fault => cases fault <;> exact Iff.rfl
    | _ => exact Iff.rfl
  | ok a => exact Iff.rfl

end Driver

/-! ### One round -/

namespace Api

end Api

namespace KernelUpload
open Api PhysicalMemory
variable {values : List ℕ} {frame : HostFrame} {size t offset : ℕ} {m : Api} {s : KernelUpload}

lemma vtMalloc_eq {api : Api} {d : Driver} (t : ℕ) (hd : api.hdevice = some d) :
    api.vtMalloc bufferTransferSize .kernelMem t 0 = ((d.allocLocalMem bufferTransferSize .kernelMem t 0).1,
      { api with hdevice := some (d.allocLocalMem bufferTransferSize .kernelMem t 0).2 }) := by
  simp only [vtMalloc, hd, if_neg (show bufferTransferSize ≠ 0 by decide)]

/-- The rounds are those of `while (offset < size)`. -/
theorem uploadChunks_while : uploadChunks values frame size t (rounds (size - offset)) offset s =
    if offset < size then
      let r := uploadChunk values frame size t offset s
      let next := offset + chunkSize size offset
      if r.1 = .ok 0 then uploadChunks values frame size t (rounds (size - next)) next r.2 else r
    else (.ok 0, s) := by
  by_cases hmore : offset < size
  · have hstep : rounds (size - offset) = rounds (size - (offset + chunkSize size offset)) + 1 := by
      simp only [rounds, chunkSize, bufferTransferSize]
      omega
    rw [hstep, uploadChunks, if_pos hmore]
  · have hdone : rounds (size - offset) = 0 := by
      simp only [rounds, bufferTransferSize]
      omega
    rw [hdone, uploadChunks, if_neg hmore]

section Inside
variable {n arraySize c k : ℕ}

end Inside
end KernelUpload

/-! ### The call in runs -/

namespace Driver
variable {d : Driver} {t : ℕ}

lemma allocLocalMem_low (h : d.Addressed) {size k v : ℕ} {e : ℤ} {bufType : BufferType}
    (hok : (d.allocLocalMem size bufType t k).1 = .ok (e, v)) : v ≤ 0xC0000000 := by
  obtain ⟨info, mgr, ram, p, q, -, hvirtual, -⟩ := allocLocalMem_attached h.wellLinked hok
  exact (Manager.allocMemory_addressed h.wellLinked h.addressed hvirtual).2.2.2

end Driver

namespace KernelUpload
open Api

section Runs
variable {values : List ℕ} {frame : HostFrame} {size t offset : ℕ} {s : KernelUpload}

/-- A driver that a run of the calls of the host has reached. -/
def Reached (api : Api) : Prop := ∃ d, api.hdevice = some d ∧ hostSystem.Reachable d

/-- A round consists of an allocation and an upload. -/
lemma uploadChunk_reached (h : Reached s.api)
    (hreturned : Driver.Returned (uploadChunk values frame size t offset s).1) :
    Reached (uploadChunk values frame size t offset s).2.api := by
  obtain ⟨d, hd, hreach⟩ := h
  have hmalloc := vtMalloc_eq t (show (copyChunk values frame size offset s).api.hdevice = some d from hd)
  have hlow := fun e v => @Driver.allocLocalMem_low d t (Driver.intact_of_reachable hreach).addressed
    bufferTransferSize 0 v e .kernelMem
  have hstep : Driver.Returned (d.allocLocalMem bufferTransferSize .kernelMem t 0).1 →
      hostSystem.Reachable (d.allocLocalMem bufferTransferSize .kernelMem t 0).2 := fun hret =>
    hreach.next (l := .call (.allocLocalMem bufferTransferSize .kernelMem t 0)) trivial
      ⟨(Driver.returned_map _).mpr hret, rfl⟩
  unfold uploadChunk at hreturned ⊢
  simp only [hmalloc] at hreturned ⊢
  cases hgot : (d.allocLocalMem bufferTransferSize .kernelMem t 0).1 with
  | error e =>
    rw [hgot] at hstep
    simp only [hgot] at hreturned ⊢
    exact ⟨_, rfl, hstep ((Driver.returned_map fun _ : ℤ => ((0 : ℤ), 0)).mpr hreturned)⟩
  | ok r =>
    obtain ⟨e, v⟩ := r
    rw [hgot] at hstep
    simp only [hgot] at hreturned ⊢
    split_ifs at hreturned ⊢ with herr
    · exact ⟨_, rfl, hstep trivial⟩
    · -- the address is below 2^64
      have hle := hlow e v hgot
      have hv : u64 v = v := u64_of_lt (by omega)
      have hperform : ∀ (d : Driver) src n, d.perform (.upload v src n t 0) =
          ((d.upload v src n t 0).1.map fun _ => (), (d.upload v src n t 0).2) := by
        intro d src n
        simp only [Driver.perform, hv]
      unfold vtCopyToDev at hreturned ⊢
      simp only [printChunk] at hreturned ⊢
      split_ifs at hreturned ⊢ with hsize
      · exact ⟨_, rfl, hstep trivial⟩
      · refine ⟨_, rfl, (hstep trivial).next (l := .upload v (bytesAt
          (copyChunk values frame size offset s).api.host frame.buffer) (chunkSize size offset) t 0) trivial ?_⟩
        simp only [hostSystem, hperform, and_true]
        exact (Driver.returned_map _).mpr hreturned

lemma uploadChunks_reached {k : ℕ} (h : Reached s.api)
    (hreturned : Driver.Returned (uploadChunks values frame size t k offset s).1) :
    Reached (uploadChunks values frame size t k offset s).2.api := by
  induction k generalizing offset s with
  | zero => exact h
  | succ k ih =>
    rw [uploadChunks] at hreturned ⊢
    split_ifs at hreturned ⊢ with hok
    · exact ih (uploadChunk_reached h (hok ▸ trivial)) hreturned
    · exact uploadChunk_reached h hreturned

/-- Runs in which kernels are uploaded reach no other drivers. -/
theorem vtUploadKernelBytes_reached {api : Api} (h : Reached api) (content : Option (List Char)) (taskID : ℤ)
    (hreturned : Driver.Returned (api.vtUploadKernelBytes frame content size taskID).1) :
    Reached (api.vtUploadKernelBytes frame content size taskID).2.api := by
  unfold vtUploadKernelBytes at hreturned ⊢
  cases content with
  | none => exact h
  | some content =>
    simp only at hreturned ⊢
    split_ifs at hreturned ⊢
    · exact h
    · exact h
    · cases hvalues : decodeGroups content 0 (i32 (size / 8)).toNat with
      | error e => exact h
      | ok values =>
        simp only [hvalues] at hreturned ⊢
        exact uploadChunks_reached h hreturned

end Runs
end KernelUpload

/-! ### New tasks -/

namespace Driver
open PhysicalMemory
variable {d : Driver}

end Driver

namespace Api
open KernelUpload

end Api

namespace KernelUpload
open Api

end KernelUpload
end VentusDriver
