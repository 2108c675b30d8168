import VentusDriver.Driver.TaskTables

/-! The interface for the memory of tasks. `vt_memcopy` carries out its copy and then runs into the
statement behind its switch, which throws: no call of it returns. -/
namespace VentusDriver
open Foundation

/-- The type has two values; any other number takes the default of the switch. -/
inductive MemCopyType
  | hostToDevice
  | deviceToHost
  | other (value : ℕ)
  deriving DecidableEq, Repr

/-- The driver behind the handle, absent for a null handle, and the memory of the host. -/
structure Api where
  hdevice : Option Driver
  host : ℕ → UInt8

namespace Api

def inputNotValid : Failure := .error "vz::api" "input not valid"

/-- What the host has from an address on; nothing for the null pointer. -/
def bytesAt (host : ℕ → UInt8) (addr : ℕ) : Option (ℕ → UInt8) :=
  if addr = 0 then none else some fun i => host (addr + i)

/-- The host after a buffer at an address was filled. -/
def store (host : ℕ → UInt8) (addr : ℕ) : Option (ℕ → UInt8) → ℕ → UInt8
  | none => host
  | some bytes => fun a => if addr ≤ a then bytes (a - addr) else host a

def vtRootMemAlloc (s : Api) (taskID : ℤ) : Except Failure ℤ × Api :=
  match s.hdevice with
  | none => (.error inputNotValid, s)
  | some d => let r := d.createDeviceMem (u64OfInt taskID); (r.1, { s with hdevice := some r.2 })

/-- A new driver with the task 0. -/
def vtSetDevice (host : ℕ → UInt8) : Except Failure ℤ × Api :=
  let r := vtRootMemAlloc ⟨some Driver.new, host⟩ 0
  (r.1.map fun _ => 0, r.2)

def vtMalloc (s : Api) (size : ℕ) (bufType : BufferType) (taskID kernelID : ℕ) :
    Except Failure (ℤ × ℕ) × Api :=
  match s.hdevice with
  | none => (.error inputNotValid, s)
  | some d =>
    if size = 0 then (.error inputNotValid, s)
    else
      let r := d.allocLocalMem size bufType taskID kernelID
      (r.1, { s with hdevice := some r.2 })

def vtCopyToDev (s : Api) (devVaddr srcAddr size taskID kernelID : ℕ) : Except Failure ℤ × Api :=
  match s.hdevice with
  | none => (.error inputNotValid, s)
  | some d =>
    if size = 0 then (.error inputNotValid, s)
    else
      let r := d.upload devVaddr (bytesAt s.host srcAddr) size taskID kernelID
      (r.1, { s with hdevice := some r.2 })

def vtCopyFromDev (s : Api) (devVaddr dstAddr size taskID kernelID : ℕ) : Except Failure ℤ × Api :=
  match s.hdevice with
  | none => (.error inputNotValid, s)
  | some d =>
    if size = 0 then (.error inputNotValid, s)
    else
      let r := d.download devVaddr (bytesAt s.host dstAddr) size taskID kernelID
      (r.1, { s with host := store s.host dstAddr r.2 })

/-- `unreachable` throws like every error. -/
def unreachable (tag : String) : Failure := .error tag "unreachable"

/-- The two copies leave the switch by `break`, and the statement behind it is `unreachable`. -/
def vtMemcopy (s : Api) (dstAddr srcAddr size taskID kernelID : ℕ) : MemCopyType → Except Failure ℤ × Api
  | .deviceToHost =>
    let r := s.vtCopyFromDev srcAddr dstAddr size taskID kernelID
    (r.1.bind fun _ => .error (unreachable "vz::api"), r.2)
  | .hostToDevice =>
    let r := s.vtCopyToDev dstAddr srcAddr size taskID kernelID
    (r.1.bind fun _ => .error (unreachable "vz::api"), r.2)
  | .other _ => (.error inputNotValid, s)

/-- No call returns: it throws the error of its copy, or the one behind the switch. -/
theorem vtMemcopy_throws (s : Api) (dstAddr srcAddr size taskID kernelID : ℕ) (type : MemCopyType) :
    ∃ e, (s.vtMemcopy dstAddr srcAddr size taskID kernelID type).1 = .error e := by
  cases type with
  | deviceToHost =>
    cases hcopy : (s.vtCopyFromDev srcAddr dstAddr size taskID kernelID).1 with
    | error e => exact ⟨e, by rw [vtMemcopy, hcopy]; rfl⟩
    | ok r => exact ⟨unreachable "vz::api", by rw [vtMemcopy, hcopy]; rfl⟩
  | hostToDevice =>
    cases hcopy : (s.vtCopyToDev dstAddr srcAddr size taskID kernelID).1 with
    | error e => exact ⟨e, by rw [vtMemcopy, hcopy]; rfl⟩
    | ok r => exact ⟨unreachable "vz::api", by rw [vtMemcopy, hcopy]; rfl⟩
  | other value => exact ⟨inputNotValid, rfl⟩

end Api

/-! ### Runs -/

/-- A buffer that `vt_malloc` gave to a task. -/
structure ApiBuffer where
  task : ℕ
  addr : ℕ
  size : ℕ
  deriving DecidableEq

/-- The arguments of a call of `vt_memcopy`. -/
structure Copy where
  dstAddr : ℕ
  srcAddr : ℕ
  size : ℕ
  taskID : ℕ
  kernelID : ℕ
  type : MemCopyType

/-- The interface, the buffers that it gave, and for each task the bytes last copied to the device. -/
structure ApiRun where
  api : Api
  buffers : List ApiBuffer
  latest : ℕ → ℕ → Option UInt8

inductive ApiOp
  | rootMemAlloc (taskID : ℤ)
  | malloc (size : ℕ) (bufType : BufferType) (taskID kernelID : ℕ)
  | memcopy (c : Copy)

namespace ApiRun

def copy (s : ApiRun) (c : Copy) : Except Failure ℤ × Api :=
  s.api.vtMemcopy c.dstAddr c.srcAddr c.size c.taskID c.kernelID c.type

/-- The bytes that a copy to the device takes from the host. -/
def copied (s : ApiRun) (c : Copy) (task addr : ℕ) : Option UInt8 :=
  if c.type = .hostToDevice ∧ task = c.taskID ∧ c.dstAddr ≤ addr ∧ addr < c.dstAddr + c.size then
    some (s.api.host (c.srcAddr + (addr - c.dstAddr)))
  else s.latest task addr

/-- A buffer is recorded when its call returns 0. -/
def given (r : Except Failure (ℤ × ℕ)) (task size : ℕ) : List ApiBuffer :=
  match r with
  | .ok (0, addr) => [⟨task, addr, size⟩]
  | _ => []

def exec (s : ApiRun) : ApiOp → ApiRun
  | .rootMemAlloc taskID => { s with api := (s.api.vtRootMemAlloc taskID).2 }
  | .malloc size bufType taskID kernelID =>
    let r := s.api.vtMalloc size bufType taskID kernelID
    { s with api := r.2, buffers := given r.1 taskID size ++ s.buffers }
  | .memcopy c => { s with api := (s.copy c).2, latest := s.copied c }

/-- The range of the copy on the device lies inside a buffer of its task; the host has an address. -/
def Inside (s : ApiRun) (c : Copy) : Prop :=
  0 < c.size ∧ ∃ b ∈ s.buffers, b.task = c.taskID ∧
    ((c.type = .hostToDevice ∧ c.srcAddr ≠ 0 ∧ b.addr ≤ c.dstAddr ∧
        c.dstAddr + c.size ≤ b.addr + b.size) ∨
      (c.type = .deviceToHost ∧ c.dstAddr ≠ 0 ∧ b.addr ≤ c.srcAddr ∧
        c.srcAddr + c.size ≤ b.addr + b.size))

/-- The copy returns 0, and a copy to the host delivers the bytes last copied to the device. -/
structure Copies (s : ApiRun) (c : Copy) : Prop where
  returns : (s.copy c).1 = .ok 0
  delivers : c.type = .deviceToHost → ∀ i < c.size, ∀ byte,
    s.latest c.taskID (c.srcAddr + i) = some byte → (s.copy c).2.host (c.dstAddr + i) = byte

/-- Every copy inside a buffer does what it should. -/
def Consistent (s : ApiRun) : Prop := ∀ c, s.Inside c → s.Copies c

end ApiRun

/-- Runs of the interface from a new device on. Exceptions are caught by the caller. -/
def apiSystem : TransitionSystem ApiRun ApiOp where
  init s := ∃ host, s = ⟨(Api.vtSetDevice host).2, [], fun _ _ => none⟩
  step s op t := t = s.exec op

namespace ApiRun
variable {s : ApiRun}

lemma not_copies (s : ApiRun) (c : Copy) : ¬ s.Copies c := by
  intro h
  obtain ⟨e, herr⟩ := s.api.vtMemcopy_throws c.dstAddr c.srcAddr c.size c.taskID c.kernelID c.type
  have hok := h.returns
  rw [copy, herr] at hok
  cases hok

/-- An empty request gives no buffer. -/
lemma given_malloc {api : Api} {size t k : ℕ} {bufType : BufferType} {b : ApiBuffer}
    (hb : b ∈ given (api.vtMalloc size bufType t k).1 t size) : 0 < b.size := by
  have hpos : size ≠ 0 := by
    rintro rfl
    cases hdevice : api.hdevice <;> simp [Api.vtMalloc, hdevice, given] at hb
  unfold given at hb
  split at hb
  · simp only [List.mem_singleton] at hb
    rw [hb]
    exact Nat.pos_of_ne_zero hpos
  · cases hb

lemma exec_buffers (h : ∀ b ∈ s.buffers, 0 < b.size) (op : ApiOp) : ∀ b ∈ (s.exec op).buffers, 0 < b.size := by
  cases op with
  | rootMemAlloc t => exact h
  | malloc size bufType t k =>
    intro b hb
    cases List.mem_append.mp hb with
    | inl hb => exact given_malloc hb
    | inr hb => exact h b hb
  | memcopy c => exact h

/-- In every state reached, the copies inside buffers do what they should exactly when there is no
buffer to copy to. -/
theorem consistent_iff (h : apiSystem.Reachable s) : s.Consistent ↔ s.buffers = [] := by
  have hpos : ∀ b ∈ s.buffers, 0 < b.size := by
    apply h.invariant (I := fun s => ∀ b ∈ s.buffers, 0 < b.size)
    · rintro s ⟨host, rfl⟩ b hb
      cases hb
    · rintro s op t hs - rfl
      exact exec_buffers hs op
  constructor
  · intro hcons
    cases hbuffers : s.buffers with
    | nil => rfl
    | cons b rest =>
      have hsize := hpos b (by rw [hbuffers]; exact List.mem_cons_self)
      let c : Copy := ⟨b.addr, 1, 1, b.task, 0, .hostToDevice⟩
      refine absurd (hcons c ⟨one_pos, b, by rw [hbuffers]; exact List.mem_cons_self, rfl, .inl ?_⟩)
        (s.not_copies c)
      exact ⟨rfl, one_ne_zero, le_rfl, Nat.add_le_add_left hsize b.addr⟩
  · rintro hnone c ⟨-, b, hb, -⟩
    rw [hnone] at hb
    cases hb

/-! ### Runs on concrete inputs -/

/-- A new device, for a host whose memory is zero. -/
def newDevice : ApiRun := ⟨(Api.vtSetDevice fun _ => 0).2, [], fun _ _ => none⟩

lemma newDevice_reachable : apiSystem.Reachable newDevice := .start ⟨_, rfl⟩

/-- Three tasks, and a buffer for the third that is too large: the call throws. -/
theorem consistent_iff_threeTasks : ∃ s d, apiSystem.Reachable s ∧ s.api.hdevice = some d ∧
    d.ctxLst.keys = [0, 1, 2] ∧
    (s.api.vtMalloc 0x20000000 .readWrite 2 0).1 =
      .error (.error "Manager::allocMemory" "buffer size too large") ∧
    (s.exec (.malloc 0x20000000 .readWrite 2 0)).Consistent := by
  let s := (newDevice.exec (.rootMemAlloc 1)).exec (.rootMemAlloc 2)
  have hreach : apiSystem.Reachable s := (newDevice_reachable.next trivial rfl).next trivial rfl
  have hdevice : s.api.hdevice.map (fun d => d.ctxLst.keys) = some [0, 1, 2] := by decide +kernel
  have hmalloc : (s.api.vtMalloc 0x20000000 .readWrite 2 0).1 =
      .error (.error "Manager::allocMemory" "buffer size too large") := by decide +kernel
  obtain ⟨d, hd, htasks⟩ := Option.map_eq_some_iff.mp hdevice
  have hnone : (s.exec (.malloc 0x20000000 .readWrite 2 0)).buffers = [] := by
    simp only [exec, hmalloc]
    rfl
  exact ⟨s, d, hreach, hd, htasks, hmalloc, (consistent_iff (hreach.next trivial rfl)).mpr hnone⟩

/-- A page is allocated for task 0, and four bytes are copied to it: the call throws. -/
theorem copy_to_buffer_throws : ∃ s c, apiSystem.Reachable s ∧ s.Inside c ∧
    (s.copy c).1 = .error (Api.unreachable "vz::api") ∧ ¬ s.Consistent := by
  let s := newDevice.exec (.malloc 4096 .readWrite 0 0)
  let c : Copy := ⟨0x60000000, 4096, 4, 0, 0, .hostToDevice⟩
  have hreach : apiSystem.Reachable s := newDevice_reachable.next trivial rfl
  have hgiven : given (newDevice.api.vtMalloc 4096 .readWrite 0 0).1 0 4096 = [⟨0, 0x60000000, 4096⟩] := by
    decide +kernel
  have hbuffer : (⟨0, 0x60000000, 4096⟩ : ApiBuffer) ∈ s.buffers :=
    List.mem_append_left _ (hgiven ▸ List.mem_singleton_self _)
  have hinside : s.Inside c :=
    ⟨by decide, _, hbuffer, rfl, .inl ⟨rfl, by decide, by decide, by decide⟩⟩
  have hthrows : (s.copy c).1 = .error (Api.unreachable "vz::api") := by decide +kernel
  exact ⟨s, c, hreach, hinside, hthrows, fun hcons => s.not_copies c (hcons c hinside)⟩

end ApiRun
end VentusDriver
