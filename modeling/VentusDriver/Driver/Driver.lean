import VentusDriver.Driver.Manager

/-! The driver: tasks and their page-table roots, buffers, kernels and the blocks they fire. Every
call returns its result and the driver it leaves behind, also when it throws. -/
namespace VentusDriver
open Foundation

/-- The value that a signed integer takes in a 64-bit unsigned variable. -/
def u64OfInt (n : ℤ) : ℕ := (n % 2 ^ 64).toNat

/-- The value that a number takes in a 32-bit signed variable. -/
def i32 (n : ℕ) : ℤ := (n : ℤ).bmod (2 ^ 32)

/-- Shift left of a 64-bit unsigned value; a shift by its width or more is undefined. -/
def shl64 (x n : ℕ) : Except Failure ℕ :=
  if n < 64 then .ok (u64 (x <<< n)) else .error (.device .undefined)

/-- `(int)ceil(log2(n))`. -/
def ceilLog2 (n : ℕ) : ℕ := Nat.clog 2 n

/-- The metadata of a kernel, in 64-bit values. -/
structure KrlMeta where
  kernelId : ℕ
  kernelSize0 : ℕ
  kernelSize1 : ℕ
  kernelSize2 : ℕ
  wfSize : ℕ
  wgSize : ℕ
  baseAddr : ℕ
  ldsSize : ℕ
  pdsSize : ℕ
  sgprUsage : ℕ
  vgprUsage : ℕ
  pdsBaseAddr : ℕ

inductive KrlState
  | unfinish
  | finish
  deriving DecidableEq, Repr

structure KrlInfo where
  blkList : Std.ExtTreeMap ℤ KrlState
  state : KrlState

structure CtxInfo where
  ctxId : ℕ
  krlList : Std.ExtTreeMap ℕ KrlInfo
  root : ℕ

def CtxInfo.new (taskId : ℕ) : CtxInfo := ⟨taskId, ∅, 0⟩

structure Driver where
  processor : Processor
  finishedKernelLst : List ℤ
  addrMng : Manager
  ctxLst : Std.ExtTreeMap ℕ CtxInfo

namespace Driver

/-- The call came back: it returned or threw an exception. -/
def Returned {α : Type} (r : Except Failure α) : Prop :=
  match r with
  | .error .endless => False
  | .error (.device .undefined) => False
  | _ => True

instance {α : Type} : (r : Except Failure α) → Decidable (Returned r)
  | .ok _ => inferInstanceAs (Decidable True)
  | .error .endless => inferInstanceAs (Decidable False)
  | .error .outOfRange => inferInstanceAs (Decidable True)
  | .error (.error _ _) => inferInstanceAs (Decidable True)
  | .error (.device .undefined) => inferInstanceAs (Decidable False)
  | .error (.device .badAlloc) => inferInstanceAs (Decidable True)

def new : Driver := ⟨Processor.new, [], Manager.new, ∅⟩

/-- Exchange the memory of the device. -/
def setRam (d : Driver) (ram : Memory) : Driver :=
  { d with processor := { d.processor with ram := ram } }

/-! ### Tasks -/

def createDeviceMem (d : Driver) (taskID : ℕ) : Except Failure ℤ × Driver :=
  if taskID ∈ d.ctxLst then
    (.error (.error "vz::Device" s!"the taskID of {taskID} has been created, check your input!"), d)
  else
    match d.addrMng.createNewContext taskID with
    | .error e => (.error e, d)
    | .ok mgr =>
      let d := { d with addrMng := mgr, ctxLst := d.ctxLst.insert taskID (CtxInfo.new taskID) }
      match d.processor.ram.createRootPt with
      | .error fault => (.error (.device fault), d)
      | .ok (ret1, ram) =>
        (.ok (if ret1 = 0 then 1 else 0),
          { d.setRam ram with ctxLst := d.ctxLst.insert taskID { CtxInfo.new taskID with root := ret1 } })

/-- The test is that of `createDeviceMem`: the call throws for a task that was created, and erases
nothing for one that was not. -/
def deleteDeviceMem (d : Driver) (taskID : ℤ) : Except Failure ℤ × Driver :=
  if u64OfInt taskID ∈ d.ctxLst then
    (.error (.error "vz::Device" s!"the taskID of {taskID} has not been created, check your input!"), d)
  else (.ok 0, { d with ctxLst := d.ctxLst.erase (u64OfInt taskID) })

/-! ### Buffers -/

/-- The result is the return value and the virtual address. The task is passed on as the kernel and
the kernel as the context when the physical address is attached. -/
def allocLocalMem (d : Driver) (size : ℕ) (bufType : BufferType) (taskID kernelID : ℕ) :
    Except Failure (ℤ × ℕ) × Driver :=
  match d.ctxLst[taskID]? with
  | none => (.error (.error "vz::Device" "alloc_local_mem failed"), d)
  | some info =>
    if size = 0 then (.error (.error "vz::Device" "alloc_local_mem failed"), d)
    else
      match d.addrMng.allocMemory taskID kernelID size bufType with
      | .error e => (.error e, d)
      | .ok (vaddr, mgr) =>
        let d := { d with addrMng := mgr }
        match d.processor.ram.allocate info.root vaddr size with
        | .error fault => (.error (.device fault), d)
        | .ok (paddr, ram) =>
          let d := d.setRam ram
          if paddr = 0 then
            (.error (.error "vz::Device" "alloc_local_mem failed, can not alloc physical mem. "), d)
          else
            match d.addrMng.attachPaddr taskID kernelID vaddr paddr with
            | .error e => (.error e, d)
            | .ok (_, mgr) => (.ok (if vaddr = 0 then 1 else 0, vaddr), { d with addrMng := mgr })

/-- A task that the address manager knows and the driver does not is undefined behaviour. -/
def freeLocalMem (d : Driver) (size vaddr taskID kernelID : ℕ) : Except Failure ℤ × Driver :=
  if size = 0 ∨ d.addrMng.findContextID taskID = false then
    (.error (.error "vz::Device" "free_local_mem failed"), d)
  else
    match d.addrMng.releaseMemory taskID kernelID vaddr size with
    | .error e => (.error e, d)
    | .ok (_, mgr) =>
      let d := { d with addrMng := mgr }
      match d.ctxLst[taskID]? with
      | none => (.error (.device .undefined), d)
      | some info =>
        let r := d.processor.ram.release info.root vaddr
        (if r.1 = 0 then .ok 0 else .error (.error "vz::Device" "upload free_local_mem"), d.setRam r.2)

/-- `src` is what the host has from the source address on; a null pointer has nothing. -/
def upload (d : Driver) (devVaddr : ℕ) (src : Option (ℕ → UInt8)) (size taskID _kernelID : ℕ) :
    Except Failure ℤ × Driver :=
  match src, d.ctxLst[taskID]? with
  | some src, some info =>
    if size = 0 then (.error (.error "vz::Device" "upload failed"), d)
    else
      let r := d.processor.ram.writeVirt info.root devVaddr size src
      (if r.1 = 0 then .ok 0 else .error (.error "vz::Device" "upload failed"), d.setRam r.2)
  | _, _ => (.error (.error "vz::Device" "upload failed"), d)

/-- The result is the return value and what the host then has at the destination. -/
def download (d : Driver) (devVaddr : ℕ) (dst : Option (ℕ → UInt8)) (size taskID _kernelID : ℕ) :
    Except Failure ℤ × Option (ℕ → UInt8) :=
  match dst, d.ctxLst[taskID]? with
  | some dst, some info =>
    if size = 0 then (.error (.error "vz::Device" "download failed"), some dst)
    else
      let r := d.processor.ram.readVirt info.root devVaddr size dst
      (if r.1 = 0 then .ok 0 else .error (.error "vz::Device" "download failed"), some r.2)
  | _, _ => (.error (.error "vz::Device" "download failed"), dst)

/-! ### Kernels -/

/-- The identifier under which block `i` of a kernel is handed over. -/
def packWgId (kernelID taskID i : ℕ) : Except Failure ℕ := do
  let kernel ← shl64 kernelID (ceilLog2 maxContext)
  let context ← shl64 (kernel ||| taskID) (ceilLog2 maxKernel ||| kernelID)
  let block ← shl64 context (ceilLog2 (numSm * maxBlockPerSm) ||| i)
  pure (u32 (u32 block <<< ceilLog2 numSm))

/-- The port before the first block. -/
def kernelPort (inputData : KrlMeta) : HostPort where
  wgId := 0
  numWf := u32 inputData.wgSize
  wfSize := u32 inputData.wfSize
  startPc := 0x80000000
  vgprSizeTotal := u32 (inputData.wgSize * inputData.vgprUsage)
  sgprSizeTotal := u32 (inputData.wgSize * inputData.sgprUsage)
  ldsSizeTotal := u32 inputData.ldsSize
  gdsSizeTotal := 0
  vgprSizePerWf := u32 inputData.vgprUsage
  sgprSizePerWf := u32 inputData.sgprUsage
  gdsBaseaddr := 0
  pdsBaseaddr := u32 inputData.pdsBaseAddr
  csrKnl := u32 inputData.baseAddr
  kernelSize3d0 := u32 inputData.kernelSize0
  kernelSize3d1 := u32 inputData.kernelSize1
  kernelSize3d2 := u32 inputData.kernelSize2

/-- The port for block `i`. Most of what was computed for it is overwritten by constants. -/
def blockPort (port : HostPort) (inputData : KrlMeta) (pdsParam i wgId : ℕ) : HostPort :=
  let port := { port with
    pdsBaseaddr := u32 (inputData.pdsBaseAddr + i * pdsParam)
    wgId := wgId }
  { port with
    numWf := 2
    wfSize := 0x8
    kernelSize3d0 := 0
    kernelSize3d1 := 0
    kernelSize3d2 := 0
    vgprSizeTotal := 0x040
    sgprSizeTotal := 0x040
    gdsSizeTotal := 0
    vgprSizePerWf := 0x020
    sgprSizePerWf := 0x020
    startPc := 0x80000000
    pdsBaseaddr := 0x80001000
    csrKnl := 0x80023000
    ldsSizeTotal := 0x80
    gdsBaseaddr := 0x00000000 }

/-- Enter a block in the records of its kernel. `emplace` keeps an entry that exists, so only the
first block of a kernel is recorded. -/
def recordBlock (d : Driver) (taskID : ℕ) (info : CtxInfo) (kernelID wgId : ℕ) : Driver :=
  let firedBlk := (∅ : Std.ExtTreeMap ℤ KrlState).insertIfNew (i32 wgId) .unfinish
  let info := { info with krlList := info.krlList.insertIfNew kernelID ⟨firedBlk, .unfinish⟩ }
  { d with ctxLst := d.ctxLst.insert taskID info }

/-- One round of the firing loop. -/
def fireBlock (d : Driver) (taskID : ℕ) (info : CtxInfo) (kernelID : ℕ) (port : HostPort)
    (stores : List DeviceStore) : Driver :=
  recordBlock { d with processor := d.processor.run info.root port stores } taskID info kernelID port.wgId

/-- The firing loop with `n` blocks left; `device i` is what the device writes until it takes block `i`. -/
def fireBlocks (inputData : KrlMeta) (device : ℕ → List DeviceStore) (taskID pdsParam : ℕ) :
    ℕ → ℕ → HostPort → Driver → Except Failure ℤ × Driver
  | 0, _, _, d => (.ok 0, d)
  | n + 1, i, port, d =>
    match packWgId inputData.kernelId taskID i with
    | .error e => (.error e, d)
    | .ok wgId =>
      let port := blockPort port inputData pdsParam i wgId
      match d.ctxLst[taskID]? with
      | none => (.error (.device .undefined), d)
      | some info =>
        fireBlocks inputData device taskID pdsParam n (i + 1) port
          (d.fireBlock taskID info inputData.kernelId port (device i))

/-- What the device writes before block `i` does not matter from then on. -/
lemma fireBlocks_congr {inputData : KrlMeta} {device device' : ℕ → List DeviceStore} {taskID pdsParam n i : ℕ}
    {port : HostPort} {d : Driver} (h : ∀ j, i ≤ j → device j = device' j) :
    fireBlocks inputData device taskID pdsParam n i port d =
      fireBlocks inputData device' taskID pdsParam n i port d := by
  induction n generalizing i port d with
  | zero => rfl
  | succ n ih =>
    have hrest : ∀ j, i + 1 ≤ j → device j = device' j := fun j hj => h j (by omega)
    simp only [fireBlocks, h i le_rfl, ih hrest]

def start (d : Driver) (taskID : ℤ) (inputData : KrlMeta) (device : ℕ → List DeviceStore) :
    Except Failure ℤ × Driver :=
  let wgNum := u64 (inputData.kernelSize0 * inputData.kernelSize1 * inputData.kernelSize2)
  let pdsParam := u64 (inputData.pdsSize * inputData.wfSize * inputData.wgSize)
  if u64OfInt taskID ∈ d.ctxLst then
    fireBlocks inputData device (u64OfInt taskID) pdsParam wgNum 0 (kernelPort inputData) d
  else
    (.error (.error "vz::Device" s!"the taskID of {taskID} has not been created, check your input!"), d)

/-- A field of a finished block: the mask selects the one bit above the field's width. -/
def blockField (wgId : ℤ) (shift width : ℕ) : ℕ := u64OfInt (wgId >>> shift) &&& (1 <<< width)

def blockId (wgId : ℤ) : ℕ := blockField wgId (ceilLog2 numSm) (ceilLog2 (numSm * maxBlockPerSm))

def kernelIdOf (wgId : ℤ) : ℕ :=
  blockField wgId (ceilLog2 (numSm * maxBlockPerSm * numSm)) (ceilLog2 maxKernel)

def contextIdOf (wgId : ℤ) : ℕ :=
  blockField wgId (ceilLog2 (numSm * maxBlockPerSm * numSm * maxKernel)) (ceilLog2 maxContext)

/-- Every recorded block of a kernel is finished. -/
def allBlockFinished (blkList : Std.ExtTreeMap ℤ KrlState) : Bool :=
  blkList.toList.all fun it => decide (it.2 = .finish)

/-- The identifier of a kernel on the list of finished kernels. -/
def finishedId (contextID kernelID : ℕ) : ℤ := i32 (u64 (contextID <<< ceilLog2 maxContext) ||| kernelID)

/-- One finished block. The result is absent when the block is not legal. -/
def finishBlock (d : Driver) (wgId : ℤ) : Option Driver := do
  let info ← d.ctxLst[contextIdOf wgId]?
  let krl ← info.krlList[kernelIdOf wgId]?
  if (blockId wgId : ℤ) ∈ krl.blkList then
    let blkList := krl.blkList.insert (blockId wgId) .finish
    let all := allBlockFinished blkList
    let krl : KrlInfo := ⟨blkList, if all then .finish else krl.state⟩
    let info := { info with krlList := info.krlList.insert (kernelIdOf wgId) krl }
    let pushed := if all then [finishedId (contextIdOf wgId) (kernelIdOf wgId)] else []
    some { d with
      ctxLst := d.ctxLst.insert (contextIdOf wgId) info
      finishedKernelLst := d.finishedKernelLst ++ pushed }
  else none

/-- Cycles in which the device writes to memory. -/
def tick (d : Driver) (stores : List DeviceStore) : Driver :=
  { d with processor := d.processor.tick stores }

/-- The loop of `wait` over the queue that the processor returned. -/
def finishBlocks (d : Driver) : List ℤ → Except Failure ℤ × Driver
  | [] => (.ok 0, d)
  | wgId :: rest =>
    match d.finishBlock wgId with
    | none => (.error (.error "vz::Driver" "wait failed"), d)
    | some d => finishBlocks d rest

/-- The cycles of `wait` come first, then the blocks that the device has reported in them. -/
def wait (d : Driver) (ticks : Ticks) : Except Failure ℤ × Driver :=
  let r := d.processor.wait ticks
  finishBlocks { d with processor := r.1 } r.2

@[simp] lemma tick_finishedKernelLst (d : Driver) (stores : List DeviceStore) :
    (d.tick stores).finishedKernelLst = d.finishedKernelLst := rfl

@[simp] lemma tick_ctxLst (d : Driver) (stores : List DeviceStore) : (d.tick stores).ctxLst = d.ctxLst := rfl

@[simp] lemma tick_addrMng (d : Driver) (stores : List DeviceStore) : (d.tick stores).addrMng = d.addrMng :=
  rfl

lemma wait_eq (d : Driver) (ticks : Ticks) : d.wait ticks = (d.tick ticks.stores).finishBlocks ticks.finished :=
  rfl

/-! ### What the calls for tasks and buffers keep -/

/-- The register, the finished kernels and the tasks that exist are kept. -/
structure Kept (d d' : Driver) : Prop where
  register : d'.processor.root = d.processor.root
  finished : d'.finishedKernelLst = d.finishedKernelLst
  tasks : ∀ t ∈ d.ctxLst, d'.ctxLst[t]? = d.ctxLst[t]?

variable {d d' : Driver}

lemma Kept.refl (d : Driver) : Kept d d := ⟨rfl, rfl, fun _ _ => rfl⟩

lemma Kept.of_ctxLst (hctx : d'.ctxLst = d.ctxLst) (hregister : d'.processor.root = d.processor.root)
    (hfinished : d'.finishedKernelLst = d.finishedKernelLst) : Kept d d' :=
  ⟨hregister, hfinished, fun t _ => by rw [hctx]⟩

lemma mem_ctxLst {t : ℕ} : t ∈ d.ctxLst ↔ ∃ info, d.ctxLst[t]? = some info := by
  rw [Std.ExtTreeMap.mem_iff_isSome_getElem?, Option.isSome_iff_exists]

lemma getElem?_insert_ne {ctxLst : Std.ExtTreeMap ℕ CtxInfo} {t c : ℕ} {info : CtxInfo} (hne : t ≠ c) :
    (ctxLst.insert c info)[t]? = ctxLst[t]? := by
  rw [Std.ExtTreeMap.getElem?_insert, if_neg (by rw [Nat.compare_eq_eq]; exact hne.symm)]

/-- A call that creates a task enters it without kernels. -/
theorem createDeviceMem_kept (d : Driver) (c : ℕ) :
    Kept d (d.createDeviceMem c).2 ∧ ∀ t, t ∉ d.ctxLst → ∀ info,
      (d.createDeviceMem c).2.ctxLst[t]? = some info → t = c ∧ info.krlList = ∅ := by
  have hsame : ∀ t, t ∉ d.ctxLst → ∀ info, d.ctxLst[t]? = some info → t = c ∧ info.krlList = ∅ :=
    fun t hnot info hinfo => absurd (mem_ctxLst.mpr ⟨info, hinfo⟩) hnot
  -- the entry is made twice, the second time with the root
  have hinsert : ∀ d' : Driver, c ∉ d.ctxLst → (∃ info, info.krlList = ∅ ∧ d'.ctxLst[c]? = some info) →
      (∀ t, t ≠ c → d'.ctxLst[t]? = d.ctxLst[t]?) → d'.processor.root = d.processor.root →
      d'.finishedKernelLst = d.finishedKernelLst → Kept d d' ∧ ∀ t, t ∉ d.ctxLst → ∀ info,
        d'.ctxLst[t]? = some info → t = c ∧ info.krlList = ∅ := by
    rintro d' hnew ⟨info, hempty, hget⟩ hother hregister hfinished
    refine ⟨⟨hregister, hfinished, fun t ht => hother t fun heq => hnew (heq ▸ ht)⟩, ?_⟩
    intro t hnot info' hinfo
    by_cases hne : t = c
    · subst hne
      rw [hget] at hinfo
      exact ⟨rfl, Option.some.inj hinfo ▸ hempty⟩
    · rw [hother t hne] at hinfo
      exact hsame t hnot info' hinfo
  unfold createDeviceMem
  split_ifs with hmem
  · exact ⟨Kept.refl d, hsame⟩
  cases d.addrMng.createNewContext c with
  | error e => exact ⟨Kept.refl d, hsame⟩
  | ok mgr =>
    simp only
    cases d.processor.ram.createRootPt with
    | error fault =>
      exact hinsert _ hmem ⟨CtxInfo.new c, rfl, by simp⟩ (fun t hne => getElem?_insert_ne hne) rfl rfl
    | ok r =>
      exact hinsert _ hmem ⟨{ CtxInfo.new c with root := r.1 }, rfl, by simp⟩
        (fun t hne => (getElem?_insert_ne hne).trans (getElem?_insert_ne hne)) rfl rfl

lemma deleteDeviceMem_kept (d : Driver) (c : ℤ) : Kept d (d.deleteDeviceMem c).2 := by
  unfold deleteDeviceMem
  split_ifs with hmem
  · exact Kept.refl d
  · refine ⟨rfl, rfl, fun t ht => ?_⟩
    rw [Std.ExtTreeMap.getElem?_erase, if_neg]
    rw [Nat.compare_eq_eq]
    exact fun heq => hmem (heq ▸ ht)

lemma allocLocalMem_kept (d : Driver) (size : ℕ) (bufType : BufferType) (t k : ℕ) :
    Kept d (d.allocLocalMem size bufType t k).2 := by
  unfold allocLocalMem
  cases d.ctxLst[t]? with
  | none => exact Kept.refl d
  | some info =>
    simp only
    split_ifs with hsize
    · exact Kept.refl d
    cases d.addrMng.allocMemory t k size bufType with
    | error e => exact Kept.refl d
    | ok r =>
      simp only
      cases d.processor.ram.allocate info.root r.1 size with
      | error fault => exact .of_ctxLst rfl rfl rfl
      | ok q =>
        simp only
        by_cases hp : q.1 = 0
        · rw [if_pos hp]
          exact .of_ctxLst rfl rfl rfl
        · rw [if_neg hp]
          split
          · exact .of_ctxLst rfl rfl rfl
          · exact .of_ctxLst rfl rfl rfl

lemma freeLocalMem_kept (d : Driver) (size v t k : ℕ) : Kept d (d.freeLocalMem size v t k).2 := by
  unfold freeLocalMem
  split_ifs with hrefused
  · exact Kept.refl d
  cases d.addrMng.releaseMemory t k v size with
  | error e => exact Kept.refl d
  | ok r =>
    simp only
    cases d.ctxLst[t]? with
    | none => exact .of_ctxLst rfl rfl rfl
    | some info => exact .of_ctxLst rfl rfl rfl

end Driver
end VentusDriver
