import VentusDriver.Foundation.Word
import VentusDriver.Device.MemController

/-! The processor around the device: its constants, the port through which work is handed over, and
the port through which the device reaches memory. The device itself is not part of the program: what it
does in the cycles of a call is given with the call. -/
namespace VentusDriver
open Foundation

def ramRange : ℕ := 4096 * 1024 * 1024
def blockSize : ℕ := 64
def maxContext : ℕ := 4
def maxKernel : ℕ := 4
def numSm : ℕ := 2
def maxBlockPerSm : ℕ := 32
def numThread : ℕ := 8

/-- Round up to a multiple of a power of two, in 64-bit arithmetic. -/
def alignedSize (size alignBlock : ℕ) : ℕ := u64 (size + alignBlock - 1) &&& not64 (alignBlock - 1)

lemma alignedSize_eq {size k : ℕ} (hk : k ≤ 64) (hlt : size + 2 ^ k - 1 < 2 ^ 64) :
    alignedSize size (2 ^ k) = (size + 2 ^ k - 1) / 2 ^ k * 2 ^ k := by
  rw [alignedSize, u64_of_lt hlt, and_not64_low hlt hk]

/-- The request for one block, in 32-bit values. -/
structure HostPort where
  wgId : ℕ
  numWf : ℕ
  wfSize : ℕ
  startPc : ℕ
  vgprSizeTotal : ℕ
  sgprSizeTotal : ℕ
  ldsSizeTotal : ℕ
  gdsSizeTotal : ℕ
  vgprSizePerWf : ℕ
  sgprSizePerWf : ℕ
  gdsBaseaddr : ℕ
  pdsBaseaddr : ℕ
  csrKnl : ℕ
  kernelSize3d0 : ℕ
  kernelSize3d1 : ℕ
  kernelSize3d2 : ℕ
  deriving DecidableEq, Repr

/-- The memory port, from the device. -/
structure DeviceOut where
  aOpcode : ℕ
  aSource : ℕ
  aAddress : ℕ
  aMask : ℕ
  aData : ℕ → ℕ
  aValid : ℕ
  dReady : ℕ

/-- The memory port, to the device. -/
structure DeviceIn where
  aReady : ℕ
  dOpcode : ℕ
  dSize : ℕ
  dSource : ℕ
  dData : ℕ → ℕ
  dValid : ℕ

/-- A write of the device as its controller carries it out: the latched address, words and mask. -/
structure DeviceStore where
  addr : ℕ
  data : ℕ → ℕ
  mask : ℕ
  /-- The address on the request port has 32 bits. -/
  narrow : addr < 2 ^ 32

def DeviceStore.perform (w : DeviceStore) (m : Memory) : Memory :=
  (m.writePhy 4 w.addr numThread w.data (some (byteOf w.mask))).2

/-- The memory after some writes of the device. -/
def Memory.stored (m : Memory) (stores : List DeviceStore) : Memory :=
  stores.foldl (fun m w => w.perform m) m

lemma Memory.stored_append (m : Memory) (stores stores' : List DeviceStore) :
    m.stored (stores ++ stores') = (m.stored stores).stored stores' := List.foldl_append

/-- What the device does in the cycles of one call: its writes in order, and the blocks that it
reports as finished. -/
structure Ticks where
  stores : List DeviceStore
  finished : List ℤ

/-- The translation of device addresses uses one register, the root of the last run. The requests
handed to the device are kept in order. -/
structure Processor where
  ram : Memory
  root : ℕ
  handed : List HostPort

namespace Processor

def new : Processor := ⟨Memory.new ramRange, 0x20000000, []⟩

/-- Calls of `tick`, of which the host sees what the controller writes. -/
def tick (p : Processor) (stores : List DeviceStore) : Processor :=
  { p with ram := p.ram.stored stores }

/-- `wait`, with the queue of finished blocks that it returns. -/
def wait (p : Processor) (ticks : Ticks) : Processor × List ℤ := (p.tick ticks.stores, ticks.finished)

/-- The start of `run`: the register is set and the request is put on the port. -/
def offer (p : Processor) (root : ℕ) : Processor := { p with root := root }

/-- The end of `run`: the device has taken the request. -/
def accept (p : Processor) (inputSig : HostPort) : Processor :=
  { p with handed := p.handed ++ [inputSig] }

/-- Hand a block to the device; the cycles until it is taken carry out the given writes. -/
def run (p : Processor) (root : ℕ) (inputSig : HostPort) (stores : List DeviceStore) : Processor :=
  ((p.offer root).tick stores).accept inputSig

/-- The ports are copied while the clock is high. The size of a request is its opcode. -/
def getRamBitsPort (p : Processor) (c : MemController) (out : DeviceOut) :
    MemController × DeviceIn :=
  ({ c with
      req := ⟨out.aOpcode, out.aOpcode, out.aSource, u32 (p.ram.convert p.root out.aAddress),
        out.aMask, c.req.ready, out.aValid, fun i =>
          if i < numThread then out.aData i else c.req.data i⟩
      rsp := { c.rsp with ready := out.dReady } },
    ⟨c.req.ready, c.rsp.opcode, c.rsp.size, c.rsp.source, c.rsp.data, c.rsp.valid⟩)

/-- A cycle of the clock, from high to high. -/
def cycle (p : Processor) (c : MemController) (out : DeviceOut) :
    Processor × MemController × DeviceIn :=
  let ports := p.getRamBitsPort c out
  let low := ports.1.eval 0 p.ram
  let high := low.1.eval 1 low.2
  ({ p with ram := high.2 }, high.1, ports.2)

/-- Some cycles, with the memory port as the device sets it in each of them. -/
def cycles (p : Processor) (c : MemController) : List DeviceOut → Processor × MemController
  | [] => (p, c)
  | out :: outs => let r := p.cycle c out; cycles r.1 r.2.1 outs

variable {c : MemController}

lemma tick_append (p : Processor) (stores stores' : List DeviceStore) :
    p.tick (stores ++ stores') = (p.tick stores).tick stores' := by
  simp only [tick, Memory.stored_append]

/-- A cycle carries out the latched write or none. -/
lemma cycle_tick (p : Processor) (hnum : c.num = numThread) (haddr : c.addr < 2 ^ 32) (out : DeviceOut) :
    (∃ stores, (p.cycle c out).1 = p.tick stores) ∧ (p.cycle c out).2.1.num = numThread ∧
      (p.cycle c out).2.1.addr < 2 ^ 32 := by
  have hport : (p.getRamBitsPort c out).1.req.address < 2 ^ 32 := Nat.mod_lt _ (by norm_num)
  have hkept : ∃ stores, ((p.getRamBitsPort c out).1.eval 0 p.ram).2 = (p.tick stores).ram ∧
      ((p.getRamBitsPort c out).1.eval 0 p.ram).1.num = numThread ∧
      ((p.getRamBitsPort c out).1.eval 0 p.ram).1.addr < 2 ^ 32 := by
    unfold MemController.eval
    rw [if_neg (by norm_num)]
    split_ifs with hwait hin hready htake
    · exact ⟨[], rfl, hnum, haddr⟩
    · by_cases hrw : c.rw = 0
      · refine ⟨[⟨c.addr, c.data, c.mask, haddr⟩], ?_, hnum, haddr⟩
        show (if c.rw = 0 then (p.ram.writePhy 4 c.addr c.num c.data (some (byteOf c.mask))).2
          else p.ram) = _
        rw [if_pos hrw, hnum]
        rfl
      · exact ⟨[], if_neg hrw, hnum, haddr⟩
    · exact ⟨[], rfl, hnum, haddr⟩
    · exact ⟨[], rfl, hnum, hport⟩
    · exact ⟨[], rfl, hnum, haddr⟩
  obtain ⟨stores, hram, hnum', haddr'⟩ := hkept
  refine ⟨⟨stores, ?_⟩, hnum', haddr'⟩
  show { p with ram := ((p.getRamBitsPort c out).1.eval 0 p.ram).2 } = p.tick stores
  rw [hram]
  rfl

/-- Whatever the device does, what its cycles do to the processor is a list of writes. -/
theorem cycles_tick (p : Processor) (hnum : c.num = numThread) (haddr : c.addr < 2 ^ 32)
    (outs : List DeviceOut) : ∃ stores, (p.cycles c outs).1 = p.tick stores ∧
      (p.cycles c outs).2.num = numThread ∧ (p.cycles c outs).2.addr < 2 ^ 32 := by
  induction outs generalizing p c with
  | nil => exact ⟨[], rfl, hnum, haddr⟩
  | cons out outs ih =>
    obtain ⟨⟨stores, hfirst⟩, hnum', haddr'⟩ := p.cycle_tick hnum haddr out
    obtain ⟨stores', hrest, hkept⟩ := ih (p.cycle c out).1 hnum' haddr'
    refine ⟨stores ++ stores', ?_, hkept⟩
    rw [cycles, hrest, hfirst, tick_append]

end Processor
end VentusDriver
