import VentusDriver.Device.Memory

/-! The memory controller of the device: one request buffer and one response slot behind
valid/ready ports. The words of a bundle are functions of their index; the arrays behind them hold
two words. -/
namespace VentusDriver
open Foundation

/-- A request. `ready` is an output of the controller, the other fields are inputs. -/
structure TLBundleA where
  opcode : ℕ
  size : ℕ
  source : ℕ
  address : ℕ
  mask : ℕ
  ready : ℕ
  valid : ℕ
  data : ℕ → ℕ

/-- A response. `ready` is an input of the controller, the other fields are outputs. -/
structure TLBundleD where
  opcode : ℕ
  size : ℕ
  source : ℕ
  ready : ℕ
  valid : ℕ
  data : ℕ → ℕ

structure MemController where
  req : TLBundleA
  rsp : TLBundleD
  data : ℕ → ℕ
  defaultDelay : ℕ
  timeRemain : ℕ
  inRsp : ℕ
  rw : ℕ
  num : ℕ
  reqValid : ℕ
  rspReady : ℕ
  reqReady : ℕ
  rspValid : ℕ
  addr : ℕ
  size : ℕ
  source : ℕ
  mask : ℕ

namespace MemController

/-- A controller for `num` threads whose registers happen to be zero; the source leaves them as
they are. -/
def zeroed (num : ℕ) : MemController :=
  ⟨⟨0, 0, 0, 0, 0, 0, 0, fun _ => 0⟩, ⟨0, 0, 0, 0, 0, fun _ => 0⟩, fun _ => 0, 0, 0, 0, 0, num, 0, 0, 0,
    0, 0, 0, 0, 0⟩

def reset (c : MemController) : MemController :=
  { c with
    rspValid := 0
    reqReady := 0
    req := { c.req with ready := 0 }
    rsp := { c.rsp with valid := 0, size := 0, opcode := 0, source := 0 }
    data := fun i => if i < c.num then 0 else c.data i
    timeRemain := 0
    rw := 0
    inRsp := 0 }

/-- The shadow registers take over the ports while the clock is high. -/
def sample (c : MemController) : MemController :=
  { c with
    rspReady := c.rsp.ready
    reqValid := c.req.valid
    rspValid := c.rsp.valid
    reqReady := c.req.ready }

/-- The latched request is carried out. Any opcode but 0 and 4 leaves the controller in its
response. -/
def respond (c : MemController) (mem : Memory) : MemController × Memory :=
  let rsp := { c.rsp with
    size := c.size
    source := c.source
    opcode := if c.rw = 4 then 1 else 0
    data := if c.rw = 4 then (mem.readPhy 4 c.addr c.num c.rsp.data none).2 else c.rsp.data }
  let mem := if c.rw = 0 then (mem.writePhy 4 c.addr c.num c.data (some (byteOf c.mask))).2 else mem
  let inRsp := if c.rw = 4 ∨ c.rw = 0 then 0 else c.inRsp
  ({ c with rsp := rsp, inRsp := inRsp, rw := 0, rspValid := 1, reqReady := 1 }, mem)

/-- The request at the port is latched. -/
def latch (c : MemController) : MemController :=
  { c with
    rw := c.req.opcode
    addr := c.req.address
    size := c.req.size
    source := c.req.source
    mask := c.req.mask
    inRsp := 1
    data := if c.req.opcode = 0 then fun i => if i < c.num then c.req.data i else c.data i else c.data
    timeRemain := c.defaultDelay }

/-- The ports take over the shadow registers. -/
def drive (c : MemController) : MemController :=
  { c with
    req := { c.req with ready := c.reqReady }
    rsp := { c.rsp with valid := c.rspValid } }

/-- The response port is raised before the registers are looked at. -/
def raise (c : MemController) : MemController := { c with rsp := { c.rsp with valid := 1 } }

/-- A controller without a request takes one. -/
def await (c : MemController) : MemController := { c with rspValid := 0, reqReady := 1 }

/-- A cycle of the delay. -/
def delay (c : MemController) : MemController :=
  { c with
    req := { c.req with ready := 0 }
    rsp := { c.rsp with valid := 0 }
    timeRemain := c.timeRemain - 1 }

/-- One evaluation; the result is the controller and the memory. -/
def eval (c : MemController) (clk : ℕ) (mem : Memory) : MemController × Memory :=
  if clk ≠ 0 then (c.sample, mem)
  else if c.timeRemain ≠ 0 then (c.delay, mem)
  else if c.raise.inRsp ≠ 0 then
    if c.raise.rsp.ready ≠ 0 ∧ c.raise.rsp.valid ≠ 0 then
      ((c.raise.respond mem).1.drive, (c.raise.respond mem).2)
    else (c.raise.drive, mem)
  else if c.raise.await.req.valid ≠ 0 ∧ c.raise.await.req.ready ≠ 0 then
    (c.raise.await.latch.drive, mem)
  else (c.raise.await.drive, mem)

end MemController
end VentusDriver
