import VentusDriver.Rtl.Walker

/-! The memory management unit: two levels of TLB that pass requests and responses on, the two walkers,
a page cache that passes requests and responses on for each walker, and the arbiter at the memory port.
The test bench around it cuts the ports of the host and of the bus down to size. -/
namespace VentusDriver.Rtl
open Foundation

/-- A request buffer one way and a response buffer the other way. -/
structure Relay (Req Rsp : Type) where
  reqFifo : OneQueue Req
  rspFifo : OneQueue Rsp
  deriving DecidableEq, Repr

namespace Relay
variable {Req Rsp : Type} (r : Relay Req Rsp)

def reqReady : Bool := r.reqFifo.enqReady
def req : Decoupled Req := r.reqFifo.deq
def rspReady : Bool := r.rspFifo.enqReady
def rsp : Decoupled Rsp := r.rspFifo.deq

def next (reset : Bool) (inReq : Decoupled Req) (outReqReady : Bool) (outRsp : Decoupled Rsp)
    (inRspReady : Bool) : Relay Req Rsp where
  reqFifo := r.reqFifo.next reset inReq outReqReady
  rspFifo := r.rspFifo.next reset outRsp inRspReady

end Relay

/-- `l2tlb_req_fifo` and `tlb_rsp_fifo`. -/
abbrev TLB := Relay TlbBits AddrBits

/-- `ptw_req_fifo` and `l2tlb_rsp_fifo`. -/
abbrev L2TLB := Relay TlbBits AddrBits

/-- `mem_req_fifo` and `mem_rsp_fifo`. -/
abbrev PageCache := Relay AddrBits AddrBits

structure MMU where
  tlb : TLB
  l2tlb : L2TLB
  ptw : FistLevelPTW
  llptw : LastLevelPTW
  pageCache : PageCache
  llPageCache : PageCache

namespace MMU

/-- The inputs of a cycle. -/
structure In where
  mmuReq : Decoupled TlbBits
  mmuRspReady : Bool
  memReqReady : Bool
  memRsp : Decoupled MemRspBits
  deriving DecidableEq, Repr

variable (s : MMU) (io : In)

def mmuReqReady : Bool := s.tlb.reqReady

def mmuRsp : Decoupled AddrBits := s.tlb.rsp

def memReq : Decoupled MemReqBits := MMUMemArbiter.reqOut s.llPageCache.req s.pageCache.req

/-- The readiness of the response buffer that the tag selects. -/
def memRspReady (rsp : MemRspBits) : Bool :=
  MMUMemArbiter.rspReady rsp s.llPageCache.rspReady s.pageCache.rspReady

def ptwIn : Walker.In TlbBits where
  req := s.l2tlb.req
  memReady := s.pageCache.reqReady
  memRsp := s.pageCache.rsp
  outReady := s.llptw.reqReady

def llptwIn : Walker.In AddrBits where
  req := s.ptw.out fistLevelPTW
  memReady := s.llPageCache.reqReady
  memRsp := s.llPageCache.rsp
  outReady := s.l2tlb.rspReady

/-- The request of a page cache is taken at the memory port. -/
def memReady (port : Bool) : Bool := MMUMemArbiter.reqReady s.llPageCache.req io.memReqReady port

def next (reset : Bool) : MMU where
  tlb := s.tlb.next reset io.mmuReq s.l2tlb.reqReady s.l2tlb.rsp io.mmuRspReady
  l2tlb := s.l2tlb.next reset s.tlb.req s.ptw.reqReady (s.llptw.out lastLevelPTW) s.tlb.rspReady
  ptw := s.ptw.next fistLevelPTW reset s.ptwIn
  llptw := s.llptw.next lastLevelPTW reset s.llptwIn
  pageCache := s.pageCache.next reset (s.ptw.memReq fistLevelPTW) (s.memReady io true)
    (MMUMemArbiter.rspOut io.memRsp true) s.ptw.memRspReady
  llPageCache := s.llPageCache.next reset (s.llptw.memReq lastLevelPTW) (s.memReady io false)
    (MMUMemArbiter.rspOut io.memRsp false) s.llptw.memRspReady

end MMU

namespace MMUtest

/-- The fields of a host request that the unit reads: 5, 32 and 32 bits. -/
structure HostReq where
  wgId : BitVec 5
  startPc : BitVec 32
  gdsBaseaddr : BitVec 32
  deriving DecidableEq, Repr

/-- The inputs of a cycle; of the bus response the source has 4 bits. -/
structure In where
  hostReq : Decoupled HostReq
  hostRspReady : Bool
  outAReady : Bool
  outD : Decoupled (BitVec 4 × BitVec 64)
  deriving DecidableEq, Repr

/-- A read on the bus. -/
structure OutA where
  opcode : BitVec 3
  size : BitVec 3
  source : BitVec 4
  address : BitVec 32
  mask : BitVec 2
  data : BitVec 64
  deriving DecidableEq, Repr

def mmuReqBits (r : HostReq) : TlbBits :=
  ⟨r.startPc.setWidth 64, r.gdsBaseaddr.setWidth 64, r.wgId.extractLsb' 0 2⟩

def mmuIn (io : In) : MMU.In where
  mmuReq := io.hostReq.map mmuReqBits
  mmuRspReady := io.hostRspReady
  memReqReady := io.outAReady
  memRsp := io.outD.map fun d => ⟨d.2, d.1.extractLsb' 0 3⟩

def hostReqReady (s : MMU) : Bool := s.mmuReqReady

def outABits (r : MemReqBits) : OutA :=
  ⟨4#3, 0#3, r.source.setWidth 4, r.addr.setWidth 32, 1#2, 0#64⟩

def outA (s : MMU) : Decoupled OutA := s.memReq.map outABits

def outDReady (s : MMU) (io : In) : Bool := s.memRspReady (mmuIn io).memRsp.bits

/-- The tag goes back to the host as the identifier of the work group. -/
def hostRsp (s : MMU) : Decoupled (BitVec 5) := s.mmuRsp.map fun r => r.source.setWidth 5

/-- What is printed when a response is taken: the translation and its tag. -/
def printed (s : MMU) (io : In) : Option (BitVec 64 × BitVec 2) :=
  if s.mmuRsp.fire io.hostRspReady then some (s.mmuRsp.bits.addr, s.mmuRsp.bits.source) else none

def next (s : MMU) (io : In) (reset : Bool) : MMU := s.next (mmuIn io) reset

end MMUtest
end VentusDriver.Rtl
