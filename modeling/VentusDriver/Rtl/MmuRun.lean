import VentusDriver.Foundation.Transition
import VentusDriver.Rtl.Mmu
import VentusDriver.Rtl.WalkerRules

/-! Runs of the memory management unit with a host that asks for translations and a memory that
answers reads, late and in any order. What the unit should do is stated without it: a request is
answered by the leaf of a three-level walk, with the tag of the request. -/
namespace VentusDriver.Rtl
open Foundation Foundation.TagTable

section Walk
variable (mem : BitVec 64 → BitVec 64)

/-- The leaf below the table at page `ppn`, which is `level` tables above the last one. -/
def walkFrom : ℕ → BitVec 44 → BitVec 27 → BitVec 64
  | 0, ppn, vpn => mem (pteAddr ppn vpn 0#2)
  | level + 1, ppn, vpn =>
    walkFrom level (ptePpn (mem (pteAddr ppn vpn (BitVec.ofNat 2 (level + 1))))) vpn

/-- The response that a request should get. -/
def answer (r : TlbBits) : AddrBits :=
  ⟨walkFrom mem 2 (r.ptbr.extractLsb' 0 44) (r.addr.extractLsb' 12 27), r.source⟩

/-- The response of memory to a read. -/
def load (b : AddrBits) : AddrBits := ⟨mem b.addr, b.source⟩

/-- The same at the memory port. -/
def loadPort (r : MemReqBits) : MemRspBits := ⟨mem r.addr, r.source⟩

/-- What an entry of the upper walker will lead to. -/
def ptwAnswer (e : PtwEntry) : AddrBits := ⟨walkFrom mem e.curLevel.toNat e.ppn e.vpn, e.source⟩

end Walk

/-- The unit, the reads that memory has taken and not answered, the requests that the host has handed
over, and the responses that it has taken. -/
structure MmuRun where
  mmu : MMU
  asked : Multiset MemReqBits
  accepted : Multiset TlbBits
  answered : Multiset AddrBits

/-- A cycle: what the host and the memory drive. Memory offers the response to a read. -/
structure MmuCycle where
  mmuReq : Decoupled TlbBits
  mmuRspReady : Bool
  memReqReady : Bool
  memRsp : Decoupled MemReqBits
  deriving DecidableEq, Repr

namespace MmuRun
variable (mem : BitVec 64 → BitVec 64) (s : MmuRun) (c : MmuCycle)

def input (c : MmuCycle) : MMU.In where
  mmuReq := c.mmuReq
  mmuRspReady := c.mmuRspReady
  memReqReady := c.memReqReady
  memRsp := c.memRsp.map (loadPort mem)

/-- The read that memory takes in this cycle. -/
def taken : Multiset MemReqBits := s.mmu.memReq.sent c.memReqReady

/-- The read whose response the unit takes in this cycle. -/
def served : Multiset MemReqBits :=
  c.memRsp.sent (s.mmu.memRspReady (loadPort mem c.memRsp.bits))

/-- The response that the host takes in this cycle. -/
def delivered : Multiset AddrBits := s.mmu.mmuRsp.sent c.mmuRspReady

def exec : MmuRun where
  mmu := s.mmu.next (input mem c) false
  asked := s.asked + s.taken c - s.served mem c
  accepted := s.accepted + c.mmuReq.sent s.mmu.mmuReqReady
  answered := s.answered + s.delivered c

/-- Memory answers a read that it has taken, and answers it once. -/
def Honest : Prop := c.memRsp.valid = true → c.memRsp.bits ∈ s.asked + s.taken c

/-- The tags for which the host has no response yet at the end of this cycle. -/
def outstanding : Multiset (BitVec 2) :=
  s.accepted.map TlbBits.source - (s.answered + s.delivered c).map AddrBits.source

/-- The host does not use a tag while it waits for a response with this tag. -/
def FreshTag : Prop := c.mmuReq.valid = true → c.mmuReq.bits.source ∉ s.outstanding c

/-- The entry that the last walker gives up is the one that it sends. -/
def RspInOrder (_ : MmuCycle) : Prop :=
  s.mmu.llptw.sends lastLevelPTW s.mmu.llptwIn = true →
    s.mmu.llptw.deqPtr = s.mmu.llptw.outArb.port (s.mmu.llptw.outIn lastLevelPTW)

/-- The environment of the unit. -/
def Fair : Prop := s.Honest c ∧ s.FreshTag c

end MmuRun

/-- Runs from a reset on. -/
def mmuSystem (mem : BitVec 64 → BitVec 64) : TransitionSystem MmuRun MmuCycle where
  init s := ∃ (power : MMU) (io : MMU.In), s = ⟨power.next io true, 0, 0, 0⟩
  step s c t := t = s.exec mem c

namespace MmuRun
variable (mem : BitVec 64 → BitVec 64)

/-- The answers that the unit holds, each at the stage that its request has reached. -/
def held (s : MMU) : Multiset AddrBits :=
  s.tlb.reqFifo.held.map (answer mem) + s.l2tlb.reqFifo.held.map (answer mem) +
    Walker.tokens (ptwAnswer mem) (ptwAnswer mem) s.ptw + Walker.tokens (load mem) id s.llptw +
    s.l2tlb.rspFifo.held + s.tlb.rspFifo.held

/-- The responses that are under way to a walker: as reads in its page cache, as reads in memory, and
in its page cache again. -/
def underway (cache : PageCache) (asked : Multiset MemReqBits) (port : Bool) : Multiset AddrBits :=
  cache.reqFifo.held.map (load mem) +
    (asked.filter fun r => MMUMemArbiter.portOf r.source = port).map
      (fun r => ⟨mem r.addr, r.source.extractLsb' 0 2⟩) +
    cache.rspFifo.held

/-- The level of an entry of the upper walker. -/
def LevelOk : Phase → PtwEntry → Prop
  | .idle, _ => True
  | .asking, e => e.curLevel = 1#2 ∨ e.curLevel = 2#2
  | .waiting, e => e.curLevel = 1#2 ∨ e.curLevel = 2#2
  | .done, e => e.curLevel = 0#2

/-- The books of the unit are right: every request is answered or held, tags are distinct, both walkers
wait for what is under way to them, and at most one entry of the upper walker is at its last port. -/
structure Sound (s : MmuRun) : Prop where
  books : s.accepted.map (answer mem) = s.answered + held mem s.mmu
  distinct : ((held mem s.mmu).map AddrBits.source).Nodup
  level : ∀ i, LevelOk (s.mmu.ptw.state i) (s.mmu.ptw.entries i)
  upper : Walker.awaited fistLevelPTW (load mem) s.mmu.ptw = underway mem s.mmu.pageCache s.asked true
  last : Walker.awaited lastLevelPTW (load mem) s.mmu.llptw =
    underway mem s.mmu.llPageCache s.asked false
  single : ∀ i j, s.mmu.ptw.state i = .done → s.mmu.ptw.state j = .done → i = j

end MmuRun
end VentusDriver.Rtl
