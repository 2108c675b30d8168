import VentusDriver.Rtl.Answers
import VentusDriver.Rtl.PageWalk

/-! The test bench around the memory management unit, between a host and a bus of 32-bit addresses. Its
runs are runs of the unit over a memory that sees the low half of an address. Over the page tables of
the driver, which lie below that bound, the bench prints the leaf entries of the driver's translations. -/
namespace VentusDriver.Rtl
open Foundation

/-- The bench, the reads that the bus has taken and not answered, the requests of the host, what was
printed, and the work groups that the host was told. -/
structure BenchRun where
  mmu : MMU
  asked : Multiset MMUtest.OutA
  accepted : Multiset MMUtest.HostReq
  printed : Multiset (BitVec 64 × BitVec 2)
  finished : Multiset (BitVec 5)

/-- A cycle: what the host and the bus drive. The bus offers the response to a read. -/
structure BenchCycle where
  hostReq : Decoupled MMUtest.HostReq
  hostRspReady : Bool
  outAReady : Bool
  outD : Decoupled MMUtest.OutA
  deriving DecidableEq, Repr

namespace BenchRun
open MMUtest
variable (bus : BitVec 32 → BitVec 64) (s : BenchRun) (c : BenchCycle)

def input (c : BenchCycle) : MMUtest.In :=
  ⟨c.hostReq, c.hostRspReady, c.outAReady, c.outD.map fun a => (a.source, bus a.address)⟩

/-- The read that the bus takes in this cycle. -/
def taken : Multiset OutA := (outA s.mmu).sent c.outAReady

/-- What is printed in this cycle. -/
def prints : Multiset (BitVec 64 × BitVec 2) :=
  (MMUtest.printed s.mmu (input bus c)).elim 0 fun line => {line}

def exec : BenchRun where
  mmu := MMUtest.next s.mmu (input bus c) false
  asked := s.asked + s.taken c - c.outD.sent (outDReady s.mmu (input bus c))
  accepted := s.accepted + c.hostReq.sent (hostReqReady s.mmu)
  printed := s.printed + s.prints bus c
  finished := s.finished + (hostRsp s.mmu).sent c.hostRspReady

/-- The tag of a request: two bits of the work group. -/
def tagOf (r : HostReq) : BitVec 2 := r.wgId.extractLsb' 0 2

/-- The bus answers a read that it has taken, and answers it once. -/
def Honest : Prop := c.outD.valid = true → c.outD.bits ∈ s.asked + s.taken c

/-- The host does not use a tag while it waits for a response with this tag. -/
def FreshTag : Prop := c.hostReq.valid = true →
  tagOf c.hostReq.bits ∉ s.accepted.map tagOf - (s.printed + s.prints bus c).map Prod.snd

/-- A bus that is honest and a host that is ready for every response. -/
def Fair : Prop := s.Honest c ∧ s.FreshTag bus c ∧ c.hostRspReady = true

end BenchRun

def benchSystem (bus : BitVec 32 → BitVec 64) : TransitionSystem BenchRun BenchCycle where
  init s := ∃ (power : MMU) (io : MMUtest.In), s = ⟨MMUtest.next power io true, 0, 0, 0, 0⟩
  step s c t := t = s.exec bus c

/-! ### Runs of the unit -/

/-- Memory behind the bus. -/
def busMem (bus : BitVec 32 → BitVec 64) (a : BitVec 64) : BitVec 64 := bus (a.setWidth 32)

namespace BenchRun
open MMUtest
variable {bus : BitVec 32 → BitVec 64} {b : BenchRun} {c : BenchCycle} {s : MmuRun}

/-- A state of the bench and the state of the unit in it. -/
structure Follows (b : BenchRun) (s : MmuRun) : Prop where
  mmu : s.mmu = b.mmu
  asked : s.asked.map outABits = b.asked
  accepted : b.accepted.map mmuReqBits = s.accepted
  printed : b.printed = s.answered.map fun a => (a.addr, a.source)
  finished : b.finished = s.answered.map fun a => a.source.setWidth 5

lemma prints_eq : b.prints bus c = (b.mmu.mmuRsp.sent c.hostRspReady).map fun a => (a.addr, a.source) := by
  have hready : (input bus c).hostRspReady = c.hostRspReady := rfl
  rw [prints, MMUtest.printed, hready]
  cases hfire : b.mmu.mmuRsp.fire c.hostRspReady with
  | false => simp [Decoupled.sent_of_not_fire hfire]
  | true => simp [Decoupled.sent_of_fire hfire]

lemma Follows.taken (h : Follows b s) (ready : Bool) :
    ((s.mmu.memReq.sent ready).map outABits) = (outA b.mmu).sent ready := by
  rw [outA, Decoupled.sent_map, h.mmu]

/-- The read of the unit that a read on the bus stands for. -/
lemma Follows.read (h : Follows b s) (honest : b.Honest c) :
    ∃ x : MemReqBits, x.addr.setWidth 32 = c.outD.bits.address ∧
      x.source = c.outD.bits.source.extractLsb' 0 3 ∧ (c.outD.valid = true →
        x ∈ s.asked + s.mmu.memReq.sent c.outAReady ∧ outABits x = c.outD.bits) := by
  cases hvalid : c.outD.valid with
  | false =>
    refine ⟨⟨c.outD.bits.address.setWidth 64, c.outD.bits.source.extractLsb' 0 3⟩, ?_, rfl, by simp⟩
    exact BitVec.setWidth_setWidth_of_le _ (by norm_num)
  | true =>
    have hmem := honest hvalid
    rw [BenchRun.taken, ← h.taken, ← h.asked, ← Multiset.map_add] at hmem
    obtain ⟨x, hx, heq⟩ := Multiset.mem_map.mp hmem
    refine ⟨x, ?_, ?_, fun _ => ⟨hx, heq⟩⟩
    · rw [← heq]; rfl
    · rw [← heq]
      simp only [outABits]
      generalize x.source = source
      revert source
      decide

/-- The cycle of the unit in a cycle of the bench. -/
def unitCycle (c : BenchCycle) (x : MemReqBits) : MmuCycle where
  mmuReq := c.hostReq.map mmuReqBits
  mmuRspReady := c.hostRspReady
  memReqReady := c.outAReady
  memRsp := ⟨c.outD.valid, x⟩

lemma unitCycle_input {x : MemReqBits} (haddr : x.addr.setWidth 32 = c.outD.bits.address)
    (hsource : x.source = c.outD.bits.source.extractLsb' 0 3) :
    MmuRun.input (busMem bus) (unitCycle c x) = mmuIn (input bus c) := by
  simp [MmuRun.input, unitCycle, mmuIn, input, loadPort, busMem, Decoupled.map, haddr, hsource]

/-- The read whose response is taken. -/
lemma Follows.served (h : Follows b s) {x : MemReqBits}
    (hinput : MmuRun.input (busMem bus) (unitCycle c x) = mmuIn (input bus c))
    (hread : c.outD.valid = true → outABits x = c.outD.bits) :
    (s.served (busMem bus) (unitCycle c x)).map outABits =
      c.outD.sent (outDReady b.mmu (input bus c)) := by
  have hrsp := congrArg (fun io : MMU.In => io.memRsp.bits) hinput
  have hready : s.mmu.memRspReady (loadPort (busMem bus) (unitCycle c x).memRsp.bits) =
      outDReady b.mmu (input bus c) := by
    rw [h.mmu]
    exact congrArg b.mmu.memRspReady hrsp
  rw [MmuRun.served, hready]
  cases hf : c.outD.fire (outDReady b.mmu (input bus c)) with
  | false =>
    have hunit : (unitCycle c x).memRsp.fire (outDReady b.mmu (input bus c)) = false := hf
    rw [Decoupled.sent_of_not_fire hf, Decoupled.sent_of_not_fire hunit, Multiset.map_zero]
  | true =>
    have hunit : (unitCycle c x).memRsp.fire (outDReady b.mmu (input bus c)) = true := hf
    rw [Decoupled.sent_of_fire hf, Decoupled.sent_of_fire hunit, Multiset.map_singleton]
    exact congrArg _ (hread (Bool.and_eq_true_iff.mp hf).2)

/-- Every cycle of the bench is one of the unit. -/
theorem Follows.exec (h : Follows b s) (hfair : b.Fair bus c) :
    ∃ c', s.FairReady c' ∧ Follows (b.exec bus c) (s.exec (busMem bus) c') := by
  obtain ⟨honest, hfresh, hready⟩ := hfair
  obtain ⟨x, haddr, hsource, hread⟩ := h.read honest
  have hinput := @unitCycle_input bus c x haddr hsource
  have hhonest : s.Honest (unitCycle c x) := fun hvalid => (hread hvalid).1
  have hdelivered : (s.delivered (unitCycle c x)).map (fun a => (a.addr, a.source)) = b.prints bus c := by
    rw [prints_eq, ← h.mmu]
    rfl
  refine ⟨unitCycle c x, ⟨⟨hhonest, fun hvalid => ?_⟩, hready⟩, ?_, ?_, ?_, ?_, ?_⟩
  · have hnew := hfresh hvalid
    rw [h.printed, ← hdelivered, ← Multiset.map_add, Multiset.map_map] at hnew
    rw [MmuRun.outstanding, ← h.accepted, Multiset.map_map]
    exact hnew
  · change s.mmu.next (MmuRun.input (busMem bus) (unitCycle c x)) false = _
    rw [hinput, h.mmu]
    rfl
  · have hasked := congrArg (Multiset.map outABits) (@MmuRun.asked_exec (busMem bus) s _ hhonest)
    have htaken : (s.taken (unitCycle c x)).map outABits = b.taken c := h.taken c.outAReady
    have hserved := h.served hinput fun hvalid => (hread hvalid).2
    rw [Multiset.map_add, Multiset.map_add, hserved, htaken, h.asked] at hasked
    change _ = b.asked + b.taken c - _
    rw [← hasked, add_tsub_cancel_right]
  · change (b.accepted + _).map mmuReqBits = s.accepted + (c.hostReq.map mmuReqBits).sent s.mmu.mmuReqReady
    rw [Multiset.map_add, h.accepted, Decoupled.sent_map, h.mmu]
    rfl
  · change b.printed + b.prints bus c = (s.answered + s.delivered (unitCycle c x)).map _
    rw [Multiset.map_add, hdelivered, h.printed]
  · change b.finished + (hostRsp b.mmu).sent c.hostRspReady = (s.answered + s.delivered (unitCycle c x)).map _
    rw [Multiset.map_add, h.finished, hostRsp, Decoupled.sent_map, ← h.mmu]
    rfl

/-- A run of the bench is a run of the unit. -/
theorem follows_of_fair (h : (benchSystem bus).ReachableBy (Fair bus) b) :
    ∃ s, (mmuSystem (busMem bus)).ReachableBy MmuRun.FairReady s ∧ Follows b s := by
  refine h.simulate (R := Follows) ?_ ?_
  · intro b hinit
    obtain ⟨power, io, rfl⟩ := hinit
    exact ⟨⟨power.next (mmuIn io) true, 0, 0, 0⟩, ⟨power, mmuIn io, rfl⟩, ⟨rfl, rfl, rfl, rfl, rfl⟩⟩
  · intro b c b' s hR hfair hstep
    obtain ⟨c', hfair', hR'⟩ := hR.exec hfair
    exact ⟨c', s.exec (busMem bus) c', hfair', rfl, hstep ▸ hR'⟩

end BenchRun
end VentusDriver.Rtl
