import VentusDriver.Device.AllocateMap
import VentusDriver.Device.Processor

/-! The device and the host reading the same range. The host translates every page; the device
translates the first byte, narrows the address to 32 bits and reads on from there in physical
memory. -/
namespace VentusDriver
open Foundation Foundation.Radix Sv39 PhysicalMemory

namespace MemController

/-- The controller has no request and shows that it takes one. -/
structure Idle (c : MemController) : Prop where
  noDelay : c.timeRemain = 0 ∧ c.defaultDelay = 0
  inRsp : c.inRsp = 0
  ready : c.req.ready ≠ 0

end MemController

namespace Processor

/-- The words on the response port after two cycles: one in which the device puts its request on the
port, and one in which it takes the response. -/
def fetched (p : Processor) (c : MemController) (get take : DeviceOut) : ℕ → ℕ :=
  let r := p.cycle c get
  (r.1.cycle r.2.1 take).2.1.rsp.data

/-- A Get request for an address and its response, over the given memory and root. -/
structure Fetches (m : Memory) (root v num : ℕ) (p : Processor) (c : MemController)
    (get take : DeviceOut) : Prop where
  ram : p.ram = m
  root : p.root = root
  idle : c.Idle
  num : c.num = num
  opcode : get.aOpcode = 4
  valid : get.aValid ≠ 0
  address : get.aAddress = v
  ready : take.dReady ≠ 0

variable {m : Memory} {root v num : ℕ} {p : Processor} {c : MemController} {get take : DeviceOut}

/-- The first cycle latches the request and leaves memory alone. -/
lemma Fetches.latched (h : Fetches m root v num p c get take) : (p.cycle c get).1 = p ∧
    (p.cycle c get).2.1 = ((p.getRamBitsPort c get).1.raise.await.latch.drive).sample := by
  have hwait : ¬ (p.getRamBitsPort c get).1.timeRemain ≠ 0 := not_not.mpr h.idle.noDelay.1
  have hin : ¬ (p.getRamBitsPort c get).1.raise.inRsp ≠ 0 := not_not.mpr h.idle.inRsp
  have htake : (p.getRamBitsPort c get).1.raise.await.req.valid ≠ 0 ∧
      (p.getRamBitsPort c get).1.raise.await.req.ready ≠ 0 := ⟨h.valid, h.idle.ready⟩
  have heval : (p.getRamBitsPort c get).1.eval 0 p.ram =
      ((p.getRamBitsPort c get).1.raise.await.latch.drive, p.ram) := by
    rw [MemController.eval, if_neg (by norm_num), if_neg hwait, if_neg hin, if_pos htake]
  have hcycle : p.cycle c get = ({ p with ram := ((p.getRamBitsPort c get).1.eval 0 p.ram).2 },
      ((p.getRamBitsPort c get).1.eval 0 p.ram).1.sample, (p.getRamBitsPort c get).2) := rfl
  rw [hcycle, heval]
  exact ⟨rfl, rfl⟩

/-- The words are read at the address of the first byte, into the words of the last response. -/
theorem Fetches.fetched_eq (h : Fetches m root v num p c get take) : p.fetched c get take =
    (m.readPhy 4 (u32 (m.convert root v)) num c.rsp.data none).2 := by
  obtain ⟨hproc, hctl⟩ := h.latched
  obtain ⟨rfl, rfl, hidle, rfl, hopcode, hvalid, rfl, hready⟩ := h
  rw [fetched, hproc, hctl]
  generalize hc : ((p.getRamBitsPort c get).1.raise.await.latch.drive).sample = c₁
  have hrw : c₁.rw = 4 := by
    rw [← hc]
    exact hopcode
  have haddr : c₁.addr = u32 (p.ram.convert p.root get.aAddress) := by
    rw [← hc]
    rfl
  have hnum : c₁.num = c.num := by
    rw [← hc]
    rfl
  have hdata : c₁.rsp.data = c.rsp.data := by
    rw [← hc]
    rfl
  have hwait : ¬ (p.getRamBitsPort c₁ take).1.timeRemain ≠ 0 := by
    rw [← hc]
    exact not_not.mpr hidle.noDelay.2
  have hin : (p.getRamBitsPort c₁ take).1.raise.inRsp ≠ 0 := by
    rw [← hc]
    exact one_ne_zero
  have htake : (p.getRamBitsPort c₁ take).1.raise.rsp.ready ≠ 0 ∧
      (p.getRamBitsPort c₁ take).1.raise.rsp.valid ≠ 0 := ⟨hready, one_ne_zero⟩
  have heval : ((p.getRamBitsPort c₁ take).1.eval 0 p.ram).1 =
      ((p.getRamBitsPort c₁ take).1.raise.respond p.ram).1.drive := by
    rw [MemController.eval, if_neg (by norm_num), if_neg hwait, if_pos hin, if_pos htake]
  have hcycle : (p.cycle c₁ take).2.1.rsp.data =
      ((p.getRamBitsPort c₁ take).1.eval 0 p.ram).1.rsp.data := rfl
  have hresponse : ((p.getRamBitsPort c₁ take).1.raise.respond p.ram).1.drive.rsp.data =
      if c₁.rw = 4 then (p.ram.readPhy 4 c₁.addr c₁.num c₁.rsp.data none).2 else c₁.rsp.data := rfl
  rw [hcycle, heval, hresponse, if_pos hrw, haddr, hnum, hdata]

end Processor

namespace Memory
variable {m : Memory} {roots : ℕ → Prop} {root v num : ℕ}

/-- Whatever the last response was, the device gets the bytes that the host reads. -/
def DeviceAgrees (m : Memory) (root v num : ℕ) : Prop :=
  ∀ (p : Processor) (c : MemController) (get take : DeviceOut) (out : ℕ → UInt8),
    Processor.Fetches m root v num p c get take → ∀ k < 4 * num,
      byteOf (p.fetched c get take (k / 4)) (k % 4) = (m.readVirt root v (4 * num) out).2 k

/-- The bytes of the words that are read from physical memory. -/
lemma byteOf_readPhy (h : m.pm.Ordered) (hnum : num < 256) {addr : ℕ} (haddr : addr < 2 ^ 32)
    (data : ℕ → ℕ) {k : ℕ} (hk : k < 4 * num) :
    (m.pm.Backed addr (4 * num) →
      byteOf ((m.readPhy 4 addr num data none).2 (k / 4)) (k % 4) = m.pm.byteAt (addr + k)) ∧
    (¬ m.pm.Backed addr (4 * num) →
      byteOf ((m.readPhy 4 addr num data none).2 (k / 4)) (k % 4) = byteOf (data (k / 4)) (k % 4)) := by
  have hlen : u64 (num * 4) = 4 * num := by rw [u64_of_lt (by omega), Nat.mul_comm]
  have hbyte : k / 4 * 4 + k % 4 = k := by omega
  constructor
  · intro hb
    simp only [readPhy, PhysicalMemory.read, hlen, readData_backed h (by omega) hb]
    rw [byteOf_littleEndian _ (Nat.mod_lt k (by norm_num)), hbyte, if_pos hk]
  · intro hb
    simp only [readPhy, PhysicalMemory.read, hlen, readData_not_backed h (by omega) hb]
    rw [byteOf_littleEndian _ (Nat.mod_lt k (by norm_num)), hbyte]

/-- A controller whose last response was the given words. -/
def answered (num : ℕ) (data : ℕ → ℕ) : MemController :=
  { MemController.zeroed num with
    req := { (MemController.zeroed num).req with ready := 1 }
    rsp := { (MemController.zeroed num).rsp with data := data } }

/-- A Get request for an address. -/
def getRequest (v : ℕ) : DeviceOut := ⟨4, 0, v, 0, fun _ => 0, 1, 1⟩

lemma fetches_answered (m : Memory) (root v num : ℕ) (data : ℕ → ℕ) :
    Processor.Fetches m root v num ⟨m, root, []⟩ (answered num data) (getRequest v) (getRequest v) :=
  ⟨rfl, rfl, ⟨⟨rfl, rfl⟩, rfl, one_ne_zero⟩, rfl, rfl, one_ne_zero, rfl, one_ne_zero⟩

/-- The device agrees with the host exactly when its run stays inside one block and shows the bytes of
the translated addresses also where it has left them. -/
theorem deviceAgrees_of_tables (h : m.pm.PageTables roots) (hroot : roots root) (hv : v < 2 ^ 64)
    (hnum : num < 256) (hmapped : ∀ k < 4 * num, m.convert root (u64 (v + k)) ≠ 0) :
    m.DeviceAgrees root v num ↔ (0 < num → m.pm.Backed (u32 (m.convert root v)) (4 * num) ∧
      ∀ k < 4 * num, u32 (m.convert root v) + k ≠ m.convert root (u64 (v + k)) →
        m.pm.byteAt (u32 (m.convert root v) + k) = m.pm.byteAt (m.convert root (u64 (v + k)))) := by
  have haddr : u32 (m.convert root v) < 2 ^ 32 := Nat.mod_lt _ (by positivity)
  constructor
  · intro hagrees hpos
    obtain ⟨out, hout, hread⟩ := readVirt_bytes h hroot (show 0 < 4 * num by omega) hv hmapped fun _ => 0
    have hagrees' : ∀ data, ∀ k < 4 * num,
        byteOf ((m.readPhy 4 (u32 (m.convert root v)) num data none).2 (k / 4)) (k % 4) =
          m.pm.byteAt (m.convert root (u64 (v + k))) := by
      intro data k hk
      have hfetches := fetches_answered m root v num data
      have hbytes := hagrees _ _ _ _ (fun _ => 0) hfetches k hk
      rw [hfetches.fetched_eq, hout] at hbytes
      exact hbytes.trans (hread k hk)
    have hback : m.pm.Backed (u32 (m.convert root v)) (4 * num) := by
      by_contra hnot
      -- the first byte is then that of the last response, whatever that was
      have hzero := hagrees' (fun _ => 0) 0 (by omega)
      have hone := hagrees' (fun _ => 1) 0 (by omega)
      rw [(byteOf_readPhy h.ordered hnum haddr _ (by omega)).2 hnot] at hzero hone
      exact absurd (hzero.trans hone.symm) (by decide)
    refine ⟨hback, fun k hk _ => ?_⟩
    have hbytes := hagrees' (fun _ => 0) k hk
    rwa [(byteOf_readPhy h.ordered hnum haddr _ hk).1 hback] at hbytes
  · intro hcond p c get take out hfetches k hk
    obtain ⟨hback, hsame⟩ := hcond (by omega)
    obtain ⟨out', hout, hread⟩ := readVirt_bytes h hroot (show 0 < 4 * num by omega) hv hmapped out
    rw [hfetches.fetched_eq, (byteOf_readPhy h.ordered hnum haddr _ hk).1 hback, hout]
    refine Eq.trans ?_ (hread k hk).symm
    by_cases heq : u32 (m.convert root v) + k = m.convert root (u64 (v + k))
    · rw [heq]
    · exact hsame k hk heq

end Memory

namespace MemoryState

/-- In every state reached by making roots, allocating and writing, for every mapped range. -/
theorem deviceAgrees_iff {range : ℕ} {s : MemoryState}
    (h : (memorySystem range).ReachableBy (fun _ op => ¬ Removes op) s) {root v num : ℕ}
    (hroot : root ∈ s.roots) (hv : v < 2 ^ 64) (hnum : num < 256)
    (hmapped : ∀ k < 4 * num, s.mem.convert root (u64 (v + k)) ≠ 0) :
    s.mem.DeviceAgrees root v num ↔
      (0 < num → s.mem.pm.Backed (u32 (s.mem.convert root v)) (4 * num) ∧
        ∀ k < 4 * num, u32 (s.mem.convert root v) + k ≠ s.mem.convert root (u64 (v + k)) →
          s.mem.pm.byteAt (u32 (s.mem.convert root v) + k) =
            s.mem.pm.byteAt (s.mem.convert root (u64 (v + k)))) := by
  rcases invariant_of_kept h with hs | ⟨-, rfl⟩
  · exact Memory.deviceAgrees_of_tables hs.tables hroot hv hnum hmapped
  · cases hroot

/-- Two pages that follow each other in one root and not in physical memory. -/
def twoBuffers : List MemoryOp :=
  [.createRootPt, .allocate 0x20000000 0x40000000 4096, .allocate 0x20000000 0x40001000 4096]

lemma twoBuffers_run : ∃ s, (memorySystem 0x20010000).ReachableBy (fun _ op => ¬ Removes op) s ∧
    0x20000000 ∈ s.roots ∧ s.mem.pm.Backed (u32 (s.mem.convert 0x20000000 0x40000000)) 8 ∧
    ¬ s.mem.pm.Backed (u32 (s.mem.convert 0x20000000 0x40000ffc)) 8 ∧
    ∀ k < 8, s.mem.convert 0x20000000 (0x40000000 + k) = 0x20001000 + k ∧
      s.mem.convert 0x20000000 (0x40000ffc + k) ≠ 0 := by
  have hrun : (twoBuffers.foldlM exec ⟨Memory.new 0x20010000, [], []⟩).map (fun s : MemoryState =>
      (s.roots, decide (∃ b ∈ s.mem.pm.blocks, b.pages.isSome = true ∧
          b.addr ≤ u32 (s.mem.convert 0x20000000 0x40000000) ∧
          u32 (s.mem.convert 0x20000000 0x40000000) + 8 ≤ b.limit),
        decide (∃ b ∈ s.mem.pm.blocks, b.pages.isSome = true ∧
          b.addr ≤ u32 (s.mem.convert 0x20000000 0x40000ffc) ∧
          u32 (s.mem.convert 0x20000000 0x40000ffc) + 8 ≤ b.limit),
        decide (∀ k ∈ List.range 8, s.mem.convert 0x20000000 (0x40000000 + k) = 0x20001000 + k ∧
          s.mem.convert 0x20000000 (0x40000ffc + k) ≠ 0))) =
      some ([0x20000000], true, false, true) := by decide +kernel
  obtain ⟨s, hs, hresult⟩ := Option.map_eq_some_iff.mp hrun
  simp only [Prod.mk.injEq, decide_eq_true_eq, decide_eq_false_iff_not] at hresult
  obtain ⟨hroots, hinside, hacross, hmapped⟩ := hresult
  refine ⟨s, (TransitionSystem.ReachableBy.start rfl).run (fun op hop s t hst => ⟨?_, hst⟩) hs,
    by simp [hroots], hinside, hacross, fun k hk => hmapped k (List.mem_range.mpr hk)⟩
  intro hrem
  rcases List.mem_cons.mp hop with rfl | hop
  · exact hrem
  · rcases List.mem_cons.mp hop with rfl | hop
    · exact hrem
    · obtain rfl := List.mem_singleton.mp hop
      exact hrem

/-- Two words inside the first page. -/
theorem deviceAgrees_iff_onePage : ∃ s, (memorySystem 0x20010000).Reachable s ∧
    s.mem.DeviceAgrees 0x20000000 0x40000000 2 := by
  obtain ⟨s, hreach, hroot, hinside, -, hmapped⟩ := twoBuffers_run
  have hva : ∀ k < 8, u64 (0x40000000 + k) = 0x40000000 + k := fun k hk => u64_of_lt (by omega)
  have hfirst : s.mem.convert 0x20000000 0x40000000 = 0x20001000 := (hmapped 0 (by norm_num)).1
  refine ⟨s, hreach.reachable, (deviceAgrees_iff hreach hroot (by norm_num) (by norm_num) ?_).mpr fun _ =>
    ⟨hinside, fun k hk hne => absurd ?_ hne⟩⟩
  · intro k hk
    rw [hva k hk, (hmapped k hk).1]
    omega
  · rw [hva k hk, (hmapped k hk).1, hfirst]
    rfl

/-- Two words across the border of the two pages: the device does not get the second one. -/
theorem device_read_across_buffers : ¬ ∀ (range : ℕ) (s : MemoryState) (root v num : ℕ),
    (memorySystem range).ReachableBy (fun _ op => ¬ Removes op) s → root ∈ s.roots → v < 2 ^ 64 →
      num < 256 → (∀ k < 4 * num, s.mem.convert root (u64 (v + k)) ≠ 0) →
      s.mem.DeviceAgrees root v num := by
  intro h
  obtain ⟨s, hreach, hroot, -, hacross, hmapped⟩ := twoBuffers_run
  have hne : ∀ k < 4 * 2, s.mem.convert 0x20000000 (u64 (0x40000ffc + k)) ≠ 0 := by
    intro k hk
    rw [u64_of_lt (by omega)]
    exact (hmapped k hk).2
  have hagrees := h 0x20010000 s 0x20000000 0x40000ffc 2 hreach hroot (by norm_num) (by norm_num) hne
  rcases invariant_of_kept hreach with hs | ⟨hsmall, -⟩
  · exact hacross ((Memory.deviceAgrees_of_tables hs.tables hroot (by norm_num) (by norm_num) hne).mp
      hagrees (by norm_num)).1
  · norm_num at hsmall

end MemoryState
end VentusDriver
