import VentusDriver.Device.MemoryRules

/-! What `release` does. It removes a block and writes no table entry, so a translation is lost only with
a table; and for an address that is not mapped it removes the block around address 0, which is the
reserved one. -/
namespace VentusDriver
open Foundation Foundation.Radix Sv39 PhysicalMemory

namespace PhysicalMemory

/-- The block around an address has a size. -/
lemma length_ne_zero {pm : PhysicalMemory} (h : pm.Ordered) {b : Block} (hb : b ∈ pm.blocks) {a : ℕ}
    (hpos : b.eqPos a) : pm.length a ≠ 0 := by
  unfold PhysicalMemory.length
  cases hfind : pm.blocks.find? fun b => decide (b.eqPos a) with
  | none =>
    have hnot := List.find?_eq_none.mp hfind b hb
    exact absurd (decide_eq_true hpos) hnot
  | some c =>
    have hcpos := List.find?_some hfind
    obtain ⟨hlow, hhigh⟩ := of_decide_eq_true hcpos
    rw [h.endAddr_eq (List.mem_of_find?_eq_some hfind), Block.limit] at hhigh
    show c.size ≠ 0
    omega

end PhysicalMemory

namespace Memory
variable {m : Memory}

/-- The loop over the entries runs zero times. -/
lemma release_eq (m : Memory) (root vAddr : ℕ) : m.release root vAddr =
    if m.pm.length (m.convert root vAddr) = 0 then (-1, m)
    else (0, ⟨(m.pm.remove (m.convert root vAddr)).2⟩) := by
  simp only [release, pageSize_eq]
  rfl

/-- The size of the block around address 0 is not zero exactly when that is the reserved block. -/
lemma length_zero_iff (h : m.pm.Ordered) : m.pm.length 0 = 0 ↔ reserved ∉ m.pm.blocks := by
  have honly : ∀ b ∈ m.pm.blocks, b.eqPos 0 → b = reserved := by
    intro b hb hpos
    have hge := h.range_ge
    rcases h.block b hb with rfl | hins | rfl
    · rfl
    · have := hins.lower
      have := hpos.1
      omega
    · have := hpos.1
      simp only [sentinel] at this
      omega
  constructor
  · intro hzero hmem
    exact length_ne_zero h hmem (by decide) hzero
  · intro hnot
    have hnone : m.pm.blocks.find? (fun b => decide (b.eqPos 0)) = none := by
      refine List.find?_eq_none.mpr fun b hb hpos => ?_
      exact hnot (honly b hb (of_decide_eq_true hpos) ▸ hb)
    rw [PhysicalMemory.length, hnone]

/-- The release of an address that is not mapped is rejected only when no block contains address 0. -/
theorem release_unmapped_iff {r v : ℕ} (hzero : m.convert r v = 0) :
    m.release r v = (-1, m) ↔ m.pm.length 0 = 0 := by
  rw [release_eq, hzero]
  split_ifs with hlength
  · simp [hlength]
  · simp [hlength]

end Memory

namespace MemoryState
variable {s : MemoryState}

/-- In every reachable state the release of an address that is not mapped is rejected without effect
exactly when the reserved block is gone. -/
theorem release_rejected_iff {range : ℕ} (h : (memorySystem range).Reachable s) {root v : ℕ}
    (hr : root ∈ s.roots) (hzero : s.mem.convert root v = 0) :
    s.mem.release root v = (-1, s.mem) ↔ reserved ∉ s.mem.pm.blocks := by
  rcases intact_of_reachable h with hs | ⟨-, rfl⟩
  · rw [Memory.release_unmapped_iff hzero, Memory.length_zero_iff hs.ordered]
  · simp at hr

/-- The second such release is rejected. -/
theorem release_rejected_iff_second : ∃ s, (memorySystem 0x20010000).Reachable s ∧
    s.mem.release 0x20000000 0x40000000 = (-1, s.mem) := by
  let ops : List MemoryOp := [.createRootPt, .release 0x20000000 0x40000000]
  have hrun : (ops.foldlM exec ⟨Memory.new 0x20010000, [], []⟩).map (fun s : MemoryState =>
      (s.roots, s.mem.convert 0x20000000 0x40000000, s.mem.pm.blocks.map Block.addr)) =
      some ([0x20000000], 0, [0x20000000, 0x20010000]) := by decide +kernel
  obtain ⟨s, hs, hresult⟩ := Option.map_eq_some_iff.mp hrun
  simp only [Prod.mk.injEq] at hresult
  obtain ⟨hroots, hzero, haddrs⟩ := hresult
  have hreach : (memorySystem 0x20010000).Reachable s :=
    (TransitionSystem.ReachableBy.start rfl).run (fun _ _ _ _ hst => ⟨trivial, hst⟩) hs
  refine ⟨s, hreach, (release_rejected_iff hreach (by simp [hroots]) hzero).mpr fun hmem => ?_⟩
  have haddr := List.mem_map_of_mem (f := Block.addr) hmem
  rw [haddrs] at haddr
  simp [reserved] at haddr

/-- The first release of an address that is not mapped succeeds and removes the reserved block. -/
theorem unmapped_release_removes_reserved : ∃ s, (memorySystem 0x20010000).Reachable s ∧
    s.roots = [0x20000000] ∧ s.mem.convert 0x20000000 0x40000000 = 0 ∧
    s.mem.release 0x20000000 0x40000000 ≠ (-1, s.mem) ∧
    reserved ∉ (s.mem.release 0x20000000 0x40000000).2.pm.blocks := by
  have hrun : ([MemoryOp.createRootPt].foldlM exec ⟨Memory.new 0x20010000, [], []⟩).map
      (fun s : MemoryState => (s.roots, s.mem.convert 0x20000000 0x40000000,
        (s.mem.release 0x20000000 0x40000000).1,
        (s.mem.release 0x20000000 0x40000000).2.pm.blocks.map Block.addr)) =
      some ([0x20000000], 0, 0, [0x20000000, 0x20010000]) := by decide +kernel
  obtain ⟨s, hs, hresult⟩ := Option.map_eq_some_iff.mp hrun
  simp only [Prod.mk.injEq] at hresult
  obtain ⟨hroots, hzero, hstatus, haddrs⟩ := hresult
  refine ⟨s, ?_, hroots, hzero, fun heq => ?_, fun hmem => ?_⟩
  · exact (TransitionSystem.ReachableBy.start rfl).run (fun _ _ _ _ hst => ⟨trivial, hst⟩) hs
  · rw [heq] at hstatus
    norm_num at hstatus
  · have haddr := List.mem_map_of_mem (f := Block.addr) hmem
    rw [haddrs] at haddr
    simp [reserved] at haddr

end MemoryState
end VentusDriver
