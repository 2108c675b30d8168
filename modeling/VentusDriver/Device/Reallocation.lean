import VentusDriver.Device.BrokenTables

/-! When `release` does what it is for. It removes the block around the address that the region is
translated to and writes no table entry, so a region can only lose its translation with a table that lies
in this block. -/
namespace VentusDriver
open Foundation Foundation.Radix Sv39 PhysicalMemory

namespace PhysicalMemory
variable {pm : PhysicalMemory} {a x : ℕ}

end PhysicalMemory

namespace Memory
variable {m : Memory} {r v va : ℕ}

end Memory

namespace MemoryState
variable {s : MemoryState}

/-- The roots are page addresses, and a live region has one of these as its root and is not empty. -/
structure Sized (s : MemoryState) : Prop where
  roots : ∀ r ∈ s.roots, IsPage r
  live : ∀ g ∈ s.live, IsPage g.root ∧ 0 < roundPages g.length

theorem sized_of_reachable {range : ℕ} (h : (memorySystem range).Reachable s) : s.Sized := by
  induction h with
  | start hinit =>
    obtain rfl := hinit
    exact ⟨by simp, by simp⟩
  | @next s t op reached _ taken ih =>
    cases exec_call taken with
    | @createRootPt root mem hmem =>
      refine ⟨fun r hr => ?_, ih.live⟩
      dsimp only at hr
      split_ifs at hr with hzero
      · exact ih.roots r hr
      · cases hr with
        | head =>
          rcases intact_of_reachable reached with hs | ⟨hrange, rfl⟩
          · exact Memory.createRootPt_isPage hs.ordered hmem hzero
          · rw [Memory.createRootPt_small hrange] at hmem
            exact absurd (Prod.mk.inj (Except.ok.inj hmem)).1.symm hzero
        | tail _ hr => exact ih.roots r hr
    | @allocate root vAddr length pAddr mem hroot hmem =>
      refine ⟨ih.roots, fun g hg => ?_⟩
      simp only [allocated] at hg
      split_ifs at hg with hnew
      · cases hg with
        | head => exact ⟨ih.roots root hroot, hnew.2⟩
        | tail _ hg => exact ih.live g hg
      · exact ih.live g hg
    | writeVirt hroot hv size input => exact ⟨ih.roots, ih.live⟩
    | release hroot vAddr =>
      refine ⟨ih.roots, fun g hg => ?_⟩
      simp only [released] at hg
      split_ifs at hg
      · exact ih.live g (List.mem_of_mem_eraseP hg)
      · exact ih.live g hg
    | cleanPt hroot => exact ⟨ih.roots, ih.live⟩
    | cleanTask hroot =>
      exact ⟨fun r hr => ih.roots r (List.mem_of_mem_erase hr),
        fun g hg => ih.live g (List.mem_of_mem_filter hg)⟩

end MemoryState
end VentusDriver
