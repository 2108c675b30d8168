import VentusDriver.Device.OtherRoots
import VentusDriver.Device.StatusCodes
import VentusDriver.Rtl.MmuRun

/-! The walk of the memory management unit over the page tables of the driver. The unit looks at no
valid bit and goes on at page 0 where an entry is empty, but no entry there leads anywhere, so it finds
what the driver finds. -/
namespace VentusDriver
open Foundation Sv39

namespace PhysicalMemory

/-- The entry that the look-ups of the three levels lead to. -/
def leaf (pm : PhysicalMemory) (root va : ℕ) : ℕ :=
  pm.pte (pm.nextTable (pm.nextTable root (vaExtract va 0)) (vaExtract va 1)) (vaExtract va 2)

/-- The address that a leaf entry gives to a virtual address, or 0. -/
def inPage (pte va : ℕ) : ℕ := if pte2pa pte = 0 then 0 else pte2pa pte ||| (va &&& 0xfff)

variable {pm : PhysicalMemory}

lemma readValue_bare (h : ∀ b ∈ pm.blocks, b.pages = none) (n addr : ℕ) : pm.readValue n addr = 0 := by
  rw [readValue, readData, readBlocks_eq]
  cases hfind : pm.blocks.find? fun b => decide (spans b addr n) with
  | none => rfl
  | some b => simp [Block.empty, h b (List.mem_of_find?_eq_some hfind)]

/-- Nothing is stored at page 0. -/
lemma Sound.nextTable_zero (h : pm.Sound) {i : ℕ} (hi : i < 512) : pm.nextTable 0 i = 0 := by
  cases h with
  | inl hord => exact PhysicalMemory.nextTable_zero hord hi
  | inr hbare => rw [nextTable, pte, readValue_bare hbare]; rfl

end PhysicalMemory

namespace Memory
open PhysicalMemory

/-- Stopping at an empty entry makes no difference. -/
theorem convert_leaf {m : Memory} (h : m.pm.Sound) (root va : ℕ) :
    m.convert root va = inPage (m.pm.leaf root va) va := by
  have hlast : pte2pa (m.pm.pte 0 (vaExtract va 2)) = 0 := h.nextTable_zero (vaExtract_lt va 2)
  by_cases h1 : m.pm.nextTable root (vaExtract va 0) = 0
  · have h2 := h.nextTable_zero (vaExtract_lt va 1)
    simp only [convert, inPage, leaf, h1, h2, hlast, if_true]
  · by_cases h2 : m.pm.nextTable (m.pm.nextTable root (vaExtract va 0)) (vaExtract va 1) = 0
    · simp only [convert, inPage, leaf, h1, h2, hlast, if_false, if_true]
    · simp only [convert, inPage, leaf, h1, h2, if_false]
      rfl

end Memory

namespace Rtl
open PhysicalMemory

section Fields

lemma pteAddr_toNat (ppn : BitVec 44) (vpn : BitVec 27) (level : BitVec 2) :
    (pteAddr ppn vpn level).toNat =
      ppn.toNat * 4096 + vpn.toNat / 2 ^ (level.toNat * 9) % 512 * 8 := by
  have hppn := ppn.isLt
  have hidx : vpn.toNat / 2 ^ (level.toNat * 9) % 512 < 512 := Nat.mod_lt _ (by norm_num)
  have hmask : ((0xffffffffffffff#59 : BitVec 59)).toNat = 2 ^ 56 - 1 := rfl
  simp only [pteAddr, BitVec.toNat_setWidth, BitVec.toNat_and, BitVec.toNat_add, BitVec.toNat_append,
    BitVec.toNat_ofNat, BitVec.extractLsb'_toNat, BitVec.toNat_ushiftRight, Nat.shiftLeft_eq,
    Nat.shiftRight_eq_div_pow, hmask]
  rw [Nat.and_two_pow_sub_one_eq_mod]
  simp only [Nat.zero_mod, Nat.or_zero, pow_zero, Nat.div_one]
  omega

lemma ptePpn_toNat (pte : BitVec 64) : (ptePpn pte).toNat * 4096 = pte2pa pte.toNat := by
  rw [pte2pa_eq, ptePpn, BitVec.extractLsb'_toNat, Nat.shiftRight_eq_div_pow]

end Fields

/-- Memory that answers with the 64-bit words of physical memory. -/
def wordMem (pm : PhysicalMemory) (a : BitVec 64) : BitVec 64 := BitVec.ofNat 64 (pm.readValue 8 a.toNat)

section Walk
variable {pm : PhysicalMemory}

lemma readValue_lt (pm : PhysicalMemory) (n addr : ℕ) : pm.readValue n addr < 256 ^ n := by
  unfold readValue
  dsimp only
  split_ifs
  · exact littleEndian_lt n _
  · positivity

/-- The entry that a read of a walk returns. -/
lemma wordMem_pte (ppn : BitVec 44) (vpn : BitVec 27) (level : BitVec 2) :
    (wordMem pm (pteAddr ppn vpn level)).toNat =
      pm.pte (ppn.toNat * 4096) (vpn.toNat / 2 ^ (level.toNat * 9) % 512) := by
  have hppn := ppn.isLt
  have hidx : vpn.toNat / 2 ^ (level.toNat * 9) % 512 < 512 := Nat.mod_lt _ (by norm_num)
  have hlt := readValue_lt pm 8 (pteAddr ppn vpn level).toNat
  rw [wordMem, BitVec.toNat_ofNat, Nat.mod_eq_of_lt (by omega), pte, entryAddr_eq (by omega) hidx,
    pteAddr_toNat]

/-- The indexes of the levels, counted from the last table up by the unit and from the root down by
the driver. -/
lemma vpn_index (va : BitVec 64) :
    (va.extractLsb' 12 27).toNat / 2 ^ 18 % 512 = vaExtract va.toNat 0 ∧
      (va.extractLsb' 12 27).toNat / 2 ^ 9 % 512 = vaExtract va.toNat 1 ∧
      (va.extractLsb' 12 27).toNat / 2 ^ 0 % 512 = vaExtract va.toNat 2 := by
  rw [vaExtract_zero, vaExtract_one, vaExtract_two, BitVec.extractLsb'_toNat, Nat.shiftRight_eq_div_pow]
  refine ⟨?_, ?_, ?_⟩ <;> omega

/-- The walk of the unit reads the entries that the driver looks up. -/
theorem walkFrom_leaf (pm : PhysicalMemory) (ppn : BitVec 44) (va : BitVec 64) :
    (walkFrom (wordMem pm) 2 ppn (va.extractLsb' 12 27)).toNat = pm.leaf (ppn.toNat * 4096) va.toNat := by
  obtain ⟨h0, h1, h2⟩ := vpn_index va
  have hlevel2 : (BitVec.ofNat 2 2).toNat * 9 = 18 := rfl
  have hlevel1 : (BitVec.ofNat 2 1).toNat * 9 = 9 := rfl
  have hlevel0 : (0#2 : BitVec 2).toNat * 9 = 0 := rfl
  rw [walkFrom, walkFrom, walkFrom, wordMem_pte, hlevel0, h2, ptePpn_toNat, wordMem_pte, hlevel1, h1,
    ptePpn_toNat, wordMem_pte, hlevel2, h0]
  rfl

/-- Over every memory that a run of the driver's operations and of accesses can reach, the unit
translates as the driver does. -/
theorem walk_converts {range : ℕ} {s : MemoryState} (h : (accessSystem range).Reachable s)
    (r : TlbBits) :
    s.mem.convert ((r.ptbr.extractLsb' 0 44).toNat * 4096) r.addr.toNat =
      inPage (answer (wordMem s.mem.pm) r).addr.toNat r.addr.toNat := by
  rw [Memory.convert_leaf (MemoryState.sound_of_reachable h), answer, walkFrom_leaf]

/-- A page of a root that was made and filled. -/
theorem walk_converts_onePage : ∃ s, (accessSystem 0x20010000).Reachable s ∧
    inPage (answer (wordMem s.mem.pm) ⟨0x40000123, 0x20000, 1⟩).addr.toNat 0x40000123 = 0x20001123 := by
  have hrun : ((MemoryState.exec ⟨Memory.new 0x20010000, [], []⟩ .createRootPt).bind fun s =>
      s.exec (.allocate 0x20000000 0x40000000 4096)).map (fun s : MemoryState =>
        s.mem.convert 0x20000000 0x40000123) = some 0x20001123 := by decide +kernel
  obtain ⟨t, ht, hconvert⟩ := Option.map_eq_some_iff.mp hrun
  obtain ⟨s, hs, hst⟩ := Option.bind_eq_some_iff.mp ht
  have hreach : (accessSystem 0x20010000).Reachable t := by
    refine .next (s := s) (l := .inl (.allocate 0x20000000 0x40000000 4096)) ?_ trivial hst
    exact .next (l := .inl .createRootPt) (.start rfl) trivial hs
  exact ⟨t, hreach, (walk_converts hreach ⟨0x40000123, 0x20000, 1⟩).symm.trans hconvert⟩

end Walk
end Rtl
end VentusDriver
