import VentusDriver.Device.FreePages
import VentusDriver.Device.MemoryRules

/-! A failing `allocate` undoes nothing. It leaves the memory as it was exactly when it fails before
the data block is inserted, that is, unless the loop runs out of pages for its tables. -/
namespace VentusDriver
open Foundation Foundation.Radix Sv39 PhysicalMemory

namespace Memory

/-- If `allocate` returns 0, the blocks and every translation are as before. -/
def AllocatesAtomically (m : Memory) (root vAddr length : ℕ) : Prop :=
  ∀ m', m.allocate root vAddr length = .ok (0, m') →
    m'.pm.blocks = m.pm.blocks ∧ ∀ r va, m'.convert r va = m.convert r va

/-- The data block is inserted, and then there is no page for a table that the loop needs. -/
def RunsOut (m : Memory) (root vAddr length : ℕ) : Prop :=
  m.pm.usable (roundPages length) ≠ 0 ∧ ∃ pm pm',
    m.pm.insert (m.pm.usable (roundPages length)) (roundPages length) true = .ok (0, pm) ∧
    allocatePages root vAddr (m.pm.usable (roundPages length)) (roundPages length / pageSize) 0
      ⟨not64 0, not64 0, not64 0⟩ pm = .ok (false, pm')

/-- The free bytes that the data and the missing tables need. -/
def bytesNeeded (m : Memory) (root vAddr length : ℕ) : ℕ :=
  roundPages length + m.pm.missing root (tablePaths vAddr (roundPages length / pageSize)) * pageSize

variable {m m' : Memory} {root : ℕ → Prop}

/-- Translations depend on the blocks only. -/
lemma convert_congr_blocks (h : m'.pm.blocks = m.pm.blocks) (r va : ℕ) :
    m'.convert r va = m.convert r va := by
  have hentry : m'.pm.entry = m.pm.entry := by
    funext q i
    apply entry_of_pte_eq
    intro _
    rw [pte, pte, readValue, readValue, readData, readData, h]
  rw [convert_eq, convert_eq, hentry]

lemma lengthRule (n : ℕ) : GrowthRule (fun _ => True) fun pm => n ≤ pm.blocks.length := by
  refine ⟨?_, fun _ _ _ => trivial, ?_⟩
  · intro pm pm' size status hs _ _ hins
    rcases insert_result hins with ⟨-, hlen⟩ | ⟨-, hblocks⟩
    · omega
    · rwa [hblocks]
  · intro pm table i value hs _ _
    have hframes : SameFrames pm (pm.writeValue 8 (entryAddr table i) value).2 := writeData_sameFrames ..
    have hlen := congrArg List.length hframes.frames
    simp only [List.length_map] at hlen
    omega

/-- A failure is atomic exactly when the loop does not run out of pages. -/
theorem allocatesAtomically_iff (m : Memory) (r v length : ℕ) :
    m.AllocatesAtomically r v length ↔ ¬ m.RunsOut r v length := by
  constructor
  · rintro hatomic ⟨hp, pm, pm', hins, hpages⟩
    have heq : m.allocate r v length = .ok (0, ⟨pm'⟩) := by
      rw [allocate_eq, if_neg hp]
      simp [hins, hpages]
    obtain ⟨hblocks, -⟩ := hatomic _ heq
    have hgrown : pm.blocks.length ≤ pm'.blocks.length :=
      (lengthRule pm.blocks.length).pageRule.allocatePages le_rfl trivial hpages
    rcases insert_result hins with ⟨-, hlen⟩ | ⟨hne, -⟩
    · -- the data block is still in the list
      have : pm'.blocks.length = m.pm.blocks.length := congrArg List.length hblocks
      omega
    · exact hne rfl
  · intro hnot m' heq
    have hsame : m'.pm.blocks = m.pm.blocks := by
      rcases allocate_cases heq with ⟨-, -, rfl⟩ | ⟨hp, status, pm, hins, hcase⟩
      · rfl
      · rcases hcase with ⟨hstatus, -, rfl⟩ | ⟨rfl, ok, hpages, hzero⟩
        · exact ((insert_result hins).resolve_left fun hok => hstatus hok.1).2
        · cases ok with
          | true => exact absurd hzero.symm hp
          | false => exact absurd ⟨hp, pm, m'.pm, hins, hpages⟩ hnot
    exact ⟨hsame, convert_congr_blocks hsame⟩

/-- Behind the inserted data the loop returns, and it runs to its end exactly when the free bytes of
before suffice for the data and the missing tables. -/
theorem loop_completes (h : m.pm.PageTables root) {r : ℕ} (hr : root r) (v : ℕ) {size p : ℕ} (hdvd : 4096 ∣ size)
    (hgap : m.pm.Gap p size) (hnext : ∃ b ∈ m.pm.blocks, p + size ≤ b.addr) {pm₁ : PhysicalMemory}
    (hat : m.pm.InsertedAt (fresh p size) pm₁) : ∃ ok pm₂,
      allocatePages r v p (size / pageSize) 0 ⟨not64 0, not64 0, not64 0⟩ pm₁ = .ok (ok, pm₂) ∧
      (ok = true ↔ size + m.pm.missing r (tablePaths v (size / pageSize)) * pageSize ≤ m.pm.freeBytes ∨
        size = 0) := by
  rcases Nat.eq_zero_or_pos size with rfl | hpos
  · exact ⟨true, pm₁, rfl, iff_of_true rfl (.inr rfl)⟩
  have hfree := hat.freeBytes hgap hpos hnext
  obtain ⟨-, hwalk⟩ := h.insertedAt hgap hdvd hat
  have hmissing : pm₁.missing r (tablePaths v (size / pageSize)) =
      m.pm.missing r (tablePaths v (size / pageSize)) := by
    rw [missing, missing]
    congr 1
    apply Finset.filter_congr
    intro path hpath
    have hlen := length_of_mem_tablePaths hpath
    rw [hwalk r path hr (by omega)]
  have hrange := h.ordered.range_lt
  have hfits := hgap.fits
  have hpending := Pending.start h hgap hdvd hat r v
  obtain ⟨ok, pm₂, hpages, -⟩ := allocatePages_spec hr (hgap.aligned h.ordered) (by omega) _ 0 hpending
  have hcompletes := allocatePages_completes hr (hgap.aligned h.ordered) (by omega) hpending hpages
  refine ⟨ok, pm₂, hpages, ?_⟩
  rw [hcompletes, hmissing, pageSize_eq]
  omega

end Memory

namespace MemoryState
variable {s : MemoryState}

end MemoryState
end VentusDriver
