import VentusDriver.Device.MemoryRuns

/-! What a successful `allocate` maps: the requested range, to consecutive physical pages that were
free, and nothing else. -/
namespace VentusDriver
open Foundation Foundation.Radix Sv39 PhysicalMemory

namespace Memory

/-- The range of `size` bytes from `vAddr` on is mapped to the bytes from `p` on, no other
translation has changed, and the physical range was free. -/
structure MapsExactly (roots : ℕ → Prop) (m : Memory) (root vAddr size p : ℕ) (m' : Memory) : Prop where
  range : ∀ off < size, m'.convert root (vAddr + off) = p + off
  others : ∀ va, (∀ off < size, va / 4096 % 2 ^ 27 ≠ (vAddr + off) / 4096) →
    m'.convert root va = m.convert root va
  roots : ∀ r va, roots r → r ≠ root → m'.convert r va = m.convert r va
  free : p + size ≤ m.pm.maxRange ∧ ∀ b ∈ m.pm.blocks, b.limit ≤ p ∨ p + size ≤ b.addr

variable {m m' : Memory} {root : ℕ → Prop}

/-- Pages are numbered modulo the 39-bit limit. -/
lemma vaPath_mod (va : ℕ) : vaPath va = vaPath (va / 4096 % 2 ^ 27 * 4096) := by
  simp only [vaPath, vaExtract_zero, vaExtract_one, vaExtract_two, List.cons.injEq, and_true]
  omega

/-- For a range that is not mapped, an allocation that succeeds maps exactly this range. -/
theorem mapsExactly (h : m.pm.PageTables root) {r v size p : ℕ} (hr : root r) (hv : 4096 ∣ v)
    (hsize : 4096 ∣ size) (hrange : v + size ≤ 2 ^ 39) (hp : p ≠ 0)
    (hunmapped : ∀ off < size, m.convert r (v + off) = 0)
    (hstep : AllocateStep root m.pm r v size p m'.pm) : MapsExactly root m r v size p m' := by
  have hva : ∀ k < size / 4096, u64 (v + k * 4096) = v + k * 4096 := fun k hk => u64_of_lt (by omega)
  -- a page that is mapped afterwards was mapped before, or is a page of the range
  have hnew : ∀ r' va q, root r' → walk m'.pm.entry r' (vaPath va) = some q →
      walk m.pm.entry r' (vaPath va) = some q ∨
        (r' = r ∧ ∃ k < size / 4096, vaPath va = vaPath (v + k * 4096) ∧ q = p + k * 4096) := by
    intro r' va q hr' hw
    rcases hstep.adds r' _ q hr' (by simp) hw with hold | ⟨rfl, -, k, hk, hpath, hq⟩
    · exact .inl hold
    · rw [hva k hk] at hpath
      exact .inr ⟨rfl, k, hk, hpath, hq hp⟩
  have hsame : ∀ r' va, root r' →
      (r' = r → ∀ k < size / 4096, vaPath va ≠ vaPath (v + k * 4096)) →
      m'.convert r' va = m.convert r' va := by
    intro r' va hr' hout
    have hwalk : walk m'.pm.entry r' (vaPath va) = walk m.pm.entry r' (vaPath va) := by
      cases hw : walk m'.pm.entry r' (vaPath va) with
      | some q =>
        rcases hnew r' va q hr' hw with hold | ⟨hrr, k, hk, hpath, -⟩
        · exact hold.symm
        · exact absurd hpath (hout hrr k hk)
      | none =>
        cases hold : walk m.pm.entry r' (vaPath va) with
        | none => rfl
        | some q =>
          rw [hstep.growth.walks r' _ q hr' (by simp) hold] at hw
          cases hw
    rw [convert_eq, convert_eq, hwalk]
  refine ⟨?_, ?_, fun r' va hr' hne => hsame r' va hr' fun heq => absurd heq hne,
    (hstep.free hp).fits, (hstep.free hp).clear⟩
  · intro off hoff
    have hk : off / 4096 < size / 4096 := by omega
    have hpath : vaPath (v + off) = vaPath (v + off / 4096 * 4096) :=
      (vaPath_eq_iff (by omega) (by omega)).mpr (by omega)
    obtain ⟨q, hq⟩ := Option.isSome_iff_exists.mp (hstep.mapped hp _ hk)
    rw [hva _ hk, ← hpath] at hq
    rcases hnew r _ q hr hq with hold | ⟨-, j, hj, hpath', rfl⟩
    · rw [walk_eq_none h hr (hunmapped off hoff)] at hold
      cases hold
    · rw [vaPath_eq_iff (by omega) (by omega)] at hpath'
      rw [convert_of_walk hstep.growth.tables hr hq]
      omega
  · intro va hout
    refine hsame r va hr fun _ k hk hpath => ?_
    rw [vaPath_mod va, vaPath_eq_iff (by omega) (by omega)] at hpath
    exact hout (k * 4096) (by omega) (by omega)

/-- Nothing is mapped for an empty range. -/
lemma convert_of_empty {r v p : ℕ} {m' : Memory} (hstep : AllocateStep root m.pm r v 0 p m'.pm)
    {r' : ℕ} (hr' : root r') (va : ℕ) : m'.convert r' va = m.convert r' va := by
  have hwalk : walk m'.pm.entry r' (vaPath va) = walk m.pm.entry r' (vaPath va) := by
    cases hw : walk m'.pm.entry r' (vaPath va) with
    | some q =>
      rcases hstep.adds r' _ q hr' (by simp) hw with hold | ⟨-, -, k, hk, -⟩
      · exact hold.symm
      · omega
    | none =>
      cases hold : walk m.pm.entry r' (vaPath va) with
      | none => rfl
      | some q =>
        rw [hstep.growth.walks r' _ q hr' (by simp) hold] at hw
        cases hw
  rw [convert_eq, convert_eq, hwalk]

/-- The first page of the range is translated to the first free page exactly when it was not mapped:
an entry that is valid stays as it is. -/
theorem convert_first_iff (h : m.pm.PageTables root) {r v size p : ℕ} (hr : root r) (hv : 4096 ∣ v)
    (hpos : 4096 ≤ size) (hrange : v + size ≤ 2 ^ 39) (hp : p ≠ 0)
    (hstep : AllocateStep root m.pm r v size p m'.pm) :
    m'.convert r v = p ↔ m.convert r v = 0 := by
  obtain ⟨q, hq⟩ := Option.isSome_iff_exists.mp (hstep.mapped hp 0 (by omega))
  rw [Nat.zero_mul, Nat.add_zero, u64_of_lt (by omega)] at hq
  have hconv : m'.convert r v = q := by
    rw [convert_of_walk hstep.growth.tables hr hq]
    omega
  rw [hconv]
  constructor
  · rintro rfl
    cases hold : walk m.pm.entry r (vaPath v) with
    | none => rw [convert_eq, hold]
    | some q' =>
      -- the page of an old translation is not free
      have hsame := (hstep.growth.walks r _ q' hr (by simp) hold).symm.trans hq
      obtain rfl := Option.some.inj hsame
      exact absurd ⟨le_rfl, by omega⟩ (h.not_in_gap (hstep.free hp) ⟨r, _, hr, by simp, hold⟩)
  · intro hzero
    rcases hstep.adds r _ q hr (by simp) hq with hold | ⟨-, -, k, hk, hpath, hpage⟩
    · rw [walk_eq_none h hr hzero] at hold
      cases hold
    · rw [u64_of_lt (by omega), vaPath_eq_iff (by omega) (by omega)] at hpath
      rw [hpage hp]
      omega

/-- Every byte of the range is translated, by this allocation or by one before. -/
lemma convert_of_mapped {r v size p : ℕ} (hr : root r) (hv : 4096 ∣ v) (hrange : v + size ≤ 2 ^ 39)
    (hp : p ≠ 0) (hstep : AllocateStep root m.pm r v size p m'.pm) {off : ℕ}
    (hoff : off / 4096 < size / 4096) : m'.convert r (v + off) ≠ 0 := by
  intro hzero
  have hsome := hstep.mapped hp (off / 4096) hoff
  have hpath : vaPath (v + off) = vaPath (v + off / 4096 * 4096) :=
    (vaPath_eq_iff (by omega) (by omega)).mpr (by omega)
  rw [u64_of_lt (by omega), ← hpath, walk_eq_none hstep.growth.tables hr hzero] at hsome
  cases hsome

end Memory

namespace MemoryState

/-- In every state reached by making roots and allocating, a successful allocation of a range that is
not mapped maps exactly this range, rounded up to pages. -/
theorem allocate_mapsExactly {range : ℕ} {s : MemoryState}
    (h : (memorySystem range).ReachableBy (fun _ op => Allocates op) s) {root v length p : ℕ}
    {mem : Memory} (hr : root ∈ s.roots) (hv : 4096 ∣ v) (hlength : 0 < length)
    (hrange : v + length ≤ 2 ^ 39)
    (hunmapped : ∀ k, k * 4096 < length → s.mem.convert root (v + k * 4096) = 0)
    (heq : s.mem.allocate root v length = .ok (p, mem)) (hp : p ≠ 0) :
    Memory.MapsExactly (· ∈ s.roots) s.mem root v ((length + 4095) / 4096 * 4096) p mem := by
  have hkept : (memorySystem range).ReachableBy (fun _ op => ¬ Removes op) s := by
    apply h.mono
    intro _ op hop hrem
    cases op <;> first | exact hop | exact hrem
  rcases invariant_of_kept hkept with hs | ⟨-, rfl⟩
  · have hstep := Memory.allocate_ok hs.tables hr heq
    have hround : roundPages length = (length + 4095) / 4096 * 4096 := by
      rw [roundPages, pageSize_eq, u64_of_lt (by omega)]
      omega
    rw [hround] at hstep
    refine Memory.mapsExactly hs.tables hr hv (Nat.dvd_mul_left ..) (by omega) hp ?_ hstep
    intro off hoff
    -- a byte of the range lies in one of the pages looked at
    have hpage := Memory.walk_eq_none hs.tables hr (hunmapped (off / 4096) (by omega))
    have hpath : vaPath (v + off) = vaPath (v + off / 4096 * 4096) :=
      (vaPath_eq_iff (by omega) (by omega)).mpr (by omega)
    rw [Memory.convert_eq, hpath, hpage]
  · simp at hr

/-- Two pages for five thousand bytes. -/
theorem allocate_mapsExactly_twoPages : ∃ s mem, (memorySystem 0x20010000).Reachable s ∧
    s.mem.allocate 0x20000000 0x40000000 5000 = .ok (0x20001000, mem) ∧
    Memory.MapsExactly (· ∈ s.roots) s.mem 0x20000000 0x40000000 8192 0x20001000 mem := by
  have hrun : ([MemoryOp.createRootPt].foldlM exec ⟨Memory.new 0x20010000, [], []⟩).map (fun s : MemoryState =>
      (s.roots, s.mem.convert 0x20000000 0x40000000, s.mem.convert 0x20000000 0x40001000,
        (s.mem.allocate 0x20000000 0x40000000 5000).toOption.map Prod.fst)) =
      some ([0x20000000], 0, 0, some 0x20001000) := by decide +kernel
  obtain ⟨s, hs, hresult⟩ := Option.map_eq_some_iff.mp hrun
  simp only [Prod.mk.injEq, Option.map_eq_some_iff] at hresult
  obtain ⟨hroots, hfirst, hsecond, ⟨p, mem⟩, hallocate, rfl⟩ := hresult
  have heq : s.mem.allocate 0x20000000 0x40000000 5000 = .ok (0x20001000, mem) := by
    revert hallocate
    cases s.mem.allocate 0x20000000 0x40000000 5000 with
    | error e => simp [Except.toOption]
    | ok r => exact fun hallocate => congrArg _ (Option.some.inj hallocate)
  have hreach : (memorySystem 0x20010000).ReachableBy (fun _ op => Allocates op) s := by
    refine (TransitionSystem.ReachableBy.start rfl).run (fun op hop s t hst => ⟨?_, hst⟩) hs
    rw [List.mem_singleton.mp hop]
    trivial
  refine ⟨s, mem, hreach.reachable, heq, allocate_mapsExactly hreach (by simp [hroots]) (by norm_num)
    (by norm_num) (by norm_num) (fun k hk => ?_) heq (by norm_num)⟩
  obtain rfl | rfl : k = 0 ∨ k = 1 := by omega
  · exact hfirst
  · exact hsecond

end MemoryState
end VentusDriver
