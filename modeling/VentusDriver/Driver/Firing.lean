import VentusDriver.Driver.Completion

/-! What one call of `start` hands to the processor, and what it leaves in the records. The record
of a kernel is entered with its first block and never gets another one, and every block is handed
over with the same base of private memory. -/
namespace VentusDriver
open Foundation

/-- The size of the private memory of a block, before it is narrowed. -/
def KrlMeta.pdsPerBlock (m : KrlMeta) : ℕ := m.pdsSize * m.wfSize * m.wgSize

namespace Driver
variable {d : Driver} {m : KrlMeta} {t : ℕ} {device : ℕ → List DeviceStore}

/-! ### The blocks of a call -/

/-- The requests that a call handed over. -/
def firedPorts (d d' : Driver) : List HostPort :=
  d'.processor.handed.drop d.processor.handed.length

/-- The number of blocks that the firing loop hands over before a shift is undefined. -/
def fireable (kernelID i n : ℕ) : ℕ := if kernelID < 64 then min n (64 - i) else 0

lemma fireable_pos {k i n : ℕ} (hk : k < 64) (hi : i < 64) :
    fireable k i (n + 1) = fireable k (i + 1) n + 1 := by
  rw [fireable, fireable, if_pos hk, if_pos hk]
  omega

lemma fireable_zero {k i n : ℕ} (h : ¬ (k < 64 ∧ i < 64)) : fireable k i (n + 1) = 0 := by
  unfold fireable
  split_ifs with hk
  · have hi : ¬ i < 64 := fun hi => h ⟨hk, hi⟩
    omega
  · rfl

/-- The base of private memory in the port is overwritten in every round. -/
lemma blockPort_pdsBaseaddr (port : HostPort) (pdsParam i wgId : ℕ) :
    (blockPort port m pdsParam i wgId).pdsBaseaddr = 0x80001000 := rfl

lemma packWgId_error {k i : ℕ} (h : ¬ (k < 64 ∧ i < 64)) : ∃ e, packWgId k t i = .error e := by
  cases hpack : packWgId k t i with
  | error e => exact ⟨e, rfl⟩
  | ok w => exact absurd ((packWgId_ok_iff k t i).mp ⟨w, hpack⟩) h

lemma packWgId_undefined {k i : ℕ} {e : Failure} (h : packWgId k t i = .error e) :
    e = .device .undefined := by
  simp only [packWgId, shl64, bind, Except.bind] at h
  split_ifs at h
  all_goals first | exact (Except.error.inj h).symm | cases h

theorem fireBlocks_handed {pdsParam n i : ℕ} (port : HostPort) (ht : t ∈ d.ctxLst) :
    ∃ ports, (fireBlocks m device t pdsParam n i port d).2.processor.handed = d.processor.handed ++ ports ∧
      ports.length = fireable m.kernelId i n ∧ ∀ p ∈ ports, p.pdsBaseaddr = 0x80001000 := by
  induction n generalizing i port d with
  | zero =>
    refine ⟨[], by simp [fireBlocks], ?_, by simp⟩
    simp [fireable]
  | succ n ih =>
    by_cases hlt : m.kernelId < 64 ∧ i < 64
    · obtain ⟨w, hw⟩ := (packWgId_ok_iff m.kernelId t i).mpr hlt
      obtain ⟨info, hinfo⟩ := mem_ctxLst.mp ht
      simp only [fireBlocks, hw, hinfo]
      have ht' : t ∈ (d.fireBlock t info m.kernelId (blockPort port m pdsParam i w) (device i)).ctxLst := by
        simp [fireBlock, recordBlock]
      obtain ⟨ports, hhanded, hlength, hpds⟩ := ih (i := i + 1) (blockPort port m pdsParam i w) ht'
      refine ⟨blockPort port m pdsParam i w :: ports, ?_, ?_, ?_⟩
      · rw [hhanded]
        simp [fireBlock, recordBlock, Processor.run, Processor.offer, Processor.tick, Processor.accept]
      · rw [List.length_cons, hlength, fireable_pos hlt.1 hlt.2]
      · intro p hp
        cases List.mem_cons.mp hp with
        | inl heq => rw [heq, blockPort_pdsBaseaddr]
        | inr hp => exact hpds p hp
    · obtain ⟨e, he⟩ := packWgId_error (t := t) hlt
      exact ⟨[], by simp [fireBlocks, he], by rw [fireable_zero hlt]; rfl, by simp⟩

/-- The loop comes to its end when no shift is undefined. -/
theorem fireBlocks_ok_iff {pdsParam n i : ℕ} (port : HostPort) (ht : t ∈ d.ctxLst) :
    (fireBlocks m device t pdsParam n i port d).1 = .ok 0 ↔ n = 0 ∨ (m.kernelId < 64 ∧ i + n ≤ 64) := by
  constructor
  · intro hok
    cases n with
    | zero => exact .inl rfl
    | succ n =>
      right
      induction n generalizing i port d with
      | zero =>
        by_contra hlt
        obtain ⟨e, he⟩ := packWgId_error (t := t) (k := m.kernelId) (i := i) (by omega)
        simp [fireBlocks, he] at hok
      | succ n ih =>
        have hlt : m.kernelId < 64 ∧ i < 64 := by
          by_contra hlt
          obtain ⟨e, he⟩ := packWgId_error (t := t) hlt
          simp [fireBlocks, he] at hok
        obtain ⟨w, hw⟩ := (packWgId_ok_iff m.kernelId t i).mpr hlt
        obtain ⟨info, hinfo⟩ := mem_ctxLst.mp ht
        rw [fireBlocks] at hok
        simp only [hw, hinfo] at hok
        have ht' : t ∈ (d.fireBlock t info m.kernelId (blockPort port m pdsParam i w) (device i)).ctxLst := by
          simp [fireBlock, recordBlock]
        have := ih _ ht' hok
        omega
  · intro h
    cases h with
    | inl hzero =>
      subst hzero
      rfl
    | inr hlt => exact (fireBlocks_spec m hlt.1 device port ht hlt.2).1

/-- A loop that does not come to its end stops at an undefined shift. -/
lemma fireBlocks_returned_iff {pdsParam n i : ℕ} (port : HostPort) (ht : t ∈ d.ctxLst) :
    Returned (fireBlocks m device t pdsParam n i port d).1 ↔
      (fireBlocks m device t pdsParam n i port d).1 = .ok 0 := by
  induction n generalizing i port d with
  | zero => exact iff_of_true trivial rfl
  | succ n ih =>
    obtain ⟨info, hinfo⟩ := mem_ctxLst.mp ht
    rw [fireBlocks]
    cases hpack : packWgId m.kernelId t i with
    | error e =>
      obtain rfl := packWgId_undefined hpack
      exact iff_of_false id (by simp)
    | ok w =>
      simp only [hinfo]
      apply ih
      simp [fireBlock, recordBlock]

/-! ### Records -/

/-- The number of blocks is 0, or no shift is by 64 or more. -/
def Starts (m : KrlMeta) : Prop := m.blocks = 0 ∨ (m.kernelId < 64 ∧ m.blocks ≤ 64)

section Start
variable {taskID : ℤ}

lemma start_of_created (ht : u64OfInt taskID ∈ d.ctxLst) : d.start taskID m device =
    fireBlocks m device (u64OfInt taskID) (u64 (m.pdsSize * m.wfSize * m.wgSize)) m.blocks 0 (kernelPort m) d := by
  rw [start, if_pos ht]
  rfl

theorem start_ok_iff (ht : u64OfInt taskID ∈ d.ctxLst) : (d.start taskID m device).1 = .ok 0 ↔ Starts m := by
  rw [start_of_created ht, fireBlocks_ok_iff (kernelPort m) ht, Nat.zero_add, Starts]

lemma start_returned_iff (ht : u64OfInt taskID ∈ d.ctxLst) :
    Returned (d.start taskID m device).1 ↔ Starts m := by
  rw [← start_ok_iff ht, start_of_created ht, fireBlocks_returned_iff (kernelPort m) ht]

end Start

/-- A driver with task 0. -/
def withTask : Driver := (Driver.new.createDeviceMem 0).2

/-- The private memory that a request gives to its block. -/
def pdsWindow (port : HostPort) (size : ℕ) : Set ℕ :=
  Set.Ico port.pdsBaseaddr (port.pdsBaseaddr + size)

/-- The private memory of a kernel. -/
def pdsArea (m : KrlMeta) : Set ℕ :=
  Set.Ico m.pdsBaseAddr (m.pdsBaseAddr + m.blocks * m.pdsPerBlock)

/-- Every block of the call has its private memory in that of the kernel, and any two have it apart. -/
structure PrivateWindows (d d' : Driver) (m : KrlMeta) : Prop where
  inside : ∀ p ∈ firedPorts d d', pdsWindow p m.pdsPerBlock ⊆ pdsArea m
  apart : ∀ (i j : ℕ) (p q : HostPort), i ≠ j → (firedPorts d d')[i]? = some p →
    (firedPorts d d')[j]? = some q → Disjoint (pdsWindow p m.pdsPerBlock) (pdsWindow q m.pdsPerBlock)

lemma privateWindows_of_none {d' : Driver} (h : firedPorts d d' = []) : PrivateWindows d d' m := by
  constructor
  · simp [h]
  · simp [h]

lemma start_firedPorts {taskID : ℤ} (ht : u64OfInt taskID ∈ d.ctxLst) :
    (firedPorts d (d.start taskID m device).2).length = fireable m.kernelId 0 m.blocks ∧
      ∀ p ∈ firedPorts d (d.start taskID m device).2, p.pdsBaseaddr = 0x80001000 := by
  rw [start_of_created ht, firedPorts]
  obtain ⟨ports, hhanded, hlength, hpds⟩ := fireBlocks_handed (kernelPort m) ht
  rw [hhanded, List.drop_left]
  exact ⟨hlength, hpds⟩

/-- Windows that all start at 0x80001000 are private where there are none, or there is one and the
memory of the kernel starts there. -/
lemma privateWindows_ports {d' : Driver} (hpos : 0 < m.pdsPerBlock)
    (hlength : (firedPorts d d').length = m.blocks)
    (hpds : ∀ p ∈ firedPorts d d', p.pdsBaseaddr = 0x80001000) :
    PrivateWindows d d' m ↔ m.blocks = 0 ∨ (m.blocks = 1 ∧ m.pdsBaseAddr = 0x80001000) := by
  have hwindow : ∀ p ∈ firedPorts d d', pdsWindow p m.pdsPerBlock =
      Set.Ico 0x80001000 (0x80001000 + m.pdsPerBlock) := by
    intro p hp
    rw [pdsWindow, hpds p hp]
  have hinside : m.blocks = 1 → (Set.Ico 0x80001000 (0x80001000 + m.pdsPerBlock) ⊆ pdsArea m ↔
      m.pdsBaseAddr = 0x80001000) := by
    intro hone
    rw [pdsArea, hone, Set.Ico_subset_Ico_iff (by omega)]
    omega
  constructor
  · intro h
    by_cases htwo : 1 < m.blocks
    · -- both windows hold the address at which they start
      have hdisjoint := h.apart 0 1 _ _ (by norm_num) (List.getElem?_eq_getElem (by omega))
        (List.getElem?_eq_getElem (by omega))
      rw [hwindow _ (List.getElem_mem _), hwindow _ (List.getElem_mem _)] at hdisjoint
      have hmem : 0x80001000 ∈ Set.Ico 0x80001000 (0x80001000 + m.pdsPerBlock) :=
        Set.mem_Ico.mpr ⟨le_refl _, by omega⟩
      exact absurd hmem (Set.disjoint_left.mp hdisjoint hmem)
    · cases Nat.le_one_iff_eq_zero_or_eq_one.mp (Nat.not_lt.mp htwo) with
      | inl hzero => exact .inl hzero
      | inr hone =>
        obtain ⟨p, hp⟩ := List.length_eq_one_iff.mp (hlength.trans hone)
        have hmem : p ∈ firedPorts d d' := hp ▸ List.mem_singleton.mpr rfl
        exact .inr ⟨hone, (hinside hone).mp (hwindow p hmem ▸ h.inside p hmem)⟩
  · intro h
    cases h with
    | inl hzero => exact privateWindows_of_none (List.eq_nil_of_length_eq_zero (hlength.trans hzero))
    | inr hone =>
      refine ⟨fun p hp => ?_, fun i j p q hne hp hq => ?_⟩
      · rw [hwindow p hp]
        exact (hinside hone.1).mpr hone.2
      · have hi := (List.getElem?_eq_some_iff.mp hp).1
        have hj := (List.getElem?_eq_some_iff.mp hq).1
        omega

/-- The window of a block starts at 0x80001000, so two blocks share it, and one has it in the memory of
its kernel exactly when that starts there too. -/
theorem privateWindows_iff (d : Driver) (taskID : ℤ) (m : KrlMeta) (device : ℕ → List DeviceStore)
    (hpos : 0 < m.pdsPerBlock) :
    (Returned (d.start taskID m device).1 ∧ PrivateWindows d (d.start taskID m device).2 m) ↔
      u64OfInt taskID ∉ d.ctxLst ∨ m.blocks = 0 ∨
        (m.blocks = 1 ∧ m.kernelId < 64 ∧ m.pdsBaseAddr = 0x80001000) := by
  by_cases ht : u64OfInt taskID ∈ d.ctxLst
  · obtain ⟨hlength, hpds⟩ := @start_firedPorts d m device taskID ht
    rw [start_returned_iff ht]
    simp only [ht, not_true, false_or]
    constructor
    · rintro ⟨hstarts, h⟩
      cases hstarts with
      | inl hzero => exact .inl hzero
      | inr hlt =>
        rw [fireable, if_pos hlt.1, min_eq_left (by omega)] at hlength
        exact ((privateWindows_ports hpos hlength hpds).mp h).imp_right fun hone => ⟨hone.1, hlt.1, hone.2⟩
    · intro h
      cases h with
      | inl hzero =>
        refine ⟨.inl hzero, privateWindows_of_none (List.eq_nil_of_length_eq_zero ?_)⟩
        rw [hlength, hzero]
        simp [fireable]
      | inr hone =>
        refine ⟨.inr ⟨hone.2.1, by omega⟩, ?_⟩
        rw [fireable, if_pos hone.2.1, min_eq_left (by omega)] at hlength
        exact (privateWindows_ports hpos hlength hpds).mpr (.inr ⟨hone.1, hone.2.2⟩)
  · have hsame : d.start taskID m device = (.error (.error "vz::Device"
        s!"the taskID of {taskID} has not been created, check your input!"), d) := by
      rw [start, if_neg ht]
    refine iff_of_true ?_ (.inl ht)
    rw [hsame]
    exact ⟨trivial, privateWindows_of_none (by rw [firedPorts, List.drop_length])⟩

/-- Kernel 0 with `n` blocks of 16 bytes of private memory each, from the given address on. -/
def pdsKernelOf (n pdsBaseAddr : ℕ) : KrlMeta :=
  { CompletionState.kernelOf n with pdsSize := 1, pdsBaseAddr := pdsBaseAddr }

/-- The memory of the one block starts where the code puts every window. -/
theorem privateWindows_iff_oneBlock :
    PrivateWindows withTask (withTask.start 0 (pdsKernelOf 1 0x80001000) fun _ => []).2
      (pdsKernelOf 1 0x80001000) :=
  ((privateWindows_iff withTask 0 (pdsKernelOf 1 0x80001000) (fun _ => []) (by decide)).mpr
    (.inr (.inr ⟨by decide, by decide, rfl⟩))).2

/-- Both blocks of a kernel whose private memory starts at 0x1000 get the window at 0x80001000. -/
theorem blocks_share_window : ¬ ∀ (d : Driver) (taskID : ℤ) (m : KrlMeta) (device : ℕ → List DeviceStore),
    0 < m.pdsPerBlock → m.pdsBaseAddr + m.blocks * m.pdsPerBlock ≤ 2 ^ 32 →
      PrivateWindows d (d.start taskID m device).2 m := by
  intro h
  have hwindows := h withTask 0 (pdsKernelOf 2 0x1000) (fun _ => []) (by decide) (by decide)
  have hports : (firedPorts withTask (withTask.start 0 (pdsKernelOf 2 0x1000) fun _ => []).2).map
      HostPort.pdsBaseaddr = [0x80001000, 0x80001000] := by decide +kernel
  obtain ⟨p, ps, hps, hp, hrest⟩ := List.map_eq_cons_iff.mp hports
  obtain ⟨q, qs, hqs, hq, -⟩ := List.map_eq_cons_iff.mp hrest
  have hdisjoint := hwindows.apart 0 1 p q (by norm_num) (by rw [hps]; rfl) (by rw [hps, hqs]; rfl)
  rw [pdsWindow, pdsWindow, hp, hq] at hdisjoint
  exact Set.disjoint_left.mp hdisjoint (Set.mem_Ico.mpr ⟨le_refl _, by decide⟩)
    (Set.mem_Ico.mpr ⟨le_refl 0x80001000, by decide⟩)

end Driver
end VentusDriver
