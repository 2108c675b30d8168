import VentusDriver.Foundation.Transition
import VentusDriver.Device.VirtualAccess

/-! Without release, device memory is a byte store for each root. The abstract store maps a root
and a virtual address to the byte last written there; in every run it agrees with what is read
through the page tables. -/
namespace VentusDriver
open Foundation Foundation.Radix Sv39 PhysicalMemory

/-- A range given to a root by a successful `allocate`. -/
structure VirtualRange where
  root : ℕ
  addr : ℕ
  length : ℕ

/-- The bytes last written, for each root. -/
abbrev ByteStore := ℕ → ℕ → UInt8

/-- The abstract effect of a write. -/
def ByteStore.write (store : ByteStore) (root vAddr size : ℕ) (input : ℕ → UInt8) : ByteStore :=
  fun r va => if r = root ∧ vAddr ≤ va ∧ va < vAddr + size then input (va - vAddr) else store r va

namespace ByteStore
variable (store : ByteStore) {root vAddr size r va : ℕ} {input : ℕ → UInt8}

lemma write_inside (hlow : vAddr ≤ va) (hhigh : va < vAddr + size) :
    store.write root vAddr size input root va = input (va - vAddr) :=
  if_pos ⟨rfl, hlow, hhigh⟩

lemma write_outside (h : ¬ (r = root ∧ vAddr ≤ va ∧ va < vAddr + size)) :
    store.write root vAddr size input r va = store r va :=
  if_neg h

end ByteStore

/-- Device memory beside the history that the abstract store needs. -/
structure StoreState where
  mem : Memory
  roots : List ℕ
  regions : List VirtualRange
  store : ByteStore

namespace StoreState

/-- The byte lies inside a range that was allocated for the root. -/
def Owns (s : StoreState) (root va : ℕ) : Prop :=
  ∃ g ∈ s.regions, g.root = root ∧ g.addr ≤ va ∧ va < g.addr + g.length

/-- A non-empty range of allocated bytes. -/
def Accessible (s : StoreState) (root vAddr size : ℕ) : Prop :=
  0 < size ∧ ∀ k < size, s.Owns root (vAddr + k)

/-- A range that may be allocated: page aligned, below the 39-bit limit and not mapped. -/
def Allocatable (s : StoreState) (root vAddr length : ℕ) : Prop :=
  root ∈ s.roots ∧ 4096 ∣ vAddr ∧ 0 < length ∧ vAddr + length ≤ 2 ^ 39 ∧
    ∀ k, k * 4096 < length → s.mem.convert root (vAddr + k * 4096) = 0

end StoreState

inductive StoreOp
  | createRootPt
  | allocate (root vAddr length : ℕ)
  | writeVirt (root vAddr size : ℕ) (input : ℕ → UInt8)
  | readVirt (root vAddr size : ℕ) (out : ℕ → UInt8)

/-- Runs of the four operations. The result 0 of the first two is a failure. -/
def storeSystem (range : ℕ) : TransitionSystem StoreState StoreOp where
  init s := s = ⟨Memory.new range, [], [], fun _ _ => 0⟩
  step s op t :=
    match op with
    | .createRootPt => ∃ root mem, s.mem.createRootPt = .ok (root, mem) ∧
        t = { s with mem := mem, roots := if root = 0 then s.roots else root :: s.roots }
    | .allocate root vAddr length => s.Allocatable root vAddr length ∧
        ∃ pAddr mem, s.mem.allocate root vAddr length = .ok (pAddr, mem) ∧
          t = { s with mem := mem, regions :=
                  if pAddr = 0 then s.regions else ⟨root, vAddr, length⟩ :: s.regions }
    | .writeVirt root vAddr size input => s.Accessible root vAddr size ∧
        t = { s with
          mem := (s.mem.writeVirt root vAddr size input).2
          store := s.store.write root vAddr size input }
    | .readVirt root vAddr size _ => s.Accessible root vAddr size ∧ t = s

/-- The tables are sound, every allocated byte is mapped and holds the byte of the store. -/
structure StoreInvariant (s : StoreState) : Prop where
  tables : s.mem.pm.PageTables (· ∈ s.roots)
  rooted : ∀ g ∈ s.regions, g.root ∈ s.roots ∧ g.addr + g.length ≤ 2 ^ 39
  mapped : ∀ g ∈ s.regions, s.mem.Mapped g.root g.addr g.length
  bytes : ∀ r va, s.Owns r va → s.mem.pm.byteAt (s.mem.convert r va) = s.store r va
  untouched : ∀ r va, ¬ s.Owns r va → s.store r va = 0

namespace StoreInvariant
variable {s t : StoreState}

lemma owned (h : StoreInvariant s) {r va : ℕ} (ho : s.Owns r va) :
    r ∈ s.roots ∧ va < 2 ^ 39 ∧ (walk s.mem.pm.entry r (vaPath va)).isSome = true := by
  obtain ⟨g, hg, rfl, hlow, hhigh⟩ := ho
  obtain ⟨hr, hlt⟩ := h.rooted g hg
  have := h.mapped g hg (va - g.addr) (by omega)
  rw [Nat.add_sub_cancel' hlow] at this
  exact ⟨hr, by omega, this⟩

lemma accessible (h : StoreInvariant s) {r v size : ℕ} (ha : s.Accessible r v size) :
    r ∈ s.roots ∧ v + size ≤ 2 ^ 39 ∧ s.mem.Mapped r v size := by
  obtain ⟨hpos, hown⟩ := ha
  have hlast := (h.owned (hown (size - 1) (by omega))).2.1
  exact ⟨(h.owned (hown 0 hpos)).1, by omega, fun k hk => (h.owned (hown k hk)).2.2⟩

/-- Growth of the tables keeps every allocated byte, its address and its value. -/
lemma of_growth (h : StoreInvariant s) {mem : Memory}
    (g : Growth (· ∈ s.roots) s.mem.pm mem.pm) {r va : ℕ} (ho : s.Owns r va) :
    (walk mem.pm.entry r (vaPath va)).isSome = true ∧
      mem.pm.byteAt (mem.convert r va) = s.store r va := by
  obtain ⟨hr, -, hsome⟩ := h.owned ho
  obtain ⟨q, hq⟩ := Option.isSome_iff_exists.mp hsome
  have hq' := g.walks r _ q hr (by simp) hq
  have hback := (h.tables.page q ⟨r, _, hr, by simp, hq⟩).2
  refine ⟨by rw [hq']; rfl, ?_⟩
  rw [Memory.convert_of_walk g.tables hr hq', ← h.bytes r va ho,
    Memory.convert_of_walk h.tables hr hq]
  exact g.bytes _ (hback.mono (by omega) (by omega)) fun t ht =>
    Memory.leaf_not_in_table h.tables hr (by simp) hq (by omega) (by omega) ht

/-! ### Steps -/

lemma createRootPt (h : StoreInvariant s) {root : ℕ} {mem : Memory}
    (heq : s.mem.createRootPt = .ok (root, mem)) :
    StoreInvariant { s with
      mem := mem, roots := if root = 0 then s.roots else root :: s.roots } := by
  rcases Memory.createRootPt_ok h.tables heq with ⟨rfl, rfl⟩ | ⟨hne, hstep⟩
  · exact h
  · rw [if_neg hne]
    refine ⟨?_, ?_, ?_, ?_, h.untouched⟩
    · simpa [List.mem_cons] using hstep.tables
    · exact fun g hg => ⟨List.mem_cons_of_mem _ (h.rooted g hg).1, (h.rooted g hg).2⟩
    · intro g hg k hk
      exact (h.of_growth hstep.growth ⟨g, hg, rfl, by omega, by omega⟩).1
    · exact fun r va ho => (h.of_growth hstep.growth ho).2

lemma allocate (h : StoreInvariant s) {root vAddr length pAddr : ℕ} {mem : Memory}
    (hal : s.Allocatable root vAddr length)
    (heq : s.mem.allocate root vAddr length = .ok (pAddr, mem)) :
    StoreInvariant { s with mem := mem, regions :=
      if pAddr = 0 then s.regions else ⟨root, vAddr, length⟩ :: s.regions } := by
  obtain ⟨hr, hdvd, hlen, hrange, hunmapped⟩ := hal
  have hstep := Memory.allocate_ok h.tables hr heq
  have hkeep := fun {r va} (ho : s.Owns r va) => h.of_growth hstep.growth ho
  split_ifs with hp
  · refine ⟨hstep.growth.tables, h.rooted, ?_, fun r va ho => (hkeep ho).2, h.untouched⟩
    exact fun g hg k hk => (hkeep ⟨g, hg, rfl, by omega, by omega⟩).1
  · -- a page of the new range had no translation, so its translation is new
    have hpage : ∀ k < length, ∃ j, roundPages length / 4096 > j ∧
        vaPath (vAddr + k) = vaPath (vAddr + j * 4096) ∧ j * 4096 < length ∧
        k = j * 4096 + (vAddr + k) % 4096 := by
      intro k hk
      refine ⟨k / 4096, ?_, (vaPath_eq_iff (by omega) (by omega)).mpr (by omega), by omega,
        by omega⟩
      rw [roundPages, pageSize_eq, u64_of_lt (by omega)]
      omega
    have hnew : ∀ k < length, s.store root (vAddr + k) = 0 ∧
        (walk mem.pm.entry root (vaPath (vAddr + k))).isSome = true ∧
        mem.pm.byteAt (mem.convert root (vAddr + k)) = 0 := by
      intro k hk
      obtain ⟨j, hj, hpath, hjlen, hoff⟩ := hpage k hk
      have hnone := Memory.walk_eq_none h.tables hr (hunmapped j hjlen)
      have hva : u64 (vAddr + j * 4096) = vAddr + j * 4096 := u64_of_lt (by omega)
      have hsome := hstep.mapped hp j hj
      rw [hva, ← hpath] at hsome
      obtain ⟨q, hq⟩ := Option.isSome_iff_exists.mp hsome
      refine ⟨h.untouched _ _ fun ho => ?_, hsome, ?_⟩
      · have := (h.owned ho).2.2
        rw [hpath, hnone] at this
        exact absurd this (by simp)
      · rcases hstep.adds root _ q hr (by simp) hq with hold | ⟨-, -, i, hi, hsame, hphys⟩
        · rw [hpath, hnone] at hold
          cases hold
        · rw [Memory.convert_of_walk hstep.growth.tables hr hq, hphys hp]
          exact hstep.zero hp _ (by omega) (by omega)
    refine ⟨hstep.growth.tables, ?_, ?_, ?_, ?_⟩
    · rintro g (_ | ⟨_, hg⟩)
      · exact ⟨hr, hrange⟩
      · exact h.rooted g hg
    · rintro g (_ | ⟨_, hg⟩) k hk
      · exact (hnew k hk).2.1
      · exact (hkeep ⟨g, hg, rfl, by omega, by omega⟩).1
    · rintro r va ⟨g, _ | ⟨_, hg⟩, rfl, hlow, hhigh⟩
      · obtain ⟨h0, -, hbyte⟩ := hnew (va - vAddr) (by simp only at hhigh hlow; omega)
        simp only at hlow
        rw [Nat.add_sub_cancel' hlow] at h0 hbyte
        exact hbyte.trans h0.symm
      · exact (hkeep ⟨g, hg, rfl, hlow, hhigh⟩).2
    · refine fun r va ho => h.untouched r va fun hold => ho ?_
      obtain ⟨g, hg, hrest⟩ := hold
      exact ⟨g, .tail _ hg, hrest⟩

lemma writeVirt (h : StoreInvariant s) {root vAddr size : ℕ} (input : ℕ → UInt8)
    (ha : s.Accessible root vAddr size) :
    StoreInvariant { s with
      mem := (s.mem.writeVirt root vAddr size input).2
      store := s.store.write root vAddr size input } := by
  obtain ⟨hr, hrange, hm⟩ := h.accessible ha
  obtain ⟨mem, heq, hwr⟩ := Memory.writeVirt_spec h.tables hr ha.1 hrange hm input
  rw [heq]
  refine ⟨hwr.tables, h.rooted, ?_, ?_, ?_⟩
  · intro g hg k hk
    rw [hwr.walks _ _ (h.rooted g hg).1 (by simp)]
    exact h.mapped g hg k hk
  · intro r va ho
    obtain ⟨hr', hva, hsome⟩ := h.owned ho
    rw [hwr.convert hr']
    by_cases hin : r = root ∧ vAddr ≤ va ∧ va < vAddr + size
    · obtain ⟨rfl, hlow, hhigh⟩ := hin
      have hdone := hwr.done (va - vAddr) (by omega)
      rw [Nat.add_sub_cancel' hlow] at hdone
      exact hdone.trans (s.store.write_inside hlow hhigh).symm
    · rw [hwr.others, h.bytes r va ho]
      · exact (s.store.write_outside hin).symm
      -- distinct virtual bytes have distinct physical addresses
      intro k hk hsame
      obtain ⟨q, hq⟩ := Option.isSome_iff_exists.mp (hm k hk)
      obtain ⟨q', hq'⟩ := Option.isSome_iff_exists.mp hsome
      obtain ⟨rfl, hva'⟩ := Memory.convert_injective h.tables hr hr' (by omega) hva hq hq' hsame
      exact hin ⟨rfl, by omega, by omega⟩
  · intro r va ho
    refine (s.store.write_outside ?_).trans (h.untouched r va ho)
    rintro ⟨rfl, hlow, hhigh⟩
    have := ha.2 (va - vAddr) (by omega)
    rw [Nat.add_sub_cancel' hlow] at this
    exact ho this

end StoreInvariant

/-! ### Runs -/

/-- In every state reached, either the tables are sound or no root was ever made. -/
theorem storeSystem_invariant {range : ℕ} {s : StoreState} (h : (storeSystem range).Reachable s) :
    StoreInvariant s ∨ (range < 0x20000000 ∧ s = ⟨Memory.new range, [], [], fun _ _ => 0⟩) := by
  refine h.invariant (I := fun s => StoreInvariant s ∨ (range < 0x20000000 ∧
    s = ⟨Memory.new range, [], [], fun _ _ => 0⟩)) ?_ ?_
  · rintro s rfl
    by_cases hrange : range < 0x20000000
    · exact .inr ⟨hrange, rfl⟩
    · left
      exact ⟨.of_new (by omega) (by simp), by simp, by simp,
        by simp [StoreState.Owns], fun _ _ _ => rfl⟩
  · rintro s op t (hs | ⟨hrange, rfl⟩) - hstep
    · left
      cases op with
      | createRootPt =>
        obtain ⟨root, mem, heq, rfl⟩ := hstep
        exact hs.createRootPt heq
      | allocate root vAddr length =>
        obtain ⟨hal, pAddr, mem, heq, rfl⟩ := hstep
        exact hs.allocate hal heq
      | writeVirt root vAddr size input =>
        obtain ⟨ha, rfl⟩ := hstep
        exact hs.writeVirt input ha
      | readVirt root vAddr size out =>
        obtain ⟨-, rfl⟩ := hstep
        exact hs
    · right
      refine ⟨hrange, ?_⟩
      cases op with
      | createRootPt =>
        obtain ⟨root, mem, heq, rfl⟩ := hstep
        rw [Memory.createRootPt_small hrange] at heq
        obtain ⟨rfl, rfl⟩ := Prod.mk.inj (Except.ok.inj heq)
        rfl
      | allocate root vAddr length => exact absurd hstep.1.1 (by simp)
      | writeVirt root vAddr size input =>
        obtain ⟨hpos, hown⟩ := hstep.1
        obtain ⟨g, hg, -⟩ := hown 0 hpos
        exact absurd hg (by simp)
      | readVirt root vAddr size out => exact hstep.2

/-- Device memory behaves as the byte store: the operations return, a write succeeds without
touching a page table, and a read succeeds and delivers the store's bytes. -/
structure RefinesStore (s : StoreState) : Prop where
  createRootPt : ∃ root mem, s.mem.createRootPt = .ok (root, mem)
  allocate : ∀ root vAddr length, s.Allocatable root vAddr length →
    ∃ pAddr mem, s.mem.allocate root vAddr length = .ok (pAddr, mem)
  write : ∀ root vAddr size input, s.Accessible root vAddr size →
    (s.mem.writeVirt root vAddr size input).1 = 0
  tables : ∀ root vAddr size input, s.Accessible root vAddr size →
    ∀ table, IsTable s.mem.pm.entry 3 (· ∈ s.roots) table → ∀ x, table ≤ x → x < table + 4096 →
      (s.mem.writeVirt root vAddr size input).2.pm.byteAt x = s.mem.pm.byteAt x
  read : ∀ root vAddr size out, s.Accessible root vAddr size →
    (s.mem.readVirt root vAddr size out).1 = 0 ∧
      ∀ k < size, (s.mem.readVirt root vAddr size out).2 k = s.store root (vAddr + k)
  frame : ∀ root vAddr size input root' vAddr' size' out, s.Accessible root vAddr size →
    s.Accessible root' vAddr' size' →
    ∀ k < size', root' ≠ root ∨ vAddr' + k < vAddr ∨ vAddr + size ≤ vAddr' + k →
      ((s.mem.writeVirt root vAddr size input).2.readVirt root' vAddr' size' out).2 k =
        (s.mem.readVirt root' vAddr' size' out).2 k

theorem StoreInvariant.read {s : StoreState} (h : StoreInvariant s) {root vAddr size : ℕ}
    (ha : s.Accessible root vAddr size) (out : ℕ → UInt8) :
    (s.mem.readVirt root vAddr size out).1 = 0 ∧
      ∀ k < size, (s.mem.readVirt root vAddr size out).2 k = s.store root (vAddr + k) := by
  obtain ⟨hr, hrange, hm⟩ := h.accessible ha
  obtain ⟨out', heq, hread⟩ := Memory.readVirt_spec h.tables hr ha.1 hrange hm out
  rw [heq]
  exact ⟨rfl, fun k hk => (hread k hk).trans (h.bytes _ _ (ha.2 k hk))⟩

/-- In every run, of any length and over any number of roots, device memory refines the store. -/
theorem storeSystem_refines {range : ℕ} {s : StoreState} (h : (storeSystem range).Reachable s) :
    RefinesStore s := by
  rcases storeSystem_invariant h with hs | ⟨hrange, rfl⟩
  · refine ⟨?_, ?_, ?_, ?_, fun _ _ _ out ha => hs.read ha out, ?_⟩
    · rcases Memory.createRootPt_spec hs.tables with heq | ⟨r, mem, -, heq, -⟩
      · exact ⟨_, _, heq⟩
      · exact ⟨_, _, heq⟩
    · intro root vAddr length hal
      obtain ⟨hr, -, -, hrange, -⟩ := hal
      rcases Memory.allocate_spec hs.tables hr vAddr length with ⟨hhuge, -⟩ | ⟨p, mem, heq, -⟩
      · rw [roundPages, pageSize_eq, u64_of_lt (by omega)] at hhuge
        omega
      · exact ⟨p, mem, heq⟩
    · intro root vAddr size input ha
      obtain ⟨hr, hrange, hm⟩ := hs.accessible ha
      obtain ⟨mem, heq, -⟩ := Memory.writeVirt_spec hs.tables hr ha.1 hrange hm input
      rw [heq]
    · intro root vAddr size input ha table ht x hlow hhigh
      obtain ⟨hr, hrange, hm⟩ := hs.accessible ha
      obtain ⟨mem, heq, hwr⟩ := Memory.writeVirt_spec hs.tables hr ha.1 hrange hm input
      rw [heq]
      apply hwr.others x
      intro k hk hsame
      obtain ⟨q, hq⟩ := Option.isSome_iff_exists.mp (hm k hk)
      have hphys := Memory.convert_of_walk hs.tables hr hq
      exact Memory.leaf_not_in_table hs.tables hr (by simp) hq (by omega) (by omega) ht
        ⟨hlow, hhigh⟩
    · intro root vAddr size input root' vAddr' size' out ha ha' k hk hapart
      rw [((hs.writeVirt input ha).read ha' out).2 k hk, (hs.read ha' out).2 k hk]
      exact s.store.write_outside (by omega)
  · -- without a root there is nothing to access
    have hnone : ∀ root vAddr size, ¬ StoreState.Accessible
        ⟨Memory.new range, [], [], fun _ _ => 0⟩ root vAddr size := by
      rintro root vAddr size ⟨hpos, hown⟩
      obtain ⟨g, hg, -⟩ := hown 0 hpos
      exact absurd hg (by simp)
    refine ⟨⟨_, _, Memory.createRootPt_small hrange⟩, fun _ _ _ hal => absurd hal.1 (by simp), ?_, ?_, ?_,
      ?_⟩
    all_goals intros
    all_goals exact absurd (by assumption) (hnone _ _ _)

/-- A run with one root and a range of two pages, of which four bytes across the page border are
accessible. -/
theorem storeSystem_refines_twoPages : ∃ s, (storeSystem 0x20010000).Reachable s ∧
    s.Accessible 0x20000000 0x40000ffe 4 ∧ RefinesStore s := by
  have hroot : (Memory.new 0x20010000).createRootPt.toOption.map Prod.fst = some 0x20000000 := by
    decide +kernel
  have hfree : ∀ x ∈ (Memory.new 0x20010000).createRootPt.toOption, ∀ k < 2,
      x.2.convert 0x20000000 (0x40000000 + k * 4096) = 0 := by decide +kernel
  have hpage : ∀ x ∈ (Memory.new 0x20010000).createRootPt.toOption,
      (x.2.allocate 0x20000000 0x40000000 5000).toOption.map Prod.fst = some 0x20001000 := by
    decide +kernel
  have h₀ : (storeSystem 0x20010000).Reachable ⟨Memory.new 0x20010000, [], [], fun _ _ => 0⟩ :=
    .start rfl
  generalize Memory.new 0x20010000 = start at hroot hfree hpage h₀
  cases hcreate : start.createRootPt with
  | error e => simp [hcreate, Except.toOption] at hroot
  | ok x =>
    obtain ⟨root, mem⟩ := x
    simp only [hcreate, Except.toOption, Option.map_some, Option.some.injEq, Option.mem_def,
      forall_eq'] at hroot hfree hpage
    subst hroot
    have h₁ : (storeSystem 0x20010000).Reachable ⟨mem, [0x20000000], [], fun _ _ => 0⟩ :=
      .next h₀ trivial (l := .createRootPt) ⟨_, _, hcreate, rfl⟩
    cases hallocate : mem.allocate 0x20000000 0x40000000 5000 with
    | error e => simp [hallocate] at hpage
    | ok y =>
      obtain ⟨pAddr, mem'⟩ := y
      simp only [hallocate, Option.map_some, Option.some.injEq] at hpage
      subst hpage
      have h₂ : (storeSystem 0x20010000).Reachable
          ⟨mem', [0x20000000], [⟨0x20000000, 0x40000000, 5000⟩], fun _ _ => 0⟩ :=
        .next h₁ trivial (l := .allocate 0x20000000 0x40000000 5000)
          ⟨⟨by simp, by norm_num, by norm_num, by norm_num, fun k hk => hfree k (by omega)⟩,
            _, _, hallocate, rfl⟩
      refine ⟨_, h₂, ⟨by norm_num, fun k hk => ?_⟩, storeSystem_refines h₂⟩
      exact ⟨_, List.mem_singleton_self _, rfl, by dsimp only; omega, by dsimp only; omega⟩

end VentusDriver
