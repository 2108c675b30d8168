import VentusDriver.Device.Atomicity
import VentusDriver.Device.OtherRoots

/-! When `allocate` gives a page, by the memory before the call: there is a gap for the data, the cursor
lets the block in, and the free pages suffice for the tables that the root does not have. Under the root
0 no table is ever found again, and the loop makes one for every index that changes. -/
namespace VentusDriver
open Foundation Foundation.Radix Sv39

namespace PhysicalMemory
variable {pm pm' : PhysicalMemory} {root : ℕ → Prop}

/-! ### Insertion -/

/-- The cursor stands on a block; if that is the first one, not all blocks lie behind the new one. -/
structure Insertable (pm : PhysicalMemory) (p size : ℕ) : Prop where
  cursor : pm.currentBlock ≠ none
  before : pm.currentBlock = some 0 → ∃ b ∈ pm.blocks, b.addr < p + size

/-- The walk to the front inserts the block once there is one before it. -/
lemma insertBackward_of_before (h : pm.Ordered) {blk : Block} {i : ℕ} (hi : i ≤ pm.blocks.length)
    (hbefore : ∃ b ∈ pm.blocks.take i, b.limit ≤ blk.addr) :
    ∃ pm', insertBackward pm blk i = .ok (0, pm') := by
  induction i with
  | zero => simp at hbefore
  | succ i ih =>
    have hget : pm.blocks[i]? = some pm.blocks[i] := List.getElem?_eq_getElem (by omega)
    simp only [insertBackward, hget, Block.lt, h.endAddr_eq (List.getElem_mem _)]
    split_ifs with hlt
    · exact ⟨_, rfl⟩
    · apply ih (by omega)
      obtain ⟨b, hb, hle⟩ := hbefore
      rw [List.take_add_one, hget, List.mem_append] at hb
      cases hb with
      | inl hb => exact ⟨b, hb, hle⟩
      | inr hb =>
        simp only [Option.toList_some, List.mem_singleton] at hb
        exact absurd (hb ▸ hle) hlt

/-- In a gap a block is inserted unless the walk starts at the first block and finds none before it. -/
theorem insert_gap_iff (h : pm.Ordered) (hcursor : pm.CursorValid) {p size : ℕ} (hgap : pm.Gap p size)
    (hnext : ∃ b ∈ pm.blocks, p + size ≤ b.addr) :
    (∃ pm', pm.insert p size true = .ok (0, pm')) ↔ pm.Insertable p size := by
  obtain ⟨i, hi, hlen⟩ := hcursor
  have hnew : Block.new p size true = .ok (fresh p size) := Block.new_backed (by
    have := hgap.fits
    have := h.range_lt
    have := hgap.lower h
    omega)
  have hget : pm.blocks[i]? = some pm.blocks[i] := List.getElem?_eq_getElem hlen
  have hfresh : (fresh p size).endAddr = p + size := by
    have hlt : (fresh p size).limit < 2 ^ 64 := by
      have := hgap.fits
      have := h.range_lt
      simp only [Block.limit, fresh]
      omega
    exact Block.endAddr_eq hlt
  -- with all blocks behind the new one the walk goes to the front
  have hbackward : (∀ b ∈ pm.blocks, p + size ≤ b.addr) →
      pm.insert p size true = insertBackward pm (fresh p size) i := by
    intro hall
    have hgt := hall _ (List.getElem_mem hlen)
    simp only [insert, hnew, hi, hget, bind, Except.bind, Block.gt, hfresh]
    rw [if_pos hgt]
  constructor
  · rintro ⟨pm', hok⟩
    refine ⟨by simp [hi], fun hzero => ?_⟩
    by_contra hnone
    have hall : ∀ b ∈ pm.blocks, p + size ≤ b.addr := fun b hb => by
      by_contra hlt
      exact hnone ⟨b, hb, Nat.not_le.mp hlt⟩
    obtain rfl := Option.some.inj (hi.symm.trans hzero)
    rw [hbackward hall, insertBackward] at hok
    simp at hok
  · intro hins
    rcases insert_cases h ⟨i, hi, hlen⟩ hgap hnext with ⟨pm', hok, -⟩ | ⟨-, hall⟩
    · exact ⟨pm', hok⟩
    · rw [hbackward hall]
      apply insertBackward_of_before h hlen.le
      obtain ⟨g, hg, hend, -⟩ := hgap.ends
      obtain ⟨j, hj, rfl⟩ := List.mem_iff_getElem.mp hg
      have hstart := hall _ hg
      by_cases hji : j < i
      · exact ⟨_, List.mem_take_iff_getElem.mpr ⟨j, by omega, rfl⟩, hend.le⟩
      · -- the first block ends before the gap as well
        have hpos : 0 < i := by
          rw [Nat.pos_iff_ne_zero]
          rintro rfl
          obtain ⟨b, hb, hlt⟩ := hins.before hi
          exact absurd (hall b hb) (Nat.not_le.mpr hlt)
        refine ⟨pm.blocks[0], List.mem_take_iff_getElem.mpr ⟨0, by omega, rfl⟩, ?_⟩
        have hlow := List.pairwise_iff_getElem.mp h.ascending 0 j (by omega) hj (by omega)
        simp only [Block.limit] at hlow hend
        simp only [Block.limit, fresh]
        omega

/-! ### The root 0 -/

/-- A table behind an entry of the page 0 takes a free page and is not found again. -/
lemma ensureTable_zero (h : pm.PageTables root) {i : ℕ} (hi : i < 512) :
    (pm.freeBytes = 0 ∧ pm.ensureTable 0 i = .ok (false, pm)) ∨
      ∃ pm', pm.ensureTable 0 i = .ok (true, pm') ∧ pm'.PageTables root ∧
        pm'.freeBytes + 4096 = pm.freeBytes := by
  have haddr : entryAddr 0 i < 0x20000000 := by
    rw [entryAddr_eq (by norm_num) hi]
    omega
  rw [ensureTable, pte, readValue_low h.ordered haddr, if_pos (by rfl)]
  by_cases hp : pm.usable pageSize = 0
  · left
    exact ⟨(usable_page h.ordered).mp hp, by simp [hp]⟩
  · right
    have h4096 := pageSize_eq
    have hround : roundPages pageSize = pageSize := roundPages_of_dvd (by omega) (by omega)
    obtain ⟨hgap, pm₁, hins, hat⟩ := insert_usable h.ordered h.cursor hround (by omega) (by omega) hp
    have hnext := (usable_gap h.ordered (by omega) hp rfl).2
    rw [hround] at hnext
    have htables := (h.insertedAt hgap (by omega) hat).1
    refine ⟨pm₁, ?_, htables, ?_⟩
    · simp only [if_neg hp, hins, writeValue_low htables.ordered haddr]
    · rw [← hat.freeBytes hgap (by omega) hnext]
      omega

/-- The tables that one page makes under the root 0, when these indices are remembered. -/
def changes (idx : PtIdx) (va : ℕ) : ℕ :=
  (if vaExtract va 0 ≠ idx.level0 then 1 else 0) + if vaExtract va 1 ≠ idx.level1 then 1 else 0

def indices (va : ℕ) : PtIdx := ⟨vaExtract va 0, vaExtract va 1, vaExtract va 2⟩

lemma allocateLevel_zero (h : pm.PageTables root) {i : ℕ} (hi : i < 512) (cached : ℕ) :
    (i ≠ cached ∧ pm.freeBytes = 0 ∧ pm.allocateLevel 0 i cached = .ok (false, pm)) ∨
      ∃ pm', pm.allocateLevel 0 i cached = .ok (true, pm') ∧ pm'.PageTables root ∧
        pm'.freeBytes + (if i ≠ cached then 1 else 0) * 4096 = pm.freeBytes := by
  unfold allocateLevel
  by_cases hne : i = cached
  · right
    refine ⟨pm, ?_, h, ?_⟩
    · rw [if_neg (not_not.mpr hne)]
    · rw [if_neg (not_not.mpr hne), Nat.zero_mul, Nat.add_zero]
  · rw [if_pos hne]
    rcases ensureTable_zero h hi with ⟨hfree, heq⟩ | ⟨pm', heq, htables, hfree⟩
    · exact .inl ⟨hne, hfree, heq⟩
    · exact .inr ⟨pm', heq, htables, by rwa [if_pos hne, Nat.one_mul]⟩

/-- A page under the root 0: nothing is mapped, and the free pages are spent on tables. -/
lemma allocatePage_zero (h : pm.PageTables root) (va pa : ℕ) (idx : PtIdx) :
    (pm.freeBytes < changes idx va * 4096 ∧
        ∃ idx' pm', pm.allocatePage 0 va pa idx = .ok (false, idx', pm')) ∨
      ∃ pm', pm.allocatePage 0 va pa idx = .ok (true, indices va, pm') ∧ pm'.PageTables root ∧
        pm'.freeBytes + changes idx va * 4096 = pm.freeBytes := by
  rw [allocatePage, changes]
  rcases allocateLevel_zero h (vaExtract_lt va 0) idx.level0 with
    ⟨hne, hfree, heq⟩ | ⟨pm₀, heq, h₀, hfree₀⟩
  · left
    refine ⟨by rw [if_pos hne]; omega, idx, pm, ?_⟩
    rw [heq]
  · simp only [heq, nextTable_zero h₀.ordered (vaExtract_lt va 0)]
    rcases allocateLevel_zero h₀ (vaExtract_lt va 1) idx.level1 with
      ⟨hne, hfree, heq₁⟩ | ⟨pm₁, heq₁, h₁, hfree₁⟩
    · left
      refine ⟨?_, idx, pm₀, by rw [heq₁]⟩
      rw [if_pos hne]
      omega
    · right
      have haddr : entryAddr 0 (vaExtract va 2) < 0x20000000 := by
        have hlt := vaExtract_lt va 2
        rw [entryAddr_eq (by norm_num) hlt]
        omega
      have hleaf : pm₁.mapLeaf 0 (vaExtract va 2) pa = pm₁ := by
        unfold mapLeaf
        split_ifs
        · exact writeValue_low h₁.ordered haddr _
        · rfl
      refine ⟨pm₁, ?_, h₁, ?_⟩
      · simp only [heq₁, nextTable_zero h₁.ordered (vaExtract_lt va 1), hleaf, ite_self, indices]
      · rw [Nat.add_mul, ← hfree₀, ← hfree₁]
        ring

/-- The tables that the loop makes for `n` pages from `va` on. -/
def spent : ℕ → PtIdx → ℕ → ℕ
  | 0, _, _ => 0
  | n + 1, idx, va => changes idx va + spent n (indices va) (va + 4096)

/-- Under the root 0 the loop runs to its end exactly when there is a page for each of them. -/
theorem allocatePages_zero (h : pm.PageTables root) {v p n : ℕ} (iter : ℕ)
    (hend : v + iter + n * 4096 ≤ 2 ^ 39) (idx : PtIdx) : ∃ ok pm', allocatePages 0 v p n iter idx pm = .ok (ok, pm') ∧
      (ok = true ↔ spent n idx (v + iter) * 4096 ≤ pm.freeBytes) := by
  induction n generalizing pm iter idx with
  | zero => exact ⟨true, pm, rfl, by simp [spent]⟩
  | succ n ih =>
    rw [allocatePages, u64_of_lt (show v + iter < 2 ^ 64 by omega), spent]
    rcases allocatePage_zero h (v + iter) (u64 (p + iter)) idx with
      ⟨hfew, idx', pm', heq⟩ | ⟨pm', heq, h', hfree⟩
    · refine ⟨false, pm', by rw [heq], ?_⟩
      rw [Nat.add_mul]
      exact iff_of_false (by simp) (by omega)
    · obtain ⟨ok, pm'', hrest, hiff⟩ := ih h' (iter + pageSize) (by rw [pageSize_eq]; omega)
        (indices (v + iter))
      refine ⟨ok, pm'', by rw [heq]; exact hrest, ?_⟩
      rw [hiff, pageSize_eq, ← Nat.add_assoc, Nat.add_mul]
      omega

/-! ### Indices and ways -/

/-- The ways to the tables of one page. -/
def wayOf (va : ℕ) : Finset (List ℕ) := {(vaPath va).take 1, (vaPath va).take 2}

lemma mem_wayOf {va : ℕ} {path : List ℕ} :
    path ∈ wayOf va ↔ path = [vaExtract va 0] ∨ path = [vaExtract va 0, vaExtract va 1] := by
  simp [wayOf, vaPath]

lemma card_wayOf (va : ℕ) : (wayOf va).card = 2 := Finset.card_pair (by simp [vaPath])

lemma tablePaths_succ {v n : ℕ} (hend : v + (n + 1) * 4096 ≤ 2 ^ 39) :
    tablePaths v (n + 1) = wayOf v ∪ tablePaths (v + 4096) n := by
  ext path
  simp only [tablePaths, Finset.mem_biUnion, Finset.mem_range, Finset.mem_union]
  constructor
  · rintro ⟨k, hk, hpath⟩
    cases k with
    | zero => exact .inl (by simpa [wayOf, u64_of_lt (show v < 2 ^ 64 by omega)] using hpath)
    | succ k => exact .inr ⟨k, by omega, by rwa [show v + 4096 + k * 4096 = v + (k + 1) * 4096 by ring]⟩
  · rintro (hpath | ⟨k, hk, hpath⟩)
    · exact ⟨0, by omega, by simpa [wayOf, u64_of_lt (show v < 2 ^ 64 by omega)] using hpath⟩
    · exact ⟨k + 1, by omega, by rwa [show v + (k + 1) * 4096 = v + 4096 + k * 4096 by ring]⟩

/-- A way that is left is not taken again further up. -/
lemma wayOf_between {u a w : ℕ} {path : List ℕ} (hua : u ≤ a) (haw : a ≤ w) (hw : w < 2 ^ 39)
    (hu : path ∈ wayOf u) (hpath : path ∈ wayOf w) : path ∈ wayOf a := by
  rw [mem_wayOf] at hu hpath ⊢
  simp only [vaExtract_zero, vaExtract_one] at hu hpath ⊢
  rcases hu with rfl | rfl
  · left
    simp only [List.cons.injEq, and_true, reduceCtorEq, and_false, or_false] at hpath ⊢
    omega
  · right
    simp only [List.cons.injEq, and_true, reduceCtorEq, and_false, false_or] at hpath ⊢
    omega

/-- From one page to the next a table is made for each way that changes. -/
lemma changes_next (u : ℕ) :
    changes (indices u) (u + 4096) = (wayOf (u + 4096) \ wayOf u).card := by
  have hcarry : vaExtract (u + 4096) 1 = vaExtract u 1 → vaExtract (u + 4096) 0 = vaExtract u 0 := by
    simp only [vaExtract_zero, vaExtract_one]
    omega
  show (if vaExtract (u + 4096) 0 ≠ vaExtract u 0 then 1 else 0) +
    (if vaExtract (u + 4096) 1 ≠ vaExtract u 1 then 1 else 0) = _
  by_cases h₁ : vaExtract (u + 4096) 1 = vaExtract u 1
  · have hsame : wayOf (u + 4096) = wayOf u := by
      ext path
      rw [mem_wayOf, mem_wayOf, hcarry h₁, h₁]
    simp [hsame, hcarry h₁, h₁]
  · by_cases h₀ : vaExtract (u + 4096) 0 = vaExtract u 0
    · have hone : wayOf (u + 4096) \ wayOf u = {[vaExtract (u + 4096) 0, vaExtract (u + 4096) 1]} := by
        ext path
        rw [Finset.mem_sdiff, mem_wayOf, mem_wayOf, Finset.mem_singleton, ← h₀]
        constructor
        · rintro ⟨hpath | hpath, hnot⟩
          · exact absurd (.inl hpath) hnot
          · exact hpath
        · rintro rfl
          exact ⟨.inr rfl, by simp [h₁]⟩
      rw [hone, Finset.card_singleton, if_neg (not_not.mpr h₀), if_pos h₁]
    · have hboth : wayOf (u + 4096) \ wayOf u = wayOf (u + 4096) := by
        rw [Finset.sdiff_eq_self_iff_disjoint, Finset.disjoint_left]
        intro path hpath hu
        rw [mem_wayOf] at hpath hu
        rcases hpath with rfl | rfl
        · exact h₀ (by simpa using hu)
        · exact h₀ (by simp at hu; exact hu.1)
      rw [hboth, card_wayOf, if_pos h₀, if_pos h₁]

/-- Behind a page the loop makes a table for every way that is not its own. -/
lemma spent_next {n u : ℕ} (hend : u + 4096 + n * 4096 ≤ 2 ^ 39) :
    spent n (indices u) (u + 4096) = (tablePaths (u + 4096) n \ wayOf u).card := by
  induction n generalizing u with
  | zero => simp [spent, tablePaths]
  | succ n ih =>
    rw [spent, ih (by omega), changes_next, tablePaths_succ (by omega)]
    have hsplit : (wayOf (u + 4096) ∪ tablePaths (u + 4096 + 4096) n) \ wayOf u =
        (wayOf (u + 4096) \ wayOf u) ∪ (tablePaths (u + 4096 + 4096) n \ wayOf (u + 4096)) := by
      ext path
      simp only [Finset.mem_sdiff, Finset.mem_union]
      constructor
      · rintro ⟨hpath | hpath, hu⟩
        · exact .inl ⟨hpath, hu⟩
        · by_cases hnext : path ∈ wayOf (u + 4096)
          · exact .inl ⟨hnext, hu⟩
          · exact .inr ⟨hpath, hnext⟩
      · rintro (⟨hpath, hu⟩ | ⟨hpath, hnext⟩)
        · exact ⟨.inl hpath, hu⟩
        · refine ⟨.inr hpath, fun hu => hnext ?_⟩
          obtain ⟨k, hk, hway⟩ := Finset.mem_biUnion.mp hpath
          have hk := Finset.mem_range.mp hk
          rw [u64_of_lt (by omega)] at hway
          exact wayOf_between (by omega) (by omega) (by omega) hu hway
    rw [hsplit, Finset.card_union_of_disjoint]
    exact Finset.disjoint_left.mpr fun path hpath hrest =>
      (Finset.mem_sdiff.mp hrest).2 (Finset.mem_sdiff.mp hpath).1

/-- Without remembered indices the loop makes a table for every way. -/
lemma spent_all {n v : ℕ} (hend : v + n * 4096 ≤ 2 ^ 39) :
    spent n ⟨not64 0, not64 0, not64 0⟩ v = (tablePaths v n).card := by
  cases n with
  | zero => simp [spent, tablePaths]
  | succ n =>
    have hfirst : changes ⟨not64 0, not64 0, not64 0⟩ v = 2 := by
      have h₀ := vaExtract_lt v 0
      have h₁ := vaExtract_lt v 1
      have hlast : not64 0 = 2 ^ 64 - 1 := rfl
      show (if vaExtract v 0 ≠ not64 0 then 1 else 0) + (if vaExtract v 1 ≠ not64 0 then 1 else 0) = 2
      rw [if_pos (by omega), if_pos (by omega)]
    rw [spent, hfirst, spent_next (by omega), tablePaths_succ hend, ← card_wayOf v,
      ← Finset.card_union_of_disjoint Finset.disjoint_sdiff, Finset.union_sdiff_self_eq_union]

/-- The root 0 has no tables. -/
lemma missing_zero (h : pm.Ordered) (v n : ℕ) : pm.missing 0 (tablePaths v n) = (tablePaths v n).card := by
  rw [missing, Finset.filter_true_of_mem]
  intro path hpath
  obtain ⟨k, -, hway⟩ := Finset.mem_biUnion.mp hpath
  have hentry : ∀ i, pm.entry 0 i = none := by
    intro i
    by_cases hi : i < 512
    · simp [entry, nextTable_zero h hi]
    · simp [entry, hi]
  rcases mem_wayOf.mp hway with rfl | rfl <;> simp [walk, hentry]

end PhysicalMemory

namespace Memory
open PhysicalMemory
variable {m : Memory} {root : ℕ → Prop} {r v length : ℕ}

/-- There is a gap for the data, the block can be put there, and the free pages suffice for it and for
the tables that the root does not have. -/
structure HasRoom (m : Memory) (root v length : ℕ) : Prop where
  gap : m.pm.usable (roundPages length) ≠ 0
  insertable : m.pm.Insertable (m.pm.usable (roundPages length)) (roundPages length)
  pages : m.bytesNeeded root v length ≤ m.pm.freeBytes

/-- Under the root 0 as well the loop needs a free page for every table. -/
lemma loop_completes_zero (h : m.pm.PageTables root) {size p : ℕ} (hdvd : 4096 ∣ size)
    (hend : v + size ≤ 2 ^ 39) (hgap : m.pm.Gap p size) (hnext : ∃ b ∈ m.pm.blocks, p + size ≤ b.addr)
    {pm₁ : PhysicalMemory} (hat : m.pm.InsertedAt (fresh p size) pm₁) : ∃ ok pm₂,
      allocatePages 0 v p (size / pageSize) 0 ⟨not64 0, not64 0, not64 0⟩ pm₁ = .ok (ok, pm₂) ∧
      (ok = true ↔ size + m.pm.missing 0 (tablePaths v (size / pageSize)) * pageSize ≤ m.pm.freeBytes ∨
        size = 0) := by
  rcases Nat.eq_zero_or_pos size with rfl | hpos
  · exact ⟨true, pm₁, rfl, iff_of_true rfl (.inr rfl)⟩
  have hfree := hat.freeBytes hgap hpos hnext
  have htables := (h.insertedAt hgap hdvd hat).1
  have hpages : v + size / pageSize * 4096 ≤ 2 ^ 39 := by
    rw [pageSize_eq]
    omega
  obtain ⟨ok, pm₂, heq, hiff⟩ :=
    allocatePages_zero htables (p := p) 0 hpages ⟨not64 0, not64 0, not64 0⟩
  refine ⟨ok, pm₂, heq, ?_⟩
  rw [hiff, Nat.add_zero, spent_all hpages, missing_zero h.ordered, pageSize_eq]
  omega

/-- With sound tables `allocate` returns, and it gives a page exactly when there is room for it. -/
theorem allocate_returns (h : m.pm.PageTables root) (hr : r = 0 ∨ root r)
    (hend : v + roundPages length ≤ 2 ^ 39) :
    ∃ p m', m.allocate r v length = .ok (p, m') ∧ (p ≠ 0 ↔ m.HasRoom r v length) := by
  rw [allocate_eq]
  by_cases hp : m.pm.usable (roundPages length) = 0
  · rw [if_pos hp]
    exact ⟨0, m, rfl, iff_of_false (fun hne => hne rfl) fun hroom => hroom.gap hp⟩
  rw [if_neg hp]
  have hidem := roundPages_idem length
  obtain ⟨hgap, hnext⟩ := usable_gap h.ordered (by omega) hp rfl
  rw [hidem] at hgap hnext
  have hinsertable := insert_gap_iff h.ordered h.cursor hgap hnext
  rcases insert_cases h.ordered h.cursor hgap hnext with ⟨pm₁, hins, hat⟩ | ⟨hins, -⟩
  · have hloop : ∃ ok pm₂, allocatePages r v (m.pm.usable (roundPages length))
        (roundPages length / pageSize) 0 ⟨not64 0, not64 0, not64 0⟩ pm₁ = .ok (ok, pm₂) ∧
        (ok = true ↔ m.bytesNeeded r v length ≤ m.pm.freeBytes ∨ roundPages length = 0) := by
      cases hr with
      | inl hzero =>
        subst hzero
        exact loop_completes_zero h (roundPages_dvd length) hend hgap hnext hat
      | inr hroot => exact loop_completes h hroot v (roundPages_dvd length) hgap hnext hat
    obtain ⟨ok, pm₂, hpages, hiff⟩ := hloop
    have hneeded : roundPages length = 0 → m.bytesNeeded r v length ≤ m.pm.freeBytes := by
      intro hzero
      simp [bytesNeeded, hzero, tablePaths, missing]
    rw [or_iff_left_of_imp hneeded] at hiff
    simp only [hins, hpages, ne_eq, not_true_eq_false, if_false]
    refine ⟨_, _, rfl, ?_⟩
    constructor
    · intro hne
      refine ⟨hp, hinsertable.mp ⟨pm₁, hins⟩, hiff.mp ?_⟩
      by_contra hfalse
      exact hne (if_neg hfalse)
    · intro hroom
      rwa [if_pos (hiff.mpr hroom.pages)]
  · refine ⟨0, _, by simp only [hins]; rfl, iff_of_false (fun hne => hne rfl) fun hroom => ?_⟩
    obtain ⟨pm', hok⟩ := hinsertable.mpr hroom.insertable
    rw [hins] at hok
    cases hok

/-- Without a cursor the insertion dereferences it, if there is a gap at all. -/
lemma allocate_faults (hlost : m.pm.currentBlock = none) (hend : v + roundPages length ≤ 2 ^ 39)
    (hp : m.pm.usable (roundPages length) ≠ 0) : m.allocate r v length = .error .undefined := by
  have hnew := @Block.new_backed (m.pm.usable (roundPages length)) (roundPages length) (by omega)
  rw [allocate_eq, if_neg hp]
  simp only [PhysicalMemory.insert, hnew, hlost, bind, Except.bind]

theorem allocate_gives_iff (h : TablesOrLost root m.pm) (hr : r = 0 ∨ root r)
    (hend : v + roundPages length ≤ 2 ^ 39) :
    (∃ p m', m.allocate r v length = .ok (p, m') ∧ p ≠ 0) ↔ m.HasRoom r v length := by
  cases h with
  | inl hlost =>
    refine iff_of_false ?_ fun hroom => hroom.insertable.cursor hlost
    rintro ⟨p, m', heq, hne⟩
    obtain ⟨-, pm, hins, -⟩ := allocate_steps heq hne
    exact insert_lost hlost _ _ _ hins
  | inr h =>
    obtain ⟨p, m', heq, hiff⟩ := allocate_returns h hr hend
    rw [← hiff]
    constructor
    · rintro ⟨p', m'', heq', hne⟩
      rw [heq] at heq'
      exact (Prod.mk.inj (Except.ok.inj heq')).1 ▸ hne
    · exact fun hne => ⟨p, m', heq, hne⟩

/-- `allocate` has no result exactly when it dereferences a lost cursor. -/
theorem allocate_fault_iff (h : TablesOrLost root m.pm) (hr : r = 0 ∨ root r)
    (hend : v + roundPages length ≤ 2 ^ 39) (fault : Fault) : m.allocate r v length = .error fault ↔
      fault = .undefined ∧ m.pm.currentBlock = none ∧ m.pm.usable (roundPages length) ≠ 0 := by
  cases h with
  | inl hlost =>
    by_cases hp : m.pm.usable (roundPages length) = 0
    · rw [allocate_eq, if_pos hp]
      exact iff_of_false (fun heq => by cases heq) fun hfault => hfault.2.2 hp
    · rw [allocate_faults hlost hend hp]
      simp [hlost, hp, eq_comm]
  | inr h =>
    obtain ⟨p, m', heq, -⟩ := allocate_returns h hr hend
    obtain ⟨i, hi, -⟩ := h.cursor
    rw [heq]
    exact iff_of_false (fun heq => by cases heq) fun hfault => by simp [hi] at hfault

end Memory
end VentusDriver
