import VentusDriver.Device.MemoryRules
import VentusDriver.Device.ReleaseEffect

/-! What the operations under one root leave to the others. A removal keeps the tables that have no page
in the block removed; an allocation under the root 0, the result of a failed `create_root_pt`, reads and
writes entries without storage and so only inserts blocks. Once the cursor is lost, no operation inserts
a block. -/
namespace VentusDriver
open Foundation Foundation.Radix Sv39

namespace PhysicalMemory
variable {pm : PhysicalMemory} {root root' : ℕ → Prop}

namespace PageTables

/-- The tables of some of the roots. -/
theorem mono (h : pm.PageTables root) (hsub : ∀ r, root' r → root r) : pm.PageTables root' := by
  refine ⟨h.ordered, h.cursor, ?_, ?_, ?_, ?_⟩
  · exact fun r r' path path' q hr hr' => h.forest r r' path path' q (hsub r hr) (hsub r' hr')
  · exact fun q ⟨r, path, hr, hw⟩ => h.page q ⟨r, path, hsub r hr, hw⟩
  · exact fun q i ⟨r, path, hr, hw⟩ => h.valid q i ⟨r, path, hsub r hr, hw⟩
  · exact fun b hb r r' path path' q q' hr hr' =>
      h.together b hb r r' path path' q q' (hsub r hr) (hsub r' hr')

/-- A removal that does not hit a block with a reached page keeps the tables, unless it takes the
cursor away. -/
theorem remove (h : pm.PageTables root) {addr : ℕ}
    (hout : ∀ b ∈ pm.blocks, b.addr ≤ addr → addr < b.limit →
      ∀ q, IsReached pm.entry 3 root q → ¬ (b.addr ≤ q ∧ q < b.limit)) :
    (pm.remove addr).2.currentBlock = none ∨ (pm.remove addr).2.PageTables root := by
  refine (remove_cursor (.inr h.cursor) addr).imp_right fun hcursor => ?_
  obtain ⟨hrange, hsub⟩ := remove_sublist pm addr
  have hord := h.ordered.sublist hrange hsub
  have hkeep : ∀ q, IsReached pm.entry 3 root q → ∃ c ∈ (pm.remove addr).2.blocks,
      c.pages.isSome = true ∧ c.addr ≤ q ∧ q + 4096 ≤ c.limit := by
    intro q hq
    obtain ⟨c, hc, hsome, hlow, hhigh⟩ := (h.page q hq).2
    refine ⟨c, ?_, hsome, hlow, hhigh⟩
    by_cases hhit : ∃ b ∈ pm.blocks, b.addr ≤ addr ∧ addr < b.limit
    · obtain ⟨b, hb, hb1, hb2⟩ := hhit
      apply (remove_spec h.ordered hb hb1 hb2).others c hc
      rintro rfl
      exact hout c hc hb1 hb2 q hq ⟨hlow, by omega⟩
    · have hsame : (pm.remove addr).2 = pm :=
        remove_none h.ordered fun b hb hin => hhit ⟨b, hb, hin⟩
      rwa [hsame]
  refine (h.of_bytes hord hcursor (fun q hq => hkeep q hq) ?_ ?_).1
  · intro q hq x hx hx'
    obtain ⟨c, hc, hsome, hlow, hhigh⟩ := hkeep q hq.isReached
    exact byteAt_of_subset h.ordered (fun d hd => hsub.subset hd) hc hsome ⟨by omega, by omega⟩
  · exact fun b hb => .inl ⟨b, hsub.subset hb, rfl⟩

/-- A removal at address 0 hits nothing but the reserved block. -/
theorem remove_zero (h : pm.PageTables root) :
    (pm.remove 0).2.currentBlock = none ∨ (pm.remove 0).2.PageTables root := by
  apply h.remove
  intro b hb hlow hhigh q hq hin
  have hq' := (h.reached_lower hq).1
  have hge := h.ordered.range_ge
  rcases h.ordered.block b hb with rfl | hins | rfl
  · exact absurd hin.2 (Nat.not_lt.mpr hq')
  · have := hins.lower
    omega
  · simp only [sentinel] at hlow
    omega

/-- A removal of a page of one root keeps the tables of the others. -/
theorem remove_other (h : pm.PageTables root) {r q : ℕ} {path : List ℕ} (hr : root r)
    (hpath : path.length ≤ 3) (hq : walk pm.entry r path = some q)
    (hsub : ∀ r', root' r' → root r' ∧ r' ≠ r) :
    (pm.remove q).2.currentBlock = none ∨ (pm.remove q).2.PageTables root' := by
  apply (h.mono fun r' hr' => (hsub r' hr').1).remove
  rintro b hb hlow hhigh q' ⟨r', path', hr', hlen, hw⟩ ⟨hlow', hhigh'⟩
  obtain ⟨hroot, hne⟩ := hsub r' hr'
  exact hne (h.together b hb r r' path path' q q' hr hroot hpath hlen hq hw hlow hhigh hlow' hhigh').1.symm

end PageTables

/-! ### The root 0 -/

/-- Below the first allocatable address no block has pages. -/
lemma empty_of_low (h : pm.Ordered) {b : Block} (hb : b ∈ pm.blocks) {addr len : ℕ}
    (hlow : addr < 0x20000000) (hspan : spans b addr len) : b.empty = true := by
  have hge := h.range_ge
  have hle := hspan.1
  rcases h.block b hb with rfl | hins | rfl
  · rfl
  · have := hins.lower
    omega
  · simp only [sentinel] at hle
    omega

lemma readValue_low (h : pm.Ordered) {addr : ℕ} (hlow : addr < 0x20000000) :
    pm.readValue 8 addr = 0 := by
  rw [readValue, readData, readBlocks_eq]
  cases hfind : pm.blocks.find? fun b => decide (spans b addr 8) with
  | none => rfl
  | some b =>
    have hspan := List.find?_some hfind
    simp only [decide_eq_true_eq] at hspan
    simp [empty_of_low h (List.mem_of_find?_eq_some hfind) hlow hspan]

lemma writeBlocks_of_empty {addr len : ℕ} {data : ℕ → UInt8} {l : List Block}
    (hempty : ∀ b ∈ l, spans b addr len → b.empty = true) : (writeBlocks addr len data l).2 = l := by
  induction l with
  | nil => rfl
  | cons b rest ih =>
    rw [writeBlocks]
    split_ifs with hspan hb
    · rfl
    · exact absurd (hempty b List.mem_cons_self hspan) hb
    · exact congrArg (b :: ·) (ih fun c hc => hempty c (List.mem_cons_of_mem _ hc))

lemma writeValue_low (h : pm.Ordered) {addr : ℕ} (hlow : addr < 0x20000000) (value : ℕ) :
    (pm.writeValue 8 addr value).2 = pm := by
  simp only [writeValue, writeData, writeBlocks_of_empty fun b hb => empty_of_low h hb hlow]

lemma nextTable_zero (h : pm.Ordered) {i : ℕ} (hi : i < 512) : pm.nextTable 0 i = 0 := by
  have haddr : entryAddr 0 i < 0x20000000 := by
    rw [entryAddr_eq (by norm_num) hi]
    omega
  rw [nextTable, pte, readValue_low h haddr]
  rfl

/-- Allocations under the root 0 keep the tables of all roots. -/
theorem pageTables_growthRule (root : ℕ → Prop) :
    GrowthRule (fun table => table = 0) fun pm => pm.PageTables root := by
  refine ⟨?_, ?_, ?_⟩
  · intro pm pm' size status h hround hp hins
    by_cases hhuge : 2 ^ 63 ≤ size
    · rw [insert_huge (hround.symm ▸ hhuge)] at hins
      cases hins
    · obtain ⟨hgap, hnext⟩ := usable_gap h.ordered (by omega) hp rfl
      rw [hround] at hgap hnext
      rcases insert_cases h.ordered h.cursor hgap hnext with ⟨pm₁, hins', hat⟩ | ⟨hins', -⟩
      · rw [hins] at hins'
        obtain ⟨-, rfl⟩ := Prod.mk.inj (Except.ok.inj hins')
        exact (h.insertedAt hgap (hround ▸ roundPages_dvd size) hat).1
      · rw [hins] at hins'
        obtain ⟨-, rfl⟩ := Prod.mk.inj (Except.ok.inj hins')
        obtain ⟨i, -, hi⟩ := h.cursor
        exact (h.growth_cursor (by omega)).tables
  · rintro pm table i h rfl hi
    exact nextTable_zero h.ordered hi
  · rintro pm table i value h rfl hi
    have haddr : entryAddr 0 i < 0x20000000 := by
      rw [entryAddr_eq (by norm_num) hi]
      omega
    rwa [writeValue_low h.ordered haddr]

end PhysicalMemory

namespace Memory
open PhysicalMemory
variable {m m' : Memory} {root : ℕ → Prop}

lemma convert_zero (h : m.pm.Ordered) (v : ℕ) : m.convert 0 v = 0 := by
  simp [convert, nextTable_zero h (vaExtract_lt v 0)]

/-- An allocation under any root keeps the tables of all roots. -/
theorem allocate_tables (h : m.pm.PageTables root) {r v length p : ℕ} (hr : r = 0 ∨ root r)
    (heq : m.allocate r v length = .ok (p, m')) : m'.pm.PageTables root := by
  cases hr with
  | inl hzero => exact (pageTables_growthRule root).allocate h hzero heq
  | inr hr => exact (allocate_ok h hr heq).growth.tables

end Memory

/-! ### Tables until the cursor is lost -/

namespace PhysicalMemory
variable {pm : PhysicalMemory} {root : ℕ → Prop}

/-- The tables of the roots, or no cursor: then nothing can be inserted any more. -/
def TablesOrLost (root : ℕ → Prop) (pm : PhysicalMemory) : Prop :=
  pm.currentBlock = none ∨ pm.PageTables root

lemma TablesOrLost.mono {root' : ℕ → Prop} (h : TablesOrLost root pm) (hsub : ∀ r, root' r → root r) :
    TablesOrLost root' pm :=
  h.imp_right fun h => h.mono hsub

lemma insert_lost (h : pm.currentBlock = none) (addr size : ℕ) (r : Int × PhysicalMemory) :
    pm.insert addr size true ≠ .ok r := by
  unfold PhysicalMemory.insert
  cases Block.new addr size true <;> simp [h, bind, Except.bind]

lemma remove_lost (h : pm.currentBlock = none) (addr : ℕ) : (pm.remove addr).2.currentBlock = none := by
  unfold PhysicalMemory.remove
  cases findRemove addr pm.blocks 0 with
  | none => exact h
  | some i => simp [h, cursorAfterErase]

end PhysicalMemory

namespace Memory
open PhysicalMemory
variable {m m' : Memory} {root : ℕ → Prop} {r : ℕ}

/-- A new root is none of the roots that there are. -/
theorem createRootPt_tablesOrLost (h : TablesOrLost root m.pm) (heq : m.createRootPt = .ok (r, m')) :
    (r = 0 ∧ m' = m) ∨ (r ≠ 0 ∧ ¬ root r ∧ m'.pm.PageTables fun x => x = r ∨ root x) := by
  cases h with
  | inl hlost =>
    left
    simp only [createRootPt] at heq
    split_ifs at heq with hp
    · cases hins : m.pm.insert (m.pm.usable pageSize) pageSize true with
      | error e => simp [hins] at heq
      | ok r => exact absurd hins (insert_lost hlost _ _ r)
    · simp only [Except.ok.injEq, Prod.mk.injEq] at heq
      exact ⟨heq.1.symm.trans (not_not.mp hp), heq.2.symm⟩
  | inr h =>
    rcases createRootPt_ok h heq with hnone | ⟨hne, hstep⟩
    · exact .inl hnone
    · refine .inr ⟨hne, fun hr => hstep.new ?_, hstep.tables⟩
      exact (h.page r ⟨r, [], hr, by simp, rfl⟩).2.mono le_rfl (by omega)

theorem allocate_tablesOrLost (h : TablesOrLost root m.pm) {v length p : ℕ} (hr : r = 0 ∨ root r)
    (heq : m.allocate r v length = .ok (p, m')) : TablesOrLost root m'.pm := by
  cases h with
  | inl hlost =>
    rcases allocate_cases heq with ⟨-, -, rfl⟩ | ⟨-, status, pm, hins, -⟩
    · exact .inl hlost
    · exact absurd hins (insert_lost hlost _ _ _)
  | inr h => exact .inr (allocate_tables h hr heq)

/-- An allocation that gives an address has found the cursor. -/
lemma tables_of_allocated (h : TablesOrLost root m.pm) {v length p : ℕ}
    (heq : m.allocate r v length = .ok (p, m')) (hp : p ≠ 0) : m.pm.PageTables root := by
  apply h.resolve_left
  intro hlost
  obtain ⟨-, pm, hins, -⟩ := allocate_steps heq hp
  exact insert_lost hlost _ _ _ hins

/-- What is released under one root leaves the tables of the others. -/
theorem release_tablesOrLost (h : TablesOrLost root m.pm) {v : ℕ} (hr : r = 0 ∨ root r) (hv : 4096 ∣ v)
    {root' : ℕ → Prop} (hsub : ∀ r', root' r' → root r' ∧ r' ≠ r) :
    TablesOrLost root' (m.release r v).2.pm := by
  rw [release_eq]
  split_ifs
  · exact h.mono fun r' hr' => (hsub r' hr').1
  cases h with
  | inl hlost => exact .inl (remove_lost hlost _)
  | inr h =>
    have hzero : m.convert r v = 0 → TablesOrLost root' (m.pm.remove (m.convert r v)).2 := by
      intro hconv
      rw [hconv]
      exact (h.mono fun r' hr' => (hsub r' hr').1).remove_zero
    cases hr with
    | inl hr =>
      rw [hr] at hzero ⊢
      exact hzero (convert_zero h.ordered v)
    | inr hr =>
      cases hw : walk m.pm.entry r (vaPath v) with
      | none => exact hzero (by rw [convert_eq, hw])
      | some q =>
        have hconv : m.convert r v = q := by
          rw [convert_of_walk h hr hw]
          omega
        rw [hconv]
        exact h.remove_other hr (by simp) hw hsub

theorem writeVirt_tablesOrLost (h : TablesOrLost root m.pm) {v : ℕ} (hr : r = 0 ∨ root r)
    (hv : v < 2 ^ 64) (size : ℕ) (input : ℕ → UInt8) :
    TablesOrLost root (m.writeVirt r v size input).2.pm := by
  cases h with
  | inl hlost =>
    exact .inl (writeVirt_keeps (P := fun pm => pm.currentBlock = none) (fun _ _ _ hs => hs) r v size input
      hlost)
  | inr h =>
    right
    cases hr with
    | inl hr => simpa [hr, writeVirt, actVirt, convert_zero h.ordered] using h
    | inr hr => exact (writeVirt_pageWrites h hr hv size input).tables

end Memory
end VentusDriver
