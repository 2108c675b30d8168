import VentusDriver.Device.Cursor
import VentusDriver.Device.OtherRoots

/-! What can be read through a root, and the operations under other roots, which leave it as it is:
an allocation and a new root bring new pages only, a write reaches pages of its own root, and a release
removes a block in which no other root has a page. Reads, writes and releases do not look at the cursor
of the block list, so this holds also after a release has taken it away. -/
namespace VentusDriver
open Foundation Foundation.Radix Sv39

namespace Memory
open PhysicalMemory
variable {m m' m'' : Memory} {root : ℕ → Prop} {r : ℕ}

/-- The root maps the same addresses to the same pages, and these have the same bytes. -/
structure SameView (m m' : Memory) (r : ℕ) : Prop where
  walks : ∀ va, walk m'.pm.entry r (vaPath va) = walk m.pm.entry r (vaPath va)
  bytes : ∀ va q, walk m.pm.entry r (vaPath va) = some q → ∀ x, q ≤ x → x < q + 4096 →
    m'.pm.byteAt x = m.pm.byteAt x

namespace SameView

lemma refl (m : Memory) (r : ℕ) : SameView m m r := ⟨fun _ => rfl, fun _ _ _ _ _ _ => rfl⟩

lemma trans (h : SameView m m' r) (h' : SameView m' m'' r) : SameView m m'' r where
  walks va := (h'.walks va).trans (h.walks va)
  bytes va q hq x hlow hhigh :=
    (h'.bytes va q ((h.walks va).trans hq) x hlow hhigh).trans (h.bytes va q hq x hlow hhigh)

lemma convert (h : SameView m m' r) (va : ℕ) : m'.convert r va = m.convert r va := by
  rw [convert_eq, convert_eq, h.walks]

end SameView

/-! ### Reads -/

/-- Equal translations and corresponding actions on the pieces make corresponding results. -/
lemma runPieces_map {σ τ : Type*} {conv : σ → ℕ → ℕ} {conv' : τ → ℕ → ℕ} {action : ℕ → ℕ → ℕ → σ → σ}
    {action' : ℕ → ℕ → ℕ → τ → τ} {f : σ → τ} {v : ℕ} {ps : List Piece}
    (hconv : ∀ s va, conv' (f s) va = conv s va)
    (haction : ∀ p ∈ ps, ∀ s, conv s (u64 (v + p.off)) ≠ 0 →
      action' (conv s (u64 (v + p.off))) p.len p.off (f s) =
        f (action (conv s (u64 (v + p.off))) p.len p.off s))
    (s : σ) : runPieces conv' action' v ps (f s) = (runPieces conv action v ps s).map id f := by
  induction ps generalizing s with
  | nil => rfl
  | cons p ps ih =>
    rw [runPieces, runPieces, hconv]
    by_cases hzero : conv s (u64 (v + p.off)) = 0
    · rw [if_pos hzero, if_pos hzero]
      rfl
    · rw [if_neg hzero, if_neg hzero, haction p List.mem_cons_self s hzero]
      exact ih (fun p hp => haction p (List.mem_cons_of_mem _ hp)) _

/-- A read gives what it gave before, mapped or not. -/
theorem SameView.readVirt (h : SameView m m' r) (ht : m.pm.PageTables root) (ht' : m'.pm.PageTables root)
    (hr : root r) {v size : ℕ} (hsize : 0 < size) (hv : v < 2 ^ 64) (out : ℕ → UInt8) :
    m'.readVirt r v size out = m.readVirt r v size out := by
  rw [Memory.readVirt, Memory.readVirt, actVirt_eq_runPieces hsize hv, actVirt_eq_runPieces hsize hv]
  refine runPieces_map (f := id) (fun _ va => h.convert va) (fun p hp s hne => ?_) out
  obtain ⟨hlen, hpage, -⟩ := (pieces_tiles v 0 size).2 p hp
  have hinside : u64 (v + p.off) % 4096 + p.len ≤ 4096 := by
    rw [u64]
    omega
  obtain ⟨q, hq, hphys, hlow, hhigh⟩ := chunk_mapped ht hr hne hinside
  have hback := (ht.page q ⟨r, _, hr, by simp, hq⟩).2.mono hlow hhigh
  have hback' := (ht'.page q ⟨r, _, hr, by simp, (h.walks _).trans hq⟩).2.mono hlow hhigh
  rw [id, id]
  funext i
  rw [readData_backed ht.ordered hlen hback, readData_backed ht'.ordered hlen hback']
  split_ifs with hoff
  · dsimp only
    split_ifs with hin
    · exact h.bytes _ q hq _ (by omega) (by omega)
    · rfl
  · rfl

/-! ### Allocations -/

/-- Growth leaves the bytes of mapped pages. -/
lemma bytes_of_growth (h : m.pm.PageTables root) (g : Growth root m.pm m'.pm) (hr : root r) {va q : ℕ}
    (hq : walk m.pm.entry r (vaPath va) = some q) {x : ℕ} (hlow : q ≤ x) (hhigh : x < q + 4096) :
    m'.pm.byteAt x = m.pm.byteAt x := by
  refine g.bytes x ((h.page q ⟨r, _, hr, by simp, hq⟩).2.mono hlow (by omega)) fun t ht => ?_
  exact leaf_not_in_table h hr (by simp) hq hlow hhigh ht

/-- A new root. -/
lemma RootStep.sameView (h : m.pm.PageTables root) {r' : ℕ} (hstep : RootStep root m.pm r' m'.pm)
    (hr : root r) : SameView m m' r where
  walks va := hstep.walks r _ hr (by simp)
  bytes _ _ hq _ hlow hhigh := bytes_of_growth h hstep.growth hr hq hlow hhigh

/-- An allocation under another root. -/
lemma AllocateStep.sameView (h : m.pm.PageTables root) {r' v size p : ℕ}
    (hstep : AllocateStep root m.pm r' v size p m'.pm) (hr : root r) (hne : r ≠ r') : SameView m m' r where
  walks va := by
    cases hq : walk m.pm.entry r (vaPath va) with
    | some q => exact hstep.growth.walks r _ q hr (by simp) hq
    | none =>
      cases hq' : walk m'.pm.entry r (vaPath va) with
      | none => rfl
      | some q =>
        cases hstep.adds r _ q hr (by simp) hq' with
        | inl hold => exact absurd (hq.symm.trans hold) (by simp)
        | inr hnew => exact absurd hnew.1 hne
  bytes _ _ hq _ hlow hhigh := bytes_of_growth h hstep.growth hr hq hlow hhigh

/-- Allocations under the root 0, which write nothing. -/
lemma sameView_growthRule (m : Memory) (hr : root r) :
    GrowthRule (fun table => table = 0) fun pm => pm.PageTables root ∧ SameView m ⟨pm⟩ r := by
  refine ⟨?_, ?_, ?_⟩
  · rintro pm pm' size status ⟨htables, hview⟩ hround hp hins
    have htables' := (pageTables_growthRule root).insert htables hround hp hins
    by_cases hhuge : 2 ^ 63 ≤ size
    · rw [insert_huge (hround.symm ▸ hhuge)] at hins
      cases hins
    · obtain ⟨hgap, hnext⟩ := usable_gap htables.ordered (by omega) hp rfl
      rw [hround] at hgap hnext
      refine ⟨htables', hview.trans ?_⟩
      rcases insert_cases htables.ordered htables.cursor hgap hnext with ⟨pm₁, hins', hat⟩ | ⟨hins', -⟩
      · rw [hins] at hins'
        obtain ⟨-, rfl⟩ := Prod.mk.inj (Except.ok.inj hins')
        have hwalks := (htables.insertedAt hgap (hround ▸ roundPages_dvd size) hat).2
        exact ⟨fun va => hwalks r _ hr (by simp), fun _ _ _ x _ _ =>
          hat.byteAt htables.ordered htables'.ordered x⟩
      · rw [hins] at hins'
        obtain ⟨-, rfl⟩ := Prod.mk.inj (Except.ok.inj hins')
        exact ⟨fun _ => rfl, fun _ _ _ _ _ _ => rfl⟩
  · rintro pm table i ⟨htables, -⟩ rfl hi
    exact nextTable_zero htables.ordered hi
  · rintro pm table i value ⟨htables, hview⟩ rfl hi
    have haddr : entryAddr 0 i < 0x20000000 := by
      rw [entryAddr_eq (by norm_num) hi]
      omega
    rw [writeValue_low htables.ordered haddr]
    exact ⟨htables, hview⟩

theorem allocate_sameView (h : m.pm.PageTables root) {r' v length p : ℕ} (hr' : r' = 0 ∨ root r')
    (heq : m.allocate r' v length = .ok (p, m')) (hr : root r) (hne : r ≠ r') : SameView m m' r := by
  cases hr' with
  | inl hzero => exact ((sameView_growthRule m hr).allocate ⟨h, .refl m r⟩ hzero heq).2
  | inr hr' => exact AllocateStep.sameView h (allocate_ok h hr' heq) hr hne

/-! ### Releases and writes -/

/-- A block without a page of the root is removed. -/
lemma Removed.sameView (h : m.pm.PageTables root) {b : Block} (hrem : Removed m.pm b m'.pm) (hr : root r)
    (hout : ∀ path q, path.length ≤ 3 → walk m.pm.entry r path = some q →
      ¬ (b.addr ≤ q ∧ q < b.limit)) : SameView m m' r := by
  have hown : m.pm.PageTables (· = r) := h.mono fun x hx => hx ▸ hr
  have hkeep : ∀ q, IsReached m.pm.entry 3 (· = r) q →
      ∃ c ∈ m'.pm.blocks, c.pages.isSome = true ∧ c.addr ≤ q ∧ q + 4096 ≤ c.limit := by
    rintro q ⟨r', path, rfl, hlen, hq⟩
    obtain ⟨c, hc, hsome, hlow, hhigh⟩ := (hown.page q ⟨r', path, rfl, hlen, hq⟩).2
    refine ⟨c, hrem.others c hc ?_, hsome, hlow, hhigh⟩
    rintro rfl
    exact hout path q hlen hq ⟨hlow, by omega⟩
  have hsame : ∀ t i, IsTable m.pm.entry 3 (· = r) t → m'.pm.entry t i = m.pm.entry t i := by
    intro t i ht
    obtain ⟨c, hc, -, hlow, hhigh⟩ := hkeep t ht.isReached
    have hlim := h.ordered.limit_lt (hrem.subset c hc)
    apply entry_of_pte_eq
    intro hi
    simp only [pte, readValue, entryAddr_eq (show t < 2 ^ 57 by omega) hi,
      readData_of_subset h.ordered hrem.subset hc (show 0 < 8 by norm_num)
        (show c.addr ≤ t + i * 8 by omega) (by omega)]
  constructor
  · intro va
    exact walk_congr hsame rfl (by simp)
  · intro va q hq x hlow hhigh
    obtain ⟨c, hc, hsome, hclow, hchigh⟩ := hkeep q ⟨r, _, rfl, by simp, hq⟩
    exact byteAt_of_subset h.ordered hrem.subset hc hsome ⟨by omega, by omega⟩

/-- A removal at address 0 takes the reserved block at most. -/
lemma remove_zero_sameView (h : m.pm.PageTables root) (hr : root r) :
    SameView m ⟨(m.pm.remove 0).2⟩ r := by
  by_cases hhit : ∃ b ∈ m.pm.blocks, b.addr ≤ 0 ∧ 0 < b.limit
  · obtain ⟨b, hb, hlow, hhigh⟩ := hhit
    refine Removed.sameView h (remove_spec h.ordered hb hlow hhigh) hr fun path q hlen hq hin => ?_
    have hq' := (h.reached_lower ⟨r, path, hr, hlen, hq⟩).1
    have hge := h.ordered.range_ge
    rcases h.ordered.block b hb with rfl | hins | rfl
    · exact absurd hin.2 (Nat.not_lt.mpr hq')
    · have := hins.lower
      omega
    · simp only [sentinel] at hlow
      omega
  · rw [remove_none h.ordered fun b hb hin => hhit ⟨b, hb, hin⟩]
    exact .refl m r

theorem release_sameView (h : m.pm.PageTables root) {r' v : ℕ} (hr' : r' = 0 ∨ root r') (hv : 4096 ∣ v)
    (hr : root r) (hne : r ≠ r') : SameView m (m.release r' v).2 r := by
  have hzero : m.convert r' v = 0 → SameView m (m.release r' v).2 r := by
    intro hconv
    rw [release_eq, hconv]
    split_ifs
    · exact .refl m r
    · exact remove_zero_sameView h hr
  cases hr' with
  | inl hzero' => exact hzero (hzero' ▸ convert_zero h.ordered v)
  | inr hr' =>
    cases hw : walk m.pm.entry r' (vaPath v) with
    | none => exact hzero (by rw [convert_eq, hw])
    | some q =>
      obtain ⟨b, hb, -, hlow, hhigh, hrem, -⟩ := release_spec h hr' hv hw
      refine Removed.sameView h hrem hr fun path q' hlen hq' hin => ?_
      -- the pages in the block are pages of one root
      exact hne (h.together b hb r r' path _ q' q hr hr' hlen (by simp) hq' hw hin.1 hin.2 hlow
        (by omega)).1

theorem writeVirt_sameView (h : m.pm.PageTables root) {r' v : ℕ} (hr' : r' = 0 ∨ root r') (hv : v < 2 ^ 64)
    (size : ℕ) (input : ℕ → UInt8) (hr : root r) (hne : r ≠ r') :
    SameView m (m.writeVirt r' v size input).2 r := by
  cases hr' with
  | inl hzero => simpa [hzero, writeVirt, actVirt, convert_zero h.ordered] using SameView.refl m r
  | inr hr' =>
    have hwrites := writeVirt_pageWrites h hr' hv size input
    refine ⟨fun va => hwrites.walks r _ hr (by simp), fun va q hq x hlow hhigh => ?_⟩
    refine hwrites.bytes x fun va' q' hq' hin => ?_
    obtain ⟨a, rfl⟩ := (h.page q ⟨r, _, hr, by simp, hq⟩).1
    obtain ⟨b, rfl⟩ := (h.page q' ⟨r', _, hr', by simp, hq'⟩).1
    obtain rfl : a = b := by omega
    exact hne (h.forest r r' _ _ _ hr hr' (by simp) (by simp) hq hq').1

/-! ### Memory whose cursor is lost -/

lemma allocate_lost (hlost : m.pm.currentBlock = none) {r' v length p : ℕ}
    (heq : m.allocate r' v length = .ok (p, m')) : m' = m := by
  rcases allocate_cases heq with ⟨-, -, hsame⟩ | ⟨-, status, pm, hins, -⟩
  · exact hsame
  · exact absurd hins (insert_lost hlost _ _ _)

lemma createRootPt_lost (hlost : m.pm.currentBlock = none) {r' : ℕ}
    (heq : m.createRootPt = .ok (r', m')) : r' = 0 ∧ m' = m := by
  simp only [createRootPt] at heq
  split_ifs at heq with hp
  · cases hins : m.pm.insert (m.pm.usable pageSize) pageSize true with
    | error e => simp [hins] at heq
    | ok r => exact absurd hins (insert_lost hlost _ _ r)
  · obtain ⟨hroot, hsame⟩ := Prod.mk.inj (Except.ok.inj heq)
    exact ⟨hroot.symm.trans (not_not.mp hp), hsame.symm⟩

/-- The memory with another cursor. -/
def withCursor (m : Memory) (c : Option ℕ) : Memory := ⟨{ m.pm with currentBlock := c }⟩

lemma SameView.of_withCursor {c c' : Option ℕ} (h : SameView (m.withCursor c) (m'.withCursor c') r) :
    SameView m m' r := ⟨h.walks, h.bytes⟩

lemma SameView.withCursor (h : SameView m m' r) (c c' : Option ℕ) :
    SameView (m.withCursor c) (m'.withCursor c') r := ⟨h.walks, h.bytes⟩

lemma remove_withCursor (m : Memory) (c : Option ℕ) (addr : ℕ) :
    ∃ c', (⟨((m.withCursor c).pm.remove addr).2⟩ : Memory) =
      (⟨(m.pm.remove addr).2⟩ : Memory).withCursor c' := by
  have hblocks : (m.withCursor c).pm.blocks = m.pm.blocks := rfl
  unfold PhysicalMemory.remove
  rw [hblocks]
  cases findRemove addr m.pm.blocks 0 with
  | none => exact ⟨c, rfl⟩
  | some i => exact ⟨_, rfl⟩

lemma release_withCursor (m : Memory) (c : Option ℕ) (r v : ℕ) :
    ∃ c', ((m.withCursor c).release r v).2 = (m.release r v).2.withCursor c' := by
  have hconv : (m.withCursor c).convert r v = m.convert r v := rfl
  have hlength : (m.withCursor c).pm.length (m.convert r v) = m.pm.length (m.convert r v) := rfl
  rw [release_eq, release_eq, hconv, hlength]
  split_ifs
  · exact ⟨c, rfl⟩
  · exact remove_withCursor m c _

lemma writeVirt_withCursor (m : Memory) (c : Option ℕ) (r : ℕ) {v size : ℕ} (hsize : 0 < size)
    (hv : v < 2 ^ 64) (input : ℕ → UInt8) :
    (m.withCursor c).writeVirt r v size input =
      (m.writeVirt r v size input).map id fun m' => m'.withCursor c := by
  rw [writeVirt, writeVirt, actVirt_eq_runPieces hsize hv, actVirt_eq_runPieces hsize hv]
  let store (addr len off : ℕ) (m : Memory) : Memory :=
    ⟨(m.pm.writeData addr len fun j => input (off + j)).2⟩
  exact @runPieces_map Memory Memory (fun m => m.convert r) (fun m => m.convert r) store store
    (fun m => m.withCursor c) v (pieces v 0 size) (fun _ _ => rfl) (fun _ _ _ _ => rfl) m

/-- If there is a root, the tables of the roots are sound with some cursor. -/
def Mapping (root : ℕ → Prop) (m : Memory) : Prop := ∀ r, root r → ∃ c, (m.withCursor c).pm.PageTables root

lemma Mapping.of_pageTables (h : m.pm.PageTables root) : Mapping root m :=
  fun _ _ => ⟨m.pm.currentBlock, h⟩

lemma Mapping.mono {root' : ℕ → Prop} (h : Mapping root m) (hsub : ∀ r, root' r → root r) :
    Mapping root' m := by
  intro r hr
  obtain ⟨c, hc⟩ := h r (hsub r hr)
  exact ⟨c, hc.mono hsub⟩

/-- A release under one root does not hit the block with the page of another. -/
lemma release_misses (h : m.pm.PageTables root) {r' v : ℕ} (hr' : r' = 0 ∨ root r') (hv : 4096 ∣ v)
    (hr : root r) (hne : r ≠ r') {b : Block} (hb : b ∈ m.pm.blocks) (hsome : b.pages.isSome = true)
    (hin : b.addr ≤ r ∧ r < b.limit) : ¬ b.eqPos (m.convert r' v) := by
  intro hpos
  rw [Block.eqPos, h.ordered.endAddr_eq hb] at hpos
  have hlower := (h.ordered.inserted_of_backed hb hsome).lower
  have hzero : m.convert r' v ≠ 0 := by omega
  cases hr' with
  | inl hroot => exact hzero (hroot ▸ convert_zero h.ordered v)
  | inr hr' =>
    have hinside : v % 4096 + 1 ≤ 4096 := by omega
    obtain ⟨q, hq, hphys, -⟩ := chunk_mapped h hr' hzero hinside
    have hconv : m.convert r' v = q := by omega
    rw [hconv] at hpos
    exact hne (h.together b hb r r' [] _ r q hr hr' (by simp) (by simp) rfl hq hin.1 hin.2 hpos.1 hpos.2).1

theorem Mapping.release (h : Mapping root m) {r' v : ℕ} (hr' : r' = 0 ∨ root r') (hv : 4096 ∣ v)
    {root' : ℕ → Prop} (hsub : ∀ x, root' x → root x ∧ x ≠ r') : Mapping root' (m.release r' v).2 := by
  intro x hx
  obtain ⟨hroot, hne⟩ := hsub x hx
  obtain ⟨c, htables⟩ := h x hroot
  -- put the cursor on the block of the page of another root
  obtain ⟨b, hb, hsome, hlow, hhigh⟩ := (htables.page x ⟨x, [], hroot, by simp, rfl⟩).2
  obtain ⟨j, hj, hget⟩ := List.mem_iff_getElem.mp hb
  have hmoved : (m.withCursor (some j)).pm.PageTables root := (htables.growth_cursor hj).tables
  have hat : (m.withCursor (some j)).pm.CursorAt b :=
    ⟨j, b, rfl, List.getElem?_eq_some_iff.mpr ⟨hj, hget⟩, rfl⟩
  obtain ⟨c', hc'⟩ := release_withCursor m (some j) r' v
  refine ⟨c', ?_⟩
  rw [← hc']
  refine (release_tablesOrLost (.inr hmoved) hr' hv hsub).resolve_left fun hlost => ?_
  have hmisses := release_misses hmoved hr' hv hroot hne hb hsome ⟨hlow, by omega⟩
  rw [release_eq] at hlost
  split_ifs at hlost
  · cases hlost
  · cases remove_cursorAt hmoved.ordered hat ((m.withCursor (some j)).convert r' v) with
    | inl hhit => exact hmisses hhit.1
    | inr hkept =>
      obtain ⟨i, -, hcursor, -⟩ := hkept.2
      rw [hcursor] at hlost
      cases hlost

theorem Mapping.writeVirt (h : Mapping root m) {r' v size : ℕ} (hr' : r' = 0 ∨ root r') (hv : v < 2 ^ 64)
    (hsize : 0 < size) (input : ℕ → UInt8) : Mapping root (m.writeVirt r' v size input).2 := by
  intro x hx
  obtain ⟨c, htables⟩ := h x hx
  refine ⟨c, ?_⟩
  have hsame := congrArg Prod.snd (writeVirt_withCursor m c r' hsize hv input)
  rw [show (m.writeVirt r' v size input).2.withCursor c = _ from hsame.symm]
  cases hr' with
  | inl hzero => simpa [hzero, Memory.writeVirt, actVirt, convert_zero htables.ordered] using htables
  | inr hr' => exact (writeVirt_pageWrites htables hr' hv size input).tables

/-- A release under another root. -/
theorem Mapping.release_sameView (h : Mapping root m) {r' v : ℕ} (hr' : r' = 0 ∨ root r') (hv : 4096 ∣ v)
    (hr : root r) (hne : r ≠ r') : SameView m (m.release r' v).2 r := by
  obtain ⟨c, htables⟩ := h r hr
  have hview := Memory.release_sameView htables hr' hv hr hne
  obtain ⟨c', hc'⟩ := release_withCursor m c r' v
  rw [hc'] at hview
  exact hview.of_withCursor

/-- A write under another root. -/
theorem Mapping.writeVirt_sameView (h : Mapping root m) {r' v size : ℕ} (hr' : r' = 0 ∨ root r')
    (hv : v < 2 ^ 64) (hsize : 0 < size) (input : ℕ → UInt8) (hr : root r) (hne : r ≠ r') :
    SameView m (m.writeVirt r' v size input).2 r := by
  obtain ⟨c, htables⟩ := h r hr
  have hview := Memory.writeVirt_sameView htables hr' hv size input hr hne
  rw [writeVirt_withCursor m c r' hsize hv] at hview
  exact SameView.of_withCursor hview

/-- A write that succeeds has found all of its bytes mapped. -/
lemma mapped_of_written (h : m.pm.PageTables root) (hr : root r) {v size : ℕ} (hsize : 0 < size)
    (hrange : v + size ≤ 2 ^ 39) {input : ℕ → UInt8} (hstatus : (m.writeVirt r v size input).1 = 0) :
    m.Mapped r v size := by
  have hva : ∀ k, k < size → u64 (v + k) = v + k := fun k hk => u64_of_lt (by omega)
  have hpassed : PassedOn (fun m va => Memory.convert m r va) v size
      (fun n m' => PageWrites root m r m' ∧ m.Mapped r v n) (m.writeVirt r v size input) := by
    refine actVirt_rule hsize (by omega) (fun off len (m' : Memory) hlen hfits hinside hne hm => ?_)
      ⟨⟨.refl _, h, fun _ _ _ _ => rfl, fun _ _ => rfl⟩, fun k hk => absurd hk (Nat.not_lt_zero k)⟩
    obtain ⟨hwr, hmapped⟩ := hm
    rw [hva off (by omega)] at hne ⊢
    obtain ⟨q, hq, hphys, hlow, hhigh⟩ := chunk_mapped hwr.tables hr hne hinside
    obtain ⟨htables, hwalks⟩ := writeLeaf_spec hwr.tables hr (by simp) hq hlen hlow hhigh
      fun j => input (off + j)
    have hback : m'.pm.Backed (m'.convert r (v + off)) len :=
      (hwr.tables.page q ⟨r, _, hr, by simp, hq⟩).2.mono hlow hhigh
    rw [hwr.walks r _ hr (by simp)] at hq
    refine ⟨⟨hwr.frames.trans (writeData_sameFrames ..), htables, ?_, ?_⟩, fun k hk => ?_⟩
    · exact fun r' path hr' hl => (hwalks r' path hr' hl).trans (hwr.walks r' path hr' hl)
    · intro x hx
      rw [writeData_backed hwr.tables.ordered hlen hback, if_neg, hwr.bytes x hx]
      exact fun hin => hx _ q hq (by omega)
    · by_cases hold : k < off
      · exact hmapped k hold
      · have hpage : vaPath (v + k) = vaPath (v + off) := by
          rw [show v + k = v + off + (k - off) by omega]
          exact vaPath_same_page (by omega)
        rw [hpage, hq]
        rfl
  obtain ⟨n, m', ⟨-, hmapped⟩, ⟨-, rfl⟩ | ⟨heq, -⟩⟩ := hpassed
  · exact hmapped
  · rw [heq] at hstatus
    cases hstatus

/-- What a write that succeeds has stored is read again. -/
theorem Mapping.readVirt_written (h : Mapping root m) (hr : root r) {v size : ℕ} (hsize : 0 < size)
    (hrange : v + size ≤ 2 ^ 39) {input : ℕ → UInt8} (hstatus : (m.writeVirt r v size input).1 = 0)
    (out : ℕ → UInt8) : ∃ out', (m.writeVirt r v size input).2.readVirt r v size out = (0, out') ∧
      ∀ k < size, out' k = input k := by
  obtain ⟨c, htables⟩ := h r hr
  have hsame := writeVirt_withCursor m c r hsize (show v < 2 ^ 64 by omega) input
  have hstatus' : ((m.withCursor c).writeVirt r v size input).1 = 0 := by
    rw [hsame]
    exact hstatus
  have hmapped := mapped_of_written htables hr hsize hrange hstatus'
  obtain ⟨m', heq, hwr⟩ := writeVirt_spec htables hr hsize hrange hmapped input
  have hmapped' : m'.Mapped r v size := fun k hk => by
    rw [hwr.walks r _ hr (by simp)]
    exact hmapped k hk
  obtain ⟨out', hread, hbytes⟩ := readVirt_spec hwr.tables hr hsize hrange hmapped' out
  have hm' : m' = (m.writeVirt r v size input).2.withCursor c := by
    rw [hsame] at heq
    exact (congrArg Prod.snd heq).symm
  refine ⟨out', ?_, fun k hk => ?_⟩
  · rw [hm'] at hread
    exact hread
  · rw [hbytes k hk, hwr.convert hr]
    exact hwr.done k hk

/-- The same view gives the same reads. -/
theorem Mapping.readVirt (h : Mapping root m) (h' : Mapping root m') (hr : root r) (hview : SameView m m' r)
    {v size : ℕ} (hsize : 0 < size) (hv : v < 2 ^ 64) (out : ℕ → UInt8) :
    m'.readVirt r v size out = m.readVirt r v size out := by
  obtain ⟨c, htables⟩ := h r hr
  obtain ⟨c', htables'⟩ := h' r hr
  exact (hview.withCursor c c').readVirt htables htables' hr hsize hv out

end Memory
end VentusDriver
