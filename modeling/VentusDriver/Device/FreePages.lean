import Mathlib.Data.Finset.Union
import VentusDriver.Device.Allocation

/-! Free pages and missing tables. The loop of `allocate` takes one free page for every table that is
missing on the way to its pages, and it runs to its end exactly when there are enough of them. -/
namespace VentusDriver
open Foundation Foundation.Intervals Foundation.Radix Sv39

namespace PhysicalMemory

/-- The bytes between consecutive blocks. -/
def freeFrom : List Block → ℕ
  | b :: next :: rest => (next.addr - b.limit) + freeFrom (next :: rest)
  | _ => 0

def freeBytes (pm : PhysicalMemory) : ℕ := freeFrom pm.blocks

/-- The ways to the tables that the pages of a range need. -/
def tablePaths (vAddr n : ℕ) : Finset (List ℕ) :=
  (Finset.range n).biUnion fun k =>
    {(vaPath (u64 (vAddr + k * 4096))).take 1, (vaPath (u64 (vAddr + k * 4096))).take 2}

/-- How many of these tables a root does not have. -/
def missing (pm : PhysicalMemory) (root : ℕ) (paths : Finset (List ℕ)) : ℕ :=
  (paths.filter fun path => walk pm.entry root path = none).card

variable {pm pm' pm'' : PhysicalMemory} {root : ℕ → Prop}

/-! ### Free bytes -/

lemma freeFrom_frames {l l' : List Block} (h : l'.map Block.frame = l.map Block.frame) :
    freeFrom l' = freeFrom l := by
  induction l generalizing l' with
  | nil => rw [List.map_eq_nil_iff.mp h]
  | cons b l ih =>
    obtain ⟨b', rest, rfl, hb, hrest⟩ := List.map_eq_cons_iff.mp h
    cases l with
    | nil => rw [List.map_eq_nil_iff.mp hrest]; rfl
    | cons next l =>
      obtain ⟨next', rest', rfl, hnext, -⟩ := List.map_eq_cons_iff.mp hrest
      obtain ⟨e1, e2, -⟩ := Block.frame_eq_iff.mp hb
      obtain ⟨e1', -, -⟩ := Block.frame_eq_iff.mp hnext
      rw [freeFrom, freeFrom, ih hrest, Block.limit, Block.limit, e1, e2, e1']

lemma SameFrames.freeBytes (h : SameFrames pm pm') : pm'.freeBytes = pm.freeBytes :=
  freeFrom_frames h.frames

/-- A block between two others takes its bytes from the gap. -/
lemma freeFrom_splice {before after : List Block} {blk : Block} (hbefore : before ≠ [])
    (hafter : after ≠ []) (hlow : ∀ b ∈ before, b.limit ≤ blk.addr)
    (hhigh : ∀ b ∈ after, blk.limit ≤ b.addr) :
    freeFrom (before ++ blk :: after) + blk.size = freeFrom (before ++ after) := by
  induction before with
  | nil => exact absurd rfl hbefore
  | cons b before ih =>
    cases before with
    | nil =>
      cases after with
      | nil => exact absurd rfl hafter
      | cons next after =>
        have h1 := hlow b List.mem_cons_self
        have h2 := hhigh next List.mem_cons_self
        simp only [List.nil_append, List.cons_append, freeFrom, Block.limit] at h1 h2 ⊢
        omega
    | cons c before =>
      have hrest := ih (by simp) fun x hx => hlow x (List.mem_cons_of_mem _ hx)
      simp only [List.cons_append, freeFrom] at hrest ⊢
      omega

lemma InsertedAt.freeBytes {p size : ℕ} (hgap : pm.Gap p size) (hpos : 0 < size)
    (hnext : ∃ b ∈ pm.blocks, p + size ≤ b.addr) (hins : pm.InsertedAt (fresh p size) pm') :
    pm'.freeBytes + size = pm.freeBytes := by
  obtain ⟨before, after, c, hsplit, rfl, -, hbefore, hafter⟩ := hins.result
  have hsplice : freeFrom (before ++ fresh p size :: after) + size = freeFrom (before ++ after) := by
    have hne : before ≠ [] ∧ after ≠ [] → freeFrom (before ++ fresh p size :: after) + size =
        freeFrom (before ++ after) := fun hne => freeFrom_splice hne.1 hne.2 hbefore hafter
    refine hne ⟨?_, ?_⟩
    · rintro rfl
      obtain ⟨b, hb, hend, -⟩ := hgap.ends
      have := hafter b (by simpa [hsplit] using hb)
      simp only [Block.limit, fresh] at this hend
      omega
    · rintro rfl
      obtain ⟨b, hb, hstart⟩ := hnext
      have := hbefore b (by simpa [hsplit] using hb)
      simp only [Block.limit, fresh] at this
      omega
  rw [← hsplit] at hsplice
  exact hsplice

/-- The scan finds a page exactly when two consecutive blocks do not touch. -/
lemma usableFrom_page {maxRange u : ℕ} {l : List Block} (hasc : Ascending Block.addr Block.limit l)
    (hlim : ∀ b ∈ l, b.limit < 2 ^ 57) (hpos : ∀ b ∈ l, 0 < b.limit)
    (haddr : ∀ b ∈ l, 4096 ∣ b.addr ∧ b.addr ≤ maxRange) (hsize : ∀ b ∈ l, 4096 ∣ b.size)
    (hu : ∀ b ∈ l.head?, u ≤ b.limit) : usableFrom maxRange 4096 u l = 0 ↔ freeFrom l = 0 := by
  induction l generalizing u with
  | nil => simp [usableFrom, freeFrom]
  | cons iter rest ih =>
    cases rest with
    | nil => simp [usableFrom, freeFrom]
    | cons next rest =>
      have hiterpos := hpos iter (by simp)
      have hstep : iter.limit ≤ next.addr := (List.pairwise_cons.mp hasc).1 next (by simp)
      have hdvd : 4096 ∣ iter.limit := Nat.dvd_add (haddr iter (by simp)).1 (hsize iter (by simp))
      have hnext := haddr next (by simp)
      rw [usableFrom_cons (hlim iter (by simp)) hiterpos (by norm_num) (hu iter (by simp)), freeFrom]
      by_cases hgap : iter.limit + 4096 ≤ next.addr
      · rw [if_pos hgap, if_pos (by omega)]
        omega
      · rw [if_neg hgap, ih hasc.tail (fun b hb => hlim b (by simp [hb])) (fun b hb => hpos b (by simp [hb]))
          (fun b hb => haddr b (by simp [hb])) (fun b hb => hsize b (by simp [hb]))]
        · omega
        · simp only [List.head?_cons, Option.mem_some_iff, forall_eq', Block.limit] at hstep ⊢
          omega

lemma usable_page (h : pm.Ordered) : pm.usable pageSize = 0 ↔ pm.freeBytes = 0 := by
  have hround : u64 (pageSize + pageSize - 1) / pageSize * pageSize = 4096 := by
    rw [pageSize_eq]
    rfl
  have hscan : pm.usable pageSize = usableFrom pm.maxRange 4096 0 pm.blocks := by
    rw [usable, hround]
  rw [hscan]
  exact usableFrom_page h.ascending (fun b hb => h.limit_lt hb) (fun b hb => h.limit_pos hb)
    (fun b hb => ⟨(h.addr_aligned hb).1, h.addr_le_range hb⟩) (fun b hb => (h.addr_aligned hb).2) (by simp)

/-! ### Missing tables -/

/-- From one memory to the other, as many pages were taken as tables are no longer missing. -/
def Charged (root : ℕ) (paths : Finset (List ℕ)) (pm pm' : PhysicalMemory) : Prop :=
  ∃ c, pm'.missing root paths + c = pm.missing root paths ∧ pm'.freeBytes + c * 4096 = pm.freeBytes

lemma Charged.trans {r : ℕ} {paths : Finset (List ℕ)} (h : Charged r paths pm pm')
    (h' : Charged r paths pm' pm'') : Charged r paths pm pm'' := by
  obtain ⟨c, hmissing, hfree⟩ := h
  obtain ⟨c', hmissing', hfree'⟩ := h'
  refine ⟨c + c', ?_, ?_⟩
  · rw [← hmissing, ← hmissing']
    ring
  · rw [← hfree, ← hfree']
    ring

lemma Charged.of_walks {r : ℕ} {paths : Finset (List ℕ)}
    (hwalks : ∀ path ∈ paths, (walk pm'.entry r path = none ↔ walk pm.entry r path = none))
    (hfree : pm'.freeBytes = pm.freeBytes) : Charged r paths pm pm' := by
  refine ⟨0, ?_, by omega⟩
  rw [missing, missing, Finset.filter_congr hwalks, Nat.add_zero]

/-- The memory is used up while a table is missing. -/
def RunOut (root : ℕ) (paths : Finset (List ℕ)) (pm : PhysicalMemory) : Prop :=
  pm.freeBytes = 0 ∧ 0 < pm.missing root paths

/-- What the loop does with the free pages until it goes on or gives up. -/
def Spends (root : ℕ) (paths : Finset (List ℕ)) (pm : PhysicalMemory) (ok : Bool)
    (pm' : PhysicalMemory) : Prop :=
  Charged root paths pm pm' ∧ (ok = false → RunOut root paths pm')

lemma missing_pos {r : ℕ} {paths : Finset (List ℕ)} {path : List ℕ} (hpath : path ∈ paths)
    (hnone : walk pm.entry r path = none) : 0 < pm.missing r paths :=
  Finset.card_pos.mpr ⟨path, Finset.mem_filter.mpr ⟨hpath, hnone⟩⟩

/-- A new table takes one page, and its own way is the only one that is no longer missing. -/
theorem ensureTable_spends (h : pm.PageTables root) {r q i : ℕ} {pre : List ℕ} (hr : root r)
    (hpre : pre.length < 2) (hq : walk pm.entry r pre = some q) (hi : i < 512)
    {paths : Finset (List ℕ)} (hlen : ∀ path ∈ paths, path.length ≤ 3) (hmem : pre ++ [i] ∈ paths)
    {ok : Bool} (heq : pm.ensureTable q i = .ok (ok, pm')) : Spends r paths pm ok pm' := by
  have hrefl : Charged r paths pm pm := .of_walks (fun _ _ => Iff.rfl) rfl
  rcases ensureTable_cases h hr (by omega) hq hi with
    ⟨q', -, heq'⟩ | ⟨hnone, ⟨hp, heq'⟩ | ⟨pm₁, heq', hmade⟩⟩
  all_goals
    obtain ⟨rfl, rfl⟩ := Prod.mk.inj (Except.ok.inj (heq'.symm.trans heq))
  · exact ⟨hrefl, by simp⟩
  · exact ⟨hrefl, fun _ => ⟨(usable_page h.ordered).mp hp, missing_pos hmem hnone⟩⟩
  · refine ⟨⟨1, ?_, ?_⟩, by simp⟩
    · have herase : (paths.filter fun path => walk pm₁.entry r path = none) =
          (paths.filter fun path => walk pm.entry r path = none).erase (pre ++ [i]) := by
        ext path
        rw [Finset.mem_erase, Finset.mem_filter, Finset.mem_filter]
        constructor
        · rintro ⟨hpath, hnew⟩
          obtain ⟨hne, hold⟩ := (hmade.walk_none_iff hr (hlen path hpath)).mp hnew
          exact ⟨hne, hpath, hold⟩
        · rintro ⟨hne, hpath, hold⟩
          exact ⟨hpath, (hmade.walk_none_iff hr (hlen path hpath)).mpr ⟨hne, hold⟩⟩
      rw [missing, herase, Finset.card_erase_of_mem (Finset.mem_filter.mpr ⟨hmem, hnone⟩)]
      have hpos := missing_pos hmem hnone
      rw [missing] at hpos ⊢
      omega
    · have h4096 := pageSize_eq
      obtain ⟨pm₂, hat, hframes⟩ := hmade.inserted
      have hround : roundPages pageSize = pageSize := roundPages_of_dvd (by omega) (by omega)
      have hnext := (usable_gap h.ordered (by omega) hmade.usable rfl).2
      rw [hround] at hnext
      rw [hframes.freeBytes, ← hat.freeBytes hmade.gap (by omega) hnext]
      omega

lemma allocateLevel_spends (h : pm.PageTables root) {r q i cached : ℕ} {pre : List ℕ} (hr : root r)
    (hpre : pre.length < 2) (hq : walk pm.entry r pre = some q) (hi : i < 512)
    {paths : Finset (List ℕ)} (hlen : ∀ path ∈ paths, path.length ≤ 3) (hmem : pre ++ [i] ∈ paths)
    {ok : Bool} (heq : pm.allocateLevel q i cached = .ok (ok, pm')) : Spends r paths pm ok pm' := by
  unfold allocateLevel at heq
  split_ifs at heq
  · exact ensureTable_spends h hr hpre hq hi hlen hmem heq
  · simp only [Except.ok.injEq, Prod.mk.injEq] at heq
    obtain ⟨rfl, rfl⟩ := heq
    exact ⟨.of_walks (fun _ _ => Iff.rfl) rfl, by simp⟩

/-- Filling a leaf entry makes no table. -/
lemma mapLeaf_charged (h : pm.PageTables root) {r q i pa : ℕ} {pre : List ℕ} (hr : root r)
    (hpre : pre.length = 2) (hq : walk pm.entry r pre = some q) (hi : i < 512)
    (hfill : PageTables.Fillable pm root r pre pa) {paths : Finset (List ℕ)}
    (hlen : ∀ path ∈ paths, path.length ≤ 2) : Charged r paths pm (pm.mapLeaf q i pa) := by
  obtain ⟨hgrowth, hadds, -⟩ := mapLeaf_spec h hr hpre hq hi hfill
  apply Charged.of_walks
  · intro path hpath
    have hle := hlen path hpath
    constructor
    · intro hnone
      cases hold : walk pm.entry r path with
      | none => rfl
      | some q' =>
        rw [hgrowth.walks r path q' hr (by omega) hold] at hnone
        cases hnone
    · intro hnone
      cases hnew : walk (pm.mapLeaf q i pa).entry r path with
      | none => rfl
      | some q' =>
        rcases hadds r path q' hr (by omega) hnew with hold | ⟨-, rfl, -⟩
        · exact hold.symm.trans hnone
        · simp only [List.length_append, List.length_singleton] at hle
          omega
  · unfold mapLeaf
    split_ifs
    · exact SameFrames.freeBytes (writeData_sameFrames ..)
    · rfl

/-! ### The loop -/

lemma allocatePage_spends (h : pm.PageTables root) {r va pa p size : ℕ} {idx idx' : PtIdx}
    (hr : root r) (hreg : Region root pm r p size) (hcache : CacheOk pm r va idx)
    (hdvd : 4096 ∣ pa) (hlow : p ≤ pa) (hhigh : pa + 4096 ≤ p + size)
    (hfresh : ¬ IsReached pm.entry 3 root pa) {paths : Finset (List ℕ)}
    (hlen : ∀ path ∈ paths, path.length ≤ 2) (h₁ : (vaPath va).take 1 ∈ paths)
    (h₂ : (vaPath va).take 2 ∈ paths) {ok : Bool}
    (heq : pm.allocatePage r va pa idx = .ok (ok, idx', pm')) : Spends r paths pm ok pm' := by
  have hlen' : ∀ path ∈ paths, path.length ≤ 3 := fun path hpath => (hlen path hpath).trans (by omega)
  obtain ⟨ok₀, pm₀, heq₀, s₀, hcase₀⟩ := allocatePage_cases h hr hreg hcache hdvd hlow hhigh hfresh
  have spent₀ : Spends r paths pm ok₀ pm₀ :=
    allocateLevel_spends h hr (show [].length < 2 by simp) rfl (vaExtract_lt va 0) hlen' h₁ heq₀
  cases ok₀ with
  | false =>
    rw [hcase₀] at heq
    simp only [Except.ok.injEq, Prod.mk.injEq] at heq
    obtain ⟨rfl, -, rfl⟩ := heq
    exact spent₀
  | true =>
    obtain ⟨q₀, ok₁, pm₁, hw₀, heq₁, s₁, hcase₁⟩ := hcase₀
    have spent₁ : Spends r paths pm₀ ok₁ pm₁ :=
      allocateLevel_spends s₀.growth.tables hr (by simp) hw₀ (vaExtract_lt va 1) hlen' h₂ heq₁
    have charged₁ := spent₀.1.trans spent₁.1
    cases ok₁ with
    | false =>
      rw [hcase₁] at heq
      simp only [Except.ok.injEq, Prod.mk.injEq] at heq
      obtain ⟨rfl, -, rfl⟩ := heq
      exact ⟨charged₁, spent₁.2⟩
    | true =>
      obtain ⟨q₁, hw₁, hfill, -, hpage⟩ := hcase₁
      rw [hpage] at heq
      simp only [Except.ok.injEq, Prod.mk.injEq] at heq
      obtain ⟨rfl, -, rfl⟩ := heq
      exact ⟨charged₁.trans (mapLeaf_charged s₁.growth.tables hr (by simp) hw₁ (vaExtract_lt va 2)
        hfill hlen), by simp⟩

theorem allocatePages_spends {r v p size : ℕ} (hr : root r) (hp : 4096 ∣ p)
    (hrange : p + size < 2 ^ 64) {paths : Finset (List ℕ)} (hlen : ∀ path ∈ paths, path.length ≤ 2)
    (n iter : ℕ) {idx : PtIdx} (h : Pending root pm r v p size n iter idx)
    (hpaths : tablePaths (v + iter) n ⊆ paths) {ok : Bool}
    (heq : allocatePages r v p n iter idx pm = .ok (ok, pm')) : Spends r paths pm ok pm' := by
  induction n generalizing iter idx pm with
  | zero =>
    simp only [allocatePages, Except.ok.injEq, Prod.mk.injEq] at heq
    obtain ⟨rfl, rfl⟩ := heq
    exact ⟨.of_walks (fun _ _ => Iff.rfl) rfl, by simp⟩
  | succ n ih =>
    obtain ⟨hinside, hfresh⟩ := h.page
    have hpa : u64 (p + iter) = p + iter := u64_of_lt (by omega)
    have hdvd := Nat.dvd_add hp h.aligned
    obtain ⟨ok₁, idx₁, pm₁, heq₁, hstep, hidx⟩ := allocatePage_spec h.tables hr h.region h.cache
      hdvd (Nat.le_add_right p iter) hinside hfresh
    have hfirst : ∀ path ∈ ({(vaPath (u64 (v + iter))).take 1, (vaPath (u64 (v + iter))).take 2} :
        Finset (List ℕ)), path ∈ paths := by
      intro path hpath
      refine hpaths (Finset.mem_biUnion.mpr ⟨0, Finset.mem_range.mpr n.succ_pos, ?_⟩)
      rwa [Nat.zero_mul, Nat.add_zero]
    have spent₁ := allocatePage_spends h.tables hr h.region h.cache hdvd (Nat.le_add_right p iter)
      hinside hfresh hlen (hfirst _ (by simp)) (hfirst _ (by simp)) heq₁
    cases ok₁ with
    | false =>
      simp only [allocatePages, hpa, heq₁, Except.ok.injEq, Prod.mk.injEq] at heq
      obtain ⟨rfl, rfl⟩ := heq
      exact spent₁
    | true =>
      obtain rfl := hidx rfl
      simp only [allocatePages, hpa, heq₁] at heq
      have hrest : tablePaths (v + (iter + pageSize)) n ⊆ paths := by
        intro path hpath
        obtain ⟨k, hk, hpath⟩ := Finset.mem_biUnion.mp hpath
        refine hpaths (Finset.mem_biUnion.mpr ⟨k + 1, by simp at hk ⊢; omega, ?_⟩)
        rwa [pageSize_eq, show v + (iter + 4096) + k * 4096 = v + iter + (k + 1) * 4096 by ring] at hpath
      have spent := ih (iter + pageSize) (h.next hstep) hrest heq
      exact ⟨spent₁.1.trans spent.1, spent.2⟩

lemma length_of_mem_tablePaths {v n : ℕ} {path : List ℕ} (h : path ∈ tablePaths v n) :
    path.length ≤ 2 := by
  obtain ⟨k, -, hpath⟩ := Finset.mem_biUnion.mp h
  simp only [Finset.mem_insert, Finset.mem_singleton] at hpath
  rcases hpath with rfl | rfl <;> simp

/-- When all pages of a range are mapped, none of their tables is missing. -/
lemma missing_eq_zero {r v n : ℕ}
    (h : ∀ k < n, (walk pm.entry r (vaPath (u64 (v + k * 4096)))).isSome = true) :
    pm.missing r (tablePaths v n) = 0 := by
  rw [missing, Finset.card_eq_zero, Finset.filter_eq_empty_iff]
  intro path hpath hnone
  obtain ⟨k, hk, hpath⟩ := Finset.mem_biUnion.mp hpath
  have hprefix : ∀ i, (walk pm.entry r ((vaPath (u64 (v + k * 4096))).take i)).isSome = true := by
    intro i
    refine isSome_walk_prefix _ ((vaPath (u64 (v + k * 4096))).drop i) ?_
    rw [List.take_append_drop]
    exact h k (Finset.mem_range.mp hk)
  simp only [Finset.mem_insert, Finset.mem_singleton] at hpath
  rcases hpath with rfl | rfl
  · simpa [hnone] using hprefix 1
  · simpa [hnone] using hprefix 2

/-- The loop runs to its end exactly when there is a free page for every missing table. -/
theorem allocatePages_completes {r v p size n : ℕ} (hr : root r) (hp : 4096 ∣ p)
    (hrange : p + size < 2 ^ 64) {idx : PtIdx} (h : Pending root pm r v p size n 0 idx) {ok : Bool}
    (heq : allocatePages r v p n 0 idx pm = .ok (ok, pm')) :
    ok = true ↔ pm.missing r (tablePaths v n) * 4096 ≤ pm.freeBytes := by
  obtain ⟨ok', pm'', heq', hstep, -⟩ := allocatePages_spec hr hp hrange n 0 h
  obtain ⟨rfl, rfl⟩ := Prod.mk.inj (Except.ok.inj (heq'.symm.trans heq))
  obtain ⟨⟨c, hmissing, hfree⟩, hout⟩ := allocatePages_spends hr hp hrange
    (fun path hpath => length_of_mem_tablePaths hpath) n 0 h (subset_refl (tablePaths v n)) heq
  constructor
  · intro hok
    have hzero : pm''.missing r (tablePaths v n) = 0 := missing_eq_zero (hstep.mapped hok)
    rw [hzero, Nat.zero_add] at hmissing
    rw [← hmissing]
    omega
  · intro hle
    cases ok' with
    | true => rfl
    | false =>
      obtain ⟨hempty, hpos⟩ := hout rfl
      rw [hempty, Nat.zero_add] at hfree
      rw [← hmissing, ← hfree] at hle
      omega

end PhysicalMemory
end VentusDriver
