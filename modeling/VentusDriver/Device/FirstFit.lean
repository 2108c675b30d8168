import VentusDriver.Device.BlockList

/-! The search for free space. On every ascending list from a block at 0 to the sentinel `usable` is
exact first fit: it finds the lowest gap between consecutive blocks that is large enough. -/
namespace VentusDriver
open Foundation Foundation.Intervals Sv39

namespace PhysicalMemory
variable {pm : PhysicalMemory}

/-- An ascending list of disjoint blocks from one at 0, which is not empty, to the sentinel. -/
structure Spanning (pm : PhysicalMemory) : Prop where
  range_le : pm.maxRange ≤ maxPhyRange
  range_aligned : 4096 ∣ pm.maxRange
  ascending : Ascending Block.addr Block.limit pm.blocks
  first : ∃ b ∈ pm.blocks.head?, b.addr = 0 ∧ 0 < b.size
  last : pm.blocks.getLast? = some (sentinel pm.maxRange)

/-- No two consecutive blocks leave a gap of the size. -/
def NoGap (l : List Block) (size : ℕ) : Prop := ∀ b c, [b, c] <:+: l → c.addr < b.limit + size

/-- The block before the lowest gap of the size, which ends at `p`. -/
def LowestGap (l : List Block) (size p : ℕ) : Prop :=
  ∃ before b c after, l = before ++ b :: c :: after ∧ b.limit = p ∧ p + size ≤ c.addr ∧
    NoGap (before ++ [b]) size

lemma noGap_cons {b : Block} {l : List Block} {size : ℕ} :
    NoGap (b :: l) size ↔ (∀ c ∈ l.head?, c.addr < b.limit + size) ∧ NoGap l size := by
  constructor
  · intro h
    refine ⟨fun c hc => h b c ?_, fun x y hxy => h x y (List.infix_cons hxy)⟩
    cases l with
    | nil => cases hc
    | cons d l =>
      obtain rfl := Option.some.inj hc
      exact ⟨[], l, rfl⟩
  · rintro ⟨hhead, htail⟩ x y hxy
    cases List.infix_cons_iff.mp hxy with
    | inl hpre =>
      obtain ⟨rest, hrest⟩ := hpre
      obtain ⟨rfl, htl⟩ := List.cons.inj hrest
      exact hhead y (by rw [← htl]; rfl)
    | inr hxy => exact htail x y hxy

/-- From a block on, the scan finds the lowest gap or says that there is none. -/
theorem usableFrom_firstFit {maxRange size u : ℕ} {l : List Block}
    (hasc : Ascending Block.addr Block.limit l) (hlim : ∀ b ∈ l, b.limit < 2 ^ 57)
    (hpos : ∀ b ∈ l, 0 < b.limit) (haddr : ∀ b ∈ l, b.addr ≤ maxRange) (hsize : size < 2 ^ 63)
    (hu : ∀ b ∈ l.head?, u ≤ b.limit) :
    (usableFrom maxRange size u l = 0 ∧ NoGap l size) ∨
      LowestGap l size (usableFrom maxRange size u l) := by
  induction l generalizing u with
  | nil => exact .inl ⟨rfl, fun b c h => by simp at h⟩
  | cons iter rest ih =>
    cases rest with
    | nil => exact .inl ⟨rfl, noGap_cons.mpr ⟨by simp, fun b c h => by simp at h⟩⟩
    | cons next rest =>
      rw [usableFrom_cons (hlim iter (by simp)) (hpos iter (by simp)) hsize (hu iter (by simp))]
      by_cases hgap : iter.limit + size ≤ next.addr
      · -- the gap lies below the next block, and so below the limit
        have hnext := haddr next (by simp)
        rw [if_pos hgap, if_pos (by omega)]
        refine .inr ⟨[], iter, next, rest, rfl, rfl, hgap, noGap_cons.mpr ⟨by simp, ?_⟩⟩
        exact fun b c h => by simp at h
      · rw [if_neg hgap]
        have hstep : iter.limit ≤ next.addr := (List.pairwise_cons.mp hasc).1 next (by simp)
        have htail := ih hasc.tail (fun b hb => hlim b (by simp [hb])) (fun b hb => hpos b (by simp [hb]))
          (fun b hb => haddr b (by simp [hb])) (u := iter.limit) (by
            simp only [List.head?_cons, Option.mem_some_iff, forall_eq', Block.limit] at hstep ⊢
            omega)
        rcases htail with ⟨hzero, hnone⟩ | ⟨before, b, c, after, heq, hb, hc, hnone⟩
        · refine .inl ⟨hzero, noGap_cons.mpr ⟨?_, hnone⟩⟩
          simpa using hgap
        · refine .inr ⟨iter :: before, b, c, after, by rw [heq]; rfl, hb, hc, ?_⟩
          have hcons : NoGap (iter :: (before ++ [b])) size ↔ _ := noGap_cons
          refine hcons.mpr ⟨?_, hnone⟩
          -- the block behind the first one is the next one
          have hhead : (before ++ [b]).head? = some next := by
            cases before with
            | nil => simp at heq; simp [heq.1]
            | cons d before => simp at heq; simp [heq.1]
          rw [hhead]
          simpa using hgap

namespace Spanning

lemma limit_le (h : pm.Spanning) {b : Block} (hb : b ∈ pm.blocks) :
    b = sentinel pm.maxRange ∨ b.limit ≤ pm.maxRange := by
  obtain ⟨init, hinit⟩ := List.getLast?_eq_some_iff.mp h.last
  have hasc := h.ascending
  rw [hinit] at hb hasc
  cases List.mem_append.mp hb with
  | inl hb => exact .inr ((List.pairwise_append.mp hasc).2.2 b hb _ (List.mem_singleton_self _))
  | inr hb => exact .inl (List.mem_singleton.mp hb)

lemma limit_lt (h : pm.Spanning) {b : Block} (hb : b ∈ pm.blocks) : b.limit < 2 ^ 57 := by
  have hrange : pm.maxRange ≤ 2 ^ 56 := h.range_le
  rcases h.limit_le hb with rfl | hle
  · simp only [Block.limit, sentinel, pageSize_eq]
    omega
  · omega

lemma addr_le (h : pm.Spanning) {b : Block} (hb : b ∈ pm.blocks) : b.addr ≤ pm.maxRange := by
  rcases h.limit_le hb with rfl | hle
  · exact le_rfl
  · exact (Nat.le_add_right ..).trans hle

lemma limit_pos (h : pm.Spanning) {b : Block} (hb : b ∈ pm.blocks) : 0 < b.limit := by
  obtain ⟨first, hfirst, hzero, hsize⟩ := h.first
  have hasc := h.ascending
  cases hblocks : pm.blocks with
  | nil => rw [hblocks] at hb; cases hb
  | cons d rest =>
    rw [hblocks] at hb hasc hfirst
    obtain rfl := Option.some.inj hfirst
    have hpos : 0 < d.limit := by rw [Block.limit]; omega
    cases hb with
    | head => exact hpos
    | tail _ hb =>
      have hle : d.limit ≤ b.addr := (List.pairwise_cons.mp hasc).1 b hb
      rw [Block.limit]
      omega

end Spanning

/-- A gap between consecutive blocks of an ascending list meets no block. -/
lemma LowestGap.clear {l : List Block} {size p : ℕ} (hasc : Ascending Block.addr Block.limit l)
    (h : LowestGap l size p) : ∀ x ∈ l, x.limit ≤ p ∨ p + size ≤ x.addr := by
  obtain ⟨before, b, c, after, rfl, rfl, hgap, -⟩ := h
  obtain ⟨-, hcons, hcross⟩ := List.pairwise_append.mp hasc
  obtain ⟨hb, hcons⟩ := List.pairwise_cons.mp hcons
  obtain ⟨hc, -⟩ := List.pairwise_cons.mp hcons
  intro x hx
  cases List.mem_append.mp hx with
  | inl hx =>
    have := hcross x hx b List.mem_cons_self
    exact .inl (this.trans (Nat.le_add_right ..))
  | inr hx =>
    cases hx with
    | head => exact .inl le_rfl
    | tail _ hx =>
      cases hx with
      | head => exact .inr hgap
      | tail _ hx =>
        have := hc x hx
        exact .inr (hgap.trans ((Nat.le_add_right ..).trans this))

/-- `usable` returns 0 exactly when no gap is large enough, and otherwise the end of the block before
the lowest one, where the rounded size fits in between all blocks and below the limit. -/
theorem usable_firstFit (h : pm.Spanning) {size : ℕ} (hpos : 1 ≤ size) (hle : size ≤ pm.maxRange) :
    (pm.usable size = 0 ↔ NoGap pm.blocks ((size + 4095) / 4096 * 4096)) ∧
      (pm.usable size ≠ 0 →
        LowestGap pm.blocks ((size + 4095) / 4096 * 4096) (pm.usable size) ∧
        (∀ x ∈ pm.blocks, x.limit ≤ pm.usable size ∨
          pm.usable size + (size + 4095) / 4096 * 4096 ≤ x.addr) ∧
        pm.usable size + (size + 4095) / 4096 * 4096 ≤ pm.maxRange) := by
  have hrange : pm.maxRange ≤ 2 ^ 56 := h.range_le
  have hround : u64 (size + pageSize - 1) / pageSize * pageSize = (size + 4095) / 4096 * 4096 := by
    rw [pageSize_eq, u64_of_lt (by omega)]
    omega
  have hscan : pm.usable size = usableFrom pm.maxRange ((size + 4095) / 4096 * 4096) 0 pm.blocks := by
    rw [usable, hround]
  have hfirst : (pm.usable size = 0 ∧ NoGap pm.blocks ((size + 4095) / 4096 * 4096)) ∨
      LowestGap pm.blocks ((size + 4095) / 4096 * 4096) (pm.usable size) := by
    rw [hscan]
    exact usableFrom_firstFit h.ascending (fun b => h.limit_lt) (fun b => h.limit_pos)
      (fun b => h.addr_le) (by omega) (by simp)
  generalize (size + 4095) / 4096 * 4096 = rounded at hfirst
  have hgap : pm.usable size ≠ 0 → LowestGap pm.blocks rounded (pm.usable size) :=
    fun hne => hfirst.resolve_left fun hzero => hne hzero.1
  refine ⟨⟨fun hzero => ?_, fun hnone => ?_⟩, fun hne => ⟨hgap hne, (hgap hne).clear h.ascending, ?_⟩⟩
  · rcases hfirst with hnone | ⟨before, b, c, after, heq, hb, -⟩
    · exact hnone.2
    · -- no block ends at 0
      have hlimit := h.limit_pos (b := b) (by rw [heq]; simp)
      omega
  · rcases hfirst with hzero | ⟨before, b, c, after, heq, hb, hc, -⟩
    · exact hzero.1
    · have := hnone b c ⟨before, after, by rw [heq]; simp⟩
      omega
  · obtain ⟨before, b, c, after, heq, -, hc, -⟩ := hgap hne
    have := h.addr_le (b := c) (by rw [heq]; simp)
    omega

/-- A block in front of which there is one page, and behind which there is more. -/
theorem usable_firstFit_onePage : ∃ pm : PhysicalMemory, pm.Spanning ∧ pm.usable 5000 = 0x20002000 ∧
    LowestGap pm.blocks 8192 0x20002000 := by
  let pm : PhysicalMemory := ⟨0x20010000, [reserved, ⟨0x20001000, 4096, none⟩, sentinel 0x20010000], none⟩
  have hspanning : pm.Spanning := by
    refine ⟨by decide, by decide, ?_, ⟨reserved, rfl, rfl, by decide⟩, rfl⟩
    have hpair : pm.blocks.Pairwise fun b c => b.limit ≤ c.addr := by
      simp [pm, Block.limit, reserved, sentinel]
    exact hpair
  have husable : pm.usable 5000 = 0x20002000 := by decide
  obtain ⟨-, hgap⟩ := usable_firstFit hspanning (show 1 ≤ 5000 by norm_num) (by decide)
  have hlowest := (hgap (by rw [husable]; norm_num)).1
  rw [husable] at hlowest
  exact ⟨pm, hspanning, husable, hlowest⟩

end PhysicalMemory
end VentusDriver
