import VentusDriver.Foundation.Transition
import VentusDriver.Foundation.Intervals
import VentusDriver.Device.PhysicalMemory

/-! The block list keeps its order. From every cursor position an insertion at an address chosen
by `usable` finds the right gap, so the list stays ascending between the reserved block and the
sentinel. -/
namespace VentusDriver
open Foundation Foundation.Intervals Sv39

namespace Block

/-- The end of a block as a natural number. -/
def limit (b : Block) : ℕ := b.addr + b.size

/-- What an access to the bytes of a block cannot change. -/
def frame (b : Block) : ℕ × ℕ × Bool := (b.addr, b.size, b.pages.isSome)

lemma endAddr_eq {b : Block} (h : b.limit < 2 ^ 64) : b.endAddr = b.limit := u64_of_lt h

lemma frame_eq_iff {b c : Block} : b.frame = c.frame ↔
    b.addr = c.addr ∧ b.size = c.size ∧ b.pages.isSome = c.pages.isSome := by
  simp [frame]

/-- Blocks of one frame cover the same addresses. -/
lemma span_of_frame {b c : Block} (h : b.frame = c.frame) :
    b.addr = c.addr ∧ b.limit = c.limit ∧ b.pages.isSome = c.pages.isSome := by
  obtain ⟨haddr, hsize, hpages⟩ := frame_eq_iff.mp h
  exact ⟨haddr, by rw [limit, limit, haddr, hsize], hpages⟩

lemma span_of_eq {b : Block} {addr size : ℕ} {stored : Bool} (h : b.frame = (addr, size, stored)) :
    b.addr = addr ∧ b.limit = addr + size ∧ b.pages.isSome = stored := by
  obtain ⟨rfl, hrest⟩ := Prod.mk.inj h
  obtain ⟨rfl, rfl⟩ := Prod.mk.inj hrest
  exact ⟨rfl, rfl, rfl⟩

lemma eq_of_frame {b c : Block} (h : b.frame = c.frame) (hc : c.pages = none) : b = c := by
  obtain ⟨h1, h2, h3⟩ := frame_eq_iff.mp h
  cases b
  cases c
  simp_all

/-- The constructor succeeds for every size that fits the largest object size. -/
lemma new_backed {addr size : ℕ} (h : size < 2 ^ 63 - 4096) :
    Block.new addr size true = .ok ⟨addr, size, some fun _ => 0⟩ := by
  have hnum : u64 (size + pageSize - 1) / pageSize * pageSize < 2 ^ 63 := by
    rw [pageSize_eq, u64]
    omega
  simpa [new] using hnum

end Block

namespace PhysicalMemory

/-- A block put into the list by `insert`: page aligned, inside the allocatable range. -/
structure Inserted (maxRange : ℕ) (b : Block) : Prop where
  backed : b.pages.isSome
  lower : 0x20000000 ≤ b.addr
  upper : b.limit ≤ maxRange
  addr_aligned : 4096 ∣ b.addr
  size_aligned : 4096 ∣ b.size

/-- The block list is ascending and pairwise disjoint, starts with the reserved block, ends with
the sentinel and holds only inserted blocks between them; the cursor designates a block. -/
structure WellFormed (pm : PhysicalMemory) : Prop where
  range_ge : 0x20000000 ≤ pm.maxRange
  range_le : pm.maxRange ≤ maxPhyRange
  range_aligned : 4096 ∣ pm.maxRange
  shape : ∃ mid, pm.blocks = reserved :: (mid ++ [sentinel pm.maxRange]) ∧
    ∀ b ∈ mid, Inserted pm.maxRange b
  ascending : Ascending Block.addr Block.limit pm.blocks
  cursor : ∃ i, pm.currentBlock = some i ∧ i < pm.blocks.length

/-- What every use of the list keeps, also once the reserved block is gone or the cursor is
invalid. -/
structure Ordered (pm : PhysicalMemory) : Prop where
  range_ge : 0x20000000 ≤ pm.maxRange
  range_le : pm.maxRange ≤ maxPhyRange
  range_aligned : 4096 ∣ pm.maxRange
  block : ∀ b ∈ pm.blocks, b = reserved ∨ Inserted pm.maxRange b ∨ b = sentinel pm.maxRange
  ascending : Ascending Block.addr Block.limit pm.blocks

/-- The cursor designates a block of the list. -/
def CursorValid (pm : PhysicalMemory) : Prop := ∃ i, pm.currentBlock = some i ∧ i < pm.blocks.length

/-- The order of a list is one of the frames of its blocks. -/
lemma ascending_iff_frames (l : List Block) : Ascending Block.addr Block.limit l ↔
    (l.map Block.frame).Pairwise fun f g => f.1 + f.2.1 ≤ g.1 := by
  rw [List.pairwise_map]
  rfl

namespace Ordered
variable {pm : PhysicalMemory}

lemma range_lt (h : pm.Ordered) : pm.maxRange ≤ 2 ^ 56 := h.range_le

lemma limit_lt (h : pm.Ordered) {b : Block} (hb : b ∈ pm.blocks) : b.limit < 2 ^ 57 := by
  have hrange := h.range_lt
  rcases h.block b hb with rfl | hins | rfl
  · simp [Block.limit, reserved]
  · have := hins.upper
    omega
  · simp only [Block.limit, sentinel, pageSize_eq]
    omega

lemma limit_pos (h : pm.Ordered) {b : Block} (hb : b ∈ pm.blocks) : 0 < b.limit := by
  rcases h.block b hb with rfl | hins | rfl
  · simp [Block.limit, reserved]
  · have := hins.lower
    simp only [Block.limit]
    omega
  · simp [Block.limit, sentinel, pageSize_eq]

lemma endAddr_eq (h : pm.Ordered) {b : Block} (hb : b ∈ pm.blocks) : b.endAddr = b.limit :=
  Block.endAddr_eq (by have := h.limit_lt hb; omega)

lemma addr_aligned (h : pm.Ordered) {b : Block} (hb : b ∈ pm.blocks) :
    4096 ∣ b.addr ∧ 4096 ∣ b.size := by
  rcases h.block b hb with rfl | hins | rfl
  · simp [reserved]
  · exact ⟨hins.addr_aligned, hins.size_aligned⟩
  · exact ⟨h.range_aligned, by simp [sentinel, pageSize_eq]⟩

lemma addr_le_range (h : pm.Ordered) {b : Block} (hb : b ∈ pm.blocks) : b.addr ≤ pm.maxRange := by
  rcases h.block b hb with rfl | hins | rfl
  · exact Nat.zero_le _
  · have := hins.upper
    simp only [Block.limit] at this
    omega
  · exact le_rfl

/-- Only blocks with storage are backed. -/
lemma inserted_of_backed (h : pm.Ordered) {b : Block} (hb : b ∈ pm.blocks)
    (hbacked : b.pages.isSome) : Inserted pm.maxRange b := by
  rcases h.block b hb with rfl | hins | rfl
  · simp [reserved] at hbacked
  · exact hins
  · simp [sentinel] at hbacked

/-- A sublist of the blocks is still in order, whatever the cursor. -/
lemma sublist {pm' : PhysicalMemory} (h : pm.Ordered) (hrange : pm'.maxRange = pm.maxRange)
    (hsub : pm'.blocks.Sublist pm.blocks) : pm'.Ordered := by
  refine ⟨hrange ▸ h.range_ge, hrange ▸ h.range_le, hrange ▸ h.range_aligned, fun b hb => ?_,
    h.ascending.sublist hsub⟩
  rw [hrange]
  exact h.block b (hsub.subset hb)

/-- The order depends only on the frames of the blocks. -/
theorem of_frames {pm' : PhysicalMemory} (h : pm.Ordered) (hrange : pm'.maxRange = pm.maxRange)
    (hframes : pm'.blocks.map Block.frame = pm.blocks.map Block.frame) : pm'.Ordered := by
  refine ⟨hrange ▸ h.range_ge, hrange ▸ h.range_le, hrange ▸ h.range_aligned, fun b hb => ?_, ?_⟩
  · have hframe : b.frame ∈ pm.blocks.map Block.frame := hframes ▸ List.mem_map_of_mem hb
    obtain ⟨c, hc, hframe⟩ := List.mem_map.mp hframe
    obtain ⟨h1, h2, h3⟩ := Block.frame_eq_iff.mp hframe
    rw [hrange]
    rcases h.block c hc with rfl | hins | rfl
    · exact .inl (Block.eq_of_frame hframe.symm rfl)
    · exact .inr (.inl ⟨h3 ▸ hins.backed, h1 ▸ hins.lower,
        by have := hins.upper; simp_all [Block.limit], h1 ▸ hins.addr_aligned, h2 ▸ hins.size_aligned⟩)
    · exact .inr (.inr (Block.eq_of_frame hframe.symm rfl))
  · have hasc := h.ascending
    rw [ascending_iff_frames] at hasc ⊢
    rwa [hframes]

end Ordered

namespace WellFormed
variable {pm : PhysicalMemory}

lemma range_lt (h : pm.WellFormed) : pm.maxRange ≤ 2 ^ 56 := h.range_le

lemma mem_cases (h : pm.WellFormed) {b : Block} (hb : b ∈ pm.blocks) :
    b = reserved ∨ Inserted pm.maxRange b ∨ b = sentinel pm.maxRange := by
  obtain ⟨mid, hmid, hins⟩ := h.shape
  rw [hmid] at hb
  simp only [List.mem_cons, List.mem_append, List.not_mem_nil, or_false] at hb
  rcases hb with hb | hb | hb
  · exact .inl hb
  · exact .inr (.inl (hins b hb))
  · exact .inr (.inr hb)

theorem ordered (h : pm.WellFormed) : pm.Ordered :=
  ⟨h.range_ge, h.range_le, h.range_aligned, fun _ hb => h.mem_cases hb, h.ascending⟩

lemma limit_lt (h : pm.WellFormed) {b : Block} (hb : b ∈ pm.blocks) : b.limit < 2 ^ 57 :=
  h.ordered.limit_lt hb

lemma endAddr_eq (h : pm.WellFormed) {b : Block} (hb : b ∈ pm.blocks) : b.endAddr = b.limit :=
  h.ordered.endAddr_eq hb

lemma reserved_mem (h : pm.WellFormed) : reserved ∈ pm.blocks := by
  obtain ⟨mid, hmid, -⟩ := h.shape
  simp [hmid]

lemma sentinel_mem (h : pm.WellFormed) : sentinel pm.maxRange ∈ pm.blocks := by
  obtain ⟨mid, hmid, -⟩ := h.shape
  simp [hmid]

/-- Well-formedness depends only on the frames of the blocks. -/
theorem of_frames {pm' : PhysicalMemory} (h : pm.WellFormed) (hrange : pm'.maxRange = pm.maxRange)
    (hcursor : pm'.currentBlock = pm.currentBlock)
    (hframes : pm'.blocks.map Block.frame = pm.blocks.map Block.frame) : pm'.WellFormed := by
  have hordered := h.ordered.of_frames hrange hframes
  constructor
  · rw [hrange]; exact h.range_ge
  · rw [hrange]; exact h.range_le
  · rw [hrange]; exact h.range_aligned
  · obtain ⟨mid, hmid, hins⟩ := h.shape
    rw [hmid, List.map_cons, List.map_append] at hframes
    obtain ⟨b0, rest, hb, h0, hrest⟩ := List.map_eq_cons_iff.mp hframes
    obtain ⟨mid', last, hsplit, hmid', hlast⟩ := List.map_eq_append_iff.mp hrest
    obtain ⟨bs, tail, hcons, hs, htail⟩ := List.map_eq_cons_iff.mp hlast
    obtain rfl := List.map_eq_nil_iff.mp htail
    refine ⟨mid', ?_, ?_⟩
    · rw [hb, hsplit, hcons, Block.eq_of_frame h0 rfl, Block.eq_of_frame hs rfl, hrange]
    · intro b hbmem
      have hframe : b.frame ∈ mid.map Block.frame := hmid' ▸ List.mem_map_of_mem hbmem
      obtain ⟨c, hc, hframe⟩ := List.mem_map.mp hframe
      obtain ⟨h1, h2, h3⟩ := Block.frame_eq_iff.mp hframe
      have hi := hins c hc
      rw [hrange]
      exact ⟨h3 ▸ hi.backed, h1 ▸ hi.lower, by have := hi.upper; simp_all [Block.limit],
        h1 ▸ hi.addr_aligned, h2 ▸ hi.size_aligned⟩
  · exact hordered.ascending
  · have hlen : pm'.blocks.length = pm.blocks.length := by
      simpa using congrArg List.length hframes
    rw [hcursor, hlen]
    exact h.cursor

end WellFormed

lemma new_maxRange {range : ℕ} (h : 0x20000000 ≤ range) :
    0x20000000 ≤ (new range).maxRange ∧ (new range).maxRange ≤ maxPhyRange ∧
      4096 ∣ (new range).maxRange := by
  have hclamp : 0x20000000 ≤ min range (2 ^ 56) ∧ min range (2 ^ 56) ≤ 2 ^ 56 := by omega
  have hmax : (new range).maxRange = (min range (2 ^ 56) + 4096 - 1) / 4096 * 4096 := by
    rw [new, ← min_def, pageSize_eq]
    rfl
  rw [hmax, maxPhyRange]
  refine ⟨by omega, by omega, Nat.dvd_mul_left ..⟩

theorem new_wellFormed {range : ℕ} (h : 0x20000000 ≤ range) : (new range).WellFormed := by
  obtain ⟨hge, hle, hdvd⟩ := new_maxRange h
  refine ⟨hge, hle, hdvd, ⟨[], rfl, by simp⟩, ?_, ⟨0, rfl, by simp [new]⟩⟩
  have hpair : [reserved, sentinel (new range).maxRange].Pairwise fun a b => a.limit ≤ b.addr := by
    simpa [Block.limit, reserved, sentinel] using hge
  exact hpair

/-! ### The scan of `usable` -/

/-- The address ends a block of the list and leaves room for `size` bytes before the next one. -/
structure Gap (pm : PhysicalMemory) (p size : ℕ) : Prop where
  clear : ∀ b ∈ pm.blocks, b.limit ≤ p ∨ p + size ≤ b.addr
  ends : ∃ b ∈ pm.blocks, b.limit = p ∧ b ≠ sentinel pm.maxRange
  fits : p + size ≤ pm.maxRange

/-- The scan stops at the end of the first block that is far enough from the next one. -/
lemma usableFrom_cons {maxRange size u : ℕ} {iter next : Block} {rest : List Block}
    (hlim : iter.limit < 2 ^ 57) (hpos : 0 < iter.limit) (hsize : size < 2 ^ 63)
    (hu : u ≤ iter.limit) : usableFrom maxRange size u (iter :: next :: rest) =
      if iter.limit + size ≤ next.addr then if iter.limit + size ≤ maxRange then iter.limit else 0
      else usableFrom maxRange size iter.limit (next :: rest) := by
  have hend : iter.endAddr = iter.limit := Block.endAddr_eq (by omega)
  have hmax : (if u ≤ iter.endAddr then iter.endAddr else u) = iter.limit := by
    rw [hend, if_pos hu]
  have hgap : next.gtPos (iter.limit + size - 1) ↔ iter.limit + size ≤ next.addr := by
    rw [Block.gtPos]
    omega
  simp only [usableFrom, hmax]
  rw [sub64_of_le (by omega) (by omega), u64_of_lt (by omega)]
  simp only [hgap]

lemma usableFrom_gap {maxRange size u p : ℕ} {l : List Block} (hp : p ≠ 0)
    (hasc : Ascending Block.addr Block.limit l) (hlim : ∀ b ∈ l, b.limit < 2 ^ 57)
    (hsize : size < 2 ^ 63) (hu : ∀ b ∈ l.head?, u ≤ b.limit) (hpos : ∀ b ∈ l, 0 < b.limit)
    (h : usableFrom maxRange size u l = p) :
    ∃ before b after, l = before ++ b :: after ∧ after ≠ [] ∧ b.limit = p ∧
      (∀ c ∈ after, p + size ≤ c.addr) ∧ p + size ≤ maxRange := by
  induction l generalizing u with
  | nil => exact absurd h.symm hp
  | cons iter rest ih =>
    cases rest with
    | nil => exact absurd h.symm hp
    | cons next rest =>
      rw [usableFrom_cons (hlim iter (by simp)) (hpos iter (by simp)) hsize (hu iter (by simp))] at h
      split_ifs at h with hnext hfit
      · refine ⟨[], iter, next :: rest, rfl, by simp, h, ?_, h ▸ hfit⟩
        intro c hc
        cases List.mem_cons.mp hc with
        | inl heq =>
          subst heq
          exact h ▸ hnext
        | inr hc =>
          have hafter := (List.pairwise_cons.mp hasc.tail).1 c hc
          simp only [Block.limit] at hafter hnext h
          omega
      · exact absurd h.symm hp
      · have hstep : iter.limit ≤ next.addr := (List.pairwise_cons.mp hasc).1 next (by simp)
        obtain ⟨before, b, after, heq, hne, hb, hafter, hfit⟩ :=
          ih hasc.tail (fun b hb => hlim b (by simp [hb]))
            (by simp only [List.head?_cons, Option.mem_some_iff, forall_eq', Block.limit]
                simp only [Block.limit] at hstep
                omega)
            (fun b hb => hpos b (by simp [hb])) h
        exact ⟨iter :: before, b, after, by simp [heq], hne, hb, hafter, hfit⟩

/-- The size that `usable` and `allocate` work with. -/
def roundPages (size : ℕ) : ℕ := u64 (size + pageSize - 1) / pageSize * pageSize

lemma roundPages_of_dvd {size : ℕ} (h : 4096 ∣ size) (hlt : size < 2 ^ 63) :
    roundPages size = size := by
  simp only [roundPages, pageSize_eq, u64]
  omega

lemma roundPages_dvd (size : ℕ) : 4096 ∣ roundPages size := by
  rw [roundPages, pageSize_eq]
  exact Nat.dvd_mul_left ..

lemma roundPages_lt (size : ℕ) : roundPages size ≤ 2 ^ 64 - 4096 := by
  simp only [roundPages, pageSize_eq, u64]
  omega

lemma roundPages_idem (size : ℕ) : roundPages (roundPages size) = roundPages size := by
  have hdvd := roundPages_dvd size
  have hlt := roundPages_lt size
  generalize roundPages size = s at hdvd hlt
  simp only [roundPages, pageSize_eq, u64]
  omega

/-- A non-zero result of `usable` is the end of a block followed by a large enough gap, and the gap
lies before another block. -/
theorem usable_gap {pm : PhysicalMemory} (h : pm.Ordered) {size p : ℕ}
    (hsize : roundPages size < 2 ^ 63) (hp : p ≠ 0) (heq : pm.usable size = p) :
    pm.Gap p (roundPages size) ∧ ∃ b ∈ pm.blocks, p + roundPages size ≤ b.addr := by
  obtain ⟨before, b, after, hl, hne, hb, hafter, hfit⟩ :=
    usableFrom_gap hp h.ascending (fun b hb => h.limit_lt hb) hsize (by simp)
      (fun b hb => h.limit_pos hb) heq
  have hasc := h.ascending
  rw [hl] at hasc
  obtain ⟨-, hcons, hcross⟩ := List.pairwise_append.mp hasc
  obtain ⟨c, hc⟩ := List.exists_mem_of_ne_nil _ hne
  refine ⟨⟨?_, ⟨b, by simp [hl], hb, ?_⟩, hfit⟩, c, by simp [hl, hc], hafter c hc⟩
  · intro c hc
    rw [hl] at hc
    cases List.mem_append.mp hc with
    | inl hc =>
      left
      have := hcross c hc b (by simp)
      simp only [Block.limit] at this hb ⊢
      omega
    | inr hc =>
      cases List.mem_cons.mp hc with
      | inl heq =>
        subst heq
        exact .inl hb.le
      | inr hc =>
        exact .inr (hafter c hc)
  · -- the sentinel is the last block, and `b` has a successor
    rintro rfl
    have h1 := (List.pairwise_cons.mp hcons).1 c hc
    have h2 := h.addr_le_range (b := c) (by simp [hl, hc])
    simp only [Block.limit, sentinel, pageSize_eq] at h1
    omega

namespace Gap
variable {pm : PhysicalMemory} {p size : ℕ}

lemma lower (h : pm.Ordered) (hg : pm.Gap p size) : 0x20000000 ≤ p := by
  obtain ⟨b, hb, rfl, hne⟩ := hg.ends
  rcases h.block b hb with rfl | hins | rfl
  · exact le_rfl
  · have := hins.lower
    simp only [Block.limit]
    omega
  · exact absurd rfl hne

lemma aligned (h : pm.Ordered) (hg : pm.Gap p size) : 4096 ∣ p := by
  obtain ⟨b, hb, rfl, hne⟩ := hg.ends
  rcases h.block b hb with rfl | hins | rfl
  · simp [Block.limit, reserved]
  · exact Nat.dvd_add hins.addr_aligned hins.size_aligned
  · exact absurd rfl hne

end Gap

/-! ### Insertion -/

/-- The memory after a block was spliced in between a prefix and a suffix of the list. -/
def spliced (pm : PhysicalMemory) (before : List Block) (blk : Block) (after : List Block)
    (cursor : ℕ) : PhysicalMemory :=
  { pm with blocks := before ++ blk :: after, currentBlock := some cursor }

/-- The block is separated from every listed block. -/
def Separated (pm : PhysicalMemory) (blk : Block) : Prop :=
  ∀ b ∈ pm.blocks, b.limit ≤ blk.addr ∨ blk.limit ≤ b.addr

/-- What an insertion that succeeds has done. -/
structure InsertedAt (pm : PhysicalMemory) (blk : Block) (pm' : PhysicalMemory) : Prop where
  result : ∃ before after c, pm.blocks = before ++ after ∧ pm' = pm.spliced before blk after c ∧
    c ≤ pm.blocks.length ∧ (∀ b ∈ before, b.limit ≤ blk.addr) ∧ ∀ b ∈ after, blk.limit ≤ b.addr

section Walks
variable {pm : PhysicalMemory} {blk : Block}

lemma insertIdx_eq_splice {l : List Block} {i : ℕ} (h : i ≤ l.length) (b : Block) :
    l.insertIdx i b = l.take i ++ b :: l.drop i := by
  induction l generalizing i with
  | nil =>
    obtain rfl : i = 0 := by simpa using h
    rfl
  | cons a l ih =>
    cases i with
    | zero => rfl
    | succ i => simp [List.insertIdx_succ_cons, ih (by simpa using h)]

/-- Every block up to one that ends before the new block ends before it too. -/
lemma before_of_getElem (h : pm.Ordered) {i : ℕ} {cur : Block}
    (hcur : pm.blocks[i]? = some cur) (hlt : cur.limit ≤ blk.addr) :
    ∀ b ∈ pm.blocks.take (i + 1), b.limit ≤ blk.addr := by
  intro b hb
  obtain ⟨j, hj, rfl⟩ := List.mem_take_iff_getElem.mp hb
  obtain ⟨hi, rfl⟩ := List.getElem?_eq_some_iff.mp hcur
  cases Nat.lt_or_ge j i with
  | inl hji =>
    have := List.pairwise_iff_getElem.mp h.ascending j i (by omega) hi hji
    simp only [Block.limit] at this hlt ⊢
    omega
  | inr hji =>
    obtain rfl : j = i := by omega
    exact hlt

/-- Every block from one that starts after the new block on starts after it too. -/
lemma after_of_getElem (h : pm.Ordered) {i : ℕ} {cur : Block}
    (hcur : pm.blocks[i]? = some cur) (hgt : blk.limit ≤ cur.addr) :
    ∀ b ∈ pm.blocks.drop i, blk.limit ≤ b.addr := by
  intro b hb
  obtain ⟨j, hj, rfl⟩ := List.mem_drop_iff_getElem.mp hb
  obtain ⟨hi, rfl⟩ := List.getElem?_eq_some_iff.mp hcur
  cases Nat.eq_zero_or_pos j with
  | inl heq =>
    subst heq
    simpa using hgt
  | inr hpos =>
    have := List.pairwise_iff_getElem.mp h.ascending i (i + j) hi (by omega) (by omega)
    simp only [Block.limit] at this hgt ⊢
    omega

/-- The walk to the front inserts the block, or finds no block before it. -/
lemma insertBackward_cases (h : pm.Ordered) (hsep : pm.Separated blk) {i : ℕ}
    (hi : i ≤ pm.blocks.length) (hafter : ∀ b ∈ pm.blocks.drop i, blk.limit ≤ b.addr) :
    (∃ pm', insertBackward pm blk i = .ok (0, pm') ∧ pm.InsertedAt blk pm') ∨
      (insertBackward pm blk i = .ok (-1, { pm with currentBlock := some 0 }) ∧
        ∀ b ∈ pm.blocks, blk.limit ≤ b.addr) := by
  induction i with
  | zero => exact .inr ⟨rfl, hafter⟩
  | succ i ih =>
    have hget : pm.blocks[i]? = some pm.blocks[i] := List.getElem?_eq_getElem (by omega)
    have hmem : pm.blocks[i] ∈ pm.blocks := List.getElem_mem _
    simp only [insertBackward, hget, Block.lt, h.endAddr_eq hmem]
    split_ifs with hlt
    · refine .inl ⟨_, rfl, ⟨pm.blocks.take (i + 1), pm.blocks.drop (i + 1), i, by simp, ?_, by omega,
        before_of_getElem h hget hlt, hafter⟩⟩
      rw [spliced, insertIdx_eq_splice hi]
    · -- the block met is not before the new one, so it lies behind it and the walk goes on
      have hgt := (hsep _ hmem).resolve_left hlt
      exact ih (by omega) (after_of_getElem h hget hgt)

lemma insertForward_spec (hsep : pm.Separated blk) {rest : List Block} {i : ℕ}
    (hblk : blk.limit < 2 ^ 64)
    (hasc : Ascending Block.addr Block.limit pm.blocks)
    (hrest : rest = pm.blocks.drop i) (hbefore : ∀ b ∈ pm.blocks.take i, b.limit ≤ blk.addr)
    (hsome : ∃ b ∈ rest, blk.limit ≤ b.addr) :
    ∃ pm', insertForward pm blk rest i = .ok (0, pm') ∧ pm.InsertedAt blk pm' := by
  induction rest generalizing i with
  | nil => simp at hsome
  | cons next rest ih =>
    have hlen : i < pm.blocks.length := by
      by_contra hge
      rw [List.drop_eq_nil_of_le (by omega)] at hrest
      simp at hrest
    have hcons := List.drop_eq_getElem_cons hlen
    rw [hcons] at hrest
    obtain ⟨rfl, htail⟩ := List.cons_eq_cons.mp hrest
    simp only [insertForward, Block.gt, Block.endAddr_eq hblk]
    split_ifs with hgt
    · refine ⟨_, rfl, ⟨pm.blocks.take i, pm.blocks.drop i, i + 1, by simp, ?_, by omega, hbefore,
        ?_⟩⟩
      · rw [spliced, insertIdx_eq_splice (by omega)]
      · intro b hb
        rw [hcons] at hb
        cases List.mem_cons.mp hb with
        | inl heq =>
          subst heq
          exact hgt
        | inr hb =>
          have hsub : Ascending Block.addr Block.limit (pm.blocks.drop i) :=
            hasc.sublist (List.drop_sublist ..)
          rw [hcons] at hsub
          have := (List.pairwise_cons.mp hsub).1 b hb
          simp only [Block.limit] at this hgt ⊢
          omega
    · have hlt := (hsep _ (List.getElem_mem hlen)).resolve_right hgt
      apply ih htail
      · intro b hb
        rw [← List.take_append_getElem hlen] at hb
        cases List.mem_append.mp hb with
        | inl hb =>
          exact hbefore b hb
        | inr hb =>
          rw [List.mem_singleton.mp hb]
          exact hlt
      · obtain ⟨b, hb, hbgt⟩ := hsome
        cases List.mem_cons.mp hb with
        | inl heq =>
          subst heq
          exact absurd hbgt hgt
        | inr hb =>
          exact ⟨b, hb, hbgt⟩

end Walks

/-- The block that `insert` makes for an address and a size. -/
def fresh (addr size : ℕ) : Block := ⟨addr, size, some fun _ => 0⟩

/-- No page array can be larger than the largest object. -/
lemma insert_huge {pm : PhysicalMemory} {size : ℕ} (h : 2 ^ 63 ≤ roundPages size) (p : ℕ) :
    pm.insert p size true = .error .badAlloc := by
  have hnew : Block.new p size true = .error .badAlloc := by
    have hnot : ¬ roundPages size < 2 ^ 63 := by omega
    simpa [Block.new, roundPages] using hnot
  simp [insert, hnew, bind, Except.bind]

/-- From every cursor position the walk stops at a place that keeps the list in order, or there is no
block before the new one. -/
theorem insert_cases {pm : PhysicalMemory} (h : pm.Ordered) (hcursor : pm.CursorValid) {p size : ℕ}
    (hgap : pm.Gap p size) (hnext : ∃ b ∈ pm.blocks, p + size ≤ b.addr) :
    (∃ pm', pm.insert p size true = .ok (0, pm') ∧ pm.InsertedAt (fresh p size) pm') ∨
      (pm.insert p size true = .ok (-1, { pm with currentBlock := some 0 }) ∧
        ∀ b ∈ pm.blocks, p + size ≤ b.addr) := by
  have hrange := h.range_lt
  have hlow := hgap.lower h
  have hfits := hgap.fits
  have hsep : pm.Separated (fresh p size) := fun b hb => hgap.clear b hb
  have hnew : Block.new p size true = .ok (fresh p size) := Block.new_backed (by omega)
  have hblk : (fresh p size).limit < 2 ^ 64 := by simp only [Block.limit, fresh]; omega
  obtain ⟨i, hcursor, hi⟩ := hcursor
  have hget : pm.blocks[i]? = some pm.blocks[i] := List.getElem?_eq_getElem hi
  have hmem : pm.blocks[i] ∈ pm.blocks := List.getElem_mem _
  have hstart : pm.insert p size true = if (fresh p size).limit ≤ pm.blocks[i].addr then
      insertBackward pm (fresh p size) i
    else if pm.blocks[i].limit ≤ p then
      insertForward pm (fresh p size) (pm.blocks.drop (i + 1)) (i + 1)
    else .ok (-1, pm) := by
    simp only [insert, hnew, hcursor, hget, bind, Except.bind, Block.gt, Block.lt,
      Block.endAddr_eq hblk, h.endAddr_eq hmem]
    rfl
  rw [hstart]
  split_ifs with hgt hlt
  · exact insertBackward_cases h hsep (by omega) (after_of_getElem h hget hgt)
  · have hbefore : ∀ b ∈ pm.blocks.take (i + 1), b.limit ≤ (fresh p size).addr :=
      before_of_getElem h hget hlt
    refine .inl (insertForward_spec hsep hblk h.ascending rfl hbefore ?_)
    obtain ⟨b, hb, hstart⟩ := hnext
    refine ⟨b, ?_, hstart⟩
    -- a block up to the cursor starts before the new one ends
    rw [← List.take_append_drop (i + 1) pm.blocks] at hb
    apply (List.mem_append.mp hb).resolve_left
    intro hin
    obtain ⟨j, hj, rfl⟩ := List.mem_take_iff_getElem.mp hin
    have hle : pm.blocks[j].addr ≤ pm.blocks[i].addr := by
      cases Nat.lt_or_ge j i with
      | inl hji =>
        have := List.pairwise_iff_getElem.mp h.ascending j i (by omega) hi hji
        simp only [Block.limit] at this
        omega
      | inr hji =>
        obtain rfl : j = i := by omega
        exact le_rfl
    exact hgt (hstart.trans hle)
  · exact absurd (hsep _ hmem) (by simp only [not_or]; exact ⟨hlt, hgt⟩)

/-- Whatever the list, an insertion that returns has added one block or none. -/
theorem insert_result {pm pm' : PhysicalMemory} {addr size : ℕ} {createPages : Bool} {status : Int}
    (h : pm.insert addr size createPages = .ok (status, pm')) :
    (status = 0 ∧ pm'.blocks.length = pm.blocks.length + 1) ∨
      (status ≠ 0 ∧ pm'.blocks = pm.blocks) := by
  have hbackward : ∀ blk i, insertBackward pm blk i = .ok (status, pm') →
      (status = 0 ∧ pm'.blocks.length = pm.blocks.length + 1) ∨ (status ≠ 0 ∧ pm'.blocks = pm.blocks) := by
    intro blk i hins
    induction i with
    | zero =>
      simp only [insertBackward, Except.ok.injEq, Prod.mk.injEq] at hins
      obtain ⟨rfl, rfl⟩ := hins
      exact .inr ⟨by norm_num, rfl⟩
    | succ i ih =>
      cases hget : pm.blocks[i]? with
      | none => simp [insertBackward, hget] at hins
      | some cur =>
        obtain ⟨hi, -⟩ := List.getElem?_eq_some_iff.mp hget
        simp only [insertBackward, hget] at hins
        split_ifs at hins
        · simp only [Except.ok.injEq, Prod.mk.injEq] at hins
          obtain ⟨rfl, rfl⟩ := hins
          exact .inl ⟨rfl, List.length_insertIdx_of_le_length hi blk⟩
        · exact ih hins
  have hforward : ∀ blk rest i, i + rest.length = pm.blocks.length →
      insertForward pm blk rest i = .ok (status, pm') →
      (status = 0 ∧ pm'.blocks.length = pm.blocks.length + 1) ∨ (status ≠ 0 ∧ pm'.blocks = pm.blocks) := by
    intro blk rest i hlen hins
    induction rest generalizing i with
    | nil => simp [insertForward] at hins
    | cons next rest ih =>
      simp only [List.length_cons] at hlen
      simp only [insertForward] at hins
      split_ifs at hins
      · simp only [Except.ok.injEq, Prod.mk.injEq] at hins
        obtain ⟨rfl, rfl⟩ := hins
        exact .inl ⟨rfl, List.length_insertIdx_of_le_length (by omega) blk⟩
      · exact ih (i + 1) (by omega) hins
  unfold insert at h
  cases hnew : Block.new addr size createPages with
  | error e => simp [hnew, bind, Except.bind] at h
  | ok blk =>
    simp only [hnew, bind, Except.bind] at h
    cases hcursor : pm.currentBlock with
    | none => simp [hcursor] at h
    | some i =>
      cases hget : pm.blocks[i]? with
      | none => simp [hcursor, hget] at h
      | some cur =>
        obtain ⟨hi, -⟩ := List.getElem?_eq_some_iff.mp hget
        simp only [hcursor, hget] at h
        split_ifs at h
        · exact hbackward blk i h
        · exact hforward blk _ (i + 1) (by rw [List.length_drop]; omega) h
        · simp only [Except.ok.injEq, Prod.mk.injEq] at h
          obtain ⟨rfl, rfl⟩ := h
          exact .inr ⟨by norm_num, rfl⟩

/-- An insertion at the address found by `usable` succeeds. -/
theorem insert_usable {pm : PhysicalMemory} (h : pm.Ordered) (hcursor : pm.CursorValid) {size : ℕ}
    (hround : roundPages size = size) (hpos : 0 < size) (hlt : size < 2 ^ 63)
    (hp : pm.usable size ≠ 0) : pm.Gap (pm.usable size) size ∧
      ∃ pm', pm.insert (pm.usable size) size true = .ok (0, pm') ∧
        pm.InsertedAt (fresh (pm.usable size) size) pm' := by
  obtain ⟨hgap, hnext⟩ := usable_gap h (by omega) hp rfl
  rw [hround] at hgap hnext
  refine ⟨hgap, (insert_cases h hcursor hgap hnext).resolve_right ?_⟩
  rintro ⟨-, hall⟩
  obtain ⟨b, hb, hend, -⟩ := hgap.ends
  have := hall b hb
  simp only [Block.limit] at hend
  omega

/-- What an insertion at the address found by `usable` has done, also for a block of no bytes. -/
lemma inserted_usable {pm pm' : PhysicalMemory} (h : pm.Ordered) (hcursor : pm.CursorValid) {size : ℕ}
    (hround : roundPages size = size) (hp : pm.usable size ≠ 0)
    (hins : pm.insert (pm.usable size) size true = .ok (0, pm')) : pm.Gap (pm.usable size) size ∧
      (∃ b ∈ pm.blocks, pm.usable size + size ≤ b.addr) ∧ pm.InsertedAt (fresh (pm.usable size) size) pm' := by
  have hsmall : roundPages size < 2 ^ 63 := by
    by_contra hhuge
    rw [insert_huge (Nat.not_lt.mp hhuge)] at hins
    cases hins
  obtain ⟨hgap, hnext⟩ := usable_gap h hsmall hp rfl
  rw [hround] at hgap hnext
  refine ⟨hgap, hnext, ?_⟩
  rcases insert_cases h hcursor hgap hnext with ⟨pm₁, hins₁, hat⟩ | ⟨hins₁, -⟩
  · rw [hins] at hins₁
    exact (Prod.mk.inj (Except.ok.inj hins₁)).2 ▸ hat
  · rw [hins] at hins₁
    cases hins₁

/-- The cursor designates a neighbour of the new block. -/
theorem InsertedAt.cursorValid {pm pm' : PhysicalMemory} {blk : Block} (hins : pm.InsertedAt blk pm') :
    pm'.CursorValid := by
  obtain ⟨before, after, c, hsplit, rfl, hc, -⟩ := hins.result
  refine ⟨c, rfl, ?_⟩
  have hlen : pm.blocks.length = before.length + after.length := by simp [hsplit]
  simp only [spliced, List.length_append, List.length_cons]
  omega

theorem InsertedAt.ordered {pm pm' : PhysicalMemory} (h : pm.Ordered) {p size : ℕ}
    (hgap : pm.Gap p size) (hsize : 4096 ∣ size) (hins : pm.InsertedAt (fresh p size) pm') :
    pm'.Ordered := by
  obtain ⟨before, after, c, hsplit, rfl, -, hbefore, hafter⟩ := hins.result
  have hnew : Inserted pm.maxRange (fresh p size) :=
    ⟨rfl, hgap.lower h, hgap.fits, hgap.aligned h, hsize⟩
  have hasc := h.ascending
  rw [hsplit] at hasc
  refine ⟨h.range_ge, h.range_le, h.range_aligned, ?_, hasc.splice hbefore hafter⟩
  intro b hb
  have hblock := h.block b
  simp only [spliced, hsplit, List.mem_append, List.mem_cons] at hb hblock ⊢
  rcases hb with hb | rfl | hb
  · exact hblock (.inl hb)
  · exact .inr (.inl hnew)
  · exact hblock (.inr hb)

/-- An insertion into a gap keeps the list well formed. -/
theorem InsertedAt.wellFormed {pm pm' : PhysicalMemory} (h : pm.WellFormed) {p size : ℕ}
    (hgap : pm.Gap p size) (hsize : 4096 ∣ size) (hins : pm.InsertedAt (fresh p size) pm') :
    pm'.WellFormed := by
  have hordered := hins.ordered h.ordered hgap hsize
  have hcursor := hins.cursorValid
  obtain ⟨before, after, c, hsplit, rfl, hc, hbefore, hafter⟩ := hins.result
  have hlow := hgap.lower h.ordered
  have hfits := hgap.fits
  have hnew : Inserted pm.maxRange (fresh p size) :=
    ⟨rfl, hlow, hfits, hgap.aligned h.ordered, hsize⟩
  refine ⟨h.range_ge, h.range_le, h.range_aligned, ?_, hordered.ascending, hcursor⟩
  · obtain ⟨mid, hmid, hinserted⟩ := h.shape
    -- the reserved block stays first and the sentinel last
    have hne : after ≠ [] := by
      rintro rfl
      have := hbefore (sentinel pm.maxRange) (by simpa [hsplit] using h.sentinel_mem)
      simp only [Block.limit, fresh, sentinel, pageSize_eq] at this
      omega
    cases before with
    | nil =>
      have := hafter reserved (by simpa [hsplit] using h.reserved_mem)
      simp only [Block.limit, fresh, reserved] at this
      omega
    | cons b0 before =>
      have hb0 : b0 = reserved := by
        have := hmid.symm.trans hsplit
        simp only [List.cons_append, List.cons.injEq] at this
        exact this.1.symm
      obtain ⟨front, last, rfl⟩ : ∃ front last, after = front ++ [last] :=
        ⟨after.dropLast, after.getLast hne, (List.dropLast_append_getLast hne).symm⟩
      have hrest : mid ++ [sentinel pm.maxRange] = (before ++ front) ++ [last] := by
        have := hmid.symm.trans hsplit
        simp only [List.cons_append, List.cons.injEq] at this
        simpa using this.2
      obtain ⟨hmid', hlast⟩ := List.append_inj' hrest rfl
      refine ⟨before ++ fresh p size :: front, ?_, ?_⟩
      · simp only [spliced, hb0, List.cons_append, List.append_assoc]
        simp only [List.cons.injEq, and_true] at hlast
        rw [hlast]
      · intro b hb
        cases List.mem_append.mp hb with
        | inl hb =>
          exact hinserted b (by simp [hmid', hb])
        | inr hb =>
          cases List.mem_cons.mp hb with
          | inl heq =>
            subst heq
            exact hnew
          | inr hb =>
            exact hinserted b (by simp [hmid', hb])

/-! ### Removal -/

lemma findRemove_some {addr i : ℕ} {l : List Block} {k : ℕ}
    (h : findRemove addr l k = some i) :
    k ≤ i ∧ ∃ b, l[i - k]? = some b ∧ b.addr ≤ addr ∧ addr < b.endAddr := by
  induction l generalizing k with
  | nil => simp [findRemove] at h
  | cons b rest ih =>
    simp only [findRemove] at h
    split_ifs at h with hin hstop
    · obtain rfl := Option.some.inj h
      exact ⟨le_rfl, b, by simp, hin.1, hin.2⟩
    · obtain ⟨hk, c, hc, hin'⟩ := ih h
      refine ⟨by omega, c, ?_, hin'⟩
      rw [show i - k = i - (k + 1) + 1 by omega, List.getElem?_cons_succ]
      exact hc

/-- The address lies in the allocatable range and outside the block that the cursor designates. -/
def Removable (pm : PhysicalMemory) (addr : ℕ) : Prop :=
  0x20000000 ≤ addr ∧ addr < pm.maxRange ∧
    ∀ i b, pm.currentBlock = some i → pm.blocks[i]? = some b → ¬ b.eqPos addr

instance (pm : PhysicalMemory) (addr : ℕ) : Decidable (pm.Removable addr) :=
  decidable_of_iff (0x20000000 ≤ addr ∧ addr < pm.maxRange ∧
      ∀ b ∈ pm.currentBlock.bind fun i => pm.blocks[i]?, ¬ b.eqPos addr) <| by
    simp only [Removable, Option.mem_def, Option.bind_eq_some_iff, forall_exists_index, and_imp]
    exact and_congr_right fun _ => and_congr_right fun _ => forall_comm

theorem remove_wellFormed {pm : PhysicalMemory} (h : pm.WellFormed) {addr : ℕ}
    (hrem : pm.Removable addr) : (pm.remove addr).2.WellFormed := by
  unfold remove
  cases hfind : findRemove addr pm.blocks 0 with
  | none => exact h
  | some i =>
    obtain ⟨-, b, hget, hlow, hhigh⟩ := findRemove_some hfind
    rw [Nat.sub_zero] at hget
    obtain ⟨hi, hb⟩ := List.getElem?_eq_some_iff.mp hget
    obtain ⟨c, hcursor, hc⟩ := h.cursor
    have hmem : b ∈ pm.blocks := hb ▸ List.getElem_mem _
    have hci : c ≠ i := by
      rintro rfl
      exact hrem.2.2 c b hcursor hget ⟨hlow, hhigh⟩
    obtain ⟨mid, hmid, hins⟩ := h.shape
    have hipos : i ≠ 0 := by
      rintro rfl
      rw [hmid] at hget
      obtain rfl := Option.some.inj hget
      rw [h.endAddr_eq hmem] at hhigh
      simp only [Block.limit, reserved] at hhigh
      have := hrem.1
      omega
    obtain ⟨j, rfl⟩ := Nat.exists_eq_succ_of_ne_zero hipos
    have hj : j < mid.length := by
      simp only [hmid, List.length_cons, List.length_append, List.length_nil] at hi
      by_contra hge
      have hjeq : j = mid.length := by omega
      simp only [hmid, hjeq, Nat.succ_eq_add_one, List.getElem?_cons_succ,
        List.getElem?_concat_length, Option.some.injEq] at hget
      have := hrem.2.1
      rw [← hget] at hlow
      simp only [sentinel] at hlow
      omega
    refine ⟨h.range_ge, h.range_le, h.range_aligned, ⟨mid.eraseIdx j, ?_, ?_⟩, ?_, ?_⟩
    · simp only [hmid, List.eraseIdx_cons_succ, Nat.succ_eq_add_one]
      rw [List.eraseIdx_append_of_lt_length hj]
    · exact fun b hb => hins b (List.mem_of_mem_eraseIdx hb)
    · exact h.ascending.sublist (List.eraseIdx_sublist ..)
    · have hlen := List.length_eraseIdx_of_lt hi
      simp only [hcursor, cursorAfterErase, if_neg hci]
      split_ifs with hlt
      · exact ⟨c - 1, rfl, by simp only [hlen]; omega⟩
      · exact ⟨c, rfl, by simp only [hlen]; omega⟩

/-! ### Runs -/

/-- A use of the block list: allocate at the address found by `usable`, or remove. -/
inductive BlockOp
  | insert (size : ℕ)
  | remove (addr : ℕ)

/-- Sizes of an allocation step: a positive number of pages within the range. -/
def PageSized (pm : PhysicalMemory) (size : ℕ) : Prop :=
  0 < size ∧ 4096 ∣ size ∧ size ≤ pm.maxRange

instance (pm : PhysicalMemory) (size : ℕ) : Decidable (pm.PageSized size) :=
  inferInstanceAs (Decidable (_ ∧ _))

/-- Runs of `usable` followed by `insert`, and of `remove` away from the cursor. -/
def blockSystem (range : ℕ) : TransitionSystem PhysicalMemory BlockOp where
  init pm := pm = new range
  step pm op pm' :=
    match op with
    | .insert size => pm.PageSized size ∧
        if pm.usable size = 0 then pm' = pm
        else ∃ status, pm.insert (pm.usable size) size true = .ok (status, pm')
    | .remove addr => pm.Removable addr ∧ pm' = (pm.remove addr).2

/-- Such an insertion succeeds, adds the block and keeps the list well formed. -/
theorem insert_pageSized {pm : PhysicalMemory} (h : pm.WellFormed) {size : ℕ}
    (hsize : pm.PageSized size) (hp : pm.usable size ≠ 0) :
    ∃ pm', pm.insert (pm.usable size) size true = .ok (0, pm') ∧ pm'.WellFormed ∧
      pm.InsertedAt (fresh (pm.usable size) size) pm' := by
  obtain ⟨hpos, hdvd, hle⟩ := hsize
  have hrange := h.range_lt
  obtain ⟨hgap, pm', hins, hat⟩ := insert_usable h.ordered h.cursor
    (roundPages_of_dvd hdvd (by omega)) hpos (by omega) hp
  exact ⟨pm', hins, hat.wellFormed h hgap hdvd, hat⟩

theorem blockSystem_step {pm pm' : PhysicalMemory} {range : ℕ} {op : BlockOp}
    (h : pm.WellFormed) (hstep : (blockSystem range).step pm op pm') : pm'.WellFormed := by
  cases op with
  | insert size =>
    obtain ⟨hsize, htaken⟩ := hstep
    split_ifs at htaken with hp
    · exact htaken ▸ h
    · obtain ⟨status, hins⟩ := htaken
      obtain ⟨pm'', hins', hwf, -⟩ := insert_pageSized h hsize hp
      rw [hins] at hins'
      obtain ⟨rfl, rfl⟩ := Prod.mk.inj (Except.ok.inj hins')
      exact hwf
  | remove addr =>
    obtain ⟨hrem, rfl⟩ := hstep
    exact remove_wellFormed h hrem

/-- In every run every insertion succeeds and puts its block between two listed ones, and every state has a
well-formed block list. -/
theorem blockList_invariant {range : ℕ} (hrange : 0x20000000 ≤ range) {pm : PhysicalMemory}
    (h : (blockSystem range).Reachable pm) :
    pm.WellFormed ∧ ∀ size, pm.PageSized size → pm.usable size ≠ 0 →
      ∃ pm' before after, pm.insert (pm.usable size) size true = .ok (0, pm') ∧
        pm.blocks = before ++ after ∧ pm'.blocks = before ++ fresh (pm.usable size) size :: after := by
  have hwf : pm.WellFormed := h.invariant
    (fun _ hinit => hinit ▸ new_wellFormed hrange) fun _ _ _ hs _ hstep => blockSystem_step hs hstep
  refine ⟨hwf, fun size hsize hp => ?_⟩
  obtain ⟨pm', hins, -, hat⟩ := insert_pageSized hwf hsize hp
  obtain ⟨before, after, c, hsplit, rfl, -⟩ := hat.result
  exact ⟨_, before, after, hins, hsplit, rfl⟩

/-- Execute a use that is allowed. -/
def execOp (pm : PhysicalMemory) : BlockOp → Option PhysicalMemory
  | .insert size =>
    if pm.PageSized size then
      if pm.usable size = 0 then some pm
      else (pm.insert (pm.usable size) size true).toOption.map Prod.snd
    else none
  | .remove addr => if pm.Removable addr then some (pm.remove addr).2 else none

lemma execOp_step {pm pm' : PhysicalMemory} {range : ℕ} {op : BlockOp} (h : pm.execOp op = some pm') :
    (blockSystem range).step pm op pm' := by
  cases op with
  | insert size =>
    simp only [execOp] at h
    split_ifs at h with hsize hp
    · exact ⟨hsize, by rw [if_pos hp]; exact (Option.some.inj h).symm⟩
    · refine ⟨hsize, ?_⟩
      rw [if_neg hp]
      cases hins : pm.insert (pm.usable size) size true with
      | error fault => simp [hins, Except.toOption] at h
      | ok r =>
        rw [hins] at h
        exact ⟨r.1, congrArg Except.ok (Prod.ext rfl (Option.some.inj h))⟩
  | remove addr =>
    simp only [execOp] at h
    split_ifs at h with hrem
    exact ⟨hrem, (Option.some.inj h).symm⟩

/-- Three blocks are inserted and the middle one is removed. Its place is found again. -/
theorem blockList_invariant_reused : ∃ pm pm' before after,
    [.insert 4096, .insert 8192, .insert 4096, .remove 0x20002000].foldlM execOp (new 0x20010000) = some pm ∧
    pm.WellFormed ∧ pm.insert 0x20001000 4096 true = .ok (0, pm') ∧
    pm.blocks = before ++ after ∧ pm'.blocks = before ++ fresh 0x20001000 4096 :: after := by
  have hrun : ([.insert 4096, .insert 8192, .insert 4096, .remove 0x20002000].foldlM execOp
      (new 0x20010000)).map (fun pm => (pm.usable 4096, pm.maxRange)) = some (0x20001000, 0x20010000) := by
    decide +kernel
  obtain ⟨pm, hpm, hfound⟩ := Option.map_eq_some_iff.mp hrun
  obtain ⟨husable, hrange⟩ := Prod.mk.inj hfound
  have hstart : (blockSystem 0x20010000).Reachable (new 0x20010000) := .start rfl
  have hreach := hstart.run (fun _ _ _ _ hexec => ⟨trivial, execOp_step hexec⟩) hpm
  obtain ⟨hwf, hins⟩ := blockList_invariant (by decide) hreach
  obtain ⟨pm', before, after, hinsert, hsplit, hnew⟩ :=
    hins 4096 ⟨by decide, by decide, by rw [hrange]; decide⟩ (by rw [husable]; decide)
  rw [husable] at hinsert hnew
  exact ⟨pm, pm', before, after, hpm, hwf, hinsert, hsplit, hnew⟩

end PhysicalMemory
end VentusDriver
