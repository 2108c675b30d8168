import VentusDriver.Device.BlockList

/-! Insertions at any address. The walk from the cursor compares the new block with the blocks that it
meets only: it notices an overlap with the block at the cursor, and one that leaves no block before the
new one. -/
namespace VentusDriver
open Foundation Foundation.Intervals Sv39

namespace Block

/-- Neither block ends before the other starts. -/
def Overlaps (b blk : Block) : Prop := blk.addr < b.limit ∧ b.addr < blk.limit

/-- The block that the constructor makes. -/
def made (addr size : ℕ) (createPages : Bool) : Block :=
  ⟨addr, size, if createPages then some fun _ => 0 else none⟩

lemma new_made {addr size : ℕ} (createPages : Bool) (h : size < 2 ^ 63 - 4096) :
    Block.new addr size createPages = .ok (made addr size createPages) := by
  cases createPages with
  | false => rfl
  | true => exact new_backed h

end Block

namespace PhysicalMemory
variable {pm : PhysicalMemory} {blk : Block}

/-! ### The walks -/

/-- The walk to the front inserts behind the first block that it finds before the new one. -/
lemma insertBackward_walk {i : ℕ} (hi : i ≤ pm.blocks.length) :
    (∃ before cur after, pm.blocks.take i = before ++ cur :: after ∧ cur.lt blk ∧
      (∀ b ∈ after, ¬ b.lt blk) ∧ insertBackward pm blk i =
        .ok (0, pm.spliced (before ++ [cur]) blk (after ++ pm.blocks.drop i) before.length)) ∨
    ((∀ b ∈ pm.blocks.take i, ¬ b.lt blk) ∧
      insertBackward pm blk i = .ok (-1, { pm with currentBlock := some 0 })) := by
  induction i with
  | zero => exact .inr ⟨by simp, rfl⟩
  | succ i ih =>
    have hlen : i < pm.blocks.length := hi
    have hget : pm.blocks[i]? = some pm.blocks[i] := List.getElem?_eq_getElem hlen
    have htake := List.take_append_getElem hlen
    have hdrop := List.drop_eq_getElem_cons hlen
    simp only [insertBackward, hget]
    by_cases hlt : pm.blocks[i].lt blk
    · refine .inl ⟨pm.blocks.take i, pm.blocks[i], [], htake.symm, hlt, by simp, ?_⟩
      rw [if_pos hlt, insertIdx_eq_splice hi, htake, List.nil_append, spliced]
      simp [Nat.min_eq_left hlen.le]
    · rw [if_neg hlt]
      cases ih hlen.le with
      | inl hfound =>
        obtain ⟨before, cur, after, hsplit, hcur, hafter, heq⟩ := hfound
        refine .inl ⟨before, cur, after ++ [pm.blocks[i]], ?_, hcur, ?_, ?_⟩
        · rw [← htake, hsplit]
          simp
        · intro b hb
          cases List.mem_append.mp hb with
          | inl hb => exact hafter b hb
          | inr hb =>
            rw [List.mem_singleton.mp hb]
            exact hlt
        · rw [heq, hdrop]
          simp
      | inr hnone =>
        refine .inr ⟨?_, hnone.2⟩
        intro b hb
        rw [← htake] at hb
        cases List.mem_append.mp hb with
        | inl hb => exact hnone.1 b hb
        | inr hb =>
          rw [List.mem_singleton.mp hb]
          exact hlt

/-- The walk to the end inserts before the first block that it finds behind the new one, and runs off
the list when there is none. -/
lemma insertForward_walk {pre rest : List Block} (hsplit : pm.blocks = pre ++ rest) :
    (∃ passed next after, rest = passed ++ next :: after ∧ next.gt blk ∧
      (∀ b ∈ passed, ¬ b.gt blk) ∧ insertForward pm blk rest pre.length =
        .ok (0, pm.spliced (pre ++ passed) blk (next :: after) (pre.length + passed.length + 1))) ∨
    ((∀ b ∈ rest, ¬ b.gt blk) ∧ insertForward pm blk rest pre.length = .error .undefined) := by
  induction rest generalizing pre with
  | nil => exact .inr ⟨by simp, rfl⟩
  | cons next rest ih =>
    simp only [insertForward]
    by_cases hgt : next.gt blk
    · refine .inl ⟨[], next, rest, rfl, hgt, by simp, ?_⟩
      rw [if_pos hgt, insertIdx_eq_splice (by simp [hsplit]), spliced]
      simp [hsplit]
    · rw [if_neg hgt]
      have hnext := ih (show pm.blocks = (pre ++ [next]) ++ rest by simp [hsplit])
      have hlen : (pre ++ [next]).length = pre.length + 1 := by simp
      rw [hlen] at hnext
      cases hnext with
      | inl hfound =>
        obtain ⟨passed, b, after, hrest, hb, hpassed, heq⟩ := hfound
        refine .inl ⟨next :: passed, b, after, by rw [hrest]; rfl, hb, ?_, ?_⟩
        · intro c hc
          cases List.mem_cons.mp hc with
          | inl heq =>
            subst heq
            exact hgt
          | inr hc => exact hpassed c hc
        · rw [heq, List.length_cons, List.append_assoc]
          congr 4
          omega
      | inr hnone =>
        refine .inr ⟨?_, hnone.2⟩
        intro c hc
        cases List.mem_cons.mp hc with
        | inl heq =>
          subst heq
          exact hgt
        | inr hc => exact hnone.1 c hc

/-! ### What an insertion should do -/

/-- An ascending list of disjoint blocks from the reserved block to the sentinel. -/
structure Enclosed (pm : PhysicalMemory) : Prop where
  range_le : pm.maxRange ≤ maxPhyRange
  ascending : Ascending Block.addr Block.limit pm.blocks
  first : pm.blocks.head? = some reserved
  last : pm.blocks.getLast? = some (sentinel pm.maxRange)

/-- The list with the new block behind all blocks that end before it. -/
def withBlock (l : List Block) (blk : Block) : List Block :=
  l.filter (fun b => b.limit ≤ blk.addr) ++ blk :: l.filter fun b => ¬ b.limit ≤ blk.addr

/-- An overlap with any listed block is refused and changes no block; any other block is added in its
place. The cursor does not matter. -/
def InsertsExactly (pm : PhysicalMemory) (addr size : ℕ) (createPages : Bool) : Prop :=
  ((∃ b ∈ pm.blocks, b.Overlaps (Block.made addr size createPages)) →
    ∃ pm', pm.insert addr size createPages = .ok (-1, pm') ∧ pm'.blocks = pm.blocks) ∧
  ((∀ b ∈ pm.blocks, ¬ b.Overlaps (Block.made addr size createPages)) →
    ∃ pm', pm.insert addr size createPages = .ok (0, pm') ∧
      pm'.blocks = withBlock pm.blocks (Block.made addr size createPages) ∧
      Ascending Block.addr Block.limit pm'.blocks)

/-- The place of the new block is the one between the blocks before it and those behind it. -/
lemma withBlock_append {before after : List Block} (hsize : 0 < blk.size)
    (hbefore : ∀ b ∈ before, b.limit ≤ blk.addr) (hafter : ∀ b ∈ after, blk.limit ≤ b.addr) :
    withBlock (before ++ after) blk = before ++ blk :: after := by
  have hbehind : ∀ b ∈ after, ¬ b.limit ≤ blk.addr := by
    intro b hb
    have := hafter b hb
    simp only [Block.limit] at this ⊢
    omega
  have hlow : before.filter (fun b => b.limit ≤ blk.addr) = before := by
    rw [List.filter_eq_self]
    simpa using hbefore
  have hlow' : after.filter (fun b => b.limit ≤ blk.addr) = [] := by
    rw [List.filter_eq_nil_iff]
    simpa using hbehind
  have hhigh : before.filter (fun b => ¬ b.limit ≤ blk.addr) = [] := by
    rw [List.filter_eq_nil_iff]
    simpa using hbefore
  have hhigh' : after.filter (fun b => ¬ b.limit ≤ blk.addr) = after := by
    rw [List.filter_eq_self]
    simpa using hbehind
  rw [withBlock, List.filter_append, List.filter_append, hlow, hlow', hhigh, hhigh']
  simp

namespace Enclosed

lemma reserved_mem (h : pm.Enclosed) : reserved ∈ pm.blocks := List.mem_of_mem_head? h.first

lemma sentinel_mem (h : pm.Enclosed) : sentinel pm.maxRange ∈ pm.blocks :=
  List.mem_of_getLast? h.last

/-- Every block is the sentinel or ends at its start at the latest. -/
lemma limit_le (h : pm.Enclosed) {b : Block} (hb : b ∈ pm.blocks) :
    b = sentinel pm.maxRange ∨ b.limit ≤ pm.maxRange := by
  obtain ⟨init, hinit⟩ := List.getLast?_eq_some_iff.mp h.last
  have hasc := h.ascending
  rw [hinit] at hb hasc
  cases List.mem_append.mp hb with
  | inl hb => exact .inr ((List.pairwise_append.mp hasc).2.2 b hb _ (List.mem_singleton_self _))
  | inr hb => exact .inl (List.mem_singleton.mp hb)

lemma endAddr_eq (h : pm.Enclosed) {b : Block} (hb : b ∈ pm.blocks) : b.endAddr = b.limit := by
  have hrange : pm.maxRange ≤ 2 ^ 56 := h.range_le
  apply Block.endAddr_eq
  cases h.limit_le hb with
  | inl heq =>
    rw [heq]
    simp only [Block.limit, sentinel, pageSize_eq]
    omega
  | inr hle => omega

lemma lt_iff (h : pm.Enclosed) {b : Block} (hb : b ∈ pm.blocks) : b.lt blk ↔ b.limit ≤ blk.addr := by
  rw [Block.lt, h.endAddr_eq hb]

/-- Every block is the reserved one or starts behind it. -/
lemma addr_ge (h : pm.Enclosed) {b : Block} (hb : b ∈ pm.blocks) :
    b = reserved ∨ 0x20000000 ≤ b.addr := by
  obtain ⟨rest, hrest⟩ := List.head?_eq_some_iff.mp h.first
  have hasc := h.ascending
  rw [hrest] at hb hasc
  cases List.mem_cons.mp hb with
  | inl heq => exact .inl heq
  | inr hb => exact .inr ((List.pairwise_cons.mp hasc).1 b hb)

/-- The blocks up to one that ends before `x` end before it. -/
lemma before_le (h : pm.Enclosed) {before after : List Block} {cur : Block} {x : ℕ}
    (hsplit : pm.blocks = before ++ cur :: after) (hcur : cur.limit ≤ x) :
    ∀ b ∈ before ++ [cur], b.limit ≤ x := by
  have hasc := h.ascending
  rw [hsplit] at hasc
  intro b hb
  cases List.mem_append.mp hb with
  | inl hb =>
    have hle : b.limit ≤ cur.addr := (List.pairwise_append.mp hasc).2.2 b hb cur List.mem_cons_self
    simp only [Block.limit] at hle hcur ⊢
    omega
  | inr hb =>
    rw [List.mem_singleton.mp hb]
    exact hcur

/-- The blocks from one that starts at `x` or later on start there or later. -/
lemma le_behind (h : pm.Enclosed) {before after : List Block} {cur : Block} {x : ℕ}
    (hsplit : pm.blocks = before ++ cur :: after) (hcur : x ≤ cur.addr) :
    ∀ b ∈ cur :: after, x ≤ b.addr := by
  have hasc := h.ascending
  rw [hsplit] at hasc
  intro b hb
  cases List.mem_cons.mp hb with
  | inl heq =>
    rw [heq]
    exact hcur
  | inr hb =>
    have hle : cur.limit ≤ b.addr :=
      (List.pairwise_cons.mp (List.pairwise_append.mp hasc).2.1).1 b hb
    simp only [Block.limit] at hle
    omega

end Enclosed

section Walk
variable {addr size i : ℕ} {createPages : Bool} {cur : Block}

/-- A splice in the right place is what the insertion should do. -/
lemma insertsExactly_of_spliced (h : pm.Enclosed) (hpos : 0 < size) {before after : List Block} {c : ℕ}
    (hsplit : pm.blocks = before ++ after) (hbefore : ∀ b ∈ before, b.limit ≤ addr)
    (hafter : ∀ b ∈ after, addr + size ≤ b.addr)
    (heq : pm.insert addr size createPages =
      .ok (0, pm.spliced before (Block.made addr size createPages) after c)) :
    pm.InsertsExactly addr size createPages := by
  have hasc := h.ascending
  rw [hsplit] at hasc
  refine ⟨?_, fun _ => ⟨_, heq, ?_, hasc.splice hbefore hafter⟩⟩
  · -- no block overlaps
    intro hover
    obtain ⟨b, hb, hstart, hend⟩ := hover
    rw [hsplit] at hb
    cases List.mem_append.mp hb with
    | inl hb => exact absurd (hbefore b hb) (Nat.not_le.mpr hstart)
    | inr hb => exact absurd (hafter b hb) (Nat.not_le.mpr hend)
  · rw [hsplit]
    exact (withBlock_append hpos hbefore hafter).symm

/-- An insertion that returns 0 or is undefined is wrong when a block overlaps. -/
lemma not_insertsExactly (hover : ∃ b ∈ pm.blocks, b.Overlaps (Block.made addr size createPages))
    (heq : ∀ pm', pm.insert addr size createPages ≠ .ok (-1, pm')) :
    ¬ pm.InsertsExactly addr size createPages := by
  intro h
  obtain ⟨pm', hres, -⟩ := h.1 hover
  exact heq pm' hres

/-- An insertion that returns 0 is right exactly when no block overlaps, if no block that it put before
the new one lies behind it, and none that it put behind the new one lies before it. -/
lemma insertsExactly_iff_clear (h : pm.Enclosed) (hpos : 0 < size) {before after : List Block} {c : ℕ}
    (hsplit : pm.blocks = before ++ after) (hbefore : ∀ b ∈ before, ¬ addr + size ≤ b.addr)
    (hafter : ∀ b ∈ after, ¬ b.limit ≤ addr)
    (heq : pm.insert addr size createPages =
      .ok (0, pm.spliced before (Block.made addr size createPages) after c)) :
    pm.InsertsExactly addr size createPages ↔
      ∀ b ∈ pm.blocks, ¬ b.Overlaps (Block.made addr size createPages) := by
  constructor
  · intro hexact b hb hover
    refine not_insertsExactly ⟨b, hb, hover⟩ (fun pm' hres => ?_) hexact
    rw [heq] at hres
    simp at hres
  · intro hclear
    apply insertsExactly_of_spliced h hpos hsplit ?_ ?_ heq
    · intro b hb
      have hmem : b ∈ pm.blocks := hsplit ▸ List.mem_append_left _ hb
      by_contra hnot
      exact hclear b hmem ⟨Nat.lt_of_not_le hnot, Nat.lt_of_not_le (hbefore b hb)⟩
    · intro b hb
      have hmem : b ∈ pm.blocks := hsplit ▸ List.mem_append_right _ hb
      by_contra hnot
      exact hclear b hmem ⟨Nat.lt_of_not_le (hafter b hb), Nat.lt_of_not_le hnot⟩

lemma insert_walks (createPages : Bool) (h : pm.Enclosed) (hend : addr + size ≤ (sentinel pm.maxRange).limit)
    (hcursor : pm.currentBlock = some i) (hcur : pm.blocks[i]? = some cur) :
    pm.insert addr size createPages =
      if addr + size ≤ cur.addr then insertBackward pm (Block.made addr size createPages) i
      else if cur.limit ≤ addr then insertForward pm (Block.made addr size createPages)
        (pm.blocks.drop (i + 1)) (i + 1)
      else .ok (-1, pm) := by
  have hrange : pm.maxRange ≤ 2 ^ 56 := h.range_le
  have hlimit : (Block.made addr size createPages).limit < 2 ^ 64 := by
    simp only [Block.limit, sentinel, pageSize_eq] at hend
    simp only [Block.limit, Block.made]
    omega
  have hnew : Block.new addr size createPages = .ok (Block.made addr size createPages) := by
    apply Block.new_made
    simp only [Block.limit, sentinel, pageSize_eq] at hend
    omega
  simp only [insert, hnew, hcursor, hcur, bind, Except.bind, Block.gt, Block.lt,
    Block.endAddr_eq hlimit, h.endAddr_eq (List.mem_of_getElem? hcur)]
  rfl

/-- From a cursor behind the new block the walk goes wrong when an overlap lies in between, unless no
block lies before the new one. -/
theorem insertsExactly_iff_of_gt (h : pm.Enclosed) (hpos : 0 < size)
    (hend : addr + size ≤ (sentinel pm.maxRange).limit) (hcursor : pm.currentBlock = some i)
    (hcur : pm.blocks[i]? = some cur) (hgt : addr + size ≤ cur.addr) :
    pm.InsertsExactly addr size createPages ↔
      (∀ b ∈ pm.blocks, ¬ b.Overlaps (Block.made addr size createPages)) ∨ addr < 0x20000000 := by
  obtain ⟨hi, hget⟩ := List.getElem?_eq_some_iff.mp hcur
  have hinsert := insert_walks createPages h hend hcursor hcur
  rw [if_pos hgt] at hinsert
  -- the blocks from the cursor on lie behind the new one
  have hsplit : pm.blocks = pm.blocks.take i ++ pm.blocks[i] :: pm.blocks.drop (i + 1) := by
    rw [← List.drop_eq_getElem_cons hi, List.take_append_drop]
  have hbehind : ∀ b ∈ pm.blocks.drop i, addr + size ≤ b.addr := by
    rw [List.drop_eq_getElem_cons hi]
    exact h.le_behind hsplit (hget ▸ hgt)
  cases @insertBackward_walk pm (Block.made addr size createPages) i hi.le with
  | inl hfound =>
    obtain ⟨before, c, after, htake, hlt, hafter, heq⟩ := hfound
    rw [← hinsert] at heq
    have hsplit' : pm.blocks = before ++ c :: (after ++ pm.blocks.drop i) := by
      rw [← List.cons_append, ← List.append_assoc, ← htake, List.take_append_drop]
    have hc : c ∈ pm.blocks := by
      rw [hsplit']
      simp
    have hclt : c.limit ≤ addr := (h.lt_iff hc).mp hlt
    have hreserved : ¬ addr < 0x20000000 := by
      cases h.addr_ge hc with
      | inl heq =>
        rw [heq] at hclt
        simp only [Block.limit, reserved] at hclt
        omega
      | inr hge =>
        simp only [Block.limit] at hclt
        omega
    have hplace : pm.blocks = (before ++ [c]) ++ (after ++ pm.blocks.drop i) := by
      rw [List.append_assoc]
      exact hsplit'
    rw [insertsExactly_iff_clear h hpos hplace ?_ ?_ heq, or_iff_left hreserved]
    · intro b hb
      have hle := h.before_le hsplit' hclt b hb
      simp only [Block.limit] at hle
      omega
    · intro b hb
      cases List.mem_append.mp hb with
      | inl hb =>
        -- a block that the walk passed does not end before the new one
        have hnotlt := hafter b hb
        rwa [h.lt_iff (hsplit' ▸ by simp [hb])] at hnotlt
      | inr hb =>
        have hle := hbehind b hb
        simp only [Block.limit]
        omega
  | inr hnone =>
    rw [hnone.2] at hinsert
    -- the reserved block is among those that the walk passed
    have hreserved : addr < 0x20000000 := by
      have hmem := h.reserved_mem
      rw [← List.take_append_drop i pm.blocks] at hmem
      cases List.mem_append.mp hmem with
      | inl hmem =>
        have hnotlt := hnone.1 reserved hmem
        rw [h.lt_iff h.reserved_mem] at hnotlt
        simpa [Block.limit, reserved, Block.made] using hnotlt
      | inr hmem =>
        have hle := hbehind reserved hmem
        simp only [reserved] at hle
        omega
    have hover : reserved.Overlaps (Block.made addr size createPages) := by
      refine ⟨hreserved, ?_⟩
      simp only [Block.limit, reserved, Block.made]
      omega
    refine ⟨fun _ => .inr hreserved, fun _ => ⟨fun _ => ⟨_, hinsert, rfl⟩, fun hclear => ?_⟩⟩
    exact absurd hover (hclear reserved h.reserved_mem)

/-- From a cursor before the new block the walk notices no overlap. -/
theorem insertsExactly_iff_of_lt (h : pm.Enclosed) (hpos : 0 < size)
    (hend : addr + size ≤ (sentinel pm.maxRange).limit) (hcursor : pm.currentBlock = some i)
    (hcur : pm.blocks[i]? = some cur) (hlt : cur.limit ≤ addr) :
    pm.InsertsExactly addr size createPages ↔
      ∀ b ∈ pm.blocks, ¬ b.Overlaps (Block.made addr size createPages) := by
  obtain ⟨hi, hget⟩ := List.getElem?_eq_some_iff.mp hcur
  have hinsert := insert_walks createPages h hend hcursor hcur
  have hnotgt : ¬ addr + size ≤ cur.addr := by
    simp only [Block.limit] at hlt
    omega
  rw [if_neg hnotgt, if_pos hlt] at hinsert
  have hlen : (pm.blocks.take (i + 1)).length = i + 1 := by
    rw [List.length_take]
    omega
  have hsplit : pm.blocks = pm.blocks.take i ++ pm.blocks[i] :: pm.blocks.drop (i + 1) := by
    rw [← List.drop_eq_getElem_cons hi, List.take_append_drop]
  have hbefore : ∀ b ∈ pm.blocks.take (i + 1), b.limit ≤ addr := by
    rw [← List.take_append_getElem hi]
    exact h.before_le hsplit (hget ▸ hlt)
  have hwalk := @insertForward_walk pm (Block.made addr size createPages) _ _
    (List.take_append_drop (i + 1) pm.blocks).symm
  rw [hlen, ← hinsert] at hwalk
  have hlimit : (Block.made addr size createPages).endAddr = addr + size := by
    have hrange : pm.maxRange ≤ 2 ^ 56 := h.range_le
    apply Block.endAddr_eq
    simp only [Block.limit, sentinel, pageSize_eq] at hend
    simp only [Block.limit, Block.made]
    omega
  cases hwalk with
  | inl hfound =>
    obtain ⟨passed, next, after, hrest, hgt, hpassed, heq⟩ := hfound
    rw [Block.gt, hlimit] at hgt
    have hsplit' : pm.blocks = pm.blocks.take (i + 1) ++ passed ++ next :: after := by
      rw [List.append_assoc, ← hrest, List.take_append_drop]
    refine insertsExactly_iff_clear h hpos hsplit' ?_ ?_ heq
    · intro b hb
      cases List.mem_append.mp hb with
      | inl hb =>
        have hle := hbefore b hb
        simp only [Block.limit] at hle
        omega
      | inr hb =>
        -- a block that the walk passed does not start behind the new one
        have hnotgt := hpassed b hb
        rwa [Block.gt, hlimit] at hnotgt
    · intro b hb
      have hle := h.le_behind hsplit' hgt b hb
      simp only [Block.limit]
      omega
  | inr hnone =>
    refine ⟨fun hexact b hb hover => ?_, fun hclear => ?_⟩
    · refine not_insertsExactly ⟨b, hb, hover⟩ (fun pm' hres => ?_) hexact
      rw [hnone.2] at hres
      cases hres
    · -- the sentinel overlaps: it neither ends before the new block nor starts behind it
      have hmem := h.sentinel_mem
      rw [← List.take_append_drop (i + 1) pm.blocks] at hmem
      have hnotlt : ¬ (sentinel pm.maxRange).limit ≤ addr := by omega
      cases List.mem_append.mp hmem with
      | inl hmem => exact absurd (hbefore _ hmem) hnotlt
      | inr hmem =>
        have hnotgt := hnone.1 _ hmem
        rw [Block.gt, hlimit] at hnotgt
        exact absurd ⟨Nat.lt_of_not_le hnotlt, Nat.lt_of_not_le hnotgt⟩ (hclear _ h.sentinel_mem)

/-- An insertion does what it should exactly when no listed block overlaps, or the block at the cursor
does, or the new block lies before the cursor and reaches into the reserved block. -/
theorem insertsExactly_iff (h : pm.Enclosed) (hpos : 0 < size)
    (hend : addr + size ≤ (sentinel pm.maxRange).limit) (hcursor : pm.currentBlock = some i)
    (hcur : pm.blocks[i]? = some cur) :
    pm.InsertsExactly addr size createPages ↔
      (∀ b ∈ pm.blocks, ¬ b.Overlaps (Block.made addr size createPages)) ∨
        cur.Overlaps (Block.made addr size createPages) ∨
        (addr + size ≤ cur.addr ∧ addr < reserved.limit) := by
  have hmem : cur ∈ pm.blocks := List.mem_of_getElem? hcur
  have hreserved : reserved.limit = 0x20000000 := rfl
  rw [hreserved]
  by_cases hgt : addr + size ≤ cur.addr
  · have hnot : ¬ cur.Overlaps (Block.made addr size createPages) :=
      fun hover => absurd hgt (Nat.not_le.mpr hover.2)
    rw [insertsExactly_iff_of_gt h hpos hend hcursor hcur hgt]
    simp [hgt, hnot]
  · by_cases hlt : cur.limit ≤ addr
    · have hnot : ¬ cur.Overlaps (Block.made addr size createPages) :=
        fun hover => absurd hlt (Nat.not_le.mpr hover.1)
      rw [insertsExactly_iff_of_lt h hpos hend hcursor hcur hlt]
      simp [hgt, hnot]
    · have hover : cur.Overlaps (Block.made addr size createPages) :=
        ⟨Nat.lt_of_not_le hlt, Nat.lt_of_not_le hgt⟩
      have hinsert := insert_walks createPages h hend hcursor hcur
      rw [if_neg hgt, if_neg hlt] at hinsert
      refine ⟨fun _ => .inr (.inl hover), fun _ => ⟨fun _ => ⟨pm, hinsert, rfl⟩, fun hclear => ?_⟩⟩
      exact absurd hover (hclear cur hmem)

end Walk

/-- The reserved block, a block of two pages, and the sentinel, with a cursor. -/
def twoPages (cursor : ℕ) : PhysicalMemory :=
  ⟨0x20010000, [reserved, ⟨0x20000000, 0x2000, none⟩, sentinel 0x20010000], some cursor⟩

lemma twoPages_enclosed (cursor : ℕ) : (twoPages cursor).Enclosed := by
  have hpair : (twoPages cursor).blocks.Pairwise fun b c => b.limit ≤ c.addr := by
    simp [twoPages, Block.limit, reserved, sentinel]
  exact ⟨show 0x20010000 ≤ maxPhyRange by decide, hpair, rfl, rfl⟩

theorem insertsExactly_iff_twoPages : (twoPages 1).InsertsExactly 0x20001000 0x2000 true :=
  (insertsExactly_iff (twoPages_enclosed 1) (by decide) (by decide) rfl rfl).mpr
    (.inr (.inl ⟨by decide, by decide⟩))

/-- With the cursor at the sentinel, a block that shares a page with a listed one is added, in front of
it. -/
theorem overlap_inserted : ∃ pm : PhysicalMemory, pm.Enclosed ∧
    pm.blocks[2]? = some (sentinel pm.maxRange) ∧ pm.currentBlock = some 2 ∧
    0x20001000 + 0x2000 ≤ (sentinel pm.maxRange).limit ∧
    (∃ b ∈ pm.blocks, b.Overlaps (Block.made 0x20001000 0x2000 true)) ∧
    (∃ pm', pm.insert 0x20001000 0x2000 true = .ok (0, pm') ∧
      pm'.blocks.map (fun b => (b.addr, b.size)) =
        [(0, 0x20000000), (0x20001000, 0x2000), (0x20000000, 0x2000), (0x20010000, 4096)]) ∧
    ¬ pm.InsertsExactly 0x20001000 0x2000 true := by
  have hover : ∃ b ∈ (twoPages 2).blocks, b.Overlaps (Block.made 0x20001000 0x2000 true) :=
    ⟨⟨0x20000000, 0x2000, none⟩, by simp [twoPages], by decide, by decide⟩
  have hres : ∃ pm', (twoPages 2).insert 0x20001000 0x2000 true = .ok (0, pm') ∧
      pm'.blocks.map (fun b => (b.addr, b.size)) =
        [(0, 0x20000000), (0x20001000, 0x2000), (0x20000000, 0x2000), (0x20010000, 4096)] :=
    ⟨_, rfl, rfl⟩
  refine ⟨twoPages 2, twoPages_enclosed 2, rfl, rfl, by decide, hover, hres, ?_⟩
  obtain ⟨pm', hres, -⟩ := hres
  apply not_insertsExactly hover
  intro pm'' hres'
  rw [hres] at hres'
  simp at hres'

end PhysicalMemory
end VentusDriver
