import VentusDriver.Device.BlockList

/-! Physical memory as one function from addresses to bytes. Reads and writes inside a block with
storage are reads and updates of that function, and an insertion leaves it as it is, since a new
block is zero. -/
namespace VentusDriver
open Foundation Foundation.Intervals Sv39

namespace Block

/-- The block has storage for the address. -/
def backs (b : Block) (x : ℕ) : Bool := b.pages.isSome && decide (b.addr ≤ x) && decide (x < b.limit)

/-- The byte that a block stores for an address. -/
def byteIn (b : Block) (x : ℕ) : UInt8 := (b.pages.getD fun _ => 0) (x - b.addr)

lemma backs_iff {b : Block} {x : ℕ} :
    b.backs x = true ↔ b.pages.isSome = true ∧ b.addr ≤ x ∧ x < b.limit := by
  simp [backs, and_assoc]

end Block

namespace PhysicalMemory

/-- The byte at a physical address; addresses without storage read as zero. -/
def byteAt (pm : PhysicalMemory) (x : ℕ) : UInt8 :=
  match pm.blocks.find? fun b => b.backs x with
  | none => 0
  | some b => b.byteIn x

/-- A block with storage covers the whole range. -/
def Backed (pm : PhysicalMemory) (addr len : ℕ) : Prop :=
  ∃ b ∈ pm.blocks, b.pages.isSome = true ∧ b.addr ≤ addr ∧ addr + len ≤ b.limit

/-- The two memories have the same blocks in the same places and the same cursor. -/
structure SameFrames (pm pm' : PhysicalMemory) : Prop where
  maxRange : pm'.maxRange = pm.maxRange
  cursor : pm'.currentBlock = pm.currentBlock
  frames : pm'.blocks.map Block.frame = pm.blocks.map Block.frame

namespace SameFrames
variable {pm pm' pm'' : PhysicalMemory}

theorem refl (pm : PhysicalMemory) : SameFrames pm pm := ⟨rfl, rfl, rfl⟩

theorem trans (h : SameFrames pm pm') (h' : SameFrames pm' pm'') : SameFrames pm pm'' :=
  ⟨h'.maxRange.trans h.maxRange, h'.cursor.trans h.cursor, h'.frames.trans h.frames⟩

theorem symm (h : SameFrames pm pm') : SameFrames pm' pm :=
  ⟨h.maxRange.symm, h.cursor.symm, h.frames.symm⟩

theorem ordered (h : SameFrames pm pm') (hord : pm.Ordered) : pm'.Ordered :=
  hord.of_frames h.maxRange h.frames

theorem cursorValid (h : SameFrames pm pm') (hcursor : pm.CursorValid) : pm'.CursorValid := by
  have hlen : pm'.blocks.length = pm.blocks.length := by
    simpa using congrArg List.length h.frames
  rw [CursorValid, h.cursor, hlen]
  exact hcursor

/-- Every block is still there, with other bytes perhaps. -/
lemma kept (h : SameFrames pm pm') {b : Block} (hb : b ∈ pm.blocks) :
    ∃ c ∈ pm'.blocks, c.frame = b.frame := by
  have hframe : b.frame ∈ pm'.blocks.map Block.frame := h.frames ▸ List.mem_map_of_mem hb
  exact List.mem_map.mp hframe

/-- The same ranges have storage. -/
theorem backed (h : SameFrames pm pm') {addr len : ℕ} (hb : pm.Backed addr len) :
    pm'.Backed addr len := by
  obtain ⟨b, hmem, hsome, hlow, hhigh⟩ := hb
  obtain ⟨c, hc, hcb⟩ := h.kept hmem
  obtain ⟨haddr, hlimit, hpages⟩ := Block.span_of_frame hcb
  exact ⟨c, hc, hpages.trans hsome, haddr.trans_le hlow, hhigh.trans_eq hlimit.symm⟩

end SameFrames

/-! ### The block that an access selects -/

lemma find?_eq_of_unique {α : Type*} {l : List α} {p : α → Bool} {a : α} (ha : a ∈ l)
    (hp : p a = true) (huniq : ∀ c ∈ l, p c = true → c = a) : l.find? p = some a := by
  cases hfind : l.find? p with
  | none => exact absurd hp (List.find?_eq_none.mp hfind a ha)
  | some c => rw [huniq c (List.mem_of_find?_eq_some hfind) (List.find?_some hfind)]

variable {pm : PhysicalMemory}

lemma spans_iff (h : pm.Ordered) {b : Block} (hb : b ∈ pm.blocks) {addr len : ℕ}
    (hlt : addr + len < 2 ^ 64) : spans b addr len ↔ b.addr ≤ addr ∧ addr + len ≤ b.limit := by
  have hend : u64 (b.addr + b.size) = b.limit := h.endAddr_eq hb
  rw [spans, hend, u64_of_lt hlt]

lemma Backed.lt (h : pm.Ordered) {addr len : ℕ} (hb : pm.Backed addr len) :
    addr + len < 2 ^ 57 := by
  obtain ⟨b, hmem, -, -, hhigh⟩ := hb
  have := h.limit_lt hmem
  omega

/-- The blocks of a well-formed list that contain a point coincide. -/
lemma block_unique (h : pm.Ordered) {b c : Block} (hb : b ∈ pm.blocks) (hc : c ∈ pm.blocks)
    {x : ℕ} (hbx : b.addr ≤ x ∧ x < b.limit) (hcx : c.addr ≤ x ∧ x < c.limit) : b = c :=
  h.ascending.mem_unique hb hc hbx hcx

/-- A byte with storage is the byte of the block around it. -/
lemma byteAt_eq (h : pm.Ordered) {b : Block} (hb : b ∈ pm.blocks)
    (hsome : b.pages.isSome = true) {x : ℕ} (hx : b.addr ≤ x ∧ x < b.limit) :
    pm.byteAt x = b.byteIn x := by
  have hfind : pm.blocks.find? (fun c => c.backs x) = some b := by
    refine find?_eq_of_unique hb (Block.backs_iff.mpr ⟨hsome, hx⟩) fun c hc hcx => ?_
    exact block_unique h hc hb (Block.backs_iff.mp hcx).2 hx
  rw [byteAt, hfind]

lemma byteAt_eq_zero {x : ℕ} (h : ∀ b ∈ pm.blocks, b.pages.isSome = true →
    ¬ (b.addr ≤ x ∧ x < b.limit)) : pm.byteAt x = 0 := by
  have hfind : pm.blocks.find? (fun c => c.backs x) = none := by
    refine List.find?_eq_none.mpr fun b hb hbx => ?_
    obtain ⟨hsome, hx⟩ := Block.backs_iff.mp hbx
    exact h b hb hsome hx
  rw [byteAt, hfind]

/-! ### Reads -/

lemma readBlocks_eq {addr len : ℕ} {out : ℕ → UInt8} {l : List Block} :
    readBlocks addr len out l =
      match l.find? fun b => decide (spans b addr len) with
      | none => (-1, out)
      | some b => if b.empty then (-1, out) else (0, (b.read (addr - b.addr) len out).2) := by
  induction l with
  | nil => rfl
  | cons b rest ih =>
    by_cases hs : spans b addr len
    · simp [readBlocks, hs]
    · simp [readBlocks, hs, ih]

/-- Reading a range with storage returns its bytes. -/
theorem readData_backed (h : pm.Ordered) {addr len : ℕ} (hlen : 0 < len)
    (hb : pm.Backed addr len) (out : ℕ → UInt8) :
    pm.readData addr len out =
      (0, fun i => if i < len then pm.byteAt (addr + i) else out i) := by
  have hlt := hb.lt h
  obtain ⟨b, hmem, hsome, hlow, hhigh⟩ := hb
  have hlim := h.limit_lt hmem
  have hfind : pm.blocks.find? (fun c => decide (spans c addr len)) = some b := by
    refine find?_eq_of_unique hmem
      (decide_eq_true ((spans_iff h hmem (by omega)).mpr ⟨hlow, hhigh⟩)) fun c hc hspan => ?_
    have := (spans_iff h hc (by omega)).mp (of_decide_eq_true hspan)
    exact block_unique h hc hmem (x := addr) (by omega) (by omega)
  have hempty : b.empty = false := by
    simpa [Block.empty, Option.isNone_eq_false_iff] using hsome
  simp only [Block.limit] at hhigh hlim
  rw [readData, readBlocks_eq, hfind]
  simp only [hempty, Bool.false_eq_true, if_false, Block.read]
  rw [u64_of_lt (by omega), if_neg (by omega), sub64_of_le (by omega) (by omega),
    min_eq_left (by omega)]
  congr 1
  funext i
  dsimp only
  split_ifs with hi
  · have hoff : addr + i - b.addr = addr - b.addr + i := by omega
    rw [byteAt_eq h hmem hsome (by simp only [Block.limit]; omega), Block.byteIn, hoff]
  · rfl

/-- Reading a range that is not stored in one block fails and leaves the buffer. -/
theorem readData_not_backed (h : pm.Ordered) {addr len : ℕ} (hlt : addr + len < 2 ^ 64)
    (hb : ¬ pm.Backed addr len) (out : ℕ → UInt8) : pm.readData addr len out = (-1, out) := by
  rw [readData, readBlocks_eq]
  cases hfind : pm.blocks.find? fun c => decide (spans c addr len) with
  | none => rfl
  | some b =>
    have hmem := List.mem_of_find?_eq_some hfind
    have hspans : decide (spans b addr len) = true :=
      List.find?_some (p := fun c => decide (spans c addr len)) hfind
    have hspan := (spans_iff h hmem hlt).mp (of_decide_eq_true hspans)
    have hempty : b.empty = true := by
      rw [Block.empty, Option.isNone_iff_eq_none, ← Option.not_isSome_iff_eq_none]
      exact fun hsome => hb ⟨b, hmem, hsome, hspan⟩
    simp only [hempty, if_true]

/-- Reading a word with storage. -/
theorem readValue_backed (h : pm.Ordered) {n addr : ℕ} (hn : 0 < n) (hb : pm.Backed addr n) :
    pm.readValue n addr = littleEndian n fun i => pm.byteAt (addr + i) := by
  simp only [readValue, readData_backed h hn hb, if_true]
  exact littleEndian_congr fun i hi => if_pos hi

/-! ### Writes -/

lemma maskBit_byteOf (m i : ℕ) : maskBit (byteOf m) i = m.testBit i := by
  have hbyte : (byteOf m (i / 8)).toNat = m / 2 ^ (8 * (i / 8)) % 2 ^ 8 := by
    simp [byteOf, pow_mul]
  rw [maskBit, hbyte, Nat.testBit_mod_two_pow, Nat.testBit_div_two_pow, Nat.add_comm,
    Nat.div_add_mod]
  simp [Nat.mod_lt]

/-- The effect of a write on one block. -/
def writtenBlock (addr len : ℕ) (data : ℕ → UInt8) (b : Block) : Block :=
  if spans b addr len ∧ b.empty = false then (b.write (addr - b.addr) len data).2 else b

lemma write_frame (b : Block) (base len : ℕ) (data : ℕ → UInt8) :
    (b.write base len data).2.frame = b.frame := by
  unfold Block.write
  split_ifs <;> simp [Block.frame]

lemma writtenBlock_frame (addr len : ℕ) (data : ℕ → UInt8) (b : Block) :
    (writtenBlock addr len data b).frame = b.frame := by
  unfold writtenBlock
  split_ifs
  · exact write_frame ..
  · rfl

lemma writeBlocks_frames (addr len : ℕ) (data : ℕ → UInt8) (l : List Block) :
    (writeBlocks addr len data l).2.map Block.frame = l.map Block.frame := by
  induction l with
  | nil => rfl
  | cons b rest ih =>
    simp only [writeBlocks]
    split_ifs
    · rfl
    · simp [write_frame]
    · simp [ih]

/-- A write anywhere leaves every block where it was. -/
theorem writeData_sameFrames (pm : PhysicalMemory) (addr len : ℕ) (data : ℕ → UInt8) :
    SameFrames pm (pm.writeData addr len data).2 :=
  ⟨rfl, rfl, writeBlocks_frames ..⟩

/-- In an ascending list only the first block met can span a non-empty range. -/
lemma writeBlocks_eq_map {addr len : ℕ} {data : ℕ → UInt8} {l : List Block} (hlen : 0 < len)
    (hlt : addr + len < 2 ^ 64) (hlim : ∀ b ∈ l, b.limit < 2 ^ 64)
    (hasc : Ascending Block.addr Block.limit l) :
    (writeBlocks addr len data l).2 = l.map (writtenBlock addr len data) := by
  induction l with
  | nil => rfl
  | cons b rest ih =>
    have ih := ih (fun c hc => hlim c (by simp [hc])) hasc.tail
    have hrest : spans b addr len → rest.map (writtenBlock addr len data) = rest := by
      intro hs
      have hend : u64 (b.addr + b.size) = b.limit := Block.endAddr_eq (hlim b (by simp))
      rw [spans, hend, u64_of_lt hlt] at hs
      have hsame : ∀ c ∈ rest, writtenBlock addr len data c = id c := by
        intro c hc
        have hafter := (List.pairwise_cons.mp hasc).1 c hc
        have hnot : ¬ spans c addr len := fun hspan => by have := hspan.1; omega
        simp [writtenBlock, hnot]
      rw [List.map_congr_left hsame, List.map_id]
    simp only [writeBlocks]
    by_cases hs : spans b addr len
    · by_cases hempty : b.empty = true
      · simp [hs, hempty, writtenBlock, hrest hs]
      · simp [hs, hempty, writtenBlock, hrest hs]
    · simp [hs, writtenBlock, ih]

/-- Writing a range with storage stores the data and changes no other byte. -/
theorem writeData_backed (h : pm.Ordered) {addr len : ℕ} (hlen : 0 < len)
    (hb : pm.Backed addr len) (data : ℕ → UInt8) (x : ℕ) :
    (pm.writeData addr len data).2.byteAt x =
      if addr ≤ x ∧ x < addr + len then data (x - addr) else pm.byteAt x := by
  have hlt := hb.lt h
  obtain ⟨b, hmem, hsome, hlow, hhigh⟩ := hb
  have hblocks : (pm.writeData addr len data).2.blocks =
      pm.blocks.map (writtenBlock addr len data) :=
    writeBlocks_eq_map hlen (by omega) (fun c hc => by have := h.limit_lt hc; omega) h.ascending
  have hord := (writeData_sameFrames pm addr len data).ordered h
  have hempty : b.empty = false := by
    simpa [Block.empty, Option.isNone_eq_false_iff] using hsome
  by_cases hx : ∃ c ∈ pm.blocks, c.pages.isSome = true ∧ c.addr ≤ x ∧ x < c.limit
  · obtain ⟨c, hc, hcsome, hcx⟩ := hx
    have hclim := h.limit_lt hc
    have hframe := writtenBlock_frame addr len data c
    obtain ⟨h1, h2, h3⟩ := Block.frame_eq_iff.mp hframe
    have hmem' : writtenBlock addr len data c ∈ (pm.writeData addr len data).2.blocks :=
      hblocks ▸ List.mem_map_of_mem hc
    rw [byteAt_eq hord hmem' (h3 ▸ hcsome) (by simpa [Block.limit, h1, h2] using hcx),
      byteAt_eq h hc hcsome hcx]
    by_cases hspan : spans c addr len
    · -- the written block: the range lies inside it
      have hspan' := (spans_iff h hc (by omega)).mp hspan
      obtain rfl : c = b := block_unique h hc hmem (x := addr) (by omega) (by omega)
      obtain ⟨bytes, hbytes⟩ := Option.isSome_iff_exists.mp hcsome
      simp only [Block.limit] at hspan' hclim hcx
      have hwrite : (writtenBlock addr len data c).byteIn x =
          if addr - c.addr ≤ x - c.addr ∧ x - c.addr < addr - c.addr + len then
            data (x - c.addr - (addr - c.addr)) else bytes (x - c.addr) := by
        simp only [writtenBlock, hspan, hempty, and_self, if_true, Block.write]
        rw [u64_of_lt (by omega), if_neg (by omega), sub64_of_le (by omega) (by omega),
          min_eq_left (by omega)]
        simp [Block.byteIn, hbytes]
      rw [hwrite]
      by_cases hin : addr ≤ x ∧ x < addr + len
      · rw [if_pos (by omega), if_pos hin]
        congr 1
        omega
      · rw [if_neg (by omega), if_neg hin]
        simp [Block.byteIn, hbytes]
    · have hout : ¬ (addr ≤ x ∧ x < addr + len) := by
        intro hin
        obtain rfl : c = b := block_unique h hc hmem hcx (by omega)
        exact hspan ((spans_iff h hc (by omega)).mpr ⟨hlow, hhigh⟩)
      rw [if_neg hout]
      simp [writtenBlock, hspan]
  · have hout : ¬ (addr ≤ x ∧ x < addr + len) := fun hin =>
      hx ⟨b, hmem, hsome, by omega, by omega⟩
    rw [if_neg hout, byteAt_eq_zero, byteAt_eq_zero]
    · exact fun c hc hcsome hcx => hx ⟨c, hc, hcsome, hcx⟩
    · rw [hblocks]
      intro c' hc' hcsome hcx
      obtain ⟨c, hc, rfl⟩ := List.mem_map.mp hc'
      obtain ⟨h1, h2, h3⟩ := Block.frame_eq_iff.mp (writtenBlock_frame addr len data c)
      exact hx ⟨c, hc, h3 ▸ hcsome, by simpa [Block.limit, h1, h2] using hcx⟩

/-! ### Insertions -/

/-- A new block adds storage. -/
theorem InsertedAt.backed_new {pm' : PhysicalMemory} {p size : ℕ}
    (hins : pm.InsertedAt (fresh p size) pm') : pm'.Backed p size := by
  obtain ⟨before, after, c, -, rfl, -⟩ := hins.result
  exact ⟨fresh p size, by simp [spliced], rfl, le_rfl, le_rfl⟩

lemma InsertedAt.mem_iff {pm' : PhysicalMemory} {blk : Block} (hins : pm.InsertedAt blk pm')
    {b : Block} : b ∈ pm'.blocks ↔ b = blk ∨ b ∈ pm.blocks := by
  obtain ⟨before, after, c, hsplit, rfl, -⟩ := hins.result
  simp only [spliced, hsplit, List.mem_append, List.mem_cons]
  tauto

/-- A new block keeps all storage there was. -/
theorem InsertedAt.backed {pm' : PhysicalMemory} {blk : Block} (hins : pm.InsertedAt blk pm')
    {addr len : ℕ} (hb : pm.Backed addr len) : pm'.Backed addr len := by
  obtain ⟨b, hmem, hrest⟩ := hb
  exact ⟨b, hins.mem_iff.mpr (.inr hmem), hrest⟩

/-- A new block is zero, so no byte changes. -/
theorem InsertedAt.byteAt {pm' : PhysicalMemory} (h : pm.Ordered) {p size : ℕ}
    (hord : pm'.Ordered) (hins : pm.InsertedAt (fresh p size) pm')
    (x : ℕ) : pm'.byteAt x = pm.byteAt x := by
  by_cases hx : ∃ b ∈ pm.blocks, b.pages.isSome = true ∧ b.addr ≤ x ∧ x < b.limit
  · obtain ⟨b, hb, hsome, hbx⟩ := hx
    rw [byteAt_eq h hb hsome hbx, byteAt_eq hord (hins.mem_iff.mpr (.inr hb)) hsome hbx]
  · have hzero : pm.byteAt x = 0 := byteAt_eq_zero fun b hb hsome hbx => hx ⟨b, hb, hsome, hbx⟩
    rw [hzero]
    by_cases hnew : p ≤ x ∧ x < p + size
    · rw [byteAt_eq hord (hins.mem_iff.mpr (.inl rfl)) rfl hnew]
      rfl
    · apply byteAt_eq_zero
      intro b hb hsome hbx
      cases hins.mem_iff.mp hb with
      | inl heq =>
        subst heq
        exact hnew hbx
      | inr hb =>
        exact hx ⟨b, hb, hsome, hbx⟩

end PhysicalMemory
end VentusDriver
