import VentusDriver.Device.VirtualAccess

/-! Two memories with the same blocks and the same tables. Whatever else they hold, an allocation gives the
same result on both and leaves two such memories behind. -/
namespace VentusDriver
open Foundation Foundation.Radix Sv39

namespace PhysicalMemory
variable {pm pm' : PhysicalMemory} {root : ℕ → Prop}

/-! ### The same blocks -/

lemma usableFrom_frames {maxRange size u : ℕ} {l l' : List Block} (h : l'.map Block.frame = l.map Block.frame) :
    usableFrom maxRange size u l' = usableFrom maxRange size u l := by
  induction l generalizing l' u with
  | nil => rw [List.map_eq_nil_iff.mp h]
  | cons b l ih =>
    obtain ⟨b', rest, rfl, hb, hrest⟩ := List.map_eq_cons_iff.mp h
    cases l with
    | nil =>
      rw [List.map_eq_nil_iff.mp hrest]
      rfl
    | cons next l =>
      obtain ⟨next', rest', rfl, hnext, -⟩ := List.map_eq_cons_iff.mp hrest
      obtain ⟨haddr, hsize, -⟩ := Block.frame_eq_iff.mp hb
      have hend : b'.endAddr = b.endAddr := by rw [Block.endAddr, Block.endAddr, haddr, hsize]
      have hgt : ∀ pos, next'.gtPos pos ↔ next.gtPos pos := by
        intro pos
        rw [Block.gtPos, Block.gtPos, (Block.frame_eq_iff.mp hnext).1]
      simp only [usableFrom, hend, hgt, ih hrest]

namespace SameFrames

lemma usable (h : SameFrames pm pm') (size : ℕ) : pm'.usable size = pm.usable size := by
  rw [PhysicalMemory.usable, PhysicalMemory.usable, h.maxRange]
  exact usableFrom_frames h.frames

lemma spliced (h : SameFrames pm pm') (i c : ℕ) (blk : Block) :
    SameFrames { pm with blocks := pm.blocks.insertIdx i blk, currentBlock := some c }
      { pm' with blocks := pm'.blocks.insertIdx i blk, currentBlock := some c } := by
  refine ⟨h.maxRange, rfl, ?_⟩
  simp only [List.map_insertIdx, h.frames]

lemma moved (h : SameFrames pm pm') (c : ℕ) :
    SameFrames { pm with currentBlock := some c } { pm' with currentBlock := some c } :=
  ⟨h.maxRange, rfl, h.frames⟩

/-- Two blocks at one position compare in the same way. -/
lemma block (h : SameFrames pm pm') {i : ℕ} {cur : Block} (hcur : pm.blocks[i]? = some cur) (blk : Block) :
    ∃ cur', pm'.blocks[i]? = some cur' ∧ (cur'.gt blk ↔ cur.gt blk) ∧ (cur'.lt blk ↔ cur.lt blk) := by
  have hframe := congrArg (fun l => l[i]?) h.frames
  simp only [List.getElem?_map, hcur, Option.map_some] at hframe
  obtain ⟨cur', hcur', hframe⟩ := Option.map_eq_some_iff.mp hframe
  obtain ⟨haddr, hsize, -⟩ := Block.frame_eq_iff.mp hframe
  refine ⟨cur', hcur', ?_, ?_⟩
  · rw [Block.gt, Block.gt, haddr]
  · rw [Block.lt, Block.lt, Block.endAddr, Block.endAddr, haddr, hsize]

lemma insertBackward (h : SameFrames pm pm') {blk : Block} {i : ℕ} {status : Int} {q : PhysicalMemory}
    (hins : pm.insertBackward blk i = .ok (status, q)) :
    ∃ q', pm'.insertBackward blk i = .ok (status, q') ∧ SameFrames q q' := by
  induction i with
  | zero =>
    obtain ⟨rfl, rfl⟩ := Prod.mk.inj (Except.ok.inj hins)
    exact ⟨_, rfl, h.moved 0⟩
  | succ i ih =>
    rw [PhysicalMemory.insertBackward] at hins ⊢
    cases hcur : pm.blocks[i]? with
    | none => simp [hcur] at hins
    | some cur =>
      obtain ⟨cur', hcur', -, hlt⟩ := h.block hcur blk
      simp only [hcur] at hins
      simp only [hcur', hlt]
      by_cases hcmp : cur.lt blk
      · rw [if_pos hcmp] at hins ⊢
        obtain ⟨rfl, rfl⟩ := Prod.mk.inj (Except.ok.inj hins)
        exact ⟨_, rfl, h.spliced (i + 1) i blk⟩
      · rw [if_neg hcmp] at hins ⊢
        exact ih hins

lemma insertForward (h : SameFrames pm pm') {blk : Block} {rest rest' : List Block} {i : ℕ} {status : Int}
    {q : PhysicalMemory} (hrest : rest'.map Block.frame = rest.map Block.frame)
    (hins : pm.insertForward blk rest i = .ok (status, q)) :
    ∃ q', pm'.insertForward blk rest' i = .ok (status, q') ∧ SameFrames q q' := by
  induction rest generalizing rest' i with
  | nil => cases hins
  | cons next rest ih =>
    obtain ⟨next', rest'', rfl, hnext, hrest'⟩ := List.map_eq_cons_iff.mp hrest
    have hgt : next'.gt blk ↔ next.gt blk := by
      rw [Block.gt, Block.gt, (Block.frame_eq_iff.mp hnext).1]
    rw [PhysicalMemory.insertForward] at hins ⊢
    by_cases hcmp : next.gt blk
    · rw [if_pos hcmp] at hins
      rw [if_pos (hgt.mpr hcmp)]
      obtain ⟨rfl, rfl⟩ := Prod.mk.inj (Except.ok.inj hins)
      exact ⟨_, rfl, h.spliced i (i + 1) blk⟩
    · rw [if_neg hcmp] at hins
      rw [if_neg fun hcmp' => hcmp (hgt.mp hcmp')]
      exact ih hrest' hins

/-- An insertion does the same to both. -/
theorem insert (h : SameFrames pm pm') {addr size : ℕ} {createPages : Bool} {status : Int} {q : PhysicalMemory}
    (hins : pm.insert addr size createPages = .ok (status, q)) :
    ∃ q', pm'.insert addr size createPages = .ok (status, q') ∧ SameFrames q q' := by
  unfold PhysicalMemory.insert at hins ⊢
  cases hnew : Block.new addr size createPages with
  | error e => simp [hnew, bind, Except.bind] at hins
  | ok blk =>
    simp only [hnew, bind, Except.bind, h.cursor] at hins ⊢
    cases hcursor : pm.currentBlock with
    | none => simp [hcursor] at hins
    | some i =>
      cases hcur : pm.blocks[i]? with
      | none => simp [hcursor, hcur] at hins
      | some cur =>
        obtain ⟨cur', hcur', hgt, hlt⟩ := h.block hcur blk
        simp only [hcursor, hcur] at hins
        simp only [hcur', hgt, hlt]
        by_cases hback : cur.gt blk
        · rw [if_pos hback] at hins ⊢
          exact h.insertBackward hins
        · rw [if_neg hback] at hins ⊢
          by_cases hforth : cur.lt blk
          · rw [if_pos hforth] at hins ⊢
            refine h.insertForward ?_ hins
            rw [List.map_drop, List.map_drop, h.frames]
          · rw [if_neg hforth] at hins ⊢
            obtain ⟨rfl, rfl⟩ := Prod.mk.inj (Except.ok.inj hins)
            exact ⟨pm', rfl, h⟩

end SameFrames

/-! ### The same tables -/

/-- The second memory has the blocks of the first one and the bytes of its tables. -/
structure SameTables (root : ℕ → Prop) (pm pm' : PhysicalMemory) : Prop where
  tables : pm.PageTables root
  frames : SameFrames pm pm'
  bytes : ∀ q, IsTable pm.entry 3 root q → ∀ x, q ≤ x → x < q + 4096 → pm'.byteAt x = pm.byteAt x

namespace SameTables

theorem refl (h : pm.PageTables root) : SameTables root pm pm := ⟨h, .refl pm, fun _ _ _ _ _ => rfl⟩

/-- The second memory has sound tables too, with the same walks. -/
lemma other (h : SameTables root pm pm') : pm'.PageTables root ∧
    ∀ r path, root r → path.length ≤ 3 → walk pm'.entry r path = walk pm.entry r path :=
  h.tables.of_bytes (h.frames.ordered h.tables.ordered) (h.frames.cursorValid h.tables.cursor)
    (fun q hq => h.frames.backed (h.tables.page q hq).2) h.bytes fun _ hb => .inl (h.frames.symm.kept hb)

lemma pte (h : SameTables root pm pm') {q i : ℕ} (hq : IsTable pm.entry 3 root q) (hi : i < 512) :
    pm'.pte q i = pm.pte q i := by
  have hback := (h.tables.table_page hq).2
  exact pte_congr h.tables.ordered h.other.1.ordered hback (h.frames.backed hback) hi (h.bytes q hq)

lemma nextTable (h : SameTables root pm pm') {q i : ℕ} (hq : IsTable pm.entry 3 root q) (hi : i < 512) :
    pm'.nextTable q i = pm.nextTable q i := by
  rw [PhysicalMemory.nextTable, PhysicalMemory.nextTable, h.pte hq hi]

/-- The new block of an insertion is empty in both. -/
lemma insertedAt (h : SameTables root pm pm') {p size : ℕ} (hgap : pm.Gap p size) (hsize : 4096 ∣ size)
    {q q' : PhysicalMemory} (hins : pm.InsertedAt (fresh p size) q) (hins' : pm'.InsertedAt (fresh p size) q')
    (hframes : SameFrames q q') : SameTables root q q' := by
  obtain ⟨htables, hwalks⟩ := h.tables.insertedAt hgap hsize hins
  refine ⟨htables, hframes, ?_⟩
  intro t ht x hlow hhigh
  obtain ⟨r, path, hr, hlen, hw⟩ := ht
  rw [hwalks r path hr hlen.le] at hw
  rw [hins.byteAt h.tables.ordered htables.ordered,
    hins'.byteAt h.other.1.ordered (hframes.ordered htables.ordered)]
  exact h.bytes t ⟨r, path, hr, hlen, hw⟩ x hlow hhigh

/-- An entry filled with the same page in both. -/
lemma fill (h : SameTables root pm pm') {r q i p mods : ℕ} {pre : List ℕ} (hr : root r) (hpre : pre.length < 3)
    (hq : walk pm.entry r pre = some q) (hi : i < 512) (hnone : pm.entry q i = none)
    (hfill : PageTables.Fillable pm root r pre p)
    (hzero : pre.length < 2 → ∀ x, p ≤ x → x < p + 4096 → pm'.byteAt x = 0)
    (hmods : mods < 2 ^ 10) (hodd : mods % 2 = 1) :
    SameTables root (pm.writeValue 8 (entryAddr q i) (setPte p mods)).2
      (pm'.writeValue 8 (entryAddr q i) (setPte p mods)).2 := by
  obtain ⟨htables, hframes, hadds, -, -, -⟩ := h.tables.growth_fill hr hpre hq hi hnone hfill hmods hodd rfl
  have htable : IsTable pm.entry 3 root q := ⟨r, pre, hr, hpre, hq⟩
  have hback := (h.tables.table_page htable).2
  refine ⟨htables, hframes.symm.trans (h.frames.trans (writeData_sameFrames ..)), ?_⟩
  intro t ht x hlow hhigh
  rw [writeEntry_bytes h.tables.ordered hback hi, writeEntry_bytes h.other.1.ordered (h.frames.backed hback) hi]
  by_cases hin : q + i * 8 ≤ x ∧ x < q + i * 8 + 8
  · rw [if_pos hin, if_pos hin]
  · rw [if_neg hin, if_neg hin]
    obtain ⟨r', path, hr', hlen, hw⟩ := ht
    cases hadds r' path t hr' hlen.le hw with
    | inl hw => exact h.bytes t ⟨r', path, hr', hlen, hw⟩ x hlow hhigh
    | inr hnew =>
      -- the new table is still zero
      obtain ⟨-, rfl, rfl⟩ := hnew
      rw [List.length_append, List.length_singleton] at hlen
      rw [hzero (by omega) x hlow hhigh, hfill.zero (by omega) x hlow hhigh]

end SameTables

section Tables
variable {r : ℕ}

end Tables
end PhysicalMemory

namespace Memory
open PhysicalMemory
variable {m m' : Memory} {root : ℕ → Prop} {r : ℕ}

end Memory
end VentusDriver
