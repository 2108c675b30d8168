import VentusDriver.Device.MemoryRules

/-! The cursor of the block list. `remove` does not look at it, so it stays valid exactly as long as
no step removes the block that it designates. -/
namespace VentusDriver
open Foundation Foundation.Intervals PhysicalMemory

lemma Block.eqPos_congr {b c : Block} (h : b.frame = c.frame) (x : ℕ) : b.eqPos x ↔ c.eqPos x := by
  obtain ⟨h1, h2, -⟩ := Block.frame_eq_iff.mp h
  rw [Block.eqPos, Block.eqPos, Block.endAddr, Block.endAddr, h1, h2]

namespace PhysicalMemory

/-- The block that the cursor designates. -/
def cursorBlock (pm : PhysicalMemory) : Option Block := pm.currentBlock.bind fun i => pm.blocks[i]?

/-- The block at the cursor contains the address. -/
def CursorOn (pm : PhysicalMemory) (addr : ℕ) : Prop := ∃ b ∈ pm.cursorBlock, b.eqPos addr

instance (pm : PhysicalMemory) (addr : ℕ) : Decidable (pm.CursorOn addr) :=
  inferInstanceAs (Decidable (∃ b ∈ pm.cursorBlock, b.eqPos addr))

/-- The cursor designates a block with the frame of `b`. -/
def CursorAt (pm : PhysicalMemory) (b : Block) : Prop :=
  ∃ i c, pm.currentBlock = some i ∧ pm.blocks[i]? = some c ∧ c.frame = b.frame

variable {pm pm' : PhysicalMemory} {b : Block}

lemma CursorAt.valid (h : pm.CursorAt b) : pm.CursorValid := by
  obtain ⟨i, c, hcursor, hget, -⟩ := h
  obtain ⟨hi, -⟩ := List.getElem?_eq_some_iff.mp hget
  exact ⟨i, hcursor, hi⟩

lemma CursorValid.cursorAt (h : pm.CursorValid) : ∃ b, pm.CursorAt b := by
  obtain ⟨i, hcursor, hi⟩ := h
  exact ⟨pm.blocks[i], i, pm.blocks[i], hcursor, List.getElem?_eq_getElem hi, rfl⟩

lemma CursorAt.on_iff (h : pm.CursorAt b) (addr : ℕ) : pm.CursorOn addr ↔ b.eqPos addr := by
  obtain ⟨i, c, hcursor, hget, hframe⟩ := h
  have hblock : pm.cursorBlock = some c := by
    rw [cursorBlock, hcursor, Option.bind_some, hget]
  rw [CursorOn, hblock, ← Block.eqPos_congr hframe]
  simp

lemma SameFrames.cursorAt (hs : SameFrames pm pm') (h : pm.CursorAt b) : pm'.CursorAt b := by
  obtain ⟨i, c, hcursor, hget, hframe⟩ := h
  have hmap : (pm'.blocks.map Block.frame)[i]? = some c.frame := by
    rw [hs.frames, List.getElem?_map, hget, Option.map_some]
  rw [List.getElem?_map, Option.map_eq_some_iff] at hmap
  obtain ⟨d, hd, hdc⟩ := hmap
  exact ⟨i, d, hs.cursor.trans hcursor, hd, hdc.trans hframe⟩

/-- A removal takes the cursor away exactly when it hits the block at the cursor. -/
theorem remove_cursorAt (h : pm.Ordered) (hat : pm.CursorAt b) (addr : ℕ) :
    (b.eqPos addr ∧ (pm.remove addr).2.currentBlock = none) ∨
      (¬ b.eqPos addr ∧ (pm.remove addr).2.CursorAt b) := by
  obtain ⟨i, c, hcursor, hget, hframe⟩ := hat
  obtain ⟨hi, hci⟩ := List.getElem?_eq_some_iff.mp hget
  have hmem : c ∈ pm.blocks := hci ▸ List.getElem_mem _
  rw [← Block.eqPos_congr hframe]
  unfold remove
  cases hfind : findRemove addr pm.blocks 0 with
  | none =>
    refine .inr ⟨fun hpos => ?_, i, c, hcursor, hget, hframe⟩
    rw [Block.eqPos, h.endAddr_eq hmem] at hpos
    obtain ⟨k, hk⟩ := findRemove_of_mem 0 h.ascending (fun d hd => h.endAddr_eq hd) hmem hpos.1 hpos.2
    rw [hfind] at hk
    cases hk
  | some k =>
    obtain ⟨-, d, hd, hlow, hhigh⟩ := findRemove_some hfind
    rw [Nat.sub_zero] at hd
    obtain ⟨hk, hdk⟩ := List.getElem?_eq_some_iff.mp hd
    have hdmem : d ∈ pm.blocks := hdk ▸ List.getElem_mem _
    by_cases hki : i = k
    · subst hki
      obtain rfl := Option.some.inj (hget.symm.trans hd)
      exact .inl ⟨⟨hlow, hhigh⟩, by simp [hcursor, cursorAfterErase]⟩
    · -- another block contains the address, so the one at the cursor does not
      have hnot : ¬ c.eqPos addr := by
        intro hpos
        rw [Block.eqPos, h.endAddr_eq hmem] at hpos
        rw [h.endAddr_eq hdmem] at hhigh
        exact hki (h.ascending.index_unique hi hk (hci ▸ hpos) (hdk ▸ ⟨hlow, hhigh⟩))
      refine .inr ⟨hnot, ?_⟩
      simp only [hcursor, cursorAfterErase, if_neg hki]
      split_ifs with hlt
      · refine ⟨i - 1, c, rfl, ?_, hframe⟩
        rw [List.getElem?_eraseIdx_of_ge (by omega), show i - 1 + 1 = i by omega, hget]
      · refine ⟨i, c, rfl, ?_, hframe⟩
        rw [List.getElem?_eraseIdx_of_lt (by omega), hget]

/-- Along a cleaning the cursor stands on its block, or a removal has hit the block. -/
theorem cleans_cursorAt {s t : Cleanup} (h : Cleanup.Cleans s t) (hs : s.pm.Intact)
    (hat : s.pm.CursorAt b) (hempty : s.removed = []) :
    ((∀ addr ∈ t.log, ¬ b.eqPos addr) ∧ t.memory.pm.CursorAt b) ∨
      ((∃ addr ∈ t.log, b.eqPos addr) ∧ t.memory.pm.currentBlock = none) := by
  simp only [Cleanup.log, List.mem_reverse, Cleanup.memory]
  induction h with
  | refl => exact .inl ⟨by simp [hempty], hat⟩
  | @remove t ht addr ih =>
    simp only [Cleanup.remove, List.mem_cons, forall_eq_or_imp, exists_eq_or_imp]
    rcases ih with ⟨hnone, hat'⟩ | ⟨hsome, hlost⟩
    · have hord : t.pm.Ordered := (intact_removalRule.cleans ht (fun _ _ => trivial) hs).ordered
      rcases remove_cursorAt hord hat' addr with ⟨hpos, hlost⟩ | ⟨hnot, hat''⟩
      · exact .inr ⟨.inl hpos, hlost⟩
      · exact .inl ⟨⟨hnot, hnone⟩, hat''⟩
    · refine .inr ⟨.inr hsome, ?_⟩
      unfold PhysicalMemory.remove
      split
      · exact hlost
      · simp [hlost, cursorAfterErase]
  | @clear t ht table i ih =>
    have hframes : SameFrames t.pm (t.clear table i).pm := writeData_sameFrames ..
    rcases ih with ⟨hnone, hat'⟩ | ⟨hsome, hlost⟩
    · exact .inl ⟨hnone, hframes.cursorAt hat'⟩
    · exact .inr ⟨hsome, hframes.cursor.trans hlost⟩

end PhysicalMemory

namespace MemoryState
variable {s t : MemoryState} {op : MemoryOp}

/-- No address that the step passes to `remove` lies in the block at the cursor. -/
def CursorKept (s : MemoryState) (op : MemoryOp) : Prop :=
  ∀ addr ∈ s.removedBy op, ¬ s.mem.pm.CursorOn addr

instance (s : MemoryState) (op : MemoryOp) : Decidable (CursorKept s op) :=
  inferInstanceAs (Decidable (∀ addr ∈ s.removedBy op, ¬ s.mem.pm.CursorOn addr))

/-- After a step the cursor is valid exactly when the step has kept its block. -/
theorem exec_cursor (hs : s.mem.pm.Intact) (hcursor : s.mem.pm.CursorValid)
    (hstep : s.exec op = some t) : t.mem.pm.CursorValid ↔ CursorKept s op := by
  by_cases hrem : Removes op
  · obtain ⟨b, hat⟩ := hcursor.cursorAt
    obtain ⟨c, hc, hlog, heq⟩ := exec_cleans hrem hstep
    simp only [CursorKept, hlog, heq, hat.on_iff]
    rcases cleans_cursorAt hc hs hat rfl with ⟨hnone, hat'⟩ | ⟨⟨addr, haddr, hpos⟩, hlost⟩
    · exact iff_of_true hat'.valid hnone
    · refine iff_of_false ?_ fun hkept => hkept addr haddr hpos
      rintro ⟨i, hi, -⟩
      rw [hlost] at hi
      cases hi
  · have hgrown := exec_growthRule cursorValid_growthRule
      (fun addr len data hs => ordered_cursorValid_writeData hs addr len data) hrem hstep
      ⟨hs.ordered, hcursor⟩
    refine iff_of_true hgrown.2 ?_
    cases op <;> first | exact absurd trivial hrem | simp [CursorKept, removedBy]

lemma new_cursorValid (range : ℕ) : (PhysicalMemory.new range).CursorValid :=
  ⟨0, rfl, by simp [PhysicalMemory.new]⟩

/-- In every run whose steps keep the block at the cursor the cursor is valid, and the first step that
does not keep it takes the cursor away. -/
theorem cursorValid_of_kept {range : ℕ} (h : (memorySystem range).ReachableBy CursorKept s) :
    s.mem.pm.CursorValid ∧
      ∀ op t, s.exec op = some t → (t.mem.pm.CursorValid ↔ CursorKept s op) := by
  have hvalid : s.mem.pm.CursorValid ∧
      (s.mem.pm.Intact ∨ (range < 0x20000000 ∧ s = ⟨Memory.new range, [], []⟩)) := by
    refine ⟨?_, intact_of_reachable h.reachable⟩
    induction h with
    | start hinit => exact hinit ▸ new_cursorValid range
    | @next s t op hreach hkept hstep ih =>
      rcases intact_of_reachable hreach.reachable with hs | ⟨hrange, rfl⟩
      · exact (exec_cursor hs ih hstep).mpr hkept
      · exact exec_small hrange hstep ▸ ih
  obtain ⟨hcursor, hs | ⟨hrange, rfl⟩⟩ := hvalid
  · exact ⟨hcursor, fun op t hstep => exec_cursor hs hcursor hstep⟩
  · refine ⟨hcursor, fun op t hstep => iff_of_true (exec_small hrange hstep ▸ hcursor) ?_⟩
    -- without a root no step removes anything
    cases op with
    | release root vAddr => simp [exec] at hstep
    | cleanPt root => simp [exec] at hstep
    | cleanTask root => simp [exec] at hstep
    | _ => simp [CursorKept, removedBy]

/-- Two regions under one root; the first is released while the cursor stands behind it. -/
theorem cursorValid_of_kept_release : ∃ s, (memorySystem 0x20010000).Reachable s ∧
    s.live.length = 1 ∧ s.mem.pm.CursorValid := by
  let ops : List MemoryOp := [.createRootPt, .allocate 0x20000000 0x40000000 4096,
    .allocate 0x20000000 0x40001000 4096, .release 0x20000000 0x40000000]
  have hrun : (TransitionSystem.follow CursorKept exec ops ⟨Memory.new 0x20010000, [], []⟩).map
      (fun s : MemoryState => s.live.length) = some 1 := by decide +kernel
  obtain ⟨s, hs, hlive⟩ := Option.map_eq_some_iff.mp hrun
  have hkept : (memorySystem 0x20010000).ReachableBy CursorKept s :=
    (TransitionSystem.ReachableBy.start rfl).follow (fun _ _ _ hst => hst) hs
  exact ⟨s, hkept.reachable, hlive, (cursorValid_of_kept hkept).1⟩

/-- The cursor stands on the block of the second region when it is released. -/
theorem release_loses_cursor : ∃ s, (memorySystem 0x20010000).Reachable s ∧
    ¬ s.mem.pm.CursorValid := by
  let ops : List MemoryOp := [.createRootPt, .allocate 0x20000000 0x40000000 4096,
    .allocate 0x20000000 0x40001000 4096, .allocate 0x20000000 0x40002000 4096,
    .release 0x20000000 0x40001000]
  have hrun : (ops.foldlM exec ⟨Memory.new 0x20010000, [], []⟩).map
      (fun s : MemoryState => s.mem.pm.currentBlock) = some none := by decide +kernel
  obtain ⟨s, hs, hnone⟩ := Option.map_eq_some_iff.mp hrun
  refine ⟨s, (TransitionSystem.ReachableBy.start rfl).run (fun _ _ _ _ hst => ⟨trivial, hst⟩) hs, ?_⟩
  rintro ⟨i, hi, -⟩
  rw [hnone] at hi
  cases hi

end MemoryState
end VentusDriver
