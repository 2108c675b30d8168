import VentusDriver.Device.PhysicalBytes
import VentusDriver.Device.MemoryRuns

/-! Rules for properties of physical memory, whatever the page tables hold. What an insertion at a
usable address and a write keep, every allocation keeps; apart from its data block an allocation inserts
pages only. What a removal and a write keep, releasing and cleaning keep. -/
namespace VentusDriver
open Foundation Sv39

namespace PhysicalMemory

/-- An insertion at an address found by `usable` and a write to an entry of one of the tables `T` keep
the property. -/
structure GrowthRule (T : ℕ → Prop) (P : PhysicalMemory → Prop) : Prop where
  insert : ∀ {pm pm' : PhysicalMemory} {size : ℕ} {status : Int}, P pm → roundPages size = size →
    pm.usable size ≠ 0 → pm.insert (pm.usable size) size true = .ok (status, pm') → P pm'
  next : ∀ {pm : PhysicalMemory} {table i : ℕ}, P pm → T table → i < 512 → T (pm.nextTable table i)
  write : ∀ {pm : PhysicalMemory} {table i : ℕ} (value : ℕ), P pm → T table → i < 512 →
    P (pm.writeValue 8 (entryAddr table i) value).2

/-- The same where only pages are inserted. -/
structure PageRule (T : ℕ → Prop) (P : PhysicalMemory → Prop) : Prop where
  insert : ∀ {pm pm' : PhysicalMemory} {status : Int}, P pm → pm.usable pageSize ≠ 0 →
    pm.insert (pm.usable pageSize) pageSize true = .ok (status, pm') → P pm'
  next : ∀ {pm : PhysicalMemory} {table i : ℕ}, P pm → T table → i < 512 → T (pm.nextTable table i)
  write : ∀ {pm : PhysicalMemory} {table i : ℕ} (value : ℕ), P pm → T table → i < 512 →
    P (pm.writeValue 8 (entryAddr table i) value).2

/-- A removal at one of the addresses and a write keep the property. -/
structure RemovalRule (Q : ℕ → Prop) (P : PhysicalMemory → Prop) : Prop where
  remove : ∀ {pm : PhysicalMemory} {addr : ℕ}, P pm → Q addr → P (pm.remove addr).2
  write : ∀ {pm : PhysicalMemory} (addr len : ℕ) (data : ℕ → UInt8), P pm →
    P (pm.writeData addr len data).2

variable {pm pm' : PhysicalMemory} {T : ℕ → Prop} {P : PhysicalMemory → Prop}

/-! ### Allocation -/

lemma GrowthRule.pageRule (rule : GrowthRule T P) : PageRule T P := by
  refine ⟨fun hs hp hins => ?_, rule.next, rule.write⟩
  exact rule.insert hs (roundPages_of_dvd (by rw [pageSize_eq]) (by norm_num [pageSize_eq])) hp hins

namespace PageRule

lemma ensureTable (rule : PageRule T P) {table i : ℕ} {ok : Bool} (hs : P pm) (ht : T table)
    (hi : i < 512)
    (heq : pm.ensureTable table i = .ok (ok, pm')) : P pm' := by
  simp only [PhysicalMemory.ensureTable] at heq
  split_ifs at heq with hv hp
  · simp only [Except.ok.injEq, Prod.mk.injEq] at heq
    exact heq.2 ▸ hs
  · cases hins : pm.insert (pm.usable pageSize) pageSize true with
    | error e => simp [hins] at heq
    | ok r =>
      simp only [hins, Except.ok.injEq, Prod.mk.injEq] at heq
      exact heq.2 ▸ rule.write _ (rule.insert hs hp hins) ht hi
  · simp only [Except.ok.injEq, Prod.mk.injEq] at heq
    exact heq.2 ▸ hs

lemma allocateLevel (rule : PageRule T P) {table i cached : ℕ} {ok : Bool} (hs : P pm)
    (ht : T table) (hi : i < 512)
    (heq : pm.allocateLevel table i cached = .ok (ok, pm')) : P pm' := by
  unfold PhysicalMemory.allocateLevel at heq
  split_ifs at heq
  · exact rule.ensureTable hs ht hi heq
  · simp only [Except.ok.injEq, Prod.mk.injEq] at heq
    exact heq.2 ▸ hs

lemma mapLeaf (rule : PageRule T P) {table i : ℕ} (pa : ℕ) (hs : P pm) (ht : T table)
    (hi : i < 512) : P (pm.mapLeaf table i pa) := by
  unfold PhysicalMemory.mapLeaf
  split_ifs
  · exact rule.write _ hs ht hi
  · exact hs

lemma allocatePage (rule : PageRule T P) {root va pa : ℕ} {idx idx' : PtIdx} {ok : Bool} (hs : P pm)
    (ht : T root) (heq : pm.allocatePage root va pa idx = .ok (ok, idx', pm')) : P pm' := by
  unfold PhysicalMemory.allocatePage at heq
  cases h₀ : pm.allocateLevel root (vaExtract va 0) idx.level0 with
  | error e => simp [h₀] at heq
  | ok r₀ =>
    obtain ⟨ok₀, pm₀⟩ := r₀
    have hs₀ := rule.allocateLevel hs ht (vaExtract_lt va 0) h₀
    cases ok₀ with
    | false =>
      simp only [h₀, Except.ok.injEq, Prod.mk.injEq] at heq
      exact heq.2.2 ▸ hs₀
    | true =>
      simp only [h₀] at heq
      have ht₁ := rule.next hs₀ ht (vaExtract_lt va 0)
      cases h₁ : pm₀.allocateLevel (pm₀.nextTable root (vaExtract va 0)) (vaExtract va 1) idx.level1 with
      | error e => simp [h₁] at heq
      | ok r₁ =>
        obtain ⟨ok₁, pm₁⟩ := r₁
        have hs₁ := rule.allocateLevel hs₀ ht₁ (vaExtract_lt va 1) h₁
        cases ok₁ with
        | false =>
          simp only [h₁, Except.ok.injEq, Prod.mk.injEq] at heq
          exact heq.2.2 ▸ hs₁
        | true =>
          simp only [h₁, Except.ok.injEq, Prod.mk.injEq] at heq
          obtain ⟨-, -, rfl⟩ := heq
          split_ifs
          · exact rule.mapLeaf _ hs₁ (rule.next hs₁ ht₁ (vaExtract_lt va 1)) (vaExtract_lt va 2)
          · exact hs₁

theorem allocatePages (rule : PageRule T P) {root vAddr pAddr n iter : ℕ} {idx : PtIdx} {ok : Bool}
    (hs : P pm) (ht : T root)
    (heq : PhysicalMemory.allocatePages root vAddr pAddr n iter idx pm = .ok (ok, pm')) :
    P pm' := by
  induction n generalizing iter idx pm with
  | zero =>
    simp only [PhysicalMemory.allocatePages, Except.ok.injEq, Prod.mk.injEq] at heq
    exact heq.2 ▸ hs
  | succ n ih =>
    unfold PhysicalMemory.allocatePages at heq
    cases hpage : pm.allocatePage root (u64 (vAddr + iter)) (u64 (pAddr + iter)) idx with
    | error e => simp [hpage] at heq
    | ok r =>
      obtain ⟨ok', idx', pm₁⟩ := r
      have hs₁ := rule.allocatePage hs ht hpage
      cases ok' with
      | false =>
        simp only [hpage, Except.ok.injEq, Prod.mk.injEq] at heq
        exact heq.2 ▸ hs₁
      | true =>
        simp only [hpage] at heq
        exact ih hs₁ heq

theorem createRootPt (rule : PageRule T P) {m m' : Memory} {root : ℕ} (hs : P m.pm)
    (heq : m.createRootPt = .ok (root, m')) : P m'.pm := by
  simp only [Memory.createRootPt] at heq
  split_ifs at heq with hp
  · cases hins : m.pm.insert (m.pm.usable pageSize) pageSize true with
    | error e => simp [hins] at heq
    | ok r =>
      simp only [hins, Except.ok.injEq, Prod.mk.injEq] at heq
      exact heq.2 ▸ rule.insert hs hp hins
  · simp only [Except.ok.injEq, Prod.mk.injEq] at heq
    exact heq.2 ▸ hs

end PageRule

theorem GrowthRule.allocate (rule : GrowthRule T P) {m m' : Memory} {root vAddr length p : ℕ} (hs : P m.pm)
    (ht : T root) (heq : m.allocate root vAddr length = .ok (p, m')) : P m'.pm := by
  rcases Memory.allocate_cases heq with ⟨-, -, rfl⟩ | ⟨hp, status, pm, hins, hcase⟩
  · exact hs
  · have hs₁ := rule.insert hs (roundPages_idem length) hp hins
    rcases hcase with ⟨-, -, rfl⟩ | ⟨-, ok, hpages, -⟩
    · exact hs₁
    · exact rule.pageRule.allocatePages hs₁ ht hpages

/-! ### Writing -/

/-- What every action keeps, the loop over the chunks keeps. -/
lemma actVirtLoop_keeps {σ : Type*} {conv : σ → ℕ → ℕ} {action : ℕ → ℕ → ℕ → σ → σ} {P : σ → Prop}
    (haction : ∀ addr len off s, P s → P (action addr len off s)) {vAddr k it vpn len pAddr : ℕ} {s : σ}
    (hs : P s) : P (Memory.actVirtLoop conv action vAddr k it vpn len pAddr s).2 := by
  induction k generalizing it vpn len pAddr s with
  | zero => exact haction _ _ _ _ hs
  | succ k ih =>
    rw [Memory.actVirtLoop]
    by_cases hleave : vpn = Memory.vpnOf (u64 (vAddr + it))
    · rw [if_neg (not_not.mpr hleave)]
      by_cases hp : pAddr = 0
      · rwa [if_pos hp]
      · rw [if_neg hp]
        exact ih hs
    · rw [if_pos hleave]
      have hs' : P (if len ≠ 0 then action pAddr len (it - len) s else s) := by
        split_ifs
        · exact haction _ _ _ _ hs
        · exact hs
      generalize (if len ≠ 0 then action pAddr len (it - len) s else s) = s' at hs' ⊢
      dsimp only
      split_ifs
      all_goals first | exact hs' | exact ih hs'

lemma writeVirt_keeps
    (hwrite : ∀ {pm : PhysicalMemory} (addr len : ℕ) (data : ℕ → UInt8), P pm →
      P (pm.writeData addr len data).2) {m : Memory} (root vAddr size : ℕ) (input : ℕ → UInt8)
    (hs : P m.pm) : P (m.writeVirt root vAddr size input).2.pm := by
  simp only [Memory.writeVirt, Memory.actVirt]
  split_ifs
  · exact hs
  · exact actVirtLoop_keeps (P := fun m : Memory => P m.pm) (fun addr len off m hm => hwrite addr len _ hm) hs

end PhysicalMemory

/-! ### Cleaning -/

namespace Cleanup
open PhysicalMemory

/-- The second state is reached from the first by removals and cleared entries. -/
inductive Cleans (s : Cleanup) : Cleanup → Prop
  | refl : Cleans s s
  | remove {t : Cleanup} (h : Cleans s t) (addr : ℕ) : Cleans s (t.remove addr)
  | clear {t : Cleanup} (h : Cleans s t) (table i : ℕ) : Cleans s (t.clear table i)

variable {s t : Cleanup}

theorem removeTree_cleans (levels table : ℕ) (h : Cleans s t) :
    Cleans s (removeTree levels table t) := by
  induction levels generalizing table t with
  | zero => exact h.remove table
  | succ levels ih =>
    apply Cleans.remove
    apply List.foldlRecOn (List.range 512) _ h
    intro t ht i _
    split_ifs
    · exact ht
    · exact ih _ ht

lemma cleanEntry_cleans (pt1 i : ℕ) {r : Bool × Cleanup} (h : Cleans s r.2) :
    Cleans s (cleanEntry pt1 r i).2 := by
  unfold cleanEntry
  split_ifs
  · exact h
  · dsimp only
    split_ifs
    · exact (h.remove _).clear pt1 i
    · exact h

lemma cleanRootEntry_cleans (root i : ℕ) (h : Cleans s t) : Cleans s (cleanRootEntry root t i) := by
  unfold cleanRootEntry
  split_ifs
  · exact h
  · have hentries : Cleans s ((List.range 512).foldl (cleanEntry (t.pm.nextTable root i)) (true, t)).2 := by
      apply List.foldlRecOn (motive := fun r : Bool × Cleanup => Cleans s r.2) (List.range 512) _ h
      exact fun r hr i _ => cleanEntry_cleans _ i hr
    dsimp only
    split_ifs
    · exact (hentries.remove _).clear root i
    · exact hentries

end Cleanup

namespace PhysicalMemory

theorem cleanPt_cleans (pm : PhysicalMemory) (root : ℕ) : Cleanup.Cleans ⟨pm, []⟩ (pm.cleanPt root) :=
  List.foldlRecOn (motive := Cleanup.Cleans ⟨pm, []⟩) (List.range 512) _ .refl
    fun _ hs i _ => Cleanup.cleanRootEntry_cleans root i hs

theorem cleanTask_cleans (pm : PhysicalMemory) (root : ℕ) :
    Cleanup.Cleans ⟨pm, []⟩ (pm.cleanTask root) := Cleanup.removeTree_cleans 3 root .refl

/-- What every removal of the log and every write keeps, cleaning keeps. -/
theorem RemovalRule.cleans {P : PhysicalMemory → Prop} {Q : ℕ → Prop} (rule : RemovalRule Q P)
    {s t : Cleanup} (h : Cleanup.Cleans s t) (hQ : ∀ addr ∈ t.log, Q addr) (hs : P s.pm) :
    P t.memory.pm := by
  show P t.pm
  simp only [Cleanup.log, List.mem_reverse] at hQ
  induction h with
  | refl => exact hs
  | remove _ addr ih =>
    have hbefore := ih fun a ha => hQ a (List.mem_cons_of_mem _ ha)
    exact rule.remove hbefore (hQ addr List.mem_cons_self)
  | clear _ table i ih => exact rule.write _ _ _ (ih hQ)

end PhysicalMemory

/-! ### Steps -/

namespace MemoryState
open PhysicalMemory

/-- The physical addresses that a step passes to `remove`. -/
def removedBy (s : MemoryState) : MemoryOp → List ℕ
  | .release root vAddr =>
    if s.mem.pm.length (s.mem.convert root vAddr) = 0 then [] else [s.mem.convert root vAddr]
  | .cleanPt root => (s.mem.pm.cleanPt root).log
  | .cleanTask root => (s.mem.pm.cleanTask root).log
  | _ => []

variable {s t : MemoryState} {op : MemoryOp} {P : PhysicalMemory → Prop}

theorem exec_growthRule (rule : GrowthRule (fun _ => True) P)
    (hwrite : ∀ {pm : PhysicalMemory} (addr len : ℕ) (data : ℕ → UInt8), P pm →
      P (pm.writeData addr len data).2) (hkeep : ¬ Removes op) (hstep : s.exec op = some t)
    (hs : P s.mem.pm) : P t.mem.pm := by
  cases exec_call hstep with
  | createRootPt hmem => exact rule.pageRule.createRootPt hs hmem
  | allocate hroot hmem => exact rule.allocate hs trivial hmem
  | @writeVirt root vAddr hroot hv size input =>
    exact writeVirt_keeps hwrite root vAddr size input hs
  | release hroot vAddr => exact absurd trivial hkeep
  | cleanPt hroot => exact absurd trivial hkeep
  | cleanTask hroot => exact absurd trivial hkeep

/-- A step that removes does to the memory what its log says, apart from cleared entries. -/
theorem exec_cleans (hrem : Removes op) (hstep : s.exec op = some t) :
    ∃ c : Cleanup, Cleanup.Cleans ⟨s.mem.pm, []⟩ c ∧ s.removedBy op = c.log ∧ t.mem = c.memory := by
  cases exec_call hstep with
  | createRootPt hmem => exact hrem.elim
  | allocate hroot hmem => exact hrem.elim
  | writeVirt hroot hv size input => exact hrem.elim
  | @release root hroot vAddr =>
    simp only [removedBy, released, Memory.release]
    split_ifs
    · exact ⟨⟨s.mem.pm, []⟩, .refl, rfl, rfl⟩
    · exact ⟨_, Cleanup.Cleans.refl.remove (s.mem.convert root vAddr), rfl, rfl⟩
  | @cleanPt root hroot => exact ⟨s.mem.pm.cleanPt root, cleanPt_cleans s.mem.pm root, rfl, rfl⟩
  | @cleanTask root hroot =>
    exact ⟨s.mem.pm.cleanTask root, cleanTask_cleans s.mem.pm root, rfl, rfl⟩

end MemoryState

/-! ### The order of the list -/

namespace PhysicalMemory

/-- The list is in order; the cursor designates a block of it, or none. -/
structure Intact (pm : PhysicalMemory) : Prop where
  ordered : pm.Ordered
  cursor : pm.currentBlock = none ∨ pm.CursorValid

variable {pm : PhysicalMemory}

lemma remove_cursor (hcursor : pm.currentBlock = none ∨ pm.CursorValid) (addr : ℕ) :
    (pm.remove addr).2.currentBlock = none ∨ (pm.remove addr).2.CursorValid := by
  unfold remove
  cases hfind : findRemove addr pm.blocks 0 with
  | none => exact hcursor
  | some k =>
    obtain ⟨-, b, hb, -⟩ := findRemove_some hfind
    obtain ⟨hk, -⟩ := List.getElem?_eq_some_iff.mp hb
    rw [Nat.sub_zero] at hk
    rcases hcursor with hnone | ⟨i, hi, hlt⟩
    · simp [hnone, cursorAfterErase]
    · have hlen := List.length_eraseIdx_of_lt hk
      simp only [hi, cursorAfterErase]
      split_ifs
      · exact .inl rfl
      · exact .inr ⟨i - 1, rfl, by simp only [hlen]; omega⟩
      · exact .inr ⟨i, rfl, by simp only [hlen]; omega⟩

/-- An insertion that returns has found its cursor and leaves one. -/
lemma Intact.insert (hs : pm.Intact) {pm' : PhysicalMemory} {size : ℕ} {status : Int}
    (hround : roundPages size = size) (hp : pm.usable size ≠ 0)
    (hins : pm.insert (pm.usable size) size true = .ok (status, pm')) :
    pm'.Ordered ∧ pm'.CursorValid := by
  cases hs.cursor with
  | inl hnone =>
    unfold PhysicalMemory.insert at hins
    cases hnew : Block.new (pm.usable size) size true <;> simp [hnew, hnone, bind, Except.bind] at hins
  | inr hcursor =>
    by_cases hhuge : 2 ^ 63 ≤ size
    · rw [insert_huge (hround.symm ▸ hhuge)] at hins
      cases hins
    · obtain ⟨hgap, hnext⟩ := usable_gap hs.ordered (by omega) hp rfl
      rw [hround] at hgap hnext
      rcases insert_cases hs.ordered hcursor hgap hnext with ⟨pm₁, hins', hat⟩ | ⟨hins', -⟩
      · rw [hins] at hins'
        obtain ⟨-, rfl⟩ := Prod.mk.inj (Except.ok.inj hins')
        exact ⟨hat.ordered hs.ordered hgap (hround ▸ roundPages_dvd size), hat.cursorValid⟩
      · rw [hins] at hins'
        obtain ⟨-, rfl⟩ := Prod.mk.inj (Except.ok.inj hins')
        obtain ⟨i, -, hi⟩ := hcursor
        exact ⟨hs.ordered.of_frames rfl rfl, 0, rfl, by simp only; omega⟩

lemma Intact.writeData (hs : pm.Intact) (addr len : ℕ) (data : ℕ → UInt8) :
    (pm.writeData addr len data).2.Intact := by
  have hframes := writeData_sameFrames pm addr len data
  refine ⟨hframes.ordered hs.ordered, hs.cursor.imp (fun hnone => ?_) hframes.cursorValid⟩
  rw [hframes.cursor, hnone]

theorem intact_growthRule : GrowthRule (fun _ => True) Intact := by
  refine ⟨?_, fun _ _ _ => trivial, fun _ hs _ _ => hs.writeData _ _ _⟩
  intro pm pm' size status hs hround hp hins
  obtain ⟨hord, hcursor⟩ := hs.insert hround hp hins
  exact ⟨hord, .inr hcursor⟩

lemma ordered_cursorValid_writeData (hs : pm.Ordered ∧ pm.CursorValid) (addr len : ℕ) (data : ℕ → UInt8) :
    (pm.writeData addr len data).2.Ordered ∧ (pm.writeData addr len data).2.CursorValid := by
  have hframes := writeData_sameFrames pm addr len data
  exact ⟨hframes.ordered hs.1, hframes.cursorValid hs.2⟩

theorem cursorValid_growthRule : GrowthRule (fun _ => True) fun pm => pm.Ordered ∧ pm.CursorValid := by
  refine ⟨?_, fun _ _ _ => trivial, fun _ hs _ _ => ordered_cursorValid_writeData hs _ _ _⟩
  intro pm pm' size status hs hround hp hins
  exact Intact.insert ⟨hs.1, .inr hs.2⟩ hround hp hins

theorem intact_removalRule : RemovalRule (fun _ => True) Intact := by
  constructor
  · intro pm addr hs _
    obtain ⟨hrange, hsub⟩ := remove_sublist pm addr
    exact ⟨hs.ordered.sublist hrange hsub, remove_cursor hs.cursor addr⟩
  · exact fun addr len data hs => hs.writeData addr len data

end PhysicalMemory

namespace MemoryState
open PhysicalMemory
variable {s t : MemoryState} {op : MemoryOp}

lemma exec_intact (hstep : s.exec op = some t) (hs : s.mem.pm.Intact) : t.mem.pm.Intact := by
  by_cases hrem : Removes op
  · obtain ⟨c, hc, -, heq⟩ := exec_cleans hrem hstep
    rw [heq]
    exact intact_removalRule.cleans hc (fun _ _ => trivial) hs
  · exact exec_growthRule intact_growthRule (fun addr len data hs => hs.writeData addr len data) hrem hstep hs

/-- In every run the list stays in order, or no root was ever made. -/
theorem intact_of_reachable {range : ℕ} (h : (memorySystem range).Reachable s) :
    s.mem.pm.Intact ∨ (range < 0x20000000 ∧ s = ⟨Memory.new range, [], []⟩) := by
  refine h.invariant (I := fun s => s.mem.pm.Intact ∨
    (range < 0x20000000 ∧ s = ⟨Memory.new range, [], []⟩)) ?_ ?_
  · rintro s rfl
    by_cases hrange : range < 0x20000000
    · exact .inr ⟨hrange, rfl⟩
    · have hwf := new_wellFormed (Nat.not_lt.mp hrange)
      exact .inl ⟨hwf.ordered, .inr hwf.cursor⟩
  · rintro s op t (hs | ⟨hrange, rfl⟩) - hstep
    · exact .inl (exec_intact hstep hs)
    · exact .inr ⟨hrange, exec_small hrange hstep⟩

end MemoryState
end VentusDriver
