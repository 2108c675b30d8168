import VentusDriver.Device.VirtualAccess

/-! What `release` does. It removes the block behind a mapped page and leaves every table entry as
it is, so all walks stay and the entries of the region lead to pages without storage. -/
namespace VentusDriver
open Foundation Foundation.Intervals Foundation.Radix Sv39

namespace PhysicalMemory
variable {pm pm' : PhysicalMemory} {root : ℕ → Prop}

/-! ### Reading a memory with fewer blocks -/

/-- An access that a remaining block spans reads the same bytes. -/
lemma readData_of_subset (h : pm.Ordered) (hsub : ∀ c ∈ pm'.blocks, c ∈ pm.blocks) {b : Block}
    (hb : b ∈ pm'.blocks) {addr len : ℕ} (hlen : 0 < len) (hlow : b.addr ≤ addr)
    (hhigh : addr + len ≤ b.limit) (out : ℕ → UInt8) :
    pm'.readData addr len out = pm.readData addr len out := by
  have hlim := h.limit_lt (hsub b hb)
  have hspan : ∀ c ∈ pm.blocks, spans c addr len ↔ c.addr ≤ addr ∧ addr + len ≤ c.limit :=
    fun c hc => spans_iff h hc (by omega)
  have huniq : ∀ c ∈ pm.blocks, decide (spans c addr len) = true → c = b := by
    intro c hc hcs
    obtain ⟨h1, h2⟩ := (hspan c hc).mp (of_decide_eq_true hcs)
    exact block_unique h hc (hsub b hb) (x := addr) ⟨h1, by omega⟩ ⟨hlow, by omega⟩
  have hhere : decide (spans b addr len) = true :=
    decide_eq_true ((hspan b (hsub b hb)).mpr ⟨hlow, hhigh⟩)
  have hfind := find?_eq_of_unique (hsub b hb) hhere huniq
  have hfind' := find?_eq_of_unique hb hhere fun c hc => huniq c (hsub c hc)
  rw [readData, readData, readBlocks_eq, readBlocks_eq, hfind, hfind']

lemma byteAt_of_subset (h : pm.Ordered) (hsub : ∀ c ∈ pm'.blocks, c ∈ pm.blocks) {b : Block}
    (hb : b ∈ pm'.blocks) (hsome : b.pages.isSome = true) {x : ℕ}
    (hx : b.addr ≤ x ∧ x < b.limit) : pm'.byteAt x = pm.byteAt x := by
  have hfind' : pm'.blocks.find? (fun c => c.backs x) = some b := by
    refine find?_eq_of_unique hb (Block.backs_iff.mpr ⟨hsome, hx⟩) fun c hc hcx => ?_
    exact block_unique h (hsub c hc) (hsub b hb) (Block.backs_iff.mp hcx).2 hx
  rw [byteAt_eq h (hsub b hb) hsome hx, byteAt, hfind']

/-! ### Removing a block -/

/-- The scan of `remove` reaches the block that contains the address. -/
lemma findRemove_of_mem {addr : ℕ} {b : Block} {l : List Block} (k : ℕ)
    (hasc : Ascending Block.addr Block.limit l) (hlim : ∀ c ∈ l, c.endAddr = c.limit) (hb : b ∈ l)
    (hlow : b.addr ≤ addr) (hhigh : addr < b.limit) : ∃ i, findRemove addr l k = some i := by
  induction l generalizing k with
  | nil => simp at hb
  | cons c rest ih =>
    have hend : u64 (c.addr + c.size) = c.limit := hlim c List.mem_cons_self
    rw [findRemove, hend]
    split_ifs with hin hbefore
    · exact ⟨k, rfl⟩
    · -- a block that starts behind the address would end before the block that contains it
      cases List.mem_cons.mp hb with
      | inl heq =>
        subst heq
        omega
      | inr hb =>
        have := List.rel_of_pairwise_cons hasc hb
        simp only [Block.limit] at this
        omega
    · cases List.mem_cons.mp hb with
      | inl heq =>
        subst heq
        exact absurd ⟨hlow, hhigh⟩ hin
      | inr hb =>
        exact ih (k + 1) hasc.tail (fun d hd => hlim d (List.mem_cons_of_mem _ hd)) hb

lemma remove_sublist (pm : PhysicalMemory) (addr : ℕ) :
    (pm.remove addr).2.maxRange = pm.maxRange ∧ (pm.remove addr).2.blocks.Sublist pm.blocks := by
  unfold remove
  split
  · exact ⟨rfl, List.Sublist.refl _⟩
  · exact ⟨rfl, List.eraseIdx_sublist ..⟩

/-- What is left when the block `b` has been removed. -/
structure Removed (pm : PhysicalMemory) (b : Block) (pm' : PhysicalMemory) : Prop where
  subset : ∀ c ∈ pm'.blocks, c ∈ pm.blocks
  others : ∀ c ∈ pm.blocks, c ≠ b → c ∈ pm'.blocks
  gone : ∀ c ∈ pm'.blocks, ∀ x, b.addr ≤ x → x < b.limit → ¬ (c.addr ≤ x ∧ x < c.limit)

theorem remove_spec (h : pm.Ordered) {b : Block} (hb : b ∈ pm.blocks) {addr : ℕ}
    (hlow : b.addr ≤ addr) (hhigh : addr < b.limit) : Removed pm b (pm.remove addr).2 := by
  obtain ⟨i, hfind⟩ := findRemove_of_mem 0 h.ascending (fun c hc => h.endAddr_eq hc) hb hlow hhigh
  obtain ⟨-, c, hget, hclow, hchigh⟩ := findRemove_some hfind
  rw [Nat.sub_zero] at hget
  obtain ⟨hi, hci⟩ := List.getElem?_eq_some_iff.mp hget
  have hc : c ∈ pm.blocks := hci ▸ List.getElem_mem _
  rw [h.endAddr_eq hc] at hchigh
  obtain rfl : c = b := block_unique h hc hb ⟨hclow, hchigh⟩ ⟨hlow, hhigh⟩
  have hblocks : (pm.remove addr).2.blocks = pm.blocks.eraseIdx i := by simp [remove, hfind]
  refine ⟨?_, ?_, ?_⟩
  · intro d hd
    rw [hblocks] at hd
    exact List.mem_of_mem_eraseIdx hd
  · intro d hd hne
    obtain ⟨j, hj, rfl⟩ := List.mem_iff_getElem.mp hd
    rw [hblocks, List.mem_eraseIdx_iff_getElem]
    exact ⟨j, hj, fun hji => hne (by subst hji; exact hci), rfl⟩
  · intro d hd x hx hx' hin
    rw [hblocks, List.mem_eraseIdx_iff_getElem] at hd
    obtain ⟨j, hj, hne, rfl⟩ := hd
    exact hne (h.ascending.index_unique hj hi hin (hci ▸ ⟨hx, hx'⟩))

/-- Erasing the one element that fails a test is filtering. -/
lemma eraseIdx_eq_filter {α : Type*} {l : List α} {p : α → Bool} {i : ℕ} {a : α} (ha : l[i]? = some a)
    (hp : p a = false) (hothers : ∀ j c, l[j]? = some c → j ≠ i → p c = true) :
    l.eraseIdx i = l.filter p := by
  induction l generalizing i with
  | nil => rfl
  | cons c rest ih =>
    cases i with
    | zero =>
      obtain rfl := Option.some.inj ha
      have hrest : rest.filter p = rest := by
        rw [List.filter_eq_self]
        intro d hd
        obtain ⟨j, hj⟩ := List.mem_iff_getElem?.mp hd
        exact hothers (j + 1) d hj (Nat.succ_ne_zero j)
      rw [List.filter_cons_of_neg (by rw [hp]; decide), hrest]
      rfl
    | succ i =>
      have hc : p c = true := hothers 0 c rfl (Nat.succ_ne_zero i).symm
      rw [List.filter_cons_of_pos hc, List.eraseIdx_cons_succ,
        ih ha fun j d hd hne => hothers (j + 1) d hd (by omega)]

/-- The block that `remove` takes away is the only one in its place. -/
theorem remove_filter (h : pm.Ordered) {b : Block} (hb : b ∈ pm.blocks) {addr : ℕ}
    (hlow : b.addr ≤ addr) (hhigh : addr < b.limit) :
    (pm.remove addr).2.blocks = pm.blocks.filter fun c => decide (c.frame ≠ b.frame) := by
  obtain ⟨i, hfind⟩ := findRemove_of_mem 0 h.ascending (fun c hc => h.endAddr_eq hc) hb hlow hhigh
  obtain ⟨-, c, hget, hclow, hchigh⟩ := findRemove_some hfind
  rw [Nat.sub_zero] at hget
  have hc := List.mem_of_getElem? hget
  rw [h.endAddr_eq hc] at hchigh
  obtain rfl : c = b := block_unique h hc hb ⟨hclow, hchigh⟩ ⟨hlow, hhigh⟩
  have hblocks : (pm.remove addr).2.blocks = pm.blocks.eraseIdx i := by simp [remove, hfind]
  rw [hblocks]
  refine eraseIdx_eq_filter hget (by simp) fun j d hd hne => ?_
  obtain ⟨hi, hci⟩ := List.getElem?_eq_some_iff.mp hget
  obtain ⟨hj, hdj⟩ := List.getElem?_eq_some_iff.mp hd
  rw [decide_eq_true_eq]
  intro hframe
  obtain ⟨haddr, hlimit, -⟩ := Block.span_of_frame hframe
  have hd : d.addr ≤ addr ∧ addr < d.limit := by rw [haddr, hlimit]; exact ⟨hlow, hhigh⟩
  exact hne (h.ascending.index_unique hj hi (hdj ▸ hd) (hci ▸ ⟨hlow, hhigh⟩))

/-- An address outside all blocks removes nothing. -/
lemma remove_none (h : pm.Ordered) {addr : ℕ} (hout : ∀ b ∈ pm.blocks, ¬ (b.addr ≤ addr ∧ addr < b.limit)) :
    (pm.remove addr).2 = pm := by
  unfold remove
  cases hfind : findRemove addr pm.blocks 0 with
  | none => rfl
  | some i =>
    obtain ⟨-, b, hget, hlow, hhigh⟩ := findRemove_some hfind
    have hb := List.mem_of_getElem? hget
    rw [h.endAddr_eq hb] at hhigh
    exact absurd ⟨hlow, hhigh⟩ (hout b hb)

namespace PageTables

/-- Removing the block of a mapped page leaves every walk, every table and every page of another
root as it is. -/
theorem removed (h : pm.PageTables root) {b : Block} {r q : ℕ} {path : List ℕ} (hr : root r)
    (hpath : path.length = 3) (hq : walk pm.entry r path = some q) (hb : b ∈ pm.blocks)
    (hlow : b.addr ≤ q) (hhigh : q < b.limit) (hrem : Removed pm b pm') :
    (∀ r' path', root r' → path'.length ≤ 3 → walk pm'.entry r' path' = walk pm.entry r' path') ∧
      ∀ r' path' t, root r' → path'.length ≤ 3 → walk pm.entry r' path' = some t →
        (r' ≠ r ∨ path'.length < 3) →
        pm'.Backed t 4096 ∧ ∀ x, t ≤ x → x < t + 4096 → pm'.byteAt x = pm.byteAt x := by
  have hkeep : ∀ r' path' t, root r' → path'.length ≤ 3 → walk pm.entry r' path' = some t →
      (r' ≠ r ∨ path'.length < 3) →
      ∃ c ∈ pm'.blocks, c.pages.isSome = true ∧ c.addr ≤ t ∧ t + 4096 ≤ c.limit := by
    intro r' path' t hr' hlen ht hother
    obtain ⟨c, hc, hsome, hclow, hchigh⟩ := (h.page t ⟨r', path', hr', hlen, ht⟩).2
    refine ⟨c, hrem.others c hc ?_, hsome, hclow, hchigh⟩
    -- a table or a page of another root does not share the block of a mapped page
    rintro rfl
    obtain ⟨rfl, rfl | ⟨-, hl⟩⟩ := h.together c hc r r' path path' q t hr hr' (by omega) hlen hq ht
      hlow hhigh hclow (by omega)
    · omega
    · omega
  have hsame : ∀ t i, IsTable pm.entry 3 root t → pm'.entry t i = pm.entry t i := by
    rintro t i ⟨r'', path'', hr'', hlen'', ht⟩
    obtain ⟨c, hc, -, hclow, hchigh⟩ := hkeep r'' path'' t hr'' (by omega) ht (.inr hlen'')
    have hlim := h.ordered.limit_lt (hrem.subset c hc)
    apply entry_of_pte_eq
    intro hi
    simp only [pte, readValue, entryAddr_eq (show t < 2 ^ 57 by omega) hi,
      readData_of_subset h.ordered hrem.subset hc (show 0 < 8 by norm_num)
        (show c.addr ≤ t + i * 8 by omega) (by omega)]
  refine ⟨fun r' path' hr' hlen => walk_congr hsame hr' hlen, ?_⟩
  intro r' path' t hr' hlen ht hother
  obtain ⟨c, hc, hsome, hclow, hchigh⟩ := hkeep r' path' t hr' hlen ht hother
  exact ⟨⟨c, hc, hsome, hclow, hchigh⟩, fun x hx hx' =>
    byteAt_of_subset h.ordered hrem.subset hc hsome ⟨by omega, by omega⟩⟩

end PageTables
end PhysicalMemory

namespace Memory
open PhysicalMemory
variable {m : Memory} {root : ℕ → Prop}

/-- Releasing a mapped page removes the block around it and nothing else. -/
theorem release_spec (h : m.pm.PageTables root) {r v q : ℕ} (hr : root r) (hv : 4096 ∣ v)
    (hq : walk m.pm.entry r (vaPath v) = some q) :
    ∃ b ∈ m.pm.blocks, b.pages.isSome = true ∧ b.addr ≤ q ∧ q + 4096 ≤ b.limit ∧
      Removed m.pm b (m.release r v).2.pm ∧ (m.release r v).1 = 0 := by
  obtain ⟨hdvd, b, hb, hsome, hlow, hhigh⟩ := h.page q ⟨r, _, hr, by simp, hq⟩
  have hphys : m.convert r v = q := by
    rw [convert_of_walk h hr hq]
    omega
  have hfind : m.pm.blocks.find? (fun c => decide (c.eqPos q)) = some b := by
    refine find?_eq_of_unique hb ?_ fun c hc hcq => ?_
    · simp only [Block.eqPos, h.ordered.endAddr_eq hb, decide_eq_true_eq]
      omega
    · simp only [Block.eqPos, h.ordered.endAddr_eq hc, decide_eq_true_eq] at hcq
      exact block_unique h.ordered hc hb hcq ⟨hlow, by omega⟩
  have hlength : m.pm.length q ≠ 0 := by
    rw [PhysicalMemory.length, hfind]
    simp only [Block.limit] at hhigh ⊢
    omega
  have hrel : m.release r v = (0, ⟨(m.pm.remove q).2⟩) := by
    simp only [release, hphys, hlength, if_false, pageSize_eq]
    rfl
  exact ⟨b, hb, hsome, hlow, hhigh, hrel ▸ remove_spec h.ordered hb hlow (by omega), by rw [hrel]⟩

end Memory
end VentusDriver
