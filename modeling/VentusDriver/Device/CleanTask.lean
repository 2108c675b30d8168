import VentusDriver.Device.MemoryRules

/-! What `clean_task` removes: the block around every page that the root reaches, and no other. For runs
that make roots, allocate and write, these are the blocks of the root, of its tables and of its regions,
but for an empty region, whose block contains no address. -/
namespace VentusDriver
open Foundation Foundation.Radix Sv39

namespace PhysicalMemory
variable {pm pm' : PhysicalMemory} {roots : ℕ → Prop} {root : ℕ}

/-- The block contains a page that the root reaches along one of the paths. -/
def Hit (pm : PhysicalMemory) (root : ℕ) (done : List ℕ → Prop) (b : Block) : Prop :=
  ∃ path q, done path ∧ path.length ≤ 3 ∧ walk pm.entry root path = some q ∧ b.addr ≤ q ∧ q < b.limit

open Classical in
/-- The blocks around the pages reached along the given paths are gone. -/
structure Erased (pm : PhysicalMemory) (root : ℕ) (done : List ℕ → Prop) (pm' : PhysicalMemory) : Prop where
  maxRange : pm'.maxRange = pm.maxRange
  blocks : pm'.blocks = pm.blocks.filter fun b => ¬ pm.Hit root done b

namespace Erased
variable {done : List ℕ → Prop}

open Classical in
lemma start (pm : PhysicalMemory) (root : ℕ) : Erased pm root (fun _ => False) pm := by
  refine ⟨rfl, (List.filter_eq_self.mpr fun b _ => ?_).symm⟩
  rw [decide_eq_true_eq]
  rintro ⟨path, q, hdone, -⟩
  exact hdone

open Classical in
/-- Only the paths that lead somewhere count. -/
lemma congr (he : Erased pm root done pm') {done' : List ℕ → Prop}
    (h : ∀ path q, path.length ≤ 3 → walk pm.entry root path = some q → (done path ↔ done' path)) :
    Erased pm root done' pm' := by
  refine ⟨he.maxRange, he.blocks.trans (List.filter_congr fun b _ => ?_)⟩
  rw [decide_eq_decide]
  refine not_congr ⟨?_, ?_⟩
  · rintro ⟨path, q, hdone, hlen, hq, hin⟩
    exact ⟨path, q, (h path q hlen hq).mp hdone, hlen, hq, hin⟩
  · rintro ⟨path, q, hdone, hlen, hq, hin⟩
    exact ⟨path, q, (h path q hlen hq).mpr hdone, hlen, hq, hin⟩

open Classical in
lemma mem_iff (he : Erased pm root done pm') {b : Block} :
    b ∈ pm'.blocks ↔ b ∈ pm.blocks ∧ ¬ pm.Hit root done b := by
  rw [he.blocks, List.mem_filter, decide_eq_true_eq]

lemma ordered (he : Erased pm root done pm') (h : pm.Ordered) : pm'.Ordered := by
  refine h.sublist he.maxRange ?_
  rw [he.blocks]
  exact List.filter_sublist

open Classical in
/-- Removing the block around one more page, or nothing where that block is gone already. -/
theorem remove (he : Erased pm root done pm') (h : pm.Ordered) {path : List ℕ} {q : ℕ}
    (hlen : path.length ≤ 3) (hq : walk pm.entry root path = some q) :
    Erased pm root (fun p => done p ∨ p = path) (pm'.remove q).2 := by
  have hord := he.ordered h
  have hhit : ∀ b : Block, pm.Hit root (fun p => done p ∨ p = path) b ↔
      pm.Hit root done b ∨ (b.addr ≤ q ∧ q < b.limit) := by
    intro b
    constructor
    · rintro ⟨p, q', hdone | rfl, hlen', hq', hin⟩
      · exact .inl ⟨p, q', hdone, hlen', hq', hin⟩
      · obtain rfl := Option.some.inj (hq.symm.trans hq')
        exact .inr hin
    · rintro (⟨p, q', hdone, hrest⟩ | hin)
      · exact ⟨p, q', .inl hdone, hrest⟩
      · exact ⟨path, q, .inr rfl, hlen, hq, hin⟩
  refine ⟨(remove_sublist pm' q).1.trans he.maxRange, ?_⟩
  by_cases hthere : ∃ c ∈ pm'.blocks, c.addr ≤ q ∧ q < c.limit
  · obtain ⟨c, hc, hin⟩ := hthere
    have hc' := (he.mem_iff.mp hc).1
    rw [remove_filter hord hc hin.1 hin.2, he.blocks, List.filter_filter]
    refine List.filter_congr fun b hb => ?_
    rw [← Bool.decide_and, decide_eq_decide, hhit, not_or, and_comm]
    refine and_congr_right fun _ => not_congr ⟨fun hframe => ?_, fun hb' => ?_⟩
    · obtain ⟨haddr, hlimit, -⟩ := Block.span_of_frame hframe
      rw [haddr, hlimit]
      exact hin
    · rw [block_unique h hb hc' hb' hin]
  · have hnone : ∀ c ∈ pm'.blocks, ¬ (c.addr ≤ q ∧ q < c.limit) := fun c hc hin => hthere ⟨c, hc, hin⟩
    rw [remove_none hord hnone, he.blocks]
    refine List.filter_congr fun b hb => ?_
    rw [decide_eq_decide, hhit, not_or]
    exact ⟨fun hkept => ⟨hkept, hnone b (he.mem_iff.mpr ⟨hb, hkept⟩)⟩, And.left⟩

/-- An entry in a block that is still there reads as before. -/
lemma pte (he : Erased pm root done pm') (h : pm.Ordered) {b : Block} (hb : b ∈ pm.blocks)
    (hkept : ¬ pm.Hit root done b) {q i : ℕ} (hlow : b.addr ≤ q) (hhigh : q + 4096 ≤ b.limit)
    (hi : i < 512) : pm'.pte q i = pm.pte q i := by
  have hlim := h.limit_lt hb
  rw [PhysicalMemory.pte, PhysicalMemory.pte, readValue, readValue, entryAddr_eq (by omega) hi,
    readData_of_subset h (fun c hc => (he.mem_iff.mp hc).1) (he.mem_iff.mpr ⟨hb, hkept⟩) (by norm_num)
      (by omega) (by omega)]

end Erased

/-- The block of a table contains no other page of the root. -/
lemma PageTables.not_hit (h : pm.PageTables roots) (hr : roots root) {done : List ℕ → Prop}
    {path : List ℕ} {q : ℕ} (hlen : path.length < 3) (hq : walk pm.entry root path = some q)
    (hdone : ¬ done path) {b : Block} (hb : b ∈ pm.blocks) (hin : b.addr ≤ q ∧ q < b.limit) :
    ¬ pm.Hit root done b := by
  rintro ⟨path', q', hdone', hlen', hq', hin'⟩
  obtain ⟨-, rfl | ⟨hleaf, -⟩⟩ :=
    h.together b hb root root path path' q q' hr hr hlen.le hlen' hq hq' hin.1 hin.2 hin'.1 hin'.2
  · exact hdone hdone'
  · omega

/-- The entries of a table that is still there. -/
lemma Erased.table (h : pm.PageTables roots) (hr : roots root) {done : List ℕ → Prop}
    (he : Erased pm root done pm') {path : List ℕ} {q : ℕ} (hlen : path.length < 3)
    (hq : walk pm.entry root path = some q) (hdone : ¬ done path) {i : ℕ} (hi : i < 512) :
    pm'.pte q i = pm.pte q i := by
  obtain ⟨b, hb, -, hlow, hhigh⟩ := (h.page q ⟨root, path, hr, hlen.le, hq⟩).2
  exact he.pte h.ordered hb (h.not_hit hr hlen hq hdone hb ⟨hlow, by omega⟩) hlow hhigh hi

end PhysicalMemory

namespace Cleanup
open PhysicalMemory
variable {pm : PhysicalMemory} {roots : ℕ → Prop} {root : ℕ}

/-- What the loop does at one entry, given what it does below. -/
lemma removeEntry_erases (h : pm.PageTables roots) (hr : roots root) {below : ℕ → Cleanup → Cleanup}
    {path : List ℕ} {table i : ℕ} {done : List ℕ → Prop} {s : Cleanup} (hlen : path.length < 3)
    (hq : walk pm.entry root path = some table) (hi : i < 512) (he : Erased pm root done s.pm)
    (hself : ¬ done path) (hbelow : ∀ next, walk pm.entry root (path ++ [i]) = some next →
      Erased pm root (fun p => done p ∨ path ++ [i] <+: p) (below next s).pm) :
    Erased pm root (fun p => done p ∨ path ++ [i] <+: p)
      (if s.pm.pte table i &&& V = 0 then s else below (s.pm.nextTable table i) s).pm := by
  have hpte := he.table h hr hlen hq hself hi
  have hvalid := h.valid_iff ⟨root, path, hr, hlen, hq⟩ hi
  have hwalk : walk pm.entry root (path ++ [i]) = pm.entry table i := by
    rw [walk_snoc, hq, Option.bind_some]
  cases hentry : pm.entry table i with
  | none =>
    rw [if_pos (hpte ▸ hvalid.mpr hentry)]
    refine he.congr fun p q _ hp => (or_iff_left ?_).symm
    -- no walk goes through an empty entry
    rintro ⟨rest, rfl⟩
    rw [walk_append, hwalk, hentry, Option.bind_none] at hp
    cases hp
  | some next =>
    have hv : ¬ s.pm.pte table i &&& V = 0 := by
      rw [hpte, hvalid, hentry]
      exact Option.some_ne_none next
    have hnext : s.pm.nextTable table i = next := by
      rw [nextTable, hpte]
      exact (entry_eq_some hentry).2.1
    rw [if_neg hv, hnext]
    exact hbelow next (hwalk.trans hentry)

/-- Below the table on a path everything is removed, and then the table. Removals so far may have hit
any block but the ones of the tables on the path and below. -/
theorem removeTree_erases (h : pm.PageTables roots) (hr : roots root) (levels : ℕ) {path : List ℕ}
    {table : ℕ} {done : List ℕ → Prop} {s : Cleanup} (hlen : path.length + levels = 3)
    (hq : walk pm.entry root path = some table) (he : Erased pm root done s.pm)
    (hnone : ∀ rest, ¬ done (path ++ rest)) :
    Erased pm root (fun p => done p ∨ path <+: p) (removeTree levels table s).pm := by
  induction levels generalizing path table done s with
  | zero =>
    refine (he.remove h.ordered hlen.le hq).congr fun p q hp _ => or_congr_right ⟨?_, ?_⟩
    · rintro rfl
      exact List.prefix_rfl
    · intro hbelow
      exact (hbelow.eq_of_length_le (by omega)).symm
  | succ levels ih =>
    -- the subtrees behind the entries before `n`
    have hloop : ∀ n ≤ 512, Erased pm root (fun p => done p ∨ ∃ i < n, path ++ [i] <+: p)
        ((List.range n).foldl (fun s i =>
          if s.pm.pte table i &&& V = 0 then s else removeTree levels (s.pm.nextTable table i) s) s).pm := by
      intro n hn
      induction n with
      | zero => exact he.congr fun p q _ _ => by simp
      | succ n ihn =>
        have hs := ihn (by omega)
        rw [List.range_succ, List.foldl_append, List.foldl_cons, List.foldl_nil]
        generalize (List.range n).foldl _ s = t at hs ⊢
        have hself : ¬ (done path ∨ ∃ i < n, path ++ [i] <+: path) := by
          rintro (hdone | ⟨i, -, hbelow⟩)
          · exact hnone [] (by rwa [List.append_nil])
          · have := hbelow.length_le
            simp at this
        -- the subtrees before `n` share no path with the one behind `n`
        have hapart : ∀ rest, ¬ (done (path ++ [n] ++ rest) ∨
            ∃ i < n, path ++ [i] <+: path ++ [n] ++ rest) := by
          rintro rest (hdone | ⟨i, hi, hbelow⟩)
          · rw [List.append_assoc] at hdone
            exact hnone _ hdone
          · rw [List.append_assoc] at hbelow
            have hsame := (List.prefix_append_right_inj path).mp hbelow
            simp only [List.singleton_append, List.cons_prefix_cons] at hsame
            omega
        refine (removeEntry_erases h hr (by omega) hq (by omega) hs hself fun next hnext =>
          ih (by simp; omega) hnext hs hapart).congr fun p q _ _ => ?_
        rw [Nat.exists_lt_succ_right, or_assoc]
    obtain ⟨t, ht, heq⟩ : ∃ t : Cleanup,
        Erased pm root (fun p => done p ∨ ∃ i < 512, path ++ [i] <+: p) t.pm ∧
        removeTree (levels + 1) table s = t.remove table := ⟨_, hloop 512 le_rfl, rfl⟩
    rw [heq]
    refine (ht.remove h.ordered (by omega) hq).congr fun p q _ hp => ?_
    rw [or_assoc]
    refine or_congr_right ⟨?_, ?_⟩
    · rintro (⟨i, -, hbelow⟩ | rfl)
      · exact (List.prefix_append path [i]).trans hbelow
      · exact List.prefix_rfl
    · rintro ⟨rest, rfl⟩
      cases rest with
      | nil => exact .inr (List.append_nil path)
      | cons i rest =>
        left
        rw [walk_append, hq, Option.bind_some] at hp
        obtain ⟨next, hentry, -⟩ := Option.bind_eq_some_iff.mp hp
        exact ⟨i, (entry_eq_some hentry).1, rest, by simp⟩

end Cleanup

namespace PhysicalMemory
variable {pm : PhysicalMemory} {roots : ℕ → Prop} {root : ℕ}

/-- `clean_task` removes the block around every page that the root reaches. -/
theorem cleanTask_erases (h : pm.PageTables roots) (hr : roots root) :
    Erased pm root (fun _ => True) (pm.cleanTask root).pm := by
  have he := Cleanup.removeTree_erases (s := ⟨pm, []⟩) h hr 3 (by simp) (walk_nil pm.entry root)
    (.start pm root) (fun _ => id)
  exact he.congr fun p q _ _ => by simp

/-! ### The other roots -/

/-- A block of another root is not hit. -/
lemma PageTables.not_hit_other (h : pm.PageTables roots) (hr : roots root) {r : ℕ} (hr' : roots r)
    (hne : r ≠ root) {path : List ℕ} {q : ℕ} (hlen : path.length ≤ 3) (hq : walk pm.entry r path = some q)
    {done : List ℕ → Prop} {b : Block} (hb : b ∈ pm.blocks) (hin : b.addr ≤ q ∧ q < b.limit) :
    ¬ pm.Hit root done b := by
  rintro ⟨path', q', -, hlen', hq', hin'⟩
  exact hne (h.together b hb r root path path' q q' hr' hr hlen hlen' hq hq' hin.1 hin.2 hin'.1 hin'.2).1

/-- The tables of another root lead where they did. -/
theorem Erased.walk_other (h : pm.PageTables roots) (hr : roots root) {done : List ℕ → Prop}
    (he : Erased pm root done pm') {r : ℕ} (hr' : roots r) (hne : r ≠ root) {path : List ℕ}
    (hlen : path.length ≤ 3) : walk pm'.entry r path = walk pm.entry r path := by
  have hsame : ∀ q i, IsTable pm.entry 3 (· = r) q → pm'.entry q i = pm.entry q i := by
    rintro q i ⟨_, path', rfl, hlen', hq⟩
    obtain ⟨b, hb, -, hlow, hhigh⟩ := (h.page q ⟨_, path', hr', hlen'.le, hq⟩).2
    have hkept : ¬ pm.Hit root done b := h.not_hit_other hr hr' hne hlen'.le hq hb ⟨hlow, by omega⟩
    exact entry_of_pte_eq fun hi => he.pte h.ordered hb hkept hlow hhigh hi
  exact walk_congr hsame rfl hlen

/-- Its pages hold what they did. -/
lemma Erased.byteAt_other (h : pm.PageTables roots) (hr : roots root) {done : List ℕ → Prop}
    (he : Erased pm root done pm') {r : ℕ} (hr' : roots r) (hne : r ≠ root) {path : List ℕ} {q x : ℕ}
    (hlen : path.length ≤ 3) (hq : walk pm.entry r path = some q) (hx : q ≤ x ∧ x < q + 4096) :
    pm'.byteAt x = pm.byteAt x := by
  obtain ⟨b, hb, hsome, hlow, hhigh⟩ := (h.page q ⟨r, path, hr', hlen, hq⟩).2
  have hkept : ¬ pm.Hit root done b := h.not_hit_other hr hr' hne hlen hq hb ⟨hlow, by omega⟩
  exact byteAt_of_subset h.ordered (fun c hc => (he.mem_iff.mp hc).1) (he.mem_iff.mpr ⟨hb, hkept⟩) hsome
    ⟨by omega, by omega⟩

/-! ### The blocks that an allocation makes -/

/-- The second list has the blocks of the first and pages, and may be inserted into. -/
def AddsPages (pm pm' : PhysicalMemory) : Prop :=
  pm'.Ordered ∧ pm'.CursorValid ∧
    ∀ b ∈ pm'.blocks, (∃ c ∈ pm.blocks, c.frame = b.frame) ∨ (b.size = 4096 ∧ b.pages.isSome = true)

lemma addsPages_refl (hord : pm.Ordered) (hcursor : pm.CursorValid) : AddsPages pm pm :=
  ⟨hord, hcursor, fun b hb => .inl ⟨b, hb, rfl⟩⟩

theorem addsPages_pageRule (pm : PhysicalMemory) : PageRule (fun _ => True) (AddsPages pm) := by
  refine ⟨?_, fun _ _ _ => trivial, ?_⟩
  · rintro pm₁ pm₂ status ⟨hord, hcursor, hblocks⟩ hp hins
    have h4096 := pageSize_eq
    obtain ⟨hgap, pm₃, hins', hat⟩ := insert_usable hord hcursor (roundPages_of_dvd (by omega) (by omega))
      (by omega) (by omega) hp
    rw [hins] at hins'
    obtain ⟨-, rfl⟩ := Prod.mk.inj (Except.ok.inj hins')
    refine ⟨hat.ordered hord hgap (by omega), hat.cursorValid, fun b hb => ?_⟩
    cases hat.mem_iff.mp hb with
    | inl hnew =>
      subst hnew
      exact .inr ⟨h4096, rfl⟩
    | inr hold => exact hblocks b hold
  · rintro pm₁ table i value ⟨hord, hcursor, hblocks⟩ - -
    have hframes : SameFrames pm₁ (pm₁.writeValue 8 (entryAddr table i) value).2 := writeData_sameFrames ..
    refine ⟨hframes.ordered hord, hframes.cursorValid hcursor, fun b hb => ?_⟩
    obtain ⟨c, hc, hframe⟩ := hframes.symm.kept hb
    obtain ⟨-, hsize, hpages⟩ := Block.frame_eq_iff.mp hframe
    refine (hblocks c hc).imp ?_ fun hpage => ⟨hsize ▸ hpage.1, hpages ▸ hpage.2⟩
    rintro ⟨d, hd, hframe'⟩
    exact ⟨d, hd, hframe'.trans hframe⟩

/-- A page in a block of one page is that block. -/
lemma frame_of_page {b : Block} {q : ℕ} (hpage : b.size = 4096 ∧ b.pages.isSome = true) (hlow : b.addr ≤ q)
    (hhigh : q + 4096 ≤ b.limit) : b.frame = (q, 4096, true) := by
  have haddr : b.addr = q := by
    rw [Block.limit, hpage.1] at hhigh
    omega
  rw [Block.frame, haddr, hpage.1, hpage.2]

/-- A page is in no block that the memory had before it had storage there. -/
lemma not_old_of_new {b : Block} {q : ℕ} (hnew : ¬ pm.Backed q 1) (hsome : b.pages.isSome = true)
    (hlow : b.addr ≤ q) (hhigh : q + 4096 ≤ b.limit) : ¬ ∃ c ∈ pm.blocks, c.frame = b.frame := by
  rintro ⟨c, hc, hframe⟩
  obtain ⟨haddr, hlimit, hpages⟩ := Block.span_of_frame hframe
  exact hnew ⟨c, hc, hpages.trans hsome, by omega, by omega⟩

end PhysicalMemory

namespace Memory
open PhysicalMemory
variable {m m' : Memory} {roots : ℕ → Prop}

/-- A new root is a block of its own. -/
lemma createRootPt_block (h : m.pm.PageTables roots) {r : ℕ} (heq : m.createRootPt = .ok (r, m'))
    (hstep : RootStep roots m.pm r m'.pm) : ∃ b ∈ m'.pm.blocks, b.frame = (r, 4096, true) := by
  have hadds := (addsPages_pageRule m.pm).createRootPt (addsPages_refl h.ordered h.cursor) heq
  obtain ⟨b, hb, hsome, hlow, hhigh⟩ := (hstep.tables.page r ⟨r, [], .inl rfl, by simp, rfl⟩).2
  have hpage := (hadds.2.2 b hb).resolve_left (not_old_of_new hstep.new hsome hlow hhigh)
  exact ⟨b, hb, frame_of_page hpage hlow hhigh⟩

/-- Apart from its data block an allocation makes blocks of one page. -/
lemma allocate_blocks (h : m.pm.PageTables roots) {r v length p : ℕ}
    (heq : m.allocate r v length = .ok (p, m')) (hp : p ≠ 0) :
    ∀ b ∈ m'.pm.blocks, (∃ c ∈ m.pm.blocks, c.frame = b.frame) ∨
      b.frame = (p, roundPages length, true) ∨ (b.size = 4096 ∧ b.pages.isSome = true) := by
  obtain ⟨rfl, pm₁, hins, hpages⟩ := allocate_steps heq hp
  obtain ⟨hgap, -, hat⟩ := inserted_usable h.ordered h.cursor (roundPages_idem length) hp hins
  have hord := hat.ordered h.ordered hgap (roundPages_dvd length)
  obtain ⟨-, -, hblocks⟩ :=
    (addsPages_pageRule pm₁).allocatePages (addsPages_refl hord hat.cursorValid) trivial hpages
  intro b hb
  rcases hblocks b hb with ⟨c, hc, hframe⟩ | hpage
  · cases hat.mem_iff.mp hc with
    | inl hnew =>
      rw [hnew] at hframe
      exact .inr (.inl hframe.symm)
    | inr hold => exact .inl ⟨c, hold, hframe⟩
  · exact .inr (.inr hpage)

end Memory

/-- The page lies in the physical range of the region. -/
def LiveRegion.Holds (g : LiveRegion) (q : ℕ) : Prop :=
  g.pAddr ≤ q ∧ q < g.pAddr + PhysicalMemory.roundPages g.length

namespace MemoryState
open PhysicalMemory
variable {s t : MemoryState} {root : ℕ}

/-- A step that makes a root, allocates a range that is not mapped, or writes. An allocation has to
succeed, and every region is recorded, also an empty one. -/
def build (s : MemoryState) : MemoryOp → Option MemoryState
  | .createRootPt => s.exec .createRootPt
  | .allocate root vAddr length =>
    if root ∈ s.roots ∧ 4096 ∣ vAddr ∧
        ∀ k < roundPages length / 4096, s.mem.convert root (vAddr + k * 4096) = 0 then
      match s.mem.allocate root vAddr length with
      | .error _ => none
      | .ok (pAddr, mem) =>
        if pAddr = 0 then none
        else some { s with mem := mem, live := ⟨root, vAddr, length, pAddr⟩ :: s.live }
    else none
  | .writeVirt root vAddr size input => s.exec (.writeVirt root vAddr size input)
  | _ => none

/-- The frames of the blocks of a root: its own page, its tables of level 1 and 2, and its regions. -/
inductive Belongs (s : MemoryState) (root : ℕ) : ℕ × ℕ × Bool → Prop
  | table {path : List ℕ} {q : ℕ} (hlen : path.length ≤ 2) (hq : walk s.mem.pm.entry root path = some q) :
      Belongs s root (q, 4096, true)
  | region {g : LiveRegion} (hg : g ∈ s.live) (hroot : g.root = root) :
      Belongs s root (g.pAddr, roundPages g.length, true)

open Classical in
/-- Cleaning the task of a root removes its blocks and keeps the others, and the other roots translate
to the same bytes. -/
structure Reclaims (s : MemoryState) (root : ℕ) : Prop where
  blocks : (s.mem.cleanTask root).2.pm.blocks = s.mem.pm.blocks.filter fun b => ¬ s.Belongs root b.frame
  others : ∀ r ∈ s.roots, r ≠ root → ∀ va,
    (s.mem.cleanTask root).2.convert r va = s.mem.convert r va ∧
      (s.mem.cleanTask root).2.pm.byteAt (s.mem.convert r va) = s.mem.pm.byteAt (s.mem.convert r va)

/-- Roots and tables are pages in blocks of their own, a mapped page lies in a region of its root, and the
block of a region that is not empty holds a mapped page. -/
structure Owned (s : MemoryState) : Prop where
  tables : s.mem.pm.PageTables (· ∈ s.roots)
  page : ∀ r ∈ s.roots, ∀ path q, path.length ≤ 2 → walk s.mem.pm.entry r path = some q →
    ∃ b ∈ s.mem.pm.blocks, b.frame = (q, 4096, true)
  region : ∀ g ∈ s.live, g.root ∈ s.roots ∧
    ∃ b ∈ s.mem.pm.blocks, b.frame = (g.pAddr, roundPages g.length, true)
  leaf : ∀ r ∈ s.roots, ∀ path q, path.length = 3 → walk s.mem.pm.entry r path = some q →
    ∃ g ∈ s.live, g.root = r ∧ g.Holds q
  mapped : ∀ g ∈ s.live, 0 < roundPages g.length →
    ∃ path q, path.length = 3 ∧ walk s.mem.pm.entry g.root path = some q ∧ g.Holds q

end MemoryState

/-- The runs that build up tasks. -/
def buildSystem (range : ℕ) : TransitionSystem MemoryState MemoryOp where
  init s := s = ⟨Memory.new range, [], []⟩
  step s op t := s.build op = some t

namespace MemoryState
open PhysicalMemory
variable {s t : MemoryState} {root : ℕ}

/-! ### Steps -/

/-- The memory may change where it keeps the blocks and the walks of the roots. -/
lemma Owned.keep (h : Owned s) {mem : Memory} (htables : mem.pm.PageTables (· ∈ s.roots))
    (hkept : ∀ b ∈ s.mem.pm.blocks, ∃ c ∈ mem.pm.blocks, c.frame = b.frame)
    (hwalks : ∀ r path, r ∈ s.roots → path.length ≤ 3 →
      walk mem.pm.entry r path = walk s.mem.pm.entry r path) : Owned { s with mem := mem } := by
  refine ⟨htables, ?_, ?_, ?_, ?_⟩
  · intro r hr path q hlen hq
    rw [hwalks r path hr (by omega)] at hq
    obtain ⟨b, hb, hframe⟩ := h.page r hr path q hlen hq
    exact hframe ▸ hkept b hb
  · intro g hg
    obtain ⟨hr, b, hb, hframe⟩ := h.region g hg
    exact ⟨hr, hframe ▸ hkept b hb⟩
  · intro r hr path q hlen hq
    rw [hwalks r path hr (by omega)] at hq
    exact h.leaf r hr path q hlen hq
  · intro g hg hpos
    obtain ⟨path, q, hlen, hq, hin⟩ := h.mapped g hg hpos
    exact ⟨path, q, hlen, (hwalks g.root path (h.region g hg).1 (by omega)).trans hq, hin⟩

/-- A root that reaches nothing may be added. -/
lemma Owned.addRoot (h : Owned s) (htables : s.mem.pm.PageTables (· ∈ root :: s.roots))
    (hblock : ∃ b ∈ s.mem.pm.blocks, b.frame = (root, 4096, true))
    (hempty : ∀ i, s.mem.pm.entry root i = none) :
    Owned { s with roots := root :: s.roots } := by
  have hnew : ∀ path q, walk s.mem.pm.entry root path = some q → path = [] ∧ q = root := by
    intro path q hq
    cases path with
    | nil => exact ⟨rfl, (Option.some.inj hq).symm⟩
    | cons i path => simp [walk, hempty i] at hq
  refine ⟨htables, ?_, ?_, ?_, h.mapped⟩
  · intro r hr path q hlen hq
    cases hr with
    | head =>
      obtain ⟨-, rfl⟩ := hnew path q hq
      exact hblock
    | tail _ hr => exact h.page r hr path q hlen hq
  · intro g hg
    obtain ⟨hr, hregion⟩ := h.region g hg
    exact ⟨List.mem_cons_of_mem _ hr, hregion⟩
  · intro r hr path q hlen hq
    cases hr with
    | head =>
      obtain ⟨rfl, -⟩ := hnew path q hq
      cases hlen
    | tail _ hr => exact h.leaf r hr path q hlen hq

lemma Owned.createRootPt (h : Owned s) {mem : Memory} (heq : s.mem.createRootPt = .ok (root, mem)) :
    Owned { s with mem := mem, roots := if root = 0 then s.roots else root :: s.roots } := by
  rcases Memory.createRootPt_ok h.tables heq with ⟨rfl, rfl⟩ | ⟨hne, hstep⟩
  · exact h
  · rw [if_neg hne]
    have hold := h.keep hstep.growth.tables hstep.growth.frames hstep.walks
    exact hold.addRoot (by simpa [List.mem_cons] using hstep.tables)
      (Memory.createRootPt_block h.tables heq hstep) hstep.empty

/-- Where the first page of a range was not mapped, the allocation maps it to its own block. -/
lemma mapped_of_allocate {m m' : Memory} {roots : ℕ → Prop} (h : m.pm.PageTables roots) (hr : roots root)
    {v size p : ℕ} (hdvd : 4096 ∣ size) (hpos : 0 < size) (hp : p ≠ 0) (hunmapped : m.convert root v = 0)
    (hstep : AllocateStep roots m.pm root v size p m'.pm) :
    ∃ path q, path.length = 3 ∧ walk m'.pm.entry root path = some q ∧ p ≤ q ∧ q < p + size := by
  obtain ⟨q, hq⟩ := Option.isSome_iff_exists.mp (hstep.mapped hp 0 (by omega))
  rw [Nat.zero_mul, Nat.add_zero, vaPath_u64] at hq
  refine ⟨vaPath v, q, rfl, hq, ?_⟩
  rcases hstep.adds root _ q hr rfl hq with hold | ⟨-, -, k, hk, -, hpage⟩
  · rw [Memory.walk_eq_none h hr hunmapped] at hold
    cases hold
  · have := hpage hp
    omega

lemma Owned.allocate (h : Owned s) {v length p : ℕ} {mem : Memory} (hr : root ∈ s.roots) (hp : p ≠ 0)
    (hunmapped : ∀ k < roundPages length / 4096, s.mem.convert root (v + k * 4096) = 0)
    (heq : s.mem.allocate root v length = .ok (p, mem)) :
    Owned { s with mem := mem, live := ⟨root, v, length, p⟩ :: s.live } := by
  have hstep := Memory.allocate_ok h.tables hr heq
  have hdvd := roundPages_dvd length
  have hkeep : ∀ frame, (∃ b ∈ s.mem.pm.blocks, b.frame = frame) → ∃ b ∈ mem.pm.blocks, b.frame = frame := by
    rintro frame ⟨b, hb, rfl⟩
    exact hstep.growth.frames b hb
  refine ⟨hstep.growth.tables, ?_, ?_, ?_, ?_⟩
  · intro r hr' path q hlen hq
    cases hstep.growth.newTables q ⟨r, path, hr', by omega, hq⟩ with
    | inl hold =>
      obtain ⟨r', path', hr'', hlen', hq'⟩ := hold
      exact hkeep _ (h.page r' hr'' path' q (by omega) hq')
    | inr hnew =>
      -- a new table is in a new block, and that is not the data block
      obtain ⟨b, hb, hsome, hlow, hhigh⟩ := (hstep.growth.tables.page q ⟨r, path, hr', by omega, hq⟩).2
      rcases Memory.allocate_blocks h.tables heq hp b hb with hold | hdata | hpage
      · exact absurd hold (not_old_of_new hnew hsome hlow hhigh)
      · obtain ⟨haddr, hlimit, -⟩ := Block.span_of_eq hdata
        obtain ⟨-, hleaf⟩ := (hstep.region hp).owner r path q hr' (by omega) hq (haddr ▸ hlow) (by omega)
        omega
      · exact ⟨b, hb, frame_of_page hpage hlow hhigh⟩
  · intro g hg
    cases hg with
    | head =>
      obtain ⟨b, hb, hsome, haddr, hsize⟩ := (hstep.region hp).block
      exact ⟨hr, b, hb, by rw [Block.frame, haddr, hsize, hsome]⟩
    | tail _ hg =>
      obtain ⟨hroot, hblock⟩ := h.region g hg
      exact ⟨hroot, hkeep _ hblock⟩
  · intro r hr' path q hlen hq
    rcases hstep.adds r path q hr' hlen hq with hold | ⟨rfl, -, k, hk, -, hpage⟩
    · obtain ⟨g, hg, hroot, hin⟩ := h.leaf r hr' path q hlen hold
      exact ⟨g, List.mem_cons_of_mem _ hg, hroot, hin⟩
    · have hq' := hpage hp
      refine ⟨_, List.mem_cons_self, rfl, ?_⟩
      simp only [LiveRegion.Holds]
      omega
  · intro g hg hpos
    cases hg with
    | head =>
      exact mapped_of_allocate h.tables hr hdvd hpos hp
        (by simpa using hunmapped 0 (by simp only at hpos; omega)) hstep
    | tail _ hg =>
      obtain ⟨path, q, hlen, hq, hin⟩ := h.mapped g hg hpos
      exact ⟨path, q, hlen, hstep.growth.walks g.root path q (h.region g hg).1 (by omega) hq, hin⟩

lemma Owned.writeVirt (h : Owned s) {v : ℕ} (hr : root ∈ s.roots) (hv : v < 2 ^ 64) (size : ℕ)
    (input : ℕ → UInt8) : Owned { s with mem := (s.mem.writeVirt root v size input).2 } := by
  have hwr := Memory.writeVirt_pageWrites h.tables hr hv size input
  exact h.keep hwr.tables (fun b => hwr.frames.kept) hwr.walks

theorem Owned.step (h : Owned s) {op : MemoryOp} (hstep : s.build op = some t) : Owned t := by
  cases op with
  | createRootPt =>
    have hexec : s.exec .createRootPt = some t := hstep
    cases exec_call hexec with
    | createRootPt hmem => exact h.createRootPt hmem
  | allocate root vAddr length =>
    simp only [build] at hstep
    split_ifs at hstep with hpre
    split at hstep
    · cases hstep
    · next pAddr mem hmem =>
      split_ifs at hstep with hp
      exact Option.some.inj hstep ▸ h.allocate hpre.1 hp hpre.2.2 hmem
  | writeVirt root vAddr size input =>
    have hexec : s.exec (.writeVirt root vAddr size input) = some t := hstep
    cases exec_call hexec with
    | writeVirt hroot hv => exact h.writeVirt hroot hv size input
  | release root vAddr => cases hstep
  | cleanPt root => cases hstep
  | cleanTask root => cases hstep

/-- In every run roots, tables and regions own their blocks, or no root was ever made. -/
theorem owned_of_reachable {range : ℕ} (h : (buildSystem range).Reachable s) : Owned s ∨ s.roots = [] := by
  refine (h.invariant (I := fun s => Owned s ∨ (range < 0x20000000 ∧ s = ⟨Memory.new range, [], []⟩))
    ?_ ?_).imp_right fun hs => by rw [hs.2]
  · rintro s rfl
    by_cases hrange : range < 0x20000000
    · exact .inr ⟨hrange, rfl⟩
    · exact .inl ⟨.of_new (by omega) (by simp), by simp, by simp, by simp, by simp⟩
  · rintro s op t (hs | ⟨hrange, rfl⟩) - hstep
    · exact .inl (hs.step hstep)
    · cases op with
      | createRootPt =>
        exact .inr ⟨hrange, exec_small hrange (show exec _ .createRootPt = some t from hstep)⟩
      | writeVirt root vAddr size input =>
        exact .inr ⟨hrange, exec_small hrange
          (show exec _ (.writeVirt root vAddr size input) = some t from hstep)⟩
      | allocate root vAddr length =>
        simp only [buildSystem, build, List.not_mem_nil, false_and, if_false] at hstep
        cases hstep
      | release root vAddr => cases hstep
      | cleanPt root => cases hstep
      | cleanTask root => cases hstep

/-! ### Cleaning -/

/-- The blocks that contain a reached page are the blocks of the root that contain an address. -/
lemma Owned.hit_iff (h : Owned s) (hr : root ∈ s.roots) {b : Block} (hb : b ∈ s.mem.pm.blocks) :
    s.mem.pm.Hit root (fun _ => True) b ↔ s.Belongs root b.frame ∧ 0 < b.size := by
  have hord := h.tables.ordered
  constructor
  · rintro ⟨path, q, -, hlen, hq, hin⟩
    refine ⟨?_, by rw [Block.limit] at hin; omega⟩
    by_cases hleaf : path.length = 3
    · obtain ⟨g, hg, hroot, hholds⟩ := h.leaf root hr path q hleaf hq
      obtain ⟨-, c, hc, hframe⟩ := h.region g hg
      obtain ⟨haddr, hlimit, -⟩ := Block.span_of_eq hframe
      have hcq : c.addr ≤ q ∧ q < c.limit := by
        rw [haddr, hlimit]
        exact hholds
      rw [block_unique hord hb hc hin hcq, hframe]
      exact .region hg hroot
    · obtain ⟨c, hc, hframe⟩ := h.page root hr path q (by omega) hq
      obtain ⟨haddr, hlimit, -⟩ := Block.span_of_eq hframe
      rw [block_unique hord hb hc hin (by omega), hframe]
      exact .table (by omega) hq
  · rintro ⟨hbelongs, hpos⟩
    generalize hframe : b.frame = frame at hbelongs
    cases hbelongs with
    | @table path q hlen hq =>
      obtain ⟨haddr, hlimit, -⟩ := Block.span_of_eq hframe
      exact ⟨path, q, trivial, by omega, hq, by omega⟩
    | @region g hg hroot =>
      obtain ⟨haddr, hlimit, -⟩ := Block.span_of_eq hframe
      obtain ⟨path, q, hlen, hq, hholds⟩ := h.mapped g hg (by rw [Block.limit] at hlimit; omega)
      refine ⟨path, q, trivial, hlen.le, hroot ▸ hq, ?_⟩
      rw [haddr, hlimit]
      exact hholds

/-- The other roots translate to the same bytes, whatever the regions. -/
lemma Owned.others (h : Owned s) (hr : root ∈ s.roots) {m : Memory}
    (he : Erased s.mem.pm root (fun _ => True) m.pm) {r : ℕ} (hr' : r ∈ s.roots) (hne : r ≠ root) (va : ℕ) :
    m.convert r va = s.mem.convert r va ∧
      m.pm.byteAt (s.mem.convert r va) = s.mem.pm.byteAt (s.mem.convert r va) := by
  have hwalk := he.walk_other h.tables hr hr' hne (vaPath_length va).le
  refine ⟨by rw [Memory.convert_eq, Memory.convert_eq, hwalk], ?_⟩
  cases hq : walk s.mem.pm.entry r (vaPath va) with
  | none =>
    -- there is no storage at address 0, before or after
    have hzero : ∀ pm : PhysicalMemory, pm.Ordered → pm.byteAt 0 = 0 := by
      intro pm hord
      refine byteAt_eq_zero fun b hb hsome hin => ?_
      have := (hord.inserted_of_backed hb hsome).lower
      omega
    have hconv : s.mem.convert r va = 0 := by rw [Memory.convert_eq, hq]
    rw [hconv, hzero _ h.tables.ordered, hzero _ (he.ordered h.tables.ordered)]
  | some q =>
    rw [Memory.convert_of_walk h.tables hr' hq]
    exact he.byteAt_other h.tables hr hr' hne (by simp) hq (by omega)

open Classical in
/-- A task is reclaimed exactly when none of its regions is empty. -/
theorem Owned.reclaims_iff (h : Owned s) (hr : root ∈ s.roots) :
    s.Reclaims root ↔ ∀ g ∈ s.live, g.root = root → 0 < roundPages g.length := by
  obtain ⟨pm, hm, he⟩ : ∃ pm, s.mem.cleanTask root = (0, ⟨pm⟩) ∧ Erased s.mem.pm root (fun _ => True) pm :=
    ⟨_, rfl, cleanTask_erases h.tables hr⟩
  constructor
  · intro hreclaims g hg hroot
    by_contra hempty
    obtain ⟨-, b, hb, hframe⟩ := h.region g hg
    have hsize : b.size = roundPages g.length := (Prod.mk.inj (Prod.mk.inj hframe).2).1
    -- the block of an empty region is never hit, so it stays
    have hstays : b ∈ pm.blocks := by
      rw [he.mem_iff, h.hit_iff hr hb]
      exact ⟨hb, fun hhit => hempty (hsize ▸ hhit.2)⟩
    have hblocks := hreclaims.blocks
    rw [hm] at hblocks
    rw [hblocks, List.mem_filter, decide_eq_true_eq, hframe] at hstays
    exact hstays.2 (.region hg hroot)
  · intro hsized
    have hpos : ∀ b ∈ s.mem.pm.blocks, s.Belongs root b.frame → 0 < b.size := by
      intro b hb hbelongs
      generalize hframe : b.frame = frame at hbelongs
      have hsize : b.size = frame.2.1 := congrArg (fun frame => frame.2.1) hframe
      cases hbelongs with
      | table hlen hq =>
        rw [hsize]
        norm_num
      | region hg hroot => exact hsize ▸ hsized _ hg hroot
    refine ⟨?_, fun r hr' hne va => ?_⟩
    · rw [hm, he.blocks]
      refine List.filter_congr fun b hb => ?_
      rw [decide_eq_decide, h.hit_iff hr hb, and_iff_left_of_imp (hpos b hb)]
    · rw [hm]
      exact h.others hr he hr' hne va

/-- In every state that is built up by making roots, allocating ranges that are not mapped and writing,
`clean_task` reclaims exactly the task of its root, if and only if none of the regions of that root is
empty. -/
theorem cleanTask_reclaims_iff {range : ℕ} (h : (buildSystem range).Reachable s) (hr : root ∈ s.roots) :
    s.Reclaims root ↔ ∀ g ∈ s.live, g.root = root → 0 < roundPages g.length := by
  cases owned_of_reachable h with
  | inl hs => exact hs.reclaims_iff hr
  | inr hnone => simp [hnone] at hr

/-- Two tasks, the second with a region of two pages. -/
theorem cleanTask_reclaims_iff_twoTasks : ∃ s : MemoryState, s.roots = [0x20001000, 0x20000000] ∧
    s.live.length = 2 ∧ s.Reclaims 0x20001000 := by
  let ops : List MemoryOp := [.createRootPt, .createRootPt, .allocate 0x20000000 0x40000000 4096,
    .allocate 0x20001000 0x40000000 5000]
  have hrun : (ops.foldlM build ⟨Memory.new 0x20010000, [], []⟩).map (fun s : MemoryState =>
      (s.roots, s.live.map fun g => (g.root, g.length))) =
      some ([0x20001000, 0x20000000], [(0x20001000, 5000), (0x20000000, 4096)]) := by decide +kernel
  obtain ⟨s, hs, hresult⟩ := Option.map_eq_some_iff.mp hrun
  obtain ⟨hroots, hlive⟩ := Prod.mk.inj hresult
  have hreach : (buildSystem 0x20010000).Reachable s :=
    (TransitionSystem.ReachableBy.start rfl).run (fun _ _ _ _ hst => ⟨trivial, hst⟩) hs
  refine ⟨s, hroots, by simpa using congrArg List.length hlive,
    (cleanTask_reclaims_iff hreach (by simp [hroots])).mpr fun g hg _ => ?_⟩
  have hmem := List.mem_map_of_mem (f := fun g : LiveRegion => (g.root, g.length)) hg
  rw [hlive] at hmem
  simp only [List.mem_cons, Prod.mk.injEq, List.not_mem_nil, or_false] at hmem
  rcases hmem with ⟨-, hlength⟩ | ⟨-, hlength⟩ <;> rw [hlength] <;> decide

/-- A region of length 0 is given an address, and its block outlives the task. -/
theorem empty_region_not_reclaimed : ∃ s root, (buildSystem 0x20010000).Reachable s ∧ root ∈ s.roots ∧
    ¬ s.Reclaims root := by
  let ops : List MemoryOp := [.createRootPt, .allocate 0x20000000 0x40000000 0]
  have hrun : (ops.foldlM build ⟨Memory.new 0x20010000, [], []⟩).map (fun s : MemoryState =>
      (s.roots, s.live)) = some ([0x20000000], [⟨0x20000000, 0x40000000, 0, 0x20000000⟩]) := by
    decide +kernel
  obtain ⟨s, hs, hresult⟩ := Option.map_eq_some_iff.mp hrun
  obtain ⟨hroots, hlive⟩ := Prod.mk.inj hresult
  have hreach : (buildSystem 0x20010000).Reachable s :=
    (TransitionSystem.ReachableBy.start rfl).run (fun _ _ _ _ hst => ⟨trivial, hst⟩) hs
  have hr : 0x20000000 ∈ s.roots := by simp [hroots]
  refine ⟨s, 0x20000000, hreach, hr, fun hreclaims => ?_⟩
  cases owned_of_reachable hreach with
  | inl hown =>
    have hpos := (hown.reclaims_iff hr).mp hreclaims ⟨0x20000000, 0x40000000, 0, 0x20000000⟩
      (by simp [hlive]) rfl
    exact absurd hpos (by decide)
  | inr hnone => simp [hnone] at hr

end MemoryState
end VentusDriver
