import VentusDriver.Device.MemoryRuns

/-! What `clean_pt` does to the tables of one root: the tables below which no leaf entry is valid are
removed, the entries that led to them are cleared, and nothing else is touched. Tables are named by
their paths from the root. -/
namespace VentusDriver
open Foundation Foundation.Radix Sv39

namespace PhysicalMemory
variable {pm pm' : PhysicalMemory} {root : ℕ}

/-- The page that a valid entry leads to. -/
def link (pm : PhysicalMemory) (q i : ℕ) : Option ℕ :=
  if i < 512 ∧ pm.pte q i &&& V ≠ 0 then some (pm.nextTable q i) else none

/-- A root with well-formed tables: an entry that is not valid is zero, and a valid one of level 0 or 1
leads to a table in a block of its own, which no other entry leads to. -/
structure TableTree (pm : PhysicalMemory) (root : ℕ) : Prop where
  ordered : pm.Ordered
  stored : pm.Backed root 4096
  zero : ∀ path q i, path.length ≤ 2 → walk pm.link root path = some q → i < 512 →
    pm.pte q i &&& V = 0 → pm.pte q i = 0
  block : ∀ path q, path ≠ [] → path.length ≤ 2 → walk pm.link root path = some q →
    ∃ b ∈ pm.blocks, b.frame = (q, 4096, true)
  distinct : Forest pm.link 2 (· = root)

/-- The paths of the tables of level 1 and 2 below which no leaf entry is valid. -/
def Dead (pm : PhysicalMemory) (root : ℕ) (path : List ℕ) : Prop :=
  path ≠ [] ∧ path.length ≤ 2 ∧ (∃ q, walk pm.link root path = some q) ∧
    ∀ rest, path.length + rest.length = 3 → walk pm.link root (path ++ rest) = none

/-- Paths of tables below the root. -/
def NamesTables (pm : PhysicalMemory) (root : ℕ) (gone : List ℕ → Prop) : Prop :=
  ∀ path, gone path → path ≠ [] ∧ path.length ≤ 2 ∧ ∃ q, walk pm.link root path = some q

/-- The frame is that of a table among the given paths. -/
def GoneFrame (pm : PhysicalMemory) (root : ℕ) (gone : List ℕ → Prop) (frame : ℕ × ℕ × Bool) : Prop :=
  ∃ path q, gone path ∧ walk pm.link root path = some q ∧ frame = (q, 4096, true)

/-- The byte belongs to an entry that led to one of the tables. -/
def ClearedByte (pm : PhysicalMemory) (root : ℕ) (gone : List ℕ → Prop) (x : ℕ) : Prop :=
  ∃ path i q, gone (path ++ [i]) ∧ walk pm.link root path = some q ∧ q + i * 8 ≤ x ∧ x < q + i * 8 + 8

open Classical in
/-- The blocks of the given tables are gone and the entries that led to them are zero. -/
structure Pruned (pm : PhysicalMemory) (root : ℕ) (gone : List ℕ → Prop) (pm' : PhysicalMemory) : Prop where
  ordered : pm'.Ordered
  frames : pm'.blocks.map Block.frame =
    (pm.blocks.filter fun b => ¬ pm.GoneFrame root gone b.frame).map Block.frame
  bytes : ∀ b ∈ pm.blocks, b.pages.isSome = true → ¬ pm.GoneFrame root gone b.frame →
    ∀ x, b.addr ≤ x → x < b.limit →
      pm'.byteAt x = if pm.ClearedByte root gone x then 0 else pm.byteAt x

/-! ### The tables -/

lemma link_eq_some {q i q' : ℕ} (h : pm.link q i = some q') :
    i < 512 ∧ pm.pte q i &&& V ≠ 0 ∧ pm.nextTable q i = q' := by
  unfold link at h
  split_ifs at h with hvalid
  exact ⟨hvalid.1, hvalid.2, Option.some.inj h⟩

lemma link_valid {q i : ℕ} (hi : i < 512) (hv : pm.pte q i &&& V ≠ 0) :
    pm.link q i = some (pm.nextTable q i) := if_pos ⟨hi, hv⟩

lemma link_none {q i : ℕ} (hv : pm.pte q i &&& V = 0) : pm.link q i = none :=
  if_neg fun h => h.2 hv

namespace TableTree

/-- The block that holds a table; but for the root it holds nothing else. -/
lemma holder (h : pm.TableTree root) {path : List ℕ} {q : ℕ} (hlen : path.length ≤ 2)
    (hq : walk pm.link root path = some q) :
    ∃ b ∈ pm.blocks, b.pages.isSome = true ∧ b.addr ≤ q ∧ q + 4096 ≤ b.limit ∧
      (path ≠ [] → b.frame = (q, 4096, true)) := by
  by_cases hnil : path = []
  · subst hnil
    obtain rfl := Option.some.inj hq
    obtain ⟨b, hb, hsome, hlow, hhigh⟩ := h.stored
    exact ⟨b, hb, hsome, hlow, hhigh, fun hne => absurd rfl hne⟩
  · obtain ⟨b, hb, hframe⟩ := h.block path q hnil hlen hq
    obtain ⟨haddr, hlimit, hsome⟩ := Block.span_of_eq hframe
    exact ⟨b, hb, hsome, haddr.le, hlimit.ge, fun _ => hframe⟩

lemma backed (h : pm.TableTree root) {path : List ℕ} {q : ℕ} (hlen : path.length ≤ 2)
    (hq : walk pm.link root path = some q) : pm.Backed q 4096 := by
  obtain ⟨b, hb, hsome, hlow, hhigh, -⟩ := h.holder hlen hq
  exact ⟨b, hb, hsome, hlow, hhigh⟩

/-- Tables with a byte in common are the same table, on the same path. -/
lemma apart (h : pm.TableTree root) {path path' : List ℕ} {q q' x : ℕ} (hlen : path.length ≤ 2)
    (hlen' : path'.length ≤ 2) (hq : walk pm.link root path = some q)
    (hq' : walk pm.link root path' = some q') (hx : q ≤ x ∧ x < q + 4096)
    (hx' : q' ≤ x ∧ x < q' + 4096) : path = path' ∧ q = q' := by
  obtain ⟨b, hb, -, hlow, hhigh, hown⟩ := h.holder hlen hq
  obtain ⟨b', hb', -, hlow', hhigh', hown'⟩ := h.holder hlen' hq'
  have hsame : b = b' := block_unique h.ordered hb hb' (x := x) (by omega) (by omega)
  subst hsame
  have heq : q = q' := by
    by_cases hnil : path = []
    · by_cases hnil' : path' = []
      · subst hnil hnil'
        exact Option.some.inj (hq.symm.trans hq')
      · obtain ⟨haddr, hlimit, -⟩ := Block.span_of_eq (hown' hnil')
        omega
    · obtain ⟨haddr, hlimit, -⟩ := Block.span_of_eq (hown hnil)
      omega
  subst heq
  exact ⟨(h.distinct root root path path' q rfl rfl hlen hlen' hq hq').2, rfl⟩

/-- A block that holds a table which is not gone is not gone. -/
lemma not_gone (h : pm.TableTree root) {gone : List ℕ → Prop} (hgone : pm.NamesTables root gone)
    {path : List ℕ} {q : ℕ} (hlen : path.length ≤ 2) (hq : walk pm.link root path = some q)
    (hkept : ¬ gone path) {b : Block} (hlow : b.addr ≤ q) (hhigh : q + 4096 ≤ b.limit) :
    ¬ pm.GoneFrame root gone b.frame := by
  rintro ⟨path', q', hpath', hq', hframe⟩
  obtain ⟨haddr, hlimit, -⟩ := Block.span_of_eq hframe
  have hsame := h.apart hlen (hgone path' hpath').2.1 hq hq' (x := q) ⟨le_rfl, by omega⟩ (by omega)
  exact hkept (hsame.1 ▸ hpath')

end TableTree
/-! ### One table more -/

/-- The frames that are gone when one more table is. -/
lemma goneFrame_or {gone : List ℕ → Prop} {path : List ℕ} {t : ℕ} (ht : walk pm.link root path = some t)
    (frame : ℕ × ℕ × Bool) : pm.GoneFrame root (fun p => p = path ∨ gone p) frame ↔
      frame = (t, 4096, true) ∨ pm.GoneFrame root gone frame := by
  constructor
  · rintro ⟨path', q, rfl | hpath, hq, hframe⟩
    · obtain rfl := Option.some.inj (ht.symm.trans hq)
      exact .inl hframe
    · exact .inr ⟨path', q, hpath, hq, hframe⟩
  · rintro (hframe | ⟨path', q, hpath, hq, hframe⟩)
    · exact ⟨path, t, .inl rfl, ht, hframe⟩
    · exact ⟨path', q, .inr hpath, hq, hframe⟩

/-- The bytes that are cleared when one more table is gone. -/
lemma clearedByte_or (gone : List ℕ → Prop) {path : List ℕ} {q : ℕ}
    (hq : walk pm.link root path = some q) (i x : ℕ) :
    pm.ClearedByte root (fun p => p = path ++ [i] ∨ gone p) x ↔
      (q + i * 8 ≤ x ∧ x < q + i * 8 + 8) ∨ pm.ClearedByte root gone x := by
  constructor
  · rintro ⟨path', i', q', heq | hpath, hq', hx⟩
    · obtain ⟨rfl, hi⟩ := List.append_inj' heq rfl
      obtain rfl : i' = i := by simpa using hi
      obtain rfl := Option.some.inj (hq.symm.trans hq')
      exact .inl hx
    · exact .inr ⟨path', i', q', hpath, hq', hx⟩
  · rintro (hx | ⟨path', i', q', hpath, hq', hx⟩)
    · exact ⟨path, i, q, .inl rfl, hq, hx⟩
    · exact ⟨path', i', q', .inr hpath, hq', hx⟩

lemma NamesTables.add {gone : List ℕ → Prop} (hnames : pm.NamesTables root gone) {path : List ℕ} {t : ℕ}
    (hne : path ≠ []) (hlen : path.length ≤ 2) (ht : walk pm.link root path = some t) :
    pm.NamesTables root fun p => p = path ∨ gone p := by
  rintro path' (rfl | hpath)
  · exact ⟨hne, hlen, t, ht⟩
  · exact hnames path' hpath

/-- Leaving out the blocks with a frame leaves out the frame. -/
lemma frames_filter_ne (l : List Block) (frame : ℕ × ℕ × Bool) :
    (l.filter fun b => decide (b.frame ≠ frame)).map Block.frame =
      (l.map Block.frame).filter fun frame' => decide (frame' ≠ frame) := by
  rw [List.filter_map]
  rfl

namespace Pruned
variable {gone : List ℕ → Prop}

lemma start (h : pm.TableTree root) : Pruned pm root (fun _ => False) pm := by
  have hnone : ∀ frame, ¬ pm.GoneFrame root (fun _ => False) frame := by
    rintro frame ⟨path, q, hpath, -⟩
    exact hpath
  have hbyte : ∀ x, ¬ pm.ClearedByte root (fun _ => False) x := by
    rintro x ⟨path, i, q, hpath, -⟩
    exact hpath
  refine ⟨h.ordered, ?_, fun b _ _ _ x _ _ => by rw [if_neg (hbyte x)]⟩
  congr 1
  rw [List.filter_eq_self.mpr]
  intro b _
  simpa using hnone b.frame

/-- A block that is not gone is still there. -/
lemma kept (hp : Pruned pm root gone pm') {b : Block} (hb : b ∈ pm.blocks)
    (hkept : ¬ pm.GoneFrame root gone b.frame) : ∃ c ∈ pm'.blocks, c.frame = b.frame := by
  have hmem : b.frame ∈ pm'.blocks.map Block.frame := by
    rw [hp.frames]
    exact List.mem_map_of_mem (List.mem_filter.mpr ⟨hb, by simpa using hkept⟩)
  exact List.mem_map.mp hmem

lemma backed (hp : Pruned pm root gone pm') (h : pm.TableTree root) (hnames : pm.NamesTables root gone)
    {path : List ℕ} {q : ℕ} (hlen : path.length ≤ 2) (hq : walk pm.link root path = some q)
    (hkept : ¬ gone path) : pm'.Backed q 4096 := by
  obtain ⟨b, hb, hsome, hlow, hhigh, -⟩ := h.holder hlen hq
  obtain ⟨c, hc, hframe⟩ := hp.kept hb (h.not_gone hnames hlen hq hkept hlow hhigh)
  obtain ⟨haddr, hlimit, hpages⟩ := Block.span_of_frame hframe
  exact ⟨c, hc, hpages.trans hsome, haddr.le.trans hlow, hhigh.trans hlimit.ge⟩

/-- A byte of an entry was cleared exactly when the table it leads to is gone. -/
lemma clearedByte_iff (h : pm.TableTree root) (hnames : pm.NamesTables root gone) {path : List ℕ} {q i x : ℕ}
    (hlen : path.length ≤ 2) (hq : walk pm.link root path = some q) (hi : i < 512)
    (hx : q + i * 8 ≤ x ∧ x < q + i * 8 + 8) : pm.ClearedByte root gone x ↔ gone (path ++ [i]) := by
  constructor
  · rintro ⟨path', i', q', hpath', hq', hlow, hhigh⟩
    obtain ⟨-, hlen', t, ht⟩ := hnames _ hpath'
    rw [List.length_append, List.length_singleton] at hlen'
    rw [walk_snoc, hq', Option.bind_some] at ht
    have hi' := (link_eq_some ht).1
    obtain ⟨rfl, rfl⟩ := h.apart hlen (by omega) hq hq' (x := x) (by omega) (by omega)
    have hsame : i = i' := by omega
    rwa [hsame]
  · intro hgone
    exact ⟨path, i, q, hgone, hq, hx⟩

open Classical in
/-- The entries of a table that is not gone. -/
theorem pte (hp : Pruned pm root gone pm') (h : pm.TableTree root) (hnames : pm.NamesTables root gone)
    {path : List ℕ} {q i : ℕ} (hlen : path.length ≤ 2) (hq : walk pm.link root path = some q)
    (hkept : ¬ gone path) (hi : i < 512) :
    pm'.pte q i = if gone (path ++ [i]) then 0 else pm.pte q i := by
  obtain ⟨b, hb, hsome, hlow, hhigh, -⟩ := h.holder hlen hq
  have hbyte : ∀ j < 8, pm'.byteAt (q + i * 8 + j) =
      if gone (path ++ [i]) then 0 else pm.byteAt (q + i * 8 + j) := by
    intro j hj
    rw [hp.bytes b hb hsome (h.not_gone hnames hlen hq hkept hlow hhigh) _ (by omega) (by omega)]
    exact if_congr (clearedByte_iff h hnames hlen hq hi (by omega)) rfl rfl
  rw [pte_eq hp.ordered (hp.backed h hnames hlen hq hkept) hi, pte_eq h.ordered (h.backed hlen hq) hi,
    littleEndian_congr hbyte]
  split_ifs with hgone
  · exact littleEndian_zeros 8
  · rfl

lemma pte_kept (hp : Pruned pm root gone pm') (h : pm.TableTree root)
    (hnames : pm.NamesTables root gone) {path : List ℕ} {q i : ℕ} (hlen : path.length ≤ 2)
    (hq : walk pm.link root path = some q) (hkept : ¬ gone path) (hi : i < 512)
    (hentry : ¬ gone (path ++ [i])) : pm'.pte q i = pm.pte q i := by
  rw [hp.pte h hnames hlen hq hkept hi, if_neg hentry]

open Classical in
/-- Removing one more table and clearing the entry that leads to it. -/
theorem prune (hp : Pruned pm root gone pm') (h : pm.TableTree root) (hnames : pm.NamesTables root gone)
    {path : List ℕ} {q i t : ℕ} (hlen : path.length ≤ 1) (hq : walk pm.link root path = some q)
    (ht : walk pm.link root (path ++ [i]) = some t) (hkept : ¬ gone path)
    (hnew : ¬ gone (path ++ [i])) :
    Pruned pm root (fun p => p = path ++ [i] ∨ gone p)
      (((pm'.remove t).2.writeValue 8 (entryAddr q i) 0).2) := by
  have hlen' : (path ++ [i]).length ≤ 2 := by
    rw [List.length_append, List.length_singleton]
    omega
  have hi : i < 512 := by
    rw [walk_snoc, hq, Option.bind_some] at ht
    exact (link_eq_some ht).1
  -- the block of the table is there, and is the one removed
  obtain ⟨b, hb, hframe⟩ := h.block (path ++ [i]) t (by simp) hlen' ht
  obtain ⟨haddr, hlimit, -⟩ := Block.span_of_eq hframe
  obtain ⟨c, hc, hcframe⟩ := hp.kept hb (h.not_gone hnames hlen' ht hnew haddr.le hlimit.ge)
  rw [hframe] at hcframe
  obtain ⟨hcaddr, hclimit, -⟩ := Block.span_of_eq hcframe
  have hremoved := remove_filter hp.ordered hc hcaddr.le (by omega : t < c.limit)
  rw [hcframe] at hremoved
  have hord : (pm'.remove t).2.Ordered := by
    obtain ⟨hrange, hsub⟩ := remove_sublist pm' t
    exact hp.ordered.sublist hrange hsub
  have hwrite : SameFrames (pm'.remove t).2 ((pm'.remove t).2.writeValue 8 (entryAddr q i) 0).2 :=
    writeData_sameFrames ..
  -- a block that stays keeps its frame and, until the entry is written, its bytes
  have hstays : ∀ b₁ ∈ pm.blocks, ¬ pm.GoneFrame root (fun p => p = path ++ [i] ∨ gone p) b₁.frame →
      ∃ c₁ ∈ (pm'.remove t).2.blocks, c₁.frame = b₁.frame := by
    intro b₁ hb₁ hstay
    rw [goneFrame_or ht, not_or] at hstay
    obtain ⟨c₁, hc₁, hframe₁⟩ := hp.kept hb₁ hstay.2
    refine ⟨c₁, ?_, hframe₁⟩
    rw [hremoved, List.mem_filter, decide_eq_true_eq, hframe₁]
    exact ⟨hc₁, hstay.1⟩
  have hqkept : ¬ (path = path ++ [i] ∨ gone path) := not_or.mpr ⟨by simp, hkept⟩
  obtain ⟨b₀, hb₀, hsome₀, hlow₀, hhigh₀, -⟩ := h.holder (by omega) hq
  have hbacked : (pm'.remove t).2.Backed q 4096 := by
    obtain ⟨c₀, hc₀, hframe₀⟩ := hstays b₀ hb₀
      (h.not_gone (hnames.add (by simp) hlen' ht) (by omega) hq hqkept hlow₀ hhigh₀)
    obtain ⟨haddr₀, hlimit₀, hpages₀⟩ := Block.span_of_frame hframe₀
    exact ⟨c₀, hc₀, hpages₀.trans hsome₀, haddr₀.le.trans hlow₀, hhigh₀.trans hlimit₀.ge⟩
  refine ⟨hwrite.ordered hord, ?_, ?_⟩
  · rw [hwrite.frames, hremoved, frames_filter_ne, hp.frames, ← frames_filter_ne, List.filter_filter]
    congr 1
    apply List.filter_congr
    intro b₁ _
    rw [← Bool.decide_and, decide_eq_decide, goneFrame_or ht, not_or]
  · intro b₁ hb₁ hsome₁ hstay x hlow hhigh
    obtain ⟨c₁, hc₁, hframe₁⟩ := hstays b₁ hb₁ hstay
    obtain ⟨haddr₁, hlimit₁, hpages₁⟩ := Block.span_of_frame hframe₁
    have hbefore : (pm'.remove t).2.byteAt x = pm'.byteAt x := by
      refine byteAt_of_subset hp.ordered (fun c' hc' => ?_) hc₁ (hpages₁.trans hsome₁) ⟨by omega, by omega⟩
      rw [hremoved] at hc'
      exact (List.mem_filter.mp hc').1
    rw [goneFrame_or ht, not_or] at hstay
    rw [writeEntry_bytes hord hbacked hi, hbefore, hp.bytes b₁ hb₁ hsome₁ hstay.2 x hlow hhigh]
    have hcleared := clearedByte_or gone hq i x
    by_cases hhere : q + i * 8 ≤ x ∧ x < q + i * 8 + 8
    · rw [if_pos hhere, if_pos (hcleared.mpr (.inl hhere))]
      simp [byteOf]
    · rw [if_neg hhere]
      exact if_congr (hcleared.trans (or_iff_right hhere)).symm rfl rfl

/-- Sets of paths with the same members. -/
lemma congr (hp : Pruned pm root gone pm') {gone' : List ℕ → Prop} (h : ∀ path, gone path ↔ gone' path) :
    Pruned pm root gone' pm' := by
  have heq : gone = gone' := funext fun path => propext (h path)
  exact heq ▸ hp

/-- An entry that leads to no table that is gone leads where it did. -/
lemma link_eq (hp : Pruned pm root gone pm') (h : pm.TableTree root) (hnames : pm.NamesTables root gone)
    {path : List ℕ} {q i : ℕ} (hlen : path.length ≤ 2) (hq : walk pm.link root path = some q)
    (hkept : ¬ gone path) (hentry : ¬ gone (path ++ [i])) :
    pm'.link q i = walk pm.link root (path ++ [i]) := by
  rw [walk_snoc, hq, Option.bind_some]
  unfold link nextTable
  by_cases hi : i < 512
  · rw [hp.pte_kept h hnames hlen hq hkept hi hentry]
  · simp [hi]

end Pruned

/-! ### The loops -/

namespace Dead

lemma names {gone : List ℕ → Prop} (h : ∀ path, gone path → pm.Dead root path) :
    pm.NamesTables root gone := by
  intro path hpath
  obtain ⟨hne, hlen, hwalk, -⟩ := h path hpath
  exact ⟨hne, hlen, hwalk⟩

lemma not_nil : ¬ pm.Dead root [] := fun h => h.1 rfl

lemma not_leaf {path : List ℕ} (h : path.length = 3) : ¬ pm.Dead root path := by
  intro hdead
  have := hdead.2.1
  omega

/-- A table of level 2 is dead when no entry of it is valid. -/
lemma level2_iff {i j q : ℕ} (hq : walk pm.link root [i, j] = some q) :
    pm.Dead root [i, j] ↔ ∀ k < 512, pm.pte q k &&& V = 0 := by
  have hwalk : ∀ k, walk pm.link root ([i, j] ++ [k]) = pm.link q k := by
    intro k
    rw [walk_snoc, hq, Option.bind_some]
  constructor
  · intro hdead k hk
    by_contra hv
    have hnone := hdead.2.2.2 [k] rfl
    rw [hwalk, link_valid hk hv] at hnone
    cases hnone
  · intro hnone
    refine ⟨by simp, by simp, ⟨q, hq⟩, fun rest hrest => ?_⟩
    obtain ⟨k, rfl⟩ := List.length_eq_one_iff.mp (show rest.length = 1 by simp at hrest; omega)
    rw [hwalk]
    by_cases hk : k < 512
    · exact link_none (hnone k hk)
    · exact if_neg fun hvalid => hk hvalid.1

/-- A table of level 1 is dead when all the tables below it are. -/
lemma level1_iff {i q : ℕ} (hq : walk pm.link root [i] = some q) :
    pm.Dead root [i] ↔ ∀ j < 512, walk pm.link root [i, j] = none ∨ pm.Dead root [i, j] := by
  constructor
  · intro hdead j _
    cases hj : walk pm.link root [i, j] with
    | none => exact .inl rfl
    | some q' =>
      right
      refine ⟨by simp, by simp, ⟨q', hj⟩, fun rest hrest => ?_⟩
      exact hdead.2.2.2 (j :: rest) (by simp at hrest ⊢; omega)
  · intro hbelow
    refine ⟨by simp, by simp, ⟨q, hq⟩, fun rest hrest => ?_⟩
    obtain ⟨j, k, rfl⟩ := List.length_eq_two.mp (show rest.length = 2 by simp at hrest; omega)
    have hsplit : walk pm.link root ([i] ++ [j, k]) =
        (walk pm.link root [i, j]).bind fun q' => pm.link q' k := walk_snoc pm.link root [i, j] k
    cases hj : walk pm.link root [i, j] with
    | none => rw [hsplit, hj, Option.bind_none]
    | some q' =>
      have hlt : j < 512 := by
        have hlast : walk pm.link root ([i] ++ [j]) = some q' := hj
        rw [walk_snoc, hq, Option.bind_some] at hlast
        exact (link_eq_some hlast).1
      have hdead := (hbelow j hlt).resolve_left (by simp [hj])
      exact hdead.2.2.2 [k] rfl

end Dead

end PhysicalMemory

namespace Cleanup
open PhysicalMemory
variable {pm : PhysicalMemory} {root : ℕ} {gone : List ℕ → Prop} {r : Bool × Cleanup}

lemma noneValid_iff (s : Cleanup) (table : ℕ) :
    s.noneValid table = true ↔ ∀ k < 512, s.pm.pte table k &&& V = 0 := by
  simp [noneValid]

lemma valid_of_link {s : Cleanup} {table i t : ℕ} (h : s.pm.link table i = some t) :
    s.pm.pte table i &&& V ≠ 0 ∧ s.pm.nextTable table i = t := (link_eq_some h).2

lemma invalid_of_link {s : Cleanup} {table i : ℕ} (hi : i < 512) (h : s.pm.link table i = none) :
    s.pm.pte table i &&& V = 0 := by
  by_contra hv
  rw [link_valid hi hv] at h
  cases h

/-- What is done for one entry of a table of level 1. -/
lemma cleanEntry_cases (h : pm.TableTree root) (hp : Pruned pm root gone r.2.pm)
    (hgone : ∀ path, gone path → pm.Dead root path) {i j q : ℕ} (hq : walk pm.link root [i] = some q)
    (hkept : ¬ gone [i]) (hnew : ¬ gone [i, j]) (hj : j < 512) :
    (walk pm.link root [i, j] = none ∧ cleanEntry q r j = r) ∨
      ∃ t, walk pm.link root [i, j] = some t ∧
        (pm.Dead root [i, j] ∧ cleanEntry q r j = (r.1, (r.2.remove t).clear q j) ∨
          ¬ pm.Dead root [i, j] ∧ cleanEntry q r j = (false, r.2)) := by
  have hnames := Dead.names hgone
  have hlink : r.2.pm.link q j = walk pm.link root [i, j] := hp.link_eq h hnames (by simp) hq hkept hnew
  cases ht : walk pm.link root [i, j] with
  | none => exact .inl ⟨rfl, if_pos (invalid_of_link hj (hlink.trans ht))⟩
  | some t =>
    obtain ⟨hv, hnext⟩ := valid_of_link (hlink.trans ht)
    have hempty : r.2.noneValid t = true ↔ pm.Dead root [i, j] := by
      rw [noneValid_iff, Dead.level2_iff ht]
      refine forall₂_congr fun k hk => ?_
      rw [hp.pte_kept h hnames (by simp) ht hnew hk fun hleaf => Dead.not_leaf (by simp) (hgone _ hleaf)]
    have hcase : cleanEntry q r j =
        if r.2.noneValid t then (r.1, (r.2.remove t).clear q j) else (false, r.2) := by
      rw [cleanEntry, if_neg hv, hnext]
    refine .inr ⟨t, rfl, ?_⟩
    by_cases hdead : pm.Dead root [i, j]
    · exact .inl ⟨hdead, by rw [hcase, if_pos (hempty.mpr hdead)]⟩
    · exact .inr ⟨hdead, by rw [hcase, if_neg fun hnone => hdead (hempty.mp hnone)]⟩

/-- One entry of a table of level 1: the table it leads to is removed when no entry of it is valid. -/
theorem cleanEntry_pruned (h : pm.TableTree root) (hp : Pruned pm root gone r.2.pm)
    (hgone : ∀ path, gone path → pm.Dead root path) {i j q : ℕ} (hq : walk pm.link root [i] = some q)
    (hkept : ¬ gone [i]) (hnew : ¬ gone [i, j]) (hj : j < 512) :
    Pruned pm root (fun path => (path = [i, j] ∧ pm.Dead root path) ∨ gone path) (cleanEntry q r j).2.pm ∧
      ((cleanEntry q r j).1 = true ↔
        r.1 = true ∧ (walk pm.link root [i, j] = none ∨ pm.Dead root [i, j])) := by
  have hstay : ¬ pm.Dead root [i, j] →
      Pruned pm root (fun path => (path = [i, j] ∧ pm.Dead root path) ∨ gone path) r.2.pm := by
    intro hdead
    refine hp.congr fun path => ⟨.inr, fun hpath => hpath.resolve_left ?_⟩
    rintro ⟨rfl, hpath⟩
    exact hdead hpath
  rcases cleanEntry_cases h hp hgone hq hkept hnew hj with
    ⟨hnone, heq⟩ | ⟨t, ht, ⟨hdead, heq⟩ | ⟨hdead, heq⟩⟩
  · rw [heq]
    refine ⟨hstay fun hdead => ?_, by simp [hnone]⟩
    obtain ⟨t, ht⟩ := hdead.2.2.1
    rw [hnone] at ht
    cases ht
  · rw [heq]
    refine ⟨(hp.prune h (Dead.names hgone) (by simp) hq ht hkept hnew).congr fun path => ?_, by simp [hdead]⟩
    refine or_congr_left ⟨?_, And.left⟩
    rintro rfl
    exact ⟨rfl, hdead⟩
  · rw [heq]
    exact ⟨hstay hdead, by simp [ht, hdead]⟩

/-- The entries before `n` of a table of level 1. -/
theorem cleanEntries_pruned {s : Cleanup} (h : pm.TableTree root) (hp : Pruned pm root gone s.pm)
    (hgone : ∀ path, gone path → pm.Dead root path) {i q : ℕ} (hq : walk pm.link root [i] = some q)
    (hnone : ∀ path, ¬ gone (i :: path)) {n : ℕ} (hn : n ≤ 512) :
    Pruned pm root (fun path => (∃ j < n, path = [i, j] ∧ pm.Dead root path) ∨ gone path)
        ((List.range n).foldl (cleanEntry q) (true, s)).2.pm ∧
      (((List.range n).foldl (cleanEntry q) (true, s)).1 = true ↔
        ∀ j < n, walk pm.link root [i, j] = none ∨ pm.Dead root [i, j]) := by
  induction n with
  | zero => exact ⟨hp.congr fun path => by simp, by simp⟩
  | succ n ih =>
    rw [List.range_succ, List.foldl_append, List.foldl_cons, List.foldl_nil]
    obtain ⟨hp', hflag⟩ := ih (by omega)
    have hgone' : ∀ path, (∃ j < n, path = [i, j] ∧ pm.Dead root path) ∨ gone path → pm.Dead root path := by
      rintro path (⟨j, -, -, hdead⟩ | hpath)
      · exact hdead
      · exact hgone path hpath
    have hkept : ¬ ((∃ j < n, [i] = [i, j] ∧ pm.Dead root [i]) ∨ gone [i]) := by
      simpa using hnone []
    have hnew : ¬ ((∃ j < n, [i, n] = [i, j] ∧ pm.Dead root [i, n]) ∨ gone [i, n]) := by
      rintro (⟨j, hj, heq, -⟩ | hpath)
      · simp only [List.cons.injEq, and_true, true_and] at heq
        omega
      · exact hnone _ hpath
    obtain ⟨hpruned, hstep⟩ := cleanEntry_pruned h hp' hgone' hq hkept hnew (show n < 512 by omega)
    refine ⟨hpruned.congr fun path => ?_, ?_⟩
    · rw [← or_assoc]
      refine or_congr_left ⟨?_, ?_⟩
      · rintro (⟨rfl, hdead⟩ | ⟨j, hj, heq, hdead⟩)
        · exact ⟨n, by omega, rfl, hdead⟩
        · exact ⟨j, by omega, heq, hdead⟩
      · rintro ⟨j, hj, rfl, hdead⟩
        by_cases hlast : j = n
        · exact .inl ⟨by rw [hlast], hdead⟩
        · exact .inr ⟨j, by omega, rfl, hdead⟩
    · rw [hstep, hflag]
      exact Nat.forall_lt_succ_right.symm

/-- What is done for one entry of the root. -/
lemma cleanRootEntry_cases {s : Cleanup} (h : pm.TableTree root) (hp : Pruned pm root gone s.pm)
    (hgone : ∀ path, gone path → pm.Dead root path) {i : ℕ} (hnone : ∀ path, ¬ gone (i :: path))
    (hi : i < 512) :
    (walk pm.link root [i] = none ∧ cleanRootEntry root s i = s) ∨
      ∃ t r, walk pm.link root [i] = some t ∧ r = (List.range 512).foldl (cleanEntry t) (true, s) ∧
        cleanRootEntry root s i = (if r.1 then (r.2.remove t).clear root i else r.2) ∧
        Pruned pm root (fun path => (∃ j < 512, path = [i, j] ∧ pm.Dead root path) ∨ gone path) r.2.pm ∧
        (r.1 = true ↔ pm.Dead root [i]) := by
  have hroot : ¬ gone [] := fun hpath => Dead.not_nil (hgone _ hpath)
  have hlink : s.pm.link root i = walk pm.link root [i] :=
    hp.link_eq h (Dead.names hgone) (by simp) (walk_nil pm.link root) hroot (hnone [])
  cases ht : walk pm.link root [i] with
  | none => exact .inl ⟨rfl, if_pos (invalid_of_link hi (hlink.trans ht))⟩
  | some t =>
    obtain ⟨hv, hnext⟩ := valid_of_link (hlink.trans ht)
    obtain ⟨hp', hflag⟩ := cleanEntries_pruned h hp hgone ht hnone (le_refl 512)
    refine .inr ⟨t, _, rfl, rfl, ?_, hp', hflag.trans (Dead.level1_iff ht).symm⟩
    rw [cleanRootEntry, if_neg hv, hnext]

/-- Below an entry of the root there are the table that it leads to and the tables below that. -/
lemma dead_below_iff {i t : ℕ} (ht : walk pm.link root [i] = some t) (path : List ℕ) :
    path.head? = some i ∧ pm.Dead root path ↔
      (path = [i] ∧ pm.Dead root [i]) ∨ ∃ j < 512, path = [i, j] ∧ pm.Dead root path := by
  constructor
  · rintro ⟨hhead, hdead⟩
    obtain ⟨rest, rfl⟩ := List.head?_eq_some_iff.mp hhead
    cases rest with
    | nil => exact .inl ⟨rfl, hdead⟩
    | cons j rest =>
      obtain ⟨-, hlen, ⟨q, hq⟩, -⟩ := id hdead
      obtain rfl : rest = [] := by simpa using hlen
      have hlast : walk pm.link root ([i] ++ [j]) = some q := hq
      rw [walk_snoc, ht, Option.bind_some] at hlast
      exact .inr ⟨j, (link_eq_some hlast).1, rfl, hdead⟩
  · rintro (⟨rfl, hdead⟩ | ⟨j, -, rfl, hdead⟩)
    · exact ⟨rfl, hdead⟩
    · exact ⟨rfl, hdead⟩

/-- One entry of the root: the tables below it are cleaned, and then the table it leads to is removed
when no entry of it is valid any more. -/
theorem cleanRootEntry_pruned {s : Cleanup} (h : pm.TableTree root) (hp : Pruned pm root gone s.pm)
    (hgone : ∀ path, gone path → pm.Dead root path) {i : ℕ} (hnone : ∀ path, ¬ gone (i :: path))
    (hi : i < 512) :
    Pruned pm root (fun path => (path.head? = some i ∧ pm.Dead root path) ∨ gone path)
      (cleanRootEntry root s i).pm := by
  rcases cleanRootEntry_cases h hp hgone hnone hi with ⟨ht, heq⟩ | ⟨t, r, ht, -, heq, hp', hflag⟩
  · rw [heq]
    refine hp.congr fun path => ⟨.inr, fun hpath => hpath.resolve_left ?_⟩
    rintro ⟨hhead, -, -, ⟨q, hq⟩, -⟩
    obtain ⟨rest, rfl⟩ := List.head?_eq_some_iff.mp hhead
    have hsplit := walk_append pm.link root [i] rest
    rw [ht, Option.bind_none] at hsplit
    cases hsplit.symm.trans hq
  · have hgone' : ∀ path, (∃ j < 512, path = [i, j] ∧ pm.Dead root path) ∨ gone path → pm.Dead root path := by
      rintro path (⟨j, -, -, hdead⟩ | hpath)
      · exact hdead
      · exact hgone path hpath
    rw [heq]
    by_cases hdead : pm.Dead root [i]
    · rw [if_pos (hflag.mpr hdead)]
      have hshort : ∀ path : List ℕ, path.length ≤ 1 → ¬ ∃ j < 512, path = [i, j] ∧ pm.Dead root path := by
        rintro path hlen ⟨j, -, rfl, -⟩
        simp at hlen
      have hkept := not_or.mpr ⟨hshort [] (by simp), fun hpath => Dead.not_nil (hgone _ hpath)⟩
      have hnew := not_or.mpr ⟨hshort [i] (by simp), hnone []⟩
      refine (hp'.prune h (Dead.names hgone') (by simp) (walk_nil pm.link root) ht hkept hnew).congr ?_
      intro path
      rw [dead_below_iff ht, or_assoc]
      exact or_congr_left (and_iff_left hdead).symm
    · rw [if_neg fun hflag' => hdead (hflag.mp hflag')]
      refine hp'.congr fun path => ?_
      rw [dead_below_iff ht]
      simp [hdead]

/-! ### Cleaning where no table is dead -/

lemma cleanEntry_idle (h : pm.TableTree root) (hnone : ∀ path, ¬ pm.Dead root path) (hr : r.2.pm = pm)
    {i j q : ℕ} (hq : walk pm.link root [i] = some q) (hj : j < 512) : (cleanEntry q r j).2 = r.2 := by
  have hp : Pruned pm root (fun _ => False) r.2.pm := by
    rw [hr]
    exact .start h
  rcases cleanEntry_cases h hp (fun _ => False.elim) hq id id hj with
    ⟨-, heq⟩ | ⟨t, -, ⟨hdead, -⟩ | ⟨-, heq⟩⟩
  · rw [heq]
  · exact absurd hdead (hnone _)
  · rw [heq]

lemma cleanRootEntry_idle {s : Cleanup} (h : pm.TableTree root) (hnone : ∀ path, ¬ pm.Dead root path)
    (hs : s.pm = pm) {i : ℕ} (hi : i < 512) : cleanRootEntry root s i = s := by
  have hp : Pruned pm root (fun _ => False) s.pm := by
    rw [hs]
    exact .start h
  rcases cleanRootEntry_cases h hp (fun _ => False.elim) (fun _ => id) hi with
    ⟨-, heq⟩ | ⟨t, r, ht, hr, heq, -, hflag⟩
  · exact heq
  · have hstate : r.2 = s := by
      rw [hr]
      refine List.foldlRecOn (motive := fun r : Bool × Cleanup => r.2 = s) (List.range 512) _ rfl ?_
      intro r hr j hj
      rw [cleanEntry_idle h hnone (by rw [hr, hs]) ht (List.mem_range.mp hj), hr]
    rw [heq, if_neg fun hflag' => hnone _ (hflag.mp hflag'), hstate]

end Cleanup

namespace PhysicalMemory
variable {pm : PhysicalMemory} {root : ℕ}

/-- `clean_pt` removes the tables below which no leaf entry is valid. -/
theorem cleanPt_pruned (h : pm.TableTree root) : Pruned pm root (pm.Dead root) (pm.cleanPt root).pm := by
  have hloop : ∀ n ≤ 512, Pruned pm root (fun path => (∃ i < n, path.head? = some i) ∧ pm.Dead root path)
      ((List.range n).foldl (Cleanup.cleanRootEntry root) ⟨pm, []⟩).pm := by
    intro n hn
    induction n with
    | zero => exact (Pruned.start h).congr fun path => by simp
    | succ n ih =>
      rw [List.range_succ, List.foldl_append, List.foldl_cons, List.foldl_nil]
      refine (Cleanup.cleanRootEntry_pruned h (ih (by omega)) (fun path hpath => hpath.2) ?_
        (show n < 512 by omega)).congr fun path => ?_
      · rintro path ⟨⟨i, hi, heq⟩, -⟩
        simp only [List.head?_cons, Option.some.injEq] at heq
        omega
      · rw [← or_and_right]
        refine and_congr_left fun _ => ?_
        rw [Nat.exists_lt_succ_right, or_comm]
  refine (hloop 512 le_rfl).congr fun path => and_iff_right_of_imp fun hdead => ?_
  -- the first index of a path is one of an entry
  obtain ⟨hne, -, ⟨q, hq⟩, -⟩ := hdead
  cases path with
  | nil => exact absurd rfl hne
  | cons i rest =>
    have hsplit := walk_append pm.link root [i] rest
    cases ht : pm.link root i with
    | none => simp [walk, ht] at hq
    | some t => exact ⟨i, (link_eq_some ht).1, rfl⟩

/-- With no dead table `clean_pt` does nothing. -/
theorem cleanPt_idle (h : pm.TableTree root) (hnone : ∀ path, ¬ pm.Dead root path) :
    pm.cleanPt root = ⟨pm, []⟩ := by
  refine List.foldlRecOn (motive := fun s : Cleanup => s = ⟨pm, []⟩) (List.range 512) _ rfl ?_
  rintro s rfl i hi
  exact Cleanup.cleanRootEntry_idle h hnone rfl (List.mem_range.mp hi)

/-! ### What is left -/

namespace Pruned
variable {pm' : PhysicalMemory}

/-- The tables of the pruned memory are the ones that are not dead. -/
theorem walk_iff (hp : Pruned pm root (pm.Dead root) pm') (h : pm.TableTree root) {path : List ℕ} {q : ℕ}
    (hlen : path.length ≤ 3) : walk pm'.link root path = some q ↔
      walk pm.link root path = some q ∧ ¬ pm.Dead root path := by
  have hnames := Dead.names fun path (hpath : pm.Dead root path) => hpath
  induction path using List.reverseRecOn generalizing q with
  | nil => simp [Dead.not_nil]
  | append_singleton l i ih =>
    rw [List.length_append, List.length_singleton] at hlen
    constructor
    · intro hq
      rw [walk_snoc, Option.bind_eq_some_iff] at hq
      obtain ⟨p, hl, hentry⟩ := hq
      obtain ⟨hl', hkept⟩ := (ih (by omega)).mp hl
      obtain ⟨hi, hv, -⟩ := link_eq_some hentry
      have hdead : ¬ pm.Dead root (l ++ [i]) := by
        intro hdead
        rw [hp.pte h hnames (by omega) hl' hkept hi, if_pos hdead] at hv
        exact hv rfl
      rw [← hp.link_eq h hnames (by omega) hl' hkept hdead]
      exact ⟨hentry, hdead⟩
    · rintro ⟨hq, hdead⟩
      obtain ⟨p, hl, -⟩ := Option.bind_eq_some_iff.mp ((walk_snoc ..).symm.trans hq)
      -- a table below a dead one is dead, and no leaf entry is valid there
      have hkept : ¬ pm.Dead root l := by
        intro hl'
        by_cases hleaf : l.length = 2
        · have hnone := hl'.2.2.2 [i] (by simp [hleaf])
          rw [hq] at hnone
          cases hnone
        · refine hdead ⟨by simp, by simp; omega, ⟨q, hq⟩, fun rest hrest => ?_⟩
          rw [List.append_assoc]
          exact hl'.2.2.2 ([i] ++ rest) (by simp at hrest ⊢; omega)
      rw [walk_snoc, (ih (by omega)).mpr ⟨hl, hkept⟩, Option.bind_some,
        hp.link_eq h hnames (by omega) hl hkept hdead]
      exact hq

/-- The tables that are left are well formed. -/
theorem tableTree (hp : Pruned pm root (pm.Dead root) pm') (h : pm.TableTree root) : pm'.TableTree root := by
  have hnames := Dead.names fun path (hpath : pm.Dead root path) => hpath
  refine ⟨hp.ordered, hp.backed h hnames (by simp) (walk_nil pm.link root) Dead.not_nil, ?_, ?_, ?_⟩
  · intro path q i hlen hq hi hv
    obtain ⟨hq', hkept⟩ := (hp.walk_iff h (by omega)).mp hq
    have hpte := hp.pte h hnames hlen hq' hkept hi
    split_ifs at hpte with hdead
    · exact hpte
    · rw [hpte] at hv ⊢
      exact h.zero path q i hlen hq' hi hv
  · intro path q hne hlen hq
    obtain ⟨hq', hkept⟩ := (hp.walk_iff h (by omega)).mp hq
    obtain ⟨b, hb, hframe⟩ := h.block path q hne hlen hq'
    obtain ⟨haddr, hlimit, -⟩ := Block.span_of_eq hframe
    obtain ⟨c, hc, hsame⟩ := hp.kept hb (h.not_gone hnames hlen hq' hkept haddr.le hlimit.ge)
    exact ⟨c, hc, hsame.trans hframe⟩
  · intro r r' path path' q hr hr' hlen hlen' hq hq'
    rw [hr, hp.walk_iff h (by omega)] at hq
    rw [hr', hp.walk_iff h (by omega)] at hq'
    rw [hr, hr']
    exact h.distinct root root path path' q rfl rfl hlen hlen' hq.1 hq'.1

lemma not_dead (hp : Pruned pm root (pm.Dead root) pm') (h : pm.TableTree root) (path : List ℕ) :
    ¬ pm'.Dead root path := by
  rintro ⟨hne, hlen, ⟨q, hq⟩, hleaves⟩
  obtain ⟨hq', hkept⟩ := (hp.walk_iff h (by omega)).mp hq
  refine hkept ⟨hne, hlen, ⟨q, hq'⟩, fun rest hrest => ?_⟩
  rw [Option.eq_none_iff_forall_not_mem]
  intro t ht
  have hleaf : (path ++ rest).length = 3 := by
    rw [List.length_append]
    omega
  have hstill := (hp.walk_iff h hleaf.le).mpr ⟨ht, Dead.not_leaf hleaf⟩
  rw [hleaves rest hrest] at hstill
  cases hstill

end Pruned

/-- The translation of an address is the walk along its indices. -/
lemma convert_eq_link (h : pm.TableTree root) (v : ℕ) :
    Memory.convert ⟨pm⟩ root v = match walk pm.link root (vaPath v) with
      | some q => if q = 0 then 0 else q ||| (v &&& 0xfff)
      | none => 0 := by
  have hnext : ∀ path q i, path.length ≤ 2 → walk pm.link root path = some q → i < 512 →
      pm.link q i = none → pm.nextTable q i = 0 := by
    intro path q i hlen hq hi hnone
    have hv : pm.pte q i &&& V = 0 := by
      by_contra hv
      rw [link_valid hi hv] at hnone
      cases hnone
    rw [nextTable, h.zero path q i hlen hq hi hv]
    rfl
  have htable : ∀ path q, path ≠ [] → path.length ≤ 2 → walk pm.link root path = some q → q ≠ 0 := by
    rintro path q hne hlen hq rfl
    obtain ⟨b, hb, hframe⟩ := h.block path 0 hne hlen hq
    obtain ⟨haddr, -, hsome⟩ := Block.span_of_eq hframe
    have hlower := (h.ordered.inserted_of_backed hb hsome).lower
    omega
  have hsnoc : ∀ path q i, walk pm.link root path = some q →
      walk pm.link root (path ++ [i]) = pm.link q i := by
    intro path q i hq
    rw [walk_snoc, hq, Option.bind_some]
  simp only [Memory.convert, vaPath]
  cases h₀ : pm.link root (vaExtract v 0) with
  | none => simp [hnext [] root _ (by simp) rfl (vaExtract_lt v 0) h₀, walk, h₀]
  | some t₁ =>
    have hw₁ : walk pm.link root [vaExtract v 0] = some t₁ := (hsnoc [] root _ rfl).trans h₀
    rw [(link_eq_some h₀).2.2, if_neg (htable _ t₁ (by simp) (by simp) hw₁)]
    cases h₁ : pm.link t₁ (vaExtract v 1) with
    | none => simp [hnext _ t₁ _ (by simp) hw₁ (vaExtract_lt v 1) h₁, walk, h₀, h₁]
    | some t₂ =>
      have hw₂ : walk pm.link root [vaExtract v 0, vaExtract v 1] = some t₂ := (hsnoc _ t₁ _ hw₁).trans h₁
      rw [(link_eq_some h₁).2.2, if_neg (htable _ t₂ (by simp) (by simp) hw₂)]
      cases h₂ : pm.link t₂ (vaExtract v 2) with
      | none => simp [hnext _ t₂ _ (by simp) hw₂ (vaExtract_lt v 2) h₂, walk, h₀, h₁, h₂]
      | some q => simp [walk, h₀, h₁, h₂, (link_eq_some h₂).2.2]

/-- In sound tables the entries with a clear valid bit are the empty ones. -/
lemma PageTables.walk_link {roots : ℕ → Prop} (h : pm.PageTables roots) (hr : roots root) {path : List ℕ}
    (hlen : path.length ≤ 3) : walk pm.link root path = walk pm.entry root path := by
  refine walk_congr (fun q i hq => ?_) hr hlen
  by_cases hi : i < 512
  · cases h.valid q i hq hi with
    | inl hzero => simp [link, entry, nextTable, hzero]
    | inr hvalid => simp [link, entry, hi, hvalid]
  · simp [link, entry, hi]

/-- Sound tables in blocks of their own are well formed. -/
theorem PageTables.tableTree {roots : ℕ → Prop} (h : pm.PageTables roots) (hr : roots root)
    (hblock : ∀ path q, path ≠ [] → path.length ≤ 2 → walk pm.entry root path = some q →
      ∃ b ∈ pm.blocks, b.frame = (q, 4096, true)) : pm.TableTree root := by
  refine ⟨h.ordered, (h.page root ⟨root, [], hr, by simp, rfl⟩).2, ?_, ?_, ?_⟩
  · intro path q i hlen hq hi hv
    rw [h.walk_link hr (by omega)] at hq
    exact (h.valid q i ⟨root, path, hr, by omega, hq⟩ hi).resolve_right fun hvalid => hvalid.1 hv
  · intro path q hne hlen hq
    rw [h.walk_link hr (by omega)] at hq
    exact hblock path q hne hlen hq
  · intro r r' path path' q hr₁ hr₂ hlen hlen' hq hq'
    subst hr₁ hr₂
    rw [h.walk_link hr (by omega)] at hq hq'
    exact h.forest r' r' path path' q hr hr (by omega) (by omega) hq hq'

end PhysicalMemory

namespace Memory
open PhysicalMemory

/-- `clean_pt` removes the tables of the root below which no leaf entry is valid, clears the entries
that led to them and touches nothing else; no translation changes, and a second run does nothing. -/
theorem cleanPt_prunes {m : Memory} {root : ℕ} (h : m.pm.TableTree root) :
    Pruned m.pm root (m.pm.Dead root) (m.cleanPt root).2.pm ∧
      (∀ v, (m.cleanPt root).2.convert root v = m.convert root v) ∧
      (m.cleanPt root).2.cleanPt root = m.cleanPt root := by
  obtain ⟨pm', heq, hp⟩ : ∃ pm', m.cleanPt root = (0, ⟨pm'⟩) ∧ Pruned m.pm root (m.pm.Dead root) pm' :=
    ⟨_, rfl, cleanPt_pruned h⟩
  rw [heq]
  refine ⟨hp, fun v => ?_, ?_⟩
  · have hwalk : walk pm'.link root (vaPath v) = walk m.pm.link root (vaPath v) := by
      apply Option.ext
      intro q
      rw [hp.walk_iff h (by simp), and_iff_left (Dead.not_leaf (vaPath_length v))]
    rw [convert_eq_link (hp.tableTree h), hwalk, ← convert_eq_link h]
  · rw [Memory.cleanPt, cleanPt_idle (hp.tableTree h) (hp.not_dead h)]
    rfl

/-- An allocation that finds no page for its second table leaves a dead one behind. -/
theorem cleanPt_prunes_oneTable : ∃ m : Memory, m.pm.TableTree 0x20000000 ∧ m.pm.Dead 0x20000000 [1] ∧
    Pruned m.pm 0x20000000 (m.pm.Dead 0x20000000) (m.cleanPt 0x20000000).2.pm := by
  let ops : List MemoryOp := [.createRootPt, .allocate 0x20000000 0x40000000 4096]
  have hrun : (ops.foldlM MemoryState.exec ⟨Memory.new 0x20003000, [], []⟩).map (fun s : MemoryState =>
      (s.roots, s.mem.pm.blocks.map Block.frame,
        (List.range 512).all fun i =>
          decide (s.mem.pm.entry 0x20000000 i = if i = 1 then some 0x20002000 else none) &&
          decide (s.mem.pm.entry 0x20002000 i = none))) =
      some ([0x20000000], [(0, 0x20000000, false), (0x20000000, 4096, true), (0x20001000, 4096, true),
        (0x20002000, 4096, true), (0x20003000, 4096, false)], true) := by decide +kernel
  obtain ⟨s, hs, hresult⟩ := Option.map_eq_some_iff.mp hrun
  simp only [Prod.mk.injEq, List.all_eq_true, List.mem_range, Bool.and_eq_true, decide_eq_true_eq] at hresult
  obtain ⟨hroots, hframes, hentries⟩ := hresult
  have hkept : (memorySystem 0x20003000).ReachableBy (fun _ op => ¬ MemoryState.Removes op) s := by
    refine (TransitionSystem.ReachableBy.start rfl).run (fun op hop s t hst => ⟨?_, hst⟩) hs
    simp only [ops, List.mem_cons, List.not_mem_nil, or_false] at hop
    rcases hop with rfl | rfl <;> exact id
  have hr : 0x20000000 ∈ s.roots := by simp [hroots]
  have htables : s.mem.pm.PageTables (· ∈ s.roots) := by
    rcases MemoryState.invariant_of_kept hkept with hinv | ⟨hrange, -⟩
    · exact hinv.tables
    · norm_num at hrange
  have hroot : ∀ i q, s.mem.pm.entry 0x20000000 i = some q → i = 1 ∧ q = 0x20002000 := by
    intro i q hq
    rw [(hentries i (entry_eq_some hq).1).1] at hq
    split_ifs at hq with hi
    exact ⟨hi, (Option.some.inj hq).symm⟩
  have htable : ∀ i, s.mem.pm.entry 0x20002000 i = none := by
    intro i
    rw [Option.eq_none_iff_forall_not_mem]
    intro q hq
    rw [(hentries i (entry_eq_some hq).1).2] at hq
    cases hq
  -- the only table below the root is the one behind entry 1, and it is empty
  have hpaths : ∀ path q, path ≠ [] → walk s.mem.pm.entry 0x20000000 path = some q →
      path = [1] ∧ q = 0x20002000 := by
    intro path q hne hq
    cases path with
    | nil => exact absurd rfl hne
    | cons i path =>
      obtain ⟨t, ht, hrest⟩ := Option.bind_eq_some_iff.mp hq
      obtain ⟨rfl, rfl⟩ := hroot i t ht
      cases path with
      | nil => exact ⟨rfl, (Option.some.inj hrest).symm⟩
      | cons j path => simp [walk, htable] at hrest
  have htree : s.mem.pm.TableTree 0x20000000 := by
    refine htables.tableTree hr fun path q hne _ hq => ?_
    obtain ⟨-, rfl⟩ := hpaths path q hne hq
    have hmem : (0x20002000, 4096, true) ∈ s.mem.pm.blocks.map Block.frame := by simp [hframes]
    exact List.mem_map.mp hmem
  have hone : walk s.mem.pm.entry 0x20000000 [1] = some 0x20002000 := by
    simp [walk, (hentries 1 (by norm_num)).1]
  refine ⟨s.mem, htree, ⟨by simp, by simp, ⟨0x20002000, ?_⟩, fun rest hrest => ?_⟩, (cleanPt_prunes htree).1⟩
  · rw [htables.walk_link hr (by simp), hone]
  · rw [htables.walk_link hr (by rw [List.length_append, hrest]), Option.eq_none_iff_forall_not_mem]
    intro q hq
    obtain ⟨hpath, -⟩ := hpaths _ q (by simp) hq
    simp only [List.singleton_append, List.cons.injEq, true_and] at hpath
    simp [hpath] at hrest

end Memory
end VentusDriver
