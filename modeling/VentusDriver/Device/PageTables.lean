import VentusDriver.Foundation.RadixForest
import VentusDriver.Device.PhysicalBytes
import VentusDriver.Device.Memory

/-! The page tables as a radix forest of depth three. The invariant says that the tables and the
mapped pages of all roots are distinct pages with storage; it survives the insertion of blocks,
writes outside the tables and the filling of an empty entry with a new page. -/
namespace VentusDriver
open Foundation Foundation.Radix Sv39

namespace PhysicalMemory

/-- The page that entry `i` of a table leads to. -/
def entry (pm : PhysicalMemory) (q i : ℕ) : Option ℕ :=
  if i < 512 ∧ pm.nextTable q i ≠ 0 then some (pm.nextTable q i) else none

/-- The tables of the given roots form a forest of pages with storage. -/
structure PageTables (pm : PhysicalMemory) (root : ℕ → Prop) : Prop where
  ordered : pm.Ordered
  cursor : pm.CursorValid
  forest : Forest pm.entry 3 root
  page : ∀ q, IsReached pm.entry 3 root q → 4096 ∣ q ∧ pm.Backed q 4096
  valid : ∀ q i, IsTable pm.entry 3 root q → i < 512 →
    pm.pte q i = 0 ∨ (pm.pte q i &&& V ≠ 0 ∧ pm.nextTable q i ≠ 0)
  /-- Two reached pages of one block coincide or are both mapped pages of one root. -/
  together : ∀ b ∈ pm.blocks, ∀ r r' path path' q q', root r → root r' → path.length ≤ 3 →
    path'.length ≤ 3 → walk pm.entry r path = some q → walk pm.entry r' path' = some q' →
    b.addr ≤ q → q < b.limit → b.addr ≤ q' → q' < b.limit →
    r = r' ∧ (path = path' ∨ (path.length = 3 ∧ path'.length = 3))

section Entries
variable {pm pm' : PhysicalMemory}

lemma entryAddr_eq {q i : ℕ} (hq : q < 2 ^ 57) (hi : i < 512) : entryAddr q i = q + i * 8 :=
  u64_of_lt (by omega)

lemma Backed.mono {addr len addr' len' : ℕ} (h : pm.Backed addr len) (hlow : addr ≤ addr')
    (hhigh : addr' + len' ≤ addr + len) : pm.Backed addr' len' := by
  obtain ⟨b, hb, hsome, h1, h2⟩ := h
  exact ⟨b, hb, hsome, by omega, by omega⟩

lemma pte_eq (h : pm.Ordered) {q i : ℕ} (hq : pm.Backed q 4096) (hi : i < 512) :
    pm.pte q i = littleEndian 8 fun j => pm.byteAt (q + i * 8 + j) := by
  have hlt := hq.lt h
  rw [pte, entryAddr_eq (by omega) hi, readValue_backed h (by norm_num)]
  exact hq.mono (by omega) (by omega)

/-- Equal bytes make equal entries. -/
lemma pte_congr (h : pm.Ordered) (h' : pm'.Ordered) {q i : ℕ} (hq : pm.Backed q 4096)
    (hq' : pm'.Backed q 4096) (hi : i < 512)
    (hbytes : ∀ x, q ≤ x → x < q + 4096 → pm'.byteAt x = pm.byteAt x) :
    pm'.pte q i = pm.pte q i := by
  rw [pte_eq h hq hi, pte_eq h' hq' hi]
  exact littleEndian_congr fun j hj => hbytes _ (by omega) (by omega)

lemma entry_of_pte_eq {q i : ℕ} (h : i < 512 → pm'.pte q i = pm.pte q i) :
    pm'.entry q i = pm.entry q i := by
  unfold entry nextTable
  by_cases hi : i < 512
  · rw [h hi]
  · simp [hi]

lemma entry_eq_some {q i q' : ℕ} (h : pm.entry q i = some q') :
    i < 512 ∧ pm.nextTable q i = q' ∧ q' ≠ 0 := by
  unfold entry at h
  split_ifs at h with hcond
  obtain rfl := Option.some.inj h
  exact ⟨hcond.1, rfl, hcond.2⟩

lemma entry_eq_none_of_pte {q i : ℕ} (h : pm.pte q i = 0) : pm.entry q i = none := by
  simp [entry, nextTable, h]

end Entries

namespace PageTables
variable {pm pm' : PhysicalMemory} {root : ℕ → Prop}

/-- Without a root there is nothing to keep apart. -/
theorem of_no_root (hord : pm.Ordered) (hcursor : pm.CursorValid)
    (hnone : ∀ r, ¬ root r) : pm.PageTables root := by
  refine ⟨hord, hcursor, ?_, ?_, ?_, ?_⟩
  · exact fun r _ _ _ _ hr => absurd hr (hnone r)
  · exact fun q ⟨r, _, hr, _⟩ => absurd hr (hnone r)
  · exact fun q _ ⟨r, _, hr, _⟩ => absurd hr (hnone r)
  · exact fun _ _ r _ _ _ _ _ hr => absurd hr (hnone r)

lemma of_new {range : ℕ} (hrange : 0x20000000 ≤ range) (hnone : ∀ r, ¬ root r) :
    (PhysicalMemory.new range).PageTables root :=
  .of_no_root (new_wellFormed hrange).ordered (new_wellFormed hrange).cursor hnone

lemma table_page (h : pm.PageTables root) {q : ℕ} (hq : IsTable pm.entry 3 root q) :
    4096 ∣ q ∧ pm.Backed q 4096 := h.page q hq.isReached

lemma reached_lower (h : pm.PageTables root) {q : ℕ} (hq : IsReached pm.entry 3 root q) :
    0x20000000 ≤ q ∧ q + 4096 ≤ pm.maxRange := by
  obtain ⟨b, hb, hsome, hlow, hhigh⟩ := (h.page q hq).2
  have hins := h.ordered.inserted_of_backed hb hsome
  exact ⟨hins.lower.trans hlow, hhigh.trans hins.upper⟩

/-- An entry is empty exactly when its valid bit is clear. -/
lemma valid_iff (h : pm.PageTables root) {q i : ℕ} (hq : IsTable pm.entry 3 root q)
    (hi : i < 512) : pm.pte q i &&& V = 0 ↔ pm.entry q i = none := by
  rcases h.valid q i hq hi with h0 | ⟨hv, hnext⟩
  · simp [h0, entry_eq_none_of_pte h0]
  · simp [hv, entry, hi, hnext]

/-- Bytes outside every table may change, and blocks may be added that hold no reached page. -/
theorem of_bytes (h : pm.PageTables root) (hord : pm'.Ordered) (hcursor : pm'.CursorValid)
    (hback : ∀ q, IsReached pm.entry 3 root q → pm'.Backed q 4096)
    (hbytes : ∀ q, IsTable pm.entry 3 root q → ∀ x, q ≤ x → x < q + 4096 →
      pm'.byteAt x = pm.byteAt x)
    (hblocks : ∀ b ∈ pm'.blocks, (∃ c ∈ pm.blocks, c.frame = b.frame) ∨
      ∀ q, IsReached pm.entry 3 root q → ¬ (b.addr ≤ q ∧ q < b.limit)) :
    pm'.PageTables root ∧
      ∀ r path, root r → path.length ≤ 3 → walk pm'.entry r path = walk pm.entry r path := by
  have hpte : ∀ q i, IsTable pm.entry 3 root q → i < 512 → pm'.pte q i = pm.pte q i :=
    fun q i hq hi => pte_congr h.ordered hord (h.table_page hq).2 (hback q hq.isReached) hi
      (hbytes q hq)
  have hentry : ∀ q i, IsTable pm.entry 3 root q → pm'.entry q i = pm.entry q i :=
    fun q i hq => entry_of_pte_eq (hpte q i hq)
  have hwalk : ∀ r path, root r → path.length ≤ 3 →
      walk pm'.entry r path = walk pm.entry r path :=
    fun r path hr hlen => walk_congr hentry hr hlen
  refine ⟨⟨hord, hcursor, h.forest.congr hentry, ?_, ?_, ?_⟩, hwalk⟩
  · rintro q ⟨r, path, hr, hlen, hw⟩
    have hq : IsReached pm.entry 3 root q := ⟨r, path, hr, hlen, hwalk r path hr hlen ▸ hw⟩
    exact ⟨(h.page q hq).1, hback q hq⟩
  · rintro q i ⟨r, path, hr, hlen, hw⟩ hi
    have hq : IsTable pm.entry 3 root q :=
      ⟨r, path, hr, hlen, hwalk r path hr (Nat.le_of_lt hlen) ▸ hw⟩
    rw [nextTable, hpte q i hq hi]
    exact h.valid q i hq hi
  · intro b hb r r' path path' q q' hr hr' hlen hlen' hw hw' h1 h2 h3 h4
    rw [hwalk r path hr hlen] at hw
    rw [hwalk r' path' hr' hlen'] at hw'
    rcases hblocks b hb with ⟨c, hc, hframe⟩ | hnone
    · obtain ⟨e1, e2, -⟩ := Block.frame_eq_iff.mp hframe
      have e3 : c.limit = b.limit := by rw [Block.limit, Block.limit, e1, e2]
      exact h.together c hc r r' path path' q q' hr hr' hlen hlen' hw hw' (e1 ▸ h1) (e3 ▸ h2)
        (e1 ▸ h3) (e3 ▸ h4)
    · exact absurd ⟨h1, h2⟩ (hnone q ⟨r, path, hr, hlen, hw⟩)

/-- A reached page does not meet a gap. -/
lemma not_in_gap (h : pm.PageTables root) {p size : ℕ} (hgap : pm.Gap p size) {q : ℕ}
    (hq : IsReached pm.entry 3 root q) : ¬ (p ≤ q ∧ q < p + size) := by
  obtain ⟨b, hb, -, hlow, hhigh⟩ := (h.page q hq).2
  rcases hgap.clear b hb with hclear | hclear <;> omega

/-- A new block keeps the tables and every walk. -/
theorem insertedAt (h : pm.PageTables root) {p size : ℕ} (hgap : pm.Gap p size)
    (hsize : 4096 ∣ size) (hins : pm.InsertedAt (fresh p size) pm') :
    pm'.PageTables root ∧
      ∀ r path, root r → path.length ≤ 3 → walk pm'.entry r path = walk pm.entry r path := by
  have hord := hins.ordered h.ordered hgap hsize
  refine h.of_bytes hord hins.cursorValid (fun q hq => hins.backed (h.page q hq).2)
    (fun q _ x _ _ => hins.byteAt h.ordered hord x) fun b hb => ?_
  cases hins.mem_iff.mp hb with
  | inl heq =>
    subst heq
    exact .inr fun q hq => h.not_in_gap hgap hq
  | inr hb =>
    exact .inl ⟨b, hb, rfl⟩

end PageTables

/-! ### Writing one entry -/

lemma writeEntry_bytes {pm : PhysicalMemory} (h : pm.Ordered) {q i : ℕ}
    (hq : pm.Backed q 4096) (hi : i < 512) (v x : ℕ) :
    (pm.writeValue 8 (entryAddr q i) v).2.byteAt x =
      if q + i * 8 ≤ x ∧ x < q + i * 8 + 8 then byteOf v (x - (q + i * 8)) else pm.byteAt x := by
  have hlt := hq.lt h
  rw [entryAddr_eq (by omega) hi, writeValue,
    writeData_backed h (by norm_num) (hq.mono (by omega) (by omega))]

/-- A written entry holds the value written; the other entries of all tables are unchanged. -/
lemma writeEntry_pte {pm : PhysicalMemory} (h : pm.Ordered) {q i : ℕ} (hdvd : 4096 ∣ q)
    (hq : pm.Backed q 4096) (hi : i < 512) {v : ℕ} (hv : v < 2 ^ 64) {q' i' : ℕ}
    (hdvd' : 4096 ∣ q') (hq' : pm.Backed q' 4096) (hi' : i' < 512) :
    (pm.writeValue 8 (entryAddr q i) v).2.pte q' i' =
      if q' = q ∧ i' = i then v else pm.pte q' i' := by
  have hframes : SameFrames pm (pm.writeValue 8 (entryAddr q i) v).2 := writeData_sameFrames ..
  rw [pte_eq (hframes.ordered h) (hframes.backed hq') hi', pte_eq h hq' hi']
  split_ifs with heq
  · obtain ⟨rfl, rfl⟩ := heq
    rw [littleEndian_congr (g := byteOf v), littleEndian_byteOf, Nat.mod_eq_of_lt (by omega)]
    intro j hj
    rw [writeEntry_bytes h hq hi, if_pos (by omega)]
    congr 1
    omega
  · apply littleEndian_congr
    intro j hj
    rw [writeEntry_bytes h hq hi, if_neg]
    -- distinct pages do not meet, and distinct entries of one page do not either
    intro hin
    apply heq
    obtain ⟨a, rfl⟩ := hdvd
    obtain ⟨b, rfl⟩ := hdvd'
    have hab : a = b := by omega
    subst hab
    exact ⟨rfl, by omega⟩

namespace PageTables
variable {pm : PhysicalMemory} {root : ℕ → Prop}

/-- What filling the empty entry `i₀` of table `q₀` needs of the page `p`. -/
structure Fillable (pm : PhysicalMemory) (root : ℕ → Prop) (r₀ : ℕ) (pre : List ℕ) (p : ℕ) :
    Prop where
  dvd : 4096 ∣ p
  backed : pm.Backed p 4096
  fresh : ¬ IsReached pm.entry 3 root p
  /-- A page that becomes a table is zero. -/
  zero : pre.length < 2 → ∀ x, p ≤ x → x < p + 4096 → pm.byteAt x = 0
  /-- Reached pages in the block of `p` are mapped pages of the same root, and so is `p`. -/
  together : ∀ b ∈ pm.blocks, b.addr ≤ p → p < b.limit → ∀ r path q, root r →
    path.length ≤ 3 → walk pm.entry r path = some q → b.addr ≤ q → q < b.limit →
    r = r₀ ∧ path.length = 3 ∧ pre.length = 2

lemma Fillable.bounds {r₀ p : ℕ} {pre : List ℕ} (hp : Fillable pm root r₀ pre p)
    (hord : pm.Ordered) : 0 < p ∧ p < maxPhyRange := by
  obtain ⟨b, hb, hsome, hlow, hhigh⟩ := hp.backed
  have hins := hord.inserted_of_backed hb hsome
  have := hins.lower
  have := hins.upper
  have := hord.range_le
  exact ⟨by omega, by omega⟩

/-- The entries after the filling: one leads to the new page, the others of the tables are the same,
and those of a page that becomes a table are zero. -/
lemma fill_pte (h : pm.PageTables root) {r₀ q₀ i₀ p mods : ℕ} {pre : List ℕ}
    (hq₀ : IsTable pm.entry 3 root q₀) (hi₀ : i₀ < 512) (hp : Fillable pm root r₀ pre p)
    (hmods : mods < 2 ^ 10) :
    (∀ q i, IsTable pm.entry 3 root q → i < 512 →
      (pm.writeValue 8 (entryAddr q₀ i₀) (setPte p mods)).2.pte q i =
        if q = q₀ ∧ i = i₀ then setPte p mods else pm.pte q i) ∧
      (pre.length < 2 → ∀ i, i < 512 →
        (pm.writeValue 8 (entryAddr q₀ i₀) (setPte p mods)).2.pte p i = 0) := by
  obtain ⟨hdvd₀, hback₀⟩ := h.table_page hq₀
  constructor
  · intro q i hq hi
    obtain ⟨hdvd, hback⟩ := h.table_page hq
    exact writeEntry_pte h.ordered hdvd₀ hback₀ hi₀ (setPte_lt hmods) hdvd hback hi
  · intro hlen i hi
    have hpq : p ≠ q₀ := fun heq => hp.fresh (heq ▸ hq₀.isReached)
    have hbytes : ∀ j < 8, pm.byteAt (p + i * 8 + j) = 0 :=
      fun j hj => hp.zero hlen _ (by omega) (by omega)
    rw [writeEntry_pte h.ordered hdvd₀ hback₀ hi₀ (setPte_lt hmods) hp.dvd hp.backed hi,
      if_neg (by tauto), pte_eq h.ordered hp.backed hi, littleEndian_congr hbytes, littleEndian_zeros]

/-- Filling an empty entry with a new page adds one walk and keeps the tables. -/
theorem fill (h : pm.PageTables root) {r₀ q₀ i₀ p mods : ℕ} {pre : List ℕ} (hr₀ : root r₀)
    (hpre : pre.length < 3) (hq₀ : walk pm.entry r₀ pre = some q₀) (hi₀ : i₀ < 512)
    (hnone : pm.entry q₀ i₀ = none) (hp : Fillable pm root r₀ pre p) (hmods : mods < 2 ^ 10)
    (hodd : mods % 2 = 1) :
    (pm.writeValue 8 (entryAddr q₀ i₀) (setPte p mods)).2.PageTables root ∧
      ∀ r path, root r → path.length ≤ 3 →
        (r = r₀ ∧ path = pre ++ [i₀] ∧
          walk (pm.writeValue 8 (entryAddr q₀ i₀) (setPte p mods)).2.entry r path = some p) ∨
        (¬ (r = r₀ ∧ path = pre ++ [i₀]) ∧
          walk (pm.writeValue 8 (entryAddr q₀ i₀) (setPte p mods)).2.entry r path =
            walk pm.entry r path) := by
  have htable : IsTable pm.entry 3 root q₀ := ⟨r₀, pre, hr₀, hpre, hq₀⟩
  obtain ⟨hpos, hlt⟩ := hp.bounds h.ordered
  have htarget : pte2pa (setPte p mods) = p := pte2pa_setPte hp.dvd hlt hmods
  have hframes : SameFrames pm (pm.writeValue 8 (entryAddr q₀ i₀) (setPte p mods)).2 :=
    writeData_sameFrames ..
  obtain ⟨hpte, hzero⟩ := h.fill_pte htable hi₀ hp hmods
  generalize (pm.writeValue 8 (entryAddr q₀ i₀) (setPte p mods)).2 = pm' at hframes hpte hzero ⊢
  have hord := hframes.ordered h.ordered
  have hnew : pm'.entry q₀ i₀ = some p := by
    have hentry := hpte q₀ i₀ htable hi₀
    rw [if_pos ⟨rfl, rfl⟩] at hentry
    simp only [entry, nextTable, hentry, htarget]
    rw [if_pos ⟨hi₀, by omega⟩]
  have hsame : ∀ q i, IsTable pm.entry 3 root q → q ≠ q₀ ∨ i ≠ i₀ →
      pm'.entry q i = pm.entry q i := by
    intro q i hq hne
    apply entry_of_pte_eq
    intro hi
    rw [hpte q i hq hi, if_neg (by tauto)]
  have hempty : pre.length + 1 < 3 → ∀ i, pm'.entry p i = none := by
    intro hlen i
    by_cases hi : i < 512
    · exact entry_eq_none_of_pte (hzero (by omega) i hi)
    · simp [entry, hi]
  have hwalk : ∀ r path, root r → path.length ≤ 3 →
      (r = r₀ ∧ path = pre ++ [i₀] ∧ walk pm'.entry r path = some p) ∨
        (¬ (r = r₀ ∧ path = pre ++ [i₀]) ∧ walk pm'.entry r path = walk pm.entry r path) :=
    fun r path hr hlen => walk_update h.forest hr₀ hpre hq₀ hnone hnew hsame hempty hr hlen
  refine ⟨⟨hord, hframes.cursorValid h.cursor, ?_, ?_, ?_, ?_⟩, hwalk⟩
  · exact h.forest.update hr₀ hpre hq₀ hnone hnew hsame hempty hp.fresh
  · rintro q ⟨r, path, hr, hlen, hw⟩
    rcases hwalk r path hr hlen with ⟨-, -, hwp⟩ | ⟨-, hwp⟩
    · obtain rfl := Option.some.inj (hwp.symm.trans hw)
      exact ⟨hp.dvd, hframes.backed hp.backed⟩
    · obtain ⟨hdvd, hback⟩ := h.page q ⟨r, path, hr, hlen, hwp.symm.trans hw⟩
      exact ⟨hdvd, hframes.backed hback⟩
  · rintro q i ⟨r, path, hr, hlen, hw⟩ hi
    rcases hwalk r path hr (Nat.le_of_lt hlen) with ⟨rfl, rfl, hwp⟩ | ⟨-, hwp⟩
    · obtain rfl := Option.some.inj (hwp.symm.trans hw)
      rw [List.length_append, List.length_singleton] at hlen
      exact .inl (hzero (by omega) i hi)
    · have hq : IsTable pm.entry 3 root q := ⟨r, path, hr, hlen, hwp.symm.trans hw⟩
      rw [nextTable, hpte q i hq hi]
      split_ifs with heq
      · right
        rw [htarget, setPte_and_V hmods, hodd]
        exact ⟨by norm_num, by omega⟩
      · exact h.valid q i hq hi
  · intro b' hb' r r' path path' q q' hr hr' hlen hlen' hw hw' h1 h2 h3 h4
    obtain ⟨b, hb, hframe⟩ := hframes.symm.kept hb'
    obtain ⟨e1, e3, -⟩ := Block.span_of_frame hframe
    rw [← e1] at h1 h3
    rw [← e3] at h2 h4
    rcases hwalk r path hr hlen with ⟨rfl, rfl, hwp⟩ | ⟨-, hwp⟩ <;>
    rcases hwalk r' path' hr' hlen' with ⟨rfl, rfl, hwp'⟩ | ⟨-, hwp'⟩
    · exact ⟨rfl, .inl rfl⟩
    · obtain rfl := Option.some.inj (hwp.symm.trans hw)
      obtain ⟨e, hl, hl'⟩ := hp.together b hb h1 h2 r' path' q' hr' hlen' (hwp'.symm.trans hw') h3 h4
      exact ⟨e.symm, .inr ⟨by simp [hl'], hl⟩⟩
    · obtain rfl := Option.some.inj (hwp'.symm.trans hw')
      obtain ⟨e, hl, hl'⟩ := hp.together b hb h3 h4 r path q hr hlen (hwp.symm.trans hw) h1 h2
      exact ⟨e, .inr ⟨hl, by simp [hl']⟩⟩
    · exact h.together b hb r r' path path' q q' hr hr' hlen hlen' (hwp.symm.trans hw)
        (hwp'.symm.trans hw') h1 h2 h3 h4

end PageTables
end PhysicalMemory
end VentusDriver
