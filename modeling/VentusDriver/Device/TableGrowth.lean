import VentusDriver.Device.PageTables

/-! One iteration of the loop in `allocate`. It only grows the forest: tables are made on pages
that had no storage, mapped pages stay where they are, and the bytes outside the tables do not
change. -/
namespace VentusDriver
open Foundation Foundation.Radix Sv39

/-- The indices by which a virtual address is translated. -/
def vaPath (va : ℕ) : List ℕ := [vaExtract va 0, vaExtract va 1, vaExtract va 2]

@[simp] lemma vaPath_length (va : ℕ) : (vaPath va).length = 3 := rfl

namespace PhysicalMemory
variable {pm pm' pm'' : PhysicalMemory} {root : ℕ → Prop}

/-- The second memory extends the tables of the first. -/
structure Growth (root : ℕ → Prop) (pm pm' : PhysicalMemory) : Prop where
  tables : pm'.PageTables root
  maxRange : pm'.maxRange = pm.maxRange
  frames : ∀ b ∈ pm.blocks, ∃ b' ∈ pm'.blocks, b'.frame = b.frame
  walks : ∀ r path q, root r → path.length ≤ 3 → walk pm.entry r path = some q →
    walk pm'.entry r path = some q
  newTables : ∀ q, IsTable pm'.entry 3 root q → IsTable pm.entry 3 root q ∨ ¬ pm.Backed q 1
  bytes : ∀ x, pm.Backed x 1 →
    (∀ q, IsTable pm.entry 3 root q → ¬ (q ≤ x ∧ x < q + 4096)) → pm'.byteAt x = pm.byteAt x

/-- A page with storage at one of its bytes has storage throughout. -/
lemma Backed.page (h : pm.Ordered) {x q : ℕ} (hb : pm.Backed x 1) (hdvd : 4096 ∣ q)
    (hlow : q ≤ x) (hhigh : x < q + 4096) : pm.Backed q 4096 := by
  obtain ⟨b, hmem, hsome, h1, h2⟩ := hb
  have hins := h.inserted_of_backed hmem hsome
  have hlim : 4096 ∣ b.limit := Nat.dvd_add hins.addr_aligned hins.size_aligned
  have hlow := hins.addr_aligned
  exact ⟨b, hmem, hsome, by omega, by omega⟩

namespace Growth

theorem refl (h : pm.PageTables root) : Growth root pm pm :=
  ⟨h, rfl, fun b hb => ⟨b, hb, rfl⟩, fun _ _ _ _ _ hw => hw, fun _ hq => .inl hq,
    fun _ _ _ => rfl⟩

theorem backed (g : Growth root pm pm') {addr len : ℕ} (hb : pm.Backed addr len) :
    pm'.Backed addr len := by
  obtain ⟨b, hmem, hsome, h1, h2⟩ := hb
  obtain ⟨b', hmem', hframe⟩ := g.frames b hmem
  obtain ⟨e1, e2, e3⟩ := Block.frame_eq_iff.mp hframe
  exact ⟨b', hmem', e3 ▸ hsome, e1 ▸ h1, by simpa [Block.limit, e1, e2] using h2⟩

theorem trans (h : pm.PageTables root) (g : Growth root pm pm') (g' : Growth root pm' pm'') :
    Growth root pm pm'' := by
  refine ⟨g'.tables, g'.maxRange.trans g.maxRange, ?_, ?_, ?_, ?_⟩
  · intro b hb
    obtain ⟨b', hb', e⟩ := g.frames b hb
    obtain ⟨b'', hb'', e'⟩ := g'.frames b' hb'
    exact ⟨b'', hb'', e'.trans e⟩
  · exact fun r path q hr hlen hw => g'.walks r path q hr hlen (g.walks r path q hr hlen hw)
  · intro q hq
    cases g'.newTables q hq with
    | inl hq =>
      exact g.newTables q hq
    | inr hnot =>
      exact .inr fun hb => hnot (g.backed hb)
  · intro x hx hout
    rw [g'.bytes x (g.backed hx), g.bytes x hx hout]
    intro q hq hin
    cases g.newTables q hq with
    | inl hq' =>
      exact hout q hq' hin
    | inr hnot =>
      have hdvd := (g.tables.table_page hq).1
      exact hnot ((hx.page h.ordered hdvd hin.1 hin.2).mono (by omega) (by omega))

end Growth

/-- A new block is a growth. -/
theorem PageTables.growth_insertedAt (h : pm.PageTables root) {p size : ℕ}
    (hgap : pm.Gap p size) (hsize : 4096 ∣ size) (hins : pm.InsertedAt (fresh p size) pm') :
    Growth root pm pm' := by
  obtain ⟨htables, hwalk⟩ := h.insertedAt hgap hsize hins
  have hrange : pm'.maxRange = pm.maxRange := by
    obtain ⟨_, _, _, -, rfl, -⟩ := hins.result
    rfl
  refine ⟨htables, hrange, fun b hb => ⟨b, hins.mem_iff.mpr (.inr hb), rfl⟩, ?_, ?_,
    fun x _ _ => hins.byteAt h.ordered htables.ordered x⟩
  · intro r path q hr hlen hw
    rwa [hwalk r path hr hlen]
  · rintro q ⟨r, path, hr, hlen, hw⟩
    exact .inl ⟨r, path, hr, hlen, hwalk r path hr (Nat.le_of_lt hlen) ▸ hw⟩

/-- Only the cursor has moved. -/
theorem PageTables.growth_cursor (h : pm.PageTables root) {c : ℕ} (hc : c < pm.blocks.length) :
    Growth root pm { pm with currentBlock := some c } := by
  have htables : PageTables { pm with currentBlock := some c } root :=
    ⟨h.ordered.of_frames rfl rfl, ⟨c, rfl, hc⟩, h.forest, h.page, h.valid, h.together⟩
  exact ⟨htables, rfl, fun b hb => ⟨b, hb, rfl⟩, fun _ _ _ _ _ hw => hw, fun _ hq => .inl hq,
    fun _ _ _ => rfl⟩

/-- The storage of a gap is new. -/
lemma Gap.not_backed {p size x : ℕ} (hgap : pm.Gap p size) (hlow : p ≤ x)
    (hhigh : x < p + size) : ¬ pm.Backed x 1 := by
  rintro ⟨b, hmem, -, h1, h2⟩
  rcases hgap.clear b hmem with hc | hc <;> omega

lemma not_backed_zero {x : ℕ} (hx : ¬ pm.Backed x 1) : pm.byteAt x = 0 :=
  byteAt_eq_zero fun b hb hsome hin => hx ⟨b, hb, hsome, hin.1, hin.2⟩

/-- A usable page is inserted, and then it can become a table at any empty entry. -/
lemma newTable (h : pm.PageTables root) (hp : pm.usable pageSize ≠ 0) (r₀ : ℕ) (pre : List ℕ) :
    ∃ pm', pm.insert (pm.usable pageSize) pageSize true = .ok (0, pm') ∧
      pm.Gap (pm.usable pageSize) pageSize ∧ pm.InsertedAt (fresh (pm.usable pageSize) pageSize) pm' ∧
      Growth root pm pm' ∧
      (∀ r path, root r → path.length ≤ 3 → walk pm'.entry r path = walk pm.entry r path) ∧
      PageTables.Fillable pm' root r₀ pre (pm.usable pageSize) := by
  have h4096 := pageSize_eq
  have hround : roundPages pageSize = pageSize := roundPages_of_dvd (by omega) (by omega)
  obtain ⟨hgap, pm', hins, hat⟩ := insert_usable h.ordered h.cursor hround (by omega) (by omega) hp
  have hgrowth := h.growth_insertedAt hgap (by omega) hat
  obtain ⟨-, hwalk⟩ := h.insertedAt hgap (by omega) hat
  have hreach : ∀ r path q, root r → path.length ≤ 3 → walk pm'.entry r path = some q →
      ¬ (pm.usable pageSize ≤ q ∧ q < pm.usable pageSize + pageSize) :=
    fun r path q hr hlen hw => h.not_in_gap hgap ⟨r, path, hr, hlen, hwalk r path hr hlen ▸ hw⟩
  refine ⟨pm', hins, hgap, hat, hgrowth, hwalk,
    ⟨hgap.aligned h.ordered, h4096 ▸ hat.backed_new, ?_, ?_, ?_⟩⟩
  · rintro ⟨r, path, hr, hlen, hw⟩
    exact hreach r path _ hr hlen hw ⟨le_rfl, by omega⟩
  · intro _ x hlow hhigh
    rw [hat.byteAt h.ordered hgrowth.tables.ordered]
    exact not_backed_zero (hgap.not_backed hlow (by omega))
  · intro b hb h1 h2 r path q hr hlen hw h3 h4
    have hnew : b = fresh (pm.usable pageSize) pageSize :=
      block_unique hgrowth.tables.ordered hb (hat.mem_iff.mpr (.inl rfl)) ⟨h1, h2⟩
        ⟨le_rfl, by simp only [Block.limit, fresh]; omega⟩
    subst hnew
    exact absurd ⟨h3, h4⟩ (hreach r path q hr hlen hw)

/-- What one use of `ensureTable` or of a leaf entry does to the reached pages: the only new one
is `p`. -/
def AddsOnly (root : ℕ → Prop) (pm pm' : PhysicalMemory) (r₀ : ℕ) (path₀ : List ℕ) (p : ℕ) : Prop :=
  ∀ r path q, root r → path.length ≤ 3 → walk pm'.entry r path = some q →
    walk pm.entry r path = some q ∨ (r = r₀ ∧ path = path₀ ∧ q = p)

/-- Filling an entry is a growth when the page is not yet mapped anywhere. -/
lemma PageTables.growth_fill (h : pm.PageTables root) {r₀ q₀ i₀ p : ℕ} {pre : List ℕ} {mods : ℕ}
    (hr₀ : root r₀) (hpre : pre.length < 3) (hq₀ : walk pm.entry r₀ pre = some q₀)
    (hi₀ : i₀ < 512) (hnone : pm.entry q₀ i₀ = none) (hp : Fillable pm root r₀ pre p)
    (hmods : mods < 2 ^ 10) (hodd : mods % 2 = 1)
    (hpm' : (pm.writeValue 8 (entryAddr q₀ i₀) (setPte p mods)).2 = pm') :
    pm'.PageTables root ∧ SameFrames pm pm' ∧ AddsOnly root pm pm' r₀ (pre ++ [i₀]) p ∧
      walk pm'.entry r₀ (pre ++ [i₀]) = some p ∧
      (∀ r path q, root r → path.length ≤ 3 → walk pm.entry r path = some q →
        walk pm'.entry r path = some q) ∧
      ∀ x, ¬ (q₀ ≤ x ∧ x < q₀ + 4096) → pm'.byteAt x = pm.byteAt x := by
  obtain ⟨htables, hwalk⟩ := h.fill hr₀ hpre hq₀ hi₀ hnone hp hmods hodd
  have hlen₀ : (pre ++ [i₀]).length ≤ 3 := by simp; omega
  have hold : walk pm.entry r₀ (pre ++ [i₀]) = none := by simp [walk_snoc, hq₀, hnone]
  have hback₀ := (h.table_page ⟨r₀, pre, hr₀, hpre, hq₀⟩).2
  subst hpm'
  refine ⟨htables, writeData_sameFrames .., ?_, ?_, ?_, ?_⟩
  · intro r path q hr hlen hw
    rcases hwalk r path hr hlen with ⟨rfl, rfl, hwp⟩ | ⟨-, hwp⟩
    · exact .inr ⟨rfl, rfl, Option.some.inj (hw.symm.trans hwp)⟩
    · exact .inl (hwp.symm.trans hw)
  · rcases hwalk r₀ (pre ++ [i₀]) hr₀ hlen₀ with ⟨-, -, hwp⟩ | ⟨hne, -⟩
    · exact hwp
    · exact absurd ⟨rfl, rfl⟩ hne
  · intro r path q hr hlen hw
    rcases hwalk r path hr hlen with ⟨rfl, rfl, -⟩ | ⟨-, hwp⟩
    · rw [hold] at hw
      exact absurd hw (by simp)
    · exact hwp.trans hw
  · intro x hx
    rw [writeEntry_bytes h.ordered hback₀ hi₀, if_neg (by omega)]

/-- Making sure of the table behind entry `i` of `q` leaves every translation as it is and reaches
only pages that are new. -/
structure TableStep (root : ℕ → Prop) (pm : PhysicalMemory) (r : ℕ) (pre : List ℕ) (q i : ℕ)
    (ok : Bool) (pm' : PhysicalMemory) : Prop where
  growth : Growth root pm pm'
  translation : ∀ r' path, root r' → path.length = 3 →
    walk pm'.entry r' path = walk pm.entry r' path
  reached : ∀ q', IsReached pm'.entry 3 root q' →
    IsReached pm.entry 3 root q' ∨ ¬ pm.Backed q' 1
  found : ok = true → walk pm'.entry r (pre ++ [i]) = some (pm'.nextTable q i)

/-- An entry that is already valid needs no step. -/
lemma TableStep.of_valid (h : pm.PageTables root) {r q i : ℕ} {pre : List ℕ}
    (hq : walk pm.entry r pre = some q) (hsome : (walk pm.entry r (pre ++ [i])).isSome = true) :
    TableStep root pm r pre q i true pm := by
  obtain ⟨q', hq'⟩ := Option.isSome_iff_exists.mp hsome
  refine ⟨.refl h, fun _ _ _ _ => rfl, fun _ => .inl, fun _ => ?_⟩
  have hsnoc := hq'
  rw [walk_snoc, hq] at hsnoc
  rw [hq', (entry_eq_some hsnoc).2.1]

/-- A new page has become the table behind entry `i` of the table on the path `pre`. -/
structure TableMade (root : ℕ → Prop) (pm : PhysicalMemory) (r : ℕ) (pre : List ℕ) (i : ℕ)
    (pm' : PhysicalMemory) : Prop where
  usable : pm.usable pageSize ≠ 0
  gap : pm.Gap (pm.usable pageSize) pageSize
  inserted : ∃ pm₁, pm.InsertedAt (fresh (pm.usable pageSize) pageSize) pm₁ ∧ SameFrames pm₁ pm'
  growth : Growth root pm pm'
  adds : AddsOnly root pm pm' r (pre ++ [i]) (pm.usable pageSize)
  here : walk pm'.entry r (pre ++ [i]) = some (pm.usable pageSize)

lemma TableMade.not_backed {r i : ℕ} {pre : List ℕ} (t : TableMade root pm r pre i pm') :
    ¬ pm.Backed (pm.usable pageSize) 1 := by
  have h4096 := pageSize_eq
  exact t.gap.not_backed le_rfl (by omega)

/-- Where no entry leads to it, a new table makes its own path the only new one. -/
lemma TableMade.walk_none_iff {r i : ℕ} {pre path : List ℕ} (t : TableMade root pm r pre i pm') (hr : root r)
    (hlen : path.length ≤ 3) : walk pm'.entry r path = none ↔
      path ≠ pre ++ [i] ∧ walk pm.entry r path = none := by
  constructor
  · intro hnone
    refine ⟨?_, ?_⟩
    · rintro rfl
      rw [t.here] at hnone
      cases hnone
    · rw [Option.eq_none_iff_forall_not_mem]
      intro q hq
      rw [t.growth.walks r path q hr hlen hq] at hnone
      cases hnone
  · rintro ⟨hne, hnone⟩
    rw [Option.eq_none_iff_forall_not_mem]
    intro q hq
    rcases t.adds r path q hr hlen hq with hold | ⟨-, heq, -⟩
    · rw [hnone] at hold
      cases hold
    · exact hne heq

/-- What `ensureTable` does: nothing at a valid entry and when no page is left, and otherwise it makes
a table. -/
theorem ensureTable_cases (h : pm.PageTables root) {r q i : ℕ} {pre : List ℕ} (hr : root r)
    (hpre : pre.length < 2) (hq : walk pm.entry r pre = some q) (hi : i < 512) :
    (∃ q', walk pm.entry r (pre ++ [i]) = some q' ∧ pm.ensureTable q i = .ok (true, pm)) ∨
    walk pm.entry r (pre ++ [i]) = none ∧
      ((pm.usable pageSize = 0 ∧ pm.ensureTable q i = .ok (false, pm)) ∨
      ∃ pm', pm.ensureTable q i = .ok (true, pm') ∧ TableMade root pm r pre i pm') := by
  have htable : IsTable pm.entry 3 root q := ⟨r, pre, hr, by omega, hq⟩
  have hvalid := h.valid_iff htable hi
  have hwalk₀ : walk pm.entry r (pre ++ [i]) = pm.entry q i := by
    rw [walk_snoc, hq, Option.bind_some]
  rw [hwalk₀]
  cases hentry : pm.entry q i with
  | some q' =>
    have hv : ¬ pm.pte q i &&& V = 0 := by
      rw [hvalid, hentry]
      exact Option.some_ne_none q'
    exact .inl ⟨q', rfl, by simp [ensureTable, hv]⟩
  | none =>
    have hv := hvalid.mpr hentry
    refine .inr ⟨rfl, ?_⟩
    by_cases hp : pm.usable pageSize = 0
    · exact .inl ⟨hp, by simp [ensureTable, hv, hp]⟩
    right
    obtain ⟨pm₁, hins, hgap, hat, hgrowth, hwalk, hfill⟩ := newTable h hp r pre
    have hq₁ : walk pm₁.entry r pre = some q := (hwalk r pre hr (by omega)).trans hq
    have hnone₁ : pm₁.entry q i = none := by
      have hsnoc := hwalk r (pre ++ [i]) hr (by simp; omega)
      rw [walk_snoc, hq₁, hwalk₀] at hsnoc
      exact hsnoc.trans hentry
    obtain ⟨pm', hpm'⟩ : ∃ pm', (pm₁.writeValue 8 (entryAddr q i) (setPte (pm.usable pageSize) V)).2 = pm' :=
      ⟨_, rfl⟩
    obtain ⟨htables, hframes, hadds, hhere, hmono, hbytes⟩ :=
      hgrowth.tables.growth_fill hr (by omega) hq₁ hi hnone₁ hfill (show V < 2 ^ 10 by norm_num [V])
        rfl hpm'
    have hadds' : AddsOnly root pm pm' r (pre ++ [i]) (pm.usable pageSize) := by
      intro r' path q' hr' hlen hw
      rw [← hwalk r' path hr' hlen]
      exact hadds r' path q' hr' hlen hw
    refine ⟨pm', by simp only [ensureTable, hv, if_true, hp, if_false, hins, hpm'],
      ⟨hp, hgap, ⟨pm₁, hat, hframes⟩, ⟨htables, ?_, ?_, ?_, ?_, ?_⟩, hadds', hhere⟩⟩
    · exact hframes.maxRange.trans hgrowth.maxRange
    · intro b hb
      obtain ⟨b', hb', e⟩ := hgrowth.frames b hb
      obtain ⟨b'', hb'', e'⟩ := hframes.kept hb'
      exact ⟨b'', hb'', e'.trans e⟩
    · intro r' path q' hr' hlen hw
      exact hmono r' path q' hr' hlen ((hwalk r' path hr' hlen).trans hw)
    · rintro q' ⟨r', path, hr', hlen, hw⟩
      rcases hadds' r' path q' hr' (Nat.le_of_lt hlen) hw with hw | ⟨-, -, rfl⟩
      · exact .inl ⟨r', path, hr', hlen, hw⟩
      · have h4096 := pageSize_eq
        exact .inr (hgap.not_backed le_rfl (by omega))
    · intro x hx hout
      rw [hbytes x (hout q htable), hgrowth.bytes x hx hout]

theorem ensureTable_spec (h : pm.PageTables root) {r q i : ℕ} {pre : List ℕ} (hr : root r)
    (hpre : pre.length < 2) (hq : walk pm.entry r pre = some q) (hi : i < 512) :
    ∃ ok pm', pm.ensureTable q i = .ok (ok, pm') ∧ TableStep root pm r pre q i ok pm' := by
  rcases ensureTable_cases h hr hpre hq hi with
    ⟨q', hq', heq⟩ | ⟨-, ⟨-, heq⟩ | ⟨pm', heq, hmade⟩⟩
  · exact ⟨true, pm, heq, .of_valid h hq (by rw [hq']; rfl)⟩
  · exact ⟨false, pm, heq, .refl h, fun _ _ _ _ => rfl, fun _ => .inl, by simp⟩
  · refine ⟨true, pm', heq, hmade.growth, ?_, ?_, ?_⟩
    · intro r' path hr' hlen
      apply Option.ext
      intro q'
      refine ⟨fun hw => ?_, hmade.growth.walks r' path q' hr' hlen.le⟩
      refine (hmade.adds r' path q' hr' hlen.le hw).resolve_right ?_
      rintro ⟨-, rfl, -⟩
      rw [List.length_append, List.length_singleton] at hlen
      omega
    · rintro q' ⟨r', path, hr', hlen, hw⟩
      rcases hmade.adds r' path q' hr' hlen hw with hw | ⟨-, -, rfl⟩
      · exact .inl ⟨r', path, hr', hlen, hw⟩
      · exact .inr hmade.not_backed
    · intro _
      have hsnoc := hmade.here
      rw [walk_snoc, hmade.growth.walks r pre q hr (by omega) hq] at hsnoc
      rw [hmade.here, (entry_eq_some hsnoc).2.1]

/-- A level of the loop body, when a cached index stands for a valid entry. -/
lemma allocateLevel_spec (h : pm.PageTables root) {r q i cached : ℕ} {pre : List ℕ} (hr : root r)
    (hpre : pre.length < 2) (hq : walk pm.entry r pre = some q) (hi : i < 512)
    (hcached : cached = i → (walk pm.entry r (pre ++ [i])).isSome = true) :
    ∃ ok pm', pm.allocateLevel q i cached = .ok (ok, pm') ∧
      TableStep root pm r pre q i ok pm' := by
  unfold allocateLevel
  split_ifs with hne
  · exact ensureTable_spec h hr hpre hq hi
  · rw [not_not] at hne
    exact ⟨true, pm, rfl, .of_valid h hq (hcached hne.symm)⟩

/-- The block that an allocation inserted; only the root it was allocated for maps its pages. -/
structure Region (root : ℕ → Prop) (pm : PhysicalMemory) (r p size : ℕ) : Prop where
  block : ∃ b ∈ pm.blocks, b.pages.isSome = true ∧ b.addr = p ∧ b.size = size
  owner : ∀ r' path q, root r' → path.length ≤ 3 → walk pm.entry r' path = some q →
    p ≤ q → q < p + size → r' = r ∧ path.length = 3

namespace Region
variable {r p size : ℕ}

lemma backed (hreg : Region root pm r p size) : pm.Backed p size := by
  obtain ⟨b, hb, hsome, rfl, rfl⟩ := hreg.block
  exact ⟨b, hb, hsome, le_rfl, le_rfl⟩

/-- The region stays one when all that is reached anew lies outside it or belongs to its root. -/
lemma of_growth (hreg : Region root pm r p size) (g : Growth root pm pm')
    (hnew : ∀ r' path q, root r' → path.length ≤ 3 → walk pm'.entry r' path = some q →
      IsReached pm.entry 3 root q ∨ ¬ pm.Backed q 1 ∨ (r' = r ∧ path.length = 3)) :
    Region root pm' r p size := by
  refine ⟨?_, ?_⟩
  · obtain ⟨b, hb, hsome, h1, h2⟩ := hreg.block
    obtain ⟨b', hb', hframe⟩ := g.frames b hb
    obtain ⟨e1, e2, e3⟩ := Block.frame_eq_iff.mp hframe
    exact ⟨b', hb', e3 ▸ hsome, e1.trans h1, e2.trans h2⟩
  · intro r' path q hr' hlen hw hlow hhigh
    rcases hnew r' path q hr' hlen hw with ⟨r'', path'', hr'', hlen'', hw''⟩ | hnot | hown
    · obtain ⟨rfl, rfl⟩ := g.tables.forest r' r'' path path'' q hr' hr'' hlen hlen'' hw
        (g.walks r'' path'' q hr'' hlen'' hw'')
      exact hreg.owner r' path q hr' hlen hw'' hlow hhigh
    · exact absurd (hreg.backed.mono hlow (by omega)) hnot
    · exact hown

/-- A page of the region that is not mapped yet can be mapped. -/
lemma fillable (h : pm.PageTables root) (hreg : Region root pm r p size) {pa : ℕ}
    (hdvd : 4096 ∣ pa) (hlow : p ≤ pa) (hhigh : pa + 4096 ≤ p + size)
    (hfresh : ¬ IsReached pm.entry 3 root pa) {pre : List ℕ} (hpre : pre.length = 2) :
    PageTables.Fillable pm root r pre pa := by
  refine ⟨hdvd, hreg.backed.mono hlow hhigh, hfresh, fun hlt => by omega, ?_⟩
  intro b hb h1 h2 r' path q hr' hlen hw h3 h4
  obtain ⟨c, hc, -, rfl, rfl⟩ := hreg.block
  obtain rfl : b = c :=
    block_unique h.ordered hb hc ⟨h1, h2⟩ ⟨hlow, by simp only [Block.limit]; omega⟩
  obtain ⟨e, hl⟩ := hreg.owner r' path q hr' hlen hw h3 h4
  exact ⟨e, hl, hpre⟩

end Region

/-- Mapping one page: a growth that adds at most the translation of `va` to `pa`. -/
structure PageStep (root : ℕ → Prop) (pm : PhysicalMemory) (r va pa : ℕ) (ok : Bool)
    (pm' : PhysicalMemory) : Prop where
  growth : Growth root pm pm'
  adds : ∀ r' path q, root r' → path.length = 3 → walk pm'.entry r' path = some q →
    walk pm.entry r' path = some q ∨ (r' = r ∧ path = vaPath va ∧ q = pa)
  reached : ∀ r' path q, root r' → path.length ≤ 3 → walk pm'.entry r' path = some q →
    IsReached pm.entry 3 root q ∨ ¬ pm.Backed q 1 ∨ (r' = r ∧ path.length = 3 ∧ q = pa)
  mapped : ok = true → (walk pm'.entry r (vaPath va)).isSome = true

lemma PageStep.of_tableStep (h : pm.PageTables root) {r va pa q i : ℕ} {pre : List ℕ} {ok : Bool}
    (g : Growth root pm pm') (s : TableStep root pm' r pre q i ok pm'')
    (htrans : ∀ r' path, root r' → path.length = 3 →
      walk pm'.entry r' path = walk pm.entry r' path)
    (hreach : ∀ q', IsReached pm'.entry 3 root q' →
      IsReached pm.entry 3 root q' ∨ ¬ pm.Backed q' 1) :
    PageStep root pm r va pa false pm'' := by
  refine ⟨g.trans h s.growth, ?_, ?_, by simp⟩
  · intro r' path q' hr' hlen hw
    rw [s.translation r' path hr' hlen, htrans r' path hr' hlen] at hw
    exact .inl hw
  · intro r' path q' hr' hlen hw
    cases s.reached q' ⟨r', path, hr', hlen, hw⟩ with
    | inl hq =>
      exact (hreach q' hq).imp id .inl
    | inr hnot =>
      exact .inr (.inl fun hb => hnot (g.backed hb))

/-- Level 2: a leaf entry that is not valid gets the page. -/
lemma mapLeaf_spec (h : pm.PageTables root) {r q i pa : ℕ} {pre : List ℕ} (hr : root r)
    (hpre : pre.length = 2) (hq : walk pm.entry r pre = some q) (hi : i < 512)
    (hfill : PageTables.Fillable pm root r pre pa) :
    Growth root pm (pm.mapLeaf q i pa) ∧ AddsOnly root pm (pm.mapLeaf q i pa) r (pre ++ [i]) pa ∧
      (walk (pm.mapLeaf q i pa).entry r (pre ++ [i])).isSome = true := by
  have htable : IsTable pm.entry 3 root q := ⟨r, pre, hr, by omega, hq⟩
  by_cases hnone : pm.entry q i = none
  · have hv := (h.valid_iff htable hi).mpr hnone
    have heq : (pm.writeValue 8 (entryAddr q i) (setPte pa (R ||| W ||| X ||| V))).2 =
        pm.mapLeaf q i pa := by simp [mapLeaf, hv]
    obtain ⟨htables, hframes, hadds, hhere, hmono, hbytes⟩ :=
      h.growth_fill hr (by omega) hq hi hnone hfill (by decide) (by decide) heq
    refine ⟨⟨htables, hframes.maxRange, fun b => hframes.kept, hmono, ?_,
      fun x _ hout => hbytes x (hout q htable)⟩, hadds, by simp [hhere]⟩
    rintro q' ⟨r', path, hr', hlen, hw⟩
    rcases hadds r' path q' hr' (Nat.le_of_lt hlen) hw with hw | ⟨-, rfl, -⟩
    · exact .inl ⟨r', path, hr', hlen, hw⟩
    · simp only [List.length_append, List.length_singleton] at hlen
      omega
  · have hv : ¬ pm.pte q i &&& V = 0 := fun hv => hnone ((h.valid_iff htable hi).mp hv)
    have heq : pm.mapLeaf q i pa = pm := by simp [mapLeaf, hv]
    rw [heq]
    refine ⟨.refl h, fun _ _ _ _ _ hw => .inl hw, ?_⟩
    rw [walk_snoc, hq]
    exact Option.ne_none_iff_isSome.mp hnone

/-- The cached indices stand for valid entries on the way to `va`, and the leaf index is new. -/
structure CacheOk (pm : PhysicalMemory) (r va : ℕ) (idx : PtIdx) : Prop where
  level0 : idx.level0 = vaExtract va 0 → (walk pm.entry r [vaExtract va 0]).isSome = true
  level1 : idx.level1 = vaExtract va 1 →
    (walk pm.entry r [vaExtract va 0, vaExtract va 1]).isSome = true
  level2 : idx.level2 ≠ vaExtract va 2

/-- The loop body ends at the first table that cannot be made, or fills the leaf entry. -/
theorem allocatePage_cases (h : pm.PageTables root) {r va pa p size : ℕ} {idx : PtIdx}
    (hr : root r) (hreg : Region root pm r p size) (hcache : CacheOk pm r va idx)
    (hdvd : 4096 ∣ pa) (hlow : p ≤ pa) (hhigh : pa + 4096 ≤ p + size)
    (hfresh : ¬ IsReached pm.entry 3 root pa) :
    ∃ ok₀ pm₀, pm.allocateLevel r (vaExtract va 0) idx.level0 = .ok (ok₀, pm₀) ∧
      TableStep root pm r [] r (vaExtract va 0) ok₀ pm₀ ∧
      match ok₀ with
      | false => pm.allocatePage r va pa idx = .ok (false, idx, pm₀)
      | true => ∃ q₀ ok₁ pm₁, walk pm₀.entry r [vaExtract va 0] = some q₀ ∧
        pm₀.allocateLevel q₀ (vaExtract va 1) idx.level1 = .ok (ok₁, pm₁) ∧
        TableStep root pm₀ r [vaExtract va 0] q₀ (vaExtract va 1) ok₁ pm₁ ∧
        match ok₁ with
        | false => pm.allocatePage r va pa idx = .ok (false, idx, pm₁)
        | true => ∃ q₁, walk pm₁.entry r [vaExtract va 0, vaExtract va 1] = some q₁ ∧
          PageTables.Fillable pm₁ root r [vaExtract va 0, vaExtract va 1] pa ∧
          (∀ q, IsReached pm₁.entry 3 root q → IsReached pm.entry 3 root q ∨ ¬ pm.Backed q 1) ∧
          pm.allocatePage r va pa idx = .ok (true,
            ⟨vaExtract va 0, vaExtract va 1, vaExtract va 2⟩, pm₁.mapLeaf q₁ (vaExtract va 2) pa) := by
  have hback : pm.Backed pa 4096 := hreg.backed.mono hlow hhigh
  obtain ⟨ok₀, pm₀, heq₀, s₀⟩ := allocateLevel_spec h hr (show [].length < 2 by simp) rfl
    (vaExtract_lt va 0) hcache.level0
  refine ⟨ok₀, pm₀, heq₀, s₀, ?_⟩
  cases ok₀ with
  | false => simp [allocatePage, heq₀]
  | true =>
    have hw₀ := s₀.found rfl
    have hcache₁ : idx.level1 = vaExtract va 1 →
        (walk pm₀.entry r ([vaExtract va 0] ++ [vaExtract va 1])).isSome = true := by
      intro hidx
      obtain ⟨q, hq⟩ := Option.isSome_iff_exists.mp (hcache.level1 hidx)
      simp only [List.cons_append, List.nil_append]
      rw [s₀.growth.walks r _ q hr (by simp) hq]
      rfl
    obtain ⟨ok₁, pm₁, heq₁, s₁⟩ := allocateLevel_spec s₀.growth.tables hr (by simp) hw₀
      (vaExtract_lt va 1) hcache₁
    refine ⟨_, ok₁, pm₁, hw₀, heq₁, s₁, ?_⟩
    cases ok₁ with
    | false => simp [allocatePage, heq₀, heq₁]
    | true =>
      have hw₁ := s₁.found rfl
      have g₁ := s₀.growth.trans h s₁.growth
      have hreach₁ : ∀ q, IsReached pm₁.entry 3 root q →
          IsReached pm.entry 3 root q ∨ ¬ pm.Backed q 1 := by
        intro q hq
        cases s₁.reached q hq with
        | inl hq =>
          exact s₀.reached q hq
        | inr hnot =>
          exact .inr fun hb => hnot (s₀.growth.backed hb)
      have hreg₁ : Region root pm₁ r p size := hreg.of_growth g₁ fun r' path q hr' hlen hw =>
        (hreach₁ q ⟨r', path, hr', hlen, hw⟩).imp id .inl
      have hfresh₁ : ¬ IsReached pm₁.entry 3 root pa := fun hq =>
        (hreach₁ pa hq).elim hfresh fun hnot => hnot (hback.mono le_rfl (by omega))
      refine ⟨_, hw₁, hreg₁.fillable g₁.tables hdvd hlow hhigh hfresh₁ (by simp), hreach₁, ?_⟩
      simp [allocatePage, heq₀, heq₁, Ne.symm hcache.level2]

theorem allocatePage_spec (h : pm.PageTables root) {r va pa p size : ℕ} {idx : PtIdx}
    (hr : root r) (hreg : Region root pm r p size) (hcache : CacheOk pm r va idx)
    (hdvd : 4096 ∣ pa) (hlow : p ≤ pa) (hhigh : pa + 4096 ≤ p + size)
    (hfresh : ¬ IsReached pm.entry 3 root pa) :
    ∃ ok idx' pm', pm.allocatePage r va pa idx = .ok (ok, idx', pm') ∧
      PageStep root pm r va pa ok pm' ∧
      (ok = true → idx' = ⟨vaExtract va 0, vaExtract va 1, vaExtract va 2⟩) := by
  obtain ⟨ok₀, pm₀, -, s₀, hcase₀⟩ := allocatePage_cases h hr hreg hcache hdvd hlow hhigh hfresh
  cases ok₀ with
  | false =>
    exact ⟨false, idx, pm₀, hcase₀, .of_tableStep h (.refl h) s₀ (fun _ _ _ _ => rfl) fun _ => .inl,
      by simp⟩
  | true =>
    obtain ⟨q₀, ok₁, pm₁, -, -, s₁, hcase₁⟩ := hcase₀
    cases ok₁ with
    | false =>
      exact ⟨false, idx, pm₁, hcase₁, .of_tableStep h s₀.growth s₁ s₀.translation s₀.reached, by simp⟩
    | true =>
      obtain ⟨q₁, hw₁, hfill, hreach₁, heq⟩ := hcase₁
      have g₁ := s₀.growth.trans h s₁.growth
      obtain ⟨g₂, hadds, hmapped⟩ := mapLeaf_spec g₁.tables hr (by simp) hw₁ (vaExtract_lt va 2) hfill
      refine ⟨true, _, _, heq, ⟨g₁.trans h g₂, ?_, ?_, fun _ => hmapped⟩, fun _ => rfl⟩
      · intro r' path q hr' hlen hw
        rcases hadds r' path q hr' (by omega) hw with hw | ⟨rfl, rfl, rfl⟩
        · rw [s₁.translation r' path hr' hlen, s₀.translation r' path hr' hlen] at hw
          exact .inl hw
        · exact .inr ⟨rfl, rfl, rfl⟩
      · intro r' path q hr' hlen hw
        rcases hadds r' path q hr' hlen hw with hw | ⟨rfl, rfl, rfl⟩
        · exact (hreach₁ q ⟨r', path, hr', hlen, hw⟩).imp id .inl
        · exact .inr (.inr ⟨rfl, rfl, rfl⟩)

end PhysicalMemory
end VentusDriver
