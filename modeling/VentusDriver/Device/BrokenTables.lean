import VentusDriver.Device.AllocateSucceeds
import VentusDriver.Device.Insertion
import VentusDriver.Device.MemoryRules

/-! Allocation in a memory whose page tables may be broken. Whatever the tables hold, each step of the
loop fills one entry that has no valid bit, and an entry without storage loses what is written to it.
This is enough to say when an allocation gives a page, and which address a new region has afterwards. -/
namespace VentusDriver
open Foundation Sv39

namespace PhysicalMemory

/-- The addresses that an entry can lead to. -/
structure IsPage (q : ℕ) : Prop where
  dvd : 4096 ∣ q
  lt : q < 2 ^ 56

/-- The entry has no valid bit. -/
def Vacant (pm : PhysicalMemory) (q i : ℕ) : Prop := pm.pte q i &&& V = 0

instance (pm : PhysicalMemory) (q i : ℕ) : Decidable (pm.Vacant q i) := inferInstanceAs (Decidable (_ = _))

/-- The entry has a valid bit and leads to `t`. -/
structure Points (pm : PhysicalMemory) (q i t : ℕ) : Prop where
  valid : ¬ pm.Vacant q i
  next : pm.nextTable q i = t

variable {pm pm' pm'' : PhysicalMemory} {q i t p size : ℕ}

/-! ### Entries with and without storage -/

lemma isPage_nextTable (pm : PhysicalMemory) (q i : ℕ) : IsPage (pm.nextTable q i) := by
  rw [nextTable, pte2pa_eq]
  exact ⟨Nat.dvd_mul_left .., by omega⟩

lemma isPage_zero : IsPage 0 := ⟨by norm_num, by norm_num⟩

lemma Gap.isPage (hgap : pm.Gap t size) (h : pm.Ordered) (hpos : 0 < size) : IsPage t := by
  have hrange := h.range_lt
  have hfits := hgap.fits
  exact ⟨hgap.aligned h, by omega⟩

lemma Backed.ge (h : pm.Ordered) (hb : pm.Backed q 4096) : 0x20000000 ≤ q := by
  obtain ⟨b, hmem, hsome, hlow, -⟩ := hb
  exact (h.inserted_of_backed hmem hsome).lower.trans hlow

/-- No byte of a page without storage is in a block. -/
lemma not_backed_page (h : pm.Ordered) (hq : IsPage q) (hb : ¬ pm.Backed q 4096) {x len : ℕ} (hlen : 0 < len)
    (hlow : q ≤ x) (hhigh : x + len ≤ q + 4096) : ¬ pm.Backed x len := by
  intro hx
  exact hb ((hx.mono le_rfl (show x + 1 ≤ x + len by omega)).page h hq.dvd hlow (by omega))

lemma pte_not_backed (h : pm.Ordered) (hq : IsPage q) (hi : i < 512) (hb : ¬ pm.Backed q 4096) :
    pm.pte q i = 0 := by
  have hlt := hq.lt
  have hnot : ¬ pm.Backed (q + i * 8) 8 := not_backed_page h hq hb (by norm_num) (by omega) (by omega)
  rw [pte, entryAddr_eq (by omega) hi, readValue, readData_not_backed h (by omega) hnot]
  rfl

/-- An entry is made of the bytes at its place, with or without storage. -/
lemma pte_bytes (h : pm.Ordered) (hq : IsPage q) (hi : i < 512) :
    pm.pte q i = littleEndian 8 fun j => pm.byteAt (q + i * 8 + j) := by
  by_cases hb : pm.Backed q 4096
  · exact pte_eq h hb hi
  · have hzero : ∀ j < 8, pm.byteAt (q + i * 8 + j) = 0 := by
      intro j hj
      exact not_backed_zero (not_backed_page h hq hb (by norm_num) (by omega) (by omega))
    rw [pte_not_backed h hq hi hb, littleEndian_congr hzero, littleEndian_zeros]

lemma vacant_of_not_backed (h : pm.Ordered) (hq : IsPage q) (hi : i < 512) (hb : ¬ pm.Backed q 4096) :
    pm.Vacant q i := by
  rw [Vacant, pte_not_backed h hq hi hb]
  rfl

lemma nextTable_not_backed (h : pm.Ordered) (hq : IsPage q) (hi : i < 512) (hb : ¬ pm.Backed q 4096) :
    pm.nextTable q i = 0 := by
  rw [nextTable, pte_not_backed h hq hi hb, pte2pa_zero]

lemma Points.ne_zero (hpoints : pm.Points q i t) (h : pm.Ordered) (hq : IsPage q) (hi : i < 512) : q ≠ 0 := by
  have hb : pm.Backed q 4096 := by
    by_contra hnot
    exact hpoints.valid (vacant_of_not_backed h hq hi hnot)
  have := hb.ge h
  omega

/-- A new block is zero, so no entry changes. -/
lemma InsertedAt.pte (h : pm.Ordered) (hord : pm'.Ordered) (hins : pm.InsertedAt (fresh p size) pm')
    (hq : IsPage q) (hi : i < 512) : pm'.pte q i = pm.pte q i := by
  rw [pte_bytes h hq hi, pte_bytes hord hq hi]
  exact littleEndian_congr fun j _ => hins.byteAt h hord _

lemma InsertedAt.stored (hins : pm.InsertedAt (fresh p size) pm') (hb : pm'.Backed q 4096) :
    pm.Backed q 4096 ∨ (p ≤ q ∧ q + 4096 ≤ p + size) := by
  obtain ⟨b, hmem, hsome, hlow, hhigh⟩ := hb
  cases hins.mem_iff.mp hmem with
  | inl heq =>
    subst heq
    exact .inr ⟨hlow, hhigh⟩
  | inr hmem => exact .inl ⟨b, hmem, hsome, hlow, hhigh⟩

lemma writeData_not_backed (h : pm.Ordered) {addr len : ℕ} (hlt : addr + len < 2 ^ 64)
    (hb : ¬ pm.Backed addr len) (data : ℕ → UInt8) : (pm.writeData addr len data).2 = pm := by
  have hempty : ∀ b ∈ pm.blocks, spans b addr len → b.empty = true := by
    intro b hmem hspan
    obtain ⟨hlow, hhigh⟩ := (spans_iff h hmem hlt).mp hspan
    by_contra hsome
    apply hb
    refine ⟨b, hmem, ?_, hlow, hhigh⟩
    cases hpages : b.pages with
    | none => simp [Block.empty, hpages] at hsome
    | some pages => rfl
  simp only [writeData, writeBlocks_of_empty hempty]

/-! ### Filling one entry -/

/-- An entry without a valid bit was made to lead to `t`, and nothing else happened apart from a new page
at `t`. Without storage the entry stays 0. -/
structure EntryMade (pm : PhysicalMemory) (q i t mods : ℕ) (pm' : PhysicalMemory) : Prop where
  ordered : pm'.Ordered
  cursor : pm'.CursorValid
  vacant : pm.Vacant q i
  page : IsPage t
  kept : ∀ x, pm.Backed x 4096 → pm'.Backed x 4096
  stored : ∀ x, pm'.Backed x 4096 → IsPage x → pm.Backed x 4096 ∨ (x = t ∧ pm.Gap t 4096)
  same : ∀ q' i', IsPage q' → i' < 512 → ¬ (q' = q ∧ i' = i) → pm'.pte q' i' = pm.pte q' i'
  filled : pm'.Backed q 4096 → pm'.pte q i = setPte t mods

namespace EntryMade
variable {mods : ℕ}

lemma nextTable (hmade : EntryMade pm q i t mods pm') (hmods : mods < 2 ^ 10) (hb : pm'.Backed q 4096) :
    pm'.nextTable q i = t := by
  rw [PhysicalMemory.nextTable, hmade.filled hb]
  exact pte2pa_setPte hmade.page.dvd hmade.page.lt hmods

lemma points (hmade : EntryMade pm q i t mods pm') (hmods : mods < 2 ^ 10) (hodd : mods % 2 = 1)
    (hb : pm'.Backed q 4096) : pm'.Points q i t := by
  refine ⟨?_, hmade.nextTable hmods hb⟩
  rw [Vacant, hmade.filled hb, setPte_and_V hmods, hodd]
  norm_num

/-- An entry with a valid bit is not written. -/
lemma points_kept (hmade : EntryMade pm q i t mods pm') {q' i' t' : ℕ} (hq' : IsPage q') (hi' : i' < 512)
    (hpoints : pm.Points q' i' t') : pm'.Points q' i' t' := by
  have hsame : pm'.pte q' i' = pm.pte q' i' := by
    apply hmade.same q' i' hq' hi'
    rintro ⟨rfl, rfl⟩
    exact hpoints.valid hmade.vacant
  obtain ⟨hvalid, hnext⟩ := hpoints
  constructor
  · rwa [Vacant, hsame]
  · rwa [PhysicalMemory.nextTable, hsame]

end EntryMade

lemma writeEntry_made (h : pm.Ordered) (hcursor : pm.CursorValid) (hq : IsPage q) (hi : i < 512) (ht : IsPage t)
    {mods : ℕ} (hmods : mods < 2 ^ 10) (hvacant : pm.Vacant q i) :
    EntryMade pm q i t mods (pm.writeValue 8 (entryAddr q i) (setPte t mods)).2 := by
  have hframes : SameFrames pm (pm.writeValue 8 (entryAddr q i) (setPte t mods)).2 := writeData_sameFrames ..
  have hlt := hq.lt
  by_cases hb : pm.Backed q 4096
  · have hpte : ∀ q' i', IsPage q' → i' < 512 →
        (pm.writeValue 8 (entryAddr q i) (setPte t mods)).2.pte q' i' =
          if q' = q ∧ i' = i then setPte t mods else pm.pte q' i' := by
      intro q' i' hq' hi'
      by_cases hb' : pm.Backed q' 4096
      · exact writeEntry_pte h hq.dvd hb hi (setPte_lt hmods) hq'.dvd hb' hi'
      · have hne : q' ≠ q := fun heq => hb' (heq ▸ hb)
        rw [pte_not_backed h hq' hi' hb', if_neg fun heq => hne heq.1]
        exact pte_not_backed (hframes.ordered h) hq' hi' fun hback => hb' (hframes.symm.backed hback)
    refine ⟨hframes.ordered h, hframes.cursorValid hcursor, hvacant, ht, fun x => hframes.backed,
      fun x hx _ => .inl (hframes.symm.backed hx), fun q' i' hq' hi' hne => ?_, fun _ => ?_⟩
    · rw [hpte q' i' hq' hi', if_neg hne]
    · rw [hpte q i hq hi, if_pos ⟨rfl, rfl⟩]
  · have hnot : ¬ pm.Backed (q + i * 8) 8 := not_backed_page h hq hb (by norm_num) (by omega) (by omega)
    have hsame : (pm.writeValue 8 (entryAddr q i) (setPte t mods)).2 = pm := by
      rw [writeValue, entryAddr_eq (by omega) hi]
      exact writeData_not_backed h (by omega) hnot _
    rw [hsame]
    exact ⟨h, hcursor, hvacant, ht, fun _ hx => hx, fun _ hx _ => .inl hx, fun _ _ _ _ _ => rfl,
      fun hback => absurd hback hb⟩

/-- The three ends of a level. -/
lemma ensureTable_made (h : pm.Ordered) (hcursor : pm.CursorValid) (hq : IsPage q) (hi : i < 512) :
    pm.ensureTable q i = .ok (false, pm) ∨ (¬ pm.Vacant q i ∧ pm.ensureTable q i = .ok (true, pm)) ∨
      ∃ pm', pm.ensureTable q i = .ok (true, pm') ∧ EntryMade pm q i (pm.usable pageSize) V pm' ∧
        pm.Gap (pm.usable pageSize) 4096 ∧ pm'.Backed (pm.usable pageSize) 4096 := by
  by_cases hvacant : pm.Vacant q i
  · have hv : pm.pte q i &&& V = 0 := hvacant
    by_cases hp : pm.usable pageSize = 0
    · exact .inl (by simp [ensureTable, hv, hp])
    · have h4096 := pageSize_eq
      have hround : roundPages pageSize = pageSize := roundPages_of_dvd (by omega) (by omega)
      obtain ⟨hgap, pm₁, hins, hat⟩ := insert_usable h hcursor hround (by omega) (by omega) hp
      have hord := hat.ordered h hgap (by omega)
      have hvacant₁ : pm₁.Vacant q i := by
        rwa [Vacant, hat.pte h hord hq hi]
      have hwrite := writeEntry_made hord hat.cursorValid hq hi (hgap.isPage h (by omega))
        (show V < 2 ^ 10 by norm_num [V]) hvacant₁
      have hgap : pm.Gap (pm.usable pageSize) 4096 := hgap
      have hat : pm.InsertedAt (fresh (pm.usable pageSize) 4096) pm₁ := hat
      right
      right
      refine ⟨_, by simp only [ensureTable, hv, if_true, hp, if_false, hins], ?_, hgap,
        hwrite.kept _ hat.backed_new⟩
      refine ⟨hwrite.ordered, hwrite.cursor, hvacant, hwrite.page, fun x hx => hwrite.kept x (hat.backed hx),
        fun x hx hxp => ?_, fun q' i' hq' hi' hne => ?_, hwrite.filled⟩
      · -- the only new page is the table
        have hnew : pm₁.Backed x 4096 := by
          cases hwrite.stored x hx hxp with
          | inl hx => exact hx
          | inr hx => exact hx.1 ▸ hat.backed_new
        cases hat.stored hnew with
        | inl hx => exact .inl hx
        | inr hin => exact .inr ⟨by omega, hgap⟩
      · rw [hwrite.same q' i' hq' hi' hne, hat.pte h hord hq' hi']
  · right
    left
    refine ⟨hvacant, ?_⟩
    rw [ensureTable, if_neg (show ¬ pm.pte q i &&& V = 0 from hvacant)]

lemma mapLeaf_made (h : pm.Ordered) (hcursor : pm.CursorValid) (hq : IsPage q) (hi : i < 512) (ht : IsPage t) :
    (pm.Vacant q i ∧ pm.Backed q 4096 ∧ EntryMade pm q i t (R ||| W ||| X ||| V) (pm.mapLeaf q i t)) ∨
      (¬ (pm.Vacant q i ∧ pm.Backed q 4096) ∧ pm.mapLeaf q i t = pm) := by
  have hlt := hq.lt
  by_cases hvacant : pm.Vacant q i
  · have hleaf : pm.mapLeaf q i t = (pm.writeValue 8 (entryAddr q i) (setPte t (R ||| W ||| X ||| V))).2 := by
      rw [mapLeaf, if_pos (show pm.pte q i &&& V = 0 from hvacant)]
    by_cases hb : pm.Backed q 4096
    · left
      refine ⟨hvacant, hb, ?_⟩
      rw [hleaf]
      exact writeEntry_made h hcursor hq hi ht (by decide) hvacant
    · right
      have hnot : ¬ pm.Backed (q + i * 8) 8 := not_backed_page h hq hb (by norm_num) (by omega) (by omega)
      refine ⟨fun hboth => hb hboth.2, ?_⟩
      rw [hleaf, writeValue, entryAddr_eq (by omega) hi]
      exact writeData_not_backed h (by omega) hnot _
  · right
    refine ⟨fun hboth => hvacant hboth.1, ?_⟩
    rw [mapLeaf, if_neg (show ¬ pm.pte q i &&& V = 0 from hvacant)]

/-! ### The loop -/

/-- Entries were filled one after the other, each with a page of the data or a new page. -/
inductive Filling (data : ℕ → Prop) (pm : PhysicalMemory) : PhysicalMemory → Prop
  | refl : Filling data pm pm
  | made {pm₁ pm₂ : PhysicalMemory} {q i t mods : ℕ} (h : Filling data pm pm₁) (hq : IsPage q) (hi : i < 512)
      (hmods : mods < 2 ^ 10) (hmade : EntryMade pm₁ q i t mods pm₂)
      (ht : data t ∨ (pm₁.Gap t 4096 ∧ pm₂.Backed t 4096)) : Filling data pm pm₂

namespace Filling
variable {data : ℕ → Prop}

lemma trans (h : Filling data pm pm') (h' : Filling data pm' pm'') : Filling data pm pm'' := by
  induction h' with
  | refl => exact h
  | made _ hq hi hmods hmade ht ih => exact .made ih hq hi hmods hmade ht

lemma mono {data' : ℕ → Prop} (h : Filling data pm pm') (hsub : ∀ t, data t → data' t) :
    Filling data' pm pm' := by
  induction h with
  | refl => exact .refl
  | made _ hq hi hmods hmade ht ih => exact .made ih hq hi hmods hmade (ht.imp_left (hsub _))

lemma intact (h : Filling data pm pm') (hord : pm.Ordered) (hcursor : pm.CursorValid) :
    pm'.Ordered ∧ pm'.CursorValid := by
  cases h with
  | refl => exact ⟨hord, hcursor⟩
  | made _ _ _ _ hmade _ => exact ⟨hmade.ordered, hmade.cursor⟩

lemma points_kept (h : Filling data pm pm') (hq : IsPage q) (hi : i < 512) (hpoints : pm.Points q i t) :
    pm'.Points q i t := by
  induction h with
  | refl => exact hpoints
  | made _ _ _ _ hmade _ ih => exact hmade.points_kept hq hi ih

end Filling

/-- A level of the loop fills one entry at most, and never fails to return. -/
lemma allocateLevel_filling (h : pm.Ordered) (hcursor : pm.CursorValid) (hq : IsPage q) (hi : i < 512)
    (cached : ℕ) (data : ℕ → Prop) :
    ∃ ok pm', pm.allocateLevel q i cached = .ok (ok, pm') ∧ Filling data pm pm' := by
  unfold allocateLevel
  split_ifs with hne
  · rcases ensureTable_made h hcursor hq hi with heq | ⟨-, heq⟩ | ⟨pm', heq, hmade, hgap, hnew⟩
    · exact ⟨false, pm, heq, .refl⟩
    · exact ⟨true, pm, heq, .refl⟩
    · exact ⟨true, pm', heq, .made .refl hq hi (by norm_num [V]) hmade (.inr ⟨hgap, hnew⟩)⟩
  · exact ⟨true, pm, rfl, .refl⟩

lemma mapLeaf_filling (h : pm.Ordered) (hcursor : pm.CursorValid) (hq : IsPage q) (hi : i < 512) (ht : IsPage t)
    {data : ℕ → Prop} (hdata : data t) : Filling data pm (pm.mapLeaf q i t) := by
  rcases mapLeaf_made h hcursor hq hi ht with ⟨-, -, hmade⟩ | ⟨-, heq⟩
  · exact .made .refl hq hi (by decide) hmade (.inl hdata)
  · rw [heq]
    exact .refl

lemma allocatePage_filling (h : pm.Ordered) (hcursor : pm.CursorValid) {root : ℕ} (hroot : IsPage root)
    (va : ℕ) {pa : ℕ} (hpa : IsPage pa) (idx : PtIdx) (data : ℕ → Prop) (hdata : data pa) :
    ∃ ok idx' pm', pm.allocatePage root va pa idx = .ok (ok, idx', pm') ∧ Filling data pm pm' := by
  obtain ⟨ok₀, pm₀, heq₀, hfill₀⟩ :=
    allocateLevel_filling h hcursor hroot (vaExtract_lt va 0) idx.level0 data
  rw [allocatePage, heq₀]
  cases ok₀ with
  | false => exact ⟨false, idx, pm₀, rfl, hfill₀⟩
  | true =>
    obtain ⟨hord₀, hcursor₀⟩ := hfill₀.intact h hcursor
    have hpt1 := isPage_nextTable pm₀ root (vaExtract va 0)
    obtain ⟨ok₁, pm₁, heq₁, hfill₁⟩ :=
      allocateLevel_filling hord₀ hcursor₀ hpt1 (vaExtract_lt va 1) idx.level1 data
    simp only [heq₁]
    cases ok₁ with
    | false => exact ⟨false, idx, pm₁, rfl, hfill₀.trans hfill₁⟩
    | true =>
      obtain ⟨hord₁, hcursor₁⟩ := hfill₁.intact hord₀ hcursor₀
      refine ⟨true, _, _, rfl, (hfill₀.trans hfill₁).trans ?_⟩
      split_ifs
      · exact mapLeaf_filling hord₁ hcursor₁ (isPage_nextTable ..) (vaExtract_lt va 2) hpa hdata
      · exact .refl

/-- The loop fills entries with pages of its data and new pages, and never fails to return. -/
theorem allocatePages_filling (h : pm.Ordered) (hcursor : pm.CursorValid) {root : ℕ} (hroot : IsPage root)
    (v : ℕ) {p : ℕ} (n iter : ℕ) (data : ℕ → Prop) (hp : 4096 ∣ p) (hiter : 4096 ∣ iter)
    (hend : p + iter + n * 4096 ≤ 2 ^ 56) (hdata : ∀ k < n, data (p + iter + k * 4096)) (idx : PtIdx) :
    ∃ ok pm', allocatePages root v p n iter idx pm = .ok (ok, pm') ∧ Filling data pm pm' := by
  induction n generalizing pm iter idx with
  | zero => exact ⟨true, pm, rfl, .refl⟩
  | succ n ih =>
    have hpa : u64 (p + iter) = p + iter := u64_of_lt (by omega)
    have hpage : IsPage (p + iter) := ⟨Nat.dvd_add hp hiter, by omega⟩
    have hfirst : data (p + iter) := by simpa using hdata 0 (by omega)
    obtain ⟨ok₁, idx₁, pm₁, heq₁, hfill₁⟩ :=
      allocatePage_filling h hcursor hroot (u64 (v + iter)) hpage idx data hfirst
    rw [allocatePages, hpa, heq₁]
    cases ok₁ with
    | false => exact ⟨false, pm₁, rfl, hfill₁⟩
    | true =>
      obtain ⟨hord₁, hcursor₁⟩ := hfill₁.intact h hcursor
      have h4096 := pageSize_eq
      have hrest : ∀ k < n, data (p + (iter + pageSize) + k * 4096) := by
        intro k hk
        have hnext := hdata (k + 1) (by omega)
        rwa [show p + iter + (k + 1) * 4096 = p + (iter + pageSize) + k * 4096 by omega] at hnext
      obtain ⟨ok, pm', heq, hfill⟩ := ih hord₁ hcursor₁ (iter + pageSize) (by omega) (by omega) hrest idx₁
      exact ⟨ok, pm', heq, hfill₁.trans hfill⟩

/-! ### The first page -/

/-- The entries of the way to `va` have valid bits, and the last one leads to `p`. -/
def Leads (pm : PhysicalMemory) (root va p : ℕ) : Prop :=
  ∃ pt1 pt2, pm.Points root (vaExtract va 0) pt1 ∧ pm.Points pt1 (vaExtract va 1) pt2 ∧
    pm.Points pt2 (vaExtract va 2) p

/-- The leaf is vacant and has storage. -/
def RefillsLeaf (pm : PhysicalMemory) (pt2 va : ℕ) : Prop :=
  pm.Vacant pt2 (vaExtract va 2) ∧ pm.Backed pt2 4096

/-- Behind the root: a vacant entry has storage, or the new table lies on its page and the leaf is another
entry of it. -/
def RefillsBelow (pm : PhysicalMemory) (pt1 va : ℕ) : Prop :=
  if pm.Vacant pt1 (vaExtract va 1) then
    pm.Backed pt1 4096 ∨ (pm.usable pageSize = pt1 ∧ vaExtract va 1 ≠ vaExtract va 2)
  else pm.RefillsLeaf (pm.nextTable pt1 (vaExtract va 1)) va

/-- The first entry of the way without a valid bit has storage, or the new table lies on its page and not
all entries of the way from there on are the same one. -/
def Refills (pm : PhysicalMemory) (root va : ℕ) : Prop :=
  if pm.Vacant root (vaExtract va 0) then
    pm.Backed root 4096 ∨ (pm.usable pageSize = root ∧
      ¬ (vaExtract va 0 = vaExtract va 1 ∧ vaExtract va 1 = vaExtract va 2))
  else pm.RefillsBelow (pm.nextTable root (vaExtract va 0)) va

/-- The way depends on the entries of pages only. -/
lemma Leads.congr {root va : ℕ} (hroot : IsPage root) (hleads : pm.Leads root va p)
    (hpte : ∀ q i, IsPage q → i < 512 → pm'.pte q i = pm.pte q i) : pm'.Leads root va p := by
  have hpoints : ∀ {q i t}, IsPage q → i < 512 → pm.Points q i t → pm'.Points q i t := by
    intro q i t hq hi hpoints
    constructor
    · rw [Vacant, hpte q i hq hi]
      exact hpoints.valid
    · rw [nextTable, hpte q i hq hi]
      exact hpoints.next
  obtain ⟨pt1, pt2, h₀, h₁, h₂⟩ := hleads
  have hpt1 : IsPage pt1 := h₀.next ▸ isPage_nextTable ..
  have hpt2 : IsPage pt2 := h₁.next ▸ isPage_nextTable ..
  refine ⟨pt1, pt2, ?_, ?_, ?_⟩
  · exact hpoints hroot (vaExtract_lt va 0) h₀
  · exact hpoints hpt1 (vaExtract_lt va 1) h₁
  · exact hpoints hpt2 (vaExtract_lt va 2) h₂

lemma Filling.leads {data : ℕ → Prop} (h : Filling data pm pm') {root va : ℕ} (hroot : IsPage root)
    (hleads : pm.Leads root va p) : pm'.Leads root va p := by
  obtain ⟨pt1, pt2, h₀, h₁, h₂⟩ := hleads
  have hpt1 : IsPage pt1 := h₀.next ▸ isPage_nextTable ..
  have hpt2 : IsPage pt2 := h₁.next ▸ isPage_nextTable ..
  refine ⟨pt1, pt2, ?_, ?_, ?_⟩
  · exact h.points_kept hroot (vaExtract_lt va 0) h₀
  · exact h.points_kept hpt1 (vaExtract_lt va 1) h₁
  · exact h.points_kept hpt2 (vaExtract_lt va 2) h₂

/-- A table that was just made has no valid entry but the one that leads to it. -/
lemma EntryMade.vacant_new {mods : ℕ} (hmade : EntryMade pm q i t mods pm') (h : pm.Ordered)
    (hgap : pm.Gap t 4096) {j : ℕ} (hj : j < 512) (hne : ¬ (t = q ∧ j = i)) : pm'.Vacant t j := by
  have hnot : ¬ pm.Backed t 4096 := fun hb => hgap.not_backed le_rfl (by omega) (hb.mono le_rfl (by omega))
  rw [Vacant, hmade.same t j hmade.page hj hne]
  exact vacant_of_not_backed h hmade.page hj hnot

/-- The leaf of a way whose tables are found is filled when its entry is vacant and has storage. -/
lemma mapLeaf_leads (h : pm.Ordered) (hcursor : pm.CursorValid) {root va pt1 pt2 : ℕ} (hroot : IsPage root)
    (hp : IsPage p) (h₀ : pm.Points root (vaExtract va 0) pt1) (h₁ : pm.Points pt1 (vaExtract va 1) pt2)
    (hvacant : pm.Vacant pt2 (vaExtract va 2)) (hb : pm.Backed pt2 4096) :
    (pm.mapLeaf pt2 (vaExtract va 2) p).Leads root va p := by
  have hpt1 : IsPage pt1 := h₀.next ▸ isPage_nextTable ..
  have hpt2 : IsPage pt2 := h₁.next ▸ isPage_nextTable ..
  rcases mapLeaf_made h hcursor hpt2 (vaExtract_lt va 2) hp with ⟨-, -, hmade⟩ | ⟨hnot, -⟩
  · refine ⟨pt1, pt2, ?_, ?_, ?_⟩
    · exact hmade.points_kept hroot (vaExtract_lt va 0) h₀
    · exact hmade.points_kept hpt1 (vaExtract_lt va 1) h₁
    · exact hmade.points (by decide) (by decide) (hmade.kept _ hb)
  · exact absurd ⟨hvacant, hb⟩ hnot

/-- The first page behind an entry of the root that leads to a table. -/
lemma firstPage_below (h : pm.Ordered) (hcursor : pm.CursorValid) {root va pt1 : ℕ} (hroot : IsPage root)
    (hp : IsPage p) (h₀ : pm.Points root (vaExtract va 0) pt1)
    (heq : pm.ensureTable pt1 (vaExtract va 1) = .ok (true, pm')) :
    (pm.RefillsBelow pt1 va →
      (pm'.mapLeaf (pm'.nextTable pt1 (vaExtract va 1)) (vaExtract va 2) p).Leads root va p) ∧
    (¬ pm.RefillsBelow pt1 va →
      Filling (fun _ => False) pm (pm'.mapLeaf (pm'.nextTable pt1 (vaExtract va 1)) (vaExtract va 2) p)) := by
  have hpt1 : IsPage pt1 := h₀.next ▸ isPage_nextTable ..
  have hi₁ := vaExtract_lt va 1
  have hi₂ := vaExtract_lt va 2
  unfold RefillsBelow
  rcases ensureTable_made h hcursor hpt1 hi₁ with heq' | ⟨hvalid, heq'⟩ | ⟨pm₁, heq', hmade, hgap, hnew⟩
  · rw [heq] at heq'
    cases heq'
  · -- the table is there
    rw [heq] at heq'
    obtain rfl := (Prod.mk.inj (Except.ok.inj heq')).2
    rw [if_neg hvalid]
    constructor
    · rintro ⟨hvacant, hb⟩
      exact mapLeaf_leads h hcursor hroot hp h₀ ⟨hvalid, rfl⟩ hvacant hb
    · intro hnot
      rcases mapLeaf_made h hcursor (isPage_nextTable pm' pt1 _) hi₂ hp with ⟨hvacant, hb, -⟩ | ⟨-, hleaf⟩
      · exact absurd ⟨hvacant, hb⟩ hnot
      · rw [hleaf]
        exact .refl
  · rw [heq] at heq'
    obtain rfl := (Prod.mk.inj (Except.ok.inj heq')).2
    rw [if_pos hmade.vacant]
    have hsmall : V < 2 ^ 10 := by norm_num [V]
    have hfill : Filling (fun _ => False) pm pm' := .made .refl hpt1 hi₁ hsmall hmade (.inr ⟨hgap, hnew⟩)
    have h₀' := hmade.points_kept hroot (vaExtract_lt va 0) h₀
    have hself : pm.Backed pt1 4096 → pm.usable pageSize ≠ pt1 := fun hb heq =>
      hgap.not_backed le_rfl (by omega) ((heq ▸ hb).mono le_rfl (by omega))
    by_cases hb : pm'.Backed pt1 4096
    · have h₁ := hmade.points hsmall (by norm_num [V]) hb
      rw [h₁.next]
      constructor
      · intro hrefills
        apply mapLeaf_leads hmade.ordered hmade.cursor hroot hp h₀' h₁ ?_ hnew
        apply hmade.vacant_new h hgap hi₂
        rintro ⟨hpage, hsame⟩
        rcases hrefills with hback | ⟨-, hne⟩
        · exact hself hback hpage
        · exact hne hsame.symm
      · intro hnot
        -- the table is its own leaf
        have hloop : pm.usable pageSize = pt1 ∧ vaExtract va 1 = vaExtract va 2 := by
          rcases hmade.stored pt1 hb hpt1 with hback | ⟨hpage, -⟩
          · exact absurd (.inl hback) hnot
          · refine ⟨hpage.symm, ?_⟩
            by_contra hne
            exact hnot (.inr ⟨hpage.symm, hne⟩)
        have hvalid : ¬ pm'.Vacant (pm.usable pageSize) (vaExtract va 2) := by
          rw [hloop.1, ← hloop.2]
          exact h₁.valid
        rcases mapLeaf_made hmade.ordered hmade.cursor hmade.page hi₂ hp with ⟨hvacant, -⟩ | ⟨-, hleaf⟩
        · exact absurd hvacant hvalid
        · rwa [hleaf]
    · -- the way to the new table is lost
      have hzero := nextTable_not_backed hmade.ordered hpt1 hi₁ hb
      rw [hzero]
      constructor
      · rintro (hback | ⟨hpage, -⟩)
        · exact absurd (hmade.kept _ hback) hb
        · exact absurd (hpage ▸ hnew) hb
      · intro _
        rcases mapLeaf_made hmade.ordered hmade.cursor isPage_zero hi₂ hp with ⟨-, hlow, -⟩ | ⟨-, hleaf⟩
        · have := hlow.ge hmade.ordered
          omega
        · rwa [hleaf]

/-- Behind an entry that has lost its storage the first page is mapped nowhere. -/
lemma firstPage_lost (h : pm.Ordered) (hcursor : pm.CursorValid) {va : ℕ} (hp : IsPage p)
    (heq : pm.ensureTable 0 (vaExtract va 1) = .ok (true, pm')) :
    Filling (fun _ => False) pm (pm'.mapLeaf (pm'.nextTable 0 (vaExtract va 1)) (vaExtract va 2) p) := by
  have hfill : Filling (fun _ => False) pm pm' := by
    rcases ensureTable_made h hcursor isPage_zero (vaExtract_lt va 1) with
      heq' | ⟨-, heq'⟩ | ⟨pm₁, heq', hmade, hgap, hnew⟩
    · rw [heq] at heq'
      cases heq'
    · rw [heq] at heq'
      obtain rfl := (Prod.mk.inj (Except.ok.inj heq')).2
      exact .refl
    · rw [heq] at heq'
      obtain rfl := (Prod.mk.inj (Except.ok.inj heq')).2
      exact .made .refl isPage_zero (vaExtract_lt va 1) (by norm_num [V]) hmade (.inr ⟨hgap, hnew⟩)
  obtain ⟨hord', hcursor'⟩ := hfill.intact h hcursor
  rw [nextTable_zero hord' (vaExtract_lt va 1)]
  rcases mapLeaf_made hord' hcursor' isPage_zero (vaExtract_lt va 2) hp with ⟨-, hlow, -⟩ | ⟨-, hleaf⟩
  · have := hlow.ge hord'
    omega
  · rwa [hleaf]

/-- A new table behind the root takes the leaf unless the table lies on the page of the root and all three
entries are the same one. -/
lemma refillsBelow_new (h : pm.Ordered) {root va : ℕ} {mods : ℕ}
    (hmade : EntryMade pm root (vaExtract va 0) t mods pm') (hgap : pm.Gap t 4096) (hnew : pm'.Backed t 4096)
    (h₀ : pm'.Points root (vaExtract va 0) t) : pm'.RefillsBelow t va ↔
      ¬ (t = root ∧ vaExtract va 0 = vaExtract va 1 ∧ vaExtract va 1 = vaExtract va 2) := by
  unfold RefillsBelow
  by_cases hself : t = root ∧ vaExtract va 1 = vaExtract va 0
  · obtain ⟨rfl, hsame⟩ := hself
    rw [hsame, if_neg h₀.valid, h₀.next, RefillsLeaf, and_iff_left hnew]
    constructor
    · rintro hvacant ⟨-, -, heq⟩
      exact h₀.valid (heq ▸ hvacant)
    · intro hnot
      apply hmade.vacant_new h hgap (vaExtract_lt va 2)
      exact fun hall => hnot ⟨rfl, rfl, hall.2.symm⟩
  · have hvacant : pm'.Vacant t (vaExtract va 1) := hmade.vacant_new h hgap (vaExtract_lt va 1) hself
    rw [if_pos hvacant]
    exact iff_of_true (.inl hnew) fun hall => hself ⟨hall.1, hall.2.1.symm⟩

/-- The first page of a region looks at every level: the tables are there or are made, then the leaf. -/
lemma firstPage_steps {root va : ℕ} {idx : PtIdx}
    (heq : pm.allocatePage root va p ⟨not64 0, not64 0, not64 0⟩ = .ok (true, idx, pm')) :
    ∃ pm₁ pm₂, pm.ensureTable root (vaExtract va 0) = .ok (true, pm₁) ∧
      pm₁.ensureTable (pm₁.nextTable root (vaExtract va 0)) (vaExtract va 1) = .ok (true, pm₂) ∧
      pm' = pm₂.mapLeaf (pm₂.nextTable (pm₁.nextTable root (vaExtract va 0)) (vaExtract va 1))
        (vaExtract va 2) p := by
  have hne : ∀ level, vaExtract va level ≠ not64 0 := by
    intro level
    have := vaExtract_lt va level
    norm_num [not64, u64]
    omega
  simp only [allocatePage, allocateLevel, ne_eq, hne, not_false_eq_true, if_true] at heq
  cases hroot : pm.ensureTable root (vaExtract va 0) with
  | error e => simp [hroot] at heq
  | ok r =>
    obtain ⟨ok₁, pm₁⟩ := r
    cases ok₁ with
    | false => simp [hroot] at heq
    | true =>
      simp only [hroot] at heq
      cases hbelow : pm₁.ensureTable (pm₁.nextTable root (vaExtract va 0)) (vaExtract va 1) with
      | error e => simp [hbelow] at heq
      | ok r =>
        obtain ⟨ok₂, pm₂⟩ := r
        cases ok₂ with
        | false => simp [hbelow] at heq
        | true =>
          simp only [hbelow, Except.ok.injEq, Prod.mk.injEq, true_and] at heq
          exact ⟨pm₁, pm₂, rfl, hbelow, heq.2.symm⟩

/-- What the first page of a region does: the way of the address leads to it, or only new tables were
made. -/
theorem firstPage (h : pm.Ordered) (hcursor : pm.CursorValid) {root va : ℕ} (hroot : IsPage root)
    (hp : IsPage p) {idx : PtIdx}
    (heq : pm.allocatePage root va p ⟨not64 0, not64 0, not64 0⟩ = .ok (true, idx, pm')) :
    (pm.Refills root va → pm'.Leads root va p) ∧
      (¬ pm.Refills root va → Filling (fun _ => False) pm pm') := by
  have hi₀ := vaExtract_lt va 0
  obtain ⟨pm₁, pm₂, htable, hbelow, rfl⟩ := firstPage_steps heq
  unfold Refills
  rcases ensureTable_made h hcursor hroot hi₀ with heq' | ⟨hvalid, heq'⟩ | ⟨pm₃, heq', hmade, hgap, hnew⟩
  · rw [htable] at heq'
    cases heq'
  · rw [htable] at heq'
    obtain rfl := (Prod.mk.inj (Except.ok.inj heq')).2
    rw [if_neg hvalid]
    exact firstPage_below h hcursor hroot hp ⟨hvalid, rfl⟩ hbelow
  · rw [htable] at heq'
    obtain rfl := (Prod.mk.inj (Except.ok.inj heq')).2
    rw [if_pos hmade.vacant]
    have hsmall : V < 2 ^ 10 := by norm_num [V]
    have hfill : Filling (fun _ => False) pm pm₁ := .made .refl hroot hi₀ hsmall hmade (.inr ⟨hgap, hnew⟩)
    by_cases hb : pm₁.Backed root 4096
    · have h₀ := hmade.points hsmall (by norm_num [V]) hb
      have hiff := refillsBelow_new h hmade hgap hnew h₀
      rw [h₀.next] at hbelow ⊢
      obtain ⟨hleads, hfilling⟩ := firstPage_below hmade.ordered hmade.cursor hroot hp h₀ hbelow
      constructor
      · intro hrefills
        apply hleads
        rw [hiff]
        rintro ⟨hpage, hall⟩
        cases hrefills with
        | inl hback => exact hgap.not_backed le_rfl (by omega) ((hpage ▸ hback).mono le_rfl (by omega))
        | inr hpage => exact hpage.2 hall
      · intro hnot
        apply hfill.trans (hfilling ?_)
        rw [hiff, not_not]
        cases hmade.stored root hb hroot with
        | inl hback => exact absurd (.inl hback) hnot
        | inr hpage =>
          refine ⟨hpage.1.symm, ?_⟩
          by_contra hall
          exact hnot (.inr ⟨hpage.1.symm, hall⟩)
    · rw [nextTable_not_backed hmade.ordered hroot hi₀ hb] at hbelow ⊢
      constructor
      · intro hrefills
        cases hrefills with
        | inl hback => exact absurd (hmade.kept _ hback) hb
        | inr hpage => exact absurd (hpage.1 ▸ hnew) hb
      · intro _
        exact hfill.trans (firstPage_lost hmade.ordered hmade.cursor hp hbelow)

/-! ### The pages behind the first one -/

/-- The entries of the new pages lead to new pages other than `p`. -/
structure Closed (new : ℕ → Prop) (p : ℕ) (pm pm' : PhysicalMemory) : Prop where
  leads : ∀ q i, new q → IsPage q → i < 512 →
    pm'.nextTable q i = 0 ∨ (new (pm'.nextTable q i) ∧ pm'.nextTable q i ≠ p)
  stored : ∀ x, IsPage x → pm'.Backed x 4096 → pm.Backed x 4096 ∨ new x

/-- When the data has no entries yet, filling never makes an entry that leads to a page `p` with storage
which is not filled in. -/
theorem Filling.closed {data fresh : ℕ → Prop} (h : Filling data pm pm') (hord : pm.Ordered)
    (hcursor : pm.CursorValid) (hb : pm.Backed p 4096) (hdata : ∀ t, data t → fresh t ∧ t ≠ p)
    (hzero : ∀ q i, fresh q → IsPage q → i < 512 → pm.nextTable q i = 0) :
    pm'.Backed p 4096 ∧ ∃ new : ℕ → Prop, (∀ x, fresh x → new x) ∧ Closed new p pm pm' := by
  induction h with
  | refl =>
    refine ⟨hb, fresh, fun _ hx => hx, fun q i hq hpage hi => ?_, fun _ _ => .inl⟩
    exact .inl (hzero q i hq hpage hi)
  | @made pm₁ pm₂ q i t mods hfill hq hi hmods hmade ht ih =>
    obtain ⟨hb₁, new, hsub, hclosed⟩ := ih
    obtain ⟨hord₁, -⟩ := hfill.intact hord hcursor
    have hne : t ≠ p := by
      rcases ht with hdata' | ⟨hgap, -⟩
      · exact (hdata t hdata').2
      · rintro rfl
        exact hgap.not_backed le_rfl (by omega) (hb₁.mono le_rfl (by omega))
    refine ⟨hmade.kept p hb₁, fun x => new x ∨ x = t, fun x hx => .inl (hsub x hx),
      fun q' i' hnew hq' hi' => ?_, fun x hx hback => ?_⟩
    · by_cases hsame : q' = q ∧ i' = i
      · obtain ⟨rfl, rfl⟩ := hsame
        by_cases hback : pm₂.Backed q' 4096
        · rw [hmade.nextTable hmods hback]
          exact .inr ⟨.inr rfl, hne⟩
        · exact .inl (nextTable_not_backed hmade.ordered hq' hi' hback)
      · rw [nextTable, hmade.same q' i' hq' hi' hsame, ← nextTable]
        have hold : ¬ new q' → pm₁.nextTable q' i' = 0 := by
          -- a page that is new in this step had no storage
          intro hnot
          obtain rfl := hnew.resolve_left hnot
          rcases ht with hdata' | ⟨hgap, -⟩
          · exact absurd (hsub _ (hdata _ hdata').1) hnot
          · apply nextTable_not_backed hord₁ hq' hi'
            exact fun hback => hgap.not_backed le_rfl (by omega) (hback.mono le_rfl (by omega))
        by_cases hnew' : new q'
        · exact (hclosed.leads q' i' hnew' hq' hi').imp_right fun hnext => ⟨.inl hnext.1, hnext.2⟩
        · exact .inl (hold hnew')
    · rcases hmade.stored x hback hx with hback | ⟨rfl, -⟩
      · exact (hclosed.stored x hx hback).imp_right .inl
      · exact .inr (.inr rfl)

/-- Behind the root, the first entry of the way without a valid bit has no storage. -/
def LostBelow (pm : PhysicalMemory) (pt1 va : ℕ) : Prop :=
  if pm.Vacant pt1 (vaExtract va 1) then ¬ pm.Backed pt1 4096
  else pm.Vacant (pm.nextTable pt1 (vaExtract va 1)) (vaExtract va 2) →
    ¬ pm.Backed (pm.nextTable pt1 (vaExtract va 1)) 4096

/-- The first entry of the way without a valid bit has no storage. -/
def Lost (pm : PhysicalMemory) (root va : ℕ) : Prop :=
  if pm.Vacant root (vaExtract va 0) then ¬ pm.Backed root 4096
  else pm.LostBelow (pm.nextTable root (vaExtract va 0)) va

lemma lost_of_not_refills {root va : ℕ} (hnot : ¬ pm.Refills root va) : pm.Lost root va := by
  unfold Refills RefillsBelow RefillsLeaf at hnot
  unfold Lost LostBelow
  split_ifs at hnot ⊢
  · exact fun hb => hnot (.inl hb)
  · exact fun hb => hnot (.inl hb)
  · exact fun hvacant hb => hnot ⟨hvacant, hb⟩

namespace Closed
variable {new : ℕ → Prop}

/-- A way that is lost leads to a new page other than `p`, or nowhere. -/
lemma next (h : Closed new p pm pm') (hord' : pm'.Ordered) (hq : IsPage q) (hi : i < 512)
    (hnew : q = 0 ∨ (new q ∧ q ≠ p)) :
    pm'.nextTable q i = 0 ∨ (new (pm'.nextTable q i) ∧ pm'.nextTable q i ≠ p) := by
  rcases hnew with rfl | ⟨hnew, -⟩
  · exact .inl (nextTable_zero hord' hi)
  · exact h.leads q i hnew hq hi

lemma next_lost (h : Closed new p pm pm') (hord' : pm'.Ordered) (hq : IsPage q) (hi : i < 512)
    (hb : ¬ pm.Backed q 4096) :
    pm'.nextTable q i = 0 ∨ (new (pm'.nextTable q i) ∧ pm'.nextTable q i ≠ p) := by
  by_cases hb' : pm'.Backed q 4096
  · exact h.leads q i ((h.stored q hq hb').resolve_left hb) hq hi
  · exact .inl (nextTable_not_backed hord' hq hi hb')

end Closed

lemma vaExtract_u64 (v level : ℕ) : vaExtract (u64 v) level = vaExtract v level := by
  have hpath := vaPath_u64 v
  simp only [vaPath, List.cons.injEq, and_true] at hpath
  obtain ⟨h₀, h₁, h₂⟩ := hpath
  unfold vaExtract at h₀ h₁ h₂ ⊢
  split_ifs
  · exact h₀
  · exact h₁
  · exact h₂

lemma refills_u64 (pm : PhysicalMemory) (root v : ℕ) : pm.Refills root (u64 v) ↔ pm.Refills root v := by
  simp only [Refills, RefillsBelow, RefillsLeaf, vaExtract_u64]

lemma leads_u64 (pm : PhysicalMemory) (root v p : ℕ) : pm.Leads root (u64 v) p ↔ pm.Leads root v p := by
  simp only [Leads, vaExtract_u64]

/-- The memory with a new block for data. -/
def withData (pm : PhysicalMemory) (p size : ℕ) : PhysicalMemory :=
  { pm with blocks := withBlock pm.blocks (fresh p size) }

end PhysicalMemory

namespace Memory
open PhysicalMemory
variable {m m' : Memory} {root v p length : ℕ}

/-- The way of a page address is followed to the page. -/
lemma convert_page (m : Memory) (root : ℕ) (hv : 4096 ∣ v) : m.convert root v =
    let pt1 := m.pm.nextTable root (vaExtract v 0)
    let pt2 := m.pm.nextTable pt1 (vaExtract v 1)
    if pt1 = 0 ∨ pt2 = 0 then 0 else m.pm.nextTable pt2 (vaExtract v 2) := by
  have hoffset : ∀ q i, m.pm.nextTable q i ||| (v &&& 0xfff) = m.pm.nextTable q i := by
    intro q i
    rw [page_or_offset (isPage_nextTable ..).dvd]
    omega
  simp only [convert, hoffset]
  split_ifs <;> simp_all

lemma convert_of_leads (hord : m.pm.Ordered) (hv : 4096 ∣ v) (hleads : m.pm.Leads root v p) :
    m.convert root v = p := by
  obtain ⟨pt1, pt2, h₀, h₁, h₂⟩ := hleads
  have hpt1 : IsPage pt1 := h₀.next ▸ isPage_nextTable ..
  have hpt2 : IsPage pt2 := h₁.next ▸ isPage_nextTable ..
  have hne₁ := h₁.ne_zero hord hpt1 (vaExtract_lt v 1)
  have hne₂ := h₂.ne_zero hord hpt2 (vaExtract_lt v 2)
  rw [convert_page m root hv]
  simp only [h₀.next, h₁.next, h₂.next, hne₁, hne₂, or_self, if_false]

/-- An address whose way is lost is not translated to the page. -/
lemma convert_of_lost {data new : ℕ → Prop} (hord : m.pm.Ordered) (hcursor : m.pm.CursorValid)
    (hroot : IsPage root) (hv : 4096 ∣ v) (hp : p ≠ 0) (hfill : Filling data m.pm m'.pm)
    (hclosed : Closed new p m.pm m'.pm) (hlost : m.pm.Lost root v) (hnot : ¬ m.pm.Leads root v p) :
    m'.convert root v ≠ p := by
  obtain ⟨hord', -⟩ := hfill.intact hord hcursor
  have hi₀ := vaExtract_lt v 0
  have hi₁ := vaExtract_lt v 1
  have hi₂ := vaExtract_lt v 2
  rw [convert_page m' root hv]
  -- it is enough that the last entry leads elsewhere
  have hleaf : ∀ {pa : ℕ} {P : Prop} [Decidable P], pa = 0 ∨ (new pa ∧ pa ≠ p) →
      (if P then 0 else pa) ≠ p := by
    intro pa P _ hpa
    split_ifs
    · exact hp.symm
    · rcases hpa with rfl | ⟨-, hne⟩
      · exact hp.symm
      · exact hne
  unfold Lost LostBelow at hlost
  split_ifs at hlost with hvacant₀ hvacant₁
  · have hpt1 := hclosed.next_lost hord' hroot hi₀ hlost
    have hpt2 := hclosed.next hord' (isPage_nextTable ..) hi₁ hpt1
    exact hleaf (hclosed.next hord' (isPage_nextTable ..) hi₂ hpt2)
  · have h₀ := hfill.points_kept hroot hi₀ ⟨hvacant₀, rfl⟩
    have hpt2 := hclosed.next_lost hord' (isPage_nextTable ..) hi₁ hlost
    simp only [h₀.next]
    exact hleaf (hclosed.next hord' (isPage_nextTable ..) hi₂ hpt2)
  · have h₀ := hfill.points_kept hroot hi₀ ⟨hvacant₀, rfl⟩
    have h₁ := hfill.points_kept (isPage_nextTable ..) hi₁ ⟨hvacant₁, rfl⟩
    simp only [h₀.next, h₁.next]
    by_cases hvacant₂ : m.pm.Vacant (m.pm.nextTable (m.pm.nextTable root (vaExtract v 0)) (vaExtract v 1))
        (vaExtract v 2)
    · exact hleaf (hclosed.next_lost hord' (isPage_nextTable ..) hi₂ (hlost hvacant₂))
    · -- the leaf leads to another page and is not written
      have h₂ := hfill.points_kept (isPage_nextTable ..) hi₂ ⟨hvacant₂, rfl⟩
      have hne : m.pm.nextTable (m.pm.nextTable (m.pm.nextTable root (vaExtract v 0)) (vaExtract v 1))
          (vaExtract v 2) ≠ p :=
        fun heq => hnot ⟨_, _, ⟨hvacant₀, rfl⟩, ⟨hvacant₁, rfl⟩, ⟨hvacant₂, heq⟩⟩
      rw [h₂.next]
      split_ifs
      · exact hp.symm
      · exact hne

/-! ### The allocation -/

/-- No translation changes with a new block. -/
lemma convert_inserted {pm₁ : PhysicalMemory} {size : ℕ} (hord : m.pm.Ordered) (hord₁ : pm₁.Ordered)
    (hat : m.pm.InsertedAt (fresh p size) pm₁) (hroot : IsPage root) (v : ℕ) :
    convert ⟨pm₁⟩ root v = m.convert root v := by
  have hnext : ∀ q i, IsPage q → i < 512 → pm₁.nextTable q i = m.pm.nextTable q i := by
    intro q i hq hi
    rw [nextTable, hat.pte hord hord₁ hq hi, ← nextTable]
  simp only [convert, hnext root _ hroot (vaExtract_lt v 0), hnext _ _ (isPage_nextTable ..) (vaExtract_lt v 1),
    hnext _ _ (isPage_nextTable ..) (vaExtract_lt v 2)]

lemma leads_inserted {pm₁ : PhysicalMemory} {size t : ℕ} (hord : m.pm.Ordered) (hord₁ : pm₁.Ordered)
    (hat : m.pm.InsertedAt (fresh p size) pm₁) (hroot : IsPage root) :
    pm₁.Leads root v t ↔ m.pm.Leads root v t := by
  have hpte : ∀ q i, IsPage q → i < 512 → pm₁.pte q i = m.pm.pte q i := fun q i => hat.pte hord hord₁
  constructor
  · exact fun hleads => hleads.congr hroot fun q i hq hi => (hpte q i hq hi).symm
  · exact fun hleads => hleads.congr hroot hpte

/-- Without a cursor the insertion has no result. -/
lemma cursor_of_insert {pm : PhysicalMemory} (h : pm.Intact) {addr size : ℕ} {r : Int × PhysicalMemory}
    (hins : pm.insert addr size true = .ok r) : pm.CursorValid := by
  cases h.cursor with
  | inl hlost => exact absurd hins (insert_lost hlost _ _ _)
  | inr hcursor => exact hcursor

/-- The steps of an allocation of some pages that gives one: the block, the first page and the others. -/
lemma allocate_pages (h : m.pm.Intact) (hroot : IsPage root) (hpos : 0 < roundPages length)
    (heq : m.allocate root v length = .ok (p, m')) (hp : p ≠ 0) : ∃ n pm₁ pm₂ idx,
      roundPages length = (n + 1) * 4096 ∧ m.pm.Gap p (roundPages length) ∧
      m.pm.InsertedAt (fresh p (roundPages length)) pm₁ ∧
      pm₁.allocatePage root (u64 v) p ⟨not64 0, not64 0, not64 0⟩ = .ok (true, idx, pm₂) ∧
      Filling (fun t => ∃ k, 0 < k ∧ k < n + 1 ∧ t = p + k * 4096) pm₂ m'.pm := by
  have hidem := roundPages_idem length
  have hdvd := roundPages_dvd length
  obtain ⟨hpage, pm₁, hins, hpages⟩ := allocate_steps heq hp
  have hcursor := cursor_of_insert h hins
  generalize roundPages length = size at *
  subst hpage
  obtain ⟨hgap, -, hat⟩ := inserted_usable h.ordered hcursor hidem hp hins
  generalize m.pm.usable size = p at *
  have hord₁ := hat.ordered h.ordered hgap hdvd
  have hcursor₁ := hat.cursorValid
  have hpagep := hgap.isPage h.ordered hpos
  have hfits := hgap.fits
  have hrange := h.ordered.range_lt
  obtain ⟨n, rfl⟩ : ∃ n, size = (n + 1) * 4096 := ⟨size / 4096 - 1, by omega⟩
  obtain ⟨ok₂, idx, pm₂, hfirst, hfill₁⟩ := allocatePage_filling hord₁ hcursor₁ hroot (u64 v) hpagep
    ⟨not64 0, not64 0, not64 0⟩ (fun _ => True) trivial
  obtain ⟨hord₂, hcursor₂⟩ := hfill₁.intact hord₁ hcursor₁
  rw [pageSize_eq, Nat.mul_div_cancel _ (by norm_num), allocatePages, Nat.add_zero, Nat.add_zero,
    u64_of_lt (show p < 2 ^ 64 by omega), hfirst] at hpages
  cases ok₂ with
  | false => cases hpages
  | true =>
    obtain ⟨ok, pm', hrest, hfill⟩ := allocatePages_filling hord₂ hcursor₂ hroot v n 4096
      (fun t => ∃ k, 0 < k ∧ k < n + 1 ∧ t = p + k * 4096) hpagep.dvd (by norm_num) (by omega)
      (fun k hk => ⟨k + 1, by omega, by omega, by ring⟩) idx
    simp only [Nat.zero_add, pageSize_eq] at hpages
    rw [hpages] at hrest
    obtain ⟨-, rfl⟩ := hrest
    exact ⟨n, pm₁, pm₂, idx, rfl, hgap, hat, hfirst, hfill⟩

/-- An address is translated to its new block exactly when its way can be filled or leads there already. -/
theorem allocate_converts_iff (h : m.pm.Intact) (hroot : IsPage root) (hv : 4096 ∣ v)
    (hpos : 0 < roundPages length) (heq : m.allocate root v length = .ok (p, m')) (hp : p ≠ 0) :
    m'.convert root v = p ↔
      (m.pm.withData p (roundPages length)).Refills root v ∨ m.pm.Leads root v p := by
  have hdvd := roundPages_dvd length
  obtain ⟨n, pm₁, pm₂, idx, hsize, hgap, hat, hfirst, hfill⟩ := allocate_pages h hroot hpos heq hp
  rw [hsize] at hgap hat hdvd ⊢
  have hord₁ := hat.ordered h.ordered hgap hdvd
  have hcursor₁ := hat.cursorValid
  have hrefills : (m.pm.withData p ((n + 1) * 4096)).Refills root v ↔ pm₁.Refills root v := by
    obtain ⟨before, after, c, hsplit, rfl, -, hbefore, hafter⟩ := hat.result
    rw [PhysicalMemory.withData, hsplit, withBlock_append (show 0 < (n + 1) * 4096 by omega) hbefore hafter]
    exact Iff.rfl
  have hpage := hgap.isPage h.ordered (by omega)
  obtain ⟨hleads, hlost⟩ := firstPage hord₁ hcursor₁ hroot hpage hfirst
  rw [refills_u64] at hleads hlost
  rw [leads_u64] at hleads
  rw [hrefills, ← leads_inserted h.ordered hord₁ hat hroot]
  constructor
  · intro hconvert
    by_contra hneither
    obtain ⟨hnot, hnotLeads⟩ := not_or.mp hneither
    have hall := (hlost hnot).mono (fun t ht => ht.elim) |>.trans hfill
    have hdata : ∀ t, (∃ k, 0 < k ∧ k < n + 1 ∧ t = p + k * 4096) →
        (p ≤ t ∧ t < p + (n + 1) * 4096) ∧ t ≠ p := by
      rintro t ⟨k, hk, hkn, rfl⟩
      exact ⟨⟨by omega, by omega⟩, by omega⟩
    have hnone : ∀ q i, p ≤ q ∧ q < p + (n + 1) * 4096 → IsPage q → i < 512 →
        pm₁.nextTable q i = 0 := by
      intro q i hq hqpage hi
      have hnot : ¬ m.pm.Backed q 4096 := fun hb => hgap.not_backed hq.1 hq.2 (hb.mono le_rfl (by omega))
      rw [nextTable, hat.pte h.ordered hord₁ hqpage hi]
      exact nextTable_not_backed h.ordered hqpage hi hnot
    have hback : pm₁.Backed p 4096 := hat.backed_new.mono le_rfl (by omega)
    obtain ⟨-, new, -, hclosed⟩ := hall.closed hord₁ hcursor₁ hback hdata hnone
    have hlost := lost_of_not_refills hnot
    exact convert_of_lost (m := ⟨pm₁⟩) hord₁ hcursor₁ hroot hv hp hall hclosed hlost hnotLeads hconvert
  · intro hway
    obtain ⟨ok, idx', pm', hfirst', hfill₁⟩ := allocatePage_filling hord₁ hcursor₁ hroot (u64 v) hpage
      ⟨not64 0, not64 0, not64 0⟩ (fun _ => True) trivial
    rw [hfirst] at hfirst'
    obtain ⟨-, -, rfl⟩ := hfirst'
    obtain ⟨hord₂, hcursor₂⟩ := hfill₁.intact hord₁ hcursor₁
    have hleads₂ : pm₂.Leads root v p := by
      cases hway with
      | inl hrefills' => exact hleads hrefills'
      | inr hleads₁ => exact hfill₁.leads hroot hleads₁
    exact convert_of_leads (hfill.intact hord₂ hcursor₂).1 hv (hfill.leads hroot hleads₂)

/-- An allocation of no pages translates nothing anew. -/
lemma convert_allocate_empty (h : m.pm.Intact) (hroot : IsPage root) (hzero : roundPages length = 0)
    (heq : m.allocate root v length = .ok (p, m')) (hp : p ≠ 0) : m'.convert root v = m.convert root v := by
  obtain ⟨rfl, pm, hins, hpages⟩ := allocate_steps heq hp
  obtain ⟨hgap, -, hat⟩ := inserted_usable h.ordered (cursor_of_insert h hins) (roundPages_idem length) hp hins
  -- the loop makes no step
  rw [hzero] at hpages
  obtain ⟨-, rfl⟩ := Prod.mk.inj (Except.ok.inj hpages)
  have hord := hat.ordered h.ordered hgap (roundPages_dvd length)
  exact convert_inserted h.ordered hord hat hroot v

/-- A root that `create_root_pt` returns is a page address. -/
lemma createRootPt_isPage {mem : Memory} (h : m.pm.Ordered)
    (heq : m.createRootPt = .ok (root, mem)) (hne : root ≠ 0) : IsPage root := by
  have hroot : m.pm.usable pageSize = root := by
    simp only [Memory.createRootPt] at heq
    split_ifs at heq with hfull
    · cases hins : m.pm.insert (m.pm.usable pageSize) pageSize true with
      | error e => simp [hins] at heq
      | ok r =>
        simp only [hins] at heq
        exact (Prod.mk.inj (Except.ok.inj heq)).1
    · exact (Prod.mk.inj (Except.ok.inj heq)).1
  have hround : roundPages pageSize = 4096 := by decide
  obtain ⟨hgap, -⟩ := usable_gap h (by rw [hround]; norm_num) hne hroot
  exact hgap.isPage h (by rw [hround]; norm_num)

/-- There is a gap for the data, the cursor lets the block in, and the loop finds a page for every table
that it makes. -/
structure Completes (m : Memory) (root v length : ℕ) : Prop where
  gap : m.pm.usable (roundPages length) ≠ 0
  insertable : m.pm.Insertable (m.pm.usable (roundPages length)) (roundPages length)
  tables : ¬ m.RunsOut root v length

/-- Whatever the tables are. -/
theorem allocate_completes_iff (h : m.pm.Intact) (hroot : IsPage root) (hsmall : roundPages length < 2 ^ 63) :
    (∃ p m', m.allocate root v length = .ok (p, m') ∧ p ≠ 0) ↔ m.Completes root v length := by
  have hidem := roundPages_idem length
  constructor
  · rintro ⟨p, m', heq, hp⟩
    obtain ⟨rfl, pm, hins, hpages⟩ := allocate_steps heq hp
    have hcursor := cursor_of_insert h hins
    obtain ⟨hgap, hnext, -⟩ := inserted_usable h.ordered hcursor hidem hp hins
    refine ⟨hp, (insert_gap_iff h.ordered hcursor hgap hnext).mp ⟨pm, hins⟩, ?_⟩
    rintro ⟨-, pm₁, pm₂, hins₁, hpages₁⟩
    rw [hins] at hins₁
    obtain ⟨-, rfl⟩ := Prod.mk.inj (Except.ok.inj hins₁)
    rw [hpages] at hpages₁
    cases hpages₁
  · rintro ⟨husable, hinsertable, hruns⟩
    obtain ⟨hgap, hnext⟩ := usable_gap h.ordered (by omega) husable rfl
    rw [hidem] at hgap hnext
    have hcursor := h.cursor.resolve_left hinsertable.cursor
    obtain ⟨pm₁, hins⟩ := (insert_gap_iff h.ordered hcursor hgap hnext).mpr hinsertable
    obtain ⟨-, -, hat⟩ := inserted_usable h.ordered hcursor hidem husable hins
    have hord := hat.ordered h.ordered hgap (roundPages_dvd length)
    have hfits := hgap.fits
    have hrange := h.ordered.range_lt
    obtain ⟨ok, pm₂, hpages, -⟩ := allocatePages_filling hord hat.cursorValid hroot v
      (roundPages length / pageSize) 0 (fun _ => True) (hgap.aligned h.ordered) (by norm_num)
      (by rw [pageSize_eq]; omega) (fun _ _ => trivial) ⟨not64 0, not64 0, not64 0⟩
    cases ok with
    | false => exact absurd ⟨husable, pm₁, pm₂, hins, hpages⟩ hruns
    | true => exact ⟨_, ⟨pm₂⟩, by simp [allocate_eq, if_neg husable, hins, hpages], husable⟩

end Memory
end VentusDriver
