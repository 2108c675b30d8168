import VentusDriver.Device.TableGrowth

/-! What `create_root_pt` and `allocate` do to the page tables, for every state in which the tables
form a forest and for every length. -/
namespace VentusDriver
open Foundation Foundation.Radix Sv39

namespace PhysicalMemory
variable {pm pm' : PhysicalMemory} {root : ℕ → Prop}

lemma isSome_walk_prefix {entry : ℕ → ℕ → Option ℕ} {r : ℕ} (path path' : List ℕ)
    (h : (walk entry r (path ++ path')).isSome = true) : (walk entry r path).isSome = true := by
  rw [walk_append] at h
  cases hw : walk entry r path with
  | none => simp [hw] at h
  | some q => rfl

/-- The next page has the cached index of a level only if it shares the table. -/
lemma CacheOk.next {r va : ℕ} (hva : va < 2 ^ 64)
    (hmapped : (walk pm.entry r (vaPath va)).isSome = true) :
    CacheOk pm r (u64 (va + pageSize)) ⟨vaExtract va 0, vaExtract va 1, vaExtract va 2⟩ := by
  rw [pageSize_eq]
  constructor
  · intro heq
    rw [← heq]
    exact isSome_walk_prefix [vaExtract va 0] [vaExtract va 1, vaExtract va 2] hmapped
  · intro heq
    have h0 : vaExtract va 0 = vaExtract (u64 (va + 4096)) 0 := by
      dsimp only at heq
      rw [vaExtract_one, vaExtract_one, u64] at heq
      rw [vaExtract_zero, vaExtract_zero, u64]
      omega
    rw [← heq, ← h0]
    exact isSome_walk_prefix [vaExtract va 0, vaExtract va 1] [vaExtract va 2] hmapped
  · dsimp only
    rw [vaExtract_two, vaExtract_two, u64]
    omega

/-- No index equals the initial value of the cache. -/
lemma CacheOk.start (r va : ℕ) : CacheOk pm r va ⟨not64 0, not64 0, not64 0⟩ := by
  have hne : ∀ level, not64 0 ≠ vaExtract va level := by
    intro level
    have := vaExtract_lt va level
    norm_num [not64, u64]
    omega
  exact ⟨fun h => absurd h (hne 0), fun h => absurd h (hne 1), hne 2⟩

/-- Mapping `n` pages from `va` on to the pages from `pa` on. -/
structure PagesStep (root : ℕ → Prop) (pm : PhysicalMemory) (r va pa n : ℕ) (ok : Bool)
    (pm' : PhysicalMemory) : Prop where
  growth : Growth root pm pm'
  adds : ∀ r' path q, root r' → path.length = 3 → walk pm'.entry r' path = some q →
    walk pm.entry r' path = some q ∨
      (r' = r ∧ ∃ k < n, path = vaPath (u64 (va + k * 4096)) ∧ q = pa + k * 4096)
  mapped : ok = true → ∀ k < n, (walk pm'.entry r (vaPath (u64 (va + k * 4096)))).isSome = true

/-- The state of the loop with `n` pages left at byte offset `iter` of a region. -/
structure Pending (root : ℕ → Prop) (pm : PhysicalMemory) (r v p size n iter : ℕ) (idx : PtIdx) :
    Prop where
  tables : pm.PageTables root
  region : Region root pm r p size
  cache : CacheOk pm r (u64 (v + iter)) idx
  aligned : 4096 ∣ iter
  fits : iter + n * 4096 ≤ size
  fresh : ∀ k < n, ¬ IsReached pm.entry 3 root (p + iter + k * 4096)

namespace Pending
variable {r v p size n iter : ℕ} {idx : PtIdx}

/-- The page at the offset can be mapped. -/
lemma page (h : Pending root pm r v p size (n + 1) iter idx) :
    p + iter + 4096 ≤ p + size ∧ ¬ IsReached pm.entry 3 root (p + iter) := by
  have hfits := h.fits
  refine ⟨by omega, ?_⟩
  simpa using h.fresh 0 (by omega)

/-- After a page was mapped, the loop is ready for the next one. -/
lemma next (h : Pending root pm r v p size (n + 1) iter idx)
    (hstep : PageStep root pm r (u64 (v + iter)) (p + iter) true pm') :
    Pending root pm' r v p size n (iter + pageSize) ⟨vaExtract (u64 (v + iter)) 0,
      vaExtract (u64 (v + iter)) 1, vaExtract (u64 (v + iter)) 2⟩ := by
  have hfits := h.fits
  have hiter := h.aligned
  have hnext : u64 (u64 (v + iter) + pageSize) = u64 (v + (iter + pageSize)) := by
    simp only [u64, pageSize_eq]
    omega
  refine ⟨hstep.growth.tables, ?_, ?_, by rw [pageSize_eq]; omega, by rw [pageSize_eq]; omega, ?_⟩
  · exact h.region.of_growth hstep.growth fun r' path q hr' hlen hw =>
      (hstep.reached r' path q hr' hlen hw).imp id fun hnew => hnew.imp id fun hown => ⟨hown.1, hown.2.1⟩
  · rw [← hnext]
    exact .next (u64_lt _) (hstep.mapped rfl)
  · rintro k hk ⟨r', path, hr', hlen, hw⟩
    rw [pageSize_eq] at hw
    rcases hstep.reached r' path _ hr' hlen hw with hq | hnot | ⟨-, -, heq⟩
    · apply h.fresh (k + 1) (by omega)
      rwa [show p + iter + (k + 1) * 4096 = p + (iter + 4096) + k * 4096 by ring]
    · exact hnot (h.region.backed.mono (by omega) (by omega))
    · omega

end Pending

theorem allocatePages_spec {r v p size : ℕ} (hr : root r) (hp : 4096 ∣ p)
    (hrange : p + size < 2 ^ 64) (n iter : ℕ) {idx : PtIdx}
    (h : Pending root pm r v p size n iter idx) :
    ∃ ok pm', allocatePages r v p n iter idx pm = .ok (ok, pm') ∧
      PagesStep root pm r (v + iter) (p + iter) n ok pm' ∧ Region root pm' r p size := by
  induction n generalizing iter idx pm with
  | zero =>
    exact ⟨true, pm, rfl, ⟨.refl h.tables, fun _ _ _ _ _ hw => .inl hw, by simp⟩, h.region⟩
  | succ n ih =>
    obtain ⟨hinside, hfresh⟩ := h.page
    have hpa : u64 (p + iter) = p + iter := u64_of_lt (by omega)
    obtain ⟨ok, idx', pm₁, heq, hstep, hidx⟩ := allocatePage_spec h.tables hr h.region h.cache
      (Nat.dvd_add hp h.aligned) (Nat.le_add_right p iter) hinside hfresh
    have hadds₁ : ∀ r' path q, root r' → path.length = 3 → walk pm₁.entry r' path = some q →
        walk pm.entry r' path = some q ∨ (r' = r ∧ ∃ k < n + 1,
          path = vaPath (u64 (v + iter + k * 4096)) ∧ q = p + iter + k * 4096) := by
      intro r' path q hr' hlen hw
      rcases hstep.adds r' path q hr' hlen hw with hw | ⟨rfl, rfl, rfl⟩
      · exact .inl hw
      · refine .inr ⟨rfl, 0, by omega, ?_, by omega⟩
        rw [Nat.zero_mul, Nat.add_zero]
    cases ok with
    | false =>
      refine ⟨false, pm₁, by simp [allocatePages, hpa, heq], ⟨hstep.growth, hadds₁, by simp⟩, ?_⟩
      exact h.region.of_growth hstep.growth fun r' path q hr' hlen hw =>
        (hstep.reached r' path q hr' hlen hw).imp id fun hnew => hnew.imp id fun hown => ⟨hown.1, hown.2.1⟩
    | true =>
      have hmapped := hstep.mapped rfl
      obtain rfl := hidx rfl
      obtain ⟨ok, pm₂, heq₂, hstep₂, hreg₂⟩ := ih (iter + pageSize) (h.next hstep)
      refine ⟨ok, pm₂, by simp [allocatePages, hpa, heq, heq₂],
        ⟨hstep.growth.trans h.tables hstep₂.growth, ?_, ?_⟩, hreg₂⟩
      · intro r' path q hr' hlen hw
        rcases hstep₂.adds r' path q hr' hlen hw with hw | ⟨rfl, k, hk, rfl, rfl⟩
        · exact hadds₁ r' path q hr' hlen hw
        · refine .inr ⟨rfl, k + 1, by omega, ?_, by rw [pageSize_eq]; ring⟩
          rw [pageSize_eq, show v + (iter + 4096) + k * 4096 = v + iter + (k + 1) * 4096 by ring]
      · intro hok k hk
        cases k with
        | zero =>
          obtain ⟨q, hq⟩ := Option.isSome_iff_exists.mp hmapped
          rw [Nat.zero_mul, Nat.add_zero, hstep₂.growth.walks r _ q hr (by simp) hq]
          rfl
        | succ k =>
          have := hstep₂.mapped hok k (by omega)
          rwa [pageSize_eq, show v + (iter + 4096) + k * 4096 = v + iter + (k + 1) * 4096 by ring]
            at this

/-- After the block was inserted, the loop is ready for its first page. -/
lemma Pending.start (h : pm.PageTables root) {p size : ℕ} (hgap : pm.Gap p size) (hsize : 4096 ∣ size)
    (hins : pm.InsertedAt (PhysicalMemory.fresh p size) pm') (r v : ℕ) :
    Pending root pm' r v p size (size / pageSize) 0 ⟨not64 0, not64 0, not64 0⟩ := by
  obtain ⟨htables, hwalk⟩ := h.insertedAt hgap hsize hins
  have hout : ∀ q, IsReached pm'.entry 3 root q → ¬ (p ≤ q ∧ q < p + size) := by
    rintro q ⟨r', path, hr', hlen, hw⟩
    exact h.not_in_gap hgap ⟨r', path, hr', hlen, hwalk r' path hr' hlen ▸ hw⟩
  refine ⟨htables, ⟨⟨_, hins.mem_iff.mpr (.inl rfl), rfl, rfl, rfl⟩, ?_⟩, .start r _, by simp,
    by rw [pageSize_eq]; omega, ?_⟩
  · intro r' path q hr' hlen hw hlow hhigh
    exact absurd ⟨hlow, hhigh⟩ (hout q ⟨r', path, hr', hlen, hw⟩)
  · intro k hk hq
    rw [pageSize_eq] at hk
    exact hout _ hq (by omega)

/-! ### The two operations -/

/-- An allocation of `size` bytes, a whole number of pages, at `v` under the root `r`. -/
structure AllocateStep (root : ℕ → Prop) (pm : PhysicalMemory) (r v size p : ℕ)
    (pm' : PhysicalMemory) : Prop where
  growth : Growth root pm pm'
  /-- Every new translation is one of the range, to a page that had no storage. -/
  adds : ∀ r' path q, root r' → path.length = 3 → walk pm'.entry r' path = some q →
    walk pm.entry r' path = some q ∨ (r' = r ∧ ¬ pm.Backed q 1 ∧ ∃ k < size / 4096,
      path = vaPath (u64 (v + k * 4096)) ∧ (p ≠ 0 → q = p + k * 4096))
  mapped : p ≠ 0 → ∀ k < size / 4096,
    (walk pm'.entry r (vaPath (u64 (v + k * 4096)))).isSome = true
  region : p ≠ 0 → Region root pm' r p size
  free : p ≠ 0 → pm.Gap p size
  zero : p ≠ 0 → ∀ x, p ≤ x → x < p + size → pm'.byteAt x = 0

end PhysicalMemory

namespace Memory
open PhysicalMemory
variable {m m' : Memory} {root : ℕ → Prop}

/-- `allocate` in terms of the rounded length. -/
lemma allocate_eq (m : Memory) (root vAddr length : ℕ) : m.allocate root vAddr length =
    if m.pm.usable (roundPages length) = 0 then .ok (0, m)
    else match m.pm.insert (m.pm.usable (roundPages length)) (roundPages length) true with
      | .error e => .error e
      | .ok (status, pm) =>
        if status ≠ 0 then .ok (0, ⟨pm⟩)
        else match allocatePages root vAddr (m.pm.usable (roundPages length))
            (roundPages length / pageSize) 0 ⟨not64 0, not64 0, not64 0⟩ pm with
          | .error e => .error e
          | .ok (ok, pm) => .ok (if ok then m.pm.usable (roundPages length) else 0, ⟨pm⟩) := rfl

/-- The three ways in which `allocate` returns. -/
theorem allocate_cases {root vAddr length p : ℕ} (h : m.allocate root vAddr length = .ok (p, m')) :
    (m.pm.usable (roundPages length) = 0 ∧ p = 0 ∧ m' = m) ∨
      (m.pm.usable (roundPages length) ≠ 0 ∧ ∃ status pm,
        m.pm.insert (m.pm.usable (roundPages length)) (roundPages length) true = .ok (status, pm) ∧
        ((status ≠ 0 ∧ p = 0 ∧ m' = ⟨pm⟩) ∨
          (status = 0 ∧ ∃ ok, allocatePages root vAddr (m.pm.usable (roundPages length))
              (roundPages length / pageSize) 0 ⟨not64 0, not64 0, not64 0⟩ pm = .ok (ok, m'.pm) ∧
            p = if ok then m.pm.usable (roundPages length) else 0))) := by
  rw [allocate_eq] at h
  split_ifs at h with hp
  · simp only [Except.ok.injEq, Prod.mk.injEq] at h
    exact .inl ⟨hp, h.1.symm, h.2.symm⟩
  · refine .inr ⟨hp, ?_⟩
    cases hins : m.pm.insert (m.pm.usable (roundPages length)) (roundPages length) true with
    | error e => simp [hins] at h
    | ok r =>
      obtain ⟨status, pm⟩ := r
      refine ⟨status, pm, rfl, ?_⟩
      simp only [hins] at h
      split_ifs at h with hstatus
      · simp only [Except.ok.injEq, Prod.mk.injEq] at h
        exact .inl ⟨hstatus, h.1.symm, h.2.symm⟩
      · refine .inr ⟨not_not.mp hstatus, ?_⟩
        split at h
        · cases h
        · next ok pm' hpages =>
          simp only [Except.ok.injEq, Prod.mk.injEq] at h
          obtain ⟨rfl, rfl⟩ := h
          exact ⟨ok, hpages, rfl⟩

/-- The steps of an allocation that gives a page. -/
lemma allocate_steps {root vAddr length p : ℕ} (h : m.allocate root vAddr length = .ok (p, m')) (hp : p ≠ 0) :
    p = m.pm.usable (roundPages length) ∧ ∃ pm, m.pm.insert p (roundPages length) true = .ok (0, pm) ∧
      allocatePages root vAddr p (roundPages length / pageSize) 0 ⟨not64 0, not64 0, not64 0⟩ pm =
        .ok (true, m'.pm) := by
  rcases allocate_cases h with ⟨-, hnone, -⟩ | ⟨-, status, pm, hins, ⟨-, hnone, -⟩ | ⟨rfl, ok, hpages, hpage⟩⟩
  · exact absurd hnone hp
  · exact absurd hnone hp
  · cases ok with
    | false => exact absurd hpage hp
    | true =>
      rw [if_pos rfl] at hpage
      rw [hpage]
      exact ⟨rfl, pm, hins, hpages⟩

/-- `allocate` returns with a growth of the tables, unless the host cannot make the block. -/
theorem allocate_spec (h : m.pm.PageTables root) {r : ℕ} (hr : root r) (v length : ℕ) :
    (2 ^ 63 ≤ roundPages length ∧ m.allocate r v length = .error .badAlloc) ∨
      ∃ p m', m.allocate r v length = .ok (p, m') ∧
        AllocateStep root m.pm r v (roundPages length) p m'.pm := by
  have hunfold := m.allocate_eq r v length
  have hidem := roundPages_idem length
  have hdvd := roundPages_dvd length
  generalize roundPages length = size at hunfold hidem hdvd ⊢
  by_cases hp : m.pm.usable size = 0
  · right
    refine ⟨0, m, by rw [hunfold, if_pos hp], .refl h, fun _ _ _ _ _ hw => .inl hw, ?_, ?_, ?_, ?_⟩
    all_goals exact fun hne => absurd rfl hne
  · rw [if_neg hp] at hunfold
    by_cases hhuge : 2 ^ 63 ≤ size
    · left
      exact ⟨hhuge, by rw [hunfold, insert_huge (hidem.symm ▸ hhuge)]⟩
    · right
      obtain ⟨hgap, hnext⟩ := usable_gap h.ordered (by omega) hp rfl
      rw [hidem] at hgap hnext
      rcases insert_cases h.ordered h.cursor hgap hnext with ⟨pm₁, hins, hat⟩ | ⟨hins, -⟩
      swap
      · -- no block before an empty range: only the cursor is moved
        obtain ⟨i, -, hi⟩ := h.cursor
        refine ⟨0, ⟨{ m.pm with currentBlock := some 0 }⟩, ?_, h.growth_cursor (by omega),
          fun _ _ _ _ _ hw => .inl hw, ?_, ?_, ?_, ?_⟩
        · rw [hunfold, hins]
          simp
        all_goals exact fun hne => absurd rfl hne
      have hgrowth := h.growth_insertedAt hgap hdvd hat
      obtain ⟨-, hwalk⟩ := h.insertedAt hgap hdvd hat
      have hrange := h.ordered.range_lt
      have hfits := hgap.fits
      have hout : ∀ q, IsReached pm₁.entry 3 root q →
          ¬ (m.pm.usable size ≤ q ∧ q < m.pm.usable size + size) := by
        rintro q ⟨r', path, hr', hlen, hw⟩
        exact h.not_in_gap hgap ⟨r', path, hr', hlen, hwalk r' path hr' hlen ▸ hw⟩
      have hpending := Pending.start h hgap hdvd hat r v
      obtain ⟨ok, pm₂, hpages, hstep, hreg₂⟩ := allocatePages_spec hr (hgap.aligned h.ordered)
        (by omega) (size / pageSize) 0 hpending
      rw [hins] at hunfold
      simp only [ne_eq, not_true_eq_false, if_false, hpages] at hunfold
      have hg := hgrowth.trans h hstep.growth
      have hp' : ∀ p, (if ok then m.pm.usable size else 0) = p → p ≠ 0 →
          ok = true ∧ p = m.pm.usable size := by
        intro p heq hne
        cases ok with
        | false => exact absurd heq.symm hne
        | true => exact ⟨rfl, heq.symm⟩
      refine ⟨_, _, hunfold, hg, ?_, ?_, ?_, ?_, ?_⟩
      · intro r' path q hr' hlen hw
        rcases hstep.adds r' path q hr' hlen hw with hw | ⟨rfl, k, hk, rfl, rfl⟩
        · exact .inl (hwalk r' path hr' (by omega) ▸ hw)
        · rw [pageSize_eq] at hk
          refine .inr ⟨rfl, hgap.not_backed (by omega) (by omega), k, hk, by simp, fun hne => ?_⟩
          rw [(hp' _ rfl hne).2, Nat.add_zero]
      · intro hne k hk
        simpa using hstep.mapped (hp' _ rfl hne).1 k (by rw [pageSize_eq]; exact hk)
      · intro hne
        rw [(hp' _ rfl hne).2]
        exact hreg₂
      · intro hne
        rw [(hp' _ rfl hne).2]
        exact hgap
      · intro hne x hlow hhigh
        rw [(hp' _ rfl hne).2] at hlow hhigh
        have hnew := hgap.not_backed hlow hhigh
        rw [hstep.growth.bytes x (hpending.region.backed.mono hlow (by omega)), hat.byteAt h.ordered
          hgrowth.tables.ordered, not_backed_zero hnew]
        intro q hq hin
        obtain ⟨hdvdq, -⟩ := hgrowth.tables.table_page hq
        exact hout q hq.isReached (by have := hgap.aligned h.ordered; omega)

/-- What an `allocate` that returned has done. -/
theorem allocate_ok (h : m.pm.PageTables root) {r v length p : ℕ} {m' : Memory} (hr : root r)
    (heq : m.allocate r v length = .ok (p, m')) :
    AllocateStep root m.pm r v (roundPages length) p m'.pm := by
  rcases allocate_spec h hr v length with ⟨-, herr⟩ | ⟨p', mem, hok, hstep⟩
  · rw [heq] at herr
    cases herr
  · rw [heq] at hok
    obtain ⟨rfl, rfl⟩ := Prod.mk.inj (Except.ok.inj hok)
    exact hstep

/-- A new root: a zero page that nothing reached before. -/
structure RootStep (root : ℕ → Prop) (pm : PhysicalMemory) (r : ℕ) (pm' : PhysicalMemory) :
    Prop where
  growth : Growth root pm pm'
  tables : pm'.PageTables fun x => x = r ∨ root x
  walks : ∀ r' path, root r' → path.length ≤ 3 →
    walk pm'.entry r' path = walk pm.entry r' path
  empty : ∀ i, pm'.entry r i = none
  new : ¬ pm.Backed r 1

/-- `create_root_pt` always returns; the result is 0 and nothing changed, or a new root. -/
theorem createRootPt_spec (h : m.pm.PageTables root) :
    m.createRootPt = .ok (0, m) ∨ ∃ r m', r ≠ 0 ∧ m.createRootPt = .ok (r, m') ∧
      RootStep root m.pm r m'.pm := by
  by_cases hp : m.pm.usable pageSize = 0
  · left
    simp [createRootPt, hp]
  · right
    obtain ⟨pm', hins, hgap, -, hgrowth, hwalk, hfill⟩ := newTable h hp 0 []
    have hpte : ∀ i, i < 512 → pm'.pte (m.pm.usable pageSize) i = 0 := by
      intro i hi
      rw [pte_eq hgrowth.tables.ordered hfill.backed hi]
      have hbytes : ∀ j < 8, pm'.byteAt (m.pm.usable pageSize + i * 8 + j) = 0 :=
        fun j hj => hfill.zero (by simp) _ (by omega) (by omega)
      rw [littleEndian_congr hbytes, littleEndian_zeros]
    have hempty : ∀ i, pm'.entry (m.pm.usable pageSize) i = none := by
      intro i
      by_cases hi : i < 512
      · exact entry_eq_none_of_pte (hpte i hi)
      · simp [entry, hi]
    -- from the new root only the root itself is reached
    have hself : ∀ path q, walk pm'.entry (m.pm.usable pageSize) path = some q →
        path = [] ∧ q = m.pm.usable pageSize := by
      intro path q hw
      cases path with
      | nil => exact ⟨rfl, (Option.some.inj hw).symm⟩
      | cons i path => simp [walk, hempty i] at hw
    refine ⟨_, ⟨pm'⟩, hp, by simp [createRootPt, hp, hins], hgrowth,
      ⟨hgrowth.tables.ordered, hgrowth.tables.cursor, ?_, ?_, ?_, ?_⟩, hwalk, hempty,
      hgap.not_backed le_rfl (by have := pageSize_eq; omega)⟩
    · exact hgrowth.tables.forest.addRoot (fun _ => hempty) hfill.fresh
    · rintro q ⟨r, path, rfl | hr, hlen, hw⟩
      · obtain ⟨-, rfl⟩ := hself path q hw
        exact ⟨hfill.dvd, hfill.backed⟩
      · exact hgrowth.tables.page q ⟨r, path, hr, hlen, hw⟩
    · rintro q i ⟨r, path, rfl | hr, hlen, hw⟩ hi
      · obtain ⟨-, rfl⟩ := hself path q hw
        exact .inl (hpte i hi)
      · exact hgrowth.tables.valid q i ⟨r, path, hr, hlen, hw⟩ hi
    · intro b hb r r' path path' q q' hr hr' hlen hlen' hw hw' h1 h2 h3 h4
      rcases hr with rfl | hr <;> rcases hr' with rfl | hr'
      · exact ⟨rfl, .inl ((hself path q hw).1.trans (hself path' q' hw').1.symm)⟩
      · obtain ⟨-, rfl⟩ := hself path q hw
        have := hfill.together b hb h1 h2 r' path' q' hr' hlen' hw' h3 h4
        simp at this
      · obtain ⟨-, rfl⟩ := hself path' q' hw'
        have := hfill.together b hb h3 h4 r path q hr hlen hw h1 h2
        simp at this
      · exact hgrowth.tables.together b hb r r' path path' q q' hr hr' hlen hlen' hw hw' h1 h2 h3 h4

/-- What a `create_root_pt` that returned has done. -/
theorem createRootPt_ok (h : m.pm.PageTables root) {r : ℕ} {m' : Memory}
    (heq : m.createRootPt = .ok (r, m')) :
    (r = 0 ∧ m' = m) ∨ (r ≠ 0 ∧ RootStep root m.pm r m'.pm) := by
  rcases createRootPt_spec h with hok | ⟨r', mem, hne, hok, hstep⟩
  · rw [heq] at hok
    exact .inl (Prod.mk.inj (Except.ok.inj hok))
  · rw [heq] at hok
    obtain ⟨rfl, rfl⟩ := Prod.mk.inj (Except.ok.inj hok)
    exact .inr ⟨hne, hstep⟩

/-- Below the first allocatable address there is no room for a root. -/
lemma createRootPt_small {range : ℕ} (h : range < 0x20000000) :
    (Memory.new range).createRootPt = .ok (0, Memory.new range) := by
  have hmax : (PhysicalMemory.new range).maxRange ≤ 0x20000000 := by
    have hclamp : range ≤ maxPhyRange := by norm_num [maxPhyRange]; omega
    simp only [PhysicalMemory.new, if_pos hclamp, pageSize_eq]
    omega
  have husable : (PhysicalMemory.new range).usable pageSize = 0 := by
    have hblocks : (PhysicalMemory.new range).blocks =
        [reserved, sentinel (PhysicalMemory.new range).maxRange] := rfl
    have hround : u64 (pageSize + pageSize - 1) / pageSize * pageSize = 4096 := by
      rw [pageSize_eq]; rfl
    simp only [usable, hblocks, hround]
    generalize (PhysicalMemory.new range).maxRange = max at hmax
    have hpos : ¬ (sentinel max).gtPos (sub64 (reserved.endAddr + 4096) 1) := by
      have hval : sub64 (reserved.endAddr + 4096) 1 = 0x20000fff := by decide
      rw [hval, Block.gtPos, sentinel]
      dsimp only
      omega
    simp [usableFrom, hpos]
  simp [Memory.createRootPt, Memory.new, husable]

end Memory
end VentusDriver
