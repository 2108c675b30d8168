import VentusDriver.Device.Allocation
import VentusDriver.Device.VirtualPieces

/-! Access through the page tables. `act_virt` is a loop over bytes that hands on one chunk for
each page; the rule for it speaks about bytes only, and reads and writes are two instances. -/
namespace VentusDriver
open Foundation Foundation.Radix Sv39

/-! ### Virtual pages -/

lemma vaPath_eq_iff {va va' : ℕ} (h : va < 2 ^ 39) (h' : va' < 2 ^ 39) :
    vaPath va = vaPath va' ↔ va / 4096 = va' / 4096 := by
  simp only [vaPath, vaExtract_zero, vaExtract_one, vaExtract_two, List.cons.injEq, and_true]
  omega

namespace Memory
open PhysicalMemory

/-- `convert` follows the path of the address and adds the offset in the page. -/
theorem convert_eq (m : Memory) (r va : ℕ) :
    m.convert r va = match walk m.pm.entry r (vaPath va) with
      | some q => q ||| (va &&& 0xfff)
      | none => 0 := by
  have hentry : ∀ q level, m.pm.entry q (vaExtract va level) =
      if m.pm.nextTable q (vaExtract va level) = 0 then none
      else some (m.pm.nextTable q (vaExtract va level)) := by
    intro q level
    simp only [entry, vaExtract_lt, true_and, ne_eq, ite_not]
  simp only [convert, vaPath, walk, hentry]
  by_cases h0 : m.pm.nextTable r (vaExtract va 0) = 0
  · simp [h0]
  simp only [h0, if_false, Option.bind_some]
  by_cases h1 : m.pm.nextTable (m.pm.nextTable r (vaExtract va 0)) (vaExtract va 1) = 0
  · simp [h1]
  simp only [h1, if_false, Option.bind_some]
  split_ifs with h2 <;> rfl

lemma page_or_offset {q : ℕ} (h : 4096 ∣ q) (va : ℕ) : q ||| (va &&& 0xfff) = q + va % 4096 := by
  obtain ⟨a, rfl⟩ := h
  have hjoin := mul_or_of_lt (k := 12) a (Nat.mod_lt va (by norm_num))
  rw [show (0xfff : ℕ) = 2 ^ 12 - 1 from rfl, Nat.and_two_pow_sub_one_eq_mod, Nat.mul_comm 4096 a]
  exact hjoin

/-- Translated addresses are physical ones. -/
lemma convert_lt (m : Memory) (r va : ℕ) : m.convert r va < 2 ^ 57 := by
  have hpage : ∀ table i, m.pm.nextTable table i < 2 ^ 57 := by
    intro table i
    rw [nextTable, pte2pa_eq]
    omega
  simp only [convert]
  split_ifs
  · norm_num
  · norm_num
  · norm_num
  · exact Nat.or_lt_two_pow (hpage _ _) (Nat.lt_of_le_of_lt Nat.and_le_right (by norm_num))

variable {m : Memory} {root : ℕ → Prop}

lemma convert_of_walk (h : m.pm.PageTables root) {r va q : ℕ} (hr : root r)
    (hw : walk m.pm.entry r (vaPath va) = some q) : m.convert r va = q + va % 4096 := by
  rw [convert_eq, hw]
  exact page_or_offset (h.page q ⟨r, _, hr, by simp, hw⟩).1 va

lemma walk_eq_none (h : m.pm.PageTables root) {r va : ℕ} (hr : root r)
    (hzero : m.convert r va = 0) : walk m.pm.entry r (vaPath va) = none := by
  cases hw : walk m.pm.entry r (vaPath va) with
  | none => rfl
  | some q =>
    have := (h.reached_lower ⟨r, _, hr, by simp, hw⟩).1
    rw [convert_of_walk h hr hw] at hzero
    omega

/-! ### The byte loop -/

section Rule
variable {σ : Type*} {conv : σ → ℕ → ℕ} {action : ℕ → ℕ → ℕ → σ → σ} {v size : ℕ}

/-- What holds at the offset of a translated chunk must hold after it at the offset behind it. A
chunk lies in one page. -/
def ChunkRule (conv : σ → ℕ → ℕ) (action : ℕ → ℕ → ℕ → σ → σ) (v size : ℕ) (P : ℕ → σ → Prop) :
    Prop :=
  ∀ off len s, 0 < len → off + len ≤ size → (v + off) % 4096 + len ≤ 4096 →
    conv s (u64 (v + off)) ≠ 0 → P off s → P (off + len) (action (conv s (u64 (v + off))) len off s)

/-- Either all bytes were passed on, or the byte after those passed on has no translation. -/
def PassedOn (conv : σ → ℕ → ℕ) (v size : ℕ) (P : ℕ → σ → Prop) (result : Int × σ) : Prop :=
  ∃ n s, P n s ∧ ((result = (0, s) ∧ n = size) ∨
    (result = (-1, s) ∧ n < size ∧ conv s (u64 (v + n)) = 0))

/-- The walk over the pieces, with the bytes before an offset passed on. -/
lemma runPieces_rule {P : ℕ → σ → Prop} (hchunk : ChunkRule conv action v size P) (off left : ℕ)
    (hsize : off + left = size) :
    ∀ s, P off s → PassedOn conv v size P (runPieces conv action v (pieces v off left) s) := by
  induction off, left using pieces.induct v with
  | case1 off =>
    intro s hs
    rw [pieces, if_pos rfl]
    exact ⟨off, s, hs, .inl ⟨rfl, by omega⟩⟩
  | case2 off left hleft len ih =>
    intro s hs
    have hmod := Nat.mod_lt (v + off) (show 4096 > 0 by norm_num)
    rw [pieces, if_neg hleft, runPieces]
    by_cases hzero : conv s (u64 (v + off)) = 0
    · rw [if_pos hzero]
      exact ⟨off, s, hs, .inr ⟨rfl, by omega, hzero⟩⟩
    · rw [if_neg hzero]
      apply ih (by omega)
      exact hchunk off len s (by omega) (by omega) (by omega) hzero hs

/-- The rule of `act_virt`: a property of the bytes passed on so far that every chunk extends holds
at the end. -/
theorem actVirt_rule {P : ℕ → σ → Prop} {s : σ} (hsize : 0 < size) (hv : v < 2 ^ 64)
    (hchunk : ChunkRule conv action v size P) (hs : P 0 s) :
    PassedOn conv v size P (actVirt conv action v size s) := by
  rw [actVirt_eq_runPieces hsize hv]
  exact runPieces_rule hchunk 0 size (Nat.zero_add size) s hs

end Rule

/-! ### Mapped ranges -/

/-- Every byte of the range has a page under the root. -/
def Mapped (m : Memory) (r v size : ℕ) : Prop :=
  ∀ k < size, (walk m.pm.entry r (vaPath (v + k))).isSome = true

/-- Two virtual bytes with one physical address are one byte of one root. -/
theorem convert_injective (h : m.pm.PageTables root) {r r' va va' q q' : ℕ} (hr : root r)
    (hr' : root r') (hva : va < 2 ^ 39) (hva' : va' < 2 ^ 39)
    (hw : walk m.pm.entry r (vaPath va) = some q)
    (hw' : walk m.pm.entry r' (vaPath va') = some q')
    (heq : m.convert r va = m.convert r' va') : r = r' ∧ va = va' := by
  obtain ⟨a, ha⟩ := (h.page q ⟨r, _, hr, by simp, hw⟩).1
  obtain ⟨a', ha'⟩ := (h.page q' ⟨r', _, hr', by simp, hw'⟩).1
  rw [convert_of_walk h hr hw, convert_of_walk h hr' hw'] at heq
  have hq : q = q' := by omega
  subst hq
  obtain ⟨rfl, hpath⟩ := h.forest r r' _ _ q hr hr' (by simp) (by simp) hw hw'
  rw [vaPath_eq_iff hva hva'] at hpath
  exact ⟨rfl, by omega⟩

namespace Mapped
variable {r v size : ℕ}

lemma convert_ne_zero (h : m.pm.PageTables root) (hr : root r) (hm : m.Mapped r v size) {k : ℕ}
    (hk : k < size) : m.convert r (v + k) ≠ 0 := by
  intro hzero
  have := hm k hk
  rw [walk_eq_none h hr hzero] at this
  exact absurd this (by simp)

end Mapped

/-- A chunk inside one page that is translated lies inside one mapped page. -/
lemma chunk_mapped (h : m.pm.PageTables root) {r va len : ℕ} (hr : root r)
    (hne : m.convert r va ≠ 0) (hinside : va % 4096 + len ≤ 4096) :
    ∃ q, walk m.pm.entry r (vaPath va) = some q ∧ m.convert r va = q + va % 4096 ∧
      q ≤ m.convert r va ∧ m.convert r va + len ≤ q + 4096 := by
  cases hw : walk m.pm.entry r (vaPath va) with
  | none =>
    rw [convert_eq, hw] at hne
    exact absurd rfl hne
  | some q =>
    have hphys := convert_of_walk h hr hw
    exact ⟨q, rfl, hphys, by omega, by omega⟩

/-- The bytes of a page have the same table indices. -/
lemma vaPath_same_page {x i : ℕ} (h : x % 4096 + i < 4096) : vaPath (x + i) = vaPath x := by
  simp only [vaPath, vaExtract_zero, vaExtract_one, vaExtract_two, List.cons.injEq, and_true]
  omega

/-- Consecutive bytes of a page have consecutive addresses. -/
lemma convert_add (h : m.pm.PageTables root) {r va i q : ℕ} (hr : root r)
    (hinside : va % 4096 + i < 4096) (hw : walk m.pm.entry r (vaPath va) = some q) :
    m.convert r (va + i) = m.convert r va + i := by
  have hpage : vaPath (va + i) = vaPath va := vaPath_same_page hinside
  rw [convert_of_walk h hr hw, convert_of_walk h hr (hpage ▸ hw)]
  omega

/-! ### Reads -/

/-- A read of a mapped range returns 0 and delivers the bytes of the range. -/
theorem readVirt_bytes (h : m.pm.PageTables root) {r v size : ℕ} (hr : root r) (hsize : 0 < size)
    (hv : v < 2 ^ 64) (hm : ∀ k < size, m.convert r (u64 (v + k)) ≠ 0) (out : ℕ → UInt8) :
    ∃ out', m.readVirt r v size out = (0, out') ∧
      ∀ k < size, out' k = m.pm.byteAt (m.convert r (u64 (v + k))) := by
  have hpassed : PassedOn (fun _ va => m.convert r va) v size
      (fun n (o : ℕ → UInt8) => ∀ k < n, o k = m.pm.byteAt (m.convert r (u64 (v + k))))
      (m.readVirt r v size out) := by
    refine actVirt_rule hsize hv (fun off len o hlen hfits hinside hne ho k hk => ?_) (by simp)
    have hmod : u64 (v + off) % 4096 = (v + off) % 4096 := by
      rw [u64]
      omega
    obtain ⟨q, hq, hphys, hlow, hhigh⟩ := chunk_mapped h hr hne (by rwa [hmod])
    have hback : m.pm.Backed (m.convert r (u64 (v + off))) len :=
      (h.page q ⟨r, _, hr, by simp, hq⟩).2.mono hlow hhigh
    split_ifs with hoff
    · -- addresses wrap at page boundaries only
      have hva : u64 (v + k) = u64 (v + off) + (k - off) := by
        rw [u64, u64] at *
        omega
      have hk' := convert_add h hr (i := k - off) (by omega) hq
      simp only [readData_backed h.ordered hlen hback]
      rw [if_pos (by omega), hva, hk']
    · exact ho k (by omega)
  obtain ⟨n, out', hdone, ⟨heq, rfl⟩ | ⟨-, hn, hzero⟩⟩ := hpassed
  · exact ⟨out', heq, hdone⟩
  · exact absurd hzero (hm n hn)

/-- The same below the 39-bit limit, where no address wraps. -/
theorem readVirt_spec (h : m.pm.PageTables root) {r v size : ℕ} (hr : root r) (hsize : 0 < size)
    (hrange : v + size ≤ 2 ^ 39) (hm : m.Mapped r v size) (out : ℕ → UInt8) :
    ∃ out', m.readVirt r v size out = (0, out') ∧
      ∀ k < size, out' k = m.pm.byteAt (m.convert r (v + k)) := by
  have hva : ∀ k, k < size → u64 (v + k) = v + k := fun k hk => u64_of_lt (by omega)
  have hne : ∀ k < size, m.convert r (u64 (v + k)) ≠ 0 := fun k hk => by
    rw [hva k hk]
    exact hm.convert_ne_zero h hr hk
  obtain ⟨out', heq, hbytes⟩ := readVirt_bytes h hr hsize (by omega) hne out
  exact ⟨out', heq, fun k hk => by rw [hbytes k hk, hva k hk]⟩

/-! ### Writes -/

/-- A mapped page does not meet a table. -/
lemma leaf_not_in_table {pm : PhysicalMemory} (h : pm.PageTables root) {r q x : ℕ} {path : List ℕ}
    (hr : root r) (hpath : path.length = 3) (hq : walk pm.entry r path = some q) (hlow : q ≤ x)
    (hhigh : x < q + 4096) {t : ℕ} (ht : IsTable pm.entry 3 root t) :
    ¬ (t ≤ x ∧ x < t + 4096) := by
  obtain ⟨r', path', hr', hlen', hwt⟩ := ht
  intro hin
  obtain ⟨a, rfl⟩ := (h.page q ⟨r, path, hr, by omega, hq⟩).1
  obtain ⟨b, rfl⟩ := (h.page t ⟨r', path', hr', by omega, hwt⟩).1
  have hab : a = b := by omega
  subst hab
  obtain ⟨-, rfl⟩ := h.forest r r' path path' _ hr hr' (by omega) (by omega) hq hwt
  omega

/-- A write inside one mapped page keeps all tables and every walk. -/
theorem writeLeaf_spec {pm : PhysicalMemory} (h : pm.PageTables root) {r q addr len : ℕ}
    {path : List ℕ} (hr : root r) (hpath : path.length = 3) (hq : walk pm.entry r path = some q)
    (hlen : 0 < len) (hlow : q ≤ addr) (hhigh : addr + len ≤ q + 4096) (data : ℕ → UInt8) :
    (pm.writeData addr len data).2.PageTables root ∧
      ∀ r path, root r → path.length ≤ 3 →
        walk (pm.writeData addr len data).2.entry r path = walk pm.entry r path := by
  have hback := (h.page q ⟨r, path, hr, by omega, hq⟩).2
  have hframes := writeData_sameFrames pm addr len data
  apply h.of_bytes (hframes.ordered h.ordered) (hframes.cursorValid h.cursor)
    (fun q hq => hframes.backed (h.page q hq).2)
  · intro t ht x hx hx'
    rw [writeData_backed h.ordered hlen (hback.mono hlow (by omega)), if_neg]
    exact fun hin => leaf_not_in_table h hr hpath hq (by omega) (by omega) ht ⟨hx, hx'⟩
  · exact fun b hb => .inl (hframes.symm.kept hb)

/-- The memory after the first `n` bytes of a write to the physical addresses `phys`. -/
structure Written (root : ℕ → Prop) (m : Memory) (phys : ℕ → ℕ) (input : ℕ → UInt8) (n : ℕ)
    (m' : Memory) : Prop where
  frames : SameFrames m.pm m'.pm
  tables : m'.pm.PageTables root
  walks : ∀ r path, root r → path.length ≤ 3 → walk m'.pm.entry r path = walk m.pm.entry r path
  done : ∀ k < n, m'.pm.byteAt (phys k) = input k
  others : ∀ x, (∀ k < n, phys k ≠ x) → m'.pm.byteAt x = m.pm.byteAt x

lemma Written.convert {phys : ℕ → ℕ} {input : ℕ → UInt8} {n : ℕ} {m' : Memory}
    (hwr : Written root m phys input n m') {r : ℕ} (hr : root r) (va : ℕ) :
    m'.convert r va = m.convert r va := by
  rw [convert_eq, convert_eq, hwr.walks r _ hr (by simp)]

/-- A write to a mapped range returns 0 and changes the bytes of the range only. -/
theorem writeVirt_spec (h : m.pm.PageTables root) {r v size : ℕ} (hr : root r) (hsize : 0 < size)
    (hrange : v + size ≤ 2 ^ 39) (hm : m.Mapped r v size) (input : ℕ → UInt8) :
    ∃ m', m.writeVirt r v size input = (0, m') ∧
      Written root m (fun k => m.convert r (v + k)) input size m' := by
  have hva : ∀ k, k < size → u64 (v + k) = v + k := fun k hk => u64_of_lt (by omega)
  have hpassed : PassedOn (fun m va => Memory.convert m r va) v size
      (Written root m (fun k => m.convert r (v + k)) input) (m.writeVirt r v size input) := by
    refine actVirt_rule hsize (by omega) (fun off len (m' : Memory) hlen hfits hinside hne hwr => ?_)
      ⟨.refl _, h, fun _ _ _ _ => rfl, by simp, fun _ _ => rfl⟩
    rw [hva off (by omega), hwr.convert hr] at hne ⊢
    obtain ⟨q, hq, hphys, hlow, hhigh⟩ := chunk_mapped h hr hne hinside
    have hstep : ∀ i < len, m.convert r (v + (off + i)) = m.convert r (v + off) + i := by
      intro i hi
      rw [← Nat.add_assoc]
      exact convert_add h hr (by omega) hq
    have hq' := (hwr.walks r _ hr (by simp)).trans hq
    have hback : m'.pm.Backed (m.convert r (v + off)) len :=
      (hwr.tables.page q ⟨r, _, hr, by simp, hq'⟩).2.mono hlow hhigh
    obtain ⟨htables, hwalks⟩ := writeLeaf_spec hwr.tables hr (by simp) hq' hlen hlow hhigh
      fun j => input (off + j)
    refine ⟨hwr.frames.trans (writeData_sameFrames ..), htables, ?_, ?_, ?_⟩
    · exact fun r' path hr' hl => (hwalks r' path hr' hl).trans (hwr.walks r' path hr' hl)
    · intro k hk
      rw [writeData_backed hwr.tables.ordered hlen hback]
      by_cases hoff : off ≤ k
      · have hk' := hstep (k - off) (by omega)
        rw [Nat.add_sub_cancel' hoff] at hk'
        rw [hk', if_pos (by omega)]
        congr 1
        omega
      · rw [if_neg, hwr.done k (by omega)]
        -- an earlier byte of the range is not in this chunk
        intro hin
        obtain ⟨i, hi⟩ := Nat.exists_eq_add_of_le hin.1
        have hi' := hstep i (by omega)
        obtain ⟨q₁, hq₁⟩ := Option.isSome_iff_exists.mp (hm k (by omega))
        obtain ⟨q₂, hq₂⟩ := Option.isSome_iff_exists.mp (hm (off + i) (by omega))
        have := (convert_injective h hr hr (by omega) (by omega) hq₁ hq₂ (hi.trans hi'.symm)).2
        omega
    · intro x hx
      rw [writeData_backed hwr.tables.ordered hlen hback, if_neg, hwr.others x]
      · exact fun k hk => hx k (by omega)
      · intro hin
        have hi := hstep (x - m.convert r (v + off)) (by omega)
        exact hx (off + (x - m.convert r (v + off))) (by omega) (by omega)
  obtain ⟨n, m', hwr, ⟨heq, rfl⟩ | ⟨-, hn, hzero⟩⟩ := hpassed
  · exact ⟨m', heq, hwr⟩
  · rw [hva n hn] at hzero
    have hzero := (hwr.convert hr _).symm.trans hzero
    exact absurd hzero (hm.convert_ne_zero h hr hn)

/-! ### Writes of arbitrary ranges -/

lemma writeData_zero (pm : PhysicalMemory) (addr : ℕ) (data : ℕ → UInt8) :
    (pm.writeData addr 0 data).2 = pm := by
  have hwrite : ∀ (b : Block) base, (b.write base 0 data).2 = b := by
    intro b base
    have hpages : (fun (bytes : ℕ → UInt8) i =>
        if base ≤ i ∧ i < base then data (i - base) else bytes i) = id := by
      funext bytes i
      exact if_neg (by omega)
    simp only [Block.write, Nat.add_zero, Nat.zero_min, hpages, Option.map_id, id]
    split_ifs
    · rfl
    · rfl
  have hblocks : ∀ l : List Block, (writeBlocks addr 0 data l).2 = l := by
    intro l
    induction l with
    | nil => rfl
    | cons b rest ih =>
      simp only [writeBlocks]
      split_ifs
      · rfl
      · rw [hwrite]
      · rw [ih]
  simp [writeData, hblocks]

/-- A memory that differs from `m` only in the bytes of the pages mapped by the root `r`. -/
structure PageWrites (root : ℕ → Prop) (m : Memory) (r : ℕ) (m' : Memory) : Prop where
  frames : SameFrames m.pm m'.pm
  tables : m'.pm.PageTables root
  walks : ∀ r path, root r → path.length ≤ 3 → walk m'.pm.entry r path = walk m.pm.entry r path
  bytes : ∀ x, (∀ va q, walk m.pm.entry r (vaPath va) = some q → ¬ (q ≤ x ∧ x < q + 4096)) →
    m'.pm.byteAt x = m.pm.byteAt x

/-- Whatever the range and the result, a write changes only pages mapped by its root. -/
theorem writeVirt_pageWrites (h : m.pm.PageTables root) {r v : ℕ} (hr : root r) (hv : v < 2 ^ 64)
    (size : ℕ) (input : ℕ → UInt8) : PageWrites root m r (m.writeVirt r v size input).2 := by
  have hrefl : PageWrites root m r m := ⟨.refl _, h, fun _ _ _ _ => rfl, fun _ _ => rfl⟩
  rcases Nat.eq_zero_or_pos size with rfl | hsize
  · have hsame : (m.writeVirt r v 0 input).2 = m := by
      simp only [writeVirt, actVirt]
      split_ifs
      · rfl
      · simp [actVirtLoop, writeData_zero]
    rwa [hsame]
  have hpassed : PassedOn (fun m va => Memory.convert m r va) v size
      (fun _ m' => PageWrites root m r m') (m.writeVirt r v size input) := by
    refine actVirt_rule hsize hv (fun off len (m' : Memory) hlen hfits hinside hne hwr => ?_) hrefl
    have hinside' : u64 (v + off) % 4096 + len ≤ 4096 := by
      rw [u64]
      omega
    obtain ⟨q, hq, hphys, hlow, hhigh⟩ := chunk_mapped hwr.tables hr hne hinside'
    have hback : m'.pm.Backed (m'.convert r (u64 (v + off))) len :=
      (hwr.tables.page q ⟨r, _, hr, by simp, hq⟩).2.mono hlow hhigh
    obtain ⟨htables, hwalks⟩ := writeLeaf_spec hwr.tables hr (by simp) hq hlen hlow hhigh
      fun j => input (off + j)
    refine ⟨hwr.frames.trans (writeData_sameFrames ..), htables, ?_, ?_⟩
    · exact fun r' path hr' hl => (hwalks r' path hr' hl).trans (hwr.walks r' path hr' hl)
    · intro x hx
      rw [writeData_backed hwr.tables.ordered hlen hback, if_neg, hwr.bytes x hx]
      rw [hwr.walks r _ hr (by simp)] at hq
      exact fun hin => hx _ q hq (by omega)
  obtain ⟨n, m', hwr, ⟨heq, -⟩ | ⟨heq, -⟩⟩ := hpassed
  · rwa [heq]
  · rwa [heq]

end Memory
end VentusDriver
