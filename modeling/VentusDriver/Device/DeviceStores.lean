import VentusDriver.Device.SameView
import VentusDriver.Device.Transfers
import VentusDriver.Device.Processor

/-! What the writes of the device do to memory. The device writes by physical addresses, past the page
tables: a write changes the words that its mask selects, whosever they are. One that misses the tables
keeps them, and one that misses the pages of a root is not seen through it. -/
namespace VentusDriver
open Foundation Foundation.Radix Sv39 PhysicalMemory

namespace PhysicalMemory
variable {pm : PhysicalMemory}

lemma writeData_outside (h : pm.Ordered) {addr len x : ℕ} (hlen : 0 < len) (hlt : addr + len < 2 ^ 64)
    (data : ℕ → UInt8) (hx : ¬ (addr ≤ x ∧ x < addr + len)) :
    (pm.writeData addr len data).2.byteAt x = pm.byteAt x := by
  by_cases hsel : pm.Selects addr len
  · rw [writeData_backed h hlen (Sound.backed_of_selects (.inl h) hlt hsel), if_neg hx]
  · rw [writeData_unselected hsel]

/-- The masked loop changes bytes of selected words only, also where there is no storage. -/
lemma writeMasked_outside (h : pm.Ordered) {addr num : ℕ} (haddr : addr + 4 * num < 2 ^ 64)
    (input : ℕ → ℕ) (mask : ℕ → UInt8) {i k : ℕ} (hik : i + k = num) :
    SameFrames pm (writeMasked 4 addr input mask i k pm) ∧ ∀ x,
      ¬ (addr ≤ x ∧ x < addr + 4 * num ∧ maskBit mask ((x - addr) / 4) = true) →
        (writeMasked 4 addr input mask i k pm).byteAt x = pm.byteAt x := by
  induction k generalizing i pm with
  | zero => exact ⟨.refl pm, fun _ _ => rfl⟩
  | succ k ih =>
    rw [writeMasked, u64_of_lt (by omega)]
    by_cases hbit : maskBit mask i = true
    · rw [if_pos hbit]
      have hsame := writeData_sameFrames pm (addr + i * 4) 4 (byteOf (input i))
      obtain ⟨hframes, hbytes⟩ := ih (hsame.ordered h) (i := i + 1) (by omega)
      refine ⟨hsame.trans hframes, fun x hx => (hbytes x hx).trans ?_⟩
      refine writeData_outside h (by norm_num) (by omega) _ fun hin => hx ⟨by omega, by omega, ?_⟩
      rwa [show (x - addr) / 4 = i by omega]
    · rw [if_neg hbit]
      exact ih h (by omega)

end PhysicalMemory

namespace DeviceStore
variable {w : DeviceStore} {m : Memory}

/-- The byte belongs to a word that the mask selects. -/
def Covers (w : DeviceStore) (x : ℕ) : Prop :=
  w.addr ≤ x ∧ x < w.addr + 4 * numThread ∧ w.mask.testBit ((x - w.addr) / 4) = true

/-- No byte of the page is written. -/
def Misses (w : DeviceStore) (q : ℕ) : Prop := ∀ x, q ≤ x → x < q + 4096 → ¬ w.Covers x

theorem perform_spec (h : m.pm.Ordered) : SameFrames m.pm (w.perform m).pm ∧
    ∀ x, ¬ w.Covers x → (w.perform m).pm.byteAt x = m.pm.byteAt x := by
  have hrange : w.addr + 4 * numThread < 2 ^ 64 := by
    have := w.narrow
    simp only [numThread]
    omega
  obtain ⟨hframes, hbytes⟩ := writeMasked_outside h hrange w.data (byteOf w.mask) (i := 0) (Nat.zero_add _)
  refine ⟨hframes, fun x hx => hbytes x ?_⟩
  rwa [maskBit_byteOf]

/-- A write at the translation of a line hits a page that the root maps, or nothing: it misses all
tables, and the pages of the other roots. -/
theorem misses_of_convert {root : ℕ → Prop} (h : m.pm.PageTables root) {r va : ℕ} (hr : root r)
    (hline : 4 * numThread ∣ va) (haddr : w.addr = m.convert r va) {r' q : ℕ} {path : List ℕ} (hr' : root r')
    (hlen : path.length ≤ 3) (hother : r' ≠ r ∨ path.length < 3) (hq : walk m.pm.entry r' path = some q) :
    w.Misses q := by
  have hlower := (h.reached_lower ⟨r', path, hr', hlen, hq⟩).1
  rintro x hlow hhigh ⟨hfrom, hto, -⟩
  simp only [numThread] at hline hto
  by_cases hzero : m.convert r va = 0
  · omega
  · have hinside : va % 4096 + 32 ≤ 4096 := by omega
    obtain ⟨q₀, hq₀, -, hstart, hend⟩ := Memory.chunk_mapped h hr hzero hinside
    -- the two pages meet, so they are one
    obtain ⟨a, rfl⟩ := (h.page q ⟨r', path, hr', hlen, hq⟩).1
    obtain ⟨b, rfl⟩ := (h.page q₀ ⟨r, _, hr, by simp, hq₀⟩).1
    obtain rfl : a = b := by omega
    obtain ⟨hroot, hpath⟩ := h.forest r' r path (vaPath va) _ hr' hr hlen (by simp) hq hq₀
    cases hother with
    | inl hne => exact hne hroot
    | inr hshort =>
      rw [hpath, vaPath_length] at hshort
      omega

end DeviceStore

namespace Memory
variable {m : Memory} {root : ℕ → Prop} {stores : List DeviceStore}

theorem stored_spec (h : m.pm.Ordered) : SameFrames m.pm (m.stored stores).pm ∧
    ∀ x, (∀ w ∈ stores, ¬ w.Covers x) → (m.stored stores).pm.byteAt x = m.pm.byteAt x := by
  induction stores generalizing m with
  | nil => exact ⟨.refl m.pm, fun _ _ => rfl⟩
  | cons w stores ih =>
    obtain ⟨hframes, hbytes⟩ := w.perform_spec h
    obtain ⟨hframes', hbytes'⟩ := ih (hframes.ordered h)
    refine ⟨hframes.trans hframes', fun x hx => ?_⟩
    exact (hbytes' x fun w' hw' => hx w' (List.mem_cons_of_mem _ hw')).trans
      (hbytes x (hx w List.mem_cons_self))

/-- Writes that miss the tables keep them. -/
theorem stored_tables (h : m.pm.PageTables root)
    (hmiss : ∀ w ∈ stores, ∀ q, IsTable m.pm.entry 3 root q → w.Misses q) :
    (m.stored stores).pm.PageTables root ∧ ∀ r path, root r → path.length ≤ 3 →
      walk (m.stored stores).pm.entry r path = walk m.pm.entry r path := by
  obtain ⟨hframes, hbytes⟩ := stored_spec h.ordered
  refine h.of_bytes (hframes.ordered h.ordered) (hframes.cursorValid h.cursor)
    (fun q hq => hframes.backed (h.page q hq).2) (fun q hq x hlow hhigh => ?_) fun b hb => ?_
  · exact hbytes x fun w hw => hmiss w hw q hq x hlow hhigh
  · obtain ⟨c, hc, hframe⟩ := hframes.symm.kept hb
    exact .inl ⟨c, hc, hframe⟩

lemma stored_withCursor (m : Memory) (c : Option ℕ) (stores : List DeviceStore) :
    (m.withCursor c).stored stores = (m.stored stores).withCursor c := by
  have hloop : ∀ (addr : ℕ) (input : ℕ → ℕ) (mask : ℕ → UInt8) (i k : ℕ) (pm : PhysicalMemory),
      writeMasked 4 addr input mask i k { pm with currentBlock := c } =
        { writeMasked 4 addr input mask i k pm with currentBlock := c } := by
    intro addr input mask i k
    induction k generalizing i with
    | zero => exact fun _ => rfl
    | succ k ih =>
      intro pm
      rw [writeMasked, writeMasked, ← ih]
      split_ifs <;> rfl
  induction stores generalizing m with
  | nil => rfl
  | cons w stores ih =>
    have hfirst : w.perform (m.withCursor c) = (w.perform m).withCursor c :=
      congrArg Memory.mk (hloop w.addr w.data (byteOf w.mask) 0 numThread m.pm)
    show (w.perform (m.withCursor c)).stored stores = ((w.perform m).stored stores).withCursor c
    rw [hfirst, ih]

lemma stored_intact (h : m.pm.Intact) (stores : List DeviceStore) : (m.stored stores).pm.Intact := by
  obtain ⟨hframes, -⟩ := @stored_spec _ stores h.ordered
  refine ⟨hframes.ordered h.ordered, h.cursor.imp (fun hnone => ?_) hframes.cursorValid⟩
  rw [hframes.cursor, hnone]

theorem stored_tablesOrLost (h : TablesOrLost root m.pm)
    (hmiss : ∀ w ∈ stores, ∀ q, IsTable m.pm.entry 3 root q → w.Misses q) :
    TablesOrLost root (m.stored stores).pm := by
  cases h with
  | inl hlost =>
    have hsame := stored_withCursor m m.pm.currentBlock stores
    have hcursor := congrArg (fun m' : Memory => m'.pm.currentBlock) hsame
    exact .inl (hcursor.trans hlost)
  | inr h => exact .inr (stored_tables h hmiss).1

theorem Mapping.stored (h : Mapping root m)
    (hmiss : ∀ w ∈ stores, ∀ q, IsTable m.pm.entry 3 root q → w.Misses q) :
    Mapping root (m.stored stores) := by
  intro r hr
  obtain ⟨c, htables⟩ := h r hr
  refine ⟨c, ?_⟩
  rw [← stored_withCursor]
  exact (stored_tables htables hmiss).1

/-- Writes that miss the tables and the pages of a root are not seen through it. -/
theorem Mapping.stored_sameView (h : Mapping root m) {r : ℕ} (hr : root r)
    (hmiss : ∀ w ∈ stores, ∀ q, IsReached m.pm.entry 3 (fun x => x = r) q → w.Misses q) :
    SameView m (m.stored stores) r := by
  obtain ⟨c, htables⟩ := h r hr
  have hown : (m.withCursor c).pm.PageTables fun x => x = r := htables.mono fun x hx => hx ▸ hr
  obtain ⟨-, hwalks⟩ := @stored_tables _ _ stores hown fun w hw q hq => hmiss w hw q hq.isReached
  obtain ⟨-, hbytes⟩ := @stored_spec _ stores htables.ordered
  rw [stored_withCursor] at hwalks hbytes
  refine ⟨fun va => hwalks r (vaPath va) rfl (by simp), fun va q hq x hlow hhigh => ?_⟩
  exact hbytes x fun w hw => hmiss w hw q ⟨r, vaPath va, rfl, by simp, hq⟩ x hlow hhigh

end Memory
end VentusDriver
