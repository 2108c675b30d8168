import VentusDriver.Device.MemoryRules

/-! What a call of `write_data` or `read_data` really moves. A byte is moved when it ends up in, or comes
from, a block with storage; a call moves all of its bytes exactly when one block with storage covers
them. -/
namespace VentusDriver
open Foundation Foundation.Intervals Sv39

namespace PhysicalMemory
variable {pm : PhysicalMemory} {addr len : ℕ}

/-- The blocks are in order, or none of them has storage. -/
def Sound (pm : PhysicalMemory) : Prop := pm.Ordered ∨ ∀ b ∈ pm.blocks, b.pages = none

/-- The block that an access selects has storage. -/
def Selects (pm : PhysicalMemory) (addr len : ℕ) : Prop :=
  ∃ b ∈ pm.blocks.find? fun b => decide (spans b addr len), b.empty = false

lemma Sound.of_sameFrames {pm' : PhysicalMemory} (h : pm.Sound) (hs : SameFrames pm pm') : pm'.Sound := by
  cases h with
  | inl hord => exact .inl (hs.ordered hord)
  | inr hbare =>
    refine .inr fun b hb => ?_
    obtain ⟨c, hc, hframe⟩ := hs.symm.kept hb
    have hpages := (Block.span_of_frame hframe).2.2
    rw [hbare c hc] at hpages
    exact Option.isSome_eq_false_iff.mp hpages.symm |> Option.isNone_iff_eq_none.mp

lemma not_backed_of_bare (hbare : ∀ b ∈ pm.blocks, b.pages = none) : ¬ pm.Backed addr len := by
  intro hb
  obtain ⟨b, hmem, hsome, -⟩ := hb
  rw [hbare b hmem] at hsome
  cases hsome

lemma not_selects_of_bare (hbare : ∀ b ∈ pm.blocks, b.pages = none) : ¬ pm.Selects addr len := by
  intro hsel
  obtain ⟨b, hfind, hempty⟩ := hsel
  rw [Block.empty, hbare b (List.mem_of_find?_eq_some hfind)] at hempty
  cases hempty

/-- A range with storage does not reach the end of the address space. -/
lemma Sound.backed_lt (h : pm.Sound) (hb : pm.Backed addr len) : addr + len < 2 ^ 57 := by
  cases h with
  | inl hord => exact hb.lt hord
  | inr hbare => exact absurd hb (not_backed_of_bare hbare)

/-- A selected block covers the range, unless the end of the range wraps. -/
lemma Sound.backed_of_selects (h : pm.Sound) (hlt : addr + len < 2 ^ 64) (hsel : pm.Selects addr len) :
    pm.Backed addr len := by
  cases h with
  | inl hord =>
    obtain ⟨b, hfind, hempty⟩ := hsel
    have hmem := List.mem_of_find?_eq_some hfind
    have hspans := of_decide_eq_true (List.find?_some (p := fun c => decide (spans c addr len)) hfind)
    have hsome : b.pages.isSome = true := by
      rwa [Block.empty, Option.isNone_eq_false_iff] at hempty
    exact ⟨b, hmem, hsome, (spans_iff hord hmem hlt).mp hspans⟩
  | inr hbare => exact absurd hsel (not_selects_of_bare hbare)

/-- A write reports whether it selected a block with storage. -/
lemma writeData_status_iff (pm : PhysicalMemory) (addr len : ℕ) (data : ℕ → UInt8) :
    (pm.writeData addr len data).1 = 0 ↔ pm.Selects addr len := by
  have hblocks : ∀ l : List Block, (writeBlocks addr len data l).1 = 0 ↔
      ∃ b ∈ l.find? fun b => decide (spans b addr len), b.empty = false := by
    intro l
    induction l with
    | nil => simp [writeBlocks]
    | cons b rest ih =>
      rw [writeBlocks]
      by_cases hspans : spans b addr len
      · cases hempty : b.empty with
        | true => simp [hspans, hempty]
        | false => simp [hspans, hempty]
      · simp [hspans, ih]
  exact hblocks pm.blocks

lemma writeBlocks_unselected {data : ℕ → UInt8} {l : List Block}
    (h : ∀ b ∈ l.find? fun b => decide (spans b addr len), b.empty = true) :
    (writeBlocks addr len data l).2 = l := by
  induction l with
  | nil => rfl
  | cons b rest ih =>
    rw [writeBlocks]
    by_cases hspans : spans b addr len
    · have hempty := h b (by simp [hspans])
      simp [hspans, hempty]
    · have hrest := ih (by simpa [hspans] using h)
      simp [hspans, hrest]

/-- A write that selects no block with storage changes nothing. -/
lemma writeData_unselected (h : ¬ pm.Selects addr len) (data : ℕ → UInt8) :
    (pm.writeData addr len data).2 = pm := by
  have hblocks : (writeBlocks addr len data pm.blocks).2 = pm.blocks := by
    apply writeBlocks_unselected
    intro b hb
    rw [← Bool.not_eq_false]
    exact fun hempty => h ⟨b, hb, hempty⟩
  simp [writeData, hblocks]

/-- A read that selects no block with storage leaves the buffer. -/
lemma readData_unselected (h : ¬ pm.Selects addr len) (out : ℕ → UInt8) :
    (pm.readData addr len out).2 = out := by
  rw [readData, readBlocks_eq]
  cases hfind : pm.blocks.find? fun b => decide (spans b addr len) with
  | none => rfl
  | some b =>
    have hempty : b.empty = true := by
      rw [← Bool.not_eq_false]
      exact fun hempty => h ⟨b, hfind, hempty⟩
    simp [hempty]

end PhysicalMemory

/-! ### Transfers -/

inductive Direction
  | store
  | fetch
  deriving DecidableEq, Repr

/-- A call of `write_data` or `read_data`: the memory before it, its range, and where its bytes stand in
the buffer of the caller. -/
structure Transfer where
  direction : Direction
  pm : PhysicalMemory
  addr : ℕ
  len : ℕ
  off : ℕ

namespace Transfer

def stop (t : Transfer) : ℕ := t.off + t.len

/-- The address for a byte of the buffer. -/
def target (t : Transfer) (k : ℕ) : ℕ := u64 (t.addr + (k - t.off))

/-- The address of the byte is in a block with storage. Whatever was passed, it holds the byte of the
buffer after a store; whatever the buffer held, the byte is in the buffer after a fetch. -/
def Moves (t : Transfer) (k : ℕ) : Prop :=
  Contains off stop t k ∧ t.pm.Backed (t.target k) 1 ∧
    match t.direction with
    | .store => ∀ data, (t.pm.writeData t.addr t.len data).2.byteAt (t.target k) = data (k - t.off)
    | .fetch => ∀ out, (t.pm.readData t.addr t.len out).2 (k - t.off) = t.pm.byteAt (t.target k)

variable {t : Transfer}

lemma moves_of_backed (hs : t.pm.Sound) (hb : t.pm.Backed t.addr t.len) {k : ℕ}
    (hk : Contains off stop t k) : t.Moves k := by
  have hlt := hs.backed_lt hb
  obtain ⟨hlow, hhigh⟩ := hk
  rw [stop] at hhigh
  have htarget : t.target k = t.addr + (k - t.off) := u64_of_lt (by omega)
  have hord : t.pm.Ordered := hs.resolve_right fun hbare => PhysicalMemory.not_backed_of_bare hbare hb
  refine ⟨⟨hlow, hhigh⟩, ?_, ?_⟩
  · rw [htarget]
    obtain ⟨b, hmem, hsome, hstart, hend⟩ := hb
    exact ⟨b, hmem, hsome, by omega, by omega⟩
  · rw [htarget]
    cases hdir : t.direction with
    | store =>
      intro data
      rw [PhysicalMemory.writeData_backed hord (by omega) hb, if_pos ⟨by omega, by omega⟩,
        Nat.add_sub_cancel_left]
    | fetch =>
      intro out
      rw [PhysicalMemory.readData_backed hord (by omega) hb]
      exact if_pos (by omega)

/-- A call that moves all of its bytes has one block with storage for them. -/
lemma backed_of_moves (hs : t.pm.Sound) (haddr : t.addr < 2 ^ 64) (hlen : 0 < t.len)
    (hall : ∀ k, Contains off stop t k → t.Moves k) : t.pm.Backed t.addr t.len := by
  by_cases hlt : t.addr + t.len < 2 ^ 64
  · apply hs.backed_of_selects hlt
    by_contra hnot
    -- a call that selects no block with storage does not depend on what is passed
    obtain ⟨-, -, hmoved⟩ := hall t.off ⟨le_rfl, Nat.lt_add_of_pos_right hlen⟩
    cases hdir : t.direction with
    | store =>
      rw [hdir] at hmoved
      have h₀ := hmoved fun _ => 0
      have h₁ := hmoved fun _ => 1
      rw [PhysicalMemory.writeData_unselected hnot] at h₀ h₁
      exact absurd (h₀.symm.trans h₁) (by decide)
    | fetch =>
      rw [hdir] at hmoved
      have h₀ := hmoved fun _ => 0
      have h₁ := hmoved fun _ => 1
      rw [PhysicalMemory.readData_unselected hnot] at h₀ h₁
      exact absurd (h₀.trans h₁.symm) (by decide)
  · -- the last byte of the address space is in no block
    have hk : Contains off stop t (t.off + (2 ^ 64 - 1 - t.addr)) := by
      refine ⟨Nat.le_add_right _ _, ?_⟩
      rw [stop]
      omega
    have hback := (hall _ hk).2.1
    have hlast : t.target (t.off + (2 ^ 64 - 1 - t.addr)) = 2 ^ 64 - 1 := by
      rw [target, Nat.add_sub_cancel_left, u64_of_lt (by omega)]
      omega
    rw [hlast] at hback
    have := hs.backed_lt hback
    omega

/-- A call moves all of its bytes exactly when it has none or one block with storage covers them. -/
theorem moves_iff (hs : t.pm.Sound) (haddr : t.addr < 2 ^ 64) :
    (∀ k, Contains off stop t k → t.Moves k) ↔ t.len = 0 ∨ t.pm.Backed t.addr t.len := by
  constructor
  · intro hall
    cases Nat.eq_zero_or_pos t.len with
    | inl hzero => exact .inl hzero
    | inr hpos => exact .inr (backed_of_moves hs haddr hpos hall)
  · intro hcond k hk
    cases hcond with
    | inl hzero =>
      obtain ⟨hlow, hhigh⟩ := hk
      rw [stop] at hhigh
      omega
    | inr hb => exact moves_of_backed hs hb hk

/-- Calls for separate parts of a buffer move all bytes of these parts exactly when each moves its own. -/
theorem all_moved_iff {ts : List Transfer} {asked : ℕ → Prop} (hasc : Ascending off stop ts)
    (hasked : ∀ k, asked k ↔ ∃ t ∈ ts, Contains off stop t k)
    (hs : ∀ t ∈ ts, t.pm.Sound ∧ t.addr < 2 ^ 64) :
    (∀ k, asked k → ∃ t ∈ ts, t.Moves k) ↔ ∀ t ∈ ts, t.len = 0 ∨ t.pm.Backed t.addr t.len := by
  have heach : (∀ k, asked k → ∃ t ∈ ts, t.Moves k) ↔ ∀ t ∈ ts, ∀ k, Contains off stop t k → t.Moves k := by
    constructor
    · intro hall t ht k hk
      obtain ⟨t', ht', hmoved⟩ := hall k ((hasked k).mpr ⟨t, ht, hk⟩)
      rw [hasc.mem_unique ht ht' hk hmoved.1]
      exact hmoved
    · intro hall k hk
      obtain ⟨t, ht, hin⟩ := (hasked k).mp hk
      exact ⟨t, ht, hall t ht k hin⟩
  rw [heach]
  exact forall₂_congr fun t ht => moves_iff (hs t ht).1 (hs t ht).2

end Transfer
end VentusDriver
