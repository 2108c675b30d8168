import VentusDriver.Device.Transfers
import VentusDriver.Device.VirtualPieces

/-! The status codes of the accesses to device memory. Every access comes down to calls of `write_data` and
`read_data`; `write_phy` of bytes and of a value passes their status on, all other accesses drop it. -/
namespace VentusDriver
open Foundation Foundation.Intervals Sv39

namespace PhysicalMemory
variable {pm : PhysicalMemory}

lemma Sound.writeData (h : pm.Sound) (addr len : ℕ) (data : ℕ → UInt8) :
    (pm.writeData addr len data).2.Sound :=
  h.of_sameFrames (writeData_sameFrames pm addr len data)

end PhysicalMemory

/-! ### One call -/

namespace Transfer
variable {pm : PhysicalMemory} {addr : ℕ}

lemma single_iff (direction : Direction) (hs : pm.Sound) (haddr : addr < 2 ^ 64) (len : ℕ) :
    (∀ k < len, ∃ t ∈ [(⟨direction, pm, addr, len, 0⟩ : Transfer)], t.Moves k) ↔
      len = 0 ∨ pm.Backed addr len := by
  have hasked : ∀ k, k < len ↔ ∃ t ∈ [(⟨direction, pm, addr, len, 0⟩ : Transfer)], Contains off stop t k := by
    simp [Contains, stop]
  have hsound : ∀ t ∈ [(⟨direction, pm, addr, len, 0⟩ : Transfer)], t.pm.Sound ∧ t.addr < 2 ^ 64 := by
    rw [List.forall_mem_singleton]
    exact ⟨hs, haddr⟩
  rw [all_moved_iff (List.pairwise_singleton _ _) hasked hsound, List.forall_mem_singleton]

/-- An array is passed with its size in bytes reduced to 64 bits. -/
lemma array_iff (direction : Direction) (hs : pm.Sound) (haddr : addr < 2 ^ 64) (size : ℕ) :
    (∀ k < size, ∃ t ∈ [(⟨direction, pm, addr, u64 size, 0⟩ : Transfer)], t.Moves k) ↔
      size = 0 ∨ pm.Backed addr size := by
  by_cases hsize : size < 2 ^ 64
  · rw [u64_of_lt hsize]
    exact single_iff direction hs haddr size
  · have hlow : u64 size < 2 ^ 64 := Nat.mod_lt _ (by norm_num)
    apply iff_of_false
    · -- the byte behind the reduced size is not passed on
      intro hall
      obtain ⟨t, ht, hmoved⟩ := hall (u64 size) (by omega)
      obtain rfl := List.mem_singleton.mp ht
      have hin : u64 size < 0 + u64 size := hmoved.1.2
      omega
    · intro hcond
      cases hcond with
      | inl hzero => omega
      | inr hb =>
        have := hs.backed_lt hb
        omega

end Transfer

/-! ### Masked writes -/

namespace PhysicalMemory
variable {n addr : ℕ} {input : ℕ → ℕ} {mask : ℕ → UInt8}

/-- The calls of `write_data` in the masked loop of `write<T>`. -/
def maskedTransfers (n addr : ℕ) (input : ℕ → ℕ) (mask : ℕ → UInt8) : ℕ → ℕ → PhysicalMemory → List Transfer
  | _, 0, _ => []
  | i, k + 1, pm =>
    if maskBit mask i then
      ⟨.store, pm, u64 (addr + i * n), n, i * n⟩ ::
        maskedTransfers n addr input mask (i + 1) k (pm.writeValue n (u64 (addr + i * n)) (input i)).2
    else maskedTransfers n addr input mask (i + 1) k pm

/-- A call is for a word whose mask bit is set. -/
lemma maskedTransfers_word (i k : ℕ) (pm : PhysicalMemory) :
    ∀ t ∈ maskedTransfers n addr input mask i k pm, ∃ j, i ≤ j ∧ j < i + k ∧ maskBit mask j = true ∧
      SameFrames pm t.pm ∧ t.addr = u64 (addr + j * n) ∧ t.len = n ∧ t.off = j * n := by
  induction k generalizing i pm with
  | zero => simp [maskedTransfers]
  | succ k ih =>
    intro t ht
    rw [maskedTransfers] at ht
    by_cases hbit : maskBit mask i = true
    · rw [if_pos hbit] at ht
      cases List.mem_cons.mp ht with
      | inl heq =>
        rw [heq]
        exact ⟨i, le_rfl, by omega, hbit, .refl pm, rfl, rfl, rfl⟩
      | inr hrest =>
        obtain ⟨j, hlow, hhigh, hj, hframes, hrest⟩ := ih (i + 1) _ t hrest
        exact ⟨j, by omega, by omega, hj, (writeData_sameFrames ..).trans hframes, hrest⟩
    · rw [if_neg hbit] at ht
      obtain ⟨j, hlow, hhigh, hrest⟩ := ih (i + 1) pm t ht
      exact ⟨j, by omega, by omega, hrest⟩

/-- Every word whose mask bit is set has a call. -/
lemma maskedTransfers_call {j : ℕ} (hbit : maskBit mask j = true) (i k : ℕ) (hlow : i ≤ j) (hhigh : j < i + k)
    (pm : PhysicalMemory) : ∃ t ∈ maskedTransfers n addr input mask i k pm, t.off = j * n := by
  induction k generalizing i pm with
  | zero => omega
  | succ k ih =>
    rw [maskedTransfers]
    cases Nat.eq_or_lt_of_le hlow with
    | inl heq =>
      rw [heq, if_pos hbit]
      exact ⟨_, List.mem_cons_self, rfl⟩
    | inr hlt =>
      by_cases hi : maskBit mask i = true
      · rw [if_pos hi]
        exact List.exists_mem_cons_of_exists (ih (i + 1) hlt (by omega) _)
      · rw [if_neg hi]
        exact ih (i + 1) hlt (by omega) pm

lemma maskedTransfers_ascending (i k : ℕ) (pm : PhysicalMemory) :
    Ascending Transfer.off Transfer.stop (maskedTransfers n addr input mask i k pm) := by
  induction k generalizing i pm with
  | zero => exact List.Pairwise.nil
  | succ k ih =>
    rw [maskedTransfers]
    by_cases hbit : maskBit mask i = true
    · rw [if_pos hbit]
      refine List.pairwise_cons.mpr ⟨fun t ht => ?_, ih _ _⟩
      obtain ⟨j, hlow, -, -, -, -, -, hoff⟩ := maskedTransfers_word _ _ _ t ht
      rw [hoff, Transfer.stop]
      calc i * n + n = (i + 1) * n := (Nat.succ_mul i n).symm
        _ ≤ j * n := Nat.mul_le_mul_right n hlow
    · rw [if_neg hbit]
      exact ih _ _

theorem masked_iff {pm : PhysicalMemory} (hs : pm.Sound) (hn : 0 < n) (num : ℕ) :
    (∀ k, k < num * n ∧ maskBit mask (k / n) = true →
      ∃ t ∈ maskedTransfers n addr input mask 0 num pm, t.Moves k) ↔
    ∀ i < num, maskBit mask i = true → pm.Backed (u64 (addr + i * n)) n := by
  have hasked : ∀ k, k < num * n ∧ maskBit mask (k / n) = true ↔
      ∃ t ∈ maskedTransfers n addr input mask 0 num pm, Contains Transfer.off Transfer.stop t k := by
    intro k
    constructor
    · intro hk
      obtain ⟨t, ht, hoff⟩ := maskedTransfers_call hk.2 0 num (Nat.zero_le _)
        (by rw [Nat.zero_add]; exact Nat.div_lt_of_lt_mul (Nat.mul_comm num n ▸ hk.1)) pm
      obtain ⟨j, -, -, -, -, -, hlen, -⟩ := maskedTransfers_word _ _ _ t ht
      refine ⟨t, ht, ?_, ?_⟩
      · rw [hoff]
        exact Nat.div_mul_le_self k n
      · rw [Transfer.stop, hoff, hlen]
        exact Nat.lt_div_mul_add hn
    · intro hk
      obtain ⟨t, ht, hlow, hhigh⟩ := hk
      obtain ⟨j, -, hj, hbit, -, -, hlen, hoff⟩ := maskedTransfers_word _ _ _ t ht
      rw [Transfer.stop, hlen] at hhigh
      rw [hoff] at hlow hhigh
      have hdiv : k / n = j := Nat.div_eq_of_lt_le hlow (by rwa [Nat.succ_mul])
      rw [hdiv]
      refine ⟨?_, hbit⟩
      calc k < j * n + n := hhigh
        _ = (j + 1) * n := (Nat.succ_mul j n).symm
        _ ≤ num * n := Nat.mul_le_mul_right n (by omega)
  have hsound : ∀ t ∈ maskedTransfers n addr input mask 0 num pm, t.pm.Sound ∧ t.addr < 2 ^ 64 := by
    intro t ht
    obtain ⟨j, -, -, -, hframes, haddr, -⟩ := maskedTransfers_word _ _ _ t ht
    rw [haddr]
    exact ⟨hs.of_sameFrames hframes, Nat.mod_lt _ (by norm_num)⟩
  rw [Transfer.all_moved_iff (maskedTransfers_ascending 0 num pm) hasked hsound]
  constructor
  · intro hall i hi hbit
    obtain ⟨t, ht, hcall⟩ := @maskedTransfers_call n addr input mask i hbit 0 num (Nat.zero_le i) (by omega) pm
    obtain ⟨j, -, -, -, hframes, haddr, hlen, hoff⟩ := maskedTransfers_word _ _ _ t ht
    have hij : i = j := Nat.eq_of_mul_eq_mul_right hn (hcall.symm.trans hoff)
    have hback := hall t ht
    rw [haddr, hlen, ← hij] at hback
    cases hback with
    | inl hzero => omega
    | inr hback => exact hframes.symm.backed hback
  · intro hall t ht
    obtain ⟨j, -, hj, hbit, hframes, haddr, hlen, -⟩ := maskedTransfers_word _ _ _ t ht
    rw [haddr, hlen]
    exact .inr (hframes.backed (hall j (by omega) hbit))

end PhysicalMemory

/-! ### Virtual ranges -/

namespace Memory

/-- The action of `read_virt`. -/
def fetchChunk (m : Memory) (addr len off : ℕ) (out : ℕ → UInt8) : ℕ → UInt8 :=
  fun i => if off ≤ i then (m.pm.readData addr len fun j => out (off + j)).2 (i - off) else out i

/-- The action of `write_virt`. -/
def storeChunk (input : ℕ → UInt8) (addr len off : ℕ) (m : Memory) : Memory :=
  ⟨(m.pm.writeData addr len fun j => input (off + j)).2⟩

section Virtual
variable {σ : Type*} (direction : Direction) (pm : σ → PhysicalMemory) (conv : σ → ℕ → ℕ)
  (action : ℕ → ℕ → ℕ → σ → σ) (v size : ℕ) (s : σ)

/-- The calls of `read_data` or `write_data` that the actions of `act_virt` make. -/
def virtTransfers : List Transfer :=
  (actVirt (fun s => conv s.1)
    (noting action fun s addr len off => (⟨direction, pm s, addr, len, off⟩ : Transfer)) v size (s, [])).2.2

/-- The pieces of the range in their turns. -/
def virtTurns : List (σ × Piece) := turns conv action v (pieces v 0 size) s

/-- Some piece has no translation in its turn, or each is translated to storage. -/
def StopsOrStored : Prop :=
  (∃ t ∈ virtTurns conv action v size s, conv t.1 (u64 (v + t.2.off)) = 0) ∨
    ∀ t ∈ virtTurns conv action v size s, (pm t.1).Backed (conv t.1 (u64 (v + t.2.off))) t.2.len

variable {direction pm conv action v size s}

lemma virtTurns_tiles : Tiles (Piece.off ∘ Prod.snd) (Piece.stop ∘ Prod.snd) 0
    (virtTurns conv action v size s) size := by
  have htiles := (pieces_tiles v 0 size).1
  rw [Nat.zero_add] at htiles
  apply Tiles.of_map
  rwa [virtTurns, turns_pieces]

/-- `act_virt` drops what the calls of its action report: its result is 0 when all pieces are translated,
and then all bytes were moved only if the translations are in storage. -/
theorem actVirt_moved_iff (hv : v < 2 ^ 64) (hconv : ∀ s va, conv s va < 2 ^ 64)
    (haction : ∀ addr len off s, (pm s).Sound → (pm (action addr len off s)).Sound) (hs : (pm s).Sound) :
    ((actVirt conv action v size s).1 = 0 →
      ∀ k < size, ∃ t ∈ virtTransfers direction pm conv action v size s, t.Moves k) ↔
    StopsOrStored pm conv action v size s := by
  have htiles := @virtTurns_tiles σ conv action v size s
  cases Nat.eq_zero_or_pos size with
  | inl hzero =>
    -- no byte and no piece
    subst hzero
    refine iff_of_true (fun _ k hk => absurd hk (Nat.not_lt_zero k)) (.inr fun t ht => ?_)
    have hin := htiles.contains_iff.mp ⟨t, ht, le_rfl, htiles.proper t ht⟩
    exact absurd hin.2 (Nat.not_lt_zero _)
  | inr hpos =>
    rw [actVirt_eq_runPieces hpos hv, runPieces_status_iff, virtTransfers, actVirt_eq_runPieces hpos hv]
    by_cases hall : ∀ t ∈ virtTurns conv action v size s, conv t.1 (u64 (v + t.2.off)) ≠ 0
    · have hstop : ¬ ∃ t ∈ virtTurns conv action v size s, conv t.1 (u64 (v + t.2.off)) = 0 := by
        intro hstop
        obtain ⟨t, ht, hzero⟩ := hstop
        exact hall t ht hzero
      rw [runPieces_noting [] hall, List.nil_append, StopsOrStored, or_iff_right hstop]
      let call := fun t : σ × Piece =>
        (⟨direction, pm t.1, conv t.1 (u64 (v + t.2.off)), t.2.len, t.2.off⟩ : Transfer)
      have hasc : Ascending Transfer.off Transfer.stop ((virtTurns conv action v size s).map call) :=
        List.pairwise_map.mpr htiles.ascending
      have hasked : ∀ k, k < size ↔
          ∃ t ∈ (virtTurns conv action v size s).map call, Contains Transfer.off Transfer.stop t k := by
        intro k
        simp only [List.mem_map, exists_exists_and_eq_and]
        exact ⟨fun hk => htiles.contains_iff.mpr ⟨Nat.zero_le k, hk⟩, fun hk => (htiles.contains_iff.mp hk).2⟩
      have hsound : ∀ t ∈ (virtTurns conv action v size s).map call, t.pm.Sound ∧ t.addr < 2 ^ 64 := by
        rw [List.forall_mem_map]
        exact fun t ht => ⟨turns_keep (P := fun s => (pm s).Sound) haction hs t ht, hconv _ _⟩
      have hmoved := Transfer.all_moved_iff hasc hasked hsound
      rw [List.forall_mem_map] at hmoved
      constructor
      · intro hstatus t ht
        have hlen : t.2.off < t.2.off + t.2.len := htiles.proper t ht
        exact (hmoved.mp (hstatus hall) t ht).resolve_left fun hzero => by
          rw [show t.2.len = 0 from hzero] at hlen
          exact absurd hlen (Nat.lt_irrefl _)
      · intro hstored _
        exact hmoved.mpr fun t ht => .inr (hstored t ht)
    · refine iff_of_true (fun hstatus => absurd hstatus hall) (.inl ?_)
      push Not at hall
      exact hall

end Virtual
end Memory

/-! ### Accesses -/

/-- A call of `write_phy`, `read_phy`, `write_virt` or `read_virt`. A reading call has the buffer before it. -/
inductive Access
  | writeBytes (addr len : ℕ) (data : ℕ → UInt8)
  | writeValue (n addr value : ℕ)
  | writeArray (n addr num : ℕ) (input : ℕ → ℕ) (mask : Option (ℕ → UInt8))
  | readBytes (addr len : ℕ) (out : ℕ → UInt8)
  | readArray (n addr num : ℕ) (data : ℕ → ℕ) (mask : Option (ℕ → UInt8))
  | writeVirt (root vAddr size : ℕ) (input : ℕ → UInt8)
  | readVirt (root vAddr size : ℕ) (out : ℕ → UInt8)

namespace Access
open Memory PhysicalMemory

/-- Addresses and the length of a byte access are 64-bit values; a type has a size. -/
def WellTyped : Access → Prop
  | .writeBytes addr len _ => addr < 2 ^ 64 ∧ len < 2 ^ 64
  | .writeValue n addr _ => 0 < n ∧ addr < 2 ^ 64
  | .writeArray n addr _ _ _ => 0 < n ∧ addr < 2 ^ 64
  | .readBytes addr len _ => addr < 2 ^ 64 ∧ len < 2 ^ 64
  | .readArray n addr _ _ _ => 0 < n ∧ addr < 2 ^ 64
  | .writeVirt _ vAddr _ _ => vAddr < 2 ^ 64
  | .readVirt _ vAddr _ _ => vAddr < 2 ^ 64

/-- What the call returns. -/
def status (m : Memory) : Access → Int
  | .writeBytes addr len data => (m.writePhyBytes addr len data).1
  | .writeValue n addr value => (m.writePhyValue n addr value).1
  | .writeArray n addr num input mask => (m.writePhy n addr num input mask).1
  | .readBytes addr len out => (m.readPhyBytes addr len out).1
  | .readArray n addr num data mask => (m.readPhy n addr num data mask).1
  | .writeVirt root vAddr size input => (m.writeVirt root vAddr size input).1
  | .readVirt root vAddr size out => (m.readVirt root vAddr size out).1

/-- The memory behind the call. -/
def memory (m : Memory) : Access → Memory
  | .writeBytes addr len data => (m.writePhyBytes addr len data).2
  | .writeValue n addr value => (m.writePhyValue n addr value).2
  | .writeArray n addr num input mask => (m.writePhy n addr num input mask).2
  | .writeVirt root vAddr size input => (m.writeVirt root vAddr size input).2
  | .readBytes .. => m
  | .readArray .. => m
  | .readVirt .. => m

/-- The calls of `write_data` and `read_data` below it. -/
def transfers (m : Memory) : Access → List Transfer
  | .writeBytes addr len _ => [⟨.store, m.pm, addr, len, 0⟩]
  | .writeValue n addr _ => [⟨.store, m.pm, addr, n, 0⟩]
  | .writeArray n addr num _ none => [⟨.store, m.pm, addr, u64 (num * n), 0⟩]
  | .writeArray n addr num input (some mask) => maskedTransfers n addr input mask 0 num m.pm
  | .readBytes addr len _ => [⟨.fetch, m.pm, addr, len, 0⟩]
  | .readArray n addr num _ _ => [⟨.fetch, m.pm, addr, u64 (num * n), 0⟩]
  | .writeVirt root vAddr size input =>
    virtTransfers .store Memory.pm (fun m va => m.convert root va) (storeChunk input) vAddr size m
  | .readVirt root vAddr size out =>
    virtTransfers .fetch (fun _ => m.pm) (fun _ va => m.convert root va) m.fetchChunk vAddr size out

/-- The byte of the buffer is to be transferred. -/
def Asks : Access → ℕ → Prop
  | .writeBytes _ len _, k => k < len
  | .writeValue n _ _, k => k < n
  | .writeArray n _ num _ none, k => k < num * n
  | .writeArray n _ num _ (some mask), k => k < num * n ∧ maskBit mask (k / n) = true
  | .readBytes _ len _, k => k < len
  | .readArray n _ num _ _, k => k < num * n
  | .writeVirt _ _ size _, k => k < size
  | .readVirt _ _ size _, k => k < size

/-- The call returns 0 only if every byte that it is asked for was moved. -/
def Faithful (m : Memory) (a : Access) : Prop :=
  a.status m = 0 → ∀ k, a.Asks k → ∃ t ∈ a.transfers m, t.Moves k

/-- A call that reports what happened needs nothing but a range that does not wrap around to an allocated
block; a call that returns 0 in any case needs storage for all that it touches. -/
def Covered (m : Memory) : Access → Prop
  | .writeBytes addr len _ => addr + len < 2 ^ 64 ∨ ¬ m.pm.Selects addr len
  | .writeValue n addr _ => addr + n < 2 ^ 64 ∨ ¬ m.pm.Selects addr n
  | .writeArray n addr num _ none => num * n = 0 ∨ m.pm.Backed addr (num * n)
  | .writeArray n addr num _ (some mask) =>
    ∀ i < num, maskBit mask i = true → m.pm.Backed (u64 (addr + i * n)) n
  | .readBytes addr len _ => len = 0 ∨ m.pm.Backed addr len
  | .readArray n addr num _ _ => num * n = 0 ∨ m.pm.Backed addr (num * n)
  | .writeVirt root vAddr size input =>
    StopsOrStored Memory.pm (fun m va => m.convert root va) (storeChunk input) vAddr size m
  | .readVirt root vAddr size _ =>
    (∃ p ∈ pieces vAddr 0 size, m.convert root (u64 (vAddr + p.off)) = 0) ∨
      ∀ p ∈ pieces vAddr 0 size, m.pm.Backed (m.convert root (u64 (vAddr + p.off))) p.len

variable {m : Memory}

/-- A call that passes the status of its write on is wrong about wrapping ranges only. -/
lemma reported_iff {pm : PhysicalMemory} {addr len : ℕ} (hs : pm.Sound) (haddr : addr < 2 ^ 64)
    (data : ℕ → UInt8) :
    ((pm.writeData addr len data).1 = 0 →
      ∀ k < len, ∃ t ∈ [(⟨.store, pm, addr, len, 0⟩ : Transfer)], t.Moves k) ↔
    addr + len < 2 ^ 64 ∨ ¬ pm.Selects addr len := by
  rw [writeData_status_iff, Transfer.single_iff .store hs haddr len]
  constructor
  · intro hfaithful
    by_contra hnot
    push Not at hnot
    cases hfaithful hnot.2 with
    | inl hzero => omega
    | inr hb =>
      have := hs.backed_lt hb
      omega
  · intro hcond hsel
    cases hcond with
    | inl hlt => exact .inr (hs.backed_of_selects hlt hsel)
    | inr hnot => exact absurd hsel hnot

/-- The pieces of a read are translated in the memory before it. -/
lemma stopsOrStored_fetch {root v size : ℕ} {out : ℕ → UInt8} :
    StopsOrStored (fun _ => m.pm) (fun _ va => m.convert root va) m.fetchChunk v size out ↔
    (∃ p ∈ pieces v 0 size, m.convert root (u64 (v + p.off)) = 0) ∨
      ∀ p ∈ pieces v 0 size, m.pm.Backed (m.convert root (u64 (v + p.off))) p.len := by
  rw [StopsOrStored, virtTurns, exists_turns (Q := fun p => m.convert root (u64 (v + p.off)) = 0),
    forall_turns (Q := fun p => m.pm.Backed (m.convert root (u64 (v + p.off))) p.len)]

theorem faithful_iff_covered (hs : m.pm.Sound) {a : Access} (ha : a.WellTyped) : a.Faithful m ↔ a.Covered m := by
  cases a with
  | writeBytes addr len data => exact reported_iff hs ha.1 data
  | writeValue n addr value => exact reported_iff hs ha.2 (byteOf value)
  | writeArray n addr num input mask =>
    cases mask with
    | none => exact (forall_prop_of_true rfl).trans (Transfer.array_iff .store hs ha.2 (num * n))
    | some mask => exact (forall_prop_of_true rfl).trans (masked_iff hs ha.1 num)
  | readBytes addr len out => exact (forall_prop_of_true rfl).trans (Transfer.single_iff .fetch hs ha.1 len)
  | readArray n addr num data mask =>
    exact (forall_prop_of_true rfl).trans (Transfer.array_iff .fetch hs ha.2 (num * n))
  | writeVirt root vAddr size input =>
    exact actVirt_moved_iff ha (fun m va => (m.convert_lt root va).trans (by norm_num))
      (fun addr len off m hm => hm.writeData addr len _) hs
  | readVirt root vAddr size out =>
    refine Iff.trans ?_ (@stopsOrStored_fetch m root vAddr size out)
    exact actVirt_moved_iff ha (fun _ va => (m.convert_lt root va).trans (by norm_num)) (fun _ _ _ _ _ => hs) hs

/-- What every write of bytes keeps, an access keeps. -/
lemma memory_keeps {P : PhysicalMemory → Prop} (hwrite : ∀ {pm : PhysicalMemory} (addr len : ℕ) (data : ℕ → UInt8),
    P pm → P (pm.writeData addr len data).2) (a : Access) (hs : P m.pm) : P (a.memory m).pm := by
  cases a with
  | writeBytes addr len data => exact hwrite addr len data hs
  | writeValue n addr value => exact hwrite addr n (byteOf value) hs
  | writeArray n addr num input mask =>
    cases mask with
    | none => exact hwrite addr (u64 (num * n)) _ hs
    | some mask =>
      have hloop : ∀ k i pm, P pm → P (writeMasked n addr input mask i k pm) := by
        intro k
        induction k with
        | zero => exact fun i pm hpm => hpm
        | succ k ih =>
          intro i pm hpm
          rw [writeMasked]
          split_ifs
          · exact ih _ _ (hwrite _ _ _ hpm)
          · exact ih _ _ hpm
      exact hloop num 0 m.pm hs
  | writeVirt root vAddr size input => exact writeVirt_keeps hwrite root vAddr size input hs
  | _ => exact hs

end Access

/-! ### Runs -/

namespace MemoryState

def accessed (s : MemoryState) (a : Access) : MemoryState := { s with mem := a.memory s.mem }

end MemoryState

/-- Operations on device memory and accesses in any order. -/
def accessSystem (range : ℕ) : TransitionSystem MemoryState (MemoryOp ⊕ Access) where
  init s := s = ⟨Memory.new range, [], []⟩
  step s label t :=
    match label with
    | .inl op => s.exec op = some t
    | .inr a => a.WellTyped ∧ s.accessed a = t

namespace MemoryState
open PhysicalMemory
variable {s : MemoryState} {range : ℕ}

lemma new_bare (range : ℕ) : ∀ b ∈ (Memory.new range).pm.blocks, b.pages = none := by
  simp [Memory.new, PhysicalMemory.new, reserved, sentinel]

theorem sound_of_reachable (h : (accessSystem range).Reachable s) : s.mem.pm.Sound := by
  have hinv : s.mem.pm.Intact ∨ (range < 0x20000000 ∧ s = ⟨Memory.new range, [], []⟩) := by
    refine h.invariant (I := fun s => s.mem.pm.Intact ∨
      (range < 0x20000000 ∧ s = ⟨Memory.new range, [], []⟩)) ?_ ?_
    · intro s hinit
      exact intact_of_reachable (.start hinit)
    · intro s label t hs _ hstep
      cases label with
      | inl op =>
        cases hs with
        | inl hs => exact .inl (exec_intact hstep hs)
        | inr hsmall =>
          obtain ⟨hrange, rfl⟩ := hsmall
          exact .inr ⟨hrange, exec_small hrange hstep⟩
      | inr a =>
        obtain ⟨-, rfl⟩ := hstep
        cases hs with
        | inl hs => exact .inl (a.memory_keeps (fun addr len data hpm => hpm.writeData addr len data) hs)
        | inr hsmall =>
          obtain ⟨hrange, rfl⟩ := hsmall
          -- no write finds storage
          have hsame : (a.memory (Memory.new range)).pm = (Memory.new range).pm := by
            apply a.memory_keeps (P := fun pm => pm = (Memory.new range).pm) _ rfl
            intro pm addr len data hpm
            subst hpm
            exact writeData_unselected (not_selects_of_bare (new_bare range)) data
          exact .inr ⟨hrange, congrArg (fun mem : Memory => (⟨mem, [], []⟩ : MemoryState)) (congrArg Memory.mk hsame)⟩
  cases hinv with
  | inl hintact => exact .inl hintact.ordered
  | inr hsmall =>
    rw [hsmall.2]
    exact .inr (new_bare range)

/-- In every state of every run, the status of a call is faithful exactly when the call is covered. -/
theorem faithful_iff (h : (accessSystem range).Reachable s) {a : Access} (ha : a.WellTyped) :
    a.Faithful s.mem ↔ a.Covered s.mem :=
  Access.faithful_iff_covered (sound_of_reachable h) ha

/-- A read of eight bytes of a root table. -/
theorem faithful_iff_rootRead : ∃ s, (accessSystem 0x20010000).Reachable s ∧
    (Access.readBytes 0x20000000 8 fun _ => 0).Faithful s.mem := by
  have hrun : (exec ⟨Memory.new 0x20010000, [], []⟩ .createRootPt).map (fun s : MemoryState =>
      (s.mem.pm.writeData 0x20000000 8 fun _ => 0).1) = some 0 := by decide +kernel
  obtain ⟨s, hs, hstatus⟩ := Option.map_eq_some_iff.mp hrun
  have hreach : (accessSystem 0x20010000).Reachable s :=
    .next (l := .inl .createRootPt) (.start rfl) trivial hs
  have hsel := (writeData_status_iff s.mem.pm 0x20000000 8 _).mp hstatus
  have hback := (sound_of_reachable hreach).backed_of_selects (by norm_num) hsel
  exact ⟨s, hreach, (faithful_iff hreach (a := .readBytes 0x20000000 8 fun _ => 0) ⟨by norm_num, by norm_num⟩).mpr
    (.inr hback)⟩

/-- A read from the reserved block of a new memory returns 0 and fetches nothing. -/
theorem reserved_read_not_fetched : ∃ s : MemoryState, (accessSystem 0x20010000).Reachable s ∧
    (Access.readBytes 0x1000 4 fun _ => 0).WellTyped ∧
    (Access.readBytes 0x1000 4 fun _ => 0).status s.mem = 0 ∧
    ¬ (Access.readBytes 0x1000 4 fun _ => 0).Faithful s.mem := by
  refine ⟨⟨Memory.new 0x20010000, [], []⟩, .start rfl, ⟨by norm_num, by norm_num⟩, rfl, ?_⟩
  intro hfaithful
  obtain ⟨t, ht, hmoved⟩ := hfaithful rfl 0 (by norm_num [Access.Asks])
  obtain rfl := List.mem_singleton.mp ht
  exact not_backed_of_bare (new_bare 0x20010000) hmoved.2.1

end MemoryState
end VentusDriver
