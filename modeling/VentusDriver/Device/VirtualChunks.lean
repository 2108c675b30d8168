import VentusDriver.Device.AllocateMap

/-! The chunks of `act_virt`. Whatever the tables are, as long as the action does not change them, the
calls of the action tile the range up to the first byte without a translation, page by page. -/
namespace VentusDriver
open Foundation Foundation.Intervals Sv39

/-- A call of the action. -/
structure Chunk where
  pAddr : ℕ
  len : ℕ
  off : ℕ
  deriving DecidableEq

namespace Chunk

/-- The offset behind the chunk. -/
def stop (c : Chunk) : ℕ := c.off + c.len

end Chunk

namespace Memory
variable {σ : Type*}

/-- The action with a record of its calls. -/
def recorded (action : ℕ → ℕ → ℕ → σ → σ) (pAddr len off : ℕ) (s : σ × List Chunk) : σ × List Chunk :=
  (action pAddr len off s.1, s.2 ++ [⟨pAddr, len, off⟩])

variable {conv : σ → ℕ → ℕ} {action : ℕ → ℕ → ℕ → σ → σ} {v : ℕ}

/-- The record does not change what `act_virt` does. -/
theorem actVirt_recorded {size : ℕ} (hsize : 1 ≤ size) (hv : v < 2 ^ 64) {s s' : σ} {calls calls' : List Chunk}
    {status : Int}
    (heq : actVirt (fun s => conv s.1) (recorded action) v size (s, calls) = (status, s', calls')) :
    actVirt conv action v size s = (status, s') := by
  have hresult := @actVirt_noting_result σ conv action v Chunk (fun _ pAddr len off => ⟨pAddr, len, off⟩) size
    hsize hv s calls
  rw [← hresult]
  exact congrArg (fun r : Int × σ × List Chunk => (r.1, r.2.1)) heq

/-- Whether an address is translated depends on its page only. -/
lemma convert_eq_zero_iff (m : Memory) (r va : ℕ) :
    m.convert r va = 0 ↔ Radix.walk m.pm.entry r (vaPath va) = none := by
  rw [convert_eq]
  cases hw : Radix.walk m.pm.entry r (vaPath va) with
  | none => simp
  | some q =>
    have hpath : vaPath va = [vaExtract va 0, vaExtract va 1] ++ [vaExtract va 2] := rfl
    rw [hpath, Radix.walk_snoc] at hw
    obtain ⟨t, -, hentry⟩ := Option.bind_eq_some_iff.mp hw
    have hne := (PhysicalMemory.entry_eq_some hentry).2.2
    simp only [Nat.or_eq_zero_iff, reduceCtorEq, iff_false, not_and]
    exact fun hq => absurd hq hne

/-- A byte of a page with a translated byte is translated. -/
lemma convert_ne_zero_of_page {m : Memory} {r x i : ℕ} (h : m.convert r (u64 x) ≠ 0)
    (hpage : x % 4096 + i < 4096) : m.convert r (u64 (x + i)) ≠ 0 := by
  rwa [Ne, convert_eq_zero_iff, vaPath_u64, vaPath_same_page hpage, ← vaPath_u64, ← convert_eq_zero_iff]

/-- The calls tile the range up to `n`, each inside one page and with its translation; the bytes
before `n` are translated, and `n` is the end of the range or the first byte that is not. -/
structure Splits (conv : ℕ → ℕ) (v size : ℕ) (status : Int) (calls : List Chunk) (n : ℕ) : Prop where
  tiles : Tiles Chunk.off Chunk.stop 0 calls n
  chunk : ∀ c ∈ calls, 1 ≤ c.len ∧ u64 (v + c.off) % 4096 + c.len ≤ 4096 ∧
    c.pAddr = conv (u64 (v + c.off))
  mapped : ∀ off < n, conv (u64 (v + off)) ≠ 0
  ends : (status = 0 ∧ n = size) ∨ (status = -1 ∧ n < size ∧ conv (u64 (v + n)) = 0)

/-- The result is 0 exactly when the whole range is translated. -/
lemma Splits.status_iff {conv : ℕ → ℕ} {size n : ℕ} {status : Int} {calls : List Chunk}
    (h : Splits conv v size status calls n) : status = 0 ↔ ∀ off < size, conv (u64 (v + off)) ≠ 0 := by
  rcases h.ends with ⟨rfl, rfl⟩ | ⟨rfl, hn, hzero⟩
  · exact iff_of_true rfl h.mapped
  · exact iff_of_false (by decide) fun hall => hall n hn hzero

/-- For any tables and any action that does not change them, the calls of the action split the
range. -/
theorem actVirt_splits {mem : σ → Memory} {root size : ℕ}
    (hkeep : ∀ pAddr len off s va, (mem (action pAddr len off s)).convert root va = (mem s).convert root va)
    (hv : v < 2 ^ 64) (hsize : 1 ≤ size) (s : σ) :
    ∃ status s' calls n, actVirt (fun s va => (mem s.1).convert root va) (recorded action) v size (s, []) =
        (status, s', calls) ∧
      actVirt (fun s va => (mem s).convert root va) action v size s = (status, s') ∧
      Splits ((mem s).convert root) v size status calls n ∧
      (status = 0 ↔ ∀ off < size, (mem s).convert root (u64 (v + off)) ≠ 0) := by
  let conv := fun (s : σ × List Chunk) va => (mem s.1).convert root va
  -- what is known when the bytes before an offset have been passed on
  let P := fun (off : ℕ) (t : σ × List Chunk) =>
    (∀ va, (mem t.1).convert root va = (mem s).convert root va) ∧
    Tiles Chunk.off Chunk.stop 0 t.2 off ∧
    (∀ c ∈ t.2, 1 ≤ c.len ∧ u64 (v + c.off) % 4096 + c.len ≤ 4096 ∧
      c.pAddr = (mem s).convert root (u64 (v + c.off))) ∧
    ∀ i < off, (mem s).convert root (u64 (v + i)) ≠ 0
  have hchunk : ChunkRule conv (recorded action) v size P := by
    rintro off len ⟨t, calls⟩ hlen - hpage hne ⟨hsame, htiles, hcalls, hmapped⟩
    have hne' : (mem s).convert root (u64 (v + off)) ≠ 0 := by rwa [← hsame]
    have hmod : u64 (v + off) % 4096 = (v + off) % 4096 := by
      rw [u64]
      omega
    refine ⟨fun va => (hkeep _ _ _ t va).trans (hsame va), ?_, ?_, ?_⟩
    · exact Tiles.concat (i := (⟨_, len, off⟩ : Chunk)) htiles (show off < off + len by omega)
    · intro c hc
      cases List.mem_append.mp hc with
      | inl hc => exact hcalls c hc
      | inr hc =>
        obtain rfl := List.mem_singleton.mp hc
        exact ⟨hlen, hmod ▸ hpage, hsame _⟩
    · intro i hi
      by_cases hbefore : i < off
      · exact hmapped i hbefore
      · have hin := convert_ne_zero_of_page (i := i - off) hne' (by omega)
        rwa [show v + off + (i - off) = v + i by omega] at hin
  have hstart : P 0 (s, []) := ⟨fun _ => rfl, .nil 0, by simp, by simp⟩
  obtain ⟨n, ⟨s', calls⟩, ⟨hsame, htiles, hcalls, hmapped⟩, hend⟩ := actVirt_rule hsize hv hchunk hstart
  have hresult : ∃ status, actVirt conv (recorded action) v size (s, []) = (status, s', calls) ∧
      ((status = 0 ∧ n = size) ∨ (status = -1 ∧ n < size ∧ (mem s).convert root (u64 (v + n)) = 0)) := by
    rcases hend with ⟨heq, hn⟩ | ⟨heq, hn, hzero⟩
    · exact ⟨0, heq, .inl ⟨rfl, hn⟩⟩
    · exact ⟨-1, heq, .inr ⟨rfl, hn, (hsame _).symm.trans hzero⟩⟩
  obtain ⟨status, heq, hends⟩ := hresult
  have hsplits : Splits ((mem s).convert root) v size status calls n := ⟨htiles, hcalls, hmapped, hends⟩
  exact ⟨status, s', calls, n, heq, actVirt_recorded hsize hv heq, hsplits, hsplits.status_iff⟩

/-- The last bytes of a mapped page and the first ones of a page that is not: one chunk is passed on. -/
theorem actVirt_splits_onePage : ∃ (m : Memory) (calls : List Chunk) (n : ℕ),
    m.convert 0x20000000 0x40000ff0 = 0x20001ff0 ∧
    Splits (m.convert 0x20000000) 0x40000ff0 32 (-1) calls n := by
  let ops : List MemoryOp := [.createRootPt, .allocate 0x20000000 0x40000000 4096]
  have hrun : (ops.foldlM MemoryState.exec ⟨Memory.new 0x20010000, [], []⟩).map (fun s : MemoryState =>
      (s.mem.convert 0x20000000 0x40000ff0, s.mem.convert 0x20000000 (u64 (0x40000ff0 + 16)))) =
      some (0x20001ff0, 0) := by decide +kernel
  obtain ⟨s, -, hresult⟩ := Option.map_eq_some_iff.mp hrun
  obtain ⟨hmapped, hzero⟩ := Prod.mk.inj hresult
  obtain ⟨status, -, calls, n, -, -, hsplits, hiff⟩ := @actVirt_splits Memory (fun _ _ _ m => m) 0x40000ff0
    id 0x20000000 32 (fun _ _ _ _ _ => rfl) (by norm_num) (by norm_num) s.mem
  have hne : status ≠ 0 := fun h => hiff.mp h 16 (by norm_num) hzero
  rcases hsplits.ends with ⟨h, -⟩ | ⟨rfl, -⟩
  · exact absurd h hne
  · exact ⟨s.mem, calls, n, hmapped, hsplits⟩

end Memory
end VentusDriver
