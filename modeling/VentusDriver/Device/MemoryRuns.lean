import VentusDriver.Foundation.Transition
import VentusDriver.Device.Isolation

/-! Runs of device memory: roots are made, regions allocated, written and released, and tables
cleaned up. As long as nothing is removed, the tables are sound and every live region is mapped. -/
namespace VentusDriver
open Foundation Foundation.Radix Sv39 PhysicalMemory

/-- A region as `allocate` was asked for it, and where it put it. -/
structure LiveRegion where
  root : ℕ
  vAddr : ℕ
  length : ℕ
  pAddr : ℕ
  deriving DecidableEq

/-- Device memory with the roots handed out and the live regions. -/
structure MemoryState where
  mem : Memory
  roots : List ℕ
  live : List LiveRegion

inductive MemoryOp
  | createRootPt
  | allocate (root vAddr length : ℕ)
  | writeVirt (root vAddr size : ℕ) (input : ℕ → UInt8)
  | release (root vAddr : ℕ)
  | cleanPt (root : ℕ)
  | cleanTask (root : ℕ)

namespace MemoryState

/-- A region that is not empty and was given a physical address is live. -/
def allocated (s : MemoryState) (root vAddr length pAddr : ℕ) (mem : Memory) : MemoryState :=
  { s with mem := mem, live :=
    if pAddr ≠ 0 ∧ 0 < roundPages length then ⟨root, vAddr, length, pAddr⟩ :: s.live else s.live }

def released (s : MemoryState) (root vAddr : ℕ) : MemoryState :=
  let r := s.mem.release root vAddr
  { s with mem := r.2, live :=
    if r.1 = 0 then s.live.eraseP fun g => g.root = root ∧ g.vAddr = vAddr else s.live }

/-- A step with a root that was handed out; none where the source does not return. -/
def exec (s : MemoryState) : MemoryOp → Option MemoryState
  | .createRootPt =>
    match s.mem.createRootPt with
    | .error _ => none
    | .ok (root, mem) =>
      some { s with mem := mem, roots := if root = 0 then s.roots else root :: s.roots }
  | .allocate root vAddr length =>
    if root ∈ s.roots then
      match s.mem.allocate root vAddr length with
      | .error _ => none
      | .ok (pAddr, mem) => some (s.allocated root vAddr length pAddr mem)
    else none
  | .writeVirt root vAddr size input =>
    if root ∈ s.roots ∧ vAddr < 2 ^ 64 then
      some { s with mem := (s.mem.writeVirt root vAddr size input).2 }
    else none
  | .release root vAddr => if root ∈ s.roots then some (s.released root vAddr) else none
  | .cleanPt root =>
    if root ∈ s.roots then some { s with mem := (s.mem.cleanPt root).2 } else none
  | .cleanTask root =>
    if root ∈ s.roots then
      some ⟨(s.mem.cleanTask root).2, s.roots.erase root, s.live.filter fun g => g.root ≠ root⟩
    else none

/-- What a step does, with what it needs. -/
inductive MemoryCall (s : MemoryState) : MemoryOp → MemoryState → Prop
  | createRootPt {root : ℕ} {mem : Memory} (hmem : s.mem.createRootPt = .ok (root, mem)) :
      MemoryCall s .createRootPt
        { s with mem := mem, roots := if root = 0 then s.roots else root :: s.roots }
  | allocate {root vAddr length pAddr : ℕ} {mem : Memory} (hroot : root ∈ s.roots)
      (hmem : s.mem.allocate root vAddr length = .ok (pAddr, mem)) :
      MemoryCall s (.allocate root vAddr length) (s.allocated root vAddr length pAddr mem)
  | writeVirt {root vAddr : ℕ} (hroot : root ∈ s.roots) (hv : vAddr < 2 ^ 64) (size : ℕ)
      (input : ℕ → UInt8) : MemoryCall s (.writeVirt root vAddr size input)
        { s with mem := (s.mem.writeVirt root vAddr size input).2 }
  | release {root : ℕ} (hroot : root ∈ s.roots) (vAddr : ℕ) :
      MemoryCall s (.release root vAddr) (s.released root vAddr)
  | cleanPt {root : ℕ} (hroot : root ∈ s.roots) :
      MemoryCall s (.cleanPt root) { s with mem := (s.mem.cleanPt root).2 }
  | cleanTask {root : ℕ} (hroot : root ∈ s.roots) : MemoryCall s (.cleanTask root)
      ⟨(s.mem.cleanTask root).2, s.roots.erase root, s.live.filter fun g => g.root ≠ root⟩

theorem exec_call {s t : MemoryState} {op : MemoryOp} (hstep : s.exec op = some t) :
    MemoryCall s op t := by
  cases op with
  | createRootPt =>
    simp only [exec] at hstep
    split at hstep
    · cases hstep
    · next root mem heq => exact Option.some.inj hstep ▸ .createRootPt heq
  | allocate root vAddr length =>
    simp only [exec] at hstep
    split_ifs at hstep with hroot
    split at hstep
    · cases hstep
    · next pAddr mem heq => exact Option.some.inj hstep ▸ .allocate hroot heq
  | writeVirt root vAddr size input =>
    simp only [exec] at hstep
    split_ifs at hstep with hpre
    exact Option.some.inj hstep ▸ .writeVirt hpre.1 hpre.2 size input
  | release root vAddr =>
    simp only [exec] at hstep
    split_ifs at hstep with hroot
    exact Option.some.inj hstep ▸ .release hroot vAddr
  | cleanPt root =>
    simp only [exec] at hstep
    split_ifs at hstep with hroot
    exact Option.some.inj hstep ▸ .cleanPt hroot
  | cleanTask root =>
    simp only [exec] at hstep
    split_ifs at hstep with hroot
    exact Option.some.inj hstep ▸ .cleanTask hroot

/-- A step that may remove blocks. -/
def Removes : MemoryOp → Prop
  | .release .. => True
  | .cleanPt _ => True
  | .cleanTask _ => True
  | _ => False

/-- A step that makes a root or allocates. -/
def Allocates : MemoryOp → Prop
  | .createRootPt => True
  | .allocate .. => True
  | _ => False

end MemoryState

def memorySystem (range : ℕ) : TransitionSystem MemoryState MemoryOp where
  init s := s = ⟨Memory.new range, [], []⟩
  step s op t := s.exec op = some t

namespace MemoryState
variable {s t : MemoryState}

/-- The tables are sound, and a live region is mapped from its first page to its last. -/
structure Invariant (s : MemoryState) : Prop where
  tables : s.mem.pm.PageTables (· ∈ s.roots)
  rooted : ∀ g ∈ s.live, g.root ∈ s.roots ∧ 0 < roundPages g.length
  mapped : ∀ g ∈ s.live, ∀ k < roundPages g.length / 4096,
    (walk s.mem.pm.entry g.root (vaPath (u64 (g.vAddr + k * 4096)))).isSome = true

/-! ### Steps -/

lemma Invariant.createRootPt (h : Invariant s) {root : ℕ} {mem : Memory}
    (heq : s.mem.createRootPt = .ok (root, mem)) :
    Invariant { s with mem := mem, roots := if root = 0 then s.roots else root :: s.roots } := by
  rcases Memory.createRootPt_ok h.tables heq with ⟨rfl, rfl⟩ | ⟨hne, hstep⟩
  · exact h
  · rw [if_neg hne]
    refine ⟨by simpa [List.mem_cons] using hstep.tables, ?_, ?_⟩
    · exact fun g hg => ⟨List.mem_cons_of_mem _ (h.rooted g hg).1, (h.rooted g hg).2⟩
    · intro g hg k hk
      rw [hstep.walks g.root _ (h.rooted g hg).1 (by simp)]
      exact h.mapped g hg k hk

lemma Invariant.allocate (h : Invariant s) {root vAddr length pAddr : ℕ} {mem : Memory}
    (hr : root ∈ s.roots) (heq : s.mem.allocate root vAddr length = .ok (pAddr, mem)) :
    Invariant (s.allocated root vAddr length pAddr mem) := by
  have hstep := Memory.allocate_ok h.tables hr heq
  have hold : ∀ g ∈ s.live, ∀ k < roundPages g.length / 4096,
      (walk mem.pm.entry g.root (vaPath (u64 (g.vAddr + k * 4096)))).isSome = true := by
    intro g hg k hk
    obtain ⟨q, hq⟩ := Option.isSome_iff_exists.mp (h.mapped g hg k hk)
    rw [hstep.growth.walks g.root _ q (h.rooted g hg).1 (by simp) hq]
    rfl
  unfold allocated
  split_ifs with hnew
  · refine ⟨hstep.growth.tables, ?_, ?_⟩
    · intro g hg
      cases hg with
      | head => exact ⟨hr, hnew.2⟩
      | tail _ hg => exact h.rooted g hg
    · intro g hg
      cases hg with
      | head => exact hstep.mapped hnew.1
      | tail _ hg => exact hold g hg
  · exact ⟨hstep.growth.tables, h.rooted, hold⟩

lemma Invariant.writeVirt (h : Invariant s) {root vAddr : ℕ} (hr : root ∈ s.roots)
    (hv : vAddr < 2 ^ 64) (size : ℕ) (input : ℕ → UInt8) :
    Invariant { s with mem := (s.mem.writeVirt root vAddr size input).2 } := by
  have hwr := Memory.writeVirt_pageWrites h.tables hr hv size input
  refine ⟨hwr.tables, h.rooted, fun g hg k hk => ?_⟩
  rw [hwr.walks g.root _ (h.rooted g hg).1 (by simp)]
  exact h.mapped g hg k hk

theorem Invariant.step (h : Invariant s) {op : MemoryOp} (hkeep : ¬ Removes op)
    (hstep : s.exec op = some t) : Invariant t := by
  cases exec_call hstep with
  | createRootPt hmem => exact h.createRootPt hmem
  | allocate hroot hmem => exact h.allocate hroot hmem
  | writeVirt hroot hv size input => exact h.writeVirt hroot hv size input
  | release hroot vAddr => exact absurd trivial hkeep
  | cleanPt hroot => exact absurd trivial hkeep
  | cleanTask hroot => exact absurd trivial hkeep

/-! ### Runs -/

/-- Below the first allocatable address no step changes anything. -/
lemma exec_small {range : ℕ} (hrange : range < 0x20000000) {op : MemoryOp}
    (hstep : exec ⟨Memory.new range, [], []⟩ op = some t) : t = ⟨Memory.new range, [], []⟩ := by
  cases op with
  | createRootPt =>
    simp only [exec, Memory.createRootPt_small hrange, if_true, Option.some.injEq] at hstep
    exact hstep.symm
  | _ => simp [exec] at hstep

/-- As long as nothing is removed, the invariant holds or no root was ever made. -/
theorem invariant_of_kept {range : ℕ} (h : (memorySystem range).ReachableBy (fun _ op => ¬ Removes op) s) :
    Invariant s ∨ (range < 0x20000000 ∧ s = ⟨Memory.new range, [], []⟩) := by
  refine h.invariant (I := fun s => Invariant s ∨ (range < 0x20000000 ∧ s = ⟨Memory.new range, [], []⟩))
    ?_ ?_
  · rintro s rfl
    by_cases hrange : range < 0x20000000
    · exact .inr ⟨hrange, rfl⟩
    · exact .inl ⟨.of_new (by omega) (by simp), by simp, by simp⟩
  · rintro s op t (hs | ⟨hrange, rfl⟩) hkeep hstep
    · exact .inl (hs.step hkeep hstep)
    · exact .inr ⟨hrange, exec_small hrange hstep⟩

end MemoryState
end VentusDriver
