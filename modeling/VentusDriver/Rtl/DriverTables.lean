import VentusDriver.Rtl.Bench

/-! The test bench over the page tables of the driver. All of them lie below the top of the memory of
the processor, which a 32-bit address reaches, so the bench prints the leaf entries of the driver's
translations. -/
namespace VentusDriver
open Foundation Foundation.Radix Sv39

namespace PhysicalMemory
variable {pm pm' : PhysicalMemory}

lemma insertBackward_maxRange {blk : Block} {i : ℕ} {r : Int × PhysicalMemory}
    (h : pm.insertBackward blk i = .ok r) : r.2.maxRange = pm.maxRange := by
  induction i with
  | zero => exact Except.ok.inj h ▸ rfl
  | succ i ih =>
    rw [insertBackward] at h
    cases hget : pm.blocks[i]? with
    | none => simp [hget] at h
    | some cur =>
      simp only [hget] at h
      split_ifs at h
      · exact Except.ok.inj h ▸ rfl
      · exact ih h

lemma insertForward_maxRange {blk : Block} {l : List Block} {i : ℕ} {r : Int × PhysicalMemory}
    (h : pm.insertForward blk l i = .ok r) : r.2.maxRange = pm.maxRange := by
  induction l generalizing i with
  | nil => simp [insertForward] at h
  | cons next rest ih =>
    rw [insertForward] at h
    split_ifs at h
    · exact Except.ok.inj h ▸ rfl
    · exact ih h

lemma insert_maxRange {addr size : ℕ} {createPages : Bool} {r : Int × PhysicalMemory}
    (h : pm.insert addr size createPages = .ok r) : r.2.maxRange = pm.maxRange := by
  unfold PhysicalMemory.insert at h
  cases hnew : Block.new addr size createPages with
  | error e => simp [hnew, bind, Except.bind] at h
  | ok blk =>
    simp only [hnew, bind, Except.bind] at h
    cases hcursor : pm.currentBlock with
    | none => simp [hcursor] at h
    | some i =>
      cases hget : pm.blocks[i]? with
      | none => simp [hcursor, hget] at h
      | some cur =>
        simp only [hcursor, hget] at h
        split_ifs at h
        · exact insertBackward_maxRange h
        · exact insertForward_maxRange h
        · exact Except.ok.inj h ▸ rfl

/-- No operation changes the size of the memory. -/
lemma maxRange_growthRule (top : ℕ) : GrowthRule (fun _ => True) fun pm => pm.maxRange = top :=
  ⟨fun hs _ _ hins => (insert_maxRange hins).trans hs, fun _ _ _ => trivial, fun _ hs _ _ => hs⟩

/-- The tables that the translation of an address goes through can be read with 32-bit addresses. -/
structure LowTables (pm : PhysicalMemory) (root va : ℕ) : Prop where
  first : root + 4096 ≤ 2 ^ 32
  second : pm.nextTable root (vaExtract va 0) + 4096 ≤ 2 ^ 32
  third : pm.nextTable (pm.nextTable root (vaExtract va 0)) (vaExtract va 1) + 4096 ≤ 2 ^ 32

lemma PageTables.low {root : ℕ → Prop} (h : pm.PageTables root) (hmax : pm.maxRange ≤ 2 ^ 32) {r : ℕ}
    (hr : root r) (va : ℕ) : pm.LowTables r va := by
  have hbound : ∀ path q, path.length ≤ 3 → walk pm.entry r path = some q → q + 4096 ≤ 2 ^ 32 :=
    fun path q hlen hw => (h.reached_lower ⟨r, path, hr, hlen, hw⟩).2.trans hmax
  have hentry : ∀ q va level, pm.nextTable q (vaExtract va level) ≠ 0 →
      pm.entry q (vaExtract va level) = some (pm.nextTable q (vaExtract va level)) :=
    fun q va level hne => if_pos ⟨vaExtract_lt va level, hne⟩
  refine ⟨hbound [] r (by simp) rfl, ?_, ?_⟩
  · by_cases h1 : pm.nextTable r (vaExtract va 0) = 0
    · omega
    · exact hbound [vaExtract va 0] _ (by simp) (by simp [walk, hentry r va 0 h1])
  · by_cases h1 : pm.nextTable r (vaExtract va 0) = 0
    · rw [h1, PhysicalMemory.nextTable_zero h.ordered (vaExtract_lt va 1)]
      omega
    · by_cases h2 : pm.nextTable (pm.nextTable r (vaExtract va 0)) (vaExtract va 1) = 0
      · omega
      · refine hbound [vaExtract va 0, vaExtract va 1] _ (by simp) ?_
        simp [walk, hentry r va 0 h1, hentry _ va 1 h2]

end PhysicalMemory

namespace MemoryState
open PhysicalMemory

/-- As long as nothing is removed, all tables of a memory of at most 4 GiB are low. -/
theorem lowTables_of_kept {range : ℕ} {s : MemoryState} (hrange : range ≤ 2 ^ 32)
    (h : (memorySystem range).ReachableBy (fun _ op => ¬ Removes op) s) {root : ℕ} (hr : root ∈ s.roots)
    (va : ℕ) : s.mem.pm.LowTables root va := by
  have hmax : s.mem.pm.maxRange = (Memory.new range).pm.maxRange := by
    refine h.invariant (I := fun s => s.mem.pm.maxRange = (Memory.new range).pm.maxRange) ?_ ?_
    · rintro s rfl
      rfl
    · exact fun s op t hs hkeep hstep =>
        exec_growthRule (maxRange_growthRule _) (fun _ _ _ hs => hs) hkeep hstep hs
  cases invariant_of_kept h with
  | inl hinv =>
    refine hinv.tables.low ?_ hr va
    rw [hmax]
    have hle : range ≤ maxPhyRange := hrange.trans (by norm_num [maxPhyRange])
    simp only [Memory.new, PhysicalMemory.new, if_pos hle, pageSize_eq]
    omega
  | inr hsmall =>
    rw [hsmall.2] at hr
    exact absurd hr List.not_mem_nil

end MemoryState

namespace Rtl
open PhysicalMemory MMUtest

/-- A bus that answers with the 64-bit words of physical memory. -/
def busWords (pm : PhysicalMemory) (a : BitVec 32) : BitVec 64 := BitVec.ofNat 64 (pm.readValue 8 a.toNat)

section Bus
variable {pm : PhysicalMemory}

lemma busMem_pteAddr {ppn : BitVec 44} (h : ppn.toNat * 4096 + 4096 ≤ 2 ^ 32) (vpn : BitVec 27)
    (level : BitVec 2) :
    busMem (busWords pm) (pteAddr ppn vpn level) = wordMem pm (pteAddr ppn vpn level) := by
  have haddr := pteAddr_toNat ppn vpn level
  have hidx : vpn.toNat / 2 ^ (level.toNat * 9) % 512 < 512 := Nat.mod_lt _ (by norm_num)
  rw [busMem, busWords, wordMem, BitVec.toNat_setWidth, Nat.mod_eq_of_lt (by omega)]

/-- The tables that a walk goes through, level by level. -/
lemma tables_words (pm : PhysicalMemory) (ppn : BitVec 44) (va : BitVec 64) :
    (ptePpn (wordMem pm (pteAddr ppn (va.extractLsb' 12 27) (BitVec.ofNat 2 2)))).toNat * 4096 =
        pm.nextTable (ppn.toNat * 4096) (vaExtract va.toNat 0) ∧
      ∀ ppn' : BitVec 44,
        (ptePpn (wordMem pm (pteAddr ppn' (va.extractLsb' 12 27) (BitVec.ofNat 2 1)))).toNat * 4096 =
          pm.nextTable (ppn'.toNat * 4096) (vaExtract va.toNat 1) := by
  obtain ⟨h0, h1, -⟩ := vpn_index va
  have hlevel2 : (BitVec.ofNat 2 2).toNat * 9 = 18 := rfl
  have hlevel1 : (BitVec.ofNat 2 1).toNat * 9 = 9 := rfl
  constructor
  · rw [ptePpn_toNat, wordMem_pte, hlevel2, h0, nextTable]
  · intro ppn'
    rw [ptePpn_toNat, wordMem_pte, hlevel1, h1, nextTable]

/-- The tables below the root that the bus leads to. -/
lemma tables_bus {ppn : BitVec 44} {va : BitVec 64} (h : pm.LowTables (ppn.toNat * 4096) va.toNat) :
    ∃ ppn1 ppn0 : BitVec 44,
      ptePpn (wordMem pm (pteAddr ppn (va.extractLsb' 12 27) (BitVec.ofNat 2 2))) = ppn1 ∧
      ptePpn (wordMem pm (pteAddr ppn1 (va.extractLsb' 12 27) (BitVec.ofNat 2 1))) = ppn0 ∧
      ppn1.toNat * 4096 = pm.nextTable (ppn.toNat * 4096) (vaExtract va.toNat 0) ∧
      ppn0.toNat * 4096 = pm.nextTable (ppn1.toNat * 4096) (vaExtract va.toNat 1) ∧
      ppn1.toNat * 4096 + 4096 ≤ 2 ^ 32 ∧ ppn0.toNat * 4096 + 4096 ≤ 2 ^ 32 := by
  obtain ⟨hsecond, hthird⟩ := tables_words pm ppn va
  refine ⟨_, _, rfl, rfl, hsecond, hthird _, ?_, ?_⟩
  · rw [hsecond]
    exact h.second
  · rw [hthird, hsecond]
    exact h.third

/-- Through low tables the bus loses nothing. -/
theorem walkFrom_bus {ppn : BitVec 44} {va : BitVec 64}
    (h : pm.LowTables (ppn.toNat * 4096) va.toNat) :
    walkFrom (busMem (busWords pm)) 2 ppn (va.extractLsb' 12 27) =
      walkFrom (wordMem pm) 2 ppn (va.extractLsb' 12 27) := by
  obtain ⟨ppn1, ppn0, hppn1, hppn0, -, -, hlow1, hlow0⟩ := tables_bus h
  rw [walkFrom, walkFrom, walkFrom, walkFrom, walkFrom, walkFrom, busMem_pteAddr h.first, hppn1,
    busMem_pteAddr hlow1, hppn0, busMem_pteAddr hlow0]

/-- What is printed for a request: the leaf entry of its translation, and its tag. -/
def line (pm : PhysicalMemory) (r : HostReq) : BitVec 64 × BitVec 2 :=
  (BitVec.ofNat 64 (pm.leaf (r.gdsBaseaddr.toNat * 4096) r.startPc.toNat), BenchRun.tagOf r)

lemma leaf_lt (pm : PhysicalMemory) (root va : ℕ) : pm.leaf root va < 2 ^ 64 := readValue_lt pm 8 _

/-- The page number and the address of a request, as the unit takes them. -/
lemma mmuReqBits_toNat (r : HostReq) :
    ((mmuReqBits r).ptbr.extractLsb' 0 44).toNat = r.gdsBaseaddr.toNat ∧
      (mmuReqBits r).addr.toNat = r.startPc.toNat := by
  have hgds := r.gdsBaseaddr.isLt
  have hpc := r.startPc.isLt
  constructor
  · rw [mmuReqBits, BitVec.extractLsb'_toNat, BitVec.toNat_setWidth, Nat.shiftRight_zero]
    omega
  · rw [mmuReqBits, BitVec.toNat_setWidth]
    omega

lemma answer_line {r : HostReq} (h : pm.LowTables (r.gdsBaseaddr.toNat * 4096) r.startPc.toNat) :
    (answer (busMem (busWords pm)) (mmuReqBits r)).addr = (line pm r).1 := by
  obtain ⟨hppn, hva⟩ := mmuReqBits_toNat r
  have hwalk := walkFrom_leaf pm ((mmuReqBits r).ptbr.extractLsb' 0 44) (mmuReqBits r).addr
  rw [hppn, hva] at hwalk
  rw [← hppn, ← hva] at h
  rw [line, ← hwalk, BitVec.ofNat_toNat, BitVec.setWidth_eq]
  exact walkFrom_bus h

lemma lines_eq {m : Multiset HostReq}
    (h : ∀ r ∈ m, pm.LowTables (r.gdsBaseaddr.toNat * 4096) r.startPc.toNat) :
    ((m.map mmuReqBits).map (answer (busMem (busWords pm)))).map (fun a => (a.addr, a.source)) =
      m.map (line pm) := by
  rw [Multiset.map_map, Multiset.map_map]
  exact Multiset.map_congr rfl fun r hr => Prod.ext (answer_line (h r hr)) rfl

end Bus

/-- The host translates under the roots of the driver. -/
def Rooted (roots : List ℕ) (c : BenchCycle) : Prop :=
  c.hostReq.valid = true → c.hostReq.bits.gdsBaseaddr.toNat * 4096 ∈ roots

/-- All requests of the host are under the roots. -/
lemma rooted_of_reachable {bus : BitVec 32 → BitVec 64} {roots : List ℕ} {b : BenchRun}
    (h : (benchSystem bus).ReachableBy (fun b c => b.Fair bus c ∧ Rooted roots c) b) :
    ∀ r ∈ b.accepted, r.gdsBaseaddr.toNat * 4096 ∈ roots := by
  refine h.invariant (I := fun b => ∀ r ∈ b.accepted, r.gdsBaseaddr.toNat * 4096 ∈ roots) ?_ ?_
  · intro b hinit r hr
    obtain ⟨power, io, rfl⟩ := hinit
    exact absurd hr (Multiset.notMem_zero r)
  · intro b c b' hall hguard hstep r hr
    rw [hstep] at hr
    cases Multiset.mem_add.mp hr with
    | inl hold => exact hall r hold
    | inr hnew =>
      obtain ⟨hfire, rfl⟩ := Decoupled.mem_sent.mp hnew
      exact hguard.2 (Bool.and_eq_true_iff.mp hfire).2

/-- The bench translates as the driver does: it prints the leaf entries of distinct requests, of all of
them once the unit is empty, it tells the host two bits of the work group, and the leaf entry gives the
address that the driver would convert to. -/
structure Translates (m : Memory) (b : BenchRun) : Prop where
  printed : b.printed ≤ b.accepted.map (line m.pm)
  complete : b.mmu.Drained → b.printed = b.accepted.map (line m.pm)
  finished : b.finished = b.printed.map fun l => l.2.setWidth 5
  page : ∀ r ∈ b.accepted, m.convert (r.gdsBaseaddr.toNat * 4096) r.startPc.toNat =
    inPage (line m.pm r).1.toNat r.startPc.toNat

/-- Over the tables that the driver has made, as long as it removed nothing. -/
theorem bench_translates {range : ℕ} {m : MemoryState} {b : BenchRun} (hrange : range ≤ 2 ^ 32)
    (hm : (memorySystem range).ReachableBy (fun _ op => ¬ MemoryState.Removes op) m)
    (hb : (benchSystem (busWords m.mem.pm)).ReachableBy
      (fun b c => b.Fair (busWords m.mem.pm) c ∧ Rooted m.roots c) b) : Translates m.mem b := by
  have hrooted := rooted_of_reachable hb
  obtain ⟨s, hs, hfollows⟩ := BenchRun.follows_of_fair (hb.mono fun _ _ h => h.1)
  have hanswers := (MmuRun.sound_of_ready hs).1.answers
  have hlines : (s.accepted.map (answer (busMem (busWords m.mem.pm)))).map
      (fun a => (a.addr, a.source)) = b.accepted.map (line m.mem.pm) := by
    rw [← hfollows.accepted]
    exact lines_eq fun r hr => MemoryState.lowTables_of_kept hrange hm (hrooted r hr) _
  refine ⟨?_, fun hdrained => ?_, ?_, fun r hr => ?_⟩
  · rw [hfollows.printed, ← hlines]
    exact Multiset.map_le_map hanswers.1
  · rw [hfollows.printed, ← hlines, hanswers.2 (hfollows.mmu ▸ hdrained)]
  · rw [hfollows.printed, hfollows.finished, Multiset.map_map]
    rfl
  · have hsound : m.mem.pm.Sound := by
      cases MemoryState.invariant_of_kept hm with
      | inl hinv => exact .inl hinv.tables.ordered
      | inr hsmall =>
        rw [hsmall.2]
        exact .inr (MemoryState.new_bare range)
    rw [Memory.convert_leaf hsound, line, BitVec.toNat_ofNat, Nat.mod_eq_of_lt (leaf_lt _ _ _)]

/-! ### A run -/

namespace BenchRun

instance (b : BenchRun) (c : BenchCycle) : Decidable (b.Honest c) := inferInstanceAs (Decidable (_ → _))
instance (bus : BitVec 32 → BitVec 64) (b : BenchRun) (c : BenchCycle) : Decidable (b.FreshTag bus c) :=
  inferInstanceAs (Decidable (_ → _))
instance (bus : BitVec 32 → BitVec 64) (b : BenchRun) (c : BenchCycle) : Decidable (b.Fair bus c) :=
  inferInstanceAs (Decidable (_ ∧ _))
instance (roots : List ℕ) (c : BenchCycle) : Decidable (Rooted roots c) :=
  inferInstanceAs (Decidable (_ → _))

def cycle (req : Option HostReq) (rsp : Option OutA) : BenchCycle :=
  ⟨⟨req.isSome, req.getD ⟨0, 0, 0⟩⟩, true, true, ⟨rsp.isSome, rsp.getD ⟨0, 0, 0, 0, 0, 0⟩⟩⟩

def start : BenchRun := ⟨MMUtest.next MmuRun.powerUp (input (fun _ => 0) (cycle none none)) true, 0, 0, 0, 0⟩

/-- A request of work group 5 with the reads of its walk. -/
def oneLine : List BenchCycle :=
  cycle (some ⟨5, 0x40000123, 0x20000⟩) none :: List.replicate 4 (cycle none none) ++
    cycle none (some ⟨4, 0, 5, 0x20000008, 1, 0⟩) :: List.replicate 3 (cycle none none) ++
    cycle none (some ⟨4, 0, 5, 0x20002000, 1, 0⟩) :: List.replicate 4 (cycle none none) ++
    cycle none (some ⟨4, 0, 1, 0x20003000, 1, 0⟩) :: List.replicate 4 (cycle none none)

/-- Run the cycles while the bench is fair and the host translates under the roots. -/
def play (m : MemoryState) (cycles : List BenchCycle) : Option BenchRun :=
  TransitionSystem.follow (fun b c => b.Fair (busWords m.mem.pm) c ∧ Rooted m.roots c)
    (fun b c => some (b.exec (busWords m.mem.pm) c)) cycles start

end BenchRun

/-- The driver makes a root and maps a page at 0x40000000. -/
def onePage : Option MemoryState :=
  (MemoryState.exec ⟨Memory.new 0x20010000, [], []⟩ .createRootPt).bind fun s =>
    s.exec (.allocate 0x20000000 0x40000000 4096)

lemma onePage_kept {m : MemoryState} (h : onePage = some m) :
    (memorySystem 0x20010000).ReachableBy (fun _ op => ¬ MemoryState.Removes op) m := by
  obtain ⟨s, hs, hst⟩ := Option.bind_eq_some_iff.mp h
  refine .next (s := s) (l := .allocate 0x20000000 0x40000000 4096) ?_ id hst
  exact .next (l := .createRootPt) (.start rfl) id hs

namespace BenchRun

lemma reachable_of_play {m : MemoryState} {cycles : List BenchCycle} {b : BenchRun}
    (h : play m cycles = some b) : (benchSystem (busWords m.mem.pm)).ReachableBy
      (fun b c => b.Fair (busWords m.mem.pm) c ∧ Rooted m.roots c) b := by
  have hstart : (benchSystem (busWords m.mem.pm)).ReachableBy
      (fun b c => b.Fair (busWords m.mem.pm) c ∧ Rooted m.roots c) start := .start ⟨MmuRun.powerUp, _, rfl⟩
  exact hstart.follow (fun b c t hst => (Option.some.inj hst).symm) h

end BenchRun

/-- The page at 0x40000000 is the one that the bench prints for work group 5. -/
theorem oneLine_translates : ∃ m b, BenchRun.play m BenchRun.oneLine = some b ∧
    b.printed = {(0x800040f, 1)} ∧ Translates m.mem b := by
  have hrun : onePage.bind (fun m : MemoryState =>
      (BenchRun.play m BenchRun.oneLine).map BenchRun.printed) = some {(0x800040f, 1)} := by
    decide +kernel
  obtain ⟨m, hm, hplay⟩ := Option.bind_eq_some_iff.mp hrun
  obtain ⟨b, hb, hprinted⟩ := Option.map_eq_some_iff.mp hplay
  exact ⟨m, b, hb, hprinted,
    bench_translates (by norm_num) (onePage_kept hm) (BenchRun.reachable_of_play hb)⟩

end Rtl
end VentusDriver
