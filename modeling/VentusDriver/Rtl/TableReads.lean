import VentusDriver.Rtl.DriverTables
import VentusDriver.Rtl.Reads

/-! Where the unit reads when it translates under the roots of the driver: the entries that the driver
looks up for the requests that are pending. They lie in the tables of the roots of these requests, or in
page 0, where nothing is stored, and never in a page that a task has mapped. -/
namespace VentusDriver
open Foundation Foundation.Radix Sv39

namespace PhysicalMemory
variable {pm : PhysicalMemory} {root : ℕ → Prop} {r va a : ℕ}

/-- The entries that the look-ups of the three levels read. -/
def lookups (pm : PhysicalMemory) (root va : ℕ) : List ℕ :=
  [entryAddr root (vaExtract va 0), entryAddr (pm.nextTable root (vaExtract va 0)) (vaExtract va 1),
    entryAddr (pm.nextTable (pm.nextTable root (vaExtract va 0)) (vaExtract va 1)) (vaExtract va 2)]

/-- The page is a table of the root at a depth, or page 0. -/
def OnPath (pm : PhysicalMemory) (root depth t : ℕ) : Prop :=
  t = 0 ∨ ∃ path, path.length = depth ∧ walk pm.entry root path = some t

/-- A look-up in page 0 leads to page 0. -/
lemma OnPath.next (h : pm.Ordered) {depth t i : ℕ} (ht : pm.OnPath r depth t) (hi : i < 512) :
    pm.OnPath r (depth + 1) (pm.nextTable t i) := by
  rcases ht with rfl | ⟨path, hlen, hw⟩
  · exact .inl (nextTable_zero h hi)
  · by_cases hnext : pm.nextTable t i = 0
    · exact .inl hnext
    · refine .inr ⟨path ++ [i], by simp [hlen], ?_⟩
      rw [walk_snoc, hw]
      exact if_pos ⟨hi, hnext⟩

/-- The place of an entry in its table. -/
lemma OnPath.entry (h : pm.PageTables root) (hr : root r) {depth t i : ℕ} (ht : pm.OnPath r depth t)
    (hdepth : depth ≤ 3) (hi : i < 512) : t ≤ entryAddr t i ∧ entryAddr t i + 8 ≤ t + 4096 := by
  have hlow : t < 2 ^ 57 := by
    rcases ht with rfl | ⟨path, hlen, hw⟩
    · norm_num
    · have hupper := (h.reached_lower ⟨r, path, hr, by omega, hw⟩).2
      have hmax := h.ordered.range_le
      simp only [maxPhyRange] at hmax
      omega
  rw [entryAddr_eq hlow hi]
  omega

/-- Every look-up is in page 0 or in a table of the root. -/
lemma PageTables.lookups_table (h : pm.PageTables root) (hr : root r) (ha : a ∈ pm.lookups r va) :
    ∃ depth ≤ 2, ∃ t, pm.OnPath r depth t ∧ t ≤ a ∧ a + 8 ≤ t + 4096 := by
  have h0 : pm.OnPath r 0 r := .inr ⟨[], rfl, rfl⟩
  have h1 := h0.next h.ordered (vaExtract_lt va 0)
  have h2 := h1.next h.ordered (vaExtract_lt va 1)
  simp only [lookups, List.mem_cons, List.not_mem_nil, or_false] at ha
  rcases ha with rfl | rfl | rfl
  · exact ⟨0, by norm_num, _, h0, h0.entry h hr (by norm_num) (vaExtract_lt va 0)⟩
  · exact ⟨1, by norm_num, _, h1, h1.entry h hr (by norm_num) (vaExtract_lt va 1)⟩
  · exact ⟨2, by norm_num, _, h2, h2.entry h hr (by norm_num) (vaExtract_lt va 2)⟩

/-- A page that a look-up touches, of whatever root and at whatever level, is a table of its root. -/
lemma PageTables.lookups_own (h : pm.PageTables root) (hr : root r) (ha : a ∈ pm.lookups r va) {r' p : ℕ}
    {path : List ℕ} (hr' : root r') (hlen : path.length ≤ 3) (hw : walk pm.entry r' path = some p)
    (hlow : p ≤ a) (hhigh : a < p + 4096) : r' = r ∧ path.length ≤ 2 := by
  obtain ⟨depth, hdepth, t, ht, hle, hlt⟩ := h.lookups_table hr ha
  have hp := h.reached_lower ⟨r', path, hr', hlen, hw⟩
  rcases ht with rfl | ⟨path', hlen', hw'⟩
  · omega
  · have halign := (h.page p ⟨r', path, hr', hlen, hw⟩).1
    have halign' := (h.page t ⟨r, path', hr, by omega, hw'⟩).1
    have heq : p = t := by omega
    subst heq
    obtain ⟨hroot, hpath⟩ := h.forest r' r path path' p hr' hr hlen (by omega) hw hw'
    exact ⟨hroot, by rw [hpath]; omega⟩

end PhysicalMemory

namespace Rtl
open PhysicalMemory MMUtest

section Bus
variable {pm : PhysicalMemory}

/-- Through low tables the unit reads what the driver looks up. -/
theorem entriesFrom_bus {ppn : BitVec 44} {va : BitVec 64}
    (h : pm.LowTables (ppn.toNat * 4096) va.toNat) :
    (entriesFrom (busMem (busWords pm)) 2 ppn (va.extractLsb' 12 27)).map BitVec.toNat =
      pm.lookups (ppn.toNat * 4096) va.toNat := by
  obtain ⟨h0, h1, h2⟩ := vpn_index va
  obtain ⟨ppn1, ppn0, hppn1, hppn0, hsecond, hthird, hlow1, -⟩ := tables_bus h
  have hlevel2 : (BitVec.ofNat 2 2).toNat * 9 = 18 := rfl
  have hlevel1 : (BitVec.ofNat 2 1).toNat * 9 = 9 := rfl
  have hlevel0 : (0#2 : BitVec 2).toNat * 9 = 0 := rfl
  rw [entriesFrom, entriesFrom, entriesFrom, busMem_pteAddr h.first, hppn1, busMem_pteAddr hlow1, hppn0]
  simp only [List.map_cons, List.map_nil, pteAddr_toNat, lookups, hlevel2, hlevel1, hlevel0, h0, h1, h2]
  rw [hthird, hsecond, entryAddr_eq (by have := h.first; omega) (vaExtract_lt _ _),
    entryAddr_eq (by have := h.second; omega) (vaExtract_lt _ _),
    entryAddr_eq (by have := h.third; omega) (vaExtract_lt _ _)]

end Bus

lemma exists_le_of_le_map {α β : Type*} {f : α → β} {n : Multiset β} {m : Multiset α} (h : n ≤ m.map f) :
    ∃ m' ≤ m, m'.map f = n := by
  induction m, n using Quotient.inductionOn₂ with
  | h l l' =>
    obtain ⟨k, hperm, hsub⟩ := h
    obtain ⟨j, hj, rfl⟩ := List.sublist_map_iff.mp hsub
    exact ⟨j, hj.subperm, Quotient.sound hperm⟩

namespace BenchRun

/-- The reads that the bus has taken and not answered, and the one that it is offered. -/
def reads (b : BenchRun) : Multiset OutA := b.asked + (outA b.mmu).sent true

/-- The tag of a read. -/
def readTag (q : OutA) : BitVec 2 := q.source.extractLsb' 0 2

lemma Follows.reads {b : BenchRun} {s : MmuRun} (h : Follows b s) : s.reads.map outABits = b.reads := by
  rw [MmuRun.reads, Multiset.map_add, h.asked, h.taken]
  rfl

lemma readTag_outABits (x : MemReqBits) : readTag (outABits x) = (portRead x).source := by
  simp only [readTag, outABits, portRead]
  generalize x.source = source
  revert source
  decide

end BenchRun

/-- A read on the bus for a request: it has the tag of the request and looks up an entry of the
translation, in page 0 or in a table of the root; of the pages of the driver it touches only this table. -/
structure TableRead (m : MemoryState) (r : HostReq) (q : OutA) : Prop where
  tag : BenchRun.readTag q = BenchRun.tagOf r
  entry : q.address.toNat ∈ m.mem.pm.lookups (r.gdsBaseaddr.toNat * 4096) r.startPc.toNat
  table : ∃ depth ≤ 2, ∃ t, m.mem.pm.OnPath (r.gdsBaseaddr.toNat * 4096) depth t ∧ t ≤ q.address.toNat ∧
    q.address.toNat + 8 ≤ t + 4096
  own : ∀ root ∈ m.roots, ∀ path p, path.length ≤ 3 → walk m.mem.pm.entry root path = some p →
    p ≤ q.address.toNat → q.address.toNat < p + 4096 →
      root = r.gdsBaseaddr.toNat * 4096 ∧ path.length ≤ 2

/-- What the bench has not printed a line for is pending, one request a tag; each read is for the pending
request with its tag, and a request has one read at a time. -/
structure ReadsTables (m : MemoryState) (pending : Multiset HostReq) (b : BenchRun) : Prop where
  accepted : pending ≤ b.accepted
  printed : b.printed = (b.accepted - pending).map (line m.mem.pm)
  tags : (pending.map BenchRun.tagOf).Nodup
  reads : ∀ q ∈ b.reads, ∃ r ∈ pending, TableRead m r q
  distinct : (b.reads.map BenchRun.readTag).Nodup

lemma lookups_lt {pm : PhysicalMemory} {root va a : ℕ} (h : pm.LowTables root va)
    (ha : a ∈ pm.lookups root va) : a < 2 ^ 32 := by
  have hentry : ∀ t level, t + 4096 ≤ 2 ^ 32 → entryAddr t (vaExtract va level) < 2 ^ 32 := by
    intro t level ht
    have hi := vaExtract_lt va level
    rw [entryAddr_eq (by omega) hi]
    omega
  simp only [lookups, List.mem_cons, List.not_mem_nil, or_false] at ha
  rcases ha with rfl | rfl | rfl
  · exact hentry _ _ h.first
  · exact hentry _ _ h.second
  · exact hentry _ _ h.third

/-- A read of the unit for a request, on the bus. -/
lemma tableRead {m : MemoryState} {r : HostReq} {x : MemReqBits}
    (h : m.mem.pm.PageTables (· ∈ m.roots)) (hr : r.gdsBaseaddr.toNat * 4096 ∈ m.roots)
    (hlow : m.mem.pm.LowTables (r.gdsBaseaddr.toNat * 4096) r.startPc.toNat)
    (htag : BenchRun.tagOf r = (portRead x).source)
    (hread : x.addr ∈ walkReads (busMem (busWords m.mem.pm)) (mmuReqBits r)) :
    TableRead m r (outABits x) := by
  have hentry : x.addr.toNat ∈ m.mem.pm.lookups (r.gdsBaseaddr.toNat * 4096) r.startPc.toNat := by
    obtain ⟨hppn, hva⟩ := mmuReqBits_toNat r
    have hbus := @entriesFrom_bus m.mem.pm ((mmuReqBits r).ptbr.extractLsb' 0 44) (mmuReqBits r).addr
    rw [hppn, hva] at hbus
    rw [← hbus hlow]
    exact List.mem_map_of_mem hread
  have haddr : (outABits x).address.toNat = x.addr.toNat := by
    have hlt := lookups_lt hlow hentry
    rw [outABits, BitVec.toNat_setWidth, Nat.mod_eq_of_lt hlt]
  refine ⟨(BenchRun.readTag_outABits x).trans htag.symm, ?_, ?_, ?_⟩
  · rwa [haddr]
  · rw [haddr]
    exact h.lookups_table hr hentry
  · intro root hroot path p hlen hw hle hlt
    rw [haddr] at hle hlt
    exact h.lookups_own hr hentry hroot hlen hw hle hlt

/-- Over the tables that the driver has made, as long as it removed nothing. -/
theorem bench_reads {range : ℕ} {m : MemoryState} {b : BenchRun} (hrange : range ≤ 2 ^ 32)
    (hm : (memorySystem range).ReachableBy (fun _ op => ¬ MemoryState.Removes op) m)
    (hb : (benchSystem (busWords m.mem.pm)).ReachableBy
      (fun b c => b.Fair (busWords m.mem.pm) c ∧ Rooted m.roots c) b) :
    ∃ pending, ReadsTables m pending b := by
  have hrooted := rooted_of_reachable hb
  have hlow : ∀ r ∈ b.accepted, m.mem.pm.LowTables (r.gdsBaseaddr.toNat * 4096) r.startPc.toNat :=
    fun r hr => MemoryState.lowTables_of_kept hrange hm (hrooted r hr) _
  obtain ⟨s, hs, hfollows⟩ := BenchRun.follows_of_fair (hb.mono fun _ _ h => h.1)
  obtain ⟨unit, hunit⟩ := MmuRun.reads_of_pending (MmuRun.inOrder_of_ready hs)
  obtain ⟨pending, hle, rfl⟩ := exists_le_of_le_map (hfollows.accepted ▸ hunit.accepted)
  refine ⟨pending, hle, ?_, ?_, fun q hq => ?_, ?_⟩
  · obtain ⟨rest, hrest⟩ := Multiset.le_iff_exists_add.mp hle
    have hanswered := hunit.answered
    rw [← hfollows.accepted, hrest, Multiset.map_add, add_tsub_cancel_left] at hanswered
    rw [hfollows.printed, hanswered, hrest, add_tsub_cancel_left]
    exact lines_eq fun r hr => hlow r (hrest ▸ Multiset.mem_add.mpr (.inr hr))
  · have htags := hunit.tags
    rwa [Multiset.map_map] at htags
  · rw [← hfollows.reads] at hq
    obtain ⟨x, hx, rfl⟩ := Multiset.mem_map.mp hq
    obtain ⟨r', hr', htag, hread⟩ := hunit.reads x hx
    obtain ⟨r, hr, rfl⟩ := Multiset.mem_map.mp hr'
    have hacc := Multiset.mem_of_le hle hr
    refine ⟨r, hr, tableRead ?_ (hrooted r hacc) (hlow r hacc) htag hread⟩
    cases MemoryState.invariant_of_kept hm with
    | inl hinv => exact hinv.tables
    | inr hsmall =>
      have hroot := hrooted r hacc
      rw [hsmall.2] at hroot
      exact absurd hroot List.not_mem_nil
  · have hdistinct := hunit.distinct
    rw [← hfollows.reads, Multiset.map_map]
    exact (congrArg Multiset.Nodup (Multiset.map_congr rfl fun x _ => BenchRun.readTag_outABits x)).mpr
      hdistinct

/-- After five cycles the bus is offered the first read of the request of work group 5. -/
theorem bench_reads_oneLine : ∃ m b pending, BenchRun.play m (BenchRun.oneLine.take 5) = some b ∧
    b.reads.map OutA.address = {0x20000008} ∧ ReadsTables m pending b := by
  have hrun : onePage.bind (fun m : MemoryState => (BenchRun.play m (BenchRun.oneLine.take 5)).map fun b =>
      b.reads.map OutA.address) = some {0x20000008} := by
    decide +kernel
  obtain ⟨m, hm, hplay⟩ := Option.bind_eq_some_iff.mp hrun
  obtain ⟨b, hb, haddress⟩ := Option.map_eq_some_iff.mp hplay
  obtain ⟨pending, hreads⟩ :=
    bench_reads (by norm_num) (onePage_kept hm) (BenchRun.reachable_of_play hb)
  exact ⟨m, b, pending, hb, haddress, hreads⟩

end Rtl
end VentusDriver
