import VentusDriver.Foundation.Transition
import VentusDriver.Device.Release

/-! Physical isolation of the tasks. Creating roots and allocating keep the mapped pages of all
roots distinct and backed by live blocks. Releasing a region frees its block but leaves its leaf
entries valid, so the first release ends the isolation. -/
namespace VentusDriver
open Foundation Foundation.Radix Sv39 PhysicalMemory

/-- Device memory with the roots made and the regions allocated so far. A region is recorded by its
root and its start. -/
structure IsolationState where
  mem : Memory
  roots : List ℕ
  regions : List (ℕ × ℕ)

inductive IsolationOp
  | createRootPt
  | allocate (root vAddr length : ℕ)
  | release (root vAddr : ℕ)

namespace IsolationState

/-- The leaf entry of a virtual address leads to the page `q`. -/
def Leaf (s : IsolationState) (root va q : ℕ) : Prop :=
  root ∈ s.roots ∧ walk s.mem.pm.entry root (vaPath va) = some q

/-- The page holds a root or an intermediate table. -/
def Table (s : IsolationState) (q : ℕ) : Prop := IsTable s.mem.pm.entry 3 (· ∈ s.roots) q

/-- Tables and the pages of other roots keep their storage and their bytes. -/
def KeepsOthers (s : IsolationState) (root : ℕ) (mem : Memory) : Prop :=
  ∀ q, (s.Table q ∨ ∃ r va, r ≠ root ∧ s.Leaf r va q) →
    mem.pm.Backed q 4096 ∧ ∀ x, q ≤ x → x < q + 4096 → mem.pm.byteAt x = s.mem.pm.byteAt x

def afterRelease (s : IsolationState) (root vAddr : ℕ) : IsolationState :=
  ⟨(s.mem.release root vAddr).2, s.roots, s.regions.erase (root, vAddr)⟩

end IsolationState

/-- Runs of `create_root_pt`, `allocate` and `release` of allocated regions. A region has at least
one page, and the result 0 of the first two operations is a failure. -/
def isolationSystem (range : ℕ) : TransitionSystem IsolationState IsolationOp where
  init s := s = ⟨Memory.new range, [], []⟩
  step s op t :=
    match op with
    | .createRootPt => ∃ root mem, s.mem.createRootPt = .ok (root, mem) ∧
        t = { s with mem := mem, roots := if root = 0 then s.roots else root :: s.roots }
    | .allocate root vAddr length => root ∈ s.roots ∧ 4096 ∣ vAddr ∧
        ∃ pAddr mem, s.mem.allocate root vAddr length = .ok (pAddr, mem) ∧
          t = { s with mem := mem, regions :=
                  if pAddr ≠ 0 ∧ 0 < roundPages length then (root, vAddr) :: s.regions
                  else s.regions }
    | .release root vAddr => (root, vAddr) ∈ s.regions ∧ t = s.afterRelease root vAddr

/-- No page has two leaf entries, none is a table, all of them are live, and neither a write nor a
release through one root reaches a table or a page of another. -/
structure Isolated (s : IsolationState) : Prop where
  distinct : ∀ r r' va va' q, s.Leaf r va q → s.Leaf r' va' q → r = r' ∧ vaPath va = vaPath va'
  notTable : ∀ r va q t, s.Leaf r va q → s.Table t → q + 4096 ≤ t ∨ t + 4096 ≤ q
  live : ∀ r va q, s.Leaf r va q →
    ∃ b ∈ s.mem.pm.blocks, b.pages.isSome = true ∧ b.addr ≤ q ∧ q + 4096 ≤ b.limit
  write : ∀ r vAddr size input, r ∈ s.roots → vAddr < 2 ^ 64 →
    s.KeepsOthers r (s.mem.writeVirt r vAddr size input).2
  release : ∀ r vAddr, (r, vAddr) ∈ s.regions → s.KeepsOthers r (s.mem.release r vAddr).2

/-- A run without release. -/
def NoRelease (_ : IsolationState) (op : IsolationOp) : Prop :=
  ∀ root vAddr, op ≠ .release root vAddr

/-- The tables are sound and the start of every region is mapped. -/
structure IsolationInvariant (s : IsolationState) : Prop where
  tables : s.mem.pm.PageTables (· ∈ s.roots)
  regions : ∀ r v, (r, v) ∈ s.regions →
    r ∈ s.roots ∧ 4096 ∣ v ∧ (walk s.mem.pm.entry r (vaPath v)).isSome = true

lemma vaPath_u64 (v : ℕ) : vaPath (u64 v) = vaPath v := by
  simp only [vaPath, vaExtract_zero, vaExtract_one, vaExtract_two, u64, List.cons.injEq, and_true]
  omega

namespace IsolationInvariant
variable {s : IsolationState}

lemma of_growth (h : IsolationInvariant s) {mem : Memory}
    (g : Growth (· ∈ s.roots) s.mem.pm mem.pm) {r v : ℕ} (hmem : (r, v) ∈ s.regions) :
    r ∈ s.roots ∧ 4096 ∣ v ∧ (walk mem.pm.entry r (vaPath v)).isSome = true := by
  obtain ⟨hr, hdvd, hsome⟩ := h.regions r v hmem
  obtain ⟨q, hq⟩ := Option.isSome_iff_exists.mp hsome
  exact ⟨hr, hdvd, by rw [g.walks r _ q hr (by simp) hq]; rfl⟩

lemma createRootPt (h : IsolationInvariant s) {root : ℕ} {mem : Memory}
    (heq : s.mem.createRootPt = .ok (root, mem)) :
    IsolationInvariant { s with
      mem := mem, roots := if root = 0 then s.roots else root :: s.roots } := by
  rcases Memory.createRootPt_ok h.tables heq with ⟨rfl, rfl⟩ | ⟨hne, hstep⟩
  · exact h
  · rw [if_neg hne]
    refine ⟨by simpa [List.mem_cons] using hstep.tables, fun r v hmem => ?_⟩
    obtain ⟨hr, hdvd, hsome⟩ := h.of_growth hstep.growth hmem
    exact ⟨List.mem_cons_of_mem _ hr, hdvd, hsome⟩

lemma allocate (h : IsolationInvariant s) {root vAddr length pAddr : ℕ} {mem : Memory}
    (hr : root ∈ s.roots) (hdvd : 4096 ∣ vAddr)
    (heq : s.mem.allocate root vAddr length = .ok (pAddr, mem)) :
    IsolationInvariant { s with mem := mem, regions :=
      if pAddr ≠ 0 ∧ 0 < roundPages length then (root, vAddr) :: s.regions else s.regions } := by
  have hstep := Memory.allocate_ok h.tables hr heq
  refine ⟨hstep.growth.tables, fun r v hmem => ?_⟩
  split_ifs at hmem with hnew
  · cases List.mem_cons.mp hmem with
    | inl heq =>
      obtain ⟨rfl, rfl⟩ := Prod.mk.inj heq
      obtain ⟨n, hn⟩ := roundPages_dvd length
      have hmapped := hstep.mapped hnew.1 0 (by omega)
      rw [Nat.zero_mul, Nat.add_zero, vaPath_u64] at hmapped
      exact ⟨hr, hdvd, hmapped⟩
    | inr hmem =>
      exact h.of_growth hstep.growth hmem
  · exact h.of_growth hstep.growth hmem

/-! ### What the invariant gives -/

lemma keepsOthers_of_pageWrites (h : IsolationInvariant s) {r : ℕ} (hr : r ∈ s.roots)
    {mem : Memory} (hwr : Memory.PageWrites (· ∈ s.roots) s.mem r mem) :
    s.KeepsOthers r mem := by
  rintro q hq
  have hreach : IsReached s.mem.pm.entry 3 (· ∈ s.roots) q := by
    rcases hq with ht | ⟨r', va, -, hr', hw⟩
    · exact ht.isReached
    · exact ⟨r', _, hr', by simp, hw⟩
  obtain ⟨hdvd, hback⟩ := h.tables.page q hreach
  refine ⟨hwr.frames.backed hback, fun x hlow hhigh => hwr.bytes x fun va q' hq' hin => ?_⟩
  rcases hq with ht | ⟨r', va', hne, hr', hw⟩
  · exact Memory.leaf_not_in_table h.tables hr (by simp) hq' hin.1 hin.2 ht ⟨hlow, hhigh⟩
  · -- pages do not overlap, and a page has one root
    obtain ⟨a, rfl⟩ := hdvd
    obtain ⟨b, rfl⟩ := (h.tables.page q' ⟨r, _, hr, by simp, hq'⟩).1
    have hab : a = b := by omega
    subst hab
    exact hne (h.tables.forest r' r _ _ _ hr' hr (by simp) (by simp) hw hq').1

theorem isolated (h : IsolationInvariant s) : Isolated s := by
  refine ⟨?_, ?_, ?_, ?_, ?_⟩
  · rintro r r' va va' q ⟨hr, hw⟩ ⟨hr', hw'⟩
    exact h.tables.forest r r' _ _ q hr hr' (by simp) (by simp) hw hw'
  · rintro r va q t ⟨hr, hw⟩ ht
    have hdvd := (h.tables.page q ⟨r, _, hr, by simp, hw⟩).1
    have hdvd' := (h.tables.table_page ht).1
    have := Memory.leaf_not_in_table h.tables hr (by simp) hw le_rfl (by omega) ht
    omega
  · rintro r va q ⟨hr, hw⟩
    exact (h.tables.page q ⟨r, _, hr, by simp, hw⟩).2
  · intro r vAddr size input hr hv
    exact h.keepsOthers_of_pageWrites hr (Memory.writeVirt_pageWrites h.tables hr hv size input)
  · intro r v hmem q hq
    obtain ⟨hr, hdvd, hsome⟩ := h.regions r v hmem
    obtain ⟨p, hp⟩ := Option.isSome_iff_exists.mp hsome
    obtain ⟨b, hb, -, hlow, hhigh, hrem, -⟩ := Memory.release_spec h.tables hr hdvd hp
    obtain ⟨-, hkeep⟩ := h.tables.removed hr (by simp) hp hb hlow (by omega) hrem
    rcases hq with ⟨r', path, hr', hlen, ht⟩ | ⟨r', va, hne, hr', hw⟩
    · exact hkeep r' path q hr' (by omega) ht (.inr hlen)
    · exact hkeep r' _ q hr' (by simp) hw (.inl hne)

/-- After the release of a region its first leaf entry leads to a page without a live block. -/
theorem release_not_isolated (h : IsolationInvariant s) {r v : ℕ} (hmem : (r, v) ∈ s.regions) :
    ¬ Isolated (s.afterRelease r v) := by
  intro hiso
  obtain ⟨hr, hdvd, hsome⟩ := h.regions r v hmem
  obtain ⟨q, hq⟩ := Option.isSome_iff_exists.mp hsome
  obtain ⟨b, hb, -, hlow, hhigh, hrem, -⟩ := Memory.release_spec h.tables hr hdvd hq
  obtain ⟨hwalk, -⟩ := h.tables.removed hr (by simp) hq hb hlow (by omega) hrem
  have hleaf : (s.afterRelease r v).Leaf r v q := ⟨hr, (hwalk r _ hr (by simp)).trans hq⟩
  obtain ⟨c, hc, -, hclow, hchigh⟩ := hiso.live r v q hleaf
  exact hrem.gone c hc q hlow (by omega) ⟨hclow, by omega⟩

end IsolationInvariant

/-- In every state reached without a release, either the invariant holds or no root was made. -/
theorem isolationSystem_invariant {range : ℕ} {s : IsolationState}
    (h : (isolationSystem range).ReachableBy NoRelease s) :
    IsolationInvariant s ∨ (range < 0x20000000 ∧ s = ⟨Memory.new range, [], []⟩) := by
  refine h.invariant (I := fun s => IsolationInvariant s ∨
    (range < 0x20000000 ∧ s = ⟨Memory.new range, [], []⟩)) ?_ ?_
  · rintro s rfl
    by_cases hrange : range < 0x20000000
    · exact .inr ⟨hrange, rfl⟩
    · left
      refine ⟨.of_new (by omega) (by simp), by simp⟩
  · rintro s op t (hs | ⟨hrange, rfl⟩) hguard hstep
    · left
      cases op with
      | createRootPt =>
        obtain ⟨root, mem, heq, rfl⟩ := hstep
        exact hs.createRootPt heq
      | allocate root vAddr length =>
        obtain ⟨hr, hdvd, pAddr, mem, heq, rfl⟩ := hstep
        exact hs.allocate hr hdvd heq
      | release root vAddr => exact absurd rfl (hguard root vAddr)
    · right
      refine ⟨hrange, ?_⟩
      cases op with
      | createRootPt =>
        obtain ⟨root, mem, heq, rfl⟩ := hstep
        rw [Memory.createRootPt_small hrange] at heq
        obtain ⟨rfl, rfl⟩ := Prod.mk.inj (Except.ok.inj heq)
        rfl
      | allocate root vAddr length => exact absurd hstep.1 (by simp)
      | release root vAddr => exact absurd rfl (hguard root vAddr)

/-- Every state of a run without release is isolated, and every release from it ends that. -/
theorem isolation_until_release {range : ℕ} {s : IsolationState}
    (h : (isolationSystem range).ReachableBy NoRelease s) :
    Isolated s ∧ ∀ r v, (r, v) ∈ s.regions → ¬ Isolated (s.afterRelease r v) := by
  rcases isolationSystem_invariant h with hs | ⟨-, rfl⟩
  · exact ⟨hs.isolated, fun r v hmem => hs.release_not_isolated hmem⟩
  · refine ⟨⟨?_, ?_, ?_, ?_, ?_⟩, by simp⟩
    · rintro r r' va va' q ⟨hr, -⟩
      simp at hr
    · rintro r va q t ⟨hr, -⟩
      simp at hr
    · rintro r va q ⟨hr, -⟩
      simp at hr
    · simp
    · simp

/-! ### Runs on concrete inputs -/

/-- The steps, executed. -/
def IsolationState.exec (s : IsolationState) : IsolationOp → Option IsolationState
  | .createRootPt =>
    match s.mem.createRootPt with
    | .error _ => none
    | .ok (root, mem) =>
      some { s with mem := mem, roots := if root = 0 then s.roots else root :: s.roots }
  | .allocate root vAddr length =>
    if root ∈ s.roots ∧ 4096 ∣ vAddr then
      match s.mem.allocate root vAddr length with
      | .error _ => none
      | .ok (pAddr, mem) =>
        some { s with mem := mem, regions :=
          if pAddr ≠ 0 ∧ 0 < roundPages length then (root, vAddr) :: s.regions else s.regions }
    else none
  | .release root vAddr =>
    if (root, vAddr) ∈ s.regions then some (s.afterRelease root vAddr) else none

lemma exec_step {range : ℕ} {s t : IsolationState} {op : IsolationOp} (h : s.exec op = some t) :
    (isolationSystem range).step s op t := by
  cases op with
  | createRootPt =>
    simp only [IsolationState.exec] at h
    split at h
    · cases h
    · next root mem heq => exact ⟨root, mem, heq, (Option.some.inj h).symm⟩
  | allocate root vAddr length =>
    simp only [IsolationState.exec] at h
    split_ifs at h with hpre
    split at h
    · cases h
    · next pAddr mem heq => exact ⟨hpre.1, hpre.2, pAddr, mem, heq, (Option.some.inj h).symm⟩
  | release root vAddr =>
    simp only [IsolationState.exec] at h
    split_ifs at h with hmem
    exact ⟨hmem, (Option.some.inj h).symm⟩

/-- One page allocated for one root. -/
theorem isolation_until_release_onePage : ∃ s, (0x20000000, 0x40000000) ∈ s.regions ∧
    Isolated s ∧ ¬ Isolated (s.afterRelease 0x20000000 0x40000000) := by
  have hrun : (([.createRootPt, .allocate 0x20000000 0x40000000 4096].foldlM IsolationState.exec
      ⟨Memory.new 0x20010000, [], []⟩).map IsolationState.regions) =
        some [(0x20000000, 0x40000000)] := by decide +kernel
  obtain ⟨s, hs, hregions⟩ := Option.map_eq_some_iff.mp hrun
  have hreach : (isolationSystem 0x20010000).ReachableBy NoRelease s := by
    refine (TransitionSystem.ReachableBy.start rfl).run (fun op hop s t hst => ⟨?_, exec_step hst⟩)
      hs
    rintro root vAddr rfl
    simp at hop
  have hmem : (0x20000000, 0x40000000) ∈ s.regions := by simp [hregions]
  obtain ⟨hiso, hrelease⟩ := isolation_until_release hreach
  exact ⟨s, hmem, hiso, hrelease _ _ hmem⟩

/-- A page released by one root is given to another, and then both roots translate to it. -/
theorem release_shares_page :
    ∃ s, (isolationSystem 0x20010000).Reachable s ∧ ¬ Isolated s := by
  have hrun : (([.createRootPt, .createRootPt, .allocate 0x20000000 0x40000000 4096,
      .release 0x20000000 0x40000000, .allocate 0x20001000 0x40000000 4096].foldlM
      IsolationState.exec ⟨Memory.new 0x20010000, [], []⟩).map fun s =>
        (s.roots, walk s.mem.pm.entry 0x20000000 (vaPath 0x40000000),
          walk s.mem.pm.entry 0x20001000 (vaPath 0x40000000))) =
        some ([0x20001000, 0x20000000], some 0x20002000, some 0x20002000) := by decide +kernel
  obtain ⟨s, hs, hresult⟩ := Option.map_eq_some_iff.mp hrun
  simp only [Prod.mk.injEq] at hresult
  obtain ⟨hroots, hfirst, hsecond⟩ := hresult
  refine ⟨s, (TransitionSystem.ReachableBy.start rfl).run
    (fun op _ s t hst => ⟨trivial, exec_step hst⟩) hs, fun hiso => ?_⟩
  have := hiso.distinct _ _ _ _ _ ⟨by simp [hroots], hfirst⟩ ⟨by simp [hroots], hsecond⟩
  exact absurd this.1 (by norm_num)

end VentusDriver
