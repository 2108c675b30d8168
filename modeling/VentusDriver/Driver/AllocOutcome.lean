import VentusDriver.Driver.Room
import VentusDriver.Driver.TaskTables

/-! How an allocation at the level of the driver ends, by the state before the call: the list of the task
has an address, memory has the pages, and the context of the kernel has an item for the record. A call that
fails behind its first step leaves the new item behind. -/
namespace VentusDriver
open Foundation PhysicalMemory Memory

/-! ### Sizes near the limit -/

lemma roundPages_wraps {size : ℕ} (hlt : size < 2 ^ 64) (hwrap : 2 ^ 64 ≤ size + 63) :
    roundPages size = 0 := by
  have hsum : u64 (size + Sv39.pageSize - 1) = size + 4095 - 2 ^ 64 := by
    rw [u64, Sv39.pageSize_eq]
    omega
  rw [roundPages, hsum, Sv39.pageSize_eq]
  omega

/-- A size that is not refused and does not wrap is rounded up. -/
lemma rounded_up {size : ℕ} (hfits : size + 63 < 2 ^ 64)
    (hlimit : alignedSize size blockSize < 0x20000000) : size ≤ alignedSize size blockSize ∧
      size < 0x20000000 ∧ roundPages size = (size + 4095) / 4096 * 4096 := by
  have hblock : blockSize = 2 ^ 6 := rfl
  rw [hblock, alignedSize_eq (by norm_num) (by norm_num; omega)] at hlimit ⊢
  have hsmall : size < 0x20000000 := by omega
  refine ⟨by omega, hsmall, ?_⟩
  rw [roundPages, Sv39.pageSize_eq, u64_of_lt (by omega)]
  omega

namespace Driver

/-! ### Conditions on the state before the call -/

/-- The task exists, the rounded size is below the limit, and the list of the task has the address `v`. -/
structure HasAddress (d : Driver) (size : ℕ) (bufType : BufferType) (t v : ℕ) : Prop where
  task : t ∈ d.ctxLst
  limit : size ≠ 0 ∧ alignedSize size blockSize < 0x20000000
  list : ∃ l, d.addrMng.HasList t l ∧
    Manager.room d.addrMng.heap (alignedSize size blockSize) l bufType = some v

/-- Memory has a gap for the pages at `v`, and the loop finds a page for every table that it makes. -/
def FindsPages (d : Driver) (size t v : ℕ) : Prop :=
  ∃ root, d.rootOf t = some root ∧ d.processor.ram.Completes root v size

/-- Memory has room for the pages at `v` and the tables on the way to them. -/
def HasPages (d : Driver) (size t v : ℕ) : Prop :=
  ∃ root, d.rootOf t = some root ∧ d.processor.ram.HasRoom root v size

/-- The context that the third step looks at has an item at `v`: it is the context of the task, or it
has one already. -/
def FindsItem (d : Driver) (t k v : ℕ) : Prop :=
  k = t ∨ ∃ l, d.addrMng.HasList k l ∧ ∃ q ∈ l, (d.addrMng.heap q).vaddr = v

/-- The second step gives a page. -/
def GetsPages (d : Driver) (size t v : ℕ) : Prop :=
  ∃ root p ram, d.rootOf t = some root ∧ d.processor.ram.allocate root v size = .ok (p, ram) ∧ p ≠ 0

variable {d : Driver} {size t k v : ℕ} {bufType : BufferType}

/-- The first step gives an address exactly when the list has it. -/
lemma hasAddress_iff (h : d.Addressed) (k : ℕ) : d.HasAddress size bufType t v ↔
    t ∈ d.ctxLst ∧ ∃ mgr, d.addrMng.allocMemory t k size bufType = .ok (v, mgr) := by
  rw [Manager.allocMemory_ok_iff h.wellLinked h.addressed]
  constructor
  · rintro ⟨htask, ⟨hsize, hlimit⟩, hlist⟩
    exact ⟨htask, hsize, hlimit, hlist⟩
  · rintro ⟨htask, hsize, hlimit, hlist⟩
    exact ⟨htask, ⟨hsize, hlimit⟩, hlist⟩

/-- What the first step has given fits into the range of the page tables. -/
lemma HasAddress.range (h : d.Addressed) (hsize : size < 2 ^ 64) (hv : d.HasAddress size bufType t v) :
    v + roundPages size ≤ 2 ^ 39 := by
  obtain ⟨-, mgr, hok⟩ := (hasAddress_iff h 0).mp hv
  obtain ⟨-, -, -, hhigh⟩ := Manager.allocMemory_addressed h.wellLinked h.addressed hok
  obtain ⟨-, hlimit⟩ := hv.limit
  by_cases hfits : size + 63 < 2 ^ 64
  · obtain ⟨-, hsmall, hround⟩ := rounded_up hfits hlimit
    omega
  · rw [roundPages_wraps hsize (Nat.not_lt.mp hfits)]
    omega

/-- The root of a task whose list has an address. -/
lemma HasAddress.root (hv : d.HasAddress size bufType t v) : ∃ info, d.ctxLst[t]? = some info ∧
    (info.root = 0 ∨ d.IsRoot info.root) := by
  obtain ⟨info, hinfo⟩ := mem_ctxLst.mp hv.task
  obtain ⟨l, hl, -⟩ := hv.list
  exact ⟨info, hinfo, isRoot_of_info hinfo hl.mem⟩

/-- The second step gives a page exactly when there is a gap and the loop comes to its end. -/
lemma findsPages_iff (h : d.Intact) (hsize : size < 2 ^ 64) (hv : d.HasAddress size bufType t v) :
    d.GetsPages size t v ↔ d.FindsPages size t v := by
  have hrange := hv.range h.addressed hsize
  have hcompletes : ∀ root, d.rootOf t = some root →
      ((∃ p ram, d.processor.ram.allocate root v size = .ok (p, ram) ∧ p ≠ 0) ↔
        d.processor.ram.Completes root v size) :=
    fun root hroot => allocate_completes_iff h.blocks (h.roots t root hroot) (by omega)
  constructor
  · rintro ⟨root, p, ram, hroot, hok, hp⟩
    exact ⟨root, hroot, (hcompletes root hroot).mp ⟨p, ram, hok, hp⟩⟩
  · rintro ⟨root, hroot, hpages⟩
    obtain ⟨p, ram, hok, hp⟩ := (hcompletes root hroot).mpr hpages
    exact ⟨root, p, ram, hroot, hok, hp⟩

/-- The second step gives a page exactly when memory has room. -/
lemma getsPages_iff (h : TaskTables d) (hsize : size < 2 ^ 64) (hv : d.HasAddress size bufType t v) :
    d.GetsPages size t v ↔ d.HasPages size t v := by
  obtain ⟨info, hinfo, hroot⟩ := hv.root
  have hrootOf : d.rootOf t = some info.root := by rw [rootOf, hinfo, Option.map_some]
  have hgives := allocate_gives_iff h.tables hroot (hv.range h.addressed hsize)
  constructor
  · rintro ⟨root, p, ram, hr, hok, hp⟩
    obtain rfl := Option.some.inj (hrootOf.symm.trans hr)
    exact ⟨_, hrootOf, hgives.mp ⟨p, ram, hok, hp⟩⟩
  · rintro ⟨root, hr, hroom⟩
    obtain rfl := Option.some.inj (hrootOf.symm.trans hr)
    obtain ⟨p, ram, hok, hp⟩ := hgives.mpr hroom
    exact ⟨_, p, ram, hrootOf, hok, hp⟩

/-! ### A task with a kernel -/

lemma ok_of_toOption {α β ε : Type} {r : Except ε (α × β)} {a : α}
    (h : r.toOption.map Prod.fst = some a) : ∃ b, r = .ok (a, b) := by
  cases r with
  | error e => cases h
  | ok r => exact ⟨r.2, by rw [← Option.some.inj h]⟩

/-- A driver with one task. -/
def oneTask : Driver := (new.perform (.call (.createDeviceMem 0))).2

lemma oneTask_eval : (new.perform (.call (.createDeviceMem 0))).1.toOption.isSome = true ∧
    0 ∈ oneTask.ctxLst ∧ oneTask.rootOf 0 = some 0x20000000 ∧ oneTask.addrMng.cxtMem[0]? = some none ∧
    (oneTask.processor.ram.allocate 0x20000000 0x60000000 4096).toOption.map Prod.fst = some 0x20001000 := by
  decide +kernel

lemma hostSystem_oneTask : hostSystem.ReachableBy Confined oneTask :=
  (TransitionSystem.ReachableBy.start rfl).next (l := .call (.createDeviceMem 0))
    (Idle.confined ⟨rfl, fun t ht => by cases ht⟩) ⟨returned_of_toOption oneTask_eval.1, rfl⟩

/-- The first buffer of one page. -/
lemma first_address {mgr : Manager} (hlist : mgr.HasList 0 []) (k : ℕ) :
    ∃ mgr', mgr.allocMemory 0 k 4096 .readWrite = .ok (0x60000000, mgr') := by
  have hsize : alignedSize 4096 blockSize = 4096 := by decide
  exact ⟨_, Manager.allocMemory_nil hlist (by norm_num) (by rw [hsize]; norm_num)⟩

/-- The task has a buffer of one page. -/
def oneBuffer : Driver := (oneTask.perform (.call (.allocLocalMem 4096 .readWrite 0 0))).2

lemma oneBuffer_eval :
    (oneTask.perform (.call (.allocLocalMem 4096 .readWrite 0 0))).1.toOption.isSome = true ∧
    0 ∈ oneBuffer.addrMng.cxtMem ∧ oneBuffer.rootOf 0 = some 0x20000000 ∧
    oneBuffer.processor.ram.pm.currentBlock = some 3 ∧
    oneBuffer.processor.ram.convert 0x20000000 0x60000000 = 0x20001000 := by
  decide +kernel

/-- A kernel that writes to the page. -/
def storingKernel : HostOp :=
  .start 0 TranslationState.oneBlock fun _ => [⟨0x20001000, fun _ => 6, 1, by norm_num⟩]

/-- The kernel has run. -/
def oneKernel : Driver := (oneBuffer.perform storingKernel).2

/-- The root of the task translates the buffer to the page, and the page holds what the kernel wrote. There is
a place for a buffer behind it, and room for its page. -/
lemma oneKernel_eval : (oneBuffer.perform storingKernel).1.toOption.isSome = true ∧
    (oneKernel.processor.ram.convert 0x20000000 0x60000000 = 0x20001000 ∧
      oneKernel.processor.ram.pm.readValue 4 0x20001000 = 6) ∧
    oneKernel.rootOf 0 = some 0x20000000 ∧ oneKernel.processor.ram.pm.currentBlock = some 3 ∧
    (oneKernel.addrMng.allocMemory 0 0 4096 .readWrite).toOption.map Prod.fst = some 0x60001000 ∧
    oneKernel.processor.ram.pm.usable (roundPages 4096) ≠ 0 ∧
    oneKernel.processor.ram.bytesNeeded 0x20000000 0x60001000 4096 ≤ oneKernel.processor.ram.pm.freeBytes := by
  decide +kernel

lemma hostSystem_oneKernel : hostSystem.ReachableBy Confined oneKernel := by
  obtain ⟨hreturned, hmem, hroot, hcursor, hpage⟩ := oneBuffer_eval
  have hbuffer : hostSystem.ReachableBy Confined oneBuffer :=
    hostSystem_oneTask.next (l := .call (.allocLocalMem 4096 .readWrite 0 0))
      (Idle.confined ⟨rfl, fun t ht => by cases ht⟩) ⟨returned_of_toOption hreturned, rfl⟩
  have hroot : oneBuffer.IsRoot 0x20000000 := ⟨by norm_num, 0, hmem, hroot⟩
  have hconfined : oneBuffer.Confined storingKernel := by
    refine (taskTables_of_reachable hbuffer).confined_of_translated (by simp [hcursor]) hroot rfl ?_
    rintro w ⟨i, hw⟩
    rw [List.mem_singleton.mp hw]
    exact ⟨0x60000000, by norm_num [numThread], hpage.symm⟩
  exact hbuffer.next hconfined ⟨returned_of_toOption oneKernel_eval.1, rfl⟩

lemma oneKernel_stored : oneKernel.processor.ram.pm.readValue 4 0x20001000 = 6 := oneKernel_eval.2.1.2

lemma oneKernel_root : oneKernel.rootOf 0 = some 0x20000000 := oneKernel_eval.2.2.1

/-- The next buffer of one page. -/
lemma oneKernel_address {v : ℕ} (hv : oneKernel.HasAddress 4096 .readWrite 0 v) : v = 0x60001000 := by
  have haddressed := (taskTables_of_reachable hostSystem_oneKernel).addressed
  obtain ⟨-, mgr, hok⟩ := (hasAddress_iff haddressed 0).mp hv
  obtain ⟨-, -, -, -, hnext, -⟩ := oneKernel_eval
  rw [hok] at hnext
  exact Option.some.inj hnext

lemma oneKernel_pages : oneKernel.HasPages 4096 0 0x60001000 := by
  obtain ⟨-, -, hroot, hcursor, -, hgap, hfree⟩ := oneKernel_eval
  refine ⟨0x20000000, hroot, hgap, ⟨?_, fun hzero => ?_⟩, hfree⟩
  · simp [hcursor]
  · simp [hcursor] at hzero

/-- The kernel writes a table entry of the task: it leads to a page without storage. -/
def strayKernel : HostOp :=
  .start 0 TranslationState.oneBlock fun _ =>
    [⟨0x20000000, fun i => if i = 2 then 0x8000801 else 0, 4, by norm_num⟩]

def oneStray : Driver := (oneTask.perform strayKernel).2

lemma oneStray_eval : (oneTask.perform strayKernel).1.toOption.isSome = true ∧
    oneStray.rootOf 0 = some 0x20000000 ∧ oneStray.addrMng.cxtMem[0]? = some none ∧
    oneStray.processor.ram.pm.nextTable 0x20000000 1 = 0x20002000 ∧
    (oneStray.processor.ram.allocate 0x20000000 0x60000000 4096).toOption.map Prod.fst = some 0x20001000 := by
  decide +kernel

lemma hostSystem_oneStray : hostSystem.Reachable oneStray :=
  hostSystem_oneTask.reachable.next (l := strayKernel) trivial ⟨returned_of_toOption oneStray_eval.1, rfl⟩

lemma oneStray_list : oneStray.addrMng.HasList 0 [] := ⟨none, oneStray_eval.2.2.1, rfl⟩

lemma oneStray_entry : oneStray.processor.ram.pm.nextTable 0x20000000 1 = 0x20002000 := oneStray_eval.2.2.2.1

lemma oneStray_pages : oneStray.GetsPages 4096 0 0x60000000 := by
  obtain ⟨-, hroot, -, -, hallocates⟩ := oneStray_eval
  obtain ⟨ram, hphysical⟩ := ok_of_toOption hallocates
  exact ⟨0x20000000, 0x20001000, ram, hroot, hphysical, by norm_num⟩

lemma oneStray_address {v : ℕ} (hv : oneStray.HasAddress 4096 .readWrite 0 v) : v = 0x60000000 := by
  have haddressed := (intact_of_reachable hostSystem_oneStray).addressed
  obtain ⟨-, mgr, hok⟩ := (hasAddress_iff haddressed 0).mp hv
  obtain ⟨mgr', hfirst⟩ := first_address oneStray_list 0
  rw [hok] at hfirst
  exact (Prod.mk.inj (Except.ok.inj hfirst)).1

/-! ### A failing allocation -/

/-- The item lists of all contexts, the blocks of device memory and every translation are as before. -/
structure Unchanged (d d' : Driver) : Prop where
  lists : ∀ c l, d'.addrMng.HasList c l ↔ d.addrMng.HasList c l
  items : ∀ c l, d.addrMng.HasList c l → ∀ p ∈ l, d'.addrMng.heap p = d.addrMng.heap p
  blocks : d'.processor.ram.pm.blocks = d.processor.ram.pm.blocks
  tables : ∀ root v, d'.processor.ram.convert root v = d.processor.ram.convert root v

/-- The call threw an exception or returned a value that is not 0. -/
def Fails (r : Except Failure (ℤ × ℕ)) : Prop := Returned r ∧ ∀ v, r ≠ .ok (0, v)

/-- The call comes back, and if it fails, it has changed nothing. -/
def AllocatesAtomically (d : Driver) (size : ℕ) (bufType : BufferType) (t k : ℕ) : Prop :=
  Returned (d.allocLocalMem size bufType t k).1 ∧
    (Fails (d.allocLocalMem size bufType t k).1 → Unchanged d (d.allocLocalMem size bufType t k).2)

/-- The context of the task has a list that is longer than before. -/
lemma not_unchanged (h : d.addrMng.WellLinked) {t k size v : ℕ} {bufType : BufferType} {mgr : Manager}
    (hvirtual : d.addrMng.allocMemory t k size bufType = .ok (v, mgr)) {d' : Driver}
    (hmgr : d'.addrMng = mgr) : ¬ Unchanged d d' := by
  intro hsame
  obtain ⟨l, l', hl, hadd, -⟩ := Manager.allocMemory_added h hvirtual
  have hl' : d.addrMng.HasList t l' := (hsame.lists t l').mp (hmgr ▸ hadd.list)
  have hlen := hadd.perm.length_eq
  rw [hl'.unique hl, List.length_cons] at hlen
  omega

/-- A call is atomic exactly when, for an address that its first step gives, its other steps succeed. -/
theorem allocatesAtomically_iff (h : d.Addressed) (size : ℕ) (bufType : BufferType) (t k : ℕ) :
    d.AllocatesAtomically size bufType t k ↔
      ∀ v, d.HasAddress size bufType t v → d.GetsPages size t v ∧ d.FindsItem t k v := by
  have hcall := allocLocalMem_call h.wellLinked size bufType t k
  unfold AllocatesAtomically
  generalize d.allocLocalMem size bufType t k = r at hcall ⊢
  -- the address of a call whose first step has succeeded, and its page
  have hgiven : ∀ {v info mgr}, d.ctxLst[t]? = some info →
      d.addrMng.allocMemory t k size bufType = .ok (v, mgr) → d.HasAddress size bufType t v ∧
        (d.GetsPages size t v ↔
          ∃ p ram, d.processor.ram.allocate info.root v size = .ok (p, ram) ∧ p ≠ 0) := by
    intro v info mgr hinfo hvirtual
    have hroot : d.rootOf t = some info.root := by rw [rootOf, hinfo, Option.map_some]
    refine ⟨(hasAddress_iff h k).mpr ⟨mem_ctxLst.mpr ⟨info, hinfo⟩, mgr, hvirtual⟩, ?_⟩
    simp only [GetsPages, hroot, Option.some.injEq, exists_and_left, exists_eq_left']
  cases hcall with
  | refused e hrefused he =>
    refine iff_of_true ⟨he, fun _ => ?_⟩ fun v hv => ?_
    · exact ⟨fun _ _ => Iff.rfl, fun _ _ _ _ _ => rfl, rfl, fun _ _ => rfl⟩
    · obtain ⟨htask, mgr, hok⟩ := (hasAddress_iff h k).mp hv
      rcases hrefused with hnone | ⟨e', herr⟩
      · exact absurd htask hnone
      · rw [hok] at herr
        cases herr
  | faulted hinfo hvirtual hphysical =>
    obtain ⟨hv, hpages⟩ := hgiven hinfo hvirtual
    refine iff_of_false (fun hatomic => ?_) fun hall => ?_
    · exact not_unchanged h.wellLinked hvirtual rfl (hatomic.2 ⟨hatomic.1, by simp⟩)
    · obtain ⟨p, ram, hok, -⟩ := hpages.mp (hall _ hv).1
      rw [hphysical] at hok
      cases hok
  | noPages tag text hinfo hvirtual hphysical =>
    obtain ⟨hv, hpages⟩ := hgiven hinfo hvirtual
    refine iff_of_false (fun hatomic => ?_) fun hall => ?_
    · exact not_unchanged h.wellLinked hvirtual rfl (hatomic.2 ⟨hatomic.1, by simp⟩)
    · obtain ⟨p, ram, hok, hp⟩ := hpages.mp (hall _ hv).1
      rw [hphysical] at hok
      exact hp (Prod.mk.inj (Except.ok.inj hok)).1.symm
  | notAttached e hinfo hvirtual hphysical hp hnone he =>
    obtain ⟨hv, -⟩ := hgiven hinfo hvirtual
    refine iff_of_false (fun hatomic => ?_) fun hall => ?_
    · exact not_unchanged h.wellLinked hvirtual rfl (hatomic.2 ⟨he, by simp⟩)
    · obtain ⟨l, hl, q, hq, heq⟩ := (item_at_iff h.wellLinked hvirtual).mpr (hall _ hv).2
      exact hnone l hl q hq heq
  | attached hinfo hvirtual hphysical hp hl hq hv =>
    obtain ⟨-, hpages⟩ := hgiven hinfo hvirtual
    have hlow := (Manager.allocMemory_addressed h.wellLinked h.addressed hvirtual).2.2.1
    refine iff_of_true ⟨trivial, fun hfails => ?_⟩ fun v' hv' => ?_
    · -- the address is not 0, so the call returns 0
      exact absurd (by rw [if_neg (by omega)]) (hfails.2 _)
    · obtain ⟨-, mgr', hvirtual'⟩ := (hasAddress_iff h k).mp hv'
      obtain ⟨rfl, -⟩ := Prod.mk.inj (Except.ok.inj (hvirtual.symm.trans hvirtual'))
      exact ⟨hpages.mpr ⟨_, _, hphysical, hp⟩, (item_at_iff h.wellLinked hvirtual).mp ⟨_, hl, _, hq, hv⟩⟩

/-- In every state that the host reaches a call is atomic exactly when, for an address that the list of
the task has, memory has a gap, the loop finds its pages, and the context of the kernel has an item. In
confined runs the first two are a matter of the free bytes. -/
theorem alloc_atomic_iff (h : hostSystem.Reachable d) (hsize : size < 2 ^ 64) (bufType : BufferType)
    (t k : ℕ) : (d.AllocatesAtomically size bufType t k ↔
        ∀ v, d.HasAddress size bufType t v → d.FindsPages size t v ∧ d.FindsItem t k v) ∧
      (hostSystem.ReachableBy Confined d → (d.AllocatesAtomically size bufType t k ↔
        ∀ v, d.HasAddress size bufType t v → d.HasPages size t v ∧ d.FindsItem t k v)) := by
  have hintact := intact_of_reachable h
  have hiff := allocatesAtomically_iff hintact.addressed size bufType t k
  constructor
  · apply hiff.trans
    apply forall₂_congr
    intro v hv
    rw [findsPages_iff hintact hsize hv]
  · intro hconfined
    apply hiff.trans
    apply forall₂_congr
    intro v hv
    rw [getsPages_iff (taskTables_of_reachable hconfined) hsize hv]

/-- After a kernel that has written to its page, and after one that has written a table entry. -/
theorem alloc_atomic_iff_oneKernel : (∃ d, hostSystem.Reachable d ∧
      d.processor.ram.pm.readValue 4 0x20001000 = 6 ∧ d.AllocatesAtomically 4096 .readWrite 0 0) ∧
    ∃ d, hostSystem.Reachable d ∧ d.processor.ram.pm.nextTable 0x20000000 1 = 0x20002000 ∧
      d.AllocatesAtomically 4096 .readWrite 0 0 := by
  constructor
  · have hreach := hostSystem_oneKernel
    refine ⟨oneKernel, hreach.reachable, oneKernel_stored, ?_⟩
    refine ((alloc_atomic_iff hreach.reachable (by norm_num) .readWrite 0 0).2 hreach).mpr fun v hv => ?_
    rw [oneKernel_address hv]
    exact ⟨oneKernel_pages, .inl rfl⟩
  · have hreach := hostSystem_oneStray
    refine ⟨oneStray, hreach, oneStray_entry, ?_⟩
    refine (alloc_atomic_iff hreach (by norm_num) .readWrite 0 0).1.mpr fun v hv => ⟨?_, .inl rfl⟩
    apply (findsPages_iff (intact_of_reachable hreach) (by norm_num) hv).mp
    rw [oneStray_address hv]
    exact oneStray_pages

/-- The kernel is not a task: the call throws, and the task keeps the item. -/
theorem failed_alloc_keeps_item : ∃ d, hostSystem.Reachable d ∧ 0 ∈ d.ctxLst ∧
    (d.allocLocalMem 4096 .readWrite 0 1).1 = .error .outOfRange ∧
    ¬ d.AllocatesAtomically 4096 .readWrite 0 1 := by
  let r := oneTask.allocLocalMem 4096 .readWrite 0 1
  obtain ⟨-, hmem, -, hbefore, -⟩ := oneTask_eval
  have hcall : r.1 = .error .outOfRange ∧ r.2.addrMng.cxtMem[0]? = some (some 0) := by decide +kernel
  obtain ⟨hfails, hafter⟩ := hcall
  refine ⟨oneTask, hostSystem_oneTask.reachable, hmem, hfails, fun hatomic => ?_⟩
  have hsame : Unchanged oneTask r.2 := hatomic.2 ⟨by rw [hfails]; trivial, by rw [hfails]; simp⟩
  have hget := ((hsame.lists 0 []).mpr ⟨none, hbefore, rfl⟩).get_nil
  rw [hafter] at hget
  cases hget

end Driver
end VentusDriver
