import VentusDriver.Device.BrokenTables
import VentusDriver.Device.DeviceStores
import VentusDriver.Driver.HostCalls
import VentusDriver.Driver.LocalMemory

/-! The page tables of the tasks in runs of all calls of the host. The tables of the tasks that the
address manager knows stay apart, as long as the device writes to none of them and nothing is uploaded
through a task that it has forgotten: the tables of such a task still lead to pages that were given
back. -/
namespace VentusDriver
open Foundation PhysicalMemory Memory

namespace Driver

/-- The page table roots of the tasks that the address manager knows. -/
def IsRoot (d : Driver) (r : ℕ) : Prop := r ≠ 0 ∧ ∃ t, t ∈ d.addrMng.cxtMem ∧ d.rootOf t = some r

/-- The page is a table of a task that the address manager knows. -/
def IsTaskTable (d : Driver) (q : ℕ) : Prop := Radix.IsTable d.processor.ram.pm.entry 3 d.IsRoot q

/-- What the host and the device leave alone. Uploads go through tasks that the address manager knows: it
forgets a task when one of its buffers is freed. What the device writes during a call hits no table. -/
structure Confined (d : Driver) (op : HostOp) : Prop where
  uploads : ∀ t ∈ op.uploads, t ∈ d.addrMng.cxtMem
  stores : ∀ w, op.Stores w → ∀ q, d.IsTaskTable q → w.Misses q

/-- The device does not run. -/
def Idle (d : Driver) (op : HostOp) : Prop := op.runs = false ∧ ∀ t ∈ op.uploads, t ∈ d.addrMng.cxtMem

instance (d : Driver) (op : HostOp) : Decidable (d.Idle op) :=
  inferInstanceAs (Decidable (_ ∧ _))

lemma Idle.confined {d : Driver} {op : HostOp} (h : d.Idle op) : d.Confined op :=
  ⟨h.2, fun _ hw => absurd (HostOp.runs_of_stores hw) (by simp [h.1])⟩

/-- Tasks that the address manager knows have roots of their own, and tables of their own below them. -/
structure TaskTables (d : Driver) : Prop where
  addressed : d.Addressed
  own : ∀ t t' r, r ≠ 0 → t ∈ d.addrMng.cxtMem → t' ∈ d.addrMng.cxtMem → d.rootOf t = some r →
    d.rootOf t' = some r → t = t'
  tables : TablesOrLost d.IsRoot d.processor.ram.pm

variable {d d' : Driver}

/-- The root of a task that the address manager knows, if it has one. -/
lemma isRoot_of_info {t : ℕ} {info : CtxInfo} (hinfo : d.ctxLst[t]? = some info)
    (ht : t ∈ d.addrMng.cxtMem) : info.root = 0 ∨ d.IsRoot info.root := by
  by_cases hzero : info.root = 0
  · exact .inl hzero
  · exact .inr ⟨hzero, t, ht, by rw [rootOf, hinfo, Option.map_some]⟩

/-- A call that brings no task with a root keeps the invariant when it keeps the tables. -/
lemma TaskTables.keep (h : TaskTables d) (haddr : d'.Addressed)
    (hroot : ∀ t r, t ∈ d'.addrMng.cxtMem → d'.rootOf t = some r →
      t ∈ d.addrMng.cxtMem ∧ d.rootOf t = some r ∨ r = 0)
    (htables : TablesOrLost d'.IsRoot d'.processor.ram.pm) : TaskTables d' := by
  refine ⟨haddr, ?_, htables⟩
  intro t t' r hr ht ht' hroot₁ hroot₂
  obtain ⟨hmem₁, hold₁⟩ := (hroot t r ht hroot₁).resolve_right hr
  obtain ⟨hmem₂, hold₂⟩ := (hroot t' r ht' hroot₂).resolve_right hr
  exact h.own t t' r hr hmem₁ hmem₂ hold₁ hold₂

lemma isRoot_of_keep (hroot : ∀ t r, t ∈ d'.addrMng.cxtMem → d'.rootOf t = some r →
    t ∈ d.addrMng.cxtMem ∧ d.rootOf t = some r ∨ r = 0) {r : ℕ} (hr : d'.IsRoot r) : d.IsRoot r := by
  obtain ⟨hne, t, ht, hroot'⟩ := hr
  obtain ⟨hmem, hold⟩ := (hroot t r ht hroot').resolve_right hne
  exact ⟨hne, t, hmem, hold⟩

/-- A call that touches no table. -/
lemma TaskTables.same (h : TaskTables d) (haddr : d'.Addressed)
    (hroot : ∀ t r, t ∈ d'.addrMng.cxtMem → d'.rootOf t = some r →
      t ∈ d.addrMng.cxtMem ∧ d.rootOf t = some r ∨ r = 0)
    (hram : d'.processor.ram = d.processor.ram) : TaskTables d' :=
  h.keep haddr hroot (hram ▸ h.tables.mono fun _ => isRoot_of_keep hroot)

/-! ### Tasks -/

lemma rootOf_of_entry {c : ℕ} (info : CtxInfo) (hself : d'.ctxLst[c]? = some info)
    (hother : ∀ t, t ≠ c → d'.ctxLst[t]? = d.ctxLst[t]?) (t : ℕ) :
    d'.rootOf t = if t = c then some info.root else d.rootOf t := by
  split_ifs with heq
  · rw [heq, rootOf, hself, Option.map_some]
  · rw [rootOf, hother t heq, rootOf]

/-- The ways in which `createDeviceMem` ends. -/
inductive CreateCall (d : Driver) (c : ℕ) (d' : Driver) : Prop
  | refused (hsame : d' = d)
  | created (r : ℕ) (hnew : d.addrMng.createNewContext c = .ok d'.addrMng)
      (hroots : ∀ t, d'.rootOf t = if t = c then some r else d.rootOf t)
      (hram : (r = 0 ∧ d'.processor.ram = d.processor.ram) ∨
        d.processor.ram.createRootPt = .ok (r, d'.processor.ram))

theorem createDeviceMem_call (d : Driver) (c : ℕ) : CreateCall d c (d.createDeviceMem c).2 := by
  unfold createDeviceMem
  split_ifs with hmem
  · exact .refused rfl
  cases hnew : d.addrMng.createNewContext c with
  | error e => exact .refused rfl
  | ok mgr =>
    simp only
    cases hroot : d.processor.ram.createRootPt with
    | error fault =>
      refine .created 0 hnew (rootOf_of_entry (CtxInfo.new c) ?_ ?_) (.inl ⟨rfl, rfl⟩)
      · simp
      · exact fun t hne => getElem?_insert_ne hne
    | ok r =>
      refine .created r.1 hnew (rootOf_of_entry { CtxInfo.new c with root := r.1 } ?_ ?_) (.inr hroot)
      · simp
      · exact fun t hne => (getElem?_insert_ne hne).trans (getElem?_insert_ne hne)

theorem TaskTables.createDeviceMem (h : TaskTables d) (c : ℕ) : TaskTables (d.createDeviceMem c).2 := by
  have haddr := h.addressed.createDeviceMem c
  have hcall := createDeviceMem_call d c
  generalize (d.createDeviceMem c).2 = d' at haddr hcall ⊢
  cases hcall with
  | refused hsame => exact hsame ▸ h
  | created r hnew hroots hram =>
    have hkeys := Manager.createNewContext_mem hnew
    have hold : ∀ t x, t ∈ d'.addrMng.cxtMem → d'.rootOf t = some x →
        (t = c ∧ x = r) ∨ (t ∈ d.addrMng.cxtMem ∧ d.rootOf t = some x) := by
      intro t x ht hroot
      rw [hroots] at hroot
      split_ifs at hroot with heq
      · exact .inl ⟨heq, (Option.some.inj hroot).symm⟩
      · exact .inr ⟨((hkeys t).mp ht).resolve_left heq, hroot⟩
    have hcases : (r = 0 ∧ d'.processor.ram = d.processor.ram) ∨
        (r ≠ 0 ∧ ¬ d.IsRoot r ∧ d'.processor.ram.pm.PageTables fun x => x = r ∨ d.IsRoot x) := by
      cases hram with
      | inl hzero => exact .inl hzero
      | inr hroot => exact createRootPt_tablesOrLost h.tables hroot
    cases hcases with
    | inl hzero =>
      -- a task without a root has no tables
      refine h.same haddr (fun t x ht hroot => ?_) hzero.2
      rcases hold t x ht hroot with ⟨-, rfl⟩ | hsame
      · exact .inr hzero.1
      · exact .inl hsame
    | inr hnew =>
      obtain ⟨-, hnot, htables⟩ := hnew
      refine ⟨haddr, ?_, .inr (htables.mono ?_)⟩
      · intro t t' x hx ht ht' hroot hroot'
        rcases hold t x ht hroot with ⟨rfl, rfl⟩ | ⟨hmem, hroot⟩
        · rcases hold t' x ht' hroot' with ⟨heq, -⟩ | ⟨hmem', hroot'⟩
          · exact heq.symm
          · exact absurd ⟨hx, t', hmem', hroot'⟩ hnot
        · rcases hold t' x ht' hroot' with ⟨-, rfl⟩ | ⟨hmem', hroot'⟩
          · exact absurd ⟨hx, t, hmem, hroot⟩ hnot
          · exact h.own t t' x hx hmem hmem' hroot hroot'
      · rintro x ⟨hx, t, ht, hroot⟩
        exact (hold t x ht hroot).imp And.right fun hsame => ⟨hx, t, hsame⟩

lemma deleteDeviceMem_roots (d : Driver) (c : ℤ) (t : ℕ) : (d.deleteDeviceMem c).2.rootOf t = d.rootOf t := by
  unfold deleteDeviceMem
  split_ifs with hmem
  · rfl
  · simp only [rootOf]
    rw [Std.ExtTreeMap.getElem?_erase]
    split_ifs with heq
    · rw [Nat.compare_eq_eq] at heq
      rw [← heq, Std.ExtTreeMap.getElem?_eq_none hmem]
    · rfl

lemma deleteDeviceMem_ram (d : Driver) (c : ℤ) :
    (d.deleteDeviceMem c).2.processor.ram = d.processor.ram := by
  unfold deleteDeviceMem
  split_ifs <;> rfl

/-! ### Buffers -/

theorem TaskTables.allocLocalMem (h : TaskTables d) (size : ℕ) (bufType : BufferType) (t k : ℕ) :
    TaskTables (d.allocLocalMem size bufType t k).2 := by
  have haddr := h.addressed.allocLocalMem size bufType t k
  obtain ⟨hctx, -, hcxt⟩ := allocLocalMem_mem h.addressed.wellLinked size bufType t k
  have hroots : ∀ c r, c ∈ (d.allocLocalMem size bufType t k).2.addrMng.cxtMem →
      (d.allocLocalMem size bufType t k).2.rootOf c = some r →
      c ∈ d.addrMng.cxtMem ∧ d.rootOf c = some r ∨ r = 0 := by
    intro c r hc hroot
    rw [rootOf, hctx] at hroot
    exact .inl ⟨(hcxt c).mp hc, hroot⟩
  cases allocLocalMem_ram h.addressed.wellLinked size bufType t k with
  | inl hram => exact h.same haddr hroots hram
  | inr hallocated =>
    obtain ⟨info, v, mgr, p, hinfo, hvirtual, hphysical⟩ := hallocated
    obtain ⟨l, l', hl, -⟩ := Manager.allocMemory_added h.addressed.wellLinked hvirtual
    have htables := allocate_tablesOrLost h.tables (isRoot_of_info hinfo hl.mem) hphysical
    exact h.keep haddr hroots (htables.mono fun _ => isRoot_of_keep hroots)

theorem TaskTables.freeLocalMem (h : TaskTables d) (size v t k : ℕ) :
    TaskTables (d.freeLocalMem size v t k).2 := by
  have haddr := h.addressed.freeLocalMem size v t k
  revert haddr
  unfold Driver.freeLocalMem
  split_ifs with hrefused
  · exact fun _ => h
  rcases Manager.releaseMemory_cases h.addressed.wellLinked t k v size with
    ⟨l, p, hl, hp, hv, heq⟩ | ⟨-, e, -, heq⟩
  swap
  · rw [heq]
    exact fun _ => h
  rw [heq]
  have hmem := Manager.released_mem d.addrMng t p
  simp only
  cases hinfo : d.ctxLst[t]? with
  | none => exact fun haddr => h.same haddr (fun c r hc hroot => .inl ⟨((hmem c).mp hc).2, hroot⟩) rfl
  | some info =>
    intro haddr
    have hroots : ∀ c r, c ∈ (d.addrMng.released t p).cxtMem → d.rootOf c = some r →
        c ∈ d.addrMng.cxtMem ∧ d.rootOf c = some r ∨ r = 0 :=
      fun c r hc hroot => .inl ⟨((hmem c).mp hc).2, hroot⟩
    refine h.keep haddr hroots ?_
    have haligned : 4096 ∣ v := by
      have hshape := h.addressed.addressed t l hl
      exact (hshape.range v (List.mem_map.mpr ⟨p, hp, hv⟩)).1
    refine release_tablesOrLost h.tables (isRoot_of_info hinfo hl.mem) haligned ?_
    rintro r ⟨hr, c, hc, hroot⟩
    obtain ⟨hne, hold⟩ := (hmem c).mp hc
    refine ⟨⟨hr, c, hold, hroot⟩, ?_⟩
    -- the root of the task is that of no other task
    rintro rfl
    exact hne (h.own c t _ hr hold hl.mem hroot (by rw [rootOf, hinfo, Option.map_some]))

theorem TaskTables.upload (h : TaskTables d) {v : ℕ} (hv : v < 2 ^ 64) (src : Option (ℕ → UInt8))
    (size t k : ℕ) (ht : t ∈ d.addrMng.cxtMem) : TaskTables (d.upload v src size t k).2 := by
  cases src with
  | none => exact h
  | some src =>
    unfold Driver.upload
    cases hinfo : d.ctxLst[t]? with
    | none => exact h
    | some info =>
      simp only
      by_cases hsize : size = 0
      · rwa [if_pos hsize]
      · rw [if_neg hsize]
        exact ⟨⟨h.addressed.wellLinked, h.addressed.addressed⟩, h.own,
          writeVirt_tablesOrLost h.tables (isRoot_of_info hinfo ht) hv size src⟩

/-! ### Kernels -/

lemma Addressed.sameTasks {P : DeviceStore → Prop} (h : d.Addressed) (hs : SameTasks P d d') : d'.Addressed :=
  ⟨hs.buffers ▸ h.wellLinked, hs.buffers ▸ h.addressed⟩

lemma SameTasks.isRoot {P : DeviceStore → Prop} (hs : SameTasks P d d') {r : ℕ} (hr : d'.IsRoot r) :
    d.IsRoot r := by
  obtain ⟨hne, t, ht, hroot⟩ := hr
  exact ⟨hne, t, hs.buffers ▸ ht, (hs.roots t).symm.trans hroot⟩

/-- Calls in which the device writes to no table. -/
lemma TaskTables.sameTasks {P : DeviceStore → Prop} (h : TaskTables d) (hs : SameTasks P d d')
    (hmiss : ∀ w, P w → ∀ q, d.IsTaskTable q → w.Misses q) : TaskTables d' := by
  obtain ⟨stores, hstores, hram⟩ := hs.ram
  refine h.keep (h.addressed.sameTasks hs) ?_ ?_
  · intro t r ht hroot
    rw [hs.buffers] at ht
    rw [hs.roots] at hroot
    exact .inl ⟨ht, hroot⟩
  · rw [hram]
    exact (stored_tablesOrLost h.tables fun w hw => hmiss w (hstores w hw)).mono fun _ => hs.isRoot

/-! ### Runs -/

theorem TaskTables.perform (h : TaskTables d) {op : HostOp} (hop : d.Confined op) :
    TaskTables (d.perform op).2 := by
  cases op with
  | call op =>
    cases op with
    | createDeviceMem t => exact h.createDeviceMem t
    | deleteDeviceMem t =>
      exact h.same (h.addressed.call (.deleteDeviceMem t)) (fun c r hc hroot => .inl
        ⟨(deleteDeviceMem_mem d t).1 ▸ hc, (deleteDeviceMem_roots d t c).symm.trans hroot⟩)
        (deleteDeviceMem_ram d t)
    | allocLocalMem size bufType t k => exact h.allocLocalMem size bufType t k
    | freeLocalMem size v t k => exact h.freeLocalMem size v t k
  | upload devVaddr src size t k => exact h.upload (u64_lt _) src size t k (hop.uploads t rfl)
  | download devVaddr dst size t k => exact h
  | start taskID inputData device =>
    exact h.sameTasks (start_sameTasks d taskID inputData fun i w hw => ⟨i, hw⟩) hop.stores
  | wait ticks => exact h.sameTasks (wait_sameTasks d fun w hw => hw) hop.stores
  | getFinishedKernel => exact ⟨⟨h.addressed.wellLinked, h.addressed.addressed⟩, h.own, h.tables⟩
  | executeAllKernel fuel device => exact h.sameTasks (executeAllKernel_sameTasks d fuel device) hop.stores

/-- What the device writes at the translations of lines, under the root of a known task, hits no table. -/
theorem TaskTables.confined_of_translated (h : TaskTables d) (hcursor : d.processor.ram.pm.currentBlock ≠ none)
    {r : ℕ} (hr : d.IsRoot r) {op : HostOp} (hop : op.uploads = none)
    (hstores : ∀ w, op.Stores w → ∃ va, 4 * numThread ∣ va ∧ w.addr = d.processor.ram.convert r va) :
    d.Confined op := by
  have htables := h.tables.resolve_left hcursor
  refine ⟨fun t ht => ?_, fun w hw q hq => ?_⟩
  · rw [hop] at ht
    cases ht
  · obtain ⟨va, hline, haddr⟩ := hstores w hw
    obtain ⟨r', path, hr', hlen, hwalk⟩ := hq
    exact DeviceStore.misses_of_convert htables hr hline haddr hr' (by omega) (.inr hlen) hwalk

theorem taskTables_new : TaskTables Driver.new := by
  have hnone : ∀ t, t ∉ Driver.new.addrMng.cxtMem := by
    intro t ht
    simp [new, Manager.new] at ht
  refine ⟨⟨Manager.new_wellLinked, Manager.new_addressed⟩, ?_, .inr ?_⟩
  · exact fun t _ _ _ ht => absurd ht (hnone t)
  · refine PageTables.of_new (by decide) fun r hr => ?_
    obtain ⟨-, t, ht, -⟩ := hr
    exact hnone t ht

/-- In every run the tables of the tasks that the address manager knows stay apart. -/
theorem taskTables_of_reachable (h : hostSystem.ReachableBy Confined d) : TaskTables d := by
  apply h.invariant
  · rintro d rfl
    exact taskTables_new
  · rintro d op d' hd hop ⟨-, rfl⟩
    exact hd.perform hop

/-! ### Runs of any calls -/

/-- The lists of the address manager and the list of blocks are as their functions make them, and the
roots are page addresses. -/
structure Intact (d : Driver) : Prop where
  addressed : d.Addressed
  blocks : d.processor.ram.pm.Intact
  roots : ∀ t r, d.rootOf t = some r → IsPage r

/-- Wherever the device writes. -/
lemma Intact.sameTasks {P : DeviceStore → Prop} (h : d.Intact) (hs : SameTasks P d d') : d'.Intact := by
  obtain ⟨stores, -, hram⟩ := hs.ram
  refine ⟨h.addressed.sameTasks hs, hram ▸ stored_intact h.blocks stores, fun t r hroot => ?_⟩
  rw [hs.roots] at hroot
  exact h.roots t r hroot

lemma Intact.createDeviceMem (h : d.Intact) (c : ℕ) : (d.createDeviceMem c).2.Intact := by
  have haddr := h.addressed.createDeviceMem c
  have hcall := createDeviceMem_call d c
  generalize (d.createDeviceMem c).2 = d' at haddr hcall ⊢
  cases hcall with
  | refused hsame => exact hsame ▸ h
  | created r hnew hroots hram =>
    have hcreated : d'.processor.ram.pm.Intact ∧ IsPage r := by
      rcases hram with ⟨rfl, hram⟩ | hroot
      · exact ⟨hram ▸ h.blocks, isPage_zero⟩
      · refine ⟨intact_growthRule.pageRule.createRootPt h.blocks hroot, ?_⟩
        by_cases hzero : r = 0
        · exact hzero ▸ isPage_zero
        · exact createRootPt_isPage h.blocks.ordered hroot hzero
    refine ⟨haddr, hcreated.1, fun t x hroot => ?_⟩
    rw [hroots] at hroot
    split_ifs at hroot
    · exact Option.some.inj hroot ▸ hcreated.2
    · exact h.roots t x hroot

lemma Intact.allocLocalMem (h : d.Intact) (size : ℕ) (bufType : BufferType) (t k : ℕ) :
    (d.allocLocalMem size bufType t k).2.Intact := by
  obtain ⟨hctx, -⟩ := allocLocalMem_mem h.addressed.wellLinked size bufType t k
  refine ⟨h.addressed.allocLocalMem size bufType t k, ?_, fun c r hroot => ?_⟩
  · cases allocLocalMem_ram h.addressed.wellLinked size bufType t k with
    | inl hram => exact hram ▸ h.blocks
    | inr hallocated =>
      obtain ⟨info, v, mgr, p, -, -, hphysical⟩ := hallocated
      exact intact_growthRule.allocate h.blocks trivial hphysical
  · rw [rootOf, hctx] at hroot
    exact h.roots c r hroot

lemma Intact.freeLocalMem (h : d.Intact) (size v t k : ℕ) : (d.freeLocalMem size v t k).2.Intact := by
  have haddr := h.addressed.freeLocalMem size v t k
  revert haddr
  unfold Driver.freeLocalMem
  split_ifs
  · exact fun _ => h
  · cases d.addrMng.releaseMemory t k v size with
    | error e => exact fun _ => h
    | ok r =>
      simp only
      cases d.ctxLst[t]? with
      | none => exact fun haddr => ⟨haddr, h.blocks, h.roots⟩
      | some info =>
        refine fun haddr => ⟨haddr, ?_, h.roots⟩
        show (d.processor.ram.release info.root v).2.pm.Intact
        rw [release_eq]
        split_ifs
        · exact h.blocks
        · exact intact_removalRule.remove h.blocks trivial

lemma Intact.upload (h : d.Intact) (v : ℕ) (src : Option (ℕ → UInt8)) (size t k : ℕ) :
    (d.upload v src size t k).2.Intact := by
  unfold Driver.upload
  split
  · rename_i src info _
    split_ifs
    · exact h
    · refine ⟨⟨h.addressed.wellLinked, h.addressed.addressed⟩, ?_, h.roots⟩
      exact writeVirt_keeps (fun addr len data hs => hs.writeData addr len data) info.root v size src h.blocks
  · exact h

theorem Intact.perform (h : d.Intact) (op : HostOp) : (d.perform op).2.Intact := by
  cases op with
  | call op =>
    cases op with
    | createDeviceMem t => exact h.createDeviceMem t
    | deleteDeviceMem t =>
      refine ⟨h.addressed.call (.deleteDeviceMem t), deleteDeviceMem_ram d t ▸ h.blocks, ?_⟩
      intro c r hroot
      exact h.roots c r ((deleteDeviceMem_roots d t c).symm.trans hroot)
    | allocLocalMem size bufType t k => exact h.allocLocalMem size bufType t k
    | freeLocalMem size v t k => exact h.freeLocalMem size v t k
  | upload devVaddr src size t k => exact h.upload (u64 devVaddr) src size t k
  | download devVaddr dst size t k => exact h
  | start taskID inputData device =>
    have hs : SameTasks (HostOp.start taskID inputData device).Stores d (d.start taskID inputData device).2 :=
      start_sameTasks d taskID inputData fun i w hw => ⟨i, hw⟩
    exact h.sameTasks hs
  | wait ticks => exact h.sameTasks (@wait_sameTasks _ d ticks fun w hw => hw)
  | getFinishedKernel => exact ⟨⟨h.addressed.wellLinked, h.addressed.addressed⟩, h.blocks, h.roots⟩
  | executeAllKernel fuel device => exact h.sameTasks (executeAllKernel_sameTasks d fuel device)

theorem intact_of_reachable (h : hostSystem.Reachable d) : d.Intact := by
  apply h.invariant (I := Intact)
  · rintro d rfl
    have hwf := @PhysicalMemory.new_wellFormed ramRange (by decide)
    refine ⟨⟨Manager.new_wellLinked, Manager.new_addressed⟩, ⟨hwf.ordered, .inr hwf.cursor⟩, ?_⟩
    intro t r hroot
    simp [rootOf, new] at hroot
  · rintro d op d' hd - ⟨-, rfl⟩
    exact hd.perform op

end Driver
end VentusDriver
