import VentusDriver.Device.SameView
import VentusDriver.Driver.TaskTables

/-! Tasks do not reach into the memory of one another. Whatever other tasks create, allocate, free, upload
or run, in any order, a task downloads what it would have downloaded before, as long as the device does
not write to its pages. -/
namespace VentusDriver
open Foundation PhysicalMemory Memory

/-- The task whose buffers or bytes a call may change. -/
def HostOp.changes : HostOp → Option ℕ
  | .call (.allocLocalMem _ _ taskID _) => some taskID
  | .call (.freeLocalMem _ _ taskID _) => some taskID
  | .upload _ _ _ taskID _ => some taskID
  | _ => none

/-- Runs through the calls of the host from a state on. -/
def hostFrom (d : Driver) : TransitionSystem Driver HostOp where
  init d' := d' = d
  step := hostSystem.step

namespace Driver
variable {d d' d'' : Driver} {t : ℕ} {who : Option ℕ} {P : DeviceStore → Prop}

/-- Calls that do not change the buffers or bytes of the task, and in which the device does not write
to the pages below its root. -/
structure Elsewhere (t : ℕ) (d : Driver) (op : HostOp) : Prop where
  confined : d.Confined op
  other : op.changes ≠ some t
  apart : ∀ w, op.Stores w → ∀ r, r ≠ 0 → d.rootOf t = some r →
    ∀ q, Radix.IsReached d.processor.ram.pm.entry 3 (fun x => x = r) q → w.Misses q

/-! ### Device memory -/

/-- What a call does to device memory, on behalf of which task, and to the roots. -/
inductive RamCall (d : Driver) (who : Option ℕ) (P : DeviceStore → Prop) (d' : Driver) : Prop
  | stored (stores : List DeviceStore) (hstores : ∀ w ∈ stores, P w)
      (hram : d'.processor.ram = d.processor.ram.stored stores) (hroots : ∀ x, d'.IsRoot x → d.IsRoot x)
  | root (r : ℕ) (hmade : d.processor.ram.createRootPt = .ok (r, d'.processor.ram))
      (hroots : ∀ x, d'.IsRoot x → x = r ∨ d.IsRoot x)
  | pages {c : ℕ} {info : CtxInfo} {v size p : ℕ} (hwho : who = some c) (hc : c ∈ d.addrMng.cxtMem)
      (hinfo : d.ctxLst[c]? = some info)
      (hadded : d.processor.ram.allocate info.root v size = .ok (p, d'.processor.ram))
      (hroots : ∀ x, d'.IsRoot x → d.IsRoot x)
  | freed {c : ℕ} {info : CtxInfo} {v : ℕ} (hwho : who = some c) (hc : c ∈ d.addrMng.cxtMem)
      (hinfo : d.ctxLst[c]? = some info) (haligned : 4096 ∣ v)
      (hfreed : d'.processor.ram = (d.processor.ram.release info.root v).2)
      (hroots : ∀ x, d'.IsRoot x → d.IsRoot x ∧ x ≠ info.root)
  | written {c : ℕ} {info : CtxInfo} {v size : ℕ} {src : ℕ → UInt8} (hwho : who = some c)
      (hc : c ∈ d.addrMng.cxtMem) (hinfo : d.ctxLst[c]? = some info) (hv : v < 2 ^ 64) (hsize : 0 < size)
      (hwritten : d'.processor.ram = (d.processor.ram.writeVirt info.root v size src).2)
      (hroots : ∀ x, d'.IsRoot x → d.IsRoot x)

lemma RamCall.same (hram : d'.processor.ram = d.processor.ram) (hroots : ∀ x, d'.IsRoot x → d.IsRoot x) :
    RamCall d who P d' :=
  .stored [] (fun _ hw => absurd hw List.not_mem_nil) hram hroots

lemma SameTasks.ramCall (hs : SameTasks P d d') : RamCall d who P d' := by
  obtain ⟨stores, hstores, hram⟩ := hs.ram
  exact .stored stores hstores hram fun _ => hs.isRoot

lemma createDeviceMem_ramCall (d : Driver) (c : ℕ) : RamCall d who P (d.createDeviceMem c).2 := by
  have hcall := createDeviceMem_call d c
  generalize (d.createDeviceMem c).2 = d' at hcall ⊢
  cases hcall with
  | refused hsame => exact hsame ▸ (SameTasks.refl d).ramCall
  | created r hnew hroots hram =>
    have hkeys := Manager.createNewContext_mem hnew
    have hnew : ∀ x, d'.IsRoot x → x = r ∨ d.IsRoot x := by
      rintro x ⟨hx, t, ht, hroot⟩
      rw [hroots] at hroot
      split_ifs at hroot with heq
      · exact .inl (Option.some.inj hroot).symm
      · exact .inr ⟨hx, t, ((hkeys t).mp ht).resolve_left heq, hroot⟩
    cases hram with
    | inl hzero =>
      refine .same hzero.2 fun x hx => (hnew x hx).resolve_left fun heq => ?_
      exact hx.1 (heq.trans hzero.1)
    | inr hmade => exact .root r hmade hnew

lemma allocLocalMem_ramCall (hwell : d.addrMng.WellLinked) (size : ℕ) (bufType : BufferType) (c k : ℕ) :
    RamCall d (some c) P (d.allocLocalMem size bufType c k).2 := by
  obtain ⟨hctx, -, hcxt⟩ := allocLocalMem_mem hwell size bufType c k
  have hroots : ∀ x, (d.allocLocalMem size bufType c k).2.IsRoot x → d.IsRoot x := by
    rintro x ⟨hx, t, ht, hroot⟩
    rw [rootOf, hctx] at hroot
    exact ⟨hx, t, (hcxt t).mp ht, hroot⟩
  cases allocLocalMem_ram hwell size bufType c k with
  | inl hram => exact .same hram hroots
  | inr hallocated =>
    obtain ⟨info, v, mgr, p, hinfo, hvirtual, hphysical⟩ := hallocated
    obtain ⟨l, l', hl, -⟩ := Manager.allocMemory_added hwell hvirtual
    exact .pages rfl hl.mem hinfo hphysical hroots

lemma TaskTables.freeLocalMem_ramCall (h : TaskTables d) (size v c k : ℕ) :
    RamCall d (some c) P (d.freeLocalMem size v c k).2 := by
  unfold Driver.freeLocalMem
  split_ifs with hrefused
  · exact (SameTasks.refl d).ramCall
  rcases Manager.releaseMemory_cases h.addressed.wellLinked c k v size with
    ⟨l, p, hl, hp, hv, heq⟩ | ⟨-, e, -, heq⟩
  swap
  · rw [heq]
    exact (SameTasks.refl d).ramCall
  rw [heq]
  have hmem := Manager.released_mem d.addrMng c p
  simp only
  cases hinfo : d.ctxLst[c]? with
  | none => exact .same rfl fun x ⟨hx, t, ht, hroot⟩ => ⟨hx, t, ((hmem t).mp ht).2, hroot⟩
  | some info =>
    have hshape := h.addressed.addressed c l hl
    refine .freed rfl hl.mem hinfo (hshape.range v (List.mem_map.mpr ⟨p, hp, hv⟩)).1 rfl ?_
    rintro x ⟨hx, t, ht, hroot⟩
    obtain ⟨hne, hold⟩ := (hmem t).mp ht
    refine ⟨⟨hx, t, hold, hroot⟩, ?_⟩
    rintro rfl
    exact hne (h.own t c _ hx hold hl.mem hroot (by rw [rootOf, hinfo, Option.map_some]))

lemma upload_ramCall {v : ℕ} (hv : v < 2 ^ 64) (src : Option (ℕ → UInt8)) (size : ℕ) {c : ℕ} (k : ℕ)
    (hc : c ∈ d.addrMng.cxtMem) : RamCall d (some c) P (d.upload v src size c k).2 := by
  cases src with
  | none => exact (SameTasks.refl d).ramCall
  | some src =>
    unfold Driver.upload
    cases hinfo : d.ctxLst[c]? with
    | none => exact (SameTasks.refl d).ramCall
    | some info =>
      simp only
      by_cases hsize : size = 0
      · rw [if_pos hsize]
        exact (SameTasks.refl d).ramCall
      · rw [if_neg hsize]
        exact .written rfl hc hinfo hv (Nat.pos_of_ne_zero hsize) rfl fun x hx => hx

theorem TaskTables.ramCall (h : TaskTables d) {op : HostOp} (hop : d.Confined op) :
    RamCall d op.changes op.Stores (d.perform op).2 := by
  cases op with
  | call op =>
    cases op with
    | createDeviceMem c => exact createDeviceMem_ramCall d c
    | deleteDeviceMem c =>
      refine .same (deleteDeviceMem_ram d c) ?_
      rintro x ⟨hx, t, ht, hroot⟩
      exact ⟨hx, t, (deleteDeviceMem_mem d c).1 ▸ ht, (deleteDeviceMem_roots d c t).symm.trans hroot⟩
    | allocLocalMem size bufType c k => exact allocLocalMem_ramCall h.addressed.wellLinked size bufType c k
    | freeLocalMem size v c k => exact h.freeLocalMem_ramCall size v c k
  | upload devVaddr src size c k => exact upload_ramCall (u64_lt _) src size k (hop.uploads c rfl)
  | download devVaddr dst size c k => exact (SameTasks.refl d).ramCall
  | start taskID inputData device =>
    have hs : SameTasks (HostOp.start taskID inputData device).Stores d (d.start taskID inputData device).2 :=
      start_sameTasks d taskID inputData fun i w hw => ⟨i, hw⟩
    exact hs.ramCall
  | wait ticks =>
    have hs : SameTasks (HostOp.wait ticks).Stores d (d.wait ticks).2 := wait_sameTasks d fun w hw => hw
    exact hs.ramCall
  | getFinishedKernel => exact .same rfl fun x hx => hx
  | executeAllKernel fuel device => exact (executeAllKernel_sameTasks d fuel device).ramCall

/-! ### Tables -/

/-- The tables of the known tasks are sound, also when the cursor is lost. -/
structure Mapped (d : Driver) : Prop where
  intact : d.Intact
  tables : TaskTables d
  mapping : Mapping d.IsRoot d.processor.ram

lemma RamCall.mapping (hcall : RamCall d who P d') (h : Mapped d)
    (hmiss : ∀ w, P w → ∀ q, d.IsTaskTable q → w.Misses q) : Mapping d'.IsRoot d'.processor.ram := by
  cases hcall with
  | stored stores hstores hram hroots =>
    rw [hram]
    exact (h.mapping.stored fun w hw => hmiss w (hstores w hw)).mono hroots
  | root r hmade hroots =>
    rcases createRootPt_tablesOrLost h.tables.tables hmade with ⟨hzero, hsame⟩ | ⟨-, -, htables⟩
    · rw [hsame]
      exact h.mapping.mono fun x hx => (hroots x hx).resolve_left fun heq => hx.1 (heq.trans hzero)
    · exact (Mapping.of_pageTables htables).mono hroots
  | pages hwho hc hinfo hadded hroots =>
    cases h.tables.tables with
    | inl hlost => exact allocate_lost hlost hadded ▸ h.mapping.mono hroots
    | inr htables =>
      exact (Mapping.of_pageTables (allocate_tables htables (isRoot_of_info hinfo hc) hadded)).mono hroots
  | freed hwho hc hinfo haligned hfreed hroots =>
    rw [hfreed]
    exact h.mapping.release (isRoot_of_info hinfo hc) haligned hroots
  | written hwho hc hinfo hv hsize hwritten hroots =>
    rw [hwritten]
    exact (h.mapping.writeVirt (isRoot_of_info hinfo hc) hv hsize _).mono hroots

theorem Mapped.perform (h : Mapped d) {op : HostOp} (hop : d.Confined op) : Mapped (d.perform op).2 :=
  ⟨h.intact.perform op, h.tables.perform hop, (h.tables.ramCall hop).mapping h hop.stores⟩

theorem mapped_of_reachable (h : hostSystem.ReachableBy Confined d) : Mapped d := by
  refine h.invariant (I := Mapped) ?_ ?_
  · rintro d rfl
    refine ⟨intact_of_reachable (.start rfl), taskTables_new, fun r hr => ?_⟩
    obtain ⟨-, t, ht, -⟩ := hr
    simp [new, Manager.new] at ht
  · rintro d op d' hd hop ⟨-, rfl⟩
    exact hd.perform hop

/-! ### Calls for other tasks -/

/-- The root of a known task shows the same memory after a call for another task. -/
theorem RamCall.sameView (hcall : RamCall d who P d') (h : Mapped d) (hother : who ≠ some t) {r : ℕ}
    (hr : r ≠ 0) (ht : t ∈ d.addrMng.cxtMem) (hroot : d.rootOf t = some r)
    (hapart : ∀ w, P w → ∀ q, Radix.IsReached d.processor.ram.pm.entry 3 (fun x => x = r) q → w.Misses q) :
    SameView d.processor.ram d'.processor.ram r := by
  have hown : d.IsRoot r := ⟨hr, t, ht, hroot⟩
  have hne : ∀ {c info}, who = some c → c ∈ d.addrMng.cxtMem → d.ctxLst[c]? = some info → r ≠ info.root := by
    rintro c info rfl hc hinfo rfl
    refine hother (congrArg some (h.tables.own c t _ hr hc ht ?_ hroot))
    rw [rootOf, hinfo, Option.map_some]
  cases hcall with
  | stored stores hstores hram =>
    rw [hram]
    exact h.mapping.stored_sameView hown fun w hw => hapart w (hstores w hw)
  | root x hmade =>
    cases h.tables.tables with
    | inl hlost => exact (createRootPt_lost hlost hmade).2 ▸ .refl _ r
    | inr htables =>
      cases createRootPt_ok htables hmade with
      | inl hfailed => exact hfailed.2 ▸ .refl _ r
      | inr hstep => exact RootStep.sameView htables hstep.2 hown
  | pages hwho hc hinfo hadded =>
    cases h.tables.tables with
    | inl hlost => exact allocate_lost hlost hadded ▸ .refl _ r
    | inr htables => exact allocate_sameView htables (isRoot_of_info hinfo hc) hadded hown (hne hwho hc hinfo)
  | freed hwho hc hinfo haligned hfreed =>
    rw [hfreed]
    exact h.mapping.release_sameView (isRoot_of_info hinfo hc) haligned hown (hne hwho hc hinfo)
  | written hwho hc hinfo hv hsize hwritten =>
    rw [hwritten]
    exact h.mapping.writeVirt_sameView (isRoot_of_info hinfo hc) hv hsize _ hown (hne hwho hc hinfo)

/-- A known task stays known and keeps its root. -/
lemma TaskTables.keeps_root (h : TaskTables d) {op : HostOp} (hop : Elsewhere t d op)
    (ht : t ∈ d.addrMng.cxtMem) :
    t ∈ (d.perform op).2.addrMng.cxtMem ∧ (d.perform op).2.rootOf t = d.rootOf t := by
  cases op with
  | call op =>
    cases op with
    | createDeviceMem c =>
      show t ∈ (d.createDeviceMem c).2.addrMng.cxtMem ∧ (d.createDeviceMem c).2.rootOf t = d.rootOf t
      have hcall := createDeviceMem_call d c
      generalize (d.createDeviceMem c).2 = d' at hcall ⊢
      cases hcall with
      | refused hsame =>
        rw [hsame]
        exact ⟨ht, rfl⟩
      | created r hnew hroots hram =>
        refine ⟨(Manager.createNewContext_mem hnew t).mpr (.inr ht), ?_⟩
        have hne : t ≠ c := by
          rintro rfl
          unfold Manager.createNewContext at hnew
          rw [if_pos ht] at hnew
          cases hnew
        rw [hroots, if_neg hne]
    | deleteDeviceMem c => exact ⟨(deleteDeviceMem_mem d c).1 ▸ ht, deleteDeviceMem_roots d c t⟩
    | allocLocalMem size bufType c k =>
      obtain ⟨hctx, -, hcxt⟩ := allocLocalMem_mem h.addressed.wellLinked size bufType c k
      exact ⟨(hcxt t).mpr ht, congrArg (fun l => l[t]?.map CtxInfo.root) hctx⟩
    | freeLocalMem size v c k =>
      have hne : t ≠ c := fun heq => hop.other (congrArg some heq.symm)
      show t ∈ (d.freeLocalMem size v c k).2.addrMng.cxtMem ∧
        (d.freeLocalMem size v c k).2.rootOf t = d.rootOf t
      unfold Driver.freeLocalMem
      split_ifs
      · exact ⟨ht, rfl⟩
      rcases Manager.releaseMemory_cases h.addressed.wellLinked c k v size with
        ⟨l, p, -, -, -, heq⟩ | ⟨-, e, -, heq⟩
      swap
      · rw [heq]
        exact ⟨ht, rfl⟩
      rw [heq]
      have hmem := (Manager.released_mem d.addrMng c p t).mpr ⟨hne, ht⟩
      simp only
      cases d.ctxLst[c]? <;> exact ⟨hmem, rfl⟩
  | upload devVaddr src size c k =>
    obtain ⟨hmgr, hctx⟩ := upload_keeps d (u64 devVaddr) src size c k
    exact ⟨show t ∈ (d.upload (u64 devVaddr) src size c k).2.addrMng.cxtMem from hmgr ▸ ht,
      congrArg (fun l => l[t]?.map CtxInfo.root) hctx⟩
  | download devVaddr dst size c k => exact ⟨ht, rfl⟩
  | start taskID inputData device =>
    have hs : SameTasks (fun _ => True) d (d.start taskID inputData device).2 :=
      start_sameTasks d taskID inputData fun _ _ _ => trivial
    exact ⟨hs.buffers ▸ ht, hs.roots t⟩
  | wait ticks =>
    have hs : SameTasks (fun _ => True) d (d.wait ticks).2 := wait_sameTasks d fun _ _ => trivial
    exact ⟨hs.buffers ▸ ht, hs.roots t⟩
  | getFinishedKernel => exact ⟨ht, rfl⟩
  | executeAllKernel fuel device =>
    have hs := executeAllKernel_sameTasks d fuel device
    exact ⟨hs.buffers ▸ ht, hs.roots t⟩

/-! ### Runs -/

/-- The task is known, has its root, and the root shows the same memory. -/
structure Undisturbed (t : ℕ) (d d' : Driver) : Prop where
  known : t ∈ d'.addrMng.cxtMem
  root : d'.rootOf t = d.rootOf t
  view : ∀ r, r ≠ 0 → d.rootOf t = some r → SameView d.processor.ram d'.processor.ram r

lemma Undisturbed.perform (h : Undisturbed t d d') (hmapped : Mapped d') {op : HostOp}
    (hop : Elsewhere t d' op) : Undisturbed t d (d'.perform op).2 := by
  obtain ⟨hknown, hroot⟩ := hmapped.tables.keeps_root hop h.known
  refine ⟨hknown, hroot.trans h.root, fun r hr hr' => ?_⟩
  have hroot' := h.root.trans hr'
  have hstep := (hmapped.tables.ramCall hop.confined).sameView hmapped hop.other hr h.known hroot'
    fun w hw => hop.apart w hw r hr hroot'
  exact (h.view r hr hr').trans hstep

/-- What a run of calls for other tasks leaves. -/
theorem undisturbed_of_run (h : Mapped d) (ht : t ∈ d.addrMng.cxtMem)
    (hrun : (hostFrom d).ReachableBy (Elsewhere t) d') : Mapped d' ∧ Undisturbed t d d' := by
  refine hrun.invariant (I := fun d' => Mapped d' ∧ Undisturbed t d d') ?_ ?_
  · rintro d' rfl
    exact ⟨h, ht, rfl, fun r _ _ => .refl _ r⟩
  · rintro d₁ op d₂ ⟨hmapped, hundisturbed⟩ hop ⟨-, rfl⟩
    exact ⟨hmapped.perform hop.confined, hundisturbed.perform hmapped hop⟩

/-- A download looks at the root of its task and at what can be read through it. -/
lemma download_congr {v size : ℕ} (hroot : d'.rootOf t = d.rootOf t)
    (hread : ∀ r out, d.rootOf t = some r → 0 < size →
      d'.processor.ram.readVirt r v size out = d.processor.ram.readVirt r v size out)
    (dst : Option (ℕ → UInt8)) (k : ℕ) : d'.download v dst size t k = d.download v dst size t k := by
  rw [rootOf, rootOf] at hroot
  cases dst with
  | none => rfl
  | some dst =>
    cases hinfo : d.ctxLst[t]? with
    | none =>
      rw [hinfo, Option.map_none, Option.map_eq_none_iff] at hroot
      simp only [Driver.download, hinfo, hroot]
    | some info =>
      rw [hinfo, Option.map_some] at hroot
      obtain ⟨info', hinfo', hsame⟩ := Option.map_eq_some_iff.mp hroot
      simp only [Driver.download, hinfo, hinfo', hsame]
      by_cases hsize : size = 0
      · rw [if_pos hsize, if_pos hsize]
      · rw [if_neg hsize, if_neg hsize,
          hread info.root dst (by rw [rootOf, hinfo, Option.map_some]) (Nat.pos_of_ne_zero hsize)]

lemma Undisturbed.readVirt (h : Undisturbed t d d') (hd : Mapped d) (hd' : Mapped d')
    (ht : t ∈ d.addrMng.cxtMem) {r : ℕ} (hroot : d.rootOf t = some r) {v size : ℕ} (hv : v < 2 ^ 64)
    (hsize : 0 < size) (out : ℕ → UInt8) :
    d'.processor.ram.readVirt r v size out = d.processor.ram.readVirt r v size out := by
  by_cases hr : r = 0
  · simp [hr, Memory.readVirt, actVirt, convert_zero hd.intact.blocks.ordered,
      convert_zero hd'.intact.blocks.ordered]
  · have hown : ∀ x, x = r → d.IsRoot x := by
      rintro x rfl
      exact ⟨hr, t, ht, hroot⟩
    have hown' : ∀ x, x = r → d'.IsRoot x := by
      rintro x rfl
      exact ⟨hr, t, h.known, h.root.trans hroot⟩
    exact (hd.mapping.mono hown).readVirt (hd'.mapping.mono hown') rfl (h.view r hr hroot) hsize hv out

/-! ### Two tasks -/

/-- Calls that do not change the buffers or bytes of the task, while the device does not run. -/
def Quiet (t : ℕ) (d : Driver) (op : HostOp) : Prop := d.Idle op ∧ op.changes ≠ some t

instance (t : ℕ) (d : Driver) (op : HostOp) : Decidable (Quiet t d op) :=
  inferInstanceAs (Decidable (_ ∧ _))

lemma Quiet.elsewhere {op : HostOp} (h : Quiet t d op) : Elsewhere t d op :=
  ⟨h.1.confined, h.2, fun _ hw => absurd (HostOp.runs_of_stores hw) (by simp [h.1.1])⟩

/-- A kernel of another task that writes through the root of its own task. -/
theorem TaskTables.elsewhere_of_translated (h : TaskTables d) (hcursor : d.processor.ram.pm.currentBlock ≠ none)
    (ht : t ∈ d.addrMng.cxtMem) {c r : ℕ} (hc : c ∈ d.addrMng.cxtMem) (hother : c ≠ t) (hr : r ≠ 0)
    (hroot : d.rootOf c = some r) {op : HostOp} (hop : op.runs = true)
    (hstores : ∀ w, op.Stores w → ∃ va, 4 * numThread ∣ va ∧ w.addr = d.processor.ram.convert r va) :
    Elsewhere t d op := by
  have hup : op.uploads = none ∧ op.changes = none := by
    cases op with
    | start | wait | executeAllKernel => exact ⟨rfl, rfl⟩
    | call | upload | download | getFinishedKernel => cases hop
  refine ⟨h.confined_of_translated hcursor ⟨hr, c, hc, hroot⟩ hup.1 hstores, by simp [hup.2], ?_⟩
  rintro w hw r' hr' hroot' q ⟨r'', path, rfl, hlen, hwalk⟩
  obtain ⟨va, hline, haddr⟩ := hstores w hw
  have hne : r'' ≠ r := by
    rintro rfl
    exact hother (h.own c t _ hr hc ht hroot hroot')
  exact DeviceStore.misses_of_convert (h.tables.resolve_left hcursor) ⟨hr, c, hc, hroot⟩ hline haddr
    ⟨hr', t, ht, hroot'⟩ hlen (.inl hne) hwalk

/-- A call that succeeds. -/
def succeed (d : Driver) (op : HostOp) : Option Driver :=
  if (d.perform op).1.toOption.isSome = true then some (d.perform op).2 else none

lemma succeed_step {op : HostOp} (h : d.succeed op = some d') : hostSystem.step d op d' := by
  rw [succeed] at h
  split_ifs at h with hok
  exact ⟨returned_of_toOption hok, (Option.some.inj h).symm⟩

/-- Two tasks get a buffer each. -/
def buffered : Option Driver := TransitionSystem.follow Idle succeed
  [.call (.createDeviceMem 0), .call (.createDeviceMem 1), .call (.allocLocalMem 4096 .readWrite 0 0),
    .call (.allocLocalMem 4096 .readWrite 1 1)] new

/-- Task 1 starts a kernel, which writes to the page of its buffer. -/
def ownKernel : HostOp :=
  .start 1 TranslationState.oneBlock fun _ => [⟨0x20005000, fun _ => 6, 1, by norm_num⟩]

/-- Task 1 uploads to its buffer and frees it. -/
def afterOther : Driver → Option Driver := TransitionSystem.follow (Quiet 0) succeed
  [.upload 0x60000000 (some fun _ => 9) 1 1 1, .call (.freeLocalMem 4096 0x60000000 1 1)]

lemma reachable_of_buffered (h : buffered = some d) : hostSystem.ReachableBy Confined d := by
  have hidle : hostSystem.ReachableBy Idle d :=
    TransitionSystem.ReachableBy.follow (.start rfl) (fun _ _ _ => succeed_step) h
  exact hidle.mono fun _ _ => Idle.confined

/-- What the two tasks have before the kernel runs. -/
structure TwoBuffers (d : Driver) : Prop where
  known : 0 ∈ d.addrMng.cxtMem ∧ 1 ∈ d.addrMng.cxtMem
  root : d.rootOf 1 = some 0x20001000
  mapped : d.processor.ram.convert 0x20001000 0x60000000 = 0x20005000
  cursor : d.processor.ram.pm.currentBlock.isSome

instance (d : Driver) : Decidable (TwoBuffers d) :=
  decidable_of_iff ((0 ∈ d.addrMng.cxtMem ∧ 1 ∈ d.addrMng.cxtMem) ∧ d.rootOf 1 = some 0x20001000 ∧
    d.processor.ram.convert 0x20001000 0x60000000 = 0x20005000 ∧ d.processor.ram.pm.currentBlock.isSome)
    ⟨fun h => ⟨h.1, h.2.1, h.2.2.1, h.2.2.2⟩, fun h => ⟨h.known, h.root, h.mapped, h.cursor⟩⟩

/-- The kernel and the calls after it are elsewhere. -/
lemma run_of_afterOther {d₁ : Driver} (hd : TaskTables d) (hb : TwoBuffers d)
    (hkernel : d.succeed ownKernel = some d₁)
    (h : afterOther d₁ = some d') : (hostFrom d).ReachableBy (Elsewhere 0) d' := by
  have helse : Elsewhere 0 d ownKernel := by
    refine hd.elsewhere_of_translated ?_ hb.known.1 hb.known.2 (by norm_num) (by norm_num) hb.root rfl ?_
    · exact Option.isSome_iff_ne_none.mp hb.cursor
    · rintro w ⟨i, hw⟩
      rw [List.mem_singleton.mp hw]
      exact ⟨0x60000000, by norm_num [numThread], hb.mapped.symm⟩
  have hstart : (hostFrom d).ReachableBy (Elsewhere 0) d₁ :=
    (TransitionSystem.ReachableBy.start rfl).next helse (succeed_step hkernel)
  exact hstart.run (fun op _ s t hst => by
    split_ifs at hst with hquiet
    exact ⟨Quiet.elsewhere hquiet, succeed_step hst⟩) h

/-! ### What a run leaves -/

/-- Whatever other tasks do in between, a task downloads what it would have downloaded before. -/
theorem download_undisturbed (h : hostSystem.ReachableBy Confined d) (ht : t ∈ d.addrMng.cxtMem)
    (hrun : (hostFrom d).ReachableBy (Elsewhere t) d') (v size k : ℕ) (dst : Option (ℕ → UInt8)) :
    d'.download (u64 v) dst size t k = d.download (u64 v) dst size t k := by
  have hd := mapped_of_reachable h
  obtain ⟨hd', hundisturbed⟩ := undisturbed_of_run hd ht hrun
  exact download_congr hundisturbed.root (fun r out hroot hsize =>
    hundisturbed.readVirt hd hd' ht hroot (u64_lt v) hsize out) dst k

theorem download_undisturbed_twoTasks : ∃ d d₁ d', buffered = some d ∧ d.succeed ownKernel = some d₁ ∧
    afterOther d₁ = some d' ∧
    (d₁.download (u64 0x60000000) (some fun _ => 5) 1 1 1).2.map (fun out => out 0) = some 6 ∧
    (d'.download (u64 0x60000000) (some fun _ => 5) 1 0 0).1 = .ok 0 ∧
    d'.download (u64 0x60000000) (some fun _ => 5) 1 0 0 =
      d.download (u64 0x60000000) (some fun _ => 5) 1 0 0 := by
  have hrun : (buffered.bind fun d => (d.succeed ownKernel).bind fun d₁ => (afterOther d₁).map fun d' =>
      (decide (TwoBuffers d), (d₁.download (u64 0x60000000) (some fun _ => 5) 1 1 1).2.map fun out => out 0,
        (d'.download (u64 0x60000000) (some fun _ => 5) 1 0 0).1.toOption)) =
      some (true, some 6, some 0) := by decide +kernel
  obtain ⟨d, hd, hrest⟩ := Option.bind_eq_some_iff.mp hrun
  obtain ⟨d₁, hd₁, hrest⟩ := Option.bind_eq_some_iff.mp hrest
  obtain ⟨d', hd', hresult⟩ := Option.map_eq_some_iff.mp hrest
  simp only [Prod.mk.injEq] at hresult
  obtain ⟨hbuffers, hstored, hok⟩ := hresult
  have hbuffers : TwoBuffers d := of_decide_eq_true hbuffers
  have hreach := reachable_of_buffered hd
  have hsame := download_undisturbed hreach hbuffers.known.1
    (run_of_afterOther (taskTables_of_reachable hreach) hbuffers hd₁ hd') 0x60000000 1 0 (some fun _ => 5)
  exact ⟨d, d₁, d', hd, hd₁, hd', hstored, eq_ok_of_toOption hok, hsame⟩

/-! ### What a task has uploaded -/

/-- An upload that succeeds has written through the root of its task. -/
lemma upload_ok {v size k : ℕ} {src : ℕ → UInt8} (hup : (d.upload v (some src) size t k).1 = .ok 0) :
    ∃ r, d.rootOf t = some r ∧ 0 < size ∧ (d.processor.ram.writeVirt r v size src).1 = 0 ∧
      (d.upload v (some src) size t k).2.processor.ram = (d.processor.ram.writeVirt r v size src).2 := by
  revert hup
  unfold Driver.upload
  cases hinfo : d.ctxLst[t]? with
  | none => exact fun hup => by cases hup
  | some info =>
    simp only
    split_ifs with hsize hstatus
    · exact fun hup => by cases hup
    · intro _
      exact ⟨info.root, by rw [rootOf, hinfo, Option.map_some], Nat.pos_of_ne_zero hsize, hstatus, rfl⟩
    · exact fun hup => by cases hup

lemma download_ok {r v size k : ℕ} {dst out : ℕ → UInt8} (hroot : d.rootOf t = some r) (hsize : 0 < size)
    (hread : d.processor.ram.readVirt r v size dst = (0, out)) :
    d.download v (some dst) size t k = (.ok 0, some out) := by
  obtain ⟨info, hinfo, rfl⟩ := Option.map_eq_some_iff.mp hroot
  simp only [Driver.download, hinfo, if_neg (Nat.ne_of_gt hsize), hread, if_true]

/-- Whatever other tasks do in between, a task downloads what it has uploaded. -/
theorem uploaded_undisturbed (h : hostSystem.ReachableBy Confined d) (ht : t ∈ d.addrMng.cxtMem)
    {v size k : ℕ} {src : ℕ → UInt8} (hrange : v + size ≤ 2 ^ 39)
    (hup : (d.upload v (some src) size t k).1 = .ok 0)
    (hrun : (hostFrom (d.upload v (some src) size t k).2).ReachableBy (Elsewhere t) d') (k' : ℕ)
    (dst : ℕ → UInt8) : ∃ out, d'.download v (some dst) size t k' = (.ok 0, some out) ∧
      ∀ i < size, out i = src i := by
  obtain ⟨r, hroot, hsize, hstatus, hram⟩ := upload_ok hup
  have hv : v < 2 ^ 64 := by omega
  have hd := mapped_of_reachable h
  have hr : r ≠ 0 := by
    rintro rfl
    simp [writeVirt, actVirt, convert_zero hd.intact.blocks.ordered] at hstatus
  obtain ⟨out, hread, hbytes⟩ := hd.mapping.readVirt_written ⟨hr, t, ht, hroot⟩ hsize hrange hstatus dst
  have hup' : Mapped (d.upload v (some src) size t k).2 := by
    have hperform : Mapped (d.upload (u64 v) (some src) size t k).2 := @Mapped.perform _ hd
      (.upload v (some src) size t k) ⟨fun c hc => Option.some.inj hc ▸ ht, fun _ hw => hw.elim⟩
    rwa [u64_of_lt hv] at hperform
  obtain ⟨hmgr, hctx⟩ := upload_keeps d v (some src) size t k
  have ht' : t ∈ (d.upload v (some src) size t k).2.addrMng.cxtMem := hmgr ▸ ht
  have hroot' : (d.upload v (some src) size t k).2.rootOf t = some r := by rw [rootOf, hctx, ← rootOf, hroot]
  obtain ⟨hd', hundisturbed⟩ := undisturbed_of_run hup' ht' hrun
  refine ⟨out, download_ok (hundisturbed.root.trans hroot') hsize ?_, hbytes⟩
  rw [hundisturbed.readVirt hup' hd' ht' hroot' hv hsize, hram, hread]

theorem uploaded_undisturbed_twoTasks : ∃ d d₁ d', buffered = some d ∧
    (d.upload 0x60000000 (some fun _ => 7) 1 0 0).2.succeed ownKernel = some d₁ ∧ afterOther d₁ = some d' ∧
    (d₁.download (u64 0x60000000) (some fun _ => 5) 1 1 1).2.map (fun out => out 0) = some 6 ∧
    ∃ out, d'.download 0x60000000 (some fun _ => 5) 1 0 0 = (.ok 0, some out) ∧ ∀ i < 1, out i = 7 := by
  have hrun : (buffered.bind fun d =>
      ((d.upload 0x60000000 (some fun _ => 7) 1 0 0).2.succeed ownKernel).bind fun d₁ => (afterOther d₁).map fun _ =>
        (decide (0 ∈ d.addrMng.cxtMem), decide (TwoBuffers (d.upload 0x60000000 (some fun _ => 7) 1 0 0).2),
          (d.upload 0x60000000 (some fun _ => 7) 1 0 0).1.toOption,
          (d₁.download (u64 0x60000000) (some fun _ => 5) 1 1 1).2.map fun out => out 0)) =
      some (true, true, some 0, some 6) := by decide +kernel
  obtain ⟨d, hd, hrest⟩ := Option.bind_eq_some_iff.mp hrun
  obtain ⟨d₁, hd₁, hrest⟩ := Option.bind_eq_some_iff.mp hrest
  obtain ⟨d', hd', hresult⟩ := Option.map_eq_some_iff.mp hrest
  simp only [Prod.mk.injEq] at hresult
  obtain ⟨hmem, hbuffers, hok, hstored⟩ := hresult
  have hmem : 0 ∈ d.addrMng.cxtMem := of_decide_eq_true hmem
  have hreach := reachable_of_buffered hd
  have htables : TaskTables (d.upload 0x60000000 (some fun _ => 7) 1 0 0).2 :=
    (taskTables_of_reachable hreach).upload (by norm_num) _ 1 0 0 hmem
  refine ⟨d, d₁, d', hd, hd₁, hd', hstored, ?_⟩
  exact uploaded_undisturbed hreach hmem (by norm_num) (eq_ok_of_toOption hok)
    (run_of_afterOther htables (of_decide_eq_true hbuffers) hd₁ hd') 0 fun _ => 5

end Driver
end VentusDriver
