import VentusDriver.Device.AllocateMap
import VentusDriver.Driver.AllocOutcome

/-! What an allocation leaves in the list of its task and in the page tables below its root. With sound
tables the two agree when the task is its own kernel, has a root, and had nothing at the address; with any
others the way of the address has to lead to the new page, or to be open up to it. A size near the end of the
64-bit numbers is rounded up to 0 and gives an empty buffer. -/
namespace VentusDriver
open Foundation PhysicalMemory Memory

namespace Driver

/-- The virtual allocation gives `v`, and the physical one under the root of the task gives `p`. -/
def BothSucceed (d : Driver) (size : ℕ) (bufType : BufferType) (t k root v p : ℕ) : Prop :=
  ∃ info mgr ram, d.ctxLst[t]? = some info ∧ info.root = root ∧
    d.addrMng.allocMemory t k size bufType = .ok (v, mgr) ∧
    d.processor.ram.allocate root v size = .ok (p, ram) ∧ p ≠ 0

/-- The call succeeds, the one item of the task at `v` records `p`, no item of another context is
changed, and the root translates `v` to `p`. -/
structure Agrees (d : Driver) (t root v p : ℕ) (r : Except Failure (ℤ × ℕ) × Driver) : Prop where
  succeeds : r.1 = .ok (0, v)
  item : ∃ l, r.2.addrMng.HasList t l ∧ ∃ q ∈ l, (r.2.addrMng.heap q).paddr = some p ∧
    ∀ q' ∈ l, (r.2.addrMng.heap q').vaddr = v ↔ q' = q
  others : ∀ c l, c ≠ t → d.addrMng.HasList c l → r.2.addrMng.HasList c l ∧
    ∀ q ∈ l, r.2.addrMng.heap q = d.addrMng.heap q
  translates : r.2.processor.ram.convert root v = p

/-- If both allocations of the call succeed, the item and the page tables agree afterwards. -/
def BooksAgree (d : Driver) (size : ℕ) (bufType : BufferType) (t k : ℕ) : Prop :=
  ∀ root v p, d.BothSucceed size bufType t k root v p →
    Agrees d t root v p (d.allocLocalMem size bufType t k)

/-- The kernel is the task, the task has a root, none of its items is at `v`, and `v` is not mapped. For
a size that is rounded up to 0, `v` is mapped to the page that `usable` finds for 0 bytes. -/
structure Fresh (d : Driver) (size t k root v : ℕ) : Prop where
  kernel : k = t
  rooted : root ≠ 0
  item : ∀ l, d.addrMng.HasList t l → ∀ q ∈ l, (d.addrMng.heap q).vaddr ≠ v
  page : d.processor.ram.convert root v =
    if size + 63 < 2 ^ 64 then 0 else d.processor.ram.pm.usable 0

/-- The kernel is the task and none of its items is at `v`. The way of `v` can be filled up to the page that
`usable` finds, or leads there already; for a size that is rounded up to 0, `v` is translated to it. -/
structure Recordable (d : Driver) (size t k root v : ℕ) : Prop where
  kernel : k = t
  item : ∀ l, d.addrMng.HasList t l → ∀ q ∈ l, (d.addrMng.heap q).vaddr ≠ v
  page : size + 63 < 2 ^ 64 →
    (d.processor.ram.pm.withData (d.processor.ram.pm.usable (roundPages size)) (roundPages size)).Refills root v ∨
      d.processor.ram.pm.Leads root v (d.processor.ram.pm.usable (roundPages size))
  wrapped : 2 ^ 64 ≤ size + 63 → d.processor.ram.convert root v = d.processor.ram.pm.usable 0

variable {d : Driver} {size t k root v p : ℕ} {bufType : BufferType}

/-- After the two allocations the address is attached to an item of the kernel, or the call throws. -/
theorem allocLocalMem_ends (h : d.addrMng.WellLinked) {info : CtxInfo} {mgr : Manager} {ram : Memory}
    (hinfo : d.ctxLst[t]? = some info) (hvirtual : d.addrMng.allocMemory t k size bufType = .ok (v, mgr))
    (hphysical : d.processor.ram.allocate info.root v size = .ok (p, ram)) (hp : p ≠ 0) :
    (∃ l q, mgr.HasList k l ∧ q ∈ l ∧ (mgr.heap q).vaddr = v ∧ d.allocLocalMem size bufType t k =
        (.ok (if v = 0 then 1 else 0, v), { d.setRam ram with addrMng := mgr.attached q p })) ∨
      ((∀ l, mgr.HasList k l → ∀ q ∈ l, (mgr.heap q).vaddr ≠ v) ∧
        ∃ e, (d.allocLocalMem size bufType t k).1 = .error e) := by
  have hcall := allocLocalMem_call h size bufType t k
  generalize d.allocLocalMem size bufType t k = r at hcall ⊢
  cases hcall with
  | refused e hrefused he => exact absurd hrefused (not_refused hinfo hvirtual)
  | faulted hinfo' hvirtual' hphysical' =>
    obtain rfl := Option.some.inj (hinfo.symm.trans hinfo')
    obtain ⟨rfl, rfl⟩ := Prod.mk.inj (Except.ok.inj (hvirtual.symm.trans hvirtual'))
    cases hphysical.symm.trans hphysical'
  | noPages tag text hinfo' hvirtual' hphysical' =>
    obtain rfl := Option.some.inj (hinfo.symm.trans hinfo')
    obtain ⟨rfl, rfl⟩ := Prod.mk.inj (Except.ok.inj (hvirtual.symm.trans hvirtual'))
    exact absurd (Prod.mk.inj (Except.ok.inj (hphysical.symm.trans hphysical'))).1 hp
  | notAttached e hinfo' hvirtual' hphysical' hp' hnone he =>
    obtain ⟨rfl, rfl⟩ := Prod.mk.inj (Except.ok.inj (hvirtual.symm.trans hvirtual'))
    exact .inr ⟨hnone, e, rfl⟩
  | attached hinfo' hvirtual' hphysical' hp' hl hq hv =>
    obtain rfl := Option.some.inj (hinfo.symm.trans hinfo')
    obtain ⟨rfl, rfl⟩ := Prod.mk.inj (Except.ok.inj (hvirtual.symm.trans hvirtual'))
    obtain ⟨rfl, rfl⟩ := Prod.mk.inj (Except.ok.inj (hphysical.symm.trans hphysical'))
    exact .inl ⟨_, _, hl, hq, hv, rfl⟩

/-- The address space of a task after an allocation that gave an address. -/
lemma step_of_allocated (h : TaskTables d) {info : CtxInfo} {mgr : Manager} {ram : Memory}
    (hinfo : d.ctxLst[t]? = some info) (hvirtual : d.addrMng.allocMemory t k size bufType = .ok (v, mgr))
    (hphysical : d.processor.ram.allocate info.root v size = .ok (p, ram)) (hp : p ≠ 0) :
    d.processor.ram.pm.PageTables d.IsRoot ∧ ram.pm.Ordered ∧
      (info.root ≠ 0 → d.IsRoot info.root ∧
        AllocateStep d.IsRoot d.processor.ram.pm info.root v (roundPages size) p ram.pm) := by
  obtain ⟨l, l', hl, -⟩ := Manager.allocMemory_added h.addressed.wellLinked hvirtual
  have hroot := isRoot_of_info hinfo hl.mem
  have htables := tables_of_allocated h.tables hphysical hp
  refine ⟨htables, (allocate_tables htables hroot hphysical).ordered, fun hne => ?_⟩
  have hroot := hroot.resolve_left hne
  exact ⟨hroot, allocate_ok htables hroot hphysical⟩

/-- The root translates the new address to the new page exactly when it was not mapped. -/
lemma translates_iff (h : TaskTables d) (hsize : size < 2 ^ 64) {info : CtxInfo} {mgr : Manager}
    {ram : Memory} (hinfo : d.ctxLst[t]? = some info)
    (hvirtual : d.addrMng.allocMemory t k size bufType = .ok (v, mgr))
    (hphysical : d.processor.ram.allocate info.root v size = .ok (p, ram)) (hp : p ≠ 0) :
    ram.convert info.root v = p ↔ info.root ≠ 0 ∧ d.processor.ram.convert info.root v =
      if size + 63 < 2 ^ 64 then 0 else d.processor.ram.pm.usable 0 := by
  obtain ⟨htables, hord, hstep⟩ := step_of_allocated h hinfo hvirtual hphysical hp
  by_cases hzero : info.root = 0
  · rw [hzero, convert_zero hord]
    exact iff_of_false (Ne.symm hp) fun hnot => hnot.1 rfl
  obtain ⟨hroot, hstep⟩ := hstep hzero
  obtain ⟨-, hdvd, -, hhigh⟩ :=
    Manager.allocMemory_addressed h.addressed.wellLinked h.addressed.addressed hvirtual
  obtain ⟨hpos, hlimit, -⟩ := Manager.allocMemory_cases h.addressed.wellLinked hvirtual
  rw [and_iff_right hzero]
  split_ifs with hfits
  · obtain ⟨-, hsmall, hround⟩ := rounded_up hfits hlimit
    rw [hround] at hstep
    exact convert_first_iff htables hroot hdvd (by omega) (by omega) hp hstep
  · -- nothing is mapped, and the page is the one that `usable` finds for 0 bytes
    have hround := roundPages_wraps hsize (Nat.not_lt.mp hfits)
    rw [hround] at hstep
    obtain ⟨hpage, -⟩ := allocate_steps hphysical hp
    rw [hround] at hpage
    rw [convert_of_empty hstep hroot, hpage]

/-- Whatever the tables are, the root translates the new address to the new page exactly when its way can be
filled or leads there already. -/
lemma translates_iff_refills (h : d.Intact) (hsize : size < 2 ^ 64) {info : CtxInfo} {mgr : Manager}
    {ram : Memory} (hinfo : d.ctxLst[t]? = some info)
    (hvirtual : d.addrMng.allocMemory t k size bufType = .ok (v, mgr))
    (hphysical : d.processor.ram.allocate info.root v size = .ok (p, ram)) (hp : p ≠ 0) :
    ram.convert info.root v = p ↔
      (size + 63 < 2 ^ 64 → (d.processor.ram.pm.withData (d.processor.ram.pm.usable (roundPages size))
          (roundPages size)).Refills info.root v ∨
        d.processor.ram.pm.Leads info.root v (d.processor.ram.pm.usable (roundPages size))) ∧
      (2 ^ 64 ≤ size + 63 → d.processor.ram.convert info.root v = d.processor.ram.pm.usable 0) := by
  have hroot : IsPage info.root := h.roots t info.root (by rw [rootOf, hinfo, Option.map_some])
  obtain ⟨hpage, -⟩ := allocate_steps hphysical hp
  obtain ⟨hpos, hlimit, -⟩ := Manager.allocMemory_cases h.addressed.wellLinked hvirtual
  by_cases hfits : size + 63 < 2 ^ 64
  · obtain ⟨-, hdvd, -⟩ := Manager.allocMemory_addressed h.addressed.wellLinked h.addressed.addressed hvirtual
    obtain ⟨-, hsmall, hround⟩ := rounded_up hfits hlimit
    rw [allocate_converts_iff h.blocks hroot hdvd (by omega) hphysical hp, ← hpage]
    constructor
    · exact fun hway => ⟨fun _ => hway, fun hwraps => by omega⟩
    · exact fun hway => hway.1 hfits
  · have hround := roundPages_wraps hsize (Nat.not_lt.mp hfits)
    rw [hround] at hpage
    rw [convert_allocate_empty h.blocks hroot hround hphysical hp, hpage]
    constructor
    · exact fun hsame => ⟨fun hfits' => absurd hfits' hfits, fun _ => hsame⟩
    · exact fun hsame => hsame.2 (by omega)

/-- The item of a call is attached exactly when the kernel is the task, and it is the only one at its
address exactly when there was none before. -/
lemma item_iff (h : d.addrMng.WellLinked) {mgr : Manager} {l : List ℕ} {q : ℕ}
    (hvirtual : d.addrMng.allocMemory t k size bufType = .ok (v, mgr))
    (hl : mgr.HasList k l) (hq : q ∈ l) (hv : (mgr.heap q).vaddr = v) :
    (∃ l, (mgr.attached q p).HasList t l ∧ ∃ q' ∈ l, ((mgr.attached q p).heap q').paddr = some p ∧
        ∀ x ∈ l, ((mgr.attached q p).heap x).vaddr = v ↔ x = q') ↔
      k = t ∧ ∀ l, d.addrMng.HasList t l → ∀ x ∈ l, (d.addrMng.heap x).vaddr ≠ v := by
  obtain ⟨l₀, l', hl₀, hadd, hwell⟩ := Manager.allocMemory_added h hvirtual
  have hmem : ∀ x, x ∈ l' ↔ x = d.addrMng.next ∨ x ∈ l₀ := fun x => by
    rw [hadd.perm.mem_iff, List.mem_cons]
  have hold : ∀ x ∈ l₀, (mgr.heap x).vaddr = (d.addrMng.heap x).vaddr :=
    fun x hx => Item.data_vaddr (hadd.data x (hl₀.ne_next h x hx))
  have hnew := hadd.item
  simp only [Item.data, Prod.mk.injEq] at hnew
  obtain ⟨-, htask, haddr, hnone, -⟩ := hnew
  have hvaddr : ∀ x, ((mgr.attached q p).heap x).vaddr = (mgr.heap x).vaddr :=
    fun x => (Manager.attached_heap mgr q p x).2.2.1
  constructor
  · rintro ⟨l₁, hl₁, q', hq', hpaddr, honly⟩
    obtain rfl := (Manager.attached_hasList.mp hl₁).unique hadd.list
    have hself := (honly _ ((hmem _).mpr (.inl rfl))).mp ((hvaddr _).trans haddr)
    subst hself
    -- the new item has the address, and so it is the one that was found
    have hfound : q = d.addrMng.next := by
      by_contra hne
      rw [Manager.attached] at hpaddr
      simp only [Function.update_of_ne (Ne.symm hne), hnone] at hpaddr
      cases hpaddr
    refine ⟨(hwell.item k l hl q hq).2.1.symm.trans (hfound ▸ htask), fun l₂ hl₂ x hx hxv => ?_⟩
    obtain rfl := hl₂.unique hl₀
    have heq := (honly x ((hmem x).mpr (.inr hx))).mp ((hvaddr x).trans ((hold x hx).trans hxv))
    exact hl₀.ne_next h x hx heq
  · rintro ⟨rfl, hfree⟩
    obtain rfl := hl.unique hadd.list
    have hfound : q = d.addrMng.next := by
      cases (hmem q).mp hq with
      | inl heq => exact heq
      | inr hq₀ => exact absurd ((hold q hq₀).symm.trans hv) (hfree l₀ hl₀ q hq₀)
    refine ⟨l, Manager.attached_hasList.mpr hl, q, hq, by simp [Manager.attached], fun x hx => ?_⟩
    rw [hvaddr]
    constructor
    · intro hxv
      cases (hmem x).mp hx with
      | inl heq => exact heq.trans hfound.symm
      | inr hx₀ => exact absurd ((hold x hx₀).symm.trans hxv) (hfree l₀ hl₀ x hx₀)
    · rintro rfl
      exact hv

/-- The lists of the other contexts do not change when the address is attached to an item of the task. -/
lemma others_kept (h : d.addrMng.WellLinked) {mgr : Manager} {l : List ℕ} {q : ℕ}
    (hvirtual : d.addrMng.allocMemory t k size bufType = .ok (v, mgr)) (hl : mgr.HasList t l) (hq : q ∈ l)
    {c : ℕ} {l₁ : List ℕ} (hne : c ≠ t) (hl₁ : d.addrMng.HasList c l₁) :
    (mgr.attached q p).HasList c l₁ ∧ ∀ x ∈ l₁, (mgr.attached q p).heap x = d.addrMng.heap x := by
  obtain ⟨l₀, l', hl₀, hadd, hwell⟩ := Manager.allocMemory_added h hvirtual
  have hl₁' := (hadd.hasList_other h hl₀ hne).mpr hl₁
  refine ⟨Manager.attached_hasList.mpr hl₁', fun x hx => ?_⟩
  have hxq : x ≠ q := by
    rintro rfl
    exact hne ((hwell.item c l₁ hl₁' x hx).2.1.symm.trans (hwell.item t l hl x hq).2.1)
  have hx₀ : x ∉ l₀ := fun hx₀ =>
    hne ((h.item c l₁ hl₁ x hx).2.1.symm.trans (h.item t l₀ hl₀ x hx₀).2.1)
  rw [Manager.attached]
  simp only [Function.update_of_ne hxq]
  exact hadd.same x hx₀ (hl₁.ne_next h x hx)

/-- The item and the page tables agree after a call exactly when the kernel is the task, none of its items is
at the new address, and the root translates it to the new page. -/
theorem agrees_iff (h : d.Addressed) {info : CtxInfo} {mgr : Manager} {ram : Memory}
    (hinfo : d.ctxLst[t]? = some info) (hvirtual : d.addrMng.allocMemory t k size bufType = .ok (v, mgr))
    (hphysical : d.processor.ram.allocate info.root v size = .ok (p, ram)) (hp : p ≠ 0) :
    Agrees d t info.root v p (d.allocLocalMem size bufType t k) ↔
      (k = t ∧ ∀ l, d.addrMng.HasList t l → ∀ q ∈ l, (d.addrMng.heap q).vaddr ≠ v) ∧
        ram.convert info.root v = p := by
  have hwell := h.wellLinked
  obtain ⟨-, -, hlow, -⟩ := Manager.allocMemory_addressed hwell h.addressed hvirtual
  rcases allocLocalMem_ends hwell hinfo hvirtual hphysical hp with ⟨l, q, hl, hq, hv, heq⟩ | ⟨hnone, e, herr⟩
  · have hitem := item_iff hwell (p := p) hvirtual hl hq hv
    rw [heq]
    constructor
    · rintro ⟨-, hbook, -, htranslates⟩
      exact ⟨hitem.mp hbook, htranslates⟩
    · rintro ⟨⟨rfl, hfree⟩, htranslates⟩
      refine ⟨?_, hitem.mpr ⟨rfl, hfree⟩, ?_, htranslates⟩
      · rw [if_neg (by omega)]
      · exact fun c l₁ hne hl₁ => others_kept hwell hvirtual hl hq hne hl₁
  · refine iff_of_false (fun hagrees => ?_) ?_
    · have hok := hagrees.succeeds
      rw [herr] at hok
      cases hok
    · rintro ⟨⟨rfl, -⟩, -⟩
      obtain ⟨l₀, l', -, hadd, -⟩ := Manager.allocMemory_added hwell hvirtual
      exact hnone l' hadd.list d.addrMng.next (hadd.perm.mem_iff.mpr List.mem_cons_self) hadd.addr_new

/-- With sound tables the place has to be fresh. -/
lemma agrees_iff_fresh (h : TaskTables d) (hsize : size < 2 ^ 64)
    (hboth : d.BothSucceed size bufType t k root v p) :
    Agrees d t root v p (d.allocLocalMem size bufType t k) ↔ d.Fresh size t k root v := by
  obtain ⟨info, mgr, ram, hinfo, rfl, hvirtual, hphysical, hp⟩ := hboth
  rw [agrees_iff h.addressed hinfo hvirtual hphysical hp, translates_iff h hsize hinfo hvirtual hphysical hp]
  constructor
  · rintro ⟨⟨hkernel, hfree⟩, hrooted, hpage⟩
    exact ⟨hkernel, hrooted, hfree, hpage⟩
  · rintro ⟨hkernel, hrooted, hfree, hpage⟩
    exact ⟨⟨hkernel, hfree⟩, hrooted, hpage⟩

lemma agrees_iff_recordable (h : d.Intact) (hsize : size < 2 ^ 64)
    (hboth : d.BothSucceed size bufType t k root v p) :
    Agrees d t root v p (d.allocLocalMem size bufType t k) ↔ d.Recordable size t k root v := by
  obtain ⟨info, mgr, ram, hinfo, rfl, hvirtual, hphysical, hp⟩ := hboth
  rw [agrees_iff h.addressed hinfo hvirtual hphysical hp,
    translates_iff_refills h hsize hinfo hvirtual hphysical hp]
  constructor
  · rintro ⟨⟨hkernel, hfree⟩, hpage, hwrapped⟩
    exact ⟨hkernel, hfree, hpage, hwrapped⟩
  · rintro ⟨hkernel, hfree, hpage, hwrapped⟩
    exact ⟨⟨hkernel, hfree⟩, hpage, hwrapped⟩

/-- In every state that the host reaches, whatever the device has written, the books of a call agree exactly
when its place can be recorded. In confined runs this is so exactly when the place is fresh. -/
theorem booksAgree_iff (h : hostSystem.Reachable d) (hsize : size < 2 ^ 64) (bufType : BufferType)
    (t k : ℕ) : (d.BooksAgree size bufType t k ↔
        ∀ root v p, d.BothSucceed size bufType t k root v p → d.Recordable size t k root v) ∧
      (hostSystem.ReachableBy Confined d → (d.BooksAgree size bufType t k ↔
        ∀ root v p, d.BothSucceed size bufType t k root v p → d.Fresh size t k root v)) := by
  constructor
  · apply forall_congr'
    intro root
    apply forall₂_congr
    intro v p
    exact imp_congr_right fun hboth => agrees_iff_recordable (intact_of_reachable h) hsize hboth
  · intro hconfined
    apply forall_congr'
    intro root
    apply forall₂_congr
    intro v p
    exact imp_congr_right fun hboth => agrees_iff_fresh (taskTables_of_reachable hconfined) hsize hboth

/-- The steps of the call give one root, one address and one page. -/
lemma BothSucceed.unique {root' v' p' : ℕ} (h : d.BothSucceed size bufType t k root v p)
    (h' : d.BothSucceed size bufType t k root' v' p') : root = root' ∧ v = v' ∧ p = p' := by
  obtain ⟨info, mgr, ram, hinfo, rfl, hvirtual, hphysical, -⟩ := h
  obtain ⟨info', mgr', ram', hinfo', rfl, hvirtual', hphysical', -⟩ := h'
  obtain rfl := Option.some.inj (hinfo.symm.trans hinfo')
  obtain ⟨rfl, -⟩ := Prod.mk.inj (Except.ok.inj (hvirtual.symm.trans hvirtual'))
  obtain ⟨rfl, -⟩ := Prod.mk.inj (Except.ok.inj (hphysical.symm.trans hphysical'))
  exact ⟨rfl, rfl, rfl⟩

lemma oneKernel_buffer_eval : oneKernel.addrMng.cxtMem[0]? = some (some 0) ∧
    (oneKernel.addrMng.heap 0).succ = none ∧ (oneKernel.addrMng.heap 0).vaddr = 0x60000000 ∧
    (oneKernel.processor.ram.allocate 0x20000000 0x60001000 4096).toOption.map Prod.fst = some 0x20004000 ∧
    oneKernel.processor.ram.convert 0x20000000 0x60001000 = 0 := by
  decide +kernel

lemma oneKernel_list : oneKernel.addrMng.HasList 0 [0] :=
  ⟨some 0, oneKernel_buffer_eval.1, rfl, rfl, oneKernel_buffer_eval.2.1⟩

/-- Both allocations of another buffer of one page succeed. -/
lemma bothSucceed_oneKernel : oneKernel.BothSucceed 4096 .readWrite 0 0 0x20000000 0x60001000 0x20004000 := by
  obtain ⟨-, -, -, hphysical, -⟩ := oneKernel_buffer_eval
  obtain ⟨info, hinfo, hroot⟩ := Option.map_eq_some_iff.mp oneKernel_root
  obtain ⟨mgr, hvirtual⟩ := ok_of_toOption oneKernel_eval.2.2.2.2.1
  obtain ⟨ram, hphysical⟩ := ok_of_toOption hphysical
  exact ⟨info, mgr, ram, hinfo, hroot, hvirtual, hphysical, by norm_num⟩

lemma fresh_oneKernel : oneKernel.Fresh 4096 0 0 0x20000000 0x60001000 := by
  obtain ⟨-, -, hvaddr, -, hunmapped⟩ := oneKernel_buffer_eval
  refine ⟨rfl, by norm_num, fun l hl q hq => ?_, ?_⟩
  · rw [hl.unique oneKernel_list, List.mem_singleton] at hq
    rw [hq, hvaddr]
    norm_num
  · rw [hunmapped, if_pos (by norm_num)]

/-- Both allocations of a buffer of one page succeed all the same. -/
lemma bothSucceed_oneStray : oneStray.BothSucceed 4096 .readWrite 0 0 0x20000000 0x60000000 0x20001000 := by
  obtain ⟨-, hroot, -, -, hallocates⟩ := oneStray_eval
  obtain ⟨info, hinfo, hroot⟩ := Option.map_eq_some_iff.mp hroot
  obtain ⟨mgr, hvirtual⟩ := first_address oneStray_list 0
  obtain ⟨ram, hphysical⟩ := ok_of_toOption hallocates
  exact ⟨info, mgr, ram, hinfo, hroot, hvirtual, hphysical, by norm_num⟩

/-- The root's entry is valid, the one behind it is not, and the new table comes to lie on its page. -/
lemma oneStray_way : let pm := oneStray.processor.ram.pm.withData (oneStray.processor.ram.pm.usable
      (roundPages 4096)) (roundPages 4096)
    ¬ pm.Vacant 0x20000000 (Sv39.vaExtract 0x60000000 0) ∧
      pm.Vacant (pm.nextTable 0x20000000 (Sv39.vaExtract 0x60000000 0)) (Sv39.vaExtract 0x60000000 1) ∧
      pm.usable Sv39.pageSize = pm.nextTable 0x20000000 (Sv39.vaExtract 0x60000000 0) ∧
      Sv39.vaExtract 0x60000000 1 ≠ Sv39.vaExtract 0x60000000 2 := by
  decide +kernel

lemma recordable_oneStray : oneStray.Recordable 4096 0 0 0x20000000 0x60000000 := by
  obtain ⟨hvalid, hvacant, husable, hne⟩ := oneStray_way
  refine ⟨rfl, fun l hl q hq => ?_, fun _ => .inl ?_, fun hwraps => by omega⟩
  · rw [hl.unique oneStray_list] at hq
    cases hq
  · rw [Refills, if_neg hvalid, RefillsBelow, if_pos hvacant]
    exact .inr ⟨husable, hne⟩

/-- After a kernel that has written to its page, and after one that has written a table entry. -/
theorem booksAgree_iff_oneKernel : (∃ d, hostSystem.ReachableBy Confined d ∧
      d.processor.ram.pm.readValue 4 0x20001000 = 6 ∧
      d.BothSucceed 4096 .readWrite 0 0 0x20000000 0x60001000 0x20004000 ∧ d.BooksAgree 4096 .readWrite 0 0) ∧
    ∃ d, hostSystem.Reachable d ∧ d.processor.ram.pm.nextTable 0x20000000 1 = 0x20002000 ∧
      d.BothSucceed 4096 .readWrite 0 0 0x20000000 0x60000000 0x20001000 ∧ d.BooksAgree 4096 .readWrite 0 0 := by
  constructor
  · refine ⟨oneKernel, hostSystem_oneKernel, oneKernel_stored, bothSucceed_oneKernel, ?_⟩
    refine ((booksAgree_iff hostSystem_oneKernel.reachable (show 4096 < 2 ^ 64 by norm_num) .readWrite 0 0).2
      hostSystem_oneKernel).mpr fun root v p hboth => ?_
    obtain ⟨rfl, rfl, -⟩ := bothSucceed_oneKernel.unique hboth
    exact fresh_oneKernel
  · refine ⟨oneStray, hostSystem_oneStray, oneStray_entry, bothSucceed_oneStray, ?_⟩
    refine (booksAgree_iff hostSystem_oneStray (show 4096 < 2 ^ 64 by norm_num) .readWrite 0 0).1.mpr
      fun root v p hboth => ?_
    obtain ⟨rfl, rfl, -⟩ := bothSucceed_oneStray.unique hboth
    exact recordable_oneStray

/-- Both allocations of a buffer of one page succeed, for a kernel that is not a task. -/
lemma bothSucceed_oneTask (k : ℕ) :
    oneTask.BothSucceed 4096 .readWrite 0 k 0x20000000 0x60000000 0x20001000 := by
  obtain ⟨-, -, hroot, hhead, hphysical⟩ := oneTask_eval
  obtain ⟨info, hinfo, hroot⟩ := Option.map_eq_some_iff.mp hroot
  obtain ⟨mgr, hvirtual⟩ := first_address ⟨none, hhead, rfl⟩ k
  obtain ⟨ram, hphysical⟩ := ok_of_toOption hphysical
  exact ⟨info, mgr, ram, hinfo, hroot, hvirtual, hphysical, by norm_num⟩

/-- The kernel is not a task: both allocations succeed, and the call throws. -/
theorem kernel_not_task_disagrees : ∃ d, hostSystem.Reachable d ∧ 0 ∈ d.ctxLst ∧
    d.BothSucceed 4096 .readWrite 0 1 0x20000000 0x60000000 0x20001000 ∧
    (d.allocLocalMem 4096 .readWrite 0 1).1 = .error .outOfRange ∧ ¬ d.BooksAgree 4096 .readWrite 0 1 := by
  have hthrows : (oneTask.allocLocalMem 4096 .readWrite 0 1).1 = .error .outOfRange := by decide +kernel
  refine ⟨oneTask, hostSystem_oneTask.reachable, oneTask_eval.2.1, bothSucceed_oneTask 1, hthrows, ?_⟩
  intro hagree
  have hok := (hagree _ _ _ (bothSucceed_oneTask 1)).succeeds
  rw [hthrows] at hok
  cases hok

/-! ### Short buffers -/

/-- The task has an item at `v` of at least the size, and its root maps every byte of the range. -/
structure Covers (d : Driver) (size t root v : ℕ) : Prop where
  item : ∃ l, d.addrMng.HasList t l ∧ ∃ q ∈ l, (d.addrMng.heap q).vaddr = v ∧
    size ≤ (d.addrMng.heap q).size
  mapped : ∀ off < size, d.processor.ram.convert root (v + off) ≠ 0

/-- The call comes back, and it fails or leaves a buffer that covers the request. -/
def NotShort (d : Driver) (size : ℕ) (bufType : BufferType) (t k : ℕ) : Prop :=
  Returned (d.allocLocalMem size bufType t k).1 ∧
    ∀ root v, d.rootOf t = some root → (d.allocLocalMem size bufType t k).1 = .ok (0, v) →
      Covers (d.allocLocalMem size bufType t k).2 size t root v

/-- The steps of a call that succeeds, for a task with a root. -/
lemma attached_of_ok (h : d.addrMng.WellLinked) {r : ℤ} (hroot : d.rootOf t = some root)
    (hok : (d.allocLocalMem size bufType t k).1 = .ok (r, v)) : ∃ info mgr ram p q,
      d.ctxLst[t]? = some info ∧ info.root = root ∧
      d.addrMng.allocMemory t k size bufType = .ok (v, mgr) ∧
      d.processor.ram.allocate info.root v size = .ok (p, ram) ∧ p ≠ 0 ∧
      (∃ l, mgr.HasList k l ∧ ∃ x ∈ l, (mgr.heap x).vaddr = v) ∧
      (d.allocLocalMem size bufType t k).2 = { d.setRam ram with addrMng := mgr.attached q p } := by
  obtain ⟨info, mgr, ram, p, q, hinfo, hrest⟩ := allocLocalMem_attached h hok
  rw [rootOf, hinfo, Option.map_some] at hroot
  exact ⟨info, mgr, ram, p, q, hinfo, Option.some.inj hroot, hrest⟩

/-- A buffer covers the request exactly when the size does not wrap and the task has a root. -/
theorem covers_iff (h : TaskTables d) (hpos : 0 < size) {r : ℤ} (hroot : d.rootOf t = some root)
    (hok : (d.allocLocalMem size bufType t k).1 = .ok (r, v)) :
    Covers (d.allocLocalMem size bufType t k).2 size t root v ↔ size + 63 < 2 ^ 64 ∧ root ≠ 0 := by
  have hwell := h.addressed.wellLinked
  have hwell' := (h.allocLocalMem size bufType t k).addressed.wellLinked
  obtain ⟨info, mgr, ram, p, q, hinfo, rfl, hvirtual, hphysical, hp, -, heq⟩ :=
    attached_of_ok hwell hroot hok
  obtain ⟨-, hord, hstep⟩ := step_of_allocated h hinfo hvirtual hphysical hp
  rw [heq] at hwell' ⊢
  constructor
  · rintro ⟨⟨l, hl, x, hx, -, hge⟩, hmapped⟩
    have hsmall := (hwell'.item t l hl x hx).2.2
    refine ⟨by omega, fun hzero => hmapped 0 hpos ?_⟩
    rw [hzero]
    exact convert_zero hord _
  · rintro ⟨hfits, hrooted⟩
    obtain ⟨hroot, hstep⟩ := hstep hrooted
    obtain ⟨-, hlimit, -⟩ := Manager.allocMemory_cases hwell hvirtual
    obtain ⟨-, hdvd, -, hhigh⟩ :=
      Manager.allocMemory_addressed hwell h.addressed.addressed hvirtual
    obtain ⟨hge, hsmall, hround⟩ := rounded_up hfits hlimit
    obtain ⟨l, l', -, hadd, -⟩ := Manager.allocMemory_added hwell hvirtual
    have hitem := hadd.item
    simp only [Item.data, Prod.mk.injEq] at hitem
    obtain ⟨-, -, haddr, -, hsize⟩ := hitem
    obtain ⟨-, -, hvaddr, hsame, -⟩ := Manager.attached_heap mgr q p d.addrMng.next
    refine ⟨⟨l', Manager.attached_hasList.mpr hadd.list, d.addrMng.next,
      hadd.perm.mem_iff.mpr List.mem_cons_self, hvaddr.trans haddr, ?_⟩, fun off hoff => ?_⟩
    · exact hge.trans (hsame.trans hsize).ge
    · exact convert_of_mapped hroot hdvd (by omega) hp hstep (by omega)

/-- The call returns 0 exactly when the list has an address, memory has room for it, and the context of
the kernel has an item there. -/
theorem allocLocalMem_ok_iff (h : TaskTables d) (hsize : size < 2 ^ 64) :
    (d.allocLocalMem size bufType t k).1 = .ok (0, v) ↔
      d.HasAddress size bufType t v ∧ d.HasPages size t v ∧ d.FindsItem t k v := by
  constructor
  · intro hok
    obtain ⟨info, mgr, ram, p, q, hinfo, hvirtual, hphysical, hp, hitem, -⟩ :=
      allocLocalMem_attached h.addressed.wellLinked hok
    have haddress : d.HasAddress size bufType t v :=
      (hasAddress_iff h.addressed k).mpr ⟨mem_ctxLst.mpr ⟨info, hinfo⟩, mgr, hvirtual⟩
    refine ⟨haddress, (getsPages_iff h hsize haddress).mp ?_, ?_⟩
    · exact ⟨info.root, p, ram, by rw [rootOf, hinfo, Option.map_some], hphysical, hp⟩
    · exact (item_at_iff h.addressed.wellLinked hvirtual).mp hitem
  · rintro ⟨haddress, hpages, hitem⟩
    obtain ⟨htask, mgr, hvirtual⟩ := (hasAddress_iff h.addressed k).mp haddress
    obtain ⟨info, hinfo⟩ := mem_ctxLst.mp htask
    obtain ⟨root, p, ram, hroot, hphysical, hp⟩ := (getsPages_iff h hsize haddress).mpr hpages
    rw [rootOf, hinfo, Option.map_some] at hroot
    obtain rfl := Option.some.inj hroot
    obtain ⟨-, -, hlow, -⟩ :=
      Manager.allocMemory_addressed h.addressed.wellLinked h.addressed.addressed hvirtual
    rcases allocLocalMem_ends h.addressed.wellLinked hinfo hvirtual hphysical hp with
      ⟨l, q, -, -, -, heq⟩ | ⟨hnone, -⟩
    · rw [heq, if_neg (by omega)]
    · obtain ⟨l, hl, q, hq, hv⟩ := (item_at_iff h.addressed.wellLinked hvirtual).mpr hitem
      exact absurd hv (hnone l hl q hq)

/-- The cursor is lost and there is a gap for the data: the insertion dereferences the cursor. -/
def Dangling (d : Driver) (size : ℕ) : Prop :=
  d.processor.ram.pm.currentBlock = none ∧ d.processor.ram.pm.usable (roundPages size) ≠ 0

/-- The call comes back unless it has an address and the cursor is lost. -/
lemma allocLocalMem_returned_iff (h : TaskTables d) (hsize : size < 2 ^ 64) :
    Returned (d.allocLocalMem size bufType t k).1 ↔
      ∀ v, d.HasAddress size bufType t v → ¬ d.Dangling size := by
  have hcall := allocLocalMem_call h.addressed.wellLinked size bufType t k
  generalize d.allocLocalMem size bufType t k = r at hcall ⊢
  -- behind the first step a call comes back exactly when the second one does
  have hfault : ∀ {v info mgr}, d.ctxLst[t]? = some info →
      d.addrMng.allocMemory t k size bufType = .ok (v, mgr) → d.HasAddress size bufType t v ∧
        ∀ fault, d.processor.ram.allocate info.root v size = .error fault ↔
          fault = .undefined ∧ d.Dangling size := by
    intro v info mgr hinfo hvirtual
    have haddress : d.HasAddress size bufType t v :=
      (hasAddress_iff h.addressed k).mpr ⟨mem_ctxLst.mpr ⟨info, hinfo⟩, mgr, hvirtual⟩
    obtain ⟨info', hinfo', hroot⟩ := haddress.root
    obtain rfl := Option.some.inj (hinfo.symm.trans hinfo')
    exact ⟨haddress, allocate_fault_iff h.tables hroot (haddress.range h.addressed hsize)⟩
  have hreturned : ∀ {v info mgr p ram}, d.ctxLst[t]? = some info →
      d.addrMng.allocMemory t k size bufType = .ok (v, mgr) →
      d.processor.ram.allocate info.root v size = .ok (p, ram) → ¬ d.Dangling size := by
    intro v info mgr p ram hinfo hvirtual hphysical hdangling
    have herr := ((hfault hinfo hvirtual).2 .undefined).mpr ⟨rfl, hdangling⟩
    rw [hphysical] at herr
    cases herr
  cases hcall with
  | refused e hrefused he =>
    refine iff_of_true he fun v hv => ?_
    obtain ⟨htask, mgr, hok⟩ := (hasAddress_iff h.addressed k).mp hv
    rcases hrefused with hnone | ⟨e', herr⟩
    · exact absurd htask hnone
    · rw [hok] at herr
      cases herr
  | faulted hinfo hvirtual hphysical =>
    obtain ⟨haddress, hiff⟩ := hfault hinfo hvirtual
    obtain ⟨rfl, hdangling⟩ := (hiff _).mp hphysical
    exact iff_of_false id fun hall => hall _ haddress hdangling
  | noPages tag text hinfo hvirtual hphysical =>
    exact iff_of_true trivial fun _ _ => hreturned hinfo hvirtual hphysical
  | notAttached e hinfo hvirtual hphysical hp hnone he =>
    exact iff_of_true he fun _ _ => hreturned hinfo hvirtual hphysical
  | attached hinfo hvirtual hphysical hp hl hq hv =>
    exact iff_of_true trivial fun _ _ => hreturned hinfo hvirtual hphysical

/-- In every confined run no buffer is short exactly when, for an address that the list of the task has,
the cursor is not lost, and memory has no room, or the context of the kernel has no item, or the size does
not wrap and the task has a root. -/
theorem notShort_iff (h : hostSystem.ReachableBy Confined d) (hpos : 0 < size) (hsize : size < 2 ^ 64)
    (bufType : BufferType) (t k : ℕ) : d.NotShort size bufType t k ↔
      ∀ v, d.HasAddress size bufType t v → ¬ d.Dangling size ∧
        (d.HasPages size t v → d.FindsItem t k v → size + 63 < 2 ^ 64 ∧ d.rootOf t ≠ some 0) := by
  have htables := taskTables_of_reachable h
  rw [NotShort, allocLocalMem_returned_iff htables hsize]
  constructor
  · rintro ⟨hreturned, hnot⟩ v hv
    refine ⟨hreturned v hv, fun hpages hitem => ?_⟩
    have hok := (allocLocalMem_ok_iff htables hsize).mpr ⟨hv, hpages, hitem⟩
    obtain ⟨info, hinfo, -⟩ := hv.root
    have hroot : d.rootOf t = some info.root := by rw [rootOf, hinfo, Option.map_some]
    obtain ⟨hfits, hne⟩ := (covers_iff htables hpos hroot hok).mp (hnot _ v hroot hok)
    exact ⟨hfits, fun hzero => hne (Option.some.inj (hroot.symm.trans hzero))⟩
  · intro hall
    refine ⟨fun v hv => (hall v hv).1, fun root v hroot hok => ?_⟩
    obtain ⟨hv, hpages, hitem⟩ := (allocLocalMem_ok_iff htables hsize).mp hok
    obtain ⟨hfits, hne⟩ := (hall v hv).2 hpages hitem
    exact (covers_iff htables hpos hroot hok).mpr ⟨hfits, fun hzero => hne (hzero ▸ hroot)⟩

theorem notShort_iff_oneKernel : ∃ d, hostSystem.ReachableBy Confined d ∧
    d.processor.ram.pm.readValue 4 0x20001000 = 6 ∧
    (d.allocLocalMem 4096 .readWrite 0 0).1 = .ok (0, 0x60001000) ∧ d.NotShort 4096 .readWrite 0 0 := by
  obtain ⟨-, -, -, hcursor, -⟩ := oneKernel_eval
  refine ⟨oneKernel, hostSystem_oneKernel, oneKernel_stored, by decide +kernel, ?_⟩
  refine (notShort_iff hostSystem_oneKernel (show 0 < 4096 by norm_num) (by norm_num) .readWrite 0 0).mpr ?_
  intro v _
  refine ⟨fun hdangling => ?_, fun _ _ => ⟨by norm_num, ?_⟩⟩
  · rw [hdangling.1] at hcursor
    cases hcursor
  · rw [oneKernel_root]
    norm_num

/-- The largest size is rounded up to 0: the call succeeds, and nothing is mapped. -/
theorem largest_size_short : ∃ d, hostSystem.Reachable d ∧ d.rootOf 0 = some 0x20000000 ∧
    (d.allocLocalMem (2 ^ 64 - 1) .readWrite 0 0).1 = .ok (0, 0x60000000) ∧
    (d.allocLocalMem (2 ^ 64 - 1) .readWrite 0 0).2.processor.ram.convert 0x20000000 0x60000000 = 0 ∧
    ¬ d.NotShort (2 ^ 64 - 1) .readWrite 0 0 := by
  obtain ⟨-, -, hroot, -⟩ := oneTask_eval
  let r := oneTask.allocLocalMem (2 ^ 64 - 1) .readWrite 0 0
  have hcall : r.1 = .ok (0, 0x60000000) ∧ r.2.processor.ram.convert 0x20000000 0x60000000 = 0 := by
    decide +kernel
  obtain ⟨hok, hzero⟩ := hcall
  refine ⟨oneTask, hostSystem_oneTask.reachable, hroot, hok, hzero, fun hnot => ?_⟩
  exact (hnot.2 _ _ hroot hok).mapped 0 (by norm_num) hzero

end Driver
end VentusDriver
