import VentusDriver.Driver.Addresses
import VentusDriver.Driver.Lifecycle

/-! Allocation at the level of the driver: a virtual address, then pages for it, then the record of the
physical address. A step that fails leaves behind what the steps before it have done. -/
namespace VentusDriver
open Foundation

namespace Driver

/-- The ways in which `allocLocalMem` ends, with what it leaves behind. -/
inductive AllocCall (d : Driver) (size : ℕ) (bufType : BufferType) (t k : ℕ) :
    Except Failure (ℤ × ℕ) × Driver → Prop
  | refused (e : Failure)
      (hrefused : t ∉ d.ctxLst ∨ ∃ e, d.addrMng.allocMemory t k size bufType = .error e)
      (he : Returned (.error e : Except Failure (ℤ × ℕ))) :
      AllocCall d size bufType t k (.error e, d)
  | faulted {info : CtxInfo} {v : ℕ} {mgr : Manager} {fault : Fault}
      (hinfo : d.ctxLst[t]? = some info)
      (hvirtual : d.addrMng.allocMemory t k size bufType = .ok (v, mgr))
      (hphysical : d.processor.ram.allocate info.root v size = .error fault) :
      AllocCall d size bufType t k (.error (.device fault), { d with addrMng := mgr })
  | noPages {info : CtxInfo} {v : ℕ} {mgr : Manager} {ram : Memory} (tag text : String)
      (hinfo : d.ctxLst[t]? = some info)
      (hvirtual : d.addrMng.allocMemory t k size bufType = .ok (v, mgr))
      (hphysical : d.processor.ram.allocate info.root v size = .ok (0, ram)) :
      AllocCall d size bufType t k (.error (.error tag text), { d.setRam ram with addrMng := mgr })
  | notAttached {info : CtxInfo} {v p : ℕ} {mgr : Manager} {ram : Memory} (e : Failure)
      (hinfo : d.ctxLst[t]? = some info)
      (hvirtual : d.addrMng.allocMemory t k size bufType = .ok (v, mgr))
      (hphysical : d.processor.ram.allocate info.root v size = .ok (p, ram)) (hp : p ≠ 0)
      (hnone : ∀ l, mgr.HasList k l → ∀ q ∈ l, (mgr.heap q).vaddr ≠ v)
      (he : Returned (.error e : Except Failure (ℤ × ℕ))) :
      AllocCall d size bufType t k (.error e, { d.setRam ram with addrMng := mgr })
  | attached {info : CtxInfo} {v p q : ℕ} {mgr : Manager} {ram : Memory} {l : List ℕ}
      (hinfo : d.ctxLst[t]? = some info)
      (hvirtual : d.addrMng.allocMemory t k size bufType = .ok (v, mgr))
      (hphysical : d.processor.ram.allocate info.root v size = .ok (p, ram)) (hp : p ≠ 0)
      (hl : mgr.HasList k l) (hq : q ∈ l) (hv : (mgr.heap q).vaddr = v) :
      AllocCall d size bufType t k (.ok (if v = 0 then 1 else 0, v),
        { d.setRam ram with addrMng := mgr.attached q p })

variable {d : Driver}

theorem allocLocalMem_call (h : d.addrMng.WellLinked) (size : ℕ) (bufType : BufferType) (t k : ℕ) :
    AllocCall d size bufType t k (d.allocLocalMem size bufType t k) := by
  unfold allocLocalMem
  cases hinfo : d.ctxLst[t]? with
  | none =>
    refine .refused _ (.inl ?_) trivial
    rw [Std.ExtTreeMap.mem_iff_isSome_getElem?, hinfo]
    simp
  | some info =>
    simp only
    split_ifs with hsize
    · refine .refused _ (.inr ?_) trivial
      obtain ⟨tag, text, herr⟩ := Manager.allocMemory_refused k bufType (.inl hsize)
      exact ⟨_, herr⟩
    cases hvirtual : d.addrMng.allocMemory t k size bufType with
    | error e =>
      refine .refused e (.inr ⟨e, hvirtual⟩) ?_
      rcases Manager.allocMemory_ends h t k size bufType with ⟨v, mgr, hok⟩ | ⟨tag, text, herr⟩
      · rw [hok] at hvirtual
        cases hvirtual
      · rw [herr] at hvirtual
        exact Except.error.inj hvirtual ▸ trivial
    | ok r =>
      obtain ⟨v, mgr⟩ := r
      have hwell := (Manager.allocMemory_mem h hvirtual).1
      simp only
      cases hphysical : d.processor.ram.allocate info.root v size with
      | error fault => exact .faulted hinfo hvirtual hphysical
      | ok r =>
        obtain ⟨p, ram⟩ := r
        simp only
        by_cases hp : p = 0
        · subst hp
          exact .noPages _ _ hinfo hvirtual hphysical
        rw [if_neg hp, show (setRam { d with addrMng := mgr } ram).addrMng = mgr from rfl]
        rcases Manager.attachPaddr_cases hwell t k v p with ⟨l, q, hl, hq, hv, hat⟩ | ⟨hnone, e, he, hat⟩
        · rw [hat]
          exact .attached hinfo hvirtual hphysical hp hl hq hv
        · rw [hat]
          refine .notAttached e hinfo hvirtual hphysical hp hnone ?_
          rcases he with rfl | rfl <;> trivial

/-- A call that succeeds has succeeded in all its steps. -/
lemma allocLocalMem_attached (h : d.addrMng.WellLinked) {size t k v : ℕ} {bufType : BufferType} {r : ℤ}
    (hok : (d.allocLocalMem size bufType t k).1 = .ok (r, v)) : ∃ info mgr ram p q,
      d.ctxLst[t]? = some info ∧ d.addrMng.allocMemory t k size bufType = .ok (v, mgr) ∧
      d.processor.ram.allocate info.root v size = .ok (p, ram) ∧ p ≠ 0 ∧
      (∃ l, mgr.HasList k l ∧ ∃ x ∈ l, (mgr.heap x).vaddr = v) ∧
      (d.allocLocalMem size bufType t k).2 = { d.setRam ram with addrMng := mgr.attached q p } := by
  have hcall := allocLocalMem_call h size bufType t k
  generalize d.allocLocalMem size bufType t k = r at hok hcall ⊢
  cases hcall with
  | refused e hrefused he => cases hok
  | faulted hinfo hvirtual hphysical => cases hok
  | noPages tag text hinfo hvirtual hphysical => cases hok
  | notAttached e hinfo hvirtual hphysical hp hnone he => cases hok
  | attached hinfo hvirtual hphysical hp hl hq hv =>
    obtain ⟨-, rfl⟩ := Prod.mk.inj (Except.ok.inj hok)
    exact ⟨_, _, _, _, _, hinfo, hvirtual, hphysical, hp, ⟨_, hl, _, hq, hv⟩, rfl⟩

/-- Device memory is as before, or as the second step of the allocation leaves it. -/
lemma allocLocalMem_ram (h : d.addrMng.WellLinked) (size : ℕ) (bufType : BufferType) (t k : ℕ) :
    (d.allocLocalMem size bufType t k).2.processor.ram = d.processor.ram ∨
      ∃ info v mgr p, d.ctxLst[t]? = some info ∧ d.addrMng.allocMemory t k size bufType = .ok (v, mgr) ∧
        d.processor.ram.allocate info.root v size =
          .ok (p, (d.allocLocalMem size bufType t k).2.processor.ram) := by
  have hcall := allocLocalMem_call h size bufType t k
  generalize d.allocLocalMem size bufType t k = r at hcall ⊢
  cases hcall with
  | refused e hrefused he => exact .inl rfl
  | faulted hinfo hvirtual hphysical => exact .inl rfl
  | noPages tag text hinfo hvirtual hphysical => exact .inr ⟨_, _, _, _, hinfo, hvirtual, hphysical⟩
  | notAttached e hinfo hvirtual hphysical hp hnone he =>
    exact .inr ⟨_, _, _, _, hinfo, hvirtual, hphysical⟩
  | attached hinfo hvirtual hphysical hp hl hq hv => exact .inr ⟨_, _, _, _, hinfo, hvirtual, hphysical⟩

/-- The lists of all contexts are as the address manager makes them. -/
structure Addressed (d : Driver) : Prop where
  wellLinked : d.addrMng.WellLinked
  addressed : d.addrMng.Addressed

lemma Addressed.allocMemory (h : d.Addressed) {t k size v : ℕ} {bufType : BufferType} {mgr : Manager}
    (heq : d.addrMng.allocMemory t k size bufType = .ok (v, mgr)) :
    mgr.WellLinked ∧ mgr.Addressed :=
  ⟨(Manager.allocMemory_mem h.wellLinked heq).1,
    (Manager.allocMemory_addressed h.wellLinked h.addressed heq).1⟩

lemma Addressed.createDeviceMem (h : d.Addressed) (t : ℕ) : (d.createDeviceMem t).2.Addressed := by
  unfold Driver.createDeviceMem
  split_ifs with hmem
  · exact h
  · cases hnew : d.addrMng.createNewContext t with
    | error e => exact h
    | ok mgr =>
      have hmgr : mgr.WellLinked ∧ mgr.Addressed :=
        ⟨(Manager.createNewContext_wellLinked h.wellLinked hnew).1,
          Manager.createNewContext_addressed h.wellLinked h.addressed hnew⟩
      simp only
      cases d.processor.ram.createRootPt with
      | error fault => exact ⟨hmgr.1, hmgr.2⟩
      | ok r => exact ⟨hmgr.1, hmgr.2⟩

lemma Addressed.allocLocalMem (h : d.Addressed) (size : ℕ) (bufType : BufferType) (t k : ℕ) :
    (d.allocLocalMem size bufType t k).2.Addressed := by
  have hcall := allocLocalMem_call h.wellLinked size bufType t k
  generalize d.allocLocalMem size bufType t k = r at hcall ⊢
  cases hcall with
  | refused e hrefused he => exact h
  | faulted hinfo hvirtual hphysical =>
    exact ⟨(h.allocMemory hvirtual).1, (h.allocMemory hvirtual).2⟩
  | noPages tag text hinfo hvirtual hphysical =>
    exact ⟨(h.allocMemory hvirtual).1, (h.allocMemory hvirtual).2⟩
  | notAttached e hinfo hvirtual hphysical hp hnone he =>
    exact ⟨(h.allocMemory hvirtual).1, (h.allocMemory hvirtual).2⟩
  | attached hinfo hvirtual hphysical hp hl hq hv =>
    obtain ⟨hwell, haddr⟩ := h.allocMemory hvirtual
    exact ⟨Manager.attached_wellLinked hwell _ _, Manager.attached_addressed haddr _ _⟩

lemma Addressed.freeLocalMem (h : d.Addressed) (size v t k : ℕ) :
    (d.freeLocalMem size v t k).2.Addressed := by
  unfold Driver.freeLocalMem
  split_ifs with hrefused
  · exact h
  · rcases Manager.releaseMemory_cases h.wellLinked t k v size with ⟨l, p, hl, hp, -, heq⟩ | ⟨-, e, -, heq⟩
    · have hwell := Manager.released_wellLinked h.wellLinked hl hp
      have haddr := Manager.released_addressed h.wellLinked h.addressed hl hp
      rw [heq]
      simp only
      cases d.ctxLst[t]? with
      | none => exact ⟨hwell, haddr⟩
      | some info => exact ⟨hwell, haddr⟩
    · rw [heq]
      exact h

lemma Addressed.call (h : d.Addressed) (op : DriverOp) : (d.call op).2.Addressed := by
  cases op with
  | createDeviceMem t => exact h.createDeviceMem t
  | deleteDeviceMem t =>
    have hmng := (deleteDeviceMem_mem d t).1
    exact ⟨hmng ▸ h.wellLinked, hmng ▸ h.addressed⟩
  | allocLocalMem size bufType t k => exact h.allocLocalMem size bufType t k
  | freeLocalMem size v t k => exact h.freeLocalMem size v t k

/-! ### The steps of an allocation -/

/-- An item at the new address: the new one, or one that was there. -/
lemma item_at_iff (h : d.addrMng.WellLinked) {t k size v : ℕ} {bufType : BufferType} {mgr : Manager}
    (hvirtual : d.addrMng.allocMemory t k size bufType = .ok (v, mgr)) :
    (∃ l, mgr.HasList k l ∧ ∃ q ∈ l, (mgr.heap q).vaddr = v) ↔
      k = t ∨ ∃ l, d.addrMng.HasList k l ∧ ∃ q ∈ l, (d.addrMng.heap q).vaddr = v := by
  obtain ⟨l, l', hl, hadd, -⟩ := Manager.allocMemory_added h hvirtual
  by_cases hkt : k = t
  · subst hkt
    exact iff_of_true ⟨l', hadd.list, d.addrMng.next, hadd.perm.mem_iff.mpr List.mem_cons_self,
      hadd.addr_new⟩ (.inl rfl)
  · rw [or_iff_right hkt]
    apply exists_congr
    intro l₁
    rw [hadd.hasList_other h hl hkt]
    refine and_congr_right fun hl₁ => ?_
    have hsame : ∀ q ∈ l₁, (mgr.heap q).vaddr = (d.addrMng.heap q).vaddr :=
      fun q hq => Item.data_vaddr (hadd.data q (hl₁.ne_next h q hq))
    constructor
    · rintro ⟨q, hq, hv⟩
      exact ⟨q, hq, (hsame q hq).symm.trans hv⟩
    · rintro ⟨q, hq, hv⟩
      exact ⟨q, hq, (hsame q hq).trans hv⟩

lemma not_refused {t k size v : ℕ} {bufType : BufferType} {mgr : Manager} {info : CtxInfo}
    (hinfo : d.ctxLst[t]? = some info)
    (hvirtual : d.addrMng.allocMemory t k size bufType = .ok (v, mgr)) :
    ¬ (t ∉ d.ctxLst ∨ ∃ e, d.addrMng.allocMemory t k size bufType = .error e) := by
  rintro (hmem | ⟨e, herr⟩)
  · rw [Std.ExtTreeMap.mem_iff_isSome_getElem?, hinfo] at hmem
    exact hmem rfl
  · rw [hvirtual] at herr
    cases herr

end Driver
end VentusDriver
