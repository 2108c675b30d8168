import VentusDriver.Foundation.RadixForest
import VentusDriver.Device.PageTables
import VentusDriver.Driver.ItemLists
import VentusDriver.Driver.Driver

/-! The life cycle of tasks. The driver and the address manager know the same tasks exactly as long
as no buffer was freed, and `deleteDeviceMem` does in no state what it is for. -/
namespace VentusDriver
open Foundation Foundation.Radix

inductive DriverOp
  | createDeviceMem (taskID : ℕ)
  | deleteDeviceMem (taskID : ℤ)
  | allocLocalMem (size : ℕ) (bufType : BufferType) (taskID kernelID : ℕ)
  | freeLocalMem (size vaddr taskID kernelID : ℕ)

namespace Driver

def call (d : Driver) : DriverOp → Except Failure Unit × Driver
  | .createDeviceMem taskID => let r := d.createDeviceMem taskID; (r.1.map fun _ => (), r.2)
  | .deleteDeviceMem taskID => let r := d.deleteDeviceMem taskID; (r.1.map fun _ => (), r.2)
  | .allocLocalMem size bufType taskID kernelID =>
    let r := d.allocLocalMem size bufType taskID kernelID
    (r.1.map fun _ => (), r.2)
  | .freeLocalMem size vaddr taskID kernelID =>
    let r := d.freeLocalMem size vaddr taskID kernelID
    (r.1.map fun _ => (), r.2)

/-- The call names a buffer in the list of its task. -/
def Frees (d : Driver) : DriverOp → Prop
  | .freeLocalMem size vaddr taskID _ =>
    0 < size ∧ ∃ l, d.addrMng.HasList taskID l ∧ ∃ p ∈ l, (d.addrMng.heap p).vaddr = vaddr
  | _ => False

/-- The driver and the address manager know the same tasks. -/
def IdsAgree (d : Driver) : Prop := ∀ t, t ∈ d.ctxLst ↔ t ∈ d.addrMng.cxtMem

/-- What deleting a task is for: it succeeds for the tasks that were created and for no other,
gives their root, page tables and pages back, and lets the task be created again. -/
structure DeletesTask (d : Driver) (t : ℤ) : Prop where
  succeeds : u64OfInt t ∈ d.ctxLst → (d.deleteDeviceMem t).1 = .ok 0
  fails : u64OfInt t ∉ d.ctxLst →
    (∃ e, (d.deleteDeviceMem t).1 = .error e) ∧ (d.deleteDeviceMem t).2 = d
  frees : ∀ info, d.ctxLst[u64OfInt t]? = some info → ∀ path q, path.length ≤ 3 →
    walk d.processor.ram.pm.entry info.root path = some q →
      ∀ b ∈ (d.deleteDeviceMem t).2.processor.ram.pm.blocks, ¬ (b.addr ≤ q ∧ q < b.limit)
  again : u64OfInt t ∈ d.ctxLst → (d.deleteDeviceMem t).2.processor.ram.pm.usable Sv39.pageSize ≠ 0 →
    ((d.deleteDeviceMem t).2.createDeviceMem (u64OfInt t)).1 = .ok 0

end Driver

structure LifecycleState where
  driver : Driver
  freed : Bool

/-- Runs of the driver that record whether a buffer was freed. -/
def lifecycleSystem : TransitionSystem LifecycleState DriverOp where
  init s := s = ⟨Driver.new, false⟩
  step s op t := Driver.Returned (s.driver.call op).1 ∧ t.driver = (s.driver.call op).2 ∧
    (t.freed = true ↔ s.freed = true ∨ s.driver.Frees op)

namespace Driver
variable {d : Driver}

/-- No state and no task meets the purpose of `deleteDeviceMem`. -/
lemma not_deletesTask (d : Driver) (t : ℤ) : ¬ d.DeletesTask t := by
  intro h
  by_cases hmem : u64OfInt t ∈ d.ctxLst
  · have hok := h.succeeds hmem
    rw [deleteDeviceMem, if_pos hmem] at hok
    cases hok
  · obtain ⟨⟨e, herr⟩, -⟩ := h.fails hmem
    rw [deleteDeviceMem, if_neg hmem] at herr
    cases herr

lemma deleteDeviceMem_mem (d : Driver) (t : ℤ) :
    (d.deleteDeviceMem t).2.addrMng = d.addrMng ∧
      ∀ c, c ∈ (d.deleteDeviceMem t).2.ctxLst ↔ c ∈ d.ctxLst := by
  unfold deleteDeviceMem
  split_ifs with hmem
  · exact ⟨rfl, fun c => Iff.rfl⟩
  · refine ⟨rfl, fun c => ?_⟩
    simp only [Std.ExtTreeMap.mem_erase]
    constructor
    · exact And.right
    · intro hc
      refine ⟨fun heq => hmem ?_, hc⟩
      rwa [Std.LawfulEqCmp.eq_of_compare heq]

/-- A task is created in both maps or in none. -/
theorem createDeviceMem_cases (h : d.addrMng.WellLinked) (t : ℕ) :
    (d.createDeviceMem t).2 = d ∨
      (t ∉ d.ctxLst ∧ (d.createDeviceMem t).2.addrMng.WellLinked ∧
        (∀ c, c ∈ (d.createDeviceMem t).2.ctxLst ↔ c = t ∨ c ∈ d.ctxLst) ∧
        ∀ c, c ∈ (d.createDeviceMem t).2.addrMng.cxtMem ↔ c = t ∨ c ∈ d.addrMng.cxtMem) := by
  unfold createDeviceMem
  split_ifs with hmem
  · exact .inl rfl
  · cases hnew : d.addrMng.createNewContext t with
    | error e => exact .inl rfl
    | ok mgr =>
      right
      have hwell := (Manager.createNewContext_wellLinked h hnew).1
      have hkeys := Manager.createNewContext_mem hnew
      simp only
      cases d.processor.ram.createRootPt with
      | error fault =>
        refine ⟨hmem, hwell, fun c => ?_, hkeys⟩
        rw [Std.ExtTreeMap.mem_insert, Nat.compare_eq_eq, eq_comm]
      | ok r =>
        refine ⟨hmem, hwell, fun c => ?_, hkeys⟩
        simp only [Std.ExtTreeMap.mem_insert, Nat.compare_eq_eq]
        rw [← or_assoc, or_self, eq_comm]

/-- An allocation changes neither map of tasks. -/
theorem allocLocalMem_mem (h : d.addrMng.WellLinked) (size : ℕ) (bufType : BufferType) (t k : ℕ) :
    (d.allocLocalMem size bufType t k).2.ctxLst = d.ctxLst ∧
      (d.allocLocalMem size bufType t k).2.addrMng.WellLinked ∧
      ∀ c, c ∈ (d.allocLocalMem size bufType t k).2.addrMng.cxtMem ↔ c ∈ d.addrMng.cxtMem := by
  unfold allocLocalMem
  cases d.ctxLst[t]? with
  | none => exact ⟨rfl, h, fun _ => Iff.rfl⟩
  | some info =>
    simp only
    split_ifs with hsize
    · exact ⟨rfl, h, fun _ => Iff.rfl⟩
    cases halloc : d.addrMng.allocMemory t k size bufType with
    | error e => exact ⟨rfl, h, fun _ => Iff.rfl⟩
    | ok r =>
      obtain ⟨vaddr, mgr⟩ := r
      obtain ⟨hwell, hkeys⟩ := Manager.allocMemory_mem h halloc
      simp only
      cases d.processor.ram.allocate info.root vaddr size with
      | error fault => exact ⟨rfl, hwell, hkeys⟩
      | ok r =>
        obtain ⟨paddr, ram⟩ := r
        simp only
        by_cases hp : paddr = 0
        · rw [if_pos hp]
          exact ⟨rfl, hwell, hkeys⟩
        rw [if_neg hp]
        rcases Manager.attachPaddr_cases hwell t k vaddr paddr with ⟨l, p, -, -, -, hat⟩ | ⟨-, e, -, hat⟩
        · rw [show (setRam { d with addrMng := mgr } ram).addrMng = mgr from rfl, hat]
          exact ⟨rfl, Manager.attached_wellLinked hwell p paddr, hkeys⟩
        · rw [show (setRam { d with addrMng := mgr } ram).addrMng = mgr from rfl, hat]
          exact ⟨rfl, hwell, hkeys⟩

/-- Freeing a buffer takes its task from the address manager. -/
theorem freeLocalMem_cases (h : d.addrMng.WellLinked) (size v t k : ℕ) :
    (d.freeLocalMem size v t k).2.ctxLst = d.ctxLst ∧
      ((d.Frees (.freeLocalMem size v t k) ∧ t ∈ d.addrMng.cxtMem ∧
          (d.freeLocalMem size v t k).2.addrMng.WellLinked ∧
          ∀ c, c ∈ (d.freeLocalMem size v t k).2.addrMng.cxtMem ↔ c ≠ t ∧ c ∈ d.addrMng.cxtMem) ∨
        (¬ d.Frees (.freeLocalMem size v t k) ∧
          (d.freeLocalMem size v t k).2.addrMng = d.addrMng)) := by
  unfold freeLocalMem
  split_ifs with hrefused
  · refine ⟨rfl, .inr ⟨?_, rfl⟩⟩
    rintro ⟨hsize, l, hl, -⟩
    cases hrefused with
    | inl hzero =>
      omega
    | inr hfind =>
      simp [Manager.findContextID, hl.mem] at hfind
  · rcases Manager.releaseMemory_cases h t k v size with ⟨l, p, hl, hp, hv, heq⟩ | ⟨hnone, e, -, heq⟩
    · rw [heq]
      have hfrees : d.Frees (.freeLocalMem size v t k) :=
        ⟨by omega, l, hl, p, hp, hv⟩
      have hwell := Manager.released_wellLinked h hl hp
      have hkeys := Manager.released_mem d.addrMng t p
      simp only
      cases d.ctxLst[t]? with
      | none => exact ⟨rfl, .inl ⟨hfrees, hl.mem, hwell, hkeys⟩⟩
      | some info => exact ⟨rfl, .inl ⟨hfrees, hl.mem, hwell, hkeys⟩⟩
    · rw [heq]
      refine ⟨rfl, .inr ⟨?_, rfl⟩⟩
      rintro ⟨-, l, hl, p, hp, hv⟩
      exact hnone l hl p hp hv

/-- The two maps of tasks in a run: every task of the address manager is one of the driver, and one
is missing exactly when a buffer was freed. -/
structure Tasks (s : LifecycleState) : Prop where
  wellLinked : s.driver.addrMng.WellLinked
  known : ∀ t, t ∈ s.driver.addrMng.cxtMem → t ∈ s.driver.ctxLst
  missing : s.freed = true ↔ ∃ t, t ∈ s.driver.ctxLst ∧ t ∉ s.driver.addrMng.cxtMem

theorem Tasks.idsAgree_iff {s : LifecycleState} (h : Tasks s) :
    s.driver.IdsAgree ↔ s.freed = false := by
  rw [← Bool.not_eq_true, h.missing]
  constructor
  · rintro hagree ⟨t, hmem, hnot⟩
    exact hnot ((hagree t).mp hmem)
  · intro hnone t
    refine ⟨fun hmem => ?_, h.known t⟩
    by_contra hnot
    exact hnone ⟨t, hmem, hnot⟩

theorem Tasks.step {s s' : LifecycleState} (h : Tasks s) {op : DriverOp}
    (hstep : lifecycleSystem.step s op s') : Tasks s' := by
  obtain ⟨-, hdriver, hfreed⟩ := hstep
  obtain ⟨hwell, hknown, hmissing⟩ := h
  cases op with
  | createDeviceMem t =>
    have hdriver' : s'.driver = (s.driver.createDeviceMem t).2 := hdriver
    have hfreed' : s'.freed = true ↔ s.freed = true := by simpa [Frees] using hfreed
    rcases createDeviceMem_cases hwell t with hsame | ⟨hnew, hwell', hctx, hcxt⟩
    · rw [hsame] at hdriver'
      exact ⟨hdriver' ▸ hwell, hdriver' ▸ hknown, hdriver' ▸ hfreed'.trans hmissing⟩
    · rw [← hdriver'] at hwell' hctx hcxt
      refine ⟨hwell', fun c hc => ?_, hfreed'.trans (hmissing.trans ⟨?_, ?_⟩)⟩
      · rw [hcxt] at hc
        exact (hctx c).mpr (hc.imp_right (hknown c))
      · rintro ⟨c, hc, hnot⟩
        refine ⟨c, (hctx c).mpr (.inr hc), fun hmem => ?_⟩
        cases (hcxt c).mp hmem with
        | inl heq =>
          subst heq
          exact hnew hc
        | inr hmem =>
          exact hnot hmem
      · rintro ⟨c, hc, hnot⟩
        rw [hcxt, not_or] at hnot
        exact ⟨c, ((hctx c).mp hc).resolve_left hnot.1, hnot.2⟩
  | deleteDeviceMem t =>
    have hfreed' : s'.freed = true ↔ s.freed = true := by simpa [Frees] using hfreed
    obtain ⟨hmng, hctx⟩ := deleteDeviceMem_mem s.driver t
    have hdriver' : s'.driver = (s.driver.deleteDeviceMem t).2 := hdriver
    rw [← hdriver'] at hmng hctx
    refine ⟨hmng ▸ hwell, ?_, ?_⟩
    · intro c hc
      rw [hmng] at hc
      exact (hctx c).mpr (hknown c hc)
    · rw [hfreed', hmissing, hmng]
      simp only [hctx]
  | allocLocalMem size bufType t k =>
    have hfreed' : s'.freed = true ↔ s.freed = true := by simpa [Frees] using hfreed
    obtain ⟨hctx, hwell', hcxt⟩ := allocLocalMem_mem hwell size bufType t k
    have hdriver' : s'.driver = (s.driver.allocLocalMem size bufType t k).2 := hdriver
    rw [← hdriver'] at hctx hwell' hcxt
    refine ⟨hwell', ?_, ?_⟩
    · intro c hc
      rw [hctx]
      exact hknown c ((hcxt c).mp hc)
    · rw [hfreed', hmissing, hctx]
      simp only [hcxt]
  | freeLocalMem size v t k =>
    have hdriver' : s'.driver = (s.driver.freeLocalMem size v t k).2 := hdriver
    obtain ⟨hctx, ⟨hfrees, ht, hwell', hcxt⟩ | ⟨hnot, hmng⟩⟩ := freeLocalMem_cases hwell size v t k
    · rw [← hdriver'] at hctx hwell' hcxt
      refine ⟨hwell', ?_, ?_⟩
      · intro c hc
        rw [hctx]
        exact hknown c ((hcxt c).mp hc).2
      · refine iff_of_true (hfreed.mpr (.inr hfrees)) ⟨t, ?_, ?_⟩
        · rw [hctx]
          exact hknown t ht
        · rw [hcxt]
          exact fun hmem => hmem.1 rfl
    · rw [← hdriver'] at hctx hmng
      have hfreed' : s'.freed = true ↔ s.freed = true := by rw [hfreed, or_iff_left hnot]
      rw [← hctx, ← hmng] at hknown hmissing
      exact ⟨hmng ▸ hwell, hknown, hfreed'.trans hmissing⟩

/-- In every run the driver and the address manager know the same tasks if and only if no buffer was
freed, and no task can be deleted as it should. -/
theorem lifecycle {s : LifecycleState} (h : lifecycleSystem.Reachable s) :
    (s.driver.IdsAgree ↔ s.freed = false) ∧ ∀ t, ¬ s.driver.DeletesTask t := by
  have htasks : Tasks s := by
    apply h.invariant
    · rintro s rfl
      refine ⟨Manager.new_wellLinked, ?_, ?_⟩
      · intro t ht
        simp [new, Manager.new] at ht
      · simp [new]
    · intro s op s' hs _ hstep
      exact hs.step hstep
  exact ⟨htasks.idsAgree_iff, not_deletesTask s.driver⟩

/-! ### Runs on concrete inputs -/

lemma returned_of_toOption {α : Type} {r : Except Failure α} (h : r.toOption.isSome = true) :
    Returned r := by
  cases r with
  | error e => cases h
  | ok a => trivial

lemma eq_ok_of_toOption {α : Type} {r : Except Failure α} {a : α} (h : r.toOption = some a) : r = .ok a := by
  cases r with
  | error e => cases h
  | ok b => exact congrArg Except.ok (Option.some.inj h)

/-- The flag follows every call that comes back. -/
lemma reachable_call {d : Driver} (h : ∃ freed, lifecycleSystem.Reachable ⟨d, freed⟩) (op : DriverOp)
    (hreturned : Returned (d.call op).1) : ∃ freed, lifecycleSystem.Reachable ⟨(d.call op).2, freed⟩ := by
  obtain ⟨freed, hreach⟩ := h
  by_cases hfrees : freed = true ∨ d.Frees op
  · exact ⟨true, hreach.next trivial ⟨hreturned, rfl, iff_of_true rfl hfrees⟩⟩
  · exact ⟨false, hreach.next trivial ⟨hreturned, rfl, iff_of_false (by simp) hfrees⟩⟩

theorem lifecycle_oneTask : ∃ s : LifecycleState, 0 ∈ s.driver.ctxLst ∧ s.freed = false ∧
    s.driver.IdsAgree ∧ ¬ s.driver.DeletesTask 0 := by
  let s : LifecycleState := ⟨(new.call (.createDeviceMem 0)).2, false⟩
  have hreach : lifecycleSystem.Reachable s := by
    refine (TransitionSystem.ReachableBy.start rfl).next (l := .createDeviceMem 0) trivial
      ⟨returned_of_toOption ?_, rfl, ?_⟩
    · decide +kernel
    · simp [s, Frees]
  obtain ⟨hids, hdelete⟩ := lifecycle hreach
  exact ⟨s, by decide +kernel, rfl, hids.mpr rfl, hdelete 0⟩

/-- Three calls that succeed: a task is created, a buffer of it allocated and freed. Then the task
cannot be deleted, and the address manager has forgotten it. -/
theorem created_task_not_deleted : ∃ s, lifecycleSystem.Reachable s ∧ 0 ∈ s.driver.ctxLst ∧
    0 ∉ s.driver.addrMng.cxtMem ∧ (s.driver.deleteDeviceMem 0).1.toOption = none ∧
    ¬ s.driver.IdsAgree ∧ ¬ s.driver.DeletesTask 0 := by
  let d₁ := (new.call (.createDeviceMem 0)).2
  let d₂ := (d₁.call (.allocLocalMem 4096 .readWrite 0 0)).2
  let d₃ := (d₂.call (.freeLocalMem 4096 0x60000000 0 0)).2
  have h₀ : ∃ freed, lifecycleSystem.Reachable ⟨new, freed⟩ := ⟨false, .start rfl⟩
  have h₁ := reachable_call h₀ (.createDeviceMem 0)
    (returned_of_toOption (by decide +kernel))
  have h₂ := reachable_call h₁ (.allocLocalMem 4096 .readWrite 0 0)
    (returned_of_toOption (by decide +kernel))
  obtain ⟨freed, h₃⟩ : ∃ freed, lifecycleSystem.Reachable ⟨d₃, freed⟩ :=
    reachable_call h₂ (.freeLocalMem 4096 0x60000000 0 0) (returned_of_toOption (by decide +kernel))
  have hctx : 0 ∈ d₃.ctxLst := by decide +kernel
  have hcxt : 0 ∉ d₃.addrMng.cxtMem := by decide +kernel
  have hdelete : (d₃.deleteDeviceMem 0).1.toOption = none := by decide +kernel
  clear_value d₃
  exact ⟨⟨d₃, freed⟩, h₃, hctx, hcxt, hdelete, fun hagree => hcxt ((hagree 0).mp hctx),
    not_deletesTask d₃ 0⟩

end Driver
end VentusDriver
