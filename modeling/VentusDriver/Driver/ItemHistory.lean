import VentusDriver.Driver.ItemLists
import VentusDriver.Foundation.Transition

/-! Runs of `createNewContext` and `allocMemory`, with the allocations that returned. A call that
throws leaves the manager as it stands where the exception is thrown. -/
namespace VentusDriver
open Foundation Linked

namespace Manager

/-! ### The calls with the manager that they leave -/

/-- `createNewContext` on the manager's own memory. -/
def runCreateNewContext (contextID : ℕ) : EStateM Failure Manager Unit := do
  let m ← get
  if contextID ∈ m.cxtMem then
    throw (.error "Manager::createNewContext" s!"A context of ID {contextID} exists, error!")
  set { m with cxtMem := m.cxtMem.insertIfNew contextID none }

/-- `allocMemory` on the manager's own memory. The address is the value that the caller's variable
has at the end. -/
def runAllocMemory (contextID kernelID size : ℕ) (bufType : BufferType) :
    EStateM Failure Manager ℕ := do
  if size = 0 then
    throw (.error "Manager::allocMemory" "vaddr or size not valid!")
  let size := alignedSize size blockSize
  let m ← get
  match m.cxtMem[contextID]? with
  | none => throw (.error "Manager::allocMemory" s!"{contextID} is not valid")
  | some head =>
    if ¬ size < (segment bufType).2 then
      throw (.error "Manager::allocMemory" "buffer size too large")
    match head with
    | none =>
      let vaddr := (segment bufType).1
      let heap := Function.update m.heap m.next ⟨none, none, kernelID, contextID, vaddr, none, size⟩
      set (Manager.mk heap (m.next + 1) (m.cxtMem.insert contextID (some m.next)))
      return vaddr
    | some root =>
      match m.allocVaddr root size bufType with
      | .error e => throw e
      | .ok (currentItem, vaddr) =>
        set (m.insertNewItem currentItem contextID kernelID vaddr size)
        return vaddr

@[simp] lemma run_throw {α : Type} (m : Manager) (e : Failure) :
    (throw e : EStateM Failure Manager α).run m = .error e m := rfl

lemma runCreateNewContext_run (m : Manager) (c : ℕ) : (runCreateNewContext c).run m =
    match m.createNewContext c with
    | .error e => .error e m
    | .ok m' => .ok () m' := by
  by_cases hmem : c ∈ m.cxtMem
  · simp [runCreateNewContext, createNewContext, hmem]
  · simp [runCreateNewContext, createNewContext, hmem]

/-- Where `allocMemory` throws, no list has been changed yet. -/
lemma runAllocMemory_run (m : Manager) (c k size : ℕ) (bufType : BufferType) :
    (runAllocMemory c k size bufType).run m =
      match m.allocMemory c k size bufType with
      | .error e => .error e m
      | .ok (vaddr, m') => .ok vaddr m' := by
  by_cases hsize : size = 0
  · simp [runAllocMemory, allocMemory, hsize]
  · cases hget : m.cxtMem[c]? with
    | none => simp [runAllocMemory, allocMemory, hsize, hget]
    | some head =>
      by_cases hlimit : alignedSize size blockSize < (segment bufType).2
      · cases head with
        | none => simp [runAllocMemory, allocMemory, hsize, hget, hlimit]
        | some root =>
          cases halloc : m.allocVaddr root (alignedSize size blockSize) bufType with
          | error e => simp [runAllocMemory, allocMemory, hsize, hget, hlimit, halloc]
          | ok place => simp [runAllocMemory, allocMemory, hsize, hget, hlimit, halloc]
      · simp [runAllocMemory, allocMemory, hsize, hget, hlimit]

end Manager

/-! ### Runs -/

inductive AllocOp
  | createNewContext (contextID : ℕ)
  | allocMemory (contextID kernelID size : ℕ) (bufType : BufferType)
  deriving DecidableEq, Repr

/-- A call of `allocMemory` that returned: its arguments and the address it gave. -/
structure AllocCall where
  contextID : ℕ
  kernelID : ℕ
  size : ℕ
  vaddr : ℕ
  deriving DecidableEq, Repr

/-- What the item of a call has to say. -/
def AllocCall.entry (call : AllocCall) : ℕ × ℕ × ℕ :=
  (call.kernelID, call.vaddr, alignedSize call.size blockSize)

def Item.entry (i : Item) : ℕ × ℕ × ℕ := (i.krlId, i.vaddr, i.size)

structure AllocState where
  mgr : Manager
  calls : List AllocCall

namespace AllocState

/-- The calls on a context that returned. -/
def on (s : AllocState) (contextID : ℕ) : List AllocCall :=
  s.calls.filter fun call => call.contextID = contextID

def exec (s : AllocState) : AllocOp → AllocState
  | .createNewContext c =>
    match (Manager.runCreateNewContext c).run s.mgr with
    | .ok _ mgr => { s with mgr := mgr }
    | .error _ mgr => { s with mgr := mgr }
  | .allocMemory c k size bufType =>
    match (Manager.runAllocMemory c k size bufType).run s.mgr with
    | .ok vaddr mgr => ⟨mgr, ⟨c, k, size, vaddr⟩ :: s.calls⟩
    | .error _ mgr => { s with mgr := mgr }

/-- The call throws. -/
def Throws (s : AllocState) : AllocOp → Prop
  | .createNewContext c => ∃ e mgr, (Manager.runCreateNewContext c).run s.mgr = .error e mgr
  | .allocMemory c k size bufType =>
    ∃ e mgr, (Manager.runAllocMemory c k size bufType).run s.mgr = .error e mgr

end AllocState

def allocSystem : TransitionSystem AllocState AllocOp where
  init s := s = ⟨Manager.new, []⟩
  step s op t := t = s.exec op

namespace AllocState
variable {s : AllocState} {c k size : ℕ} {bufType : BufferType}

lemma exec_of_throws {op : AllocOp} (h : s.Throws op) : s.exec op = s := by
  cases op with
  | createNewContext c =>
    obtain ⟨e, mgr, heq⟩ := h
    have hrun := Manager.runCreateNewContext_run s.mgr c
    simp only [exec, heq]
    rw [heq] at hrun
    cases hcall : s.mgr.createNewContext c with
    | error e' =>
      rw [hcall] at hrun
      cases hrun
      rfl
    | ok mgr' =>
      rw [hcall] at hrun
      cases hrun
  | allocMemory c k size bufType =>
    obtain ⟨e, mgr, heq⟩ := h
    have hrun := Manager.runAllocMemory_run s.mgr c k size bufType
    simp only [exec, heq]
    rw [heq] at hrun
    cases hcall : s.mgr.allocMemory c k size bufType with
    | error e' =>
      rw [hcall] at hrun
      cases hrun
      rfl
    | ok place =>
      rw [hcall] at hrun
      cases hrun

/-- Either the call throws, or it returns what the call of the manager returns. -/
lemma exec_cases (s : AllocState) (op : AllocOp) :
    s.Throws op ∨
      (∃ c mgr, op = .createNewContext c ∧ s.mgr.createNewContext c = .ok mgr ∧
        s.exec op = { s with mgr := mgr }) ∨
      ∃ c k size bufType v mgr, op = .allocMemory c k size bufType ∧
        s.mgr.allocMemory c k size bufType = .ok (v, mgr) ∧
        s.exec op = ⟨mgr, ⟨c, k, size, v⟩ :: s.calls⟩ := by
  cases op with
  | createNewContext c =>
    have hrun := Manager.runCreateNewContext_run s.mgr c
    cases hcall : s.mgr.createNewContext c with
    | error e =>
      rw [hcall] at hrun
      exact .inl ⟨e, s.mgr, hrun⟩
    | ok mgr =>
      rw [hcall] at hrun
      exact .inr (.inl ⟨c, mgr, rfl, hcall, by simp [exec, hrun]⟩)
  | allocMemory c k size bufType =>
    have hrun := Manager.runAllocMemory_run s.mgr c k size bufType
    cases hcall : s.mgr.allocMemory c k size bufType with
    | error e =>
      rw [hcall] at hrun
      exact .inl ⟨e, s.mgr, hrun⟩
    | ok place =>
      rw [hcall] at hrun
      exact .inr (.inr ⟨c, k, size, bufType, place.1, place.2, rfl, hcall, by simp [exec, hrun]⟩)

/-- The lists are well linked and have the items of the calls that returned. -/
structure Recorded (s : AllocState) : Prop where
  wellLinked : s.mgr.WellLinked
  entries : ∀ c l, s.mgr.HasList c l →
    (l.map fun p => (s.mgr.heap p).entry).Perm ((s.on c).map AllocCall.entry)
  context : ∀ call ∈ s.calls, call.contextID ∈ s.mgr.cxtMem

lemma recorded_new : Recorded ⟨Manager.new, []⟩ :=
  ⟨Manager.new_wellLinked, fun c l hl => absurd hl (Manager.new_no_list c l), by simp⟩

/-- A new context has an empty list, and no call has named it. -/
lemma recorded_create (h : s.Recorded) {mgr : Manager}
    (heq : s.mgr.createNewContext c = .ok mgr) : Recorded { s with mgr := mgr } := by
  obtain ⟨hwell, hfresh, hempty, hother⟩ := Manager.createNewContext_wellLinked h.wellLinked heq
  have hheap : mgr.heap = s.mgr.heap := by
    unfold Manager.createNewContext at heq
    split_ifs at heq
    rw [← Except.ok.inj heq]
  refine ⟨hwell, ?_, ?_⟩
  · intro c' l hl
    by_cases hne : c' = c
    · subst hne
      have hnone : s.on c' = [] := by
        rw [on, List.filter_eq_nil_iff]
        intro call hcall heq'
        have hmem := h.context call hcall
        rw [of_decide_eq_true heq'] at hmem
        exact hfresh hmem
      rw [hl.unique hempty]
      change List.Perm [] ((s.on c').map AllocCall.entry)
      rw [hnone]
      exact .refl _
    · change (l.map fun p => (mgr.heap p).entry).Perm _
      rw [hheap]
      exact h.entries c' l ((hother c' l hne).mp hl)
  · intro call hcall
    exact (Manager.createNewContext_mem heq _).mpr (.inr (h.context call hcall))

lemma entry_of_data {i j : Item} (h : i.data = j.data) : i.entry = j.entry := by
  simp only [Item.data, Prod.mk.injEq] at h
  simp only [Item.entry, h]

/-- An allocation that returns adds the item of the call, and keeps all others. -/
lemma recorded_alloc (h : s.Recorded) {v : ℕ} {mgr : Manager}
    (heq : s.mgr.allocMemory c k size bufType = .ok (v, mgr)) :
    Recorded ⟨mgr, ⟨c, k, size, v⟩ :: s.calls⟩ := by
  obtain ⟨l, l', hl, hadd, hwell⟩ := Manager.allocMemory_added h.wellLinked heq
  have hmem := (Manager.allocMemory_mem h.wellLinked heq).2
  have hkept : ∀ c₁ l₁, s.mgr.HasList c₁ l₁ →
      l₁.map (fun p => (mgr.heap p).entry) = l₁.map fun p => (s.mgr.heap p).entry := by
    intro c₁ l₁ hl₁
    apply List.map_congr_left
    intro p hp
    exact entry_of_data (hadd.data p (hl₁.ne_next h.wellLinked p hp))
  have hnew : (mgr.heap s.mgr.next).entry = AllocCall.entry ⟨c, k, size, v⟩ := by
    have hitem := hadd.item
    simp only [Item.data, Prod.mk.injEq] at hitem
    simp only [Item.entry, AllocCall.entry, hitem]
  refine ⟨hwell, ?_, ?_⟩
  · intro c₁ l₁ hl₁
    by_cases hne : c₁ = c
    · subst hne
      rw [hl₁.unique hadd.list]
      apply (hadd.perm.map _).trans
      have hon : on ⟨mgr, ⟨c₁, k, size, v⟩ :: s.calls⟩ c₁ = ⟨c₁, k, size, v⟩ :: s.on c₁ := by
        simp [on]
      rw [hon, List.map_cons, List.map_cons, hnew, hkept c₁ l hl]
      exact (h.entries c₁ l hl).cons _
    · have hold := (hadd.hasList_other h.wellLinked hl hne).mp hl₁
      have hon : on ⟨mgr, ⟨c, k, size, v⟩ :: s.calls⟩ c₁ = s.on c₁ := by
        simp [on, Ne.symm hne]
      rw [hon]
      change (l₁.map fun p => (mgr.heap p).entry).Perm _
      rw [hkept c₁ l₁ hold]
      exact h.entries c₁ l₁ hold
  · intro call hcall
    apply (hmem _).mpr
    cases List.mem_cons.mp hcall with
    | inl heq' =>
      subst heq'
      exact hl.mem
    | inr hcall => exact h.context call hcall

theorem exec_recorded (h : s.Recorded) (op : AllocOp) : (s.exec op).Recorded := by
  rcases exec_cases s op with hthrow | ⟨c, mgr, -, heq, hexec⟩ | ⟨c, k, size, bufType, v, mgr, -, heq, hexec⟩
  · rw [exec_of_throws hthrow]
    exact h
  · rw [hexec]
    exact recorded_create h heq
  · rw [hexec]
    exact recorded_alloc h heq

theorem recorded_of_reachable (h : allocSystem.Reachable s) : s.Recorded := by
  apply h.invariant
  · intro s hs
    rw [hs]
    exact recorded_new
  · intro s op t hs _ ht
    rw [ht]
    exact exec_recorded hs op

/-- In every run the list of each context is a finite chain of distinct items, with inverse links,
that has exactly the items of the calls on the context that returned. A call that throws changes no
item and no head. -/
theorem lists_record_calls (h : allocSystem.Reachable s) :
    (∀ c head, s.mgr.cxtMem[c]? = some head → ∃ l, Chain (Manager.links s.mgr.heap) head l ∧
      l.Nodup ∧ (∀ p ∈ head, (s.mgr.heap p).prev = none) ∧
      (∀ p ∈ l, ∀ q, (s.mgr.heap p).succ = some q ↔ q ∈ l ∧ (s.mgr.heap q).prev = some p) ∧
      (l.map fun p => (s.mgr.heap p).entry).Perm ((s.on c).map AllocCall.entry)) ∧
    (∀ call ∈ s.calls, call.contextID ∈ s.mgr.cxtMem) ∧
    ∀ op, s.Throws op → s.exec op = s := by
  have hrec := recorded_of_reachable h
  refine ⟨?_, hrec.context, fun op hop => exec_of_throws hop⟩
  intro c head hget
  obtain ⟨l, hl⟩ := hrec.wellLinked.list c (Manager.mem_iff_exists.mpr ⟨head, hget⟩)
  have hnodup := hrec.wellLinked.nodup c l hl
  have hentries := hrec.entries c l hl
  obtain ⟨head', hget', hchain⟩ := hl
  obtain rfl : head = head' := Option.some.inj (hget.symm.trans hget')
  refine ⟨l, hchain, hnodup, ?_, ?_, hentries⟩
  · intro p hp
    rw [Option.mem_def.mp hp] at hchain
    cases l with
    | nil => exact absurd hchain (by simp [Chain, Segment])
    | cons q l =>
      obtain ⟨heq, hprev, -⟩ := hchain
      obtain rfl := Option.some.inj heq
      exact hprev
  · intro p hp q
    constructor
    · intro hsucc
      exact hchain.inverse hp hsucc
    · intro hq
      exact hchain.succ_of_prev hq.1 hq.2

/-- Every call ends, with a result or with an exception of its own. -/
theorem alloc_ends_of_reachable (h : allocSystem.Reachable s) (c k size : ℕ)
    (bufType : BufferType) :
    (∃ v mgr, (Manager.runAllocMemory c k size bufType).run s.mgr = .ok v mgr) ∨
      ∃ tag text, (Manager.runAllocMemory c k size bufType).run s.mgr =
        .error (.error tag text) s.mgr := by
  rw [Manager.runAllocMemory_run]
  cases Manager.allocMemory_ends (recorded_of_reachable h).wellLinked c k size bufType with
  | inl hok =>
    obtain ⟨v, mgr, heq⟩ := hok
    rw [heq]
    exact .inl ⟨v, mgr, rfl⟩
  | inr herr =>
    obtain ⟨tag, text, heq⟩ := herr
    rw [heq]
    exact .inr ⟨tag, text, rfl⟩

/-- A context created twice, an allocation in the second segment, one in front of it, and one that
is too large. -/
def mixedCalls : List AllocOp :=
  [.createNewContext 0, .createNewContext 0, .allocMemory 0 1 100 .readWrite,
    .allocMemory 0 2 4096 .readOnly, .allocMemory 0 3 0x40000000 .readOnly]

theorem lists_record_calls_mixed :
    (let s := mixedCalls.foldl exec ⟨Manager.new, []⟩
    s.mgr.cxtMem[0]? = some (some 1) ∧
      (s.on 0).map AllocCall.entry = [(2, 0x40000000, 4096), (1, 0x60000000, 128)] ∧
      ∃ l, Chain (Manager.links s.mgr.heap) (some 1) l ∧ l.Nodup ∧
        (l.map fun p => (s.mgr.heap p).entry).Perm ((s.on 0).map AllocCall.entry)) := by
  intro s
  have hreach : allocSystem.Reachable s :=
    TransitionSystem.ReachableBy.foldl (.start rfl) (fun _ _ => rfl) fun _ _ _ => trivial
  have hhead : s.mgr.cxtMem[0]? = some (some 1) := by decide +kernel
  obtain ⟨l, hchain, hnodup, -, -, hentries⟩ := (lists_record_calls hreach).1 0 _ hhead
  exact ⟨hhead, by decide +kernel, l, hchain, hnodup, hentries⟩

end AllocState
end VentusDriver
