import VentusDriver.Driver.Lifecycle

/-! Translation of the requests of blocks in flight. The processor has one register for the root of
the page tables, set when a block is offered, and the blocks of several tasks may be in flight; they
are translated with their own roots as long as these are the same. -/
namespace VentusDriver
open Foundation

/-- A block in flight: its task, and its place among the requests handed to the device. -/
structure Flight where
  task : ℕ
  place : ℕ
  deriving DecidableEq

/-- A call of `start` in its firing loop, with `left` blocks left. While a block is offered the call
waits for the device to take it. -/
structure Firing where
  task : ℕ
  inputData : KrlMeta
  left : ℕ
  next : ℕ
  port : HostPort
  offered : Bool

/-- The driver, the memory controller, the call in progress and the blocks in flight. -/
structure TranslationState where
  driver : Driver
  ctl : MemController
  firing : Option Firing
  inFlight : List Flight

/-- The calls of the driver, the steps of a call of `start`, the report of a block, and a cycle of
the clock with the memory port as the device sets it. -/
inductive TranslationOp
  | call (op : DriverOp)
  | start (taskID : ℤ) (inputData : KrlMeta)
  | offer
  | accept
  | ret
  | finish (b : Flight)
  | tick (out : DeviceOut)

/-- The root of a task. -/
def Driver.rootOf (d : Driver) (t : ℕ) : Option ℕ := d.ctxLst[t]?.map CtxInfo.root

namespace TranslationState

/-- The loop of a call of `start` before its first block. -/
def fire (taskID : ℕ) (inputData : KrlMeta) : Firing :=
  ⟨taskID, inputData, u64 (inputData.kernelSize0 * inputData.kernelSize1 * inputData.kernelSize2), 0,
    Driver.kernelPort inputData, false⟩

def pdsParam (inputData : KrlMeta) : ℕ :=
  u64 (inputData.pdsSize * inputData.wfSize * inputData.wgSize)

/-- The port of the block that is offered next. -/
def nextPort (f : Firing) : Except Failure HostPort := do
  let wgId ← Driver.packWgId f.inputData.kernelId f.task f.next
  pure (Driver.blockPort f.port f.inputData (pdsParam f.inputData) f.next wgId)

/-- One step; calls do not overlap. The result is absent when the step is not possible. -/
def exec (s : TranslationState) : TranslationOp → Option TranslationState
  | .call op =>
    if s.firing.isNone ∧ Driver.Returned (s.driver.call op).1 then
      some { s with driver := (s.driver.call op).2 }
    else none
  | .start taskID inputData =>
    if s.firing.isNone ∧ u64OfInt taskID ∈ s.driver.ctxLst then
      some { s with firing := some (fire (u64OfInt taskID) inputData) }
    else none
  | .offer => do
    let f ← s.firing
    let port ← (nextPort f).toOption
    let info ← s.driver.ctxLst[f.task]?
    if 0 < f.left ∧ f.offered = false then
      some { s with
        driver := { s.driver with processor := s.driver.processor.offer info.root }
        firing := some { f with port := port, offered := true } }
    else none
  | .accept => do
    let f ← s.firing
    let info ← s.driver.ctxLst[f.task]?
    if f.offered then
      some { s with
        driver := Driver.recordBlock { s.driver with processor := s.driver.processor.accept f.port }
          f.task info f.inputData.kernelId f.port.wgId
        firing := some { f with left := f.left - 1, next := f.next + 1, offered := false }
        inFlight := s.inFlight ++ [⟨f.task, s.driver.processor.handed.length⟩] }
    else none
  | .ret => do
    let f ← s.firing
    if f.left = 0 then some { s with firing := none } else none
  | .finish b => if b ∈ s.inFlight then some { s with inFlight := s.inFlight.erase b } else none
  | .tick out =>
    let r := s.driver.processor.cycle s.ctl out
    some { s with driver := { s.driver with processor := r.1 }, ctl := r.2.1 }

end TranslationState

/-- Runs from a driver without tasks on, with a controller in any state. -/
def translationSystem : TransitionSystem TranslationState TranslationOp where
  init s := ∃ ctl, s = ⟨Driver.new, ctl, none, []⟩
  step s op t := s.exec op = some t

namespace TranslationState

/-- Every request that the block puts on the port is translated with the root of its task. -/
def Translated (s : TranslationState) (b : Flight) : Prop :=
  ∃ root, s.driver.rootOf b.task = some root ∧ s.driver.processor.root = root ∧
    ∀ out, (s.driver.processor.getRamBitsPort s.ctl out).1.req.address =
      u32 (s.driver.processor.ram.convert root out.aAddress)

/-- A block is offered only while the blocks in flight belong to tasks with its root. -/
def SameRoot (s : TranslationState) : TranslationOp → Prop
  | .offer => ∀ f, s.firing = some f → ∀ b ∈ s.inFlight, s.driver.rootOf b.task = s.driver.rootOf f.task
  | _ => True

end TranslationState

namespace Driver
variable {d : Driver} {t r : ℕ}

lemma rootOf_recordBlock {info : CtxInfo} {c : ℕ} (hinfo : d.ctxLst[c]? = some info) (k w t : ℕ) :
    (recordBlock d c info k w).rootOf t = d.rootOf t := by
  by_cases heq : t = c
  · subst heq
    simp [rootOf, recordBlock, hinfo]
  · rw [rootOf, recordBlock, getElem?_insert_ne heq, rootOf]

/-- No call but `start` sets the register, and a task keeps its root. -/
lemma call_kept (d : Driver) (op : DriverOp) : Kept d (d.call op).2 := by
  cases op with
  | createDeviceMem c => exact (createDeviceMem_kept d c).1
  | deleteDeviceMem c => exact deleteDeviceMem_kept d c
  | allocLocalMem size bufType c k => exact allocLocalMem_kept d size bufType c k
  | freeLocalMem size v c k => exact freeLocalMem_kept d size v c k

lemma Kept.rootOf {d' : Driver} (h : Kept d d') (hroot : d.rootOf t = some r) :
    d'.rootOf t = some r := by
  obtain ⟨info, hinfo, rfl⟩ := Option.map_eq_some_iff.mp hroot
  rw [Driver.rootOf, h.tasks t (mem_ctxLst.mpr ⟨info, hinfo⟩), hinfo, Option.map_some]

end Driver

namespace TranslationState
variable {s s' : TranslationState}

lemma exec_offer (h : s.exec .offer = some s') : ∃ f info port, s.firing = some f ∧
    s.driver.ctxLst[f.task]? = some info ∧ nextPort f = .ok port ∧
    s' = { s with
      driver := { s.driver with processor := s.driver.processor.offer info.root }
      firing := some { f with port := port, offered := true } } := by
  obtain ⟨f, hf, h⟩ := Option.bind_eq_some_iff.mp h
  obtain ⟨port, hport, h⟩ := Option.bind_eq_some_iff.mp h
  obtain ⟨info, hinfo, h⟩ := Option.bind_eq_some_iff.mp h
  split_ifs at h
  refine ⟨f, info, port, hf, hinfo, ?_, (Option.some.inj h).symm⟩
  cases hnext : nextPort f with
  | error e => simp [hnext, Except.toOption] at hport
  | ok port' =>
    rw [hnext] at hport
    rw [Option.some.inj hport]

lemma exec_accept (h : s.exec .accept = some s') : ∃ f info, s.firing = some f ∧ f.offered = true ∧
    s.driver.ctxLst[f.task]? = some info ∧
    s' = { s with
      driver := Driver.recordBlock { s.driver with processor := s.driver.processor.accept f.port }
        f.task info f.inputData.kernelId f.port.wgId
      firing := some { f with left := f.left - 1, next := f.next + 1, offered := false }
      inFlight := s.inFlight ++ [⟨f.task, s.driver.processor.handed.length⟩] } := by
  obtain ⟨f, hf, h⟩ := Option.bind_eq_some_iff.mp h
  obtain ⟨info, hinfo, h⟩ := Option.bind_eq_some_iff.mp h
  split_ifs at h with hoffered
  exact ⟨f, info, hf, hoffered, hinfo, (Option.some.inj h).symm⟩

/-! ### The steps of a call -/

/-- Cycles of the clock one after the other. -/
lemma ticks_run (s : TranslationState) (outs : List DeviceOut) :
    (outs.map .tick).foldlM exec s = some { s with
      driver := { s.driver with processor := (s.driver.processor.cycles s.ctl outs).1 }
      ctl := (s.driver.processor.cycles s.ctl outs).2 } := by
  induction outs generalizing s with
  | nil => rfl
  | cons out outs ih =>
    rw [List.map_cons, List.foldlM_cons]
    simp only [exec, Option.bind_eq_bind, Option.bind_some]
    rw [ih]
    rfl

/-- The steps of the loop for the blocks from `i` on, with the cycles until each is taken. -/
def loopOps (outs : ℕ → List DeviceOut) : ℕ → ℕ → List TranslationOp
  | 0, _ => []
  | n + 1, i => .offer :: ((outs i).map .tick ++ .accept :: loopOps outs n (i + 1))

/-- The controller as the processor makes it, with an address of 32 bits. -/
def Narrow (c : MemController) : Prop := c.num = numThread ∧ c.addr < 2 ^ 32

/-- The steps of the loop do what the loop does, whatever the device does in the cycles in between: what
they do to memory are writes of the device. -/
theorem fireBlocks_run {inputData : KrlMeta} {t n i : ℕ} {port : HostPort} (outs : ℕ → List DeviceOut)
    (hctl : Narrow s.ctl) (hfiring : s.firing = some ⟨t, inputData, n, i, port, false⟩) :
    ∃ device, (Driver.fireBlocks inputData device t (pdsParam inputData) n i port s.driver).1 = .ok 0 →
      ∃ s' port', (loopOps outs n i).foldlM exec s = some s' ∧
        s'.driver = (Driver.fireBlocks inputData device t (pdsParam inputData) n i port s.driver).2 ∧
        s'.firing = some ⟨t, inputData, 0, i + n, port', false⟩ := by
  induction n generalizing s i port with
  | zero => exact ⟨fun _ => [], fun _ => ⟨s, port, rfl, rfl, hfiring⟩⟩
  | succ n ih =>
    cases hpack : Driver.packWgId inputData.kernelId t i with
    | error e =>
      refine ⟨fun _ => [], fun hok => ?_⟩
      rw [Driver.fireBlocks] at hok
      simp [hpack] at hok
    | ok w =>
      cases hinfo : s.driver.ctxLst[t]? with
      | none =>
        refine ⟨fun _ => [], fun hok => ?_⟩
        rw [Driver.fireBlocks] at hok
        simp [hpack, hinfo] at hok
      | some info =>
        let port₁ := Driver.blockPort port inputData (pdsParam inputData) i w
        let s₁ : TranslationState := { s with
          driver := { s.driver with processor := s.driver.processor.offer info.root }
          firing := some ⟨t, inputData, n + 1, i, port₁, true⟩ }
        have hoffer : s.exec .offer = some s₁ := by
          simp [exec, hfiring, nextPort, hpack, hinfo, bind, Except.bind, pure, Except.pure,
            Except.toOption, s₁, port₁]
        obtain ⟨stores, hstores, hctl'⟩ :=
          (s.driver.processor.offer info.root).cycles_tick hctl.1 hctl.2 (outs i)
        let s₂ : TranslationState := { s₁ with
          driver := { s.driver with processor := (s.driver.processor.offer info.root).tick stores }
          ctl := ((s.driver.processor.offer info.root).cycles s.ctl (outs i)).2 }
        have hticks : ((outs i).map .tick).foldlM exec s₁ = some s₂ := by
          rw [ticks_run, hstores]
        let s₃ : TranslationState := { s₂ with
          driver := s.driver.fireBlock t info inputData.kernelId port₁ stores
          firing := some ⟨t, inputData, n, i + 1, port₁, false⟩
          inFlight := s.inFlight ++ [⟨t, s.driver.processor.handed.length⟩] }
        have haccept : s₂.exec .accept = some s₃ := by
          simp [exec, hinfo, s₁, s₂, s₃, Driver.fireBlock, Processor.run, Processor.offer, Processor.tick]
        obtain ⟨device, hrest⟩ := @ih s₃ (i + 1) port₁ hctl' rfl
        refine ⟨fun j => if j = i then stores else device j, fun hok => ?_⟩
        have hlater : ∀ j, i + 1 ≤ j → (if j = i then stores else device j) = device j :=
          fun j hj => if_neg (by omega)
        rw [Driver.fireBlocks] at hok ⊢
        simp only [hpack, hinfo, if_true, Driver.fireBlocks_congr hlater] at hok ⊢
        obtain ⟨s', port', hrun, hdriver, hfiring'⟩ := hrest hok
        refine ⟨s', port', ?_, hdriver, ?_⟩
        · rw [loopOps, List.foldlM_cons, hoffer]
          simp only [Option.bind_eq_bind, Option.bind_some, List.foldlM_append, hticks, List.foldlM_cons,
            haccept, hrun]
        · rw [hfiring', Nat.add_assoc, Nat.add_comm 1 n]

/-- The steps of a call, with the cycles until each block is taken. -/
def startOps (taskID : ℤ) (inputData : KrlMeta) (outs : ℕ → List DeviceOut) : List TranslationOp :=
  .start taskID inputData :: (loopOps outs (fire (u64OfInt taskID) inputData).left 0 ++ [.ret])

/-- The steps of a call that returns are a call of `start`, with some writes of the device. -/
theorem start_run {taskID : ℤ} {inputData : KrlMeta} (outs : ℕ → List DeviceOut) (hctl : Narrow s.ctl)
    (hidle : s.firing = none) : ∃ device, (s.driver.start taskID inputData device).1 = .ok 0 →
      ∃ s', (startOps taskID inputData outs).foldlM exec s = some s' ∧
        s'.driver = (s.driver.start taskID inputData device).2 ∧ s'.firing = none := by
  by_cases ht : u64OfInt taskID ∈ s.driver.ctxLst
  · have hstart : s.exec (.start taskID inputData) =
        some { s with firing := some (fire (u64OfInt taskID) inputData) } := by
      simp [exec, hidle, ht]
    obtain ⟨device, hloop⟩ :=
      fireBlocks_run (s := { s with firing := some (fire (u64OfInt taskID) inputData) })
        (n := (fire (u64OfInt taskID) inputData).left) outs hctl rfl
    refine ⟨device, fun hok => ?_⟩
    rw [Driver.start, if_pos ht] at hok ⊢
    obtain ⟨s', port', hrun, hdriver, hfiring⟩ := hloop hok
    refine ⟨{ s' with firing := none }, ?_, hdriver, rfl⟩
    rw [startOps, List.foldlM_cons, hstart]
    simp only [Option.bind_eq_bind, Option.bind_some, List.foldlM_append, hrun, List.foldlM_cons,
      List.foldlM_nil, exec, hfiring]
    rfl
  · refine ⟨fun _ => [], fun hok => ?_⟩
    rw [Driver.start, if_neg ht] at hok
    cases hok

/-! ### Runs -/

/-- The register holds the root of every block that is in flight or offered. -/
structure OwnRoot (s : TranslationState) : Prop where
  inFlight : ∀ b ∈ s.inFlight, s.driver.rootOf b.task = some s.driver.processor.root
  offered : ∀ f, s.firing = some f → f.offered = true →
    s.driver.rootOf f.task = some s.driver.processor.root

theorem translated_iff {b : Flight} :
    s.Translated b ↔ s.driver.rootOf b.task = some s.driver.processor.root := by
  constructor
  · rintro ⟨root, hroot, rfl, -⟩
    exact hroot
  · intro hroot
    exact ⟨_, hroot, rfl, fun out => rfl⟩

theorem OwnRoot.exec (h : OwnRoot s) {op : TranslationOp} (hstep : s.exec op = some s')
    (hsame : s.SameRoot op) : OwnRoot s' := by
  cases op with
  | call op =>
    simp only [TranslationState.exec] at hstep
    split_ifs at hstep with hidle
    obtain rfl := Option.some.inj hstep
    have hnone : s.firing = none := by simpa using hidle.1
    refine ⟨fun b hb => ?_, fun f hf => absurd (hnone.symm.trans hf) (by simp)⟩
    have hkept := Driver.call_kept s.driver op
    rw [hkept.rootOf (h.inFlight b hb), hkept.register]
  | start taskID inputData =>
    simp only [TranslationState.exec] at hstep
    split_ifs at hstep with hidle
    obtain rfl := Option.some.inj hstep
    refine ⟨h.inFlight, fun f hf hoffered => ?_⟩
    obtain rfl := Option.some.inj hf
    cases hoffered
  | offer =>
    obtain ⟨f, info, port, hf, hinfo, -, rfl⟩ := exec_offer hstep
    have hroot : s.driver.rootOf f.task = some info.root := by
      rw [Driver.rootOf, hinfo]
      rfl
    refine ⟨fun b hb => (hsame f hf b hb).trans hroot, fun g hg _ => ?_⟩
    obtain rfl := Option.some.inj hg
    exact hroot
  | accept =>
    obtain ⟨f, info, hf, hoffered, hinfo, rfl⟩ := exec_accept hstep
    have hrecord := Driver.rootOf_recordBlock
      (d := { s.driver with processor := s.driver.processor.accept f.port }) hinfo
      f.inputData.kernelId f.port.wgId
    refine ⟨fun b hb => (hrecord b.task).trans ?_, fun g hg hg' => ?_⟩
    · cases List.mem_append.mp hb with
      | inl hb =>
        exact h.inFlight b hb
      | inr hb =>
        obtain rfl := List.mem_singleton.mp hb
        exact h.offered f hf hoffered
    · obtain rfl := Option.some.inj hg
      cases hg'
  | ret =>
    obtain ⟨f, hf, hstep⟩ := Option.bind_eq_some_iff.mp hstep
    split_ifs at hstep
    obtain rfl := Option.some.inj hstep
    exact ⟨h.inFlight, fun g hg => by cases hg⟩
  | finish b =>
    simp only [TranslationState.exec] at hstep
    split_ifs at hstep
    obtain rfl := Option.some.inj hstep
    exact ⟨fun c hc => h.inFlight c (List.mem_of_mem_erase hc), h.offered⟩
  | tick out =>
    obtain rfl := Option.some.inj hstep
    exact ⟨h.inFlight, h.offered⟩

/-- The guard is exact: a block offered under another root turns the requests of a block in flight
to that root. -/
theorem sameRoot_of_translated {op : TranslationOp} (hstep : s.exec op = some s')
    (h : ∀ b ∈ s'.inFlight, s'.Translated b) : s.SameRoot op := by
  cases op with
  | offer =>
    intro f hf b hb
    obtain ⟨f', info, port, hf', hinfo, -, rfl⟩ := exec_offer hstep
    obtain rfl : f = f' := Option.some.inj (hf.symm.trans hf')
    have hroot : s.driver.rootOf b.task = some info.root := translated_iff.mp (h b hb)
    rw [hroot, Driver.rootOf, hinfo]
    rfl
  | _ => trivial

/-- Every block is translated with the root of its task while blocks are offered under one root
only; the first block offered under another root breaks this for a block in flight. -/
theorem translated_while_sameRoot (h : translationSystem.ReachableBy SameRoot s) :
    (∀ b ∈ s.inFlight, s.Translated b) ∧
      ∀ op s', s.exec op = some s' → ¬ s.SameRoot op → ∃ b ∈ s'.inFlight, ¬ s'.Translated b := by
  have hown : OwnRoot s := by
    apply h.invariant
    · rintro s ⟨ctl, rfl⟩
      exact ⟨by simp, by simp⟩
    · intro s op s' hs hsame hstep
      exact hs.exec hstep hsame
  refine ⟨fun b hb => translated_iff.mpr (hown.inFlight b hb), fun op s' hstep hother => ?_⟩
  by_contra hnone
  push Not at hnone
  exact hother (sameRoot_of_translated hstep hnone)

/-! ### Runs on concrete inputs -/

instance (s : TranslationState) : (op : TranslationOp) → Decidable (s.SameRoot op)
  | .offer =>
    match h : s.firing with
    | none => .isTrue fun f hf => absurd (h.symm.trans hf) (by simp)
    | some f =>
      decidable_of_iff (∀ b ∈ s.inFlight, s.driver.rootOf b.task = s.driver.rootOf f.task)
        ⟨fun hall g hg => Option.some.inj (h.symm.trans hg) ▸ hall, fun hall => hall f h⟩
  | .call _ => inferInstanceAs (Decidable True)
  | .start _ _ => inferInstanceAs (Decidable True)
  | .accept => inferInstanceAs (Decidable True)
  | .ret => inferInstanceAs (Decidable True)
  | .finish _ => inferInstanceAs (Decidable True)
  | .tick _ => inferInstanceAs (Decidable True)

/-- Kernel 0 with one block. -/
def oneBlock : KrlMeta := ⟨0, 1, 1, 1, 8, 2, 0, 0, 0, 0, 0, 0⟩

/-- The state after the steps, when each is possible and meets the guard. -/
def after (guard : TranslationState → TranslationOp → Prop) [∀ s op, Decidable (guard s op)]
    (ops : List TranslationOp) : Option TranslationState :=
  TransitionSystem.follow guard exec ops ⟨Driver.new, .zeroed numThread, none, []⟩

lemma reachableBy_after {guard : TranslationState → TranslationOp → Prop}
    [∀ s op, Decidable (guard s op)] {ops : List TranslationOp} (h : after guard ops = some s) :
    translationSystem.ReachableBy guard s := by
  have hinit : translationSystem.init ⟨Driver.new, .zeroed numThread, none, []⟩ := ⟨_, rfl⟩
  exact (TransitionSystem.ReachableBy.start hinit).follow (fun _ _ _ hst => hst) h

/-- Two tasks, one after the other: the block of task 1 is fired once that of task 0 is reported, and runs
under its own root. -/
theorem translated_while_sameRoot_twoTasks : ∃ s : TranslationState, s.inFlight = [⟨1, 1⟩] ∧
    s.driver.rootOf 0 = some 0x20000000 ∧ s.driver.processor.root = 0x20001000 ∧ s.Translated ⟨1, 1⟩ := by
  have hrun : (after SameRoot ([.call (.createDeviceMem 0), .call (.createDeviceMem 1)] ++
      startOps 0 oneBlock (fun _ => []) ++ [.finish ⟨0, 0⟩] ++ startOps 1 oneBlock fun _ => [])).map (fun s =>
        (s.inFlight, s.driver.rootOf 0, s.driver.processor.root)) =
      some ([⟨1, 1⟩], some 0x20000000, 0x20001000) := by decide +kernel
  obtain ⟨s, hs, heq⟩ := Option.map_eq_some_iff.mp hrun
  simp only [Prod.mk.injEq] at heq
  obtain ⟨hflight, hroot, hregister⟩ := heq
  have htranslated := (translated_while_sameRoot (reachableBy_after hs)).1 ⟨1, 1⟩ (by simp [hflight])
  exact ⟨s, hflight, hroot, hregister, htranslated⟩

/-- Task 1 offers a block while one of task 0 is in flight. The buffer of task 0 is not mapped any
more for its own block. -/
theorem other_task_sets_root : ∃ s, translationSystem.Reachable s ∧ s.inFlight = [⟨0, 0⟩] ∧
    s.driver.processor.ram.convert 0x20000000 0x60000000 = 0x20002000 ∧
    s.driver.processor.ram.convert s.driver.processor.root 0x60000000 = 0 ∧ ¬ s.Translated ⟨0, 0⟩ := by
  have hrun : ((after (fun _ _ => True) ([.call (.createDeviceMem 0), .call (.createDeviceMem 1),
      .call (.allocLocalMem 4096 .readWrite 0 0)] ++ startOps 0 oneBlock (fun _ => []) ++
      [.start 1 oneBlock, .offer])).map fun s =>
        (s.inFlight, s.driver.processor.ram.convert 0x20000000 0x60000000,
          s.driver.processor.ram.convert s.driver.processor.root 0x60000000, s.driver.rootOf 0,
          s.driver.processor.root)) =
      some ([⟨0, 0⟩], 0x20002000, 0, some 0x20000000, 0x20001000) := by decide +kernel
  obtain ⟨s, hs, heq⟩ := Option.map_eq_some_iff.mp hrun
  simp only [Prod.mk.injEq] at heq
  obtain ⟨hflight, hown, hother, hroot, hregister⟩ := heq
  refine ⟨s, reachableBy_after hs, hflight, hown, hother, fun htranslated => ?_⟩
  have hsame := translated_iff.mp htranslated
  rw [hroot, hregister] at hsame
  simp at hsame

end TranslationState
end VentusDriver
