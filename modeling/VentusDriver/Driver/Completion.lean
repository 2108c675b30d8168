import VentusDriver.Foundation.Transition
import VentusDriver.Driver.Driver

/-! Completion of blocks. `start` packs the task, the kernel and the block into one identifier by
shifts that depend on them, `wait` unpacks it by other shifts and masks, and only the first block
of a kernel is recorded. The two agree on the one block of a one-block kernel 0 of task 0. -/
namespace VentusDriver
open Foundation

/-- A block that was handed to the device. -/
structure FiredBlock where
  task : ℕ
  kernel : ℕ
  index : ℕ
  wgId : ℕ
  deriving DecidableEq

/-- The driver, the kernels started, the blocks fired and those that the device has reported. -/
structure CompletionState where
  driver : Driver
  started : List (ℕ × ℕ)
  fired : List FiredBlock
  reported : List FiredBlock
  failed : Bool

/-- The calls, with what the device writes during them. It reports the given blocks to a call of `wait`. -/
inductive CompletionOp
  | createDeviceMem (taskID : ℕ)
  | start (taskID : ℕ) (inputData : KrlMeta) (device : ℕ → List DeviceStore)
  | wait (stores : List DeviceStore) (blocks : List FiredBlock)

def KrlMeta.blocks (m : KrlMeta) : ℕ := u64 (m.kernelSize0 * m.kernelSize1 * m.kernelSize2)

namespace CompletionState

/-- The calls of a run, and reports of fired blocks that were not reported yet. -/
def Allowed (s : CompletionState) : CompletionOp → Prop
  | .createDeviceMem taskID => taskID < maxContext
  | .start taskID inputData _ => taskID ∈ s.driver.ctxLst ∧ inputData.kernelId < maxKernel ∧
      (taskID, inputData.kernelId) ∉ s.started ∧ inputData.blocks < numSm * maxBlockPerSm
  | .wait _ blocks => blocks.Nodup ∧ ∀ b ∈ blocks, b ∈ s.fired ∧ b ∉ s.reported

/-- The blocks that a call handed to the processor. -/
def firedBetween (d d' : Driver) (taskID kernelID : ℕ) : List FiredBlock :=
  (d'.processor.handed.drop d.processor.handed.length).mapIdx fun i port =>
    ⟨taskID, kernelID, i, port.wgId⟩

def exec (s : CompletionState) : CompletionOp → CompletionState
  | .createDeviceMem taskID => { s with driver := (s.driver.createDeviceMem taskID).2 }
  | .start taskID inputData device =>
    let d := (s.driver.start taskID inputData device).2
    { s with
      driver := d
      started := (taskID, inputData.kernelId) :: s.started
      fired := s.fired ++ firedBetween s.driver d taskID inputData.kernelId }
  | .wait stores blocks =>
    let r := s.driver.wait ⟨stores, blocks.map fun b => i32 b.wgId⟩
    { s with
      driver := r.2
      reported := s.reported ++ blocks
      failed := s.failed || !r.1.toBool }

end CompletionState

def completionSystem : TransitionSystem CompletionState CompletionOp where
  init s := s = ⟨Driver.new, [], [], [], false⟩
  step s op t := s.Allowed op ∧ t = s.exec op

/-- The record of a kernel. -/
def Driver.krlInfo (d : Driver) (t k : ℕ) : Option KrlInfo :=
  d.ctxLst[t]?.bind fun info => info.krlList[k]?

namespace CompletionState

/-- All blocks of the kernel were reported. -/
def AllReported (s : CompletionState) (t k : ℕ) : Prop :=
  ∀ b ∈ s.fired, b.task = t → b.kernel = k → b ∈ s.reported

instance (s : CompletionState) (t k : ℕ) : Decidable (s.AllReported t k) :=
  inferInstanceAs (Decidable (∀ b ∈ s.fired, b.task = t → b.kernel = k → b ∈ s.reported))

/-- No wait fails, and a kernel is finished, and pushed once, when all its blocks are reported. -/
structure Complete (s : CompletionState) : Prop where
  waits : s.failed = false
  state : ∀ t k, (t, k) ∈ s.started →
    ∃ krl, s.driver.krlInfo t k = some krl ∧ (krl.state = .finish ↔ s.AllReported t k)
  pushed : ∀ t k, (t, k) ∈ s.started →
    s.driver.finishedKernelLst.count (Driver.finishedId t k) = if s.AllReported t k then 1 else 0

/-- Every kernel has a block, and a reported block is the only one of kernel 0 of task 0. -/
def SingleBlock (s : CompletionState) : CompletionOp → Prop
  | .createDeviceMem _ => True
  | .start _ inputData _ => 0 < inputData.blocks
  | .wait _ blocks => ∀ b ∈ blocks, (b.task = 0 ∧ b.kernel = 0) ∧
      ∀ b' ∈ s.fired, b'.task = 0 → b'.kernel = 0 → b' = b

end CompletionState

namespace Driver
variable {d : Driver}

/-! ### Firing -/

/-- Each shift is by a width that the number is or-ed into, so both numbers must stay below 64. -/
lemma packWgId_ok_iff (k t i : ℕ) : (∃ w, packWgId k t i = .ok w) ↔ k < 64 ∧ i < 64 := by
  have h2 : ceilLog2 maxContext = 2 := by decide
  have h2' : ceilLog2 maxKernel = 2 := by decide
  have h6 : ceilLog2 (numSm * maxBlockPerSm) = 6 := by decide
  have hk : 2 ||| k < 64 ↔ k < 64 :=
    ⟨lt_of_le_of_lt Nat.right_le_or, Nat.or_lt_two_pow (n := 6) (by norm_num)⟩
  have hi : 6 ||| i < 64 ↔ i < 64 :=
    ⟨lt_of_le_of_lt Nat.right_le_or, Nat.or_lt_two_pow (n := 6) (by norm_num)⟩
  simp only [packWgId, shl64, h2, h2', h6, hk, hi, show 2 < 64 by norm_num, if_true, bind, Except.bind]
  by_cases hk : k < 64
  · by_cases hi : i < 64
    · simp [hk, hi, pure, Except.pure]
    · simp [hk, hi]
  · simp [hk]

/-- Every block of kernel 0 of task 0 has the identifier 0. -/
lemma packWgId_zero {i w : ℕ} (h : packWgId 0 0 i = .ok w) : w = 0 := by
  have h2 : shl64 0 (ceilLog2 maxContext) = .ok 0 := by decide
  have h2' : shl64 (0 ||| 0) (ceilLog2 maxKernel ||| 0) = .ok 0 := by decide
  have hlow : u32 (u32 (u64 (0 <<< (ceilLog2 (numSm * maxBlockPerSm) ||| i))) <<< ceilLog2 numSm) = 0 := by
    rw [Nat.zero_shiftLeft]
    decide
  simp only [packWgId, h2, h2', bind, Except.bind] at h
  unfold shl64 at h
  split_ifs at h
  rw [← Except.ok.inj h]
  exact hlow

/-- The record with which a kernel starts. -/
def firstRecord (wgId : ℕ) : KrlInfo :=
  ⟨(∅ : Std.ExtTreeMap ℤ KrlState).insertIfNew (i32 wgId) .unfinish, .unfinish⟩

lemma fireBlock_krlInfo {t k : ℕ} {info : CtxInfo} (hinfo : d.ctxLst[t]? = some info)
    (port : HostPort) (stores : List DeviceStore) (t' k' : ℕ) :
    (d.fireBlock t info k port stores).krlInfo t' k' =
      if t' = t ∧ k' = k then some ((d.krlInfo t k).getD (firstRecord port.wgId))
      else d.krlInfo t' k' := by
  have hget : (d.fireBlock t info k port stores).ctxLst[t']? = if t = t' then
      some { info with krlList := info.krlList.insertIfNew k (firstRecord port.wgId) }
      else d.ctxLst[t']? := by
    simp only [fireBlock, recordBlock, Std.ExtTreeMap.getElem?_insert, Nat.compare_eq_eq]
    rfl
  have hkrl : d.krlInfo t k = info.krlList[k]? := by simp [krlInfo, hinfo]
  rw [krlInfo, hget]
  by_cases ht : t' = t
  · subst ht
    simp only [if_true, Option.bind_some, Std.ExtTreeMap.getElem?_insertIfNew, Nat.compare_eq_eq,
      true_and, hkrl]
    by_cases hk : k' = k
    · subst hk
      cases hold : info.krlList[k']? with
      | none => simp [Std.ExtTreeMap.mem_iff_isSome_getElem?, hold]
      | some krl => simp [Std.ExtTreeMap.mem_iff_isSome_getElem?, hold]
    · rw [if_neg fun hc => hk hc.1.symm, if_neg hk, krlInfo, hinfo]
      rfl
  · rw [if_neg fun hc => ht hc.symm, if_neg fun hc => ht hc.1, krlInfo]

lemma blockPort_wgId (port : HostPort) (inputData : KrlMeta) (pdsParam i wgId : ℕ) :
    (blockPort port inputData pdsParam i wgId).wgId = wgId := rfl

/-- What the firing loop leaves behind, with `n` blocks left. -/
structure Fired (d d' : Driver) (t k i n : ℕ) (ws : List ℕ) : Prop where
  handed : d'.processor.handed.map HostPort.wgId = d.processor.handed.map HostPort.wgId ++ ws
  length : ws.length = n
  packed : ∀ j w, ws[j]? = some w → packWgId k t (i + j) = .ok w
  finished : d'.finishedKernelLst = d.finishedKernelLst
  tasks : ∀ c, c ∈ d'.ctxLst ↔ c ∈ d.ctxLst
  others : ∀ t' k', ¬ (t' = t ∧ k' = k) → d'.krlInfo t' k' = d.krlInfo t' k'
  kernel : ∀ w ∈ ws.head?, d'.krlInfo t k = some ((d.krlInfo t k).getD (firstRecord w))
  same : ws = [] → d'.krlInfo t k = d.krlInfo t k

theorem fireBlocks_spec (inputData : KrlMeta) (hk : inputData.kernelId < 64) (device : ℕ → List DeviceStore)
    {t pdsParam n i : ℕ} (port : HostPort) (ht : t ∈ d.ctxLst) (hi : i + n ≤ 64) :
    (fireBlocks inputData device t pdsParam n i port d).1 = .ok 0 ∧
      ∃ ws, Fired d (fireBlocks inputData device t pdsParam n i port d).2 t inputData.kernelId i n ws := by
  induction n generalizing i port d with
  | zero =>
    exact ⟨rfl, [], by simp [fireBlocks], rfl, by simp, rfl, fun _ => Iff.rfl, fun _ _ _ => rfl, by simp,
      fun _ => rfl⟩
  | succ n ih =>
    obtain ⟨w, hw⟩ := (packWgId_ok_iff inputData.kernelId t i).mpr ⟨hk, by omega⟩
    obtain ⟨info, hinfo⟩ := mem_ctxLst.mp ht
    simp only [fireBlocks, hw, hinfo]
    have ht' : t ∈ (d.fireBlock t info inputData.kernelId
        (blockPort port inputData pdsParam i w) (device i)).ctxLst := by
      simp [fireBlock, recordBlock]
    obtain ⟨hok, ws, hfired⟩ := ih (blockPort port inputData pdsParam i w) ht'
      (show i + 1 + n ≤ 64 by omega)
    have hkrl := fireBlock_krlInfo (k := inputData.kernelId) hinfo
      (blockPort port inputData pdsParam i w) (device i)
    refine ⟨hok, w :: ws, ?_, by simp [hfired.length], ?_, hfired.finished, ?_, ?_, ?_, by simp⟩
    · rw [hfired.handed]
      simp [fireBlock, recordBlock, Processor.run, Processor.offer, Processor.tick, Processor.accept, blockPort]
    · intro j v hj
      cases j with
      | zero =>
        obtain rfl : w = v := by simpa using hj
        exact hw
      | succ j =>
        have := hfired.packed j v (by simpa using hj)
        rwa [show i + (j + 1) = i + 1 + j by omega]
    · intro c
      rw [hfired.tasks]
      simp only [fireBlock, recordBlock, Std.ExtTreeMap.mem_insert, Nat.compare_eq_eq]
      exact ⟨fun hc => hc.elim (fun heq => heq ▸ ht) id, .inr⟩
    · intro t' k' hne
      rw [hfired.others t' k' hne, hkrl, if_neg hne]
    · intro v hv
      obtain rfl : w = v := by simpa using hv
      have hfirst : (d.fireBlock t info inputData.kernelId
          (blockPort port inputData pdsParam i w) (device i)).krlInfo t inputData.kernelId =
          some ((d.krlInfo t inputData.kernelId).getD (firstRecord w)) := by
        rw [hkrl, if_pos ⟨rfl, rfl⟩, blockPort_wgId]
      cases ws with
      | nil => rw [hfired.same rfl, hfirst]
      | cons v ws =>
        rw [hfired.kernel v rfl, hfirst, Option.getD_some]

theorem start_spec {t : ℕ} (ht : t ∈ d.ctxLst) (hlt : t < 4) {inputData : KrlMeta}
    (hk : inputData.kernelId < 4) (hn : inputData.blocks < 64) (device : ℕ → List DeviceStore) :
    ∃ ws, Fired d (d.start t inputData device).2 t inputData.kernelId 0 inputData.blocks ws := by
  have hid : u64OfInt t = t := by
    rw [u64OfInt]
    omega
  rw [start, hid, if_pos ht]
  exact (fireBlocks_spec inputData (by omega) device _ ht (by rw [Nat.zero_add]; exact hn.le)).2

/-! ### Finishing -/

/-- The record of a kernel after the report of one of its blocks. -/
def reportBlock (krl : KrlInfo) (b : ℤ) : KrlInfo :=
  ⟨krl.blkList.insert b .finish,
    if allBlockFinished (krl.blkList.insert b .finish) then .finish else krl.state⟩

/-- What the report of a legal block does. -/
structure Reported (d d' : Driver) (wgId : ℤ) (krl : KrlInfo) : Prop where
  before : d.krlInfo (contextIdOf wgId) (kernelIdOf wgId) = some krl
  recorded : (blockId wgId : ℤ) ∈ krl.blkList
  after : d'.krlInfo (contextIdOf wgId) (kernelIdOf wgId) = some (reportBlock krl (blockId wgId))
  others : ∀ t k, ¬ (t = contextIdOf wgId ∧ k = kernelIdOf wgId) → d'.krlInfo t k = d.krlInfo t k
  tasks : ∀ c, c ∈ d'.ctxLst ↔ c ∈ d.ctxLst
  pushed : d'.finishedKernelLst = d.finishedKernelLst ++
    if allBlockFinished (krl.blkList.insert (blockId wgId : ℤ) .finish)
      then [finishedId (contextIdOf wgId) (kernelIdOf wgId)] else []

theorem finishBlock_isSome_iff (d : Driver) (w : ℤ) : (d.finishBlock w).isSome ↔
    ∃ krl, d.krlInfo (contextIdOf w) (kernelIdOf w) = some krl ∧ (blockId w : ℤ) ∈ krl.blkList := by
  unfold finishBlock krlInfo
  cases d.ctxLst[contextIdOf w]? with
  | none => simp
  | some info =>
    cases hget : info.krlList[kernelIdOf w]? with
    | none => simp [hget]
    | some krl =>
      by_cases hmem : (blockId w : ℤ) ∈ krl.blkList
      · simp [hget, hmem]
      · simp [hget, hmem]

theorem finishBlock_reported {w : ℤ} {d' : Driver} (h : d.finishBlock w = some d') :
    ∃ krl, Reported d d' w krl := by
  obtain ⟨info, hinfo, hrest⟩ := Option.bind_eq_some_iff.mp h
  obtain ⟨krl, hget, hlegal⟩ := Option.bind_eq_some_iff.mp hrest
  have hmem : (blockId w : ℤ) ∈ krl.blkList := by
    by_contra hnot
    rw [if_neg hnot] at hlegal
    exact absurd hlegal (by simp)
  rw [if_pos hmem] at hlegal
  rw [← Option.some.inj hlegal]
  refine ⟨krl, by rw [krlInfo, hinfo, Option.bind_some, hget], hmem, by simp [krlInfo, reportBlock], ?_, ?_,
    rfl⟩
  · intro t k hne
    simp only [krlInfo, Std.ExtTreeMap.getElem?_insert, Nat.compare_eq_eq]
    by_cases ht : contextIdOf w = t
    · subst ht
      have hk : kernelIdOf w ≠ k := fun heq => hne ⟨rfl, heq.symm⟩
      rw [if_pos rfl, hinfo, Option.bind_some, Option.bind_some,
        Std.ExtTreeMap.getElem?_insert, if_neg (by rwa [Nat.compare_eq_eq])]
    · rw [if_neg ht]
  · intro c
    rw [Std.ExtTreeMap.mem_insert, Nat.compare_eq_eq]
    exact ⟨fun hc => hc.elim (fun heq => heq ▸ mem_ctxLst.mpr ⟨info, hinfo⟩) id, .inr⟩

/-- The report of block 0 finishes kernel 0 of task 0 when it is the only recorded block. -/
theorem finishBlock_zero {krl : KrlInfo} (hkrl : d.krlInfo 0 0 = some krl)
    (hkeys : ∀ i, i ∈ krl.blkList ↔ i = 0) :
    ∃ d', d.finishBlock 0 = some d' ∧
      d'.finishedKernelLst = d.finishedKernelLst ++ [finishedId 0 0] ∧
      (∀ c, c ∈ d'.ctxLst ↔ c ∈ d.ctxLst) ∧
      (∃ krl', d'.krlInfo 0 0 = some krl' ∧ krl'.state = .finish ∧ ∀ i, i ∈ krl'.blkList ↔ i = 0) ∧
      ∀ t k, ¬ (t = 0 ∧ k = 0) → d'.krlInfo t k = d.krlInfo t k := by
  have hctx : contextIdOf 0 = 0 := by decide
  have hkernel : kernelIdOf 0 = 0 := by decide
  have hblock : ((blockId 0 : ℕ) : ℤ) = 0 := by decide
  have hall : allBlockFinished (krl.blkList.insert 0 .finish) = true := by
    rw [allBlockFinished, List.all_eq_true]
    rintro ⟨i, state⟩ hi
    rw [Std.ExtTreeMap.mem_toList_iff_getElem?_eq_some, Std.ExtTreeMap.getElem?_insert] at hi
    have hcmp : compare 0 i = .eq := by
      by_contra hne
      rw [if_neg hne] at hi
      have hmem' : i ∈ krl.blkList := by
        rw [Std.ExtTreeMap.mem_iff_isSome_getElem?, hi]
        rfl
      exact hne (by rw [(hkeys i).mp hmem']; rfl)
    rw [if_pos hcmp] at hi
    exact decide_eq_true (Option.some.inj hi).symm
  have hlegal : (d.finishBlock 0).isSome := by
    rw [finishBlock_isSome_iff, hctx, hkernel, hblock]
    exact ⟨krl, hkrl, (hkeys 0).mpr rfl⟩
  obtain ⟨d', hd'⟩ := Option.isSome_iff_exists.mp hlegal
  obtain ⟨krl₁, hreported⟩ := finishBlock_reported hd'
  have hsame := hreported.before
  rw [hctx, hkernel, hkrl] at hsame
  obtain rfl : krl = krl₁ := Option.some.inj hsame
  have hafter := hreported.after
  have hpushed := hreported.pushed
  have hothers := hreported.others
  rw [hctx, hkernel, hblock] at hafter
  rw [hctx, hkernel, hblock, if_pos hall] at hpushed
  rw [hctx, hkernel] at hothers
  refine ⟨d', hd', hpushed, hreported.tasks, ⟨_, hafter, if_pos hall, fun i => ?_⟩, hothers⟩
  rw [reportBlock, Std.ExtTreeMap.mem_insert, hkeys, Std.LawfulEqCmp.compare_eq_iff_eq]
  exact ⟨fun hi => hi.elim Eq.symm id, .inr⟩

/-- Tasks and the kernels of task 0 are below their limits, and its kernel 0 records block 0 only. -/
structure OnlyZero (d : Driver) : Prop where
  tasks : ∀ c, c ∈ d.ctxLst → c < 4
  kernels : ∀ k krl, d.krlInfo 0 k = some krl → k < 4
  keys : ∀ krl, d.krlInfo 0 0 = some krl → ∀ i, i ∈ krl.blkList ↔ i = 0

lemma blockField_eq (wgId : ℤ) (shift width : ℕ) :
    blockField wgId shift width = 0 ∨ blockField wgId shift width = 2 ^ width := by
  rw [blockField, Nat.one_shiftLeft, Nat.and_two_pow]
  cases (u64OfInt (wgId >>> shift)).testBit width with
  | false => exact .inl (by simp)
  | true => exact .inr (by simp)

/-- Each mask leaves 0 or a value beyond every recorded one, so a legal block finishes kernel 0 of
task 0, whatever it is. -/
theorem OnlyZero.finishBlock (h : OnlyZero d) {w : ℤ} {d' : Driver}
    (hfinish : d.finishBlock w = some d') : OnlyZero d' ∧ (∃ krl, d.krlInfo 0 0 = some krl) ∧
      d'.finishedKernelLst = d.finishedKernelLst ++ [finishedId 0 0] := by
  obtain ⟨krl, hreported⟩ := finishBlock_reported hfinish
  obtain ⟨info, hinfo, hget⟩ := Option.bind_eq_some_iff.mp hreported.before
  have hctx : contextIdOf w = 0 := by
    have hlt := h.tasks _ (mem_ctxLst.mpr ⟨info, hinfo⟩)
    apply (blockField_eq _ _ _).resolve_right
    intro heq
    rw [contextIdOf, heq] at hlt
    exact absurd hlt (by decide)
  rw [hctx] at hinfo
  have hkernel : kernelIdOf w = 0 := by
    have hlt := h.kernels (kernelIdOf w) krl (by rw [krlInfo, hinfo, Option.bind_some, hget])
    apply (blockField_eq _ _ _).resolve_right
    intro heq
    rw [kernelIdOf, heq] at hlt
    exact absurd hlt (by decide)
  have hkrl : d.krlInfo 0 0 = some krl := by rw [krlInfo, hinfo, Option.bind_some, ← hkernel, hget]
  have hblock : blockId w = 0 := by
    exact_mod_cast (h.keys krl hkrl _).mp hreported.recorded
  have hzero : d.finishBlock w = d.finishBlock 0 := by
    simp only [Driver.finishBlock, hctx, hkernel, hblock]
    rfl
  obtain ⟨d₁, hd₁, hpushed, htasks, ⟨krl', hkrl', -, hkeys⟩, hothers⟩ :=
    finishBlock_zero hkrl (h.keys krl hkrl)
  obtain rfl : d₁ = d' := Option.some.inj (hd₁.symm.trans (hzero.symm.trans hfinish))
  refine ⟨⟨fun c hc => h.tasks c ((htasks c).mp hc), ?_, ?_⟩, ⟨krl, hkrl⟩, hpushed⟩
  · intro k krl₁ hk
    by_cases hne : k = 0
    · omega
    · rw [hothers 0 k fun hc => hne hc.2] at hk
      exact h.kernels k krl₁ hk
  · intro krl₁ hk
    rw [hkrl'] at hk
    rwa [← Option.some.inj hk]

/-- A call of `wait` that does not fail pushes kernel 0 of task 0 once for every block. -/
theorem OnlyZero.finishBlocks (h : OnlyZero d) {ws : List ℤ} (hok : (d.finishBlocks ws).1.toBool = true) :
    (d.finishBlocks ws).2.finishedKernelLst =
        d.finishedKernelLst ++ List.replicate ws.length (finishedId 0 0) ∧
      (ws ≠ [] → ∃ krl, d.krlInfo 0 0 = some krl) := by
  induction ws generalizing d with
  | nil => simp [Driver.finishBlocks]
  | cons w ws ih =>
    rw [Driver.finishBlocks] at hok ⊢
    cases hfinish : d.finishBlock w with
    | none => simp [hfinish, Except.toBool] at hok
    | some d' =>
      simp only [hfinish] at hok ⊢
      obtain ⟨hd', hkrl, hpushed⟩ := h.finishBlock hfinish
      refine ⟨?_, fun _ => hkrl⟩
      rw [(ih hd' hok).1, hpushed, List.append_assoc, List.length_cons, List.replicate_succ]
      rfl

lemma createDeviceMem_krlInfo (d : Driver) (t : ℕ) :
    (d.createDeviceMem t).2.finishedKernelLst = d.finishedKernelLst ∧
      (∀ c, c ∈ (d.createDeviceMem t).2.ctxLst → c = t ∨ c ∈ d.ctxLst) ∧
      ∀ t' k', (d.createDeviceMem t).2.krlInfo t' k' = d.krlInfo t' k' := by
  obtain ⟨hkept, hnew⟩ := createDeviceMem_kept d t
  refine ⟨hkept.finished, fun c hc => ?_, fun t' k' => ?_⟩
  · by_cases hmem : c ∈ d.ctxLst
    · exact .inr hmem
    · obtain ⟨info, hinfo⟩ := mem_ctxLst.mp hc
      exact .inl (hnew c hmem info hinfo).1
  · by_cases hmem : t' ∈ d.ctxLst
    · rw [krlInfo, hkept.tasks t' hmem, krlInfo]
    · -- the new task has no kernels
      have hnone : d.ctxLst[t']? = none := by simpa using hmem
      rw [krlInfo, krlInfo, hnone]
      cases hinfo : (d.createDeviceMem t).2.ctxLst[t']? with
      | none => rfl
      | some info => simp [(hnew t' hmem info hinfo).2]

end Driver

namespace CompletionState
variable {s : CompletionState}

/-- A run in which only the one block of a one-block kernel 0 of task 0 was reported. -/
structure Tracked (s : CompletionState) : Prop where
  waits : s.failed = false
  tasks : ∀ t, t ∈ s.driver.ctxLst → t < 4
  small : ∀ t k, (t, k) ∈ s.started → t < 4 ∧ k < 4
  fired_started : ∀ b ∈ s.fired, (b.task, b.kernel) ∈ s.started
  started_fired : ∀ t k, (t, k) ∈ s.started → ∃ b ∈ s.fired, b.task = t ∧ b.kernel = k
  wgId : ∀ b ∈ s.fired, b.task = 0 → b.kernel = 0 → b.wgId = 0
  recorded : ∀ t k, (t, k) ∉ s.started → s.driver.krlInfo t k = none
  record : ∀ t k, (t, k) ∈ s.started → ∃ krl, s.driver.krlInfo t k = some krl ∧
    (krl.state = .finish ↔ t = 0 ∧ k = 0 ∧ s.reported ≠ []) ∧
    (t = 0 → k = 0 → ∀ i, i ∈ krl.blkList ↔ i = 0)
  reported : ∀ b ∈ s.reported, b ∈ s.fired ∧ b.task = 0 ∧ b.kernel = 0 ∧
    ∀ b' ∈ s.fired, b'.task = 0 → b'.kernel = 0 → b' = b
  pushed : s.driver.finishedKernelLst = if s.reported = [] then [] else [Driver.finishedId 0 0]

lemma Tracked.allReported_iff (h : Tracked s) {t k : ℕ} (hstarted : (t, k) ∈ s.started) :
    s.AllReported t k ↔ t = 0 ∧ k = 0 ∧ s.reported ≠ [] := by
  constructor
  · intro hall
    obtain ⟨b, hb, rfl, rfl⟩ := h.started_fired t k hstarted
    have hmem := hall b hb rfl rfl
    obtain ⟨-, ht, hk, -⟩ := h.reported b hmem
    exact ⟨ht, hk, List.ne_nil_of_mem hmem⟩
  · rintro ⟨rfl, rfl, hne⟩ b hb ht hk
    obtain ⟨b', hb'⟩ := List.exists_mem_of_ne_nil _ hne
    obtain ⟨-, -, -, hsingle⟩ := h.reported b' hb'
    rwa [hsingle b hb ht hk]

theorem Tracked.complete (h : Tracked s) : Complete s := by
  refine ⟨h.waits, ?_, ?_⟩
  · intro t k hstarted
    obtain ⟨krl, hkrl, hstate, -⟩ := h.record t k hstarted
    exact ⟨krl, hkrl, hstate.trans (h.allReported_iff hstarted).symm⟩
  · intro t k hstarted
    have hid : ∀ t < 4, ∀ k < 4, Driver.finishedId 0 0 = Driver.finishedId t k → t = 0 ∧ k = 0 := by
      decide
    obtain ⟨ht, hk⟩ := h.small t k hstarted
    rw [h.pushed]
    simp only [h.allReported_iff hstarted]
    by_cases hnil : s.reported = []
    · simp [hnil]
    · by_cases hzero : t = 0 ∧ k = 0
      · obtain ⟨rfl, rfl⟩ := hzero
        simp [hnil]
      · have hne : Driver.finishedId 0 0 ≠ Driver.finishedId t k := fun heq => hzero (hid t ht k hk heq)
        rw [if_neg hnil, if_neg fun hc => hzero ⟨hc.1, hc.2.1⟩]
        simp [hne]

lemma Tracked.createDeviceMem (h : Tracked s) {t : ℕ} (ht : t < 4) :
    Tracked (s.exec (.createDeviceMem t)) := by
  obtain ⟨hfinished, htasks, hkrl⟩ := Driver.createDeviceMem_krlInfo s.driver t
  refine ⟨h.waits, ?_, h.small, h.fired_started, h.started_fired, h.wgId, ?_, ?_, h.reported, ?_⟩
  · intro c hc
    cases htasks c hc with
    | inl heq =>
      subst heq
      exact ht
    | inr hc =>
      exact h.tasks c hc
  · intro t' k' hnot
    exact (hkrl t' k').trans (h.recorded t' k' hnot)
  · intro t' k' hstarted
    obtain ⟨krl, hget, hrest⟩ := h.record t' k' hstarted
    exact ⟨krl, (hkrl t' k').trans hget, hrest⟩
  · exact hfinished.trans h.pushed

/-- The blocks fired by a call of `start`. -/
lemma mem_firedBetween {d d' : Driver} {t k n : ℕ} {ws : List ℕ} (hfired : Driver.Fired d d' t k 0 n ws)
    {b : FiredBlock} : b ∈ firedBetween d d' t k ↔
      b.task = t ∧ b.kernel = k ∧ ws[b.index]? = some b.wgId := by
  have hws : (d'.processor.handed.drop d.processor.handed.length).map HostPort.wgId = ws := by
    rw [List.map_drop, hfired.handed, List.drop_left' (by simp)]
  rw [firedBetween, List.mem_mapIdx, ← hws, List.getElem?_map]
  constructor
  · rintro ⟨i, hi, rfl⟩
    exact ⟨rfl, rfl, by simp [List.getElem?_eq_getElem hi]⟩
  · rintro ⟨rfl, rfl, hget⟩
    obtain ⟨port, hport, hw⟩ := Option.map_eq_some_iff.mp hget
    obtain ⟨hi, rfl⟩ := List.getElem?_eq_some_iff.mp hport
    exact ⟨b.index, hi, by rw [hw]⟩

/-- What a call of `start` that hands over the blocks `ws` of a new kernel does. -/
structure Launched (s s' : CompletionState) (t k : ℕ) (ws : List ℕ) : Prop where
  tasks : ∀ c, c ∈ s'.driver.ctxLst ↔ c ∈ s.driver.ctxLst
  finished : s'.driver.finishedKernelLst = s.driver.finishedKernelLst
  fired : ∀ b, b ∈ s'.fired ↔ b ∈ s.fired ∨
    (b.task = t ∧ b.kernel = k ∧ ws[b.index]? = some b.wgId)
  packed : ∀ j w, ws[j]? = some w → Driver.packWgId k t j = .ok w
  first : ∃ w, ws[0]? = some w ∧ s'.driver.krlInfo t k = some (Driver.firstRecord w)
  others : ∀ t' k', ¬ (t' = t ∧ k' = k) → s'.driver.krlInfo t' k' = s.driver.krlInfo t' k'

lemma Tracked.launched (h : Tracked s) {t : ℕ} {inputData : KrlMeta} {device : ℕ → List DeviceStore}
    (hallowed : s.Allowed (.start t inputData device)) (hpos : 0 < inputData.blocks) :
    ∃ ws, Launched s (s.exec (.start t inputData device)) t inputData.kernelId ws := by
  obtain ⟨ht, hk, hnew, hn⟩ := hallowed
  obtain ⟨ws, hfired⟩ := Driver.start_spec ht (h.tasks t ht) hk hn device
  obtain ⟨w, hw⟩ : ∃ w, ws[0]? = some w := by
    have hlength := hfired.length
    exact ⟨ws[0], List.getElem?_eq_getElem (by omega)⟩
  refine ⟨ws, hfired.tasks, hfired.finished, fun b => ?_, ?_, ⟨w, hw, ?_⟩, hfired.others⟩
  · rw [← mem_firedBetween hfired]
    exact List.mem_append
  · intro j v hj
    simpa using hfired.packed j v hj
  · have hkernel := hfired.kernel w (by rwa [List.head?_eq_getElem?])
    rwa [h.recorded t inputData.kernelId hnew] at hkernel

lemma Tracked.start (h : Tracked s) {t : ℕ} {inputData : KrlMeta} {device : ℕ → List DeviceStore}
    (hallowed : s.Allowed (.start t inputData device)) (hpos : 0 < inputData.blocks) :
    Tracked (s.exec (.start t inputData device)) := by
  obtain ⟨ws, hl⟩ := h.launched hallowed hpos
  obtain ⟨w, hw, hkrl⟩ := hl.first
  obtain ⟨ht, hk, hnew, -⟩ := hallowed
  have hlt := h.tasks t ht
  have hnew' : ∀ b ∈ s.fired, ¬ (b.task = t ∧ b.kernel = inputData.kernelId) := by
    rintro b hb ⟨htask, hkernel⟩
    have := h.fired_started b hb
    rw [htask, hkernel] at this
    exact hnew this
  have hstarted : ∀ t' k', (t', k') ∈ (s.exec (.start t inputData device)).started ↔
      (t' = t ∧ k' = inputData.kernelId) ∨ (t', k') ∈ s.started := by
    intro t' k'
    rw [← Prod.mk.injEq]
    exact List.mem_cons
  refine ⟨h.waits, ?_, ?_, ?_, ?_, ?_, ?_, ?_, ?_, hl.finished.trans h.pushed⟩
  · intro c hc
    exact h.tasks c ((hl.tasks c).mp hc)
  · intro t' k' hs
    cases (hstarted t' k').mp hs with
    | inl heq => exact ⟨heq.1 ▸ hlt, heq.2 ▸ hk⟩
    | inr hs => exact h.small t' k' hs
  · intro b hb
    rw [hstarted]
    cases (hl.fired b).mp hb with
    | inl hb => exact .inr (h.fired_started b hb)
    | inr hb => exact .inl ⟨hb.1, hb.2.1⟩
  · intro t' k' hs
    cases (hstarted t' k').mp hs with
    | inl heq =>
      exact ⟨⟨t, inputData.kernelId, 0, w⟩, (hl.fired _).mpr (.inr ⟨rfl, rfl, hw⟩), heq.1.symm,
        heq.2.symm⟩
    | inr hs =>
      obtain ⟨b, hb, hrest⟩ := h.started_fired t' k' hs
      exact ⟨b, (hl.fired b).mpr (.inl hb), hrest⟩
  · intro b hb htask hkernel
    rcases (hl.fired b).mp hb with hb | ⟨ht', hk', hj⟩
    · exact h.wgId b hb htask hkernel
    · have hpacked := hl.packed _ _ hj
      rw [← ht', ← hk', htask, hkernel] at hpacked
      exact Driver.packWgId_zero hpacked
  · intro t' k' hnot
    rw [hstarted, not_or] at hnot
    rw [hl.others t' k' hnot.1]
    exact h.recorded t' k' hnot.2
  · intro t' k' hs
    by_cases hne : t' = t ∧ k' = inputData.kernelId
    · obtain ⟨rfl, rfl⟩ := hne
      refine ⟨_, hkrl, iff_of_false (by simp [Driver.firstRecord]) ?_, fun ht0 hk0 i => ?_⟩
      · rintro ⟨ht0, hk0, hne⟩
        obtain ⟨b, hb⟩ := List.exists_mem_of_ne_nil _ hne
        obtain ⟨hb', htask, hkernel, -⟩ := h.reported b hb
        exact hnew' b hb' ⟨htask.trans ht0.symm, hkernel.trans hk0.symm⟩
      · have hpacked := hl.packed 0 w hw
        rw [ht0, hk0] at hpacked
        have hw0 : i32 w = 0 := by
          rw [Driver.packWgId_zero hpacked]
          decide
        simp only [Driver.firstRecord, hw0, Std.ExtTreeMap.mem_insertIfNew,
          Std.LawfulEqCmp.compare_eq_iff_eq, Std.ExtTreeMap.not_mem_empty, or_false]
        exact eq_comm
    · obtain ⟨krl, hget, hrest⟩ := h.record t' k' (((hstarted t' k').mp hs).resolve_left hne)
      exact ⟨krl, (hl.others t' k' hne).trans hget, hrest⟩
  · intro b hb
    obtain ⟨hb', htask, hkernel, hsingle⟩ := h.reported b hb
    refine ⟨(hl.fired b).mpr (.inl hb'), htask, hkernel, fun b' hb'' ht' hk' => ?_⟩
    rcases (hl.fired b').mp hb'' with hb'' | ⟨ht'', hk'', -⟩
    · exact hsingle b' hb'' ht' hk'
    · exact absurd ⟨htask.trans (ht'.symm.trans ht''), hkernel.trans (hk'.symm.trans hk'')⟩
        (hnew' b hb')

/-- The records do not depend on memory. -/
lemma Tracked.tick (h : Tracked s) (stores : List DeviceStore) :
    Tracked { s with driver := s.driver.tick stores } :=
  ⟨h.waits, h.tasks, h.small, h.fired_started, h.started_fired, h.wgId, h.recorded, h.record, h.reported,
    h.pushed⟩

lemma Tracked.wait (h : Tracked s) {stores : List DeviceStore} {blocks : List FiredBlock}
    (hallowed : s.Allowed (.wait stores blocks)) (hsingle : s.SingleBlock (.wait stores blocks)) :
    Tracked (s.exec (.wait stores blocks)) := by
  obtain ⟨hnodup, hblocks⟩ := hallowed
  cases blocks with
  | nil =>
    have hsame : s.exec (.wait stores []) = { s with driver := s.driver.tick stores } := by
      simp [CompletionState.exec, Driver.wait_eq, Driver.finishBlocks, Except.toBool]
    rw [hsame]
    exact h.tick stores
  | cons b rest =>
    obtain ⟨hb, hfresh⟩ := hblocks b List.mem_cons_self
    obtain ⟨⟨htask, hkernel⟩, honly⟩ := hsingle b List.mem_cons_self
    -- the block is alone in the queue, and nothing was reported before
    have hrest : rest = [] := by
      apply List.eq_nil_iff_forall_not_mem.mpr
      intro b' hb'
      obtain ⟨⟨ht', hk'⟩, -⟩ := hsingle b' (List.mem_cons_of_mem _ hb')
      have heq := honly b' (hblocks b' (List.mem_cons_of_mem _ hb')).1 ht' hk'
      exact (List.nodup_cons.mp hnodup).1 (heq ▸ hb')
    have hnone : s.reported = [] := by
      apply List.eq_nil_iff_forall_not_mem.mpr
      intro b' hb'
      obtain ⟨hb'', ht', hk', -⟩ := h.reported b' hb'
      exact hfresh (honly b' hb'' ht' hk' ▸ hb')
    subst hrest
    have hstarted : (0, 0) ∈ s.started := by
      have := h.fired_started b hb
      rwa [htask, hkernel] at this
    obtain ⟨krl, hkrl, -, hkeys⟩ := h.record 0 0 hstarted
    have hticked : (s.driver.tick stores).krlInfo 0 0 = some krl := hkrl
    obtain ⟨d, hfinish, hpushed, htasks, ⟨krl', hkrl', hstate, hkeys'⟩, hothers⟩ :=
      Driver.finishBlock_zero hticked (hkeys rfl rfl)
    have hid : i32 b.wgId = 0 := by
      rw [h.wgId b hb htask hkernel]
      decide
    have hexec : s.exec (.wait stores [b]) = { s with driver := d, reported := [b] } := by
      simp [CompletionState.exec, Driver.wait_eq, Driver.finishBlocks, hid, hfinish, Except.toBool, hnone]
    rw [hexec]
    refine ⟨h.waits, ?_, h.small, h.fired_started, h.started_fired, h.wgId, ?_, ?_, ?_, ?_⟩
    · intro c hc
      exact h.tasks c ((htasks c).mp hc)
    · intro t k hnot
      have hne : ¬ (t = 0 ∧ k = 0) := by
        rintro ⟨rfl, rfl⟩
        exact hnot hstarted
      exact (hothers t k hne).trans (h.recorded t k hnot)
    · intro t k hs
      by_cases hne : t = 0 ∧ k = 0
      · obtain ⟨rfl, rfl⟩ := hne
        exact ⟨krl', hkrl', by simp [hstate], fun _ _ => hkeys'⟩
      · obtain ⟨krl₁, hget, hstate₁, -⟩ := h.record t k hs
        refine ⟨krl₁, (hothers t k hne).trans hget, hstate₁.trans ?_, fun ht hk => absurd ⟨ht, hk⟩ hne⟩
        exact iff_of_false (fun hc => hne ⟨hc.1, hc.2.1⟩) fun hc => hne ⟨hc.1, hc.2.1⟩
    · intro b' hb'
      obtain rfl := List.mem_singleton.mp hb'
      exact ⟨hb, htask, hkernel, honly⟩
    · simp [hpushed, h.pushed, hnone]

theorem Tracked.exec (h : Tracked s) {op : CompletionOp} (hallowed : s.Allowed op)
    (hsingle : s.SingleBlock op) : Tracked (s.exec op) := by
  cases op with
  | createDeviceMem t => exact h.createDeviceMem hallowed
  | start t inputData device => exact h.start hallowed hsingle
  | wait stores blocks => exact h.wait hallowed hsingle

lemma Tracked.onlyZero (h : Tracked s) : s.driver.OnlyZero := by
  refine ⟨h.tasks, ?_, ?_⟩
  · intro k krl hk
    by_contra hlt
    rw [h.recorded 0 k fun hs => hlt (h.small 0 k hs).2] at hk
    cases hk
  · intro krl hk
    have hs : (0, 0) ∈ s.started := by
      by_contra hnot
      rw [h.recorded 0 0 hnot] at hk
      cases hk
    obtain ⟨krl', hkrl', -, hkeys⟩ := h.record 0 0 hs
    rw [hkrl'] at hk
    rw [← Option.some.inj hk]
    exact hkeys rfl rfl

/-- The guard is exact: any other step breaks the protocol at once. -/
theorem Tracked.singleBlock (h : Tracked s) {op : CompletionOp} (hallowed : s.Allowed op)
    (hcomplete : Complete (s.exec op)) : s.SingleBlock op := by
  cases op with
  | createDeviceMem t => trivial
  | start t inputData device =>
    obtain ⟨ht, hk, hnew, hn⟩ := hallowed
    obtain ⟨ws, hfired⟩ := Driver.start_spec ht (h.tasks t ht) hk hn device
    apply Nat.pos_of_ne_zero
    intro hzero
    have hws : ws = [] := List.eq_nil_of_length_eq_zero (hfired.length.trans hzero)
    obtain ⟨krl, hkrl, -⟩ := hcomplete.state t inputData.kernelId List.mem_cons_self
    have hnone := (hfired.same hws).trans (h.recorded t inputData.kernelId hnew)
    exact absurd (hnone.symm.trans hkrl) (by simp)
  | wait stores blocks =>
    intro b hb
    have hok : ((s.driver.tick stores).finishBlocks (blocks.map fun b => i32 b.wgId)).1.toBool = true := by
      have hfailed := hcomplete.waits
      simp only [CompletionState.exec, h.waits, Bool.false_or, Driver.wait_eq] at hfailed
      simpa using hfailed
    have hzero := (h.tick stores).onlyZero
    obtain ⟨hpushed, hkrl⟩ := hzero.finishBlocks hok
    have hstarted : (0, 0) ∈ s.started := by
      by_contra hnot
      obtain ⟨krl, hkrl⟩ := hkrl (by simpa using List.ne_nil_of_mem hb)
      rw [(h.tick stores).recorded 0 0 hnot] at hkrl
      cases hkrl
    -- every block of the call was counted for the same kernel
    have hcount := hcomplete.pushed 0 0 hstarted
    rw [show (s.exec (.wait stores blocks)).driver.finishedKernelLst = _ from hpushed, List.count_append,
      List.count_replicate_self, List.length_map] at hcount
    have hlength : 0 < blocks.length := List.length_pos_of_mem hb
    have hall : (s.exec (.wait stores blocks)).AllReported 0 0 := by
      by_contra hnot
      rw [if_neg hnot] at hcount
      omega
    rw [if_pos hall] at hcount
    obtain ⟨b₁, rfl⟩ := List.length_eq_one_iff.mp (show blocks.length = 1 by omega)
    have hnone : s.reported = [] := by
      by_contra hne
      rw [Driver.tick_finishedKernelLst, h.pushed, if_neg hne] at hcount
      simp at hcount
    have honly : ∀ b' ∈ s.fired, b'.task = 0 → b'.kernel = 0 → b' = b := by
      intro b' hb' ht hk
      have hmem : b' ∈ s.reported ++ [b₁] := hall b' hb' ht hk
      rw [hnone] at hmem
      exact (List.mem_singleton.mp hmem).trans (List.mem_singleton.mp hb).symm
    obtain ⟨b', hb', ht, hk⟩ := h.started_fired 0 0 hstarted
    have heq := honly b' hb' ht hk
    exact ⟨⟨heq ▸ ht, heq ▸ hk⟩, honly⟩

theorem Tracked.of_reachable (h : completionSystem.ReachableBy SingleBlock s) : Tracked s := by
  apply h.invariant
  · rintro s rfl
    refine ⟨rfl, ?_, by simp, by simp, by simp, by simp, fun _ _ _ => ?_, by simp, by simp, rfl⟩
    · intro t ht
      simp [Driver.new] at ht
    · simp [Driver.krlInfo, Driver.new]
  · rintro s op t hs hsingle ⟨hallowed, rfl⟩
    exact hs.exec hallowed hsingle

/-- The protocol is kept by the runs in which every kernel has a block and the device reports only
the block of a one-block kernel 0 of task 0, and it is lost by the first step of any other run. -/
theorem completion_of_singleBlock (h : completionSystem.ReachableBy SingleBlock s) :
    Complete s ∧ ∀ op, s.Allowed op → ¬ s.SingleBlock op → ¬ Complete (s.exec op) := by
  have htracked := Tracked.of_reachable h
  exact ⟨htracked.complete, fun op hallowed hother hcomplete =>
    hother (htracked.singleBlock hallowed hcomplete)⟩

/-! ### Runs on concrete inputs -/

/-- Kernel 0 with `n` blocks. -/
def kernelOf (n : ℕ) : KrlMeta where
  kernelId := 0
  kernelSize0 := n
  kernelSize1 := 1
  kernelSize2 := 1
  wfSize := 8
  wgSize := 2
  baseAddr := 0
  ldsSize := 0
  pdsSize := 0
  sgprUsage := 0
  vgprUsage := 0
  pdsBaseAddr := 0

instance (s : CompletionState) : (op : CompletionOp) → Decidable (s.Allowed op)
  | .createDeviceMem taskID => inferInstanceAs (Decidable (taskID < maxContext))
  | .start taskID inputData _ => inferInstanceAs (Decidable (taskID ∈ s.driver.ctxLst ∧
      inputData.kernelId < maxKernel ∧ (taskID, inputData.kernelId) ∉ s.started ∧
      inputData.blocks < numSm * maxBlockPerSm))
  | .wait _ blocks => inferInstanceAs (Decidable (blocks.Nodup ∧ ∀ b ∈ blocks, b ∈ s.fired ∧ b ∉ s.reported))

instance (s : CompletionState) : (op : CompletionOp) → Decidable (s.SingleBlock op)
  | .createDeviceMem _ => inferInstanceAs (Decidable True)
  | .start _ inputData _ => inferInstanceAs (Decidable (0 < inputData.blocks))
  | .wait _ blocks => inferInstanceAs (Decidable (∀ b ∈ blocks, (b.task = 0 ∧ b.kernel = 0) ∧
      ∀ b' ∈ s.fired, b'.task = 0 → b'.kernel = 0 → b' = b))

/-- The state after the calls, when each is allowed and meets the guard. -/
def after (guard : CompletionState → CompletionOp → Prop) [∀ s op, Decidable (guard s op)]
    (ops : List CompletionOp) : Option CompletionState :=
  TransitionSystem.follow guard (fun s op => if s.Allowed op then some (s.exec op) else none) ops
    ⟨Driver.new, [], [], [], false⟩

lemma reachableBy_after {guard : CompletionState → CompletionOp → Prop}
    [∀ s op, Decidable (guard s op)] {ops : List CompletionOp} (h : after guard ops = some s) :
    completionSystem.ReachableBy guard s := by
  refine (TransitionSystem.ReachableBy.start rfl).follow (fun s op t hst => ?_) h
  split_ifs at hst with hallowed
  exact ⟨hallowed, (Option.some.inj hst).symm⟩

theorem completion_of_singleBlock_oneBlock : ∃ s : CompletionState, s.reported = [⟨0, 0, 0, 0⟩] ∧
    Complete s := by
  have hrun : ((after SingleBlock [.createDeviceMem 0, .start 0 (kernelOf 1) fun _ => [],
      .wait [] [⟨0, 0, 0, 0⟩]]).map reported) = some [⟨0, 0, 0, 0⟩] := by decide +kernel
  obtain ⟨s, hs, hreported⟩ := Option.map_eq_some_iff.mp hrun
  exact ⟨s, hreported, (completion_of_singleBlock (reachableBy_after hs)).1⟩

/-- Of two blocks only the first is recorded, and each of the two reports finishes the kernel. -/
theorem second_block_not_recorded : ∃ s, completionSystem.Reachable s ∧
    s.reported = [⟨0, 0, 0, 0⟩, ⟨0, 0, 1, 0⟩] ∧ s.driver.finishedKernelLst = [0, 0] ∧ ¬ Complete s := by
  have hrun : ((after (fun _ _ => True) [.createDeviceMem 0, .start 0 (kernelOf 2) fun _ => [],
      .wait [] [⟨0, 0, 0, 0⟩, ⟨0, 0, 1, 0⟩]]).map fun s =>
        (s.reported, s.driver.finishedKernelLst, s.started)) =
      some ([⟨0, 0, 0, 0⟩, ⟨0, 0, 1, 0⟩], [0, 0], [(0, 0)]) := by decide +kernel
  obtain ⟨s, hs, heq⟩ := Option.map_eq_some_iff.mp hrun
  obtain ⟨hreported, hrest⟩ := Prod.mk.inj heq
  obtain ⟨hpushed, hstarted⟩ := Prod.mk.inj hrest
  refine ⟨s, reachableBy_after hs, hreported, hpushed, fun hcomplete => ?_⟩
  have hcount := hcomplete.pushed 0 0 (by simp [hstarted])
  rw [hpushed] at hcount
  revert hcount
  split_ifs <;> decide

end CompletionState
end VentusDriver
