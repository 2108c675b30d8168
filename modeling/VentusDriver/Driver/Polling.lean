import VentusDriver.Driver.Reports

/-! Polling for completion. The walk over the tasks does not advance, so it ends only at a task that
is not finished, or when there is no task at all. -/
namespace VentusDriver

def CtxInfo.contextFinished (info : CtxInfo) : Bool :=
  info.krlList.toList.all fun it => decide (it.2.state ≠ .unfinish)

namespace Driver
variable {d d' : Driver}

/-- The loop of `all_context_finished` from an iterator on, with a bound on the number of rounds. The
iterator is not advanced. -/
def allContextFinishedFrom : ℕ → List CtxInfo → Option Bool
  | 0, _ => none
  | _ + 1, [] => some true
  | fuel + 1, it :: rest =>
    if it.contextFinished then allContextFinishedFrom fuel (it :: rest) else some false

def allContextFinished (d : Driver) (fuel : ℕ) : Option Bool :=
  allContextFinishedFrom fuel (d.ctxLst.toList.map Prod.snd)

/-- The queue of finished kernels is handed over and left empty. -/
def getFinishedKernel (d : Driver) : List ℤ × Driver :=
  (d.finishedKernelLst, { d with finishedKernelLst := [] })

/-- The polling loop: its queue, all kernels that were pushed so far, and the number of waits. -/
structure Polling where
  tmp : List ℤ
  pushed : List ℤ
  driver : Driver
  cnt : ℕ

/-- Move the finished kernels to the queue. -/
def Polling.drain (s : Polling) : Polling :=
  { s with
    tmp := s.tmp ++ s.driver.finishedKernelLst
    driver := { s.driver with finishedKernelLst := [] } }

/-- One call of `wait`, with what it returned. -/
def Polling.poll (s : Polling) (ticks : Ticks) : Except Failure ℤ × Polling :=
  let r := s.driver.wait ticks
  (r.1, { s with driver := r.2, pushed := s.pushed ++ r.2.finishedKernelLst, cnt := s.cnt + 1 })

/-- The loop of `execute_all_kernel` with `n` rounds left before the cutoff. The device writes to memory
and reports a queue in each wait, and the walk over the tasks is given a bound. The result is absent
when the walk does not end. -/
def executeFrom (fuel : ℕ) (device : ℕ → Ticks) : ℕ → Polling → Option (Except Failure (List ℤ) × Polling)
  | 0, s => some (.ok s.tmp, s)
  | n + 1, s =>
    match s.driver.allContextFinished fuel with
    | none => none
    | some true => some (.ok s.tmp, s)
    | some false =>
      match s.drain.poll (device s.cnt) with
      | (.error e, s) => some (.error e, s)
      | (.ok _, s) => executeFrom fuel device n s

def executeAllKernel (d : Driver) (fuel : ℕ) (device : ℕ → Ticks) :
    Option (Except Failure (List ℤ) × Polling) :=
  executeFrom fuel device 31 ⟨[], d.finishedKernelLst, d, 0⟩

/-- Every kernel of every task is finished. -/
def KernelsFinished (d : Driver) : Prop := ∀ t k krl, d.krlInfo t k = some krl → krl.state = .finish

/-- The test ends with the right answer, and polling returns after 31 waits at most, with all the
kernels that were pushed when every kernel is finished. -/
structure PollingEnds (d : Driver) : Prop where
  test : ∃ fuel b, d.allContextFinished fuel = some b ∧ (b = true ↔ d.KernelsFinished)
  returns : ∀ device, ∃ fuel queue s, d.executeAllKernel fuel device = some (.ok queue, s) ∧
    s.cnt ≤ 31 ∧ (s.driver.KernelsFinished → queue = s.pushed)

/-! ### The walk over the tasks -/

lemma contextFinished_iff (info : CtxInfo) : info.contextFinished = true ↔
    ∀ (k : ℕ) (krl : KrlInfo), info.krlList[k]? = some krl → krl.state = .finish := by
  rw [CtxInfo.contextFinished, List.all_eq_true]
  constructor
  · intro h k krl hget
    have hne := h (k, krl) (Std.ExtTreeMap.mem_toList_iff_getElem?_eq_some.mpr hget)
    cases hstate : krl.state with
    | unfinish => simp [hstate] at hne
    | finish => rfl
  · rintro h ⟨k, krl⟩ hmem
    have hstate := h k krl (Std.ExtTreeMap.mem_toList_iff_getElem?_eq_some.mp hmem)
    simp [hstate]

/-- At a finished task the walk does not end. -/
lemma allContextFinishedFrom_finished {it : CtxInfo} (h : it.contextFinished = true) (fuel : ℕ)
    (rest : List CtxInfo) : allContextFinishedFrom fuel (it :: rest) = none := by
  induction fuel with
  | zero => rfl
  | succ fuel ih => rw [allContextFinishedFrom, if_pos h, ih]

lemma allContextFinishedFrom_unfinished {it : CtxInfo} (h : ¬ it.contextFinished = true) (fuel : ℕ)
    (rest : List CtxInfo) : allContextFinishedFrom (fuel + 1) (it :: rest) = some false := by
  rw [allContextFinishedFrom, if_neg h]

lemma allContextFinished_empty (h : d.ctxLst = ∅) (fuel : ℕ) :
    d.allContextFinished (fuel + 1) = some true := by
  rw [allContextFinished, Std.ExtTreeMap.toList_eq_nil_iff.mpr h]
  rfl

/-- Task 0 comes first. -/
lemma toList_of_zero {info : CtxInfo} (h : d.ctxLst[0]? = some info) :
    ∃ rest, d.ctxLst.toList.map Prod.snd = info :: rest := by
  have hmem := Std.ExtTreeMap.mem_toList_iff_getElem?_eq_some.mpr h
  have hsorted := Std.ExtTreeMap.ordered_keys_toList (t := d.ctxLst)
  cases hlist : d.ctxLst.toList with
  | nil =>
    rw [hlist] at hmem
    cases hmem
  | cons first rest =>
    rw [hlist] at hmem hsorted
    cases List.mem_cons.mp hmem with
    | inl heq => exact ⟨rest.map Prod.snd, by rw [List.map_cons, ← heq]⟩
    | inr hmem =>
      have hlt := (List.pairwise_cons.mp hsorted).1 _ hmem
      exact absurd (Nat.compare_eq_lt.mp hlt) (Nat.not_lt_zero _)

lemma allContextFinished_of_zero {info : CtxInfo} (h : d.ctxLst[0]? = some info) (fuel : ℕ) :
    d.allContextFinished (fuel + 1) = if info.contextFinished then none else some false := by
  obtain ⟨rest, hrest⟩ := toList_of_zero h
  rw [allContextFinished, hrest]
  split_ifs with hfinished
  · exact allContextFinishedFrom_finished hfinished (fuel + 1) rest
  · exact allContextFinishedFrom_unfinished hfinished fuel rest

/-! ### Runs of `wait` -/

/-- What every report keeps is kept by the loop of `wait`. -/
theorem finishBlocks_keeps {P : Driver → Prop}
    (hstep : ∀ d d' w, P d → d.finishBlock w = some d' → P d') (h : P d) (queue : List ℤ) :
    P (d.finishBlocks queue).2 := by
  induction queue generalizing d with
  | nil => exact h
  | cons w rest ih =>
    rw [finishBlocks]
    cases hfinish : d.finishBlock w with
    | none => exact h
    | some d' => exact ih (hstep d d' w h hfinish)

lemma allBlockFinished_iff (blkList : Std.ExtTreeMap ℤ KrlState) :
    allBlockFinished blkList = true ↔ ∀ b : ℤ, blkList[b]? ≠ some KrlState.unfinish := by
  rw [allBlockFinished, List.all_eq_true]
  constructor
  · intro h b hget
    have hfinish := h (b, .unfinish) (Std.ExtTreeMap.mem_toList_iff_getElem?_eq_some.mpr hget)
    cases of_decide_eq_true hfinish
  · rintro h ⟨b, state⟩ hmem
    have hget := Std.ExtTreeMap.mem_toList_iff_getElem?_eq_some.mp hmem
    cases state with
    | unfinish => exact absurd hget (h b)
    | finish => rfl

/-- A kernel is marked as finished once its last block is. -/
def Settled (d : Driver) (t k : ℕ) : Prop :=
  ∀ krl, d.krlInfo t k = some krl → allBlockFinished krl.blkList = true → krl.state = .finish

lemma settled_of_report {w : ℤ} (h : d.finishBlock w = some d') :
    d'.Settled (contextIdOf w) (kernelIdOf w) := by
  obtain ⟨krl, hreported⟩ := finishBlock_reported h
  intro krl' hkrl' hall
  rw [hreported.after] at hkrl'
  rw [← Option.some.inj hkrl'] at hall ⊢
  exact if_pos hall

lemma Settled.finishBlock {t k : ℕ} {w : ℤ} (hsettled : d.Settled t k) (h : d.finishBlock w = some d') :
    d'.Settled t k := by
  by_cases hkernel : t = contextIdOf w ∧ k = kernelIdOf w
  · rw [hkernel.1, hkernel.2]
    exact settled_of_report h
  · obtain ⟨krl, hreported⟩ := finishBlock_reported h
    intro krl' hkrl'
    rw [hreported.others t k hkernel] at hkrl'
    exact hsettled krl' hkrl'

/-- After a legal queue with a report for a kernel, the kernel is settled. -/
lemma finishBlocks_settled {queue : List ℤ} (hlegal : ∀ w, d.Legal w) {w : ℤ} (hw : w ∈ queue) :
    (d.finishBlocks queue).2.Settled (contextIdOf w) (kernelIdOf w) := by
  induction queue generalizing d with
  | nil => cases hw
  | cons w' rest ih =>
    obtain ⟨d', hd'⟩ := finishBlock_of_legal (hlegal w')
    rw [finishBlocks, hd']
    cases List.mem_cons.mp hw with
    | inl heq =>
      subst heq
      exact finishBlocks_keeps (P := fun d => d.Settled (contextIdOf w) (kernelIdOf w))
        (fun _ _ _ hsettled hstep => hsettled.finishBlock hstep) (settled_of_report hd') rest
    | inr hmem => exact ih (fun w => (finishBlock_legal hd' w).mpr (hlegal w)) hmem

/-- The state of a kernel. -/
def krlStateOf (d : Driver) (t k : ℕ) : Option KrlState := (d.krlInfo t k).map KrlInfo.state

/-- A finished kernel stays finished. -/
lemma finishBlock_krlStateOf {t k : ℕ} {w : ℤ} (h : d.finishBlock w = some d')
    (hstate : d.krlStateOf t k = some .finish) : d'.krlStateOf t k = some .finish := by
  obtain ⟨krl, hreported⟩ := finishBlock_reported h
  by_cases hkernel : t = contextIdOf w ∧ k = kernelIdOf w
  · obtain ⟨rfl, rfl⟩ := hkernel
    rw [krlStateOf, hreported.before, Option.map_some, Option.some_inj] at hstate
    rw [krlStateOf, hreported.after, Option.map_some, reportBlock, hstate, ite_self]
  · rw [krlStateOf, hreported.others t k hkernel]
    exact hstate

lemma finishBlock_krlInfo_none {t k : ℕ} {w : ℤ} (h : d.finishBlock w = some d')
    (hnone : d.krlInfo t k = none) : d'.krlInfo t k = none := by
  obtain ⟨krl, hreported⟩ := finishBlock_reported h
  rw [hreported.others t k, hnone]
  intro hkernel
  rw [hkernel.1, hkernel.2, hreported.before] at hnone
  cases hnone

/-! ### Kernels that no report can finish -/

/-- Each mask of a report keeps one bit, so a report names kernel 0 or 4 and block 0 or 64. Task 0 has
an unfinished kernel that waits for another block, or is another kernel. -/
def Unfinishable (d : Driver) : Prop :=
  ∃ k krl, d.krlInfo 0 k = some krl ∧ krl.state = .unfinish ∧
    ((k ≠ 0 ∧ k ≠ 4) ∨ ∃ b : ℤ, b ≠ 0 ∧ b ≠ 64 ∧ krl.blkList[b]? = some .unfinish)

lemma kernelIdOf_cases (w : ℤ) : kernelIdOf w = 0 ∨ kernelIdOf w = 4 := by
  have h := blockField_eq w (ceilLog2 (numSm * maxBlockPerSm * numSm)) (ceilLog2 maxKernel)
  rwa [show 2 ^ ceilLog2 maxKernel = 4 by decide] at h

lemma blockId_cases (w : ℤ) : blockId w = 0 ∨ blockId w = 64 := by
  have h := blockField_eq w (ceilLog2 numSm) (ceilLog2 (numSm * maxBlockPerSm))
  rwa [show 2 ^ ceilLog2 (numSm * maxBlockPerSm) = 64 by decide] at h

lemma Unfinishable.finishBlock {w : ℤ} (h : d.Unfinishable) (hfinish : d.finishBlock w = some d') :
    d'.Unfinishable := by
  obtain ⟨k, krl, hkrl, hstate, hstuck⟩ := h
  obtain ⟨krl₁, hreported⟩ := finishBlock_reported hfinish
  by_cases hkernel : 0 = contextIdOf w ∧ k = kernelIdOf w
  · -- the block that the kernel waits for is not the reported one
    cases hstuck with
    | inl hother =>
      cases kernelIdOf_cases w with
      | inl hzero => exact absurd (hkernel.2.trans hzero) hother.1
      | inr hfour => exact absurd (hkernel.2.trans hfour) hother.2
    | inr hblock =>
      obtain ⟨b, hb0, hb64, hget⟩ := hblock
      have hbefore := hreported.before
      rw [← hkernel.1, ← hkernel.2, hkrl] at hbefore
      obtain rfl : krl = krl₁ := Option.some.inj hbefore
      have hne : (blockId w : ℤ) ≠ b := by
        cases blockId_cases w with
        | inl hzero => rw [hzero]; exact fun heq => hb0 heq.symm
        | inr hlast => rw [hlast]; exact fun heq => hb64 heq.symm
      have hget' : (krl.blkList.insert (blockId w : ℤ) .finish)[b]? = some .unfinish := by
        rw [Std.ExtTreeMap.getElem?_insert, if_neg (by rwa [Std.LawfulEqCmp.compare_eq_iff_eq]), hget]
      have hall : ¬ allBlockFinished (krl.blkList.insert (blockId w : ℤ) .finish) = true := by
        rw [allBlockFinished_iff]
        exact fun hall => hall b hget'
      have hafter := hreported.after
      rw [← hkernel.1, ← hkernel.2] at hafter
      exact ⟨k, _, hafter, (if_neg hall).trans hstate, .inr ⟨b, hb0, hb64, hget'⟩⟩
  · exact ⟨k, krl, (hreported.others 0 k hkernel).trans hkrl, hstate, hstuck⟩

/-- The reports that task 0 can get. -/
def allReports : List ℤ := [0, 128, 512, 640]

lemma allReports_decode : allReports.map decode = [(0, 0, 0), (0, 0, 64), (0, 4, 0), (0, 4, 64)] := by
  decide +kernel

/-- When no kernel is out of reach, one queue of reports finishes all kernels of task 0. -/
lemma finishBlocks_allReports (hlegal : ∀ w, d.Legal w) (hreach : ¬ d.Unfinishable) {k : ℕ} {krl : KrlInfo}
    (hkrl : (d.finishBlocks allReports).2.krlInfo 0 k = some krl) : krl.state = .finish := by
  have hbefore : ∃ krl₀, d.krlInfo 0 k = some krl₀ := by
    rw [← Option.isSome_iff_exists, ← Option.ne_none_iff_isSome]
    intro hnone
    have hkeep := finishBlocks_keeps (P := fun d => d.krlInfo 0 k = none)
      (fun _ _ _ hnone hstep => finishBlock_krlInfo_none hstep hnone) hnone allReports
    rw [hkeep] at hkrl
    cases hkrl
  obtain ⟨krl₀, hkrl₀⟩ := hbefore
  cases hstate : krl₀.state with
  | finish =>
    have hkeep := finishBlocks_keeps (P := fun d => d.krlStateOf 0 k = some .finish)
      (fun _ _ _ hfinish hstep => finishBlock_krlStateOf hstep hfinish)
      (by rw [krlStateOf, hkrl₀, Option.map_some, hstate]) allReports
    rw [krlStateOf, hkrl, Option.map_some, Option.some_inj] at hkeep
    exact hkeep
  | unfinish =>
    have hk : k = 0 ∨ k = 4 := by
      by_contra hk
      exact hreach ⟨k, krl₀, hkrl₀, hstate, .inl (not_or.mp hk)⟩
    have hsettled : (d.finishBlocks allReports).2.Settled 0 k := by
      cases hk with
      | inl hzero =>
        subst hzero
        exact finishBlocks_settled (w := 0) hlegal (by decide)
      | inr hfour =>
        subst hfour
        exact finishBlocks_settled (w := 512) hlegal (by decide)
    apply hsettled krl hkrl
    rw [allBlockFinished_iff]
    intro b hget
    have hmarked := finishBlocks_blkState d allReports (0, k, b)
    have hall : d.handledPart allReports = allReports := by
      simp [handledPart, hlegal]
    rw [hall, allReports_decode] at hmarked
    simp only [blkState, hkrl, hkrl₀, Option.bind_some, hget] at hmarked
    by_cases hmem : (0, k, b) ∈ [(0, 0, (0 : ℤ)), (0, 0, 64), (0, 4, 0), (0, 4, 64)]
    · rw [if_pos hmem] at hmarked
      cases hmarked
    · -- an entry that is still unfinished is that of a block out of reach
      rw [if_neg hmem] at hmarked
      refine hreach ⟨k, krl₀, hkrl₀, hstate, .inr ⟨b, fun hb => hmem ?_, fun hb => hmem ?_, hmarked.symm⟩⟩
      · cases hk with
        | inl hzero => simp [hzero, hb]
        | inr hfour => simp [hfour, hb]
      · cases hk with
        | inl hzero => simp [hzero, hb]
        | inr hfour => simp [hfour, hb]

/-! ### Polling -/

lemma finishBlocks_legal (hlegal : ∀ w, d.Legal w) (queue : List ℤ) :
    (d.finishBlocks queue).1 = .ok 0 ∧ ∀ w, (d.finishBlocks queue).2.Legal w := by
  constructor
  · rw [finishBlocks_result, if_pos fun w _ => hlegal w]
  · exact finishBlocks_keeps (P := fun d => ∀ w, d.Legal w)
      (fun _ _ _ hlegal hstep w => (finishBlock_legal hstep w).mpr (hlegal w)) hlegal queue

/-- Every entry that the device can report is legal, and none of them finishes task 0. -/
def Unending (d : Driver) : Prop := (∀ w, d.Legal w) ∧ d.Unfinishable

lemma Unending.wait (h : d.Unending) (ticks : Ticks) : (d.wait ticks).2.Unending := by
  have hticked : (d.tick ticks.stores).Unending := h
  exact ⟨(finishBlocks_legal hticked.1 ticks.finished).2,
    finishBlocks_keeps (fun _ _ _ hstuck hstep => hstuck.finishBlock hstep) hticked.2 ticks.finished⟩

lemma Unending.not_finished (h : d.Unending) : ¬ d.KernelsFinished := by
  obtain ⟨-, k, krl, hkrl, hstate, -⟩ := h
  intro hfinished
  rw [hfinished 0 k krl hkrl] at hstate
  cases hstate

/-- When 0 is legal there is a task 0, and it holds the kernels that are looked up under 0. -/
lemma task_zero (h : d.Legal 0) : ∃ info, d.ctxLst[0]? = some info ∧
    ∀ k : ℕ, d.krlInfo 0 k = info.krlList[k]? := by
  have hctx : contextIdOf 0 = 0 := by decide
  have hsome := (finishBlock_isSome_iff d 0).mp ((finishBlock_isSome d 0).mpr h)
  obtain ⟨krl, hkrl, -⟩ := hsome
  rw [hctx] at hkrl
  obtain ⟨info, hinfo, -⟩ := Option.bind_eq_some_iff.mp hkrl
  exact ⟨info, hinfo, fun k => by rw [krlInfo, hinfo, Option.bind_some]⟩

lemma Unending.test (h : d.Unending) (fuel : ℕ) : d.allContextFinished (fuel + 1) = some false := by
  obtain ⟨info, hinfo, hkernels⟩ := task_zero (h.1 0)
  obtain ⟨-, k, krl, hkrl, hstate, -⟩ := h
  rw [allContextFinished_of_zero hinfo, if_neg]
  rw [contextFinished_iff]
  intro hfinished
  rw [hkernels] at hkrl
  rw [hfinished k krl hkrl] at hstate
  cases hstate

/-- Polling goes on to the cutoff. -/
lemma executeFrom_unending {s : Polling} (h : s.driver.Unending) (device : ℕ → Ticks) (n : ℕ) :
    ∃ s', executeFrom 1 device n s = some (.ok s'.tmp, s') ∧ s'.cnt = s.cnt + n ∧ s'.driver.Unending := by
  induction n generalizing s with
  | zero => exact ⟨s, rfl, rfl, h⟩
  | succ n ih =>
    have hdrain : s.drain.driver.Unending := h
    obtain ⟨s', hs', hcnt, hrest⟩ :=
      ih (s := (s.drain.poll (device s.cnt)).2) (hdrain.wait (device s.cnt))
    refine ⟨s', ?_, ?_, hrest⟩
    · have hok : (s.drain.poll (device s.cnt)).1 = .ok 0 :=
        (@finishBlocks_legal (s.drain.driver.tick (device s.cnt).stores) hdrain.1 (device s.cnt).finished).1
      rw [executeFrom, h.test 0]
      generalize s.drain.poll (device s.cnt) = r at hok hs' ⊢
      obtain ⟨result, s₁⟩ := r
      subst hok
      exact hs'
    · rw [hcnt]
      simp only [Polling.poll, Polling.drain]
      omega

/-- A walk that ends at all ends at the first task or finds none. -/
lemma test_cases {fuel : ℕ} {b : Bool} (h : d.allContextFinished fuel = some b) :
    (d.ctxLst = ∅ ∧ b = true) ∨ (d.ctxLst ≠ ∅ ∧ b = false) := by
  rw [allContextFinished] at h
  rw [ne_eq, ← Std.ExtTreeMap.toList_eq_nil_iff]
  cases hlist : d.ctxLst.toList with
  | nil =>
    rw [hlist] at h
    cases fuel with
    | zero => cases h
    | succ fuel => exact .inl ⟨rfl, (Option.some.inj h).symm⟩
  | cons first rest =>
    rw [hlist, List.map_cons] at h
    refine .inr ⟨List.cons_ne_nil _ _, ?_⟩
    cases fuel with
    | zero => cases h
    | succ fuel =>
      by_cases hfinished : first.2.contextFinished = true
      · rw [allContextFinishedFrom_finished hfinished] at h
        cases h
      · rw [allContextFinishedFrom_unfinished hfinished] at h
        exact (Option.some.inj h).symm

/-- With a task, a call of `execute_all_kernel` that returns has waited once without an error, and
then went on. -/
lemma executeAllKernel_first {fuel : ℕ} {device : ℕ → Ticks} {queue : List ℤ} {s : Polling}
    (htask : d.ctxLst ≠ ∅) (h : d.executeAllKernel fuel device = some (.ok queue, s)) :
    ∃ s₁, s₁.driver = (({ d with finishedKernelLst := [] } : Driver).wait (device 0)).2 ∧
      (∃ r, (({ d with finishedKernelLst := [] } : Driver).wait (device 0)).1 = .ok r) ∧
      executeFrom fuel device 30 s₁ = some (.ok queue, s) := by
  rw [executeAllKernel, executeFrom] at h
  cases htest : d.allContextFinished fuel with
  | none => simp [htest] at h
  | some b =>
    cases test_cases htest with
    | inl hempty => exact absurd hempty.1 htask
    | inr hfalse =>
      rw [hfalse.2] at htest
      simp only [htest, Polling.drain, Polling.poll] at h
      cases hwait : (({ d with finishedKernelLst := [] } : Driver).wait (device 0)).1 with
      | error e => simp [hwait] at h
      | ok r =>
        simp only [hwait] at h
        exact ⟨_, rfl, ⟨r, rfl⟩, h⟩

/-- Without a task a call returns at once, with an empty queue. -/
lemma pollingEnds_of_no_task (htask : d.ctxLst = ∅) : d.PollingEnds ↔ d.finishedKernelLst = [] := by
  have hfinished : d.KernelsFinished := by
    intro t k krl hkrl
    rw [krlInfo, htask] at hkrl
    simp at hkrl
  constructor
  · intro h
    obtain ⟨fuel, queue, s, hrun, -, hqueue⟩ := h.returns fun _ => ⟨[], []⟩
    cases fuel with
    | zero => simp [executeAllKernel, executeFrom, allContextFinished, allContextFinishedFrom] at hrun
    | succ fuel =>
      rw [executeAllKernel, executeFrom, allContextFinished_empty htask] at hrun
      obtain ⟨htmp, hs⟩ := Prod.mk.inj (Option.some.inj hrun)
      have hall := hqueue (hs ▸ hfinished)
      rw [← hs, ← Except.ok.inj htmp] at hall
      exact hall.symm
  · intro hnone
    refine ⟨⟨1, true, allContextFinished_empty htask 0, iff_of_true rfl hfinished⟩, fun device => ?_⟩
    refine ⟨1, [], ⟨[], d.finishedKernelLst, d, 0⟩, ?_, Nat.zero_le 31, fun _ => hnone.symm⟩
    rw [executeAllKernel, executeFrom, allContextFinished_empty htask]

/-- With a task a call waits, and an entry that cannot be placed makes it throw. -/
lemma PollingEnds.legal (h : d.PollingEnds) (htask : d.ctxLst ≠ ∅) : ∀ w, d.Legal w := by
  intro w
  by_contra hillegal
  obtain ⟨fuel, queue, s, hrun, -, -⟩ := h.returns fun _ => ⟨[], [w]⟩
  obtain ⟨s₁, -, ⟨r, hok⟩, -⟩ := executeAllKernel_first htask hrun
  rw [wait_eq, finishBlocks_result, if_neg fun hall => hillegal (hall w List.mem_cons_self)] at hok
  cases hok

/-- Polling is as it should be exactly when there is nothing to poll for and nothing to return, or
when no report can be illegal and none can finish task 0. -/
theorem pollingEnds_iff (d : Driver) : d.PollingEnds ↔
    (d.ctxLst = ∅ ∧ d.finishedKernelLst = []) ∨ ((∀ w, d.Legal w) ∧ d.Unfinishable) := by
  constructor
  · intro h
    by_cases htask : d.ctxLst = ∅
    · exact .inl ⟨htask, (pollingEnds_of_no_task htask).mp h⟩
    · right
      have hlegal := h.legal htask
      refine ⟨hlegal, ?_⟩
      by_contra hreach
      obtain ⟨fuel, queue, s, hrun, -, -⟩ := h.returns fun _ => ⟨[], allReports⟩
      obtain ⟨s₁, hs₁, -, hrest⟩ := executeAllKernel_first htask hrun
      -- the second test meets a finished task 0
      have hfinished : ∀ k krl, s₁.driver.krlInfo 0 k = some krl → krl.state = .finish := by
        intro k krl hkrl
        rw [hs₁] at hkrl
        exact @finishBlocks_allReports (({ d with finishedKernelLst := [] } : Driver).tick []) hlegal hreach
          k krl hkrl
      have hzero : s₁.driver.Legal 0 := by
        rw [hs₁]
        exact (@finishBlocks_legal (({ d with finishedKernelLst := [] } : Driver).tick []) hlegal
          allReports).2 0
      obtain ⟨info, hinfo, hkernels⟩ := task_zero hzero
      have htest : s₁.driver.allContextFinished fuel = none := by
        cases fuel with
        | zero => rfl
        | succ fuel =>
          rw [allContextFinished_of_zero hinfo, if_pos]
          rw [contextFinished_iff]
          intro k krl hget
          exact hfinished k krl ((hkernels k).trans hget)
      rw [executeFrom, htest] at hrest
      cases hrest
  · intro h
    cases h with
    | inl hempty => exact (pollingEnds_of_no_task hempty.1).mpr hempty.2
    | inr hunending =>
      have hunending' : d.Unending := hunending
      refine ⟨⟨1, false, hunending'.test 0, iff_of_false (by decide) hunending'.not_finished⟩, fun device => ?_⟩
      obtain ⟨s, hs, hcnt, hrest⟩ := executeFrom_unending
        (s := ⟨[], d.finishedKernelLst, d, 0⟩) hunending' device 31
      exact ⟨1, s.tmp, s, hs, by rw [hcnt], fun hfinished => absurd hfinished hrest.not_finished⟩

/-- With one task and no kernel the walk does not end. -/
theorem idle_task_never_ends : ¬ ∀ d : Driver, d.PollingEnds := by
  intro h
  obtain ⟨fuel, b, htest, -⟩ := (h withTask).test
  have hlist : withTask.ctxLst.toList.map (fun it => it.2.contextFinished) = [true] := by decide +kernel
  obtain ⟨it, rest, heq, hfinished, -⟩ := List.map_eq_cons_iff.mp hlist
  rw [allContextFinished, heq, List.map_cons, allContextFinishedFrom_finished hfinished] at htest
  cases htest

end Driver
end VentusDriver
