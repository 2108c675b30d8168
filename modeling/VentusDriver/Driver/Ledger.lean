import VentusDriver.Driver.HostCalls

/-! What the host is told about its kernels. Every report of the device that `wait` can place pushes
the kernel of the block, since only one block of a kernel is recorded. What was pushed reaches the
host once and in order, by `get_finished_kernel` or by `execute_all_kernel`, unless the latter throws
with kernels that it had taken already. -/
namespace VentusDriver
open Foundation

namespace Driver
variable {d d' : Driver} {placed : List ℤ}

/-- The kernel of a report, as it is pushed. -/
def finishedOf (w : ℤ) : ℤ := finishedId (contextIdOf w) (kernelIdOf w)

/-- A recorded kernel has one block, and it is finished exactly when a report named it. -/
structure Told (d : Driver) (placed : List ℤ) : Prop where
  single : ∀ t k krl, d.krlInfo t k = some krl → ∃ b, ∀ b', b' ∈ krl.blkList ↔ b' = b
  state : ∀ t k krl, d.krlInfo t k = some krl →
    (krl.state = .finish ↔ ∃ w ∈ placed, contextIdOf w = t ∧ kernelIdOf w = k)
  legal : ∀ w ∈ placed, d.Legal w

lemma legal_of_krlInfo (hsame : ∀ t k, d'.krlInfo t k = d.krlInfo t k) (w : ℤ) :
    d'.Legal w ↔ d.Legal w := by
  rw [Legal, Legal, blkState, blkState, hsame]

/-- A legal report names a recorded kernel. -/
lemma krlInfo_of_legal {w : ℤ} (h : d.Legal w) :
    ∃ krl, d.krlInfo (contextIdOf w) (kernelIdOf w) = some krl := by
  obtain ⟨state, hstate⟩ := Option.isSome_iff_exists.mp h
  obtain ⟨krl, hkrl, -⟩ := Option.bind_eq_some_iff.mp hstate
  exact ⟨krl, hkrl⟩

lemma Told.of_krlInfo (h : d.Told placed) (hsame : ∀ t k, d'.krlInfo t k = d.krlInfo t k) :
    d'.Told placed where
  single t k krl hkrl := h.single t k krl ((hsame t k).symm.trans hkrl)
  state t k krl hkrl := h.state t k krl ((hsame t k).symm.trans hkrl)
  legal w hw := (legal_of_krlInfo hsame w).mpr (h.legal w hw)

/-- Two reports of one kernel name different blocks, and one of them is recorded at most. -/
lemma Told.not_legal (h : d.Told placed) : ∃ w, ¬ d.Legal w := by
  by_contra hall
  push Not at hall
  have hrecorded : ∀ w, ∃ krl, d.krlInfo (contextIdOf w) (kernelIdOf w) = some krl ∧
      (blockId w : ℤ) ∈ krl.blkList := by
    intro w
    obtain ⟨krl, hkrl, hblock⟩ := (finishBlock_isSome_iff d w).mp ((finishBlock_isSome d w).mpr (hall w))
    exact ⟨krl, hkrl, hblock⟩
  -- the entries 0 and 128 name blocks 0 and 64 of kernel 0
  obtain ⟨krl, hkrl, hzero⟩ := hrecorded 0
  obtain ⟨krl', hkrl', hother⟩ := hrecorded 128
  obtain rfl : krl = krl' := Option.some.inj (hkrl.symm.trans hkrl')
  obtain ⟨b, hkeys⟩ := h.single _ _ _ hkrl
  have hsame := ((hkeys _).mp hzero).trans ((hkeys _).mp hother).symm
  exact absurd hsame (by decide)

/-! ### Reports -/

/-- The report of the only block leaves no other one. -/
lemma allBlockFinished_single {blkList : Std.ExtTreeMap ℤ KrlState} {b : ℤ}
    (hsingle : ∃ b, ∀ b', b' ∈ blkList ↔ b' = b) (hb : b ∈ blkList) :
    allBlockFinished (blkList.insert b .finish) = true := by
  obtain ⟨b₀, hkeys⟩ := hsingle
  obtain rfl : b = b₀ := (hkeys b).mp hb
  rw [allBlockFinished_iff]
  intro b' hget
  rw [Std.ExtTreeMap.getElem?_insert] at hget
  split_ifs at hget with hcmp
  · cases Option.some.inj hget
  · have hmem : b' ∈ blkList := by rw [Std.ExtTreeMap.mem_iff_isSome_getElem?, hget]; rfl
    exact hcmp (Std.LawfulEqCmp.compare_eq_iff_eq.mpr ((hkeys b').mp hmem).symm)

/-- A report that is placed finishes its kernel and pushes it. -/
theorem Told.finishBlock {w : ℤ} (h : d.Told placed) (hfinish : d.finishBlock w = some d') :
    d'.Told (placed ++ [w]) ∧ d'.finishedKernelLst = d.finishedKernelLst ++ [finishedOf w] := by
  obtain ⟨krl, hreported⟩ := finishBlock_reported hfinish
  have hsingle := h.single _ _ krl hreported.before
  have hall := allBlockFinished_single hsingle hreported.recorded
  refine ⟨⟨?_, ?_, ?_⟩, by rw [hreported.pushed, if_pos hall, finishedOf]⟩
  · intro t k krl' hkrl'
    by_cases hkernel : t = contextIdOf w ∧ k = kernelIdOf w
    · obtain ⟨rfl, rfl⟩ := hkernel
      rw [hreported.after] at hkrl'
      obtain rfl := Option.some.inj hkrl'
      obtain ⟨b, hkeys⟩ := hsingle
      obtain rfl := (hkeys _).mp hreported.recorded
      refine ⟨(blockId w : ℤ), fun b' => ?_⟩
      rw [reportBlock, Std.ExtTreeMap.mem_insert, hkeys, Std.LawfulEqCmp.compare_eq_iff_eq]
      exact ⟨fun hb => hb.elim Eq.symm id, .inr⟩
    · exact h.single t k krl' ((hreported.others t k hkernel).symm.trans hkrl')
  · intro t k krl' hkrl'
    by_cases hkernel : t = contextIdOf w ∧ k = kernelIdOf w
    · obtain ⟨rfl, rfl⟩ := hkernel
      rw [hreported.after] at hkrl'
      obtain rfl := Option.some.inj hkrl'
      rw [reportBlock, if_pos hall]
      exact iff_of_true rfl ⟨w, by simp, rfl, rfl⟩
    · rw [h.state t k krl' ((hreported.others t k hkernel).symm.trans hkrl')]
      constructor
      · rintro ⟨w', hw', hnamed⟩
        exact ⟨w', List.mem_append_left _ hw', hnamed⟩
      · rintro ⟨w', hw', hnamed⟩
        rw [List.mem_append, List.mem_singleton] at hw'
        cases hw' with
        | inl hold => exact ⟨w', hold, hnamed⟩
        | inr heq =>
          subst heq
          exact absurd ⟨hnamed.1.symm, hnamed.2.symm⟩ hkernel
  · intro w' hw'
    rw [finishBlock_legal hfinish]
    rw [List.mem_append, List.mem_singleton] at hw'
    cases hw' with
    | inl hold => exact h.legal w' hold
    | inr heq =>
      subst heq
      exact (finishBlock_isSome d w').mp (by rw [hfinish]; rfl)

/-- The loop of `wait` pushes the kernels of the reports that it can place, in order. -/
theorem Told.finishBlocks (h : d.Told placed) (queue : List ℤ) :
    (d.finishBlocks queue).2.Told (placed ++ d.handledPart queue) ∧
      (d.finishBlocks queue).2.finishedKernelLst =
        d.finishedKernelLst ++ (d.handledPart queue).map finishedOf := by
  induction queue generalizing d placed with
  | nil => simpa [Driver.finishBlocks, handledPart] using h
  | cons w rest ih =>
    rw [Driver.finishBlocks]
    by_cases hlegal : d.Legal w
    · obtain ⟨d', hd'⟩ := finishBlock_of_legal hlegal
      obtain ⟨htold, hpushed⟩ := h.finishBlock hd'
      obtain ⟨hrest, hqueue⟩ := ih htold
      have hsame : d'.handledPart rest = d.handledPart rest := by
        simp only [handledPart, finishBlock_legal hd']
      have hcons : d.handledPart (w :: rest) = w :: d.handledPart rest := by
        rw [handledPart, List.takeWhile_cons_of_pos (by simpa using hlegal), handledPart]
      rw [hsame] at hrest hqueue
      simp only [hd', hcons]
      rw [hqueue, hpushed]
      exact ⟨by simpa using hrest, by simp⟩
    · rw [finishBlock_none hlegal, handledPart, List.takeWhile_cons_of_neg (by simpa using hlegal)]
      simpa using h

theorem Told.wait (h : d.Told placed) (ticks : Ticks) :
    (d.wait ticks).2.Told (placed ++ d.handledPart ticks.finished) ∧
      (d.wait ticks).2.finishedKernelLst =
        d.finishedKernelLst ++ (d.handledPart ticks.finished).map finishedOf := by
  have hticked : (d.tick ticks.stores).Told placed := h.of_krlInfo fun _ _ => rfl
  exact hticked.finishBlocks ticks.finished

lemma wait_legal_iff (d : Driver) (ticks : Ticks) (w : ℤ) : (d.wait ticks).2.Legal w ↔ d.Legal w :=
  @finishBlocks_keeps (d.tick ticks.stores) (fun d' => d'.Legal w ↔ d.Legal w)
    (fun _ _ _ hsame hstep => (finishBlock_legal hstep w).trans hsame) Iff.rfl ticks.finished

/-! ### Other calls -/

/-- A new record has one block and is not finished, and no report has named it. -/
lemma Told.fireBlock (h : d.Told placed) {t : ℕ} {info : CtxInfo} (hinfo : d.ctxLst[t]? = some info)
    (k : ℕ) (port : HostPort) (stores : List DeviceStore) : (d.fireBlock t info k port stores).Told placed := by
  have hkrl := @fireBlock_krlInfo d t k info hinfo port stores
  cases hold : d.krlInfo t k with
  | some krl =>
    refine h.of_krlInfo fun t' k' => ?_
    rw [hkrl, hold, Option.getD_some]
    split_ifs with hkernel
    · rw [hkernel.1, hkernel.2, hold]
    · rfl
  | none =>
    rw [hold, Option.getD_none] at hkrl
    have hunnamed : ∀ w ∈ placed, ¬ (contextIdOf w = t ∧ kernelIdOf w = k) := by
      rintro w hw ⟨rfl, rfl⟩
      obtain ⟨krl, hsome⟩ := krlInfo_of_legal (h.legal w hw)
      simp [hold] at hsome
    refine ⟨?_, ?_, ?_⟩
    · intro t' k' krl hget
      rw [hkrl] at hget
      split_ifs at hget with hkernel
      · obtain rfl := Option.some.inj hget
        refine ⟨i32 port.wgId, fun b' => ?_⟩
        rw [firstRecord, Std.ExtTreeMap.mem_insertIfNew, Std.LawfulEqCmp.compare_eq_iff_eq]
        exact ⟨fun hb => (hb.resolve_right (by simp)).symm, fun hb => .inl hb.symm⟩
      · exact h.single t' k' krl hget
    · intro t' k' krl hget
      rw [hkrl] at hget
      split_ifs at hget with hkernel
      · obtain rfl := Option.some.inj hget
        obtain ⟨rfl, rfl⟩ := hkernel
        refine iff_of_false (by simp [firstRecord]) ?_
        rintro ⟨w, hw, hnamed⟩
        exact hunnamed w hw hnamed
      · exact h.state t' k' krl hget
    · intro w hw
      have hother : ¬ ((decode w).1 = t ∧ (decode w).2.1 = k) := hunnamed w hw
      have hsame : (d.fireBlock t info k port stores).blkState (decode w) = d.blkState (decode w) := by
        rw [blkState, hkrl, if_neg hother, blkState]
      rw [Legal, hsame]
      exact h.legal w hw

lemma Told.fireBlocks {inputData : KrlMeta} {device : ℕ → List DeviceStore} {t pdsParam n i : ℕ}
    {port : HostPort} (h : d.Told placed) :
    (fireBlocks inputData device t pdsParam n i port d).2.Told placed ∧
      (fireBlocks inputData device t pdsParam n i port d).2.finishedKernelLst = d.finishedKernelLst := by
  induction n generalizing i port d with
  | zero => exact ⟨h, rfl⟩
  | succ n ih =>
    rw [Driver.fireBlocks]
    cases packWgId inputData.kernelId t i with
    | error e => exact ⟨h, rfl⟩
    | ok w =>
      cases hinfo : d.ctxLst[t]? with
      | none => exact ⟨h, rfl⟩
      | some info => exact ih (h.fireBlock hinfo inputData.kernelId _ (device i))

lemma Told.start (h : d.Told placed) (taskID : ℤ) (inputData : KrlMeta) (device : ℕ → List DeviceStore) :
    (d.start taskID inputData device).2.Told placed ∧
      (d.start taskID inputData device).2.finishedKernelLst = d.finishedKernelLst := by
  unfold Driver.start
  dsimp only
  split_ifs with hcreated
  · exact h.fireBlocks
  · exact ⟨h, rfl⟩

lemma allocLocalMem_ctxLst (d : Driver) (size : ℕ) (bufType : BufferType) (t k : ℕ) :
    (d.allocLocalMem size bufType t k).2.ctxLst = d.ctxLst := by
  unfold allocLocalMem
  cases d.ctxLst[t]? with
  | none => rfl
  | some info =>
    simp only
    split_ifs with hsize
    · rfl
    cases d.addrMng.allocMemory t k size bufType with
    | error e => rfl
    | ok r =>
      simp only
      cases d.processor.ram.allocate info.root r.1 size with
      | error fault => rfl
      | ok q =>
        simp only
        by_cases hp : q.1 = 0
        · rw [if_pos hp]
          rfl
        · rw [if_neg hp]
          split <;> rfl

lemma freeLocalMem_ctxLst (d : Driver) (size v t k : ℕ) :
    (d.freeLocalMem size v t k).2.ctxLst = d.ctxLst := by
  unfold freeLocalMem
  split_ifs with hrefused
  · rfl
  cases d.addrMng.releaseMemory t k v size with
  | error e => rfl
  | ok r =>
    simp only
    cases d.ctxLst[t]? with
    | none => rfl
    | some info => rfl

/-- Calls for tasks and buffers leave the kernels alone. -/
lemma call_krlInfo (d : Driver) (op : DriverOp) : (d.call op).2.finishedKernelLst = d.finishedKernelLst ∧
    ∀ t k, (d.call op).2.krlInfo t k = d.krlInfo t k := by
  refine ⟨(call_kept d op).finished, fun t k => ?_⟩
  cases op with
  | createDeviceMem c => exact (createDeviceMem_krlInfo d c).2.2 t k
  | deleteDeviceMem c =>
    by_cases hmem : t ∈ d.ctxLst
    · rw [krlInfo, (call_kept d _).tasks t hmem, krlInfo]
    · have hmem' : t ∉ (d.call (.deleteDeviceMem c)).2.ctxLst := fun h =>
        hmem (((deleteDeviceMem_mem d c).2 t).mp h)
      rw [krlInfo, krlInfo, show d.ctxLst[t]? = none by simpa using hmem,
        show (d.call (.deleteDeviceMem c)).2.ctxLst[t]? = none by simpa using hmem']
  | allocLocalMem size bufType c k' =>
    rw [krlInfo, krlInfo, show (d.call (.allocLocalMem size bufType c k')).2.ctxLst = d.ctxLst from
      allocLocalMem_ctxLst d size bufType c k']
  | freeLocalMem size v c k' =>
    rw [krlInfo, krlInfo, show (d.call (.freeLocalMem size v c k')).2.ctxLst = d.ctxLst from
      freeLocalMem_ctxLst d size v c k']

/-- Neither does an upload touch them. -/
lemma upload_krlInfo (d : Driver) (v : ℕ) (src : Option (ℕ → UInt8)) (size c k : ℕ) :
    (d.upload v src size c k).2.finishedKernelLst = d.finishedKernelLst ∧
      ∀ t k', (d.upload v src size c k).2.krlInfo t k' = d.krlInfo t k' := by
  refine ⟨?_, fun t k' => ?_⟩
  · unfold Driver.upload
    split
    · split_ifs <;> rfl
    · rfl
  · rw [krlInfo, (d.upload_keeps v src size c k).2, krlInfo]

/-! ### Polling -/

/-- The reports that the first `n` waits of a call of `execute_all_kernel` place. -/
def placedBy (d : Driver) (device : ℕ → Ticks) (n : ℕ) : List ℤ :=
  (List.range n).flatMap fun i => d.handledPart (device i).finished

/-- The state of the polling loop, in terms of the driver before the call. -/
structure Polled (d : Driver) (placed : List ℤ) (device : ℕ → Ticks) (s : Polling) : Prop where
  told : s.driver.Told (placed ++ d.placedBy device s.cnt)
  legal : ∀ w, s.driver.Legal w ↔ d.Legal w
  books : s.tmp ++ s.driver.finishedKernelLst =
    d.finishedKernelLst ++ (d.placedBy device s.cnt).map finishedOf

variable {device : ℕ → Ticks} {s : Polling}

lemma Polled.poll (h : Polled d placed device s) :
    Polled d placed device (s.drain.poll (device s.cnt)).2 := by
  have htold : s.drain.driver.Told (placed ++ d.placedBy device s.cnt) :=
    h.told.of_krlInfo fun _ _ => rfl
  obtain ⟨hnext, hpushed⟩ := htold.wait (device s.cnt)
  have hlegal : ∀ w, s.drain.driver.Legal w ↔ d.Legal w := fun w =>
    (legal_of_krlInfo (fun _ _ => rfl) w).trans (h.legal w)
  have hsame : s.drain.driver.handledPart (device s.cnt).finished =
      d.handledPart (device s.cnt).finished := by
    simp only [handledPart, hlegal]
  have hplaced : d.placedBy device (s.cnt + 1) =
      d.placedBy device s.cnt ++ d.handledPart (device s.cnt).finished := by
    simp [placedBy, List.range_succ]
  rw [hsame] at hnext hpushed
  refine ⟨?_, fun w => (wait_legal_iff _ _ w).trans (hlegal w), ?_⟩
  · change ((s.drain.driver.wait (device s.cnt)).2).Told (placed ++ d.placedBy device (s.cnt + 1))
    rwa [hplaced, ← List.append_assoc]
  · change s.drain.tmp ++ (s.drain.driver.wait (device s.cnt)).2.finishedKernelLst =
      d.finishedKernelLst ++ (d.placedBy device (s.cnt + 1)).map finishedOf
    rw [hpushed, hplaced, List.map_append, ← List.append_assoc d.finishedKernelLst, ← h.books]
    simp [Polling.drain]

lemma Polled.executeFrom (h : Polled d placed device s) {fuel n : ℕ} {r : Except Failure (List ℤ)}
    {p : Polling} (hrun : executeFrom fuel device n s = some (r, p)) :
    Polled d placed device p ∧ ∀ queue, r = .ok queue → queue = p.tmp := by
  induction n generalizing s with
  | zero =>
    obtain ⟨rfl, rfl⟩ := Prod.mk.inj (Option.some.inj hrun)
    exact ⟨h, fun queue hqueue => (Except.ok.inj hqueue).symm⟩
  | succ n ih =>
    rw [Driver.executeFrom] at hrun
    cases htest : s.driver.allContextFinished fuel with
    | none => simp [htest] at hrun
    | some b =>
      cases b with
      | true =>
        simp only [htest] at hrun
        obtain ⟨rfl, rfl⟩ := Prod.mk.inj (Option.some.inj hrun)
        exact ⟨h, fun queue hqueue => (Except.ok.inj hqueue).symm⟩
      | false =>
        have hpoll := h.poll
        simp only [htest] at hrun
        generalize s.drain.poll (device s.cnt) = q at hpoll hrun
        obtain ⟨result, s₁⟩ := q
        cases result with
        | error e =>
          obtain ⟨rfl, rfl⟩ := Prod.mk.inj (Option.some.inj hrun)
          exact ⟨hpoll, fun queue hqueue => by cases hqueue⟩
        | ok r' => exact ih hpoll hrun

/-- A call of `execute_all_kernel` returns what was queued and pushed, up to what it leaves queued. -/
theorem Told.executeAllKernel (h : d.Told placed) {fuel : ℕ} {r : Except Failure (List ℤ)} {p : Polling}
    (hrun : d.executeAllKernel fuel device = some (r, p)) :
    Polled d placed device p ∧ ∀ queue, r = .ok queue → queue = p.tmp := by
  refine Polled.executeFrom ⟨?_, fun _ => Iff.rfl, ?_⟩ hrun
  · simpa [placedBy] using h
  · simp [placedBy]

/-! ### Kernels -/

lemma contextIdOf_cases (w : ℤ) : contextIdOf w = 0 ∨ contextIdOf w = 4 := by
  have h := blockField_eq w (ceilLog2 (numSm * maxBlockPerSm * numSm * maxKernel)) (ceilLog2 maxContext)
  rwa [show 2 ^ ceilLog2 maxContext = 4 by decide] at h

/-- What is pushed for a report tells its kernel from the others. -/
lemma finishedOf_inj {w w' : ℤ} (h : finishedOf w = finishedOf w') :
    contextIdOf w = contextIdOf w' ∧ kernelIdOf w = kernelIdOf w' := by
  have hall : ∀ t ∈ [0, 4], ∀ k ∈ [0, 4], ∀ t' ∈ [0, 4], ∀ k' ∈ [0, 4],
      finishedId t k = finishedId t' k' → t = t' ∧ k = k' := by decide
  refine hall _ ?_ _ ?_ _ ?_ _ ?_ h
  · simpa using contextIdOf_cases w
  · simpa using kernelIdOf_cases w
  · simpa using contextIdOf_cases w'
  · simpa using kernelIdOf_cases w'

end Driver

/-- The driver, the kernels that the host was given, those that a call which threw had taken, and the
reports of the device that were placed. -/
structure LedgerState where
  driver : Driver
  given : List ℤ
  dropped : List ℤ
  placed : List ℤ

namespace LedgerState
variable {s s' : LedgerState}

/-- A call; the result is absent when the call does not come back. -/
def exec (s : LedgerState) : HostOp → Option LedgerState
  | .wait ticks =>
    some { s with
      driver := (s.driver.wait ticks).2
      placed := s.placed ++ s.driver.handledPart ticks.finished }
  | .getFinishedKernel =>
    let r := s.driver.getFinishedKernel
    some { s with driver := r.2, given := s.given ++ r.1 }
  | .executeAllKernel fuel device =>
    match s.driver.executeAllKernel fuel device with
    | none => none
    | some (.ok queue, p) =>
      some ⟨p.driver, s.given ++ queue, s.dropped, s.placed ++ s.driver.placedBy device p.cnt⟩
    | some (.error _, p) =>
      some ⟨p.driver, s.given, s.dropped ++ p.tmp, s.placed ++ s.driver.placedBy device p.cnt⟩
  | op =>
    if Driver.Returned (s.driver.perform op).1 then some { s with driver := (s.driver.perform op).2 } else none

end LedgerState

def ledgerSystem : TransitionSystem LedgerState HostOp where
  init s := s = ⟨Driver.new, [], [], []⟩
  step s op t := s.exec op = some t

namespace LedgerState
variable {s s' : LedgerState}

/-- The host gets the kernels of the placed reports in order and each once, except those of calls
that threw, and it can tell them apart. A kernel is finished exactly when a report named it. -/
structure KernelsTold (s : LedgerState) : Prop where
  order : (s.given ++ s.driver.finishedKernelLst).Sublist (s.placed.map Driver.finishedOf)
  books : (s.given ++ s.dropped ++ s.driver.finishedKernelLst).Perm (s.placed.map Driver.finishedOf)
  named : ∀ w w', Driver.finishedOf w = Driver.finishedOf w' →
    Driver.contextIdOf w = Driver.contextIdOf w' ∧ Driver.kernelIdOf w = Driver.kernelIdOf w'
  finished : ∀ t k krl, s.driver.krlInfo t k = some krl → (krl.state = .finish ↔
    ∃ w ∈ s.placed, Driver.contextIdOf w = t ∧ Driver.kernelIdOf w = k)

/-- The books of the driver and of the host. -/
structure Booked (s : LedgerState) : Prop where
  told : s.driver.Told s.placed
  order : (s.given ++ s.driver.finishedKernelLst).Sublist (s.placed.map Driver.finishedOf)
  books : (s.given ++ s.dropped ++ s.driver.finishedKernelLst).Perm (s.placed.map Driver.finishedOf)

lemma Booked.of_told (h : Booked s) {d : Driver} (htold : d.Told s.placed)
    (hqueue : d.finishedKernelLst = s.driver.finishedKernelLst) : Booked { s with driver := d } where
  told := htold
  order := by
    change (s.given ++ d.finishedKernelLst).Sublist _
    rw [hqueue]
    exact h.order
  books := by
    change (s.given ++ s.dropped ++ d.finishedKernelLst).Perm _
    rw [hqueue]
    exact h.books

lemma Booked.wait (h : Booked s) (ticks : Ticks) :
    Booked { s with
      driver := (s.driver.wait ticks).2
      placed := s.placed ++ s.driver.handledPart ticks.finished } := by
  obtain ⟨htold, hpushed⟩ := h.told.wait ticks
  refine ⟨htold, ?_, ?_⟩
  · simp only [hpushed, List.map_append, ← List.append_assoc]
    exact h.order.append_right _
  · simp only [hpushed, List.map_append, ← List.append_assoc]
    exact h.books.append_right _

lemma Booked.getFinishedKernel (h : Booked s) :
    Booked { s with
      driver := s.driver.getFinishedKernel.2, given := s.given ++ s.driver.getFinishedKernel.1 } := by
  refine ⟨h.told.of_krlInfo fun _ _ => rfl, ?_, ?_⟩
  · simpa [Driver.getFinishedKernel] using h.order
  · simp only [Driver.getFinishedKernel, List.append_nil, List.append_assoc]
    refine List.Perm.trans ?_ h.books
    rw [List.append_assoc]
    exact List.perm_append_comm.append_left s.given

/-- What a call of `execute_all_kernel` took and left is what was queued and pushed. -/
lemma Booked.executed (h : Booked s) {p : Driver.Polling} {device : ℕ → Ticks}
    (hpolled : Driver.Polled s.driver s.placed device p) :
    Booked ⟨p.driver, s.given ++ p.tmp, s.dropped, s.placed ++ s.driver.placedBy device p.cnt⟩ ∧
      Booked ⟨p.driver, s.given, s.dropped ++ p.tmp, s.placed ++ s.driver.placedBy device p.cnt⟩ := by
  have horder : (s.given ++ (p.tmp ++ p.driver.finishedKernelLst)).Sublist
      ((s.placed ++ s.driver.placedBy device p.cnt).map Driver.finishedOf) := by
    rw [hpolled.books, ← List.append_assoc, List.map_append]
    exact h.order.append_right _
  have hbooks : (s.given ++ s.dropped ++ (p.tmp ++ p.driver.finishedKernelLst)).Perm
      ((s.placed ++ s.driver.placedBy device p.cnt).map Driver.finishedOf) := by
    rw [hpolled.books, ← List.append_assoc, List.map_append]
    exact h.books.append_right _
  refine ⟨⟨hpolled.told, ?_, ?_⟩, ⟨hpolled.told, ?_, ?_⟩⟩
  · simpa only [List.append_assoc] using horder
  · refine List.Perm.trans ?_ hbooks
    simp only [List.append_assoc]
    refine List.Perm.append_left s.given ?_
    simp only [← List.append_assoc]
    exact List.perm_append_comm.append_right _
  · exact ((List.sublist_append_right p.tmp _).append_left s.given).trans horder
  · simpa only [List.append_assoc] using hbooks

theorem Booked.exec (h : Booked s) {op : HostOp} (hstep : s.exec op = some s') : Booked s' := by
  cases op with
  | call op =>
    simp only [LedgerState.exec] at hstep
    split_ifs at hstep
    obtain rfl := Option.some.inj hstep
    obtain ⟨hqueue, hkrl⟩ := Driver.call_krlInfo s.driver op
    exact h.of_told (h.told.of_krlInfo hkrl) hqueue
  | upload devVaddr src size t k =>
    simp only [LedgerState.exec] at hstep
    split_ifs at hstep
    obtain rfl := Option.some.inj hstep
    obtain ⟨hqueue, hkrl⟩ := Driver.upload_krlInfo s.driver (u64 devVaddr) src size t k
    exact h.of_told (h.told.of_krlInfo hkrl) hqueue
  | download devVaddr dst size t k =>
    simp only [LedgerState.exec] at hstep
    split_ifs at hstep
    obtain rfl := Option.some.inj hstep
    exact h
  | start taskID inputData device =>
    simp only [LedgerState.exec] at hstep
    split_ifs at hstep
    obtain rfl := Option.some.inj hstep
    obtain ⟨htold, hqueue⟩ := h.told.start taskID inputData device
    exact h.of_told htold hqueue
  | wait ticks =>
    obtain rfl := Option.some.inj hstep
    exact h.wait ticks
  | getFinishedKernel =>
    obtain rfl := Option.some.inj hstep
    exact h.getFinishedKernel
  | executeAllKernel fuel device =>
    simp only [LedgerState.exec] at hstep
    cases hrun : s.driver.executeAllKernel fuel device with
    | none => simp [hrun] at hstep
    | some q =>
      obtain ⟨r, p⟩ := q
      obtain ⟨hpolled, hqueue⟩ := h.told.executeAllKernel hrun
      obtain ⟨hgiven, hdropped⟩ := h.executed hpolled
      cases r with
      | ok queue =>
        simp only [hrun] at hstep
        obtain rfl := Option.some.inj hstep
        rw [hqueue queue rfl]
        exact hgiven
      | error e =>
        simp only [hrun] at hstep
        obtain rfl := Option.some.inj hstep
        exact hdropped

lemma booked_new : Booked ⟨Driver.new, [], [], []⟩ := by
  have hnone : ∀ t k, Driver.new.krlInfo t k = none := fun t k => by simp [Driver.krlInfo, Driver.new]
  refine ⟨⟨?_, ?_, ?_⟩, List.Sublist.refl _, List.Perm.refl _⟩
  · intro t k krl hkrl
    rw [hnone] at hkrl
    cases hkrl
  · intro t k krl hkrl
    rw [hnone] at hkrl
    cases hkrl
  · intro w hw
    cases hw

lemma booked_of_reachable (h : ledgerSystem.Reachable s) : Booked s := by
  refine h.invariant ?_ ?_
  · rintro s rfl
    exact booked_new
  · intro s op t hs _ hstep
    exact hs.exec hstep

/-- In a run no state has a report for every block that the device can name, so polling is as it should be
only while there is no task. -/
theorem pollingEnds_of_run (h : ledgerSystem.Reachable s) :
    s.driver.PollingEnds ↔ s.driver.ctxLst = ∅ ∧ s.driver.finishedKernelLst = [] := by
  constructor
  · intro hends
    have htask : s.driver.ctxLst = ∅ := by
      by_contra hne
      obtain ⟨w, hillegal⟩ := (booked_of_reachable h).told.not_legal
      exact hillegal (hends.legal hne w)
    exact ⟨htask, (Driver.pollingEnds_of_no_task htask).mp hends⟩
  · exact fun hempty => (Driver.pollingEnds_of_no_task hempty.1).mpr hempty.2

/-- In every run the host is told of the finished kernels as the device reported them. -/
theorem kernels_told (h : ledgerSystem.Reachable s) : s.KernelsTold := by
  have hbooked := booked_of_reachable h
  exact ⟨hbooked.order, hbooked.books, fun _ _ => Driver.finishedOf_inj, hbooked.told.state⟩

/-- Kernel 0 is finished and kernel 1 is not. The report that names no task makes the poll throw, with
kernel 0 taken from the queue. -/
def pollThrows : List HostOp :=
  [.call (.createDeviceMem 0), .start 0 (CompletionState.kernelOf 1) fun _ => [],
    .start 0 { CompletionState.kernelOf 1 with kernelId := 1 } fun _ => [], .wait ⟨[], [0]⟩,
    .executeAllKernel 1 fun _ => ⟨[], [2048]⟩]

theorem told_pollThrows : ∃ s : LedgerState, s.dropped = [0] ∧ s.given = [] ∧ s.KernelsTold := by
  have hrun : ((TransitionSystem.follow (fun _ _ => True) exec pollThrows ⟨Driver.new, [], [], []⟩).map
      fun s => (s.dropped, s.given)) = some ([0], []) := by decide +kernel
  obtain ⟨s, hs, heq⟩ := Option.map_eq_some_iff.mp hrun
  obtain ⟨hdropped, hgiven⟩ := Prod.mk.inj heq
  have hstart : ledgerSystem.Reachable ⟨Driver.new, [], [], []⟩ := .start rfl
  exact ⟨s, hdropped, hgiven, kernels_told (hstart.follow (fun _ _ _ hstep => hstep) hs)⟩

end LedgerState
end VentusDriver
