import VentusDriver.Driver.Firing

/-! Reports of finished blocks. `wait` takes the whole queue of the device and stops at the first
entry that it cannot place; what stands behind that entry is gone. -/
namespace VentusDriver

/-- The queue that the processor returns, and the one that it keeps. -/
def Processor.finishedBlock (queue : List ℤ) : List ℤ × List ℤ := (queue, [])

namespace Driver
variable {d d' : Driver}

/-- `wait`, with the queue of the device before the call and after it. -/
def waitQueue (d : Driver) (ticks : Ticks) : Except Failure ℤ × Driver × List ℤ :=
  let taken := Processor.finishedBlock ticks.finished
  let r := d.wait { ticks with finished := taken.1 }
  (r.1, r.2, taken.2)

/-- The task, the kernel and the block that an entry of the queue names. -/
def decode (wgId : ℤ) : ℕ × ℕ × ℤ := (contextIdOf wgId, kernelIdOf wgId, blockId wgId)

/-- The state under which a block is recorded. -/
def blkState (d : Driver) (key : ℕ × ℕ × ℤ) : Option KrlState :=
  (d.krlInfo key.1 key.2.1).bind fun krl => krl.blkList[key.2.2]?

/-- The entry names a recorded block. -/
def Legal (d : Driver) (wgId : ℤ) : Prop := (d.blkState (decode wgId)).isSome

instance (d : Driver) (wgId : ℤ) : Decidable (d.Legal wgId) :=
  inferInstanceAs (Decidable (_ = true))

lemma finishBlock_isSome (d : Driver) (w : ℤ) : (d.finishBlock w).isSome ↔ d.Legal w := by
  rw [finishBlock_isSome_iff, Legal, show d.blkState (decode w) =
    (d.krlInfo (contextIdOf w) (kernelIdOf w)).bind fun krl => krl.blkList[(blockId w : ℤ)]? from rfl]
  cases d.krlInfo (contextIdOf w) (kernelIdOf w) with
  | none => exact iff_of_false (fun h => by cases h.choose_spec.1) Bool.false_ne_true
  | some krl =>
    rw [Option.bind_some, ← Std.ExtTreeMap.mem_iff_isSome_getElem?]
    exact ⟨fun h => Option.some.inj h.choose_spec.1 ▸ h.choose_spec.2, fun h => ⟨krl, rfl, h⟩⟩

lemma finishBlock_of_legal {w : ℤ} (h : d.Legal w) : ∃ d', d.finishBlock w = some d' :=
  Option.isSome_iff_exists.mp ((finishBlock_isSome d w).mpr h)

lemma finishBlock_none {w : ℤ} (h : ¬ d.Legal w) : d.finishBlock w = none :=
  Option.not_isSome_iff_eq_none.mp fun hsome => h ((finishBlock_isSome d w).mp hsome)

/-- A report marks the block that it names and no other. -/
lemma finishBlock_blkState {w : ℤ} (h : d.finishBlock w = some d') (key : ℕ × ℕ × ℤ) :
    d'.blkState key = if key = decode w then some .finish else d.blkState key := by
  obtain ⟨krl, hreported⟩ := finishBlock_reported h
  obtain ⟨t, k, b⟩ := key
  by_cases hkernel : t = contextIdOf w ∧ k = kernelIdOf w
  · obtain ⟨rfl, rfl⟩ := hkernel
    simp only [blkState, decode, hreported.after, hreported.before, Option.bind_some, reportBlock,
      Std.ExtTreeMap.getElem?_insert, Std.LawfulEqCmp.compare_eq_iff_eq, Prod.mk.injEq, true_and,
      eq_comm (a := b)]
  · have hne : (t, k, b) ≠ decode w := fun heq => by
      rw [decode, Prod.mk.injEq, Prod.mk.injEq] at heq
      exact hkernel ⟨heq.1, heq.2.1⟩
    rw [if_neg hne, blkState, blkState, hreported.others t k hkernel]

/-- Reports do not change which entries are legal. -/
lemma finishBlock_legal {w : ℤ} (h : d.finishBlock w = some d') (w' : ℤ) : d'.Legal w' ↔ d.Legal w' := by
  rw [Legal, Legal, finishBlock_blkState h]
  split_ifs with heq
  · have hlegal : d.Legal w := (finishBlock_isSome d w).mp (by rw [h]; rfl)
    rw [heq]
    exact iff_of_true rfl hlegal
  · exact Iff.rfl

/-- The entries before the first one that is not legal. -/
def handledPart (d : Driver) (queue : List ℤ) : List ℤ := queue.takeWhile fun w => decide (d.Legal w)

/-- The first entry that is not legal and what stands behind it. -/
def lostPart (d : Driver) (queue : List ℤ) : List ℤ := queue.dropWhile fun w => decide (d.Legal w)

/-- The loop of `wait` marks the entries before the first one that is not legal. -/
theorem finishBlocks_blkState (d : Driver) (queue : List ℤ) (key : ℕ × ℕ × ℤ) :
    (d.finishBlocks queue).2.blkState key =
      if key ∈ (d.handledPart queue).map decode then some .finish else d.blkState key := by
  induction queue generalizing d with
  | nil => simp [finishBlocks, handledPart]
  | cons w rest ih =>
    rw [finishBlocks]
    by_cases hlegal : d.Legal w
    · obtain ⟨d', hd'⟩ := finishBlock_of_legal hlegal
      have hsame : d'.handledPart rest = d.handledPart rest := by
        simp only [handledPart, finishBlock_legal hd']
      have hcons : d.handledPart (w :: rest) = w :: d.handledPart rest := by
        rw [handledPart, List.takeWhile_cons_of_pos (by simpa using hlegal), handledPart]
      simp only [hd', hcons, List.map_cons, List.mem_cons]
      rw [ih, hsame, finishBlock_blkState hd']
      by_cases hkey : key = decode w
      · simp [hkey]
      · simp [hkey]
    · rw [finishBlock_none hlegal, handledPart, List.takeWhile_cons_of_neg (by simpa using hlegal)]
      simp

theorem finishBlocks_result (d : Driver) (queue : List ℤ) : (d.finishBlocks queue).1 =
    if ∀ w ∈ queue, d.Legal w then .ok 0 else .error (.error "vz::Driver" "wait failed") := by
  induction queue generalizing d with
  | nil => simp [finishBlocks]
  | cons w rest ih =>
    rw [finishBlocks]
    by_cases hlegal : d.Legal w
    · obtain ⟨d', hd'⟩ := finishBlock_of_legal hlegal
      rw [hd']
      simp only
      simp only [ih, finishBlock_legal hd', List.forall_mem_cons, hlegal, true_and]
    · rw [finishBlock_none hlegal]
      simp [hlegal]

/-- An entry that is not legal is reported, and each legal one is marked or stays in the queue. -/
structure LosesNone (d : Driver) (ticks : Ticks) : Prop where
  reports : (∃ w ∈ ticks.finished, ¬ d.Legal w) →
    (d.waitQueue ticks).1 = .error (.error "vz::Driver" "wait failed")
  handled : ∀ w ∈ ticks.finished, d.Legal w →
    (d.waitQueue ticks).2.1.blkState (decode w) = some .finish ∨ w ∈ (d.waitQueue ticks).2.2

/-- Nothing is lost exactly when every legal entry behind the first one that is not legal names a
block that was finished before the call or is named before that entry as well. -/
theorem losesNone_iff (d : Driver) (ticks : Ticks) : d.LosesNone ticks ↔
    ∀ w ∈ d.lostPart ticks.finished, d.Legal w →
      d.blkState (decode w) = some .finish ∨ decode w ∈ (d.handledPart ticks.finished).map decode := by
  have hsplit : d.handledPart ticks.finished ++ d.lostPart ticks.finished = ticks.finished :=
    List.takeWhile_append_dropWhile
  have hmarked : ∀ w, (d.waitQueue ticks).2.1.blkState (decode w) = some .finish ↔
      d.blkState (decode w) = some .finish ∨ decode w ∈ (d.handledPart ticks.finished).map decode := by
    intro w
    -- the legal entries and the records are those before the cycles
    have hmark : (d.waitQueue ticks).2.1.blkState (decode w) =
        if decode w ∈ (d.handledPart ticks.finished).map decode then some .finish
        else d.blkState (decode w) := finishBlocks_blkState (d.tick ticks.stores) ticks.finished (decode w)
    rw [hmark]
    split_ifs with hmem
    · simp [hmem]
    · simp [hmem]
  constructor
  · intro h w hw hlegal
    have hqueue : w ∈ ticks.finished := by
      rw [← hsplit]
      exact List.mem_append_right _ hw
    cases h.handled w hqueue hlegal with
    | inl hfinish => exact (hmarked w).mp hfinish
    | inr hkept => exact absurd hkept (by simp [waitQueue, Processor.finishedBlock])
  · intro h
    refine ⟨fun hex => ?_, fun w hw hlegal => .inl ((hmarked w).mpr ?_)⟩
    · obtain ⟨w, hw, hillegal⟩ := hex
      have hresult := finishBlocks_result (d.tick ticks.stores) ticks.finished
      rw [if_neg fun hall => hillegal (hall w hw)] at hresult
      exact hresult
    · rw [← hsplit, List.mem_append] at hw
      cases hw with
      | inl hhandled => exact .inr (List.mem_map_of_mem hhandled)
      | inr hlost => exact h w hlost hlegal

/-- Block 0 is recorded, and its report stands behind one that names task 4. -/
theorem legal_entry_lost : ¬ ∀ (d : Driver) (ticks : Ticks), (∃ w ∈ ticks.finished, ¬ d.Legal w) →
    d.LosesNone ticks := by
  intro h
  have hlost := (h (withTask.start 0 (CompletionState.kernelOf 1) fun _ => []).2 ⟨[], [2048, 0]⟩
    ⟨2048, by simp, by decide +kernel⟩).handled 0 (by simp) (by decide +kernel)
  revert hlost
  decide +kernel

end Driver
end VentusDriver
