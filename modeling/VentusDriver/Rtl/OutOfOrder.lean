import VentusDriver.Rtl.Answers

/-! The last walker gives up the lowest entry with an answer, and sends the one that its arbiter grants.
Where these differ, one answer is sent twice and another one never. -/
namespace VentusDriver.Rtl
open Foundation Foundation.TagTable

lemma Walker.out_tag {Req Entry : Type} {K : WalkerKind Req Entry} {w : Walker Entry}
    (hbits : ∀ e, (K.bits e).source = K.rules.tag e) {t : BitVec 2} (ht : t ∉ Walker.tags K w)
    (ready : Bool) : t ∉ ((w.out K).sent ready).map AddrBits.source := by
  intro hmem
  obtain ⟨b, hb, rfl⟩ := Multiset.mem_map.mp hmem
  obtain ⟨hfire, rfl⟩ := Decoupled.mem_sent.mp hb
  have hdone : w.state (w.outArb.port (w.outIn K)) = .done := by
    have hvalid := (Bool.and_eq_true_iff.mp hfire).2
    simpa [Walker.out, RRArbiter.out, Walker.outIn, Walker.isDone] using hvalid
  have hsource : (w.out K).bits.source = K.rules.tag (w.entries (w.outArb.port (w.outIn K))) := hbits _
  rw [hsource] at ht
  exact ht (Walker.tag_mem_tags (by rw [hdone]; decide))

namespace MmuRun
variable {mem : BitVec 64 → BitVec 64} {s : MmuRun} {c : MmuCycle}

lemma not_mem_of_add_eq {α : Type*} {x y z v : Multiset α} {t : α} (h : y + z = x + v) (hx : t ∉ x)
    (hv : t ∉ v) : t ∉ y := by
  intro hy
  have hmem : t ∈ x + v := h ▸ Multiset.mem_add.mpr (.inl hy)
  cases Multiset.mem_add.mp hmem with
  | inl hl => exact hx hl
  | inr hr => exact hv hr

lemma queue_tag {α : Type} {q : OneQueue α} {enq : Decoupled α} {f : α → BitVec 2} {t : BitVec 2}
    {ready : Bool} (hq : t ∉ q.held.map f) (henq : t ∉ (enq.sent q.enqReady).map f) :
    t ∉ (q.next false enq ready).held.map f := by
  have h := congrArg (Multiset.map f) (q.held_next enq ready)
  rw [Multiset.map_add, Multiset.map_add] at h
  exact not_mem_of_add_eq h hq henq

lemma queue_deq_tag {α : Type} {q : OneQueue α} {f : α → BitVec 2} {t : BitVec 2} {ready : Bool}
    (hq : t ∉ q.held.map f) : t ∉ (q.deq.sent ready).map f :=
  fun h => hq (Multiset.mem_of_le (Multiset.map_le_map (q.sent_le_held ready)) h)

lemma ptw_tag {t : BitVec 2} (h : t ∉ Walker.tags fistLevelPTW s.mmu.ptw)
    (hreq : t ∉ (s.mmu.l2tlb.req.sent s.mmu.ptw.reqReady).map TlbBits.source) :
    t ∉ Walker.tags fistLevelPTW (s.exec mem c).mmu.ptw := by
  refine not_mem_of_add_eq (Walker.tags_next (K := fistLevelPTW) (fun _ _ => rfl) ?_) h hreq
  intro e
  simp only [fistLevelPTW]
  split_ifs <;> simp

/-- A tag comes into the unit with a request only. -/
lemma tag_exec {t : BitVec 2} (h : t ∉ s.mmu.tags)
    (hreq : t ∉ (c.mmuReq.sent s.mmu.mmuReqReady).map TlbBits.source) :
    t ∉ (s.exec mem c).mmu.tags := by
  simp only [MMU.tags, Multiset.mem_add, not_or] at h
  obtain ⟨⟨⟨⟨⟨h1, h2⟩, h3⟩, h4⟩, h5⟩, h6⟩ := h
  have hllptw : t ∉ Walker.tags lastLevelPTW (s.exec mem c).mmu.llptw := by
    refine not_mem_of_add_eq (Walker.tags_next (K := lastLevelPTW) (fun _ _ => rfl) ?_) h4 ?_
    · intro e
      simp [lastLevelPTW]
    · exact Walker.out_tag ptw_bits_source h3 _
  simp only [MMU.tags, Multiset.mem_add, not_or]
  exact ⟨⟨⟨⟨⟨queue_tag h1 hreq, queue_tag h2 (queue_deq_tag h1)⟩,
    ptw_tag h3 (queue_deq_tag h2)⟩, hllptw⟩,
    queue_tag h5 (Walker.out_tag llptw_bits_source h4 _)⟩, queue_tag h6 (queue_deq_tag h5)⟩

/-- The host waits for a response with the tag. -/
def Waits (s : MmuRun) (t : BitVec 2) : Prop :=
  t ∈ s.accepted.map TlbBits.source - s.answered.map AddrBits.source

/-- Once its tag is not in the unit, a request is not answered any more. -/
lemma waits_exec {t : BitVec 2} (hfresh : s.FreshTag c) (hfree : t ∉ s.mmu.tags) (hwait : s.Waits t) :
    t ∉ (s.exec mem c).mmu.tags ∧ (s.exec mem c).Waits t := by
  have hout : t ∉ (s.delivered c).map AddrBits.source := by
    refine queue_deq_tag fun h => hfree ?_
    exact Multiset.mem_add.mpr (.inr h)
  have hcount : (s.answered.map AddrBits.source).count t < (s.accepted.map TlbBits.source).count t := by
    have := Multiset.count_pos.mpr hwait
    rw [Multiset.count_sub] at this
    omega
  have hnew : t ∉ (c.mmuReq.sent s.mmu.mmuReqReady).map TlbBits.source := by
    intro hmem
    obtain ⟨r, hr, rfl⟩ := Multiset.mem_map.mp hmem
    obtain ⟨hfire, rfl⟩ := Decoupled.mem_sent.mp hr
    refine hfresh (Bool.and_eq_true_iff.mp hfire).2 (Multiset.count_pos.mp ?_)
    rw [outstanding, Multiset.count_sub, Multiset.map_add, Multiset.count_add,
      Multiset.count_eq_zero.mpr hout]
    omega
  refine ⟨tag_exec hfree hnew, Multiset.count_pos.mp ?_⟩
  change 0 < Multiset.count t ((s.accepted + _).map _ - (s.answered + s.delivered c).map _)
  rw [Multiset.count_sub, Multiset.map_add, Multiset.map_add, Multiset.count_add, Multiset.count_add,
    Multiset.count_eq_zero.mpr hout, Multiset.count_eq_zero.mpr hnew]
  omega

/-! ### The exact condition -/

/-- Every request is answered or has its answer in the unit, once. -/
def Balanced (mem : BitVec 64 → BitVec 64) (s : MmuRun) : Prop :=
  s.accepted.map (answer mem) = s.answered + held mem s.mmu

lemma Sound.exec_given (h : s.Sound mem) :
    (s.exec mem c).answered + held mem (s.exec mem c).mmu + s.given =
      (s.exec mem c).accepted.map (answer mem) + s.sentLast := by
  have hheld := h.held_exec_given (c := c)
  have haccepted : (s.exec mem c).accepted.map (answer mem) = s.answered + held mem s.mmu +
      (c.mmuReq.sent s.mmu.mmuReqReady).map (answer mem) := by
    rw [← h.books, ← Multiset.map_add]
    rfl
  have hanswered : (s.exec mem c).answered = s.answered + s.delivered c := rfl
  rw [haccepted, hanswered]
  calc s.answered + s.delivered c + held mem (s.exec mem c).mmu + s.given
      = s.answered + (held mem (s.exec mem c).mmu + s.delivered c + s.given) := by abel
    _ = s.answered + (held mem s.mmu + (c.mmuReq.sent s.mmu.mmuReqReady).map (answer mem) +
          s.sentLast) := by rw [hheld]
    _ = s.answered + held mem s.mmu + (c.mmuReq.sent s.mmu.mmuReqReady).map (answer mem) +
          s.sentLast := by abel

/-- The entries of the last walker have different tags. -/
lemma Sound.llptw_index (h : s.Sound mem) {i j : Fin 4} (hi : s.mmu.llptw.state i = .done)
    (hj : s.mmu.llptw.state j = .done)
    (hsource : (s.mmu.llptw.entries i).source = (s.mmu.llptw.entries j).source) : i = j := by
  refine eq_of_nodup_sum h.llptw_tags (a := (s.mmu.llptw.entries j).source) ?_ ?_
  · simp [Walker.slots, Walker.tagsOf, hi, lastLevelPTW, hsource]
  · simp [Walker.slots, Walker.tagsOf, hj, lastLevelPTW]

lemma Sound.given_eq_iff (h : s.Sound mem) : s.given = s.sentLast ↔ s.RspInOrder c := by
  constructor
  · intro heq hsend
    have hsent : s.sentLast = {(s.mmu.llptw.out lastLevelPTW).bits} := Decoupled.sent_of_fire hsend
    rw [given, if_pos hsend, hsent, Multiset.singleton_inj] at heq
    exact h.llptw_index (Walker.state_deqPtr hsend) (Walker.state_outPort hsend)
      (congrArg AddrBits.source heq)
  · exact given_of_inOrder

/-- A cycle keeps the books exactly if the last walker gives up what it sends. -/
theorem balanced_exec_iff (h : (mmuSystem mem).ReachableBy FairInOrder s) (c : MmuCycle) :
    (s.exec mem c).Balanced mem ↔ s.RspInOrder c := by
  have hs := sound_of_inOrder h
  have hgiven := hs.exec_given (c := c)
  rw [← hs.given_eq_iff, Balanced]
  constructor
  · intro hbalanced
    rw [← hbalanced] at hgiven
    exact add_left_cancel hgiven
  · intro heq
    rw [heq] at hgiven
    exact (add_right_cancel hgiven).symm

/-- Four requests whose host takes no response until all answers are there. -/
def crowd : List MmuCycle :=
  [cycle false (some ⟨0, 1, 0⟩) none, cycle false none none, cycle false (some ⟨0, 1, 1⟩) none,
    cycle false none none, cycle false (some ⟨0, 1, 2⟩) none, cycle false none (some ⟨0x1000, 4⟩),
    cycle false (some ⟨0, 1, 3⟩) none, cycle false none (some ⟨0x1000, 5⟩), cycle false none none,
    cycle false none (some ⟨0x1000, 6⟩), cycle false none none, cycle false none (some ⟨0x1000, 7⟩),
    cycle false none none, cycle false none (some ⟨0x2000, 4⟩), cycle false none none,
    cycle false none (some ⟨0x2000, 5⟩), cycle false none none, cycle false none (some ⟨0x2000, 6⟩),
    cycle false none (some ⟨0x3000, 0⟩), cycle false none (some ⟨0x2000, 7⟩),
    cycle false none (some ⟨0x3000, 1⟩), cycle false none none, cycle false none (some ⟨0x3000, 2⟩),
    cycle false none none, cycle false none (some ⟨0x3000, 3⟩), cycle true none none,
    cycle true none none]

lemma crowd_end : ∃ s, play FairInOrder crowd = some s ∧ s.Fair (cycle true none none) ∧
    ¬ s.RspInOrder (cycle true none none) := by
  have hplay : ((play FairInOrder crowd).map fun s =>
      decide (s.Fair (cycle true none none) ∧ ¬ s.RspInOrder (cycle true none none))) = some true := by
    decide +kernel
  obtain ⟨s, hs, hend⟩ := Option.map_eq_some_iff.mp hplay
  exact ⟨s, hs, of_decide_eq_true hend⟩

theorem unbalanced_after_crowd :
    ∃ s, play FairInOrder crowd = some s ∧ ¬ (s.exec sampleMem (cycle true none none)).Balanced sampleMem := by
  obtain ⟨s, hs, -, hbad⟩ := crowd_end
  exact ⟨s, hs, fun hbalanced => hbad ((balanced_exec_iff (reachable_of_play hs) _).mp hbalanced)⟩

/-! ### The request that is lost -/

/-- Runs from a state on. -/
def mmuFrom (mem : BitVec 64 → BitVec 64) (s : MmuRun) : TransitionSystem MmuRun MmuCycle where
  init t := t = s
  step s c t := t = s.exec mem c

lemma Sound.sources (h : s.Sound mem) :
    s.accepted.map TlbBits.source = s.answered.map AddrBits.source + s.mmu.tags := by
  have hbooks := congrArg (Multiset.map AddrBits.source) h.books
  rw [Multiset.map_map, Multiset.map_add, held_tags] at hbooks
  exact hbooks

/-- After the wrong entry was given up, its tag is not in the unit, and the host waits for it. -/
lemma Sound.lost_exec (h : s.Sound mem) (hfresh : s.FreshTag c)
    (hsend : s.mmu.llptw.sends lastLevelPTW s.mmu.llptwIn = true)
    (hbad : s.mmu.llptw.deqPtr ≠ s.mmu.llptw.outArb.port (s.mmu.llptw.outIn lastLevelPTW)) :
    (s.mmu.llptw.entries s.mmu.llptw.deqPtr).source ∉ (s.exec mem c).mmu.tags ∧
      (s.exec mem c).Waits (s.mmu.llptw.entries s.mmu.llptw.deqPtr).source := by
  generalize ht : (s.mmu.llptw.entries s.mmu.llptw.deqPtr).source = t
  have hlast : t ∈ Walker.tags lastLevelPTW s.mmu.llptw := by
    rw [← ht]
    exact Walker.tag_mem_tags (K := lastLevelPTW) (by rw [Walker.state_deqPtr hsend]; decide)
  have hnodup := h.tags_nodup
  rw [MMU.tags] at hnodup
  have hn5 := Multiset.nodup_of_le (Multiset.le_add_right _ _) hnodup
  have hn4 := Multiset.nodup_of_le (Multiset.le_add_right _ _) hn5
  -- the tag is in the last walker and nowhere else
  have hbefore := not_mem_left hn4 hlast
  have hrsp2 := not_mem_right hn5 (Multiset.mem_add.mpr (.inr hlast))
  have hrsp1 := not_mem_right hnodup (Multiset.mem_add.mpr (.inl (Multiset.mem_add.mpr (.inr hlast))))
  simp only [Multiset.mem_add, not_or] at hbefore
  obtain ⟨⟨hreq1, hreq2⟩, hptw⟩ := hbefore
  have hone : s.mmu.tags.count t = 1 := by
    refine Multiset.count_eq_one_of_mem h.tags_nodup ?_
    exact Multiset.mem_add.mpr (.inl (Multiset.mem_add.mpr (.inl (Multiset.mem_add.mpr (.inr hlast)))))
  have hdelivered : t ∉ (s.delivered c).map AddrBits.source := queue_deq_tag hrsp1
  have haccepted := congrArg (Multiset.count t) h.sources
  rw [Multiset.count_add, hone] at haccepted
  have hnew : t ∉ (c.mmuReq.sent s.mmu.mmuReqReady).map TlbBits.source := by
    intro hmem
    obtain ⟨r, hr, hrt⟩ := Multiset.mem_map.mp hmem
    obtain ⟨hfire, rfl⟩ := Decoupled.mem_sent.mp hr
    refine hfresh (Bool.and_eq_true_iff.mp hfire).2 (Multiset.count_pos.mp ?_)
    rw [outstanding, hrt, Multiset.count_sub, Multiset.map_add, Multiset.count_add,
      Multiset.count_eq_zero.mpr hdelivered]
    omega
  have hllptw : t ∉ Walker.tags lastLevelPTW (s.exec mem c).mmu.llptw := by
    rw [← ht] at hptw ⊢
    exact Walker.tag_gone h.llptw_tags (fun _ _ => rfl) (fun _ => by simp [lastLevelPTW]) hsend
      (Walker.out_tag ptw_bits_source hptw _)
  have hout : t ∉ ((s.mmu.llptw.out lastLevelPTW).sent s.mmu.l2tlb.rspReady).map AddrBits.source := by
    intro hmem
    obtain ⟨b, hb, hbt⟩ := Multiset.mem_map.mp hmem
    obtain ⟨-, rfl⟩ := Decoupled.mem_sent.mp hb
    exact hbad (h.llptw_index (Walker.state_deqPtr hsend) (Walker.state_outPort hsend) (ht.trans hbt.symm))
  constructor
  · simp only [MMU.tags, Multiset.mem_add, not_or]
    exact ⟨⟨⟨⟨⟨queue_tag hreq1 hnew, queue_tag hreq2 (queue_deq_tag hreq1)⟩,
      ptw_tag hptw (queue_deq_tag hreq2)⟩, hllptw⟩, queue_tag hrsp2 hout⟩,
      queue_tag hrsp1 (queue_deq_tag hrsp2)⟩
  · apply Multiset.count_pos.mp
    change 0 < Multiset.count t ((s.accepted + _).map _ - (s.answered + s.delivered c).map _)
    rw [Multiset.count_sub, Multiset.map_add, Multiset.map_add, Multiset.count_add, Multiset.count_add,
      Multiset.count_eq_zero.mpr hdelivered, Multiset.count_eq_zero.mpr hnew]
    omega

/-- Where the last walker gives up another entry than it sends, there is a request whose response the
host waits for ever after. -/
theorem lost_forever (h : (mmuSystem mem).ReachableBy FairInOrder s) (hfair : s.Fair c)
    (hbad : ¬ s.RspInOrder c) :
    ∃ r ∈ s.accepted, ∀ t, (mmuFrom mem (s.exec mem c)).ReachableBy Fair t → t.Waits r.source := by
  have hs := sound_of_inOrder h
  obtain ⟨hsend, hne⟩ := Classical.not_imp.mp hbad
  have hlost := hs.lost_exec (c := c) hfair.2 hsend hne
  have hheld : s.mmu.llptw.entries s.mmu.llptw.deqPtr ∈ s.accepted.map (answer mem) := by
    have htoken : s.mmu.llptw.entries s.mmu.llptw.deqPtr ∈ Walker.tokens (load mem) id s.mmu.llptw := by
      rw [Walker.tokens, weigh, Multiset.mem_sum]
      refine ⟨s.mmu.llptw.deqPtr, Finset.mem_univ _, ?_⟩
      simp [Walker.slots, Walker.tokenOf, Walker.state_deqPtr hsend]
    rw [hs.books, held]
    simp [htoken]
  obtain ⟨r, hr, heq⟩ := Multiset.mem_map.mp hheld
  rw [← heq] at hlost
  refine ⟨r, hr, fun t ht => ?_⟩
  have hall := ht.invariant (I := fun t => r.source ∉ t.mmu.tags ∧ t.Waits r.source) ?_ ?_
  · exact hall.2
  · intro t hinit
    subst hinit
    exact hlost
  · intro t c u hinv hguard hstep
    rw [hstep]
    exact waits_exec hguard.2 hinv.1 hinv.2

theorem lost_after_crowd : ∃ s r, play FairInOrder crowd = some s ∧ r ∈ s.accepted ∧
    ∀ t, (mmuFrom sampleMem (s.exec sampleMem (cycle true none none))).ReachableBy Fair t →
      t.Waits r.source := by
  obtain ⟨s, hs, hfair, hbad⟩ := crowd_end
  obtain ⟨r, hr, hwaits⟩ := lost_forever (reachable_of_play hs) hfair hbad
  exact ⟨s, r, hs, hr, hwaits⟩

end MmuRun
end VentusDriver.Rtl
