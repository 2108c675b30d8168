import VentusDriver.Rtl.MmuRules

/-! A host that takes every response at once, as the processor does. With it the walker of the last
level has at most one answer at a time, so the entry that it gives up is the one that it sends. -/
namespace VentusDriver.Rtl
open Foundation Foundation.TagTable

namespace MmuRun
variable {mem : BitVec 64 → BitVec 64} {s : MmuRun} {c : MmuCycle}

/-- Responses do not pile up: at most one of the two response buffers is full, at most one entry of the
last walker has its answer, and no other answer comes while this one has to wait. -/
structure Brisk (s : MmuRun) : Prop where
  buffers : s.mmu.l2tlb.rspFifo.maybeFull = true → s.mmu.tlb.rspFifo.maybeFull = false
  single : ∀ i j, s.mmu.llptw.state i = .done → s.mmu.llptw.state j = .done → i = j
  alone : ∀ i, s.mmu.llptw.state i = .done → s.mmu.l2tlb.rspFifo.maybeFull = true →
    s.mmu.llPageCache.rspFifo.maybeFull = false

/-- The environment of the unit with a host that is always ready. -/
def FairReady (s : MmuRun) (c : MmuCycle) : Prop := s.Fair c ∧ c.mmuRspReady = true

lemma Brisk.inOrder (h : s.Brisk) : s.RspInOrder c := fun hsend =>
  h.single _ _ (Walker.state_deqPtr hsend) (Walker.state_outPort hsend)

/-- The second response buffer fills only by an answer that is sent. -/
lemma Brisk.sends_of_full (h : s.Brisk) (hfull : (s.exec mem c).mmu.l2tlb.rspFifo.maybeFull = true) :
    s.mmu.l2tlb.rspFifo.maybeFull = false ∧ s.mmu.llptw.sends lastLevelPTW s.mmu.llptwIn = true := by
  cases OneQueue.full_next _ hfull with
  | inl hfill =>
    refine ⟨hfill.1, ?_⟩
    simp [Walker.sends, Decoupled.fire, MMU.llptwIn, Relay.rspReady, OneQueue.enqReady, hfill.1, hfill.2]
  | inr hstay =>
    have hempty := h.buffers hstay.1
    simp [Relay.rspReady, OneQueue.enqReady, hempty] at hstay

/-- An answer that can be sent is sent. -/
lemma Brisk.leaves (h : s.Brisk) {k : Fin 4} (hk : s.mmu.llptw.state k = .done)
    (hroom : s.mmu.l2tlb.rspFifo.maybeFull = false) :
    s.mmu.llptw.sends lastLevelPTW s.mmu.llptwIn = true ∧ s.mmu.llptw.deqPtr = k := by
  have hsend : s.mmu.llptw.sends lastLevelPTW s.mmu.llptwIn = true := by
    rw [Walker.sends, Decoupled.fire, Walker.out_valid.mpr ⟨k, hk⟩]
    simp [MMU.llptwIn, Relay.rspReady, OneQueue.enqReady, hroom]
  exact ⟨hsend, h.single _ _ (Walker.state_deqPtr hsend) hk⟩

/-- While an answer has to wait, no response comes. -/
lemma Brisk.quiet (h : s.Brisk) {k : Fin 4} (hk : s.mmu.llptw.state k = .done)
    (hfull : s.mmu.l2tlb.rspFifo.maybeFull = true) : ¬ s.mmu.llptw.hears s.mmu.llptwIn = true := by
  intro hheard
  have hvalid : s.mmu.llPageCache.rspFifo.maybeFull = true := (Bool.and_eq_true_iff.mp hheard).2
  simp [h.alone k hk hfull] at hvalid

lemma brisk_reset (power : MMU) (io : MMU.In) : Brisk ⟨power.next io true, 0, 0, 0⟩ := by
  have hstate : ∀ i, (power.next io true).llptw.state i = .idle := Walker.state_reset
  refine ⟨fun _ => rfl, ?_, fun _ _ _ => rfl⟩
  intro i j hi
  exact absurd ((hstate i).symm.trans hi) (by decide)

theorem Brisk.exec (h : s.Brisk) (hs : s.Sound mem) (hready : c.mmuRspReady = true) :
    (s.exec mem c).Brisk where
  buffers := by
    intro hfull
    by_contra htlb
    cases OneQueue.full_next _ (Bool.eq_true_of_not_eq_false htlb) with
    | inl hfill =>
      have hempty := (h.sends_of_full hfull).1
      have hvalid : s.mmu.l2tlb.rspFifo.maybeFull = true := hfill.2
      simp [hempty] at hvalid
    | inr hstay =>
      have hnot : c.mmuRspReady = false := hstay.2
      simp [hready] at hnot
  single := by
    intro i j hi hj
    cases hroom : s.mmu.l2tlb.rspFifo.maybeFull with
    | false =>
      have hheard : ∀ k, (s.exec mem c).mmu.llptw.state k = .done →
          s.mmu.llptw.hears s.mmu.llptwIn = true ∧
            s.mmu.llptw.hit lastLevelPTW s.mmu.llptwIn k = true := fun k hk => by
        cases Walker.done_next hk with
        | inl hstay => exact absurd (h.leaves hstay.1 hroom) hstay.2
        | inr hhit => exact hhit
      exact hs.llptw_hit_unique (hheard i hi) (hheard j hj)
    | true =>
      cases Walker.done_next hi with
      | inl hi =>
        cases Walker.done_next hj with
        | inl hj => exact h.single i j hi.1 hj.1
        | inr hj => exact absurd hj.1 (h.quiet hi.1 hroom)
      | inr hi =>
        cases Walker.done_next hj with
        | inl hj => exact absurd hi.1 (h.quiet hj.1 hroom)
        | inr hj => exact hs.llptw_hit_unique hi hj
  alone := by
    intro i hi hfull
    obtain ⟨hroom, -⟩ := h.sends_of_full hfull
    cases Walker.done_next hi with
    | inl hstay => exact absurd (h.leaves hstay.1 hroom) hstay.2
    | inr hhit =>
      have hheard := hhit.1
      simp only [Walker.hears, Decoupled.fire, Bool.and_eq_true] at hheard
      have hnext : (s.exec mem c).mmu.llPageCache.rspFifo = s.mmu.llPageCache.rspFifo.next false
          (MMUMemArbiter.rspOut (input mem c).memRsp false) s.mmu.llptw.memRspReady := rfl
      rw [hnext, hheard.1]
      exact OneQueue.empty_of_deq _ hheard.2

end MmuRun
end VentusDriver.Rtl
