import VentusDriver.Rtl.ReadyHost

/-! Every response is the answer to a request of its own, and an empty unit has answered all requests.
This needs a host that takes its responses at once, or at least that the last walker gives up the
entry that it sends; where it gives up another one, a request is lost for good. -/
namespace VentusDriver.Rtl
open Foundation Foundation.TagTable

/-- No request is in the unit. -/
structure MMU.Drained (u : MMU) : Prop where
  tlb : u.tlb.reqFifo.maybeFull = false ∧ u.tlb.rspFifo.maybeFull = false
  l2tlb : u.l2tlb.reqFifo.maybeFull = false ∧ u.l2tlb.rspFifo.maybeFull = false
  ptw : ∀ i, u.ptw.state i = .idle
  llptw : ∀ i, u.llptw.state i = .idle

namespace Walker
variable {Entry : Type} {T D : Entry → AddrBits} {w : Walker Entry}

lemma tokens_eq_zero : tokens T D w = 0 ↔ ∀ i, w.state i = .idle := by
  rw [tokens, weigh, Finset.sum_eq_zero_iff]
  constructor
  · intro h i
    have hi := h i (Finset.mem_univ i)
    cases hs : w.state i <;> simp [slots, tokenOf, hs] at hi
    rfl
  · intro h i _
    simp [slots, tokenOf, h i]

end Walker

namespace MmuRun
variable {mem : BitVec 64 → BitVec 64} {s : MmuRun} {c : MmuCycle}

lemma held_eq_zero {u : MMU} : held mem u = 0 ↔ u.Drained := by
  simp only [held, add_eq_zero, Multiset.map_eq_zero, OneQueue.held_eq_zero, Walker.tokens_eq_zero]
  constructor
  · intro h
    obtain ⟨⟨⟨⟨⟨h1, h2⟩, h3⟩, h4⟩, h5⟩, h6⟩ := h
    exact ⟨⟨h1, h6⟩, ⟨h2, h5⟩, h3, h4⟩
  · intro h
    exact ⟨⟨⟨⟨⟨h.tlb.1, h.l2tlb.1⟩, h.ptw⟩, h.llptw⟩, h.l2tlb.2⟩, h.tlb.2⟩

/-- The environment of the unit, in cycles where the last walker gives up what it sends. -/
def FairInOrder (s : MmuRun) (c : MmuCycle) : Prop := s.Fair c ∧ s.RspInOrder c

theorem sound_of_inOrder (h : (mmuSystem mem).ReachableBy FairInOrder s) : s.Sound mem := by
  refine h.invariant ?_ ?_
  · intro s hinit
    obtain ⟨power, io, rfl⟩ := hinit
    exact sound_reset power io
  · intro s c t hs hguard hstep
    rw [hstep]
    exact hs.exec hguard.1 hguard.2

theorem sound_of_ready (h : (mmuSystem mem).ReachableBy FairReady s) : s.Sound mem ∧ s.Brisk := by
  refine h.invariant (I := fun s => s.Sound mem ∧ s.Brisk) ?_ ?_
  · intro s hinit
    obtain ⟨power, io, rfl⟩ := hinit
    exact ⟨sound_reset power io, brisk_reset power io⟩
  · intro s c t hs hguard hstep
    rw [hstep]
    exact ⟨hs.1.exec hguard.1 hs.2.inOrder, hs.2.exec hs.1 hguard.2⟩

/-- With a host that is always ready, the last walker gives up what it sends. -/
theorem inOrder_of_ready (h : (mmuSystem mem).ReachableBy FairReady s) :
    (mmuSystem mem).ReachableBy FairInOrder s :=
  h.replace fun _ _ hreach hguard => ⟨hguard.1, (sound_of_ready hreach).2.inOrder⟩

/-- Responses are answers to distinct requests, and all of them once the unit is empty. -/
def Answers (mem : BitVec 64 → BitVec 64) (s : MmuRun) : Prop :=
  s.answered ≤ s.accepted.map (answer mem) ∧
    (s.mmu.Drained → s.answered = s.accepted.map (answer mem))

lemma Sound.answers (h : s.Sound mem) : s.Answers mem := by
  constructor
  · rw [h.books]
    exact Multiset.le_add_right _ _
  · intro hdrained
    rw [h.books, held_eq_zero.mpr hdrained, add_zero]

/-- A host that is always ready gets for every request the leaf of its walk, once and with its tag. -/
theorem answers_of_ready (h : (mmuSystem mem).ReachableBy FairReady s) : s.Answers mem :=
  (sound_of_ready h).1.answers

/-! ### A run -/

instance (s : MmuRun) (c : MmuCycle) : Decidable (s.Honest c) := inferInstanceAs (Decidable (_ → _))
instance (s : MmuRun) (c : MmuCycle) : Decidable (s.FreshTag c) := inferInstanceAs (Decidable (_ → _))
instance (s : MmuRun) (c : MmuCycle) : Decidable (s.RspInOrder c) := inferInstanceAs (Decidable (_ → _))
instance (s : MmuRun) (c : MmuCycle) : Decidable (s.Fair c) := inferInstanceAs (Decidable (_ ∧ _))
instance (s : MmuRun) (c : MmuCycle) : Decidable (s.FairReady c) := inferInstanceAs (Decidable (_ ∧ _))
instance (s : MmuRun) (c : MmuCycle) : Decidable (s.FairInOrder c) := inferInstanceAs (Decidable (_ ∧ _))

/-- Three tables, whose first entries lead from one to the next and to a page. -/
def sampleMem (a : BitVec 64) : BitVec 64 :=
  if a = 0x1000#64 then 0x800#64 else if a = 0x2000#64 then 0xc00#64
  else if a = 0x3000#64 then 0xabc#64 else 0#64

/-- A cycle in which memory takes every read. -/
def cycle (ready : Bool) (req : Option TlbBits) (rsp : Option MemReqBits) : MmuCycle :=
  ⟨⟨req.isSome, req.getD ⟨0, 0, 0⟩⟩, ready, true, ⟨rsp.isSome, rsp.getD ⟨0, 0⟩⟩⟩

/-- Nothing is known of the registers at power up. -/
def powerUp : MMU where
  tlb := ⟨⟨⟨0, 0, 0⟩, true⟩, ⟨⟨0, 0⟩, true⟩⟩
  l2tlb := ⟨⟨⟨0, 0, 0⟩, true⟩, ⟨⟨0, 0⟩, true⟩⟩
  ptw := ⟨.of fun _ => ⟨0, 0, 0, 0⟩, .of fun _ => .done, .powerUp, .powerUp⟩
  llptw := ⟨.of fun _ => ⟨0, 0⟩, .of fun _ => .done, .powerUp, .powerUp⟩
  pageCache := ⟨⟨⟨0, 0⟩, true⟩, ⟨⟨0, 0⟩, true⟩⟩
  llPageCache := ⟨⟨⟨0, 0⟩, true⟩, ⟨⟨0, 0⟩, true⟩⟩

def start : MmuRun := ⟨powerUp.next (input sampleMem (cycle true none none)) true, 0, 0, 0⟩

/-- Run the cycles from the reset on while each meets the guard. -/
def play (guard : MmuRun → MmuCycle → Prop) [∀ s c, Decidable (guard s c)] (cycles : List MmuCycle) :
    Option MmuRun :=
  TransitionSystem.follow guard (fun s c => some (s.exec sampleMem c)) cycles start

lemma reachable_of_play {guard : MmuRun → MmuCycle → Prop} [∀ s c, Decidable (guard s c)]
    {cycles : List MmuCycle} (h : play guard cycles = some s) :
    (mmuSystem sampleMem).ReachableBy guard s := by
  have hstart : (mmuSystem sampleMem).ReachableBy guard start := .start ⟨powerUp, _, rfl⟩
  refine hstart.follow (fun s c t hst => ?_) h
  exact (Option.some.inj hst).symm

/-- A request with tag 1 and the three reads of its walk. -/
def oneWalk : List MmuCycle :=
  cycle true (some ⟨0, 1, 1⟩) none :: List.replicate 4 (cycle true none none) ++
    cycle true none (some ⟨0x1000, 5⟩) :: List.replicate 3 (cycle true none none) ++
    cycle true none (some ⟨0x2000, 5⟩) :: List.replicate 4 (cycle true none none) ++
    cycle true none (some ⟨0x3000, 1⟩) :: List.replicate 4 (cycle true none none)

theorem answers_of_oneWalk :
    ∃ s, play FairReady oneWalk = some s ∧ s.answered = {⟨0xabc, 1⟩} ∧ s.Answers sampleMem := by
  have hplay : (play FairReady oneWalk).map MmuRun.answered = some {⟨0xabc, 1⟩} := by decide +kernel
  obtain ⟨s, hs, hanswered⟩ := Option.map_eq_some_iff.mp hplay
  exact ⟨s, hs, hanswered, answers_of_ready (reachable_of_play hs)⟩

end MmuRun
end VentusDriver.Rtl
