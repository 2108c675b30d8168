import VentusDriver.Driver.BufferRuns

/-! Freeing a buffer. `releaseMemory` joins the neighbours of the item correctly, wherever it stands
in the list, but it then erases the entry of the whole context. -/
namespace VentusDriver
open Foundation Linked
namespace Manager

/-- The release of the buffer at `v` in the context `c` frees this buffer and no other. -/
structure FreesOnly (m : Manager) (c k v size : ℕ) (m' : Manager) : Prop where
  result : m.releaseMemory c k v size = .ok (0, m')
  exists_still : c ∈ m'.cxtMem
  list : ∀ l, m.HasList c l → m'.HasList c (l.filter fun p => (m.heap p).vaddr ≠ v)
  inverse : ∀ l, m'.HasList c l → ∀ p ∈ l, ∀ q ∈ l,
    (m'.heap p).succ = some q ↔ (m'.heap q).prev = some p
  others : ∀ c', c' ≠ c → ∀ l, m'.HasList c' l ↔ m.HasList c' l
  remaining : ∀ l, m.HasList c l → ∀ p ∈ l, (m.heap p).vaddr ≠ v →
    (∀ k' paddr, ∃ m'', m'.attachPaddr k' c (m.heap p).vaddr paddr = .ok (0, m'')) ∧
      ∀ k' size', ∃ m'', m'.releaseMemory c k' (m.heap p).vaddr size' = .ok (0, m'')

/-- What a release of the item `p` of the list `l` does: the other items form a chain, but the
context and with it the way to them is lost. -/
structure DropsContext (m : Manager) (c : ℕ) (l : List ℕ) (p : ℕ) (m' : Manager) : Prop where
  gone : c ∉ m'.cxtMem
  chain : Chain (links m'.heap) (l.erase p).head? (l.erase p)
  data : ∀ q, (m'.heap q).data = (m.heap q).data
  others : ∀ c', c' ≠ c → ∀ l', m'.HasList c' l' ↔ m.HasList c' l'
  attach : ∀ k v paddr, m'.attachPaddr k c v paddr = .error .outOfRange
  release : ∀ k v size, m'.releaseMemory c k v size = .error .outOfRange

section Release
variable {m m' : Manager} {c k v size : ℕ}

/-- A context that does not exist has no buffers to attach or to release. -/
lemma lost_of_not_mem (h : c ∉ m.cxtMem) :
    (∀ k v paddr, m.attachPaddr k c v paddr = .error .outOfRange) ∧
      ∀ k v size, m.releaseMemory c k v size = .error .outOfRange := by
  have hget : m.cxtMem[c]? = none := by simpa using h
  constructor
  · intro k v paddr
    simp [attachPaddr, hget]
  · intro k v size
    simp [releaseMemory, hget]

theorem released_dropsContext (h : m.WellLinked) {p : ℕ} {l : List ℕ} (hl : m.HasList c l)
    (hp : p ∈ l) : DropsContext m c l p (m.released c p) := by
  have hnot := released_not_mem m c p
  refine ⟨hnot, ?_, unlink_data m.heap p, fun c' hne l' => released_hasList h hl hp hne,
    (lost_of_not_mem hnot).1, (lost_of_not_mem hnot).2⟩
  obtain ⟨pre, post, rfl⟩ := List.append_of_mem hp
  have hnodup := h.nodup c _ hl
  have hpre : p ∉ pre := fun hmem => List.disjoint_of_nodup_append hnodup hmem List.mem_cons_self
  obtain ⟨head, -, hchain⟩ := hl
  rw [List.erase_append_right _ hpre, List.erase_cons_head]
  exact unlink_chain hchain hnodup

lemma releaseMemory_ok (h : m.WellLinked) (heq : m.releaseMemory c k v size = .ok (0, m')) :
    ∃ l p, m.HasList c l ∧ p ∈ l ∧ (m.heap p).vaddr = v ∧ m' = m.released c p := by
  rcases releaseMemory_cases h c k v size with ⟨l, p, hl, hp, hv, hok⟩ | ⟨-, e, -, herr⟩
  · rw [hok] at heq
    obtain ⟨-, rfl⟩ := Prod.mk.inj (Except.ok.inj heq)
    exact ⟨l, p, hl, hp, hv, rfl⟩
  · rw [herr] at heq
    cases heq

lemma not_freesOnly (h : m.WellLinked) : ¬ FreesOnly m c k v size m' := by
  intro hfree
  obtain ⟨l, p, -, -, -, rfl⟩ := releaseMemory_ok h hfree.result
  exact released_not_mem m c p hfree.exists_still

end Release
end Manager

namespace ManagerState
variable {s : ManagerState}

/-- In no reachable state does a release free one buffer only: when it succeeds it drops the
context of the buffer. -/
theorem release_drops_context (h : managerSystem.Reachable s) (c k v size : ℕ) :
    (∀ m', ¬ s.mgr.FreesOnly c k v size m') ∧
      ∀ m', s.mgr.releaseMemory c k v size = .ok (0, m') → ∃ l p, s.mgr.HasList c l ∧ p ∈ l ∧
        (s.mgr.heap p).vaddr = v ∧ s.mgr.DropsContext c l p m' := by
  have hwell := wellLinked_of_reachable h
  refine ⟨fun m' => Manager.not_freesOnly hwell, fun m' heq => ?_⟩
  obtain ⟨l, p, hl, hp, hv, rfl⟩ := Manager.releaseMemory_ok hwell heq
  exact ⟨l, p, hl, hp, hv, Manager.released_dropsContext hwell hl hp⟩

/-- Two buffers of one context. -/
def twoBuffers : ManagerState :=
  [.createNewContext 0, .allocMemory 0 0 4096 .readWrite, .allocMemory 0 0 4096 .readWrite].foldl
    exec ⟨Manager.new, []⟩

lemma twoBuffers_reachable : managerSystem.Reachable twoBuffers :=
  (TransitionSystem.ReachableBy.start rfl).foldl (fun _ _ => rfl) fun _ _ _ => trivial

theorem release_drops_context_twoBuffers :
    (⟨0, .readWrite, 0x60000000, 4096⟩ : Buffer) ∈ twoBuffers.live ∧
      ∀ m', ¬ twoBuffers.mgr.FreesOnly 0 0 0x60000000 4096 m' :=
  ⟨by decide +kernel, (release_drops_context twoBuffers_reachable 0 0 0x60000000 4096).1⟩

/-- After the release of the first buffer the second one is not found any more. -/
theorem release_loses_second : managerSystem.Reachable twoBuffers ∧
    twoBuffers.live = [⟨0, .readWrite, 0x60001000, 4096⟩, ⟨0, .readWrite, 0x60000000, 4096⟩] ∧
    (∀ m', ¬ twoBuffers.mgr.FreesOnly 0 0 0x60000000 4096 m') ∧
    ∃ m', twoBuffers.mgr.releaseMemory 0 0 0x60000000 4096 = .ok (0, m') ∧
      m'.attachPaddr 0 0 0x60001000 0 = .error .outOfRange := by
  have hwell := wellLinked_of_reachable twoBuffers_reachable
  refine ⟨twoBuffers_reachable, by decide +kernel, fun m' => Manager.not_freesOnly hwell, ?_⟩
  have hone : twoBuffers.mgr.HasList 0 [0, 1] := ⟨some 0, by decide +kernel, rfl, by decide +kernel,
    show (twoBuffers.mgr.heap 0).succ = some 1 by decide +kernel, by decide +kernel,
    show (twoBuffers.mgr.heap 1).succ = none by decide +kernel⟩
  rcases Manager.releaseMemory_cases hwell 0 0 0x60000000 4096 with ⟨l, p, -, -, -, heq⟩ | ⟨hnone, -⟩
  · exact ⟨_, heq, (Manager.lost_of_not_mem (Manager.released_not_mem _ _ _)).1 _ _ _⟩
  · exact absurd (by decide +kernel) (hnone _ hone 0 (by simp))

end ManagerState
end VentusDriver
