import VentusDriver.Driver.Segments

/-! Runs of the address manager, with the buffers that were handed out and not yet freed. A call
that throws leaves the manager as it was. -/
namespace VentusDriver
open Foundation Intervals

structure Buffer where
  context : ℕ
  bufType : BufferType
  vaddr : ℕ
  size : ℕ
  deriving DecidableEq, Repr

structure ManagerState where
  mgr : Manager
  live : List Buffer

inductive ManagerOp
  | createNewContext (contextID : ℕ)
  | allocMemory (contextID kernelID size : ℕ) (bufType : BufferType)
  | attachPaddr (kernelID contextID vaddr paddr : ℕ)
  | releaseMemory (contextID kernelID vaddr size : ℕ)

namespace ManagerState

def exec (s : ManagerState) : ManagerOp → ManagerState
  | .createNewContext c =>
    match s.mgr.createNewContext c with
    | .error _ => s
    | .ok mgr => { s with mgr := mgr }
  | .allocMemory c k size bufType =>
    match s.mgr.allocMemory c k size bufType with
    | .error _ => s
    | .ok (vaddr, mgr) => ⟨mgr, ⟨c, bufType, vaddr, size⟩ :: s.live⟩
  | .attachPaddr k c vaddr paddr =>
    match s.mgr.attachPaddr k c vaddr paddr with
    | .error _ => s
    | .ok (_, mgr) => { s with mgr := mgr }
  | .releaseMemory c k vaddr size =>
    match s.mgr.releaseMemory c k vaddr size with
    | .error _ => s
    | .ok (_, mgr) => ⟨mgr, s.live.eraseP fun b => b.context = c ∧ b.vaddr = vaddr⟩

end ManagerState

def managerSystem : TransitionSystem ManagerState ManagerOp where
  init s := s = ⟨Manager.new, []⟩
  step s op t := t = s.exec op

namespace ManagerState
variable {s t : ManagerState}

lemma exec_wellLinked (h : s.mgr.WellLinked) (op : ManagerOp) : (s.exec op).mgr.WellLinked := by
  cases op with
  | createNewContext c =>
    simp only [exec]
    split
    · exact h
    · next mgr heq => exact (Manager.createNewContext_wellLinked h heq).1
  | allocMemory c k size bufType =>
    simp only [exec]
    split
    · exact h
    · next v mgr heq =>
      obtain ⟨l, l', -, -, hwell⟩ := Manager.allocMemory_added h heq
      exact hwell
  | attachPaddr k c v paddr =>
    simp only [exec]
    rcases Manager.attachPaddr_cases h k c v paddr with ⟨l, p, -, -, -, heq⟩ | ⟨-, e, -, heq⟩
    · rw [heq]
      exact Manager.attached_wellLinked h p paddr
    · rw [heq]
      exact h
  | releaseMemory c k v size =>
    simp only [exec]
    rcases Manager.releaseMemory_cases h c k v size with ⟨l, p, hl, hp, -, heq⟩ | ⟨-, e, -, heq⟩
    · rw [heq]
      exact Manager.released_wellLinked h hl hp
    · rw [heq]
      exact h

/-- In every run the lists of all contexts are well linked. -/
theorem wellLinked_of_reachable (h : managerSystem.Reachable s) : s.mgr.WellLinked := by
  refine h.invariant (I := fun s => s.mgr.WellLinked) ?_ ?_
  · rintro s rfl
    exact Manager.new_wellLinked
  · rintro s op t hs - rfl
    exact exec_wellLinked hs op

/-! ### Segments -/

/-- Live buffers of a context are disjoint and lie in the segments of their types, and the lists
ascend. -/
structure SegmentsHold (s : ManagerState) : Prop where
  disjoint : s.live.Pairwise fun b b' => b.context = b'.context →
    b.vaddr + b.size ≤ b'.vaddr ∨ b'.vaddr + b'.size ≤ b.vaddr
  inside : ∀ b ∈ s.live, (Manager.segment b.bufType).1 ≤ b.vaddr ∧
    b.vaddr + b.size ≤ (Manager.segment b.bufType).1 + 0x20000000
  list : ∀ c ∈ s.mgr.cxtMem, ∃ l, s.mgr.HasList c l
  ascending : ∀ c l, s.mgr.HasList c l →
    l.Pairwise fun p q => (s.mgr.heap p).vaddr < (s.mgr.heap q).vaddr

/-- The list has the item of the buffer. -/
def Listed (m : Manager) (b : Buffer) (l : List ℕ) : Prop :=
  ∃ p ∈ l, (m.heap p).vaddr = b.vaddr ∧ (m.heap p).size = alignedSize b.size blockSize

/-- Sizes that are not zero and lie below the size of a segment. -/
def SizeOk (_ : ManagerState) : ManagerOp → Prop
  | .allocMemory _ _ size _ => 0 < size ∧ size < 0x20000000
  | _ => True

/-- An allocation for which the list of the context fits and still has the live buffers of the
same type. -/
def Safe (s : ManagerState) : ManagerOp → Prop
  | .allocMemory c _ size bufType => (0 < size ∧ size < 0x20000000) ∧
      ∀ l, s.mgr.HasList c l → alignedSize size blockSize < 0x20000000 →
        s.mgr.Fits bufType (alignedSize size blockSize) l ∧
          ∀ b ∈ s.live, b.context = c → b.bufType = bufType → Listed s.mgr b l
  | _ => True

end ManagerState

/-- The end of the bytes that a buffer occupies. -/
def Buffer.stop (b : Buffer) : ℕ := b.vaddr + alignedSize b.size blockSize

def Buffer.Apart (b b' : Buffer) : Prop :=
  b.context = b'.context → b.stop ≤ b'.vaddr ∨ b'.stop ≤ b.vaddr

/-- A buffer inside the segment of its type. -/
structure Buffer.Inside (b : Buffer) : Prop where
  small : b.size < 0x20000000
  lower : (Manager.segment b.bufType).1 ≤ b.vaddr
  upper : b.stop ≤ (Manager.segment b.bufType).1 + 0x20000000

lemma Buffer.Inside.end_le_stop {b : Buffer} (h : b.Inside) : b.vaddr + b.size ≤ b.stop :=
  Nat.add_le_add_left (Manager.alignedSize_bounds h.small).1 _

lemma segments_apart {T T' : BufferType} (hne : T ≠ T') :
    (Manager.segment T).1 + 0x20000000 ≤ (Manager.segment T').1 ∨
      (Manager.segment T').1 + 0x20000000 ≤ (Manager.segment T).1 := by
  cases T <;> cases T' <;> first | exact absurd rfl hne | decide

namespace ManagerState
variable {s t : ManagerState}

structure Ordered (s : ManagerState) : Prop where
  wellLinked : s.mgr.WellLinked
  lists : ∀ c l, s.mgr.HasList c l → Manager.OrderedList s.mgr.heap l
  apart : s.live.Pairwise Buffer.Apart
  inside : ∀ b ∈ s.live, b.Inside

theorem Ordered.segmentsHold (h : Ordered s) : SegmentsHold s := by
  refine ⟨?_, ?_, h.wellLinked.list, ?_⟩
  · refine List.Pairwise.imp_of_mem ?_ h.apart
    intro b b' hb hb' hapart hc
    have hend := (h.inside b hb).end_le_stop
    have hend' := (h.inside b' hb').end_le_stop
    exact (hapart hc).imp hend.trans hend'.trans
  · intro b hb
    exact ⟨(h.inside b hb).lower, (h.inside b hb).end_le_stop.trans (h.inside b hb).upper⟩
  · intro c l hl
    have hord := h.lists c l hl
    refine List.Pairwise.imp_of_mem ?_ hord.ascending
    intro p q hp hq hpq
    have hlimit : (s.mgr.heap p).limit ≤ (s.mgr.heap q).vaddr := hpq
    have hpos := (hord.item p hp).pos
    rw [Item.limit] at hlimit
    omega

lemma Ordered.createNewContext (h : Ordered s) {c : ℕ} {mgr : Manager}
    (heq : s.mgr.createNewContext c = .ok mgr) : Ordered { s with mgr := mgr } := by
  obtain ⟨hwell, -, hnil, hother⟩ := Manager.createNewContext_wellLinked h.wellLinked heq
  refine ⟨hwell, ?_, h.apart, h.inside⟩
  intro c' l hl
  by_cases hne : c' = c
  · subst hne
    rw [hl.unique hnil]
    exact ⟨List.Pairwise.nil, by simp, by simp, by simp⟩
  · have hheap : mgr.heap = s.mgr.heap := by
      unfold Manager.createNewContext at heq
      split_ifs at heq
      rw [← Except.ok.inj heq]
    rw [hheap]
    exact h.lists c' l ((hother c' l hne).mp hl)

lemma Ordered.attached (h : Ordered s) (p paddr : ℕ) :
    Ordered { s with mgr := s.mgr.attached p paddr } := by
  refine ⟨Manager.attached_wellLinked h.wellLinked p paddr, ?_, h.apart, h.inside⟩
  intro c l hl
  apply (h.lists c l (Manager.attached_hasList.mp hl)).congr
  · intro q _
    exact (Manager.attached_heap s.mgr p paddr q).2.2.1
  · intro q _
    exact (Manager.attached_heap s.mgr p paddr q).2.2.2.1

lemma Ordered.released (h : Ordered s) {c p : ℕ} {l : List ℕ} (hl : s.mgr.HasList c l) (hp : p ∈ l)
    {live : List Buffer} (hlive : live.Sublist s.live) : Ordered ⟨s.mgr.released c p, live⟩ := by
  refine ⟨Manager.released_wellLinked h.wellLinked hl hp, ?_, h.apart.sublist hlive, ?_⟩
  · intro c' l' hl'
    have hne : c' ≠ c := by
      rintro rfl
      exact Manager.released_not_mem s.mgr c' p hl'.mem
    have hl₀ := (Manager.released_hasList h.wellLinked hl hp hne).mp hl'
    apply (h.lists c' l' hl₀).congr
    · intro q _
      exact Item.data_vaddr (Manager.unlink_data s.mgr.heap p q)
    · intro q _
      exact Item.data_size (Manager.unlink_data s.mgr.heap p q)
  · intro b hb
    exact h.inside b (hlive.subset hb)

lemma Ordered.allocMemory (h : Ordered s) {c k size v : ℕ} {bufType : BufferType} {mgr : Manager}
    (hsafe : Safe s (.allocMemory c k size bufType))
    (heq : s.mgr.allocMemory c k size bufType = .ok (v, mgr)) :
    Ordered ⟨mgr, ⟨c, bufType, v, size⟩ :: s.live⟩ := by
  obtain ⟨⟨hpos, hsmall⟩, hlists⟩ := hsafe
  have hlimit := (Manager.allocMemory_cases h.wellLinked heq).2.1
  obtain ⟨l, l', hl, -, hwell⟩ := Manager.allocMemory_added h.wellLinked heq
  obtain ⟨hord, hlow, hhigh, hfree⟩ := Manager.allocMemory_ordered h.wellLinked h.lists hpos hsmall
    (fun l hl => (hlists l hl hlimit).1) heq
  have hinside : Buffer.Inside ⟨c, bufType, v, size⟩ := ⟨hsmall, hlow, hhigh⟩
  refine ⟨hwell, hord, List.pairwise_cons.mpr ⟨?_, h.apart⟩, ?_⟩
  · intro b hb hcontext
    by_cases htype : b.bufType = bufType
    · obtain ⟨p, hp, hpv, hps⟩ := (hlists l hl hlimit).2 b hb hcontext.symm htype
      have hplimit : (s.mgr.heap p).limit = b.stop := by rw [Item.limit, hpv, hps, Buffer.stop]
      have hside := hfree l hl p hp
      rw [hplimit, hpv] at hside
      exact hside.symm
    · have hb' := h.inside b hb
      cases segments_apart htype with
      | inl hbelow =>
        exact .inr (hb'.upper.trans (hbelow.trans hlow))
      | inr habove =>
        exact .inl (hhigh.trans (habove.trans hb'.lower))
  · intro b hb
    cases hb with
    | head => exact hinside
    | tail _ hb => exact h.inside b hb

lemma Ordered.exec (h : Ordered s) {op : ManagerOp} (hsafe : Safe s op) : Ordered (s.exec op) := by
  cases op with
  | createNewContext c =>
    simp only [ManagerState.exec]
    split
    · exact h
    · next mgr heq => exact h.createNewContext heq
  | allocMemory c k size bufType =>
    simp only [ManagerState.exec]
    split
    · exact h
    · next v mgr heq => exact h.allocMemory hsafe heq
  | attachPaddr k c v paddr =>
    simp only [ManagerState.exec]
    rcases Manager.attachPaddr_cases h.wellLinked k c v paddr with ⟨l, p, -, -, -, heq⟩ | ⟨-, e, -, heq⟩
    · rw [heq]
      exact h.attached p paddr
    · rw [heq]
      exact h
  | releaseMemory c k v size =>
    simp only [ManagerState.exec]
    rcases Manager.releaseMemory_cases h.wellLinked c k v size with ⟨l, p, hl, hp, -, heq⟩ | ⟨-, e, -, heq⟩
    · rw [heq]
      exact h.released hl hp List.eraseP_sublist
    · rw [heq]
      exact h

/-- In a run of safe calls the buffers keep to their segments. -/
theorem segments_of_safe (h : managerSystem.ReachableBy Safe s) : SegmentsHold s := by
  apply Ordered.segmentsHold
  apply h.invariant
  · rintro s rfl
    refine ⟨Manager.new_wellLinked, ?_, List.Pairwise.nil, by simp⟩
    intro c l hl
    exact absurd hl (Manager.new_no_list c l)
  · rintro s op t hs hsafe rfl
    exact hs.exec hsafe

/-- A read-write buffer, and a read-only one in front of it. -/
theorem segments_of_safe_twoBuffers : ∃ s, s.live.map Buffer.vaddr = [0x40000000, 0x60000000] ∧
    SegmentsHold s := by
  let s₀ : ManagerState := ⟨Manager.new, []⟩
  let s₁ := s₀.exec (.createNewContext 0)
  let s₂ := s₁.exec (.allocMemory 0 0 4096 .readWrite)
  let s₃ := s₂.exec (.allocMemory 0 0 4096 .readOnly)
  have h₀ : managerSystem.ReachableBy Safe s₀ := .start rfl
  have h₁ : managerSystem.ReachableBy Safe s₁ := h₀.next (l := .createNewContext 0) trivial rfl
  have h₂ : managerSystem.ReachableBy Safe s₂ := by
    refine h₁.next (l := .allocMemory 0 0 4096 .readWrite) ⟨by decide, fun l hl _ => ?_⟩ rfl
    have hnil : s₁.mgr.HasList 0 [] := ⟨none, by decide +kernel, rfl⟩
    rw [hl.unique hnil]
    exact ⟨.inl (by simp), by simp [s₁, s₀, exec, Manager.createNewContext, Manager.new]⟩
  have hlive : s₂.live = [⟨0, .readWrite, 0x60000000, 4096⟩] := by decide +kernel
  have h₃ : managerSystem.ReachableBy Safe s₃ := by
    refine h₂.next (l := .allocMemory 0 0 4096 .readOnly) ⟨by decide, fun l hl _ => ?_⟩ rfl
    have hone : s₂.mgr.HasList 0 [0] := ⟨some 0, by decide +kernel, rfl, by decide +kernel,
      show (s₂.mgr.heap 0).succ = none by decide +kernel⟩
    rw [hl.unique hone]
    refine ⟨?_, by simp [hlive]⟩
    have hhead : (s₂.mgr.heap 0).vaddr < bufParaBase := by decide +kernel
    simpa [Manager.Fits] using hhead
  exact ⟨s₃, by decide +kernel, segments_of_safe h₃⟩

/-- Behind a kernel item every read-only buffer goes to the same address. -/
theorem kernel_first_overlaps : ∃ s, managerSystem.ReachableBy SizeOk s ∧ ¬ SegmentsHold s := by
  let ops : List ManagerOp := [.createNewContext 0, .allocMemory 0 0 4096 .kernelMem,
    .allocMemory 0 0 4096 .readOnly, .allocMemory 0 0 4096 .readOnly]
  have hlive : (ops.foldl exec ⟨Manager.new, []⟩).live = [⟨0, .readOnly, 0x40000000, 4096⟩,
      ⟨0, .readOnly, 0x40000000, 4096⟩, ⟨0, .kernelMem, 0x80000000, 4096⟩] := by decide +kernel
  refine ⟨ops.foldl exec ⟨Manager.new, []⟩, ?_, fun h => ?_⟩
  · refine (TransitionSystem.ReachableBy.start rfl).foldl (fun _ _ => rfl) fun op hop s => ?_
    cases op with
    | allocMemory c k size bufType =>
      have hsize : size = 4096 := by simp only [ops] at hop; simp at hop; tauto
      subst hsize
      exact ⟨by decide, by decide⟩
    | _ => trivial
  · have hdisjoint := h.disjoint
    rw [hlive] at hdisjoint
    have := List.rel_of_pairwise_cons hdisjoint (List.mem_cons_self ..) rfl
    simp at this

end ManagerState
end VentusDriver
