import VentusDriver.Foundation.LinkedChain
import VentusDriver.Driver.Manager

/-! The item lists of the address manager. In every run each context has a chain of distinct items
with mutually inverse links; an allocation adds one item to the chain of its context. -/
namespace VentusDriver
open Foundation Linked

/-- The fields of an item that no link update changes. -/
def Item.data (i : Item) : ℕ × ℕ × ℕ × Option ℕ × ℕ := (i.krlId, i.taskId, i.vaddr, i.paddr, i.size)

lemma Item.data_vaddr {i j : Item} (h : i.data = j.data) : i.vaddr = j.vaddr := by
  simp only [Item.data, Prod.mk.injEq] at h
  exact h.2.2.1

lemma Item.data_size {i j : Item} (h : i.data = j.data) : i.size = j.size := by
  simp only [Item.data, Prod.mk.injEq] at h
  exact h.2.2.2.2

lemma Item.data_taskId {i j : Item} (h : i.data = j.data) : i.taskId = j.taskId := by
  simp only [Item.data, Prod.mk.injEq] at h
  exact h.2.1

namespace Manager

section Values

lemma rodataBase_eq : rodataBase = 0x40000000 := rfl
lemma rwdataBase_eq : rwdataBase = 0x60000000 := rfl
lemma bufParaBase_eq : bufParaBase = 0x80000000 := rfl
lemma kernelEnd_eq : bufParaBase + globalmemSize / 2 = 0xA0000000 := rfl
lemma globalmemSize_eq : globalmemSize = 0x40000000 := rfl

end Values

section Updates
variable {heap : ℕ → Item} {p q : ℕ} {link : Option ℕ}

@[simp] lemma setPrev_prev : (setPrev heap p link q).prev = if q = p then link else (heap q).prev := by
  unfold setPrev
  by_cases h : q = p
  · subst h
    simp
  · simp [h]

@[simp] lemma setPrev_succ : (setPrev heap p link q).succ = (heap q).succ := by
  unfold setPrev
  by_cases h : q = p
  · subst h
    simp
  · simp [h]

@[simp] lemma setPrev_data : (setPrev heap p link q).data = (heap q).data := by
  unfold setPrev
  by_cases h : q = p
  · subst h
    simp [Item.data]
  · simp [h]

@[simp] lemma setSucc_succ : (setSucc heap p link q).succ = if q = p then link else (heap q).succ := by
  unfold setSucc
  by_cases h : q = p
  · subst h
    simp
  · simp [h]

@[simp] lemma setSucc_prev : (setSucc heap p link q).prev = (heap q).prev := by
  unfold setSucc
  by_cases h : q = p
  · subst h
    simp
  · simp [h]

@[simp] lemma setSucc_data : (setSucc heap p link q).data = (heap q).data := by
  unfold setSucc
  by_cases h : q = p
  · subst h
    simp [Item.data]
  · simp [h]

end Updates

/-- The links of the items on a heap. -/
def links (heap : ℕ → Item) : Links ℕ := ⟨fun p => (heap p).prev, fun p => (heap p).succ⟩

/-- The items of a context, in the order of its chain. -/
def HasList (m : Manager) (c : ℕ) (l : List ℕ) : Prop :=
  ∃ head, m.cxtMem[c]? = some head ∧ Chain (links m.heap) head l

/-- Every context has a chain of distinct items of its own, smaller than a segment. -/
structure WellLinked (m : Manager) : Prop where
  list : ∀ c, c ∈ m.cxtMem → ∃ l, m.HasList c l
  nodup : ∀ c l, m.HasList c l → l.Nodup
  item : ∀ c l, m.HasList c l → ∀ p ∈ l,
    p < m.next ∧ (m.heap p).taskId = c ∧ (m.heap p).size < 0x20000000

theorem HasList.unique {m : Manager} {c : ℕ} {l l' : List ℕ} (h : m.HasList c l)
    (h' : m.HasList c l') : l = l' := by
  obtain ⟨head, hget, hchain⟩ := h
  obtain ⟨head', hget', hchain'⟩ := h'
  obtain rfl := Option.some.inj (hget.symm.trans hget')
  exact hchain.unique hchain'

lemma HasList.mem {m : Manager} {c : ℕ} {l : List ℕ} (h : m.HasList c l) : c ∈ m.cxtMem := by
  obtain ⟨head, hget, -⟩ := h
  rw [Std.ExtTreeMap.mem_iff_isSome_getElem?, hget]
  rfl

lemma new_no_list (c : ℕ) (l : List ℕ) : ¬ Manager.new.HasList c l := by
  rintro ⟨head, hget, -⟩
  simp [Manager.new] at hget

lemma new_wellLinked : Manager.new.WellLinked := by
  refine ⟨?_, fun c l hl => absurd hl (new_no_list c l), fun c l hl => absurd hl (new_no_list c l)⟩
  intro c hc
  simp [Manager.new] at hc

/-- A chain has no more nodes than there are items. -/
lemma WellLinked.length_le {m : Manager} (h : m.WellLinked) {c : ℕ} {l : List ℕ}
    (hl : m.HasList c l) : l.length ≤ m.next := by
  have hsub : l ⊆ List.range m.next := fun p hp => List.mem_range.mpr (h.item c l hl p hp).1
  have := List.Subperm.length_le ((h.nodup c l hl).subperm hsub)
  simpa using this

/-! ### The loops -/

section Loops
variable {heap : ℕ → Item} {before : Option ℕ} {cur : ℕ} {rest : List ℕ}

/-- The items that the loop for a gap passes: below `bound`, and too close to their successors. -/
def Passed (heap : ℕ → Item) (bound size : ℕ) (pre : List ℕ) : Prop :=
  ∀ p ∈ pre, (heap p).vaddr < bound ∧
    ∃ q, (heap p).succ = some q ∧ (heap q).vaddr < u64 (endOf (heap p) + size)

/-- The reasons for the loop to stop at an item. -/
def StopsAt (heap : ℕ → Item) (bound size a : ℕ) : Prop :=
  bound ≤ (heap a).vaddr ∨ (heap a).succ = none ∨
    ∃ q, (heap a).succ = some q ∧ u64 (endOf (heap a) + size) ≤ (heap q).vaddr

theorem walkGap_spec (bound size : ℕ) {n : ℕ}
    (h : Segment (links heap) before (some cur) (cur :: rest) none) (hfuel : rest.length < n) :
    ∃ pre a post, cur :: rest = pre ++ a :: post ∧
      walkGap heap bound size n cur (endOf (heap cur)) = some (a, endOf (heap a)) ∧
      Passed heap bound size pre ∧ StopsAt heap bound size a := by
  induction n generalizing before cur rest with
  | zero => omega
  | succ n ih =>
    rw [walkGap]
    by_cases hbound : (heap cur).vaddr < bound
    · simp only [hbound, if_true]
      cases hsucc : (heap cur).succ with
      | none => exact ⟨[], cur, rest, rfl, rfl, by simp [Passed], .inr (.inl hsucc)⟩
      | some next =>
        by_cases hfits : u64 (endOf (heap cur) + size) ≤ (heap next).vaddr
        · simp only [hfits, if_true]
          exact ⟨[], cur, rest, rfl, rfl, by simp [Passed], .inr (.inr ⟨next, hsucc, hfits⟩)⟩
        · simp only [hfits, if_false]
          obtain ⟨-, -, hseg⟩ := h
          have hlink : (links heap).succ cur = some next := hsucc
          rw [hlink] at hseg
          cases rest with
          | nil => exact absurd hseg (by simp [Segment])
          | cons next' rest =>
            obtain rfl : next = next' := Option.some.inj hseg.1
            obtain ⟨pre, a, post, hlist, hres, hpre, hstop⟩ := ih hseg (by simpa using hfuel)
            refine ⟨cur :: pre, a, post, by rw [hlist]; rfl, hres, ?_, hstop⟩
            intro p hp
            cases List.mem_cons.mp hp with
            | inl heq =>
              subst heq
              exact ⟨hbound, next, hsucc, by omega⟩
            | inr hp =>
              exact hpre p hp
    · simp only [hbound, if_false]
      exact ⟨[], cur, rest, rfl, rfl, by simp [Passed], .inl (by omega)⟩

/-- The loop over the lower segments ends at the last item or at the first one at `bound`. -/
theorem skipBelow_spec (bound : ℕ) {n : ℕ}
    (h : Segment (links heap) before (some cur) (cur :: rest) none) (hfuel : rest.length < n) :
    ∃ pre a post flag, cur :: rest = pre ++ a :: post ∧
      skipBelow heap bound n cur = some (a, flag) ∧ (∀ p ∈ pre, (heap p).vaddr < bound) ∧
      (flag = true → post = [] ∧ (heap a).vaddr < bound) ∧
      (flag = false → bound ≤ (heap a).vaddr) := by
  induction n generalizing before cur rest with
  | zero => omega
  | succ n ih =>
    rw [skipBelow]
    by_cases hbound : (heap cur).vaddr < bound
    · simp only [hbound, if_true]
      obtain ⟨-, -, hseg⟩ := h
      cases hsucc : (heap cur).succ with
      | none =>
        have hlink : (links heap).succ cur = none := hsucc
        rw [hlink] at hseg
        cases rest with
        | nil => exact ⟨[], cur, [], true, rfl, rfl, by simp, fun _ => ⟨rfl, hbound⟩, by simp⟩
        | cons next rest => exact absurd hseg.1 (by simp)
      | some next =>
        have hlink : (links heap).succ cur = some next := hsucc
        rw [hlink] at hseg
        cases rest with
        | nil => exact absurd hseg (by simp [Segment])
        | cons next' rest =>
          obtain rfl : next = next' := Option.some.inj hseg.1
          obtain ⟨pre, a, post, flag, hlist, hres, hpre, hend, hstop⟩ :=
            ih hseg (by simpa using hfuel)
          refine ⟨cur :: pre, a, post, flag, by rw [hlist]; rfl, hres, ?_, hend, hstop⟩
          intro p hp
          cases List.mem_cons.mp hp with
          | inl heq =>
            subst heq
            exact hbound
          | inr hp =>
            exact hpre p hp
    · simp only [hbound, if_false]
      exact ⟨[], cur, rest, false, rfl, rfl, by simp, by simp, fun _ => by omega⟩

/-- The search returns, with an item at the address when there is one. -/
theorem findVaddr_spec (vaddr : ℕ) {n : ℕ} {head : Option ℕ} {l : List ℕ}
    (h : Segment (links heap) before head l none) (hfuel : l.length ≤ n) :
    (∃ p ∈ l, (heap p).vaddr = vaddr ∧ findVaddr heap vaddr n head = .ok (some p)) ∨
      ((∀ p ∈ l, (heap p).vaddr ≠ vaddr) ∧ findVaddr heap vaddr n head = .ok none) := by
  induction l generalizing before head n with
  | nil =>
    have hnone : head = none := h
    subst hnone
    exact .inr ⟨by simp, by cases n <;> rfl⟩
  | cons p l ih =>
    obtain ⟨rfl, -, hrest⟩ := h
    cases n with
    | zero => simp at hfuel
    | succ n =>
      rw [findVaddr]
      by_cases hv : (heap p).vaddr = vaddr
      · exact .inl ⟨p, List.mem_cons_self, hv, by simp [hv]⟩
      · simp only [hv, if_false]
        rcases ih hrest (by simpa using hfuel) with ⟨q, hq, hqv, hres⟩ | ⟨hnone, hres⟩
        · exact .inl ⟨q, List.mem_cons_of_mem _ hq, hqv, hres⟩
        · refine .inr ⟨fun q hq => ?_, hres⟩
          cases List.mem_cons.mp hq with
          | inl heq =>
            subst heq
            exact hv
          | inr hq =>
            exact hnone q hq

/-- A suffix of a chain is a segment that starts at its first node. -/
lemma segment_suffix {pre post : List ℕ} {head : Option ℕ} {a : ℕ}
    (h : Segment (links heap) before head (pre ++ a :: post) none) :
    ∃ before', Segment (links heap) before' (some a) (a :: post) none := by
  induction pre generalizing before head with
  | nil =>
    obtain ⟨rfl, hprev, hrest⟩ := h
    exact ⟨before, rfl, hprev, hrest⟩
  | cons p pre ih => exact ih h.2.2

end Loops

/-! ### The address of a new item -/

section Address
variable {m : Manager} {c root : ℕ} {rest : List ℕ}

lemma HasList.segment (hl : m.HasList c (root :: rest)) :
    Segment (links m.heap) none (some root) (root :: rest) none := by
  obtain ⟨head, -, hchain⟩ := hl
  obtain ⟨rfl, hprev, hrest⟩ := hchain
  exact ⟨rfl, hprev, hrest⟩

/-- What `allocVaddr` does for `READ_ONLY`. -/
theorem allocReadOnly_spec (h : m.WellLinked) (hl : m.HasList c (root :: rest)) (size : ℕ) :
    ((m.heap root).vaddr ≠ rodataBase ∧ m.allocReadOnly root size = .ok (root, rodataBase)) ∨
    ((m.heap root).vaddr = rodataBase ∧ ∃ pre a post, root :: rest = pre ++ a :: post ∧
      Passed m.heap rwdataBase size pre ∧ StopsAt m.heap rwdataBase size a ∧
      m.allocReadOnly root size =
        if lastBelow m.heap rwdataBase a = true ∧ rwdataBase < u64 (endOf (m.heap a) + size) then
          .error (noSpace size)
        else .ok (a, endOf (m.heap a))) := by
  have hlen := h.length_le hl
  rw [List.length_cons] at hlen
  by_cases hroot : (m.heap root).vaddr = rodataBase
  · right
    obtain ⟨pre, a, post, hlist, hres, hpre, hstop⟩ :=
      walkGap_spec rwdataBase size hl.segment (show rest.length < m.fuel by rw [fuel]; omega)
    refine ⟨hroot, pre, a, post, hlist, hpre, hstop, ?_⟩
    simp only [allocReadOnly, hroot, if_true, hres]
    by_cases hlast : lastBelow m.heap rwdataBase a = true
    · by_cases hfits : u64 (endOf (m.heap a) + size) ≤ rwdataBase
      · simp [hlast, hfits, Nat.not_lt.mpr hfits]
      · simp [hlast, hfits, Nat.lt_of_not_le hfits]
    · simp [hlast]
  · exact .inl ⟨hroot, by simp [allocReadOnly, hroot]⟩

/-- What `allocVaddr` does for the upper segments. -/
theorem allocAbove_spec (h : m.WellLinked) (hl : m.HasList c (root :: rest))
    (size base limit : ℕ) (skip : Bool) :
    (skip = true ∧ ∃ pre a, root :: rest = pre ++ [a] ∧
      (∀ p ∈ root :: rest, (m.heap p).vaddr < base) ∧
      m.allocAbove root size base limit skip = .ok (a, base)) ∨
    ∃ low pre a post, root :: rest = low ++ (pre ++ a :: post) ∧
      (∀ p ∈ low, (m.heap p).vaddr < base) ∧ (skip = false → low = []) ∧
      (skip = true → ∀ p ∈ (pre ++ a :: post).head?, base ≤ (m.heap p).vaddr) ∧
      Passed m.heap limit size pre ∧ StopsAt m.heap limit size a ∧
      m.allocAbove root size base limit skip =
        if (m.heap a).succ = none ∧ limit < u64 (endOf (m.heap a) + size) then
          .error (noSpace size)
        else .ok (a, endOf (m.heap a)) := by
  have hlen := h.length_le hl
  rw [List.length_cons] at hlen
  have hfuel : rest.length < m.fuel := by rw [fuel]; omega
  cases skip with
  | false =>
    right
    obtain ⟨pre, a, post, hlist, hres, hpre, hstop⟩ := walkGap_spec limit size hl.segment hfuel
    exact ⟨[], pre, a, post, hlist, by simp, fun _ => rfl, by simp, hpre, hstop,
      by simp [allocAbove, hres]⟩
  | true =>
    obtain ⟨low, first, others, flag, hlow, hskip, hbelow, hend, hfound⟩ :=
      skipBelow_spec base hl.segment hfuel
    cases flag with
    | true =>
      left
      obtain ⟨rfl, hlast⟩ := hend rfl
      refine ⟨rfl, low, first, hlow, ?_, by simp [allocAbove, hskip]⟩
      intro p hp
      rw [hlow, List.mem_append, List.mem_singleton] at hp
      cases hp with
      | inl hp =>
        exact hbelow p hp
      | inr heq =>
        subst heq
        exact hlast
    | false =>
      right
      have hsuffix := hl.segment
      rw [hlow] at hsuffix
      obtain ⟨before, hseg⟩ := segment_suffix hsuffix
      have hlen' : others.length ≤ rest.length := by
        have := congrArg List.length hlow
        simp only [List.length_cons, List.length_append] at this
        omega
      obtain ⟨pre, a, post, hlist, hres, hpre, hstop⟩ :=
        walkGap_spec limit size hseg (lt_of_le_of_lt hlen' hfuel)
      refine ⟨low, pre, a, post, by rw [hlow, hlist], hbelow, by simp, ?_, hpre, hstop,
        by simp [allocAbove, hskip, hres]⟩
      rw [← hlist]
      simpa using hfound

/-- The walk of an upper segment starts at the first item from its base on. -/
lemma allocAbove_walk (h : m.WellLinked) (hl : m.HasList c (root :: rest)) (size limit : ℕ)
    {base : ℕ} {skip : Bool} (hskip : skip = false → base ≤ (m.heap root).vaddr) :
    (∃ pre a, root :: rest = pre ++ [a] ∧ (∀ p ∈ root :: rest, (m.heap p).vaddr < base) ∧
      m.allocAbove root size base limit skip = .ok (a, base)) ∨
    ∃ low pre a post, root :: rest = low ++ (pre ++ a :: post) ∧
      (∀ p ∈ low, (m.heap p).vaddr < base) ∧
      (∀ p ∈ (pre ++ a :: post).head?, base ≤ (m.heap p).vaddr) ∧
      Passed m.heap limit size pre ∧ StopsAt m.heap limit size a ∧
      m.allocAbove root size base limit skip =
        if (m.heap a).succ = none ∧ limit < u64 (endOf (m.heap a) + size) then
          .error (noSpace size)
        else .ok (a, endOf (m.heap a)) := by
  rcases allocAbove_spec h hl size base limit skip with
    ⟨-, hnone⟩ | ⟨low, pre, a, post, hlist, hbelow, hnoskip, hfound, hpre, hstop, hres⟩
  · exact .inl hnone
  refine .inr ⟨low, pre, a, post, hlist, hbelow, ?_, hpre, hstop, hres⟩
  cases skip with
  | true => exact hfound rfl
  | false =>
    obtain rfl := hnoskip rfl
    rw [List.nil_append] at hlist
    rw [← hlist]
    intro p hp
    obtain rfl := Option.some.inj hp
    exact hskip rfl

/-- The new item goes behind an item of the list, or before the first one. -/
theorem allocVaddr_mem (h : m.WellLinked) (hl : m.HasList c (root :: rest)) {size a v : ℕ}
    {bufType : BufferType} (heq : m.allocVaddr root size bufType = .ok (a, v)) :
    a ∈ root :: rest ∧ ((a = root ∧ v = rodataBase) ∨ v = endOf (m.heap a) ∨ v = rwdataBase ∨
      v = bufParaBase) := by
  have habove : ∀ base limit skip, m.allocAbove root size base limit skip = .ok (a, v) →
      a ∈ root :: rest ∧ (v = endOf (m.heap a) ∨ v = base) := by
    intro base limit skip heq
    rcases allocAbove_spec h hl size base limit skip with
      ⟨-, pre, a', hlist, -, hres⟩ | ⟨low, pre, a', post, hlist, -, -, -, -, -, hres⟩
    · rw [heq] at hres
      obtain ⟨rfl, rfl⟩ := Prod.mk.inj (Except.ok.inj hres)
      exact ⟨by rw [hlist]; simp, .inr rfl⟩
    · rw [heq] at hres
      split_ifs at hres
      obtain ⟨rfl, rfl⟩ := Prod.mk.inj (Except.ok.inj hres)
      exact ⟨by rw [hlist]; simp, .inl rfl⟩
  cases bufType with
  | readOnly =>
    rcases allocReadOnly_spec h hl size with ⟨-, hres⟩ | ⟨-, pre, a', post, hlist, -, -, hres⟩
    · rw [allocVaddr, hres] at heq
      obtain ⟨rfl, rfl⟩ := Prod.mk.inj (Except.ok.inj heq)
      exact ⟨List.mem_cons_self, .inl ⟨rfl, rfl⟩⟩
    · rw [allocVaddr, hres] at heq
      split_ifs at heq
      obtain ⟨rfl, rfl⟩ := Prod.mk.inj (Except.ok.inj heq)
      exact ⟨by rw [hlist]; simp, .inr (.inl rfl)⟩
  | readWrite =>
    obtain ⟨hmem, hv⟩ := habove _ _ _ heq
    exact ⟨hmem, hv.elim (fun hv => .inr (.inl hv)) fun hv => .inr (.inr (.inl hv))⟩
  | kernelMem =>
    obtain ⟨hmem, hv⟩ := habove _ _ _ heq
    exact ⟨hmem, hv.elim (fun hv => .inr (.inl hv)) fun hv => .inr (.inr (.inr hv))⟩

end Address

/-! ### One more item -/

/-- What an allocation that succeeds has done to the lists. -/
structure Added (m : Manager) (c k v size : ℕ) (l l' : List ℕ) (m' : Manager) : Prop where
  list : m'.HasList c l'
  perm : l'.Perm (m.next :: l)
  next : m'.next = m.next + 1
  data : ∀ p, p ≠ m.next → (m'.heap p).data = (m.heap p).data
  item : (m'.heap m.next).data = (k, c, v, none, size)
  same : ∀ p, p ∉ l → p ≠ m.next → m'.heap p = m.heap p
  contexts : ∀ c', c' ≠ c → m'.cxtMem[c']? = m.cxtMem[c']?

section Insert
variable {m m' : Manager} {c k v size : ℕ} {l l' : List ℕ}

lemma mem_iff_exists {m : Manager} {c : ℕ} : c ∈ m.cxtMem ↔ ∃ head, m.cxtMem[c]? = some head := by
  rw [Std.ExtTreeMap.mem_iff_isSome_getElem?, Option.isSome_iff_exists]

/-- A context that keeps its head and its chains has no other chains. -/
lemma hasList_iff_of_keep (h : m.WellLinked) {c' : ℕ} {l₁ : List ℕ}
    (hget : m'.cxtMem[c']? = m.cxtMem[c']?) (hkeep : ∀ l₂, m.HasList c' l₂ → m'.HasList c' l₂) :
    m'.HasList c' l₁ ↔ m.HasList c' l₁ := by
  refine ⟨fun hl₁ => ?_, hkeep l₁⟩
  obtain ⟨head, hget'⟩ := mem_iff_exists.mp hl₁.mem
  obtain ⟨l₂, hl₂⟩ := h.list c' (mem_iff_exists.mpr ⟨head, hget.symm.trans hget'⟩)
  rwa [hl₁.unique (hkeep l₂ hl₂)]

/-- The chains of the other contexts do not meet the chain that grows. -/
lemma Added.hasList_other (h : m.WellLinked) (hl : m.HasList c l) (hadd : Added m c k v size l l' m')
    {c' : ℕ} (hne : c' ≠ c) {l₁ : List ℕ} : m'.HasList c' l₁ ↔ m.HasList c' l₁ := by
  have hkeep : ∀ l₂, m.HasList c' l₂ → m'.HasList c' l₂ := by
    intro l₂ hl₂
    have hsame : ∀ p ∈ l₂, m'.heap p = m.heap p := by
      intro p hp
      obtain ⟨hlt, htask, -⟩ := h.item c' l₂ hl₂ p hp
      refine hadd.same p (fun hp' => hne ?_) (by omega)
      exact htask.symm.trans (h.item c l hl p hp').2.1
    obtain ⟨head, hget, hchain⟩ := hl₂
    refine ⟨head, (hadd.contexts c' hne).trans hget, hchain.congr fun p hp => ?_⟩
    simp only [links, hsame p hp, and_self]
  exact hasList_iff_of_keep h (hadd.contexts c' hne) hkeep

theorem Added.wellLinked (h : m.WellLinked) (hl : m.HasList c l)
    (hadd : Added m c k v size l l' m') (hsize : size < 0x20000000) : m'.WellLinked := by
  have hnew : m.next ∉ l := fun hp => by
    have := (h.item c l hl _ hp).1
    omega
  refine ⟨?_, ?_, ?_⟩
  · intro c' hc'
    by_cases hne : c' = c
    · exact hne ▸ ⟨l', hadd.list⟩
    · obtain ⟨head, hget⟩ := mem_iff_exists.mp hc'
      rw [hadd.contexts c' hne] at hget
      obtain ⟨l₁, hl₁⟩ := h.list c' (mem_iff_exists.mpr ⟨head, hget⟩)
      exact ⟨l₁, (hadd.hasList_other h hl hne).mpr hl₁⟩
  · intro c' l₁ hl₁
    by_cases hne : c' = c
    · subst hne
      rw [hl₁.unique hadd.list]
      exact hadd.perm.nodup_iff.mpr (List.nodup_cons.mpr ⟨hnew, h.nodup c' l hl⟩)
    · exact h.nodup c' l₁ ((hadd.hasList_other h hl hne).mp hl₁)
  · intro c' l₁ hl₁ p hp
    have hold : ∀ c₂ l₂, m.HasList c₂ l₂ → p ∈ l₂ → p < m'.next ∧ (m'.heap p).taskId = c₂ ∧
        (m'.heap p).size < 0x20000000 := by
      intro c₂ l₂ hl₂ hp₂
      obtain ⟨hlt, htask, hlt'⟩ := h.item c₂ l₂ hl₂ p hp₂
      have hdata := hadd.data p (by omega)
      rw [Item.data_taskId hdata, Item.data_size hdata, hadd.next]
      exact ⟨by omega, htask, hlt'⟩
    by_cases hne : c' = c
    · subst hne
      rw [hl₁.unique hadd.list, hadd.perm.mem_iff] at hp
      cases List.mem_cons.mp hp with
      | inl heq =>
        subst heq
        have hitem := hadd.item
        simp only [Item.data, Prod.mk.injEq] at hitem
        exact ⟨by rw [hadd.next]; omega, hitem.2.1, by rw [hitem.2.2.2.2]; exact hsize⟩
      | inr hp =>
        exact hold c' l hl hp
    · exact hold c' l₁ ((hadd.hasList_other h hl hne).mp hl₁) hp

/-- The first item of a context. -/
lemma added_first (m : Manager) (c k v size : ℕ) :
    Added m c k v size [] [m.next]
      ⟨Function.update m.heap m.next ⟨none, none, k, c, v, none, size⟩, m.next + 1,
        m.cxtMem.insert c (some m.next)⟩ := by
  refine ⟨⟨some m.next, by simp, rfl, by simp [links], by simp [links, Segment]⟩, .refl _, rfl,
    ?_, by simp [Item.data], ?_, ?_⟩
  · intro p hp
    simp [hp]
  · intro p _ hp
    simp [hp]
  · intro c' hne
    rw [Std.ExtTreeMap.getElem?_insert, if_neg (by simpa using hne.symm)]

lemma HasList.succ_eq {pre post : List ℕ} {a : ℕ} (hl : m.HasList c l)
    (hlist : l = pre ++ a :: post) : (m.heap a).succ = post.head? := by
  obtain ⟨head, -, hchain⟩ := hl
  subst hlist
  exact Segment.succ_eq hchain

lemma HasList.ne_next (h : m.WellLinked) {l : List ℕ} (hl : m.HasList c l) : ∀ p ∈ l, p ≠ m.next := by
  intro p hp
  have := (h.item c l hl p hp).1
  omega

/-- The new item in front of the first one. -/
lemma added_front (h : m.WellLinked) {post : List ℕ} {a : ℕ} (k v size : ℕ)
    (hl : m.HasList c (a :: post)) :
    Added m c k v size (a :: post) (m.next :: a :: post)
      ⟨setPrev (Function.update m.heap m.next ⟨none, some a, k, c, v, none, size⟩) a (some m.next),
        m.next + 1, m.cxtMem.insert c (some m.next)⟩ := by
  have hne := hl.ne_next h
  have hnodup := h.nodup c _ hl
  have ha : a ≠ m.next := hne a List.mem_cons_self
  have hpost : ∀ p ∈ post, p ≠ a := by
    rintro p hp rfl
    exact (List.nodup_cons.mp hnodup).1 hp
  obtain ⟨head, hget, hchain⟩ := hl
  refine ⟨⟨some m.next, by simp, ?_⟩, .refl _, rfl, ?_, ?_, ?_, ?_⟩
  · apply Segment.insertFirst hchain
    · simp [links, Ne.symm ha]
    · simp [links]
    · simp [links]
    · simp [links, ha]
    · intro p hp
      simp [links, hpost p hp, hne p (List.mem_cons_of_mem _ hp)]
  · intro p hp
    simp [hp]
  · rw [setPrev_data]
    simp [Item.data]
  · intro p hp hp'
    have hpa : p ≠ a := fun heq => hp (heq ▸ List.mem_cons_self)
    simp [setPrev, hpa, hp']
  · intro c' hc'
    rw [Std.ExtTreeMap.getElem?_insert, if_neg (by simpa using hc'.symm)]

/-- The new item behind the last one. -/
lemma added_last (h : m.WellLinked) {pre : List ℕ} {a : ℕ} (k v size : ℕ)
    (hl : m.HasList c (pre ++ [a])) :
    Added m c k v size (pre ++ [a]) (pre ++ [a, m.next])
      ⟨setSucc (Function.update m.heap m.next ⟨some a, none, k, c, v, none, size⟩) a (some m.next),
        m.next + 1, m.cxtMem⟩ := by
  have hne := hl.ne_next h
  have hnodup := h.nodup c _ hl
  have ha : a ≠ m.next := hne a (by simp)
  have hpre : ∀ p ∈ pre, p ≠ a := by
    rintro p hp rfl
    exact List.disjoint_of_nodup_append hnodup hp (List.mem_singleton_self p)
  obtain ⟨head, hget, hchain⟩ := hl
  have hsucc : (m.heap a).succ = none := hchain.succ_eq
  have hperm : (pre ++ [a, m.next]).Perm (m.next :: (pre ++ [a])) :=
    ((List.Perm.swap m.next a []).append_left pre).trans List.perm_middle
  refine ⟨⟨head, hget, ?_⟩, hperm, rfl, ?_, ?_, ?_, fun _ _ => rfl⟩
  · apply hchain.insertAfter hnodup
    · simp [links, ha]
    · simp [links]
    · simp [links]
    · simp [links, Ne.symm ha, hsucc]
    · simp
    · intro p hp
      have hp' : p ∈ pre := by simpa using hp
      simp [links, hne p (by simp [hp']), hpre p hp']
  · intro p hp
    simp [hp]
  · rw [setSucc_data]
    simp [Item.data]
  · intro p hp hp'
    have hpa : p ≠ a := fun heq => hp (by simp [heq])
    simp [setSucc, hpa, hp']

/-- The new item between `a` and its successor. -/
lemma added_between (h : m.WellLinked) {pre post : List ℕ} {a q : ℕ} (k v size : ℕ)
    (hl : m.HasList c (pre ++ a :: q :: post)) :
    Added m c k v size (pre ++ a :: q :: post) (pre ++ a :: m.next :: q :: post)
      ⟨setSucc (setPrev (Function.update m.heap m.next ⟨some a, some q, k, c, v, none, size⟩) q
        (some m.next)) a (some m.next), m.next + 1, m.cxtMem⟩ := by
  have hne := hl.ne_next h
  have hnodup := h.nodup c _ hl
  have ha : a ≠ m.next := hne a (by simp)
  have hq : q ≠ m.next := hne q (by simp)
  have hrest := List.nodup_cons.mp (List.Nodup.of_append_right hnodup)
  have hqa : q ≠ a := fun heq => hrest.1 (heq ▸ List.mem_cons_self)
  have hothers : ∀ p, p ∈ pre ∨ p ∈ post → p ≠ a ∧ p ≠ q := by
    have hdisj := List.disjoint_of_nodup_append hnodup
    intro p hp
    cases hp with
    | inl hp => exact ⟨fun heq => hdisj hp (by simp [heq]), fun heq => hdisj hp (by simp [heq])⟩
    | inr hp =>
      exact ⟨fun heq => hrest.1 (heq ▸ List.mem_cons_of_mem _ hp),
        fun heq => (List.nodup_cons.mp hrest.2).1 (heq ▸ hp)⟩
  obtain ⟨head, hget, hchain⟩ := hl
  have hsucc : (m.heap a).succ = some q := hchain.succ_eq
  have hperm : (pre ++ a :: m.next :: q :: post).Perm (m.next :: (pre ++ a :: q :: post)) :=
    ((List.Perm.swap m.next a (q :: post)).append_left pre).trans List.perm_middle
  refine ⟨⟨head, hget, ?_⟩, hperm, rfl, ?_, ?_, ?_, fun _ _ => rfl⟩
  · apply hchain.insertAfter hnodup
    · simp [links, ha, hqa.symm]
    · simp [links]
    · simp [links, hq.symm]
    · simp [links, Ne.symm ha, hsucc]
    · intro p hp
      obtain rfl : q = p := by simpa using hp
      simp [links, hqa, hq]
    · intro p hp
      have hp' : p ∈ pre ∨ p ∈ post := by simpa using hp
      obtain ⟨hpa, hpq⟩ := hothers p hp'
      simp [links, hpq, hpa, hne p (by simp; tauto)]
  · intro p hp
    simp [hp]
  · rw [setSucc_data, setPrev_data]
    simp [Item.data]
  · intro p hp hp'
    have hpa : p ≠ a := fun heq => hp (by simp [heq])
    have hpq : p ≠ q := fun heq => hp (by simp [heq])
    simp [setSucc, setPrev, hpa, hpq, hp']

/-- `insertNewItem` adds the item behind `a`, or in front when it opens the read-only segment. -/
theorem insertNewItem_added (h : m.WellLinked) {pre post : List ℕ} {a : ℕ} (k size : ℕ)
    (hl : m.HasList c (pre ++ a :: post))
    (hfirst : v = rodataBase → (m.heap a).vaddr = rwdataBase → pre = []) :
    Added m c k v size (pre ++ a :: post)
      (if v = rodataBase ∧ (m.heap a).vaddr = rwdataBase then m.next :: (pre ++ a :: post)
        else pre ++ a :: m.next :: post)
      (m.insertNewItem a c k v size) := by
  by_cases hcond : v = rodataBase ∧ (m.heap a).vaddr = rwdataBase
  · obtain rfl := hfirst hcond.1 hcond.2
    rw [if_pos hcond, insertNewItem, if_pos hcond]
    exact added_front h k v size hl
  · have hsucc : (m.heap a).succ = post.head? := hl.succ_eq rfl
    rw [if_neg hcond, insertNewItem, if_neg hcond, hsucc]
    cases post with
    | nil => exact added_last h k v size hl
    | cons q post => exact added_between h k v size hl

end Insert

/-! ### Operations -/

section Operations
variable {m m' : Manager} {c k v size : ℕ} {l : List ℕ}

lemma endOf_eq {item : Item} (h : item.vaddr + item.size + 4095 < 2 ^ 64) :
    endOf item = (item.vaddr + item.size + 4095) / 4096 * 4096 := by
  have hpage : pagesize = 2 ^ 12 := rfl
  rw [endOf, hpage, alignedSize_eq (by norm_num), u64_of_lt (by omega)]
  · rfl
  · rw [u64_of_lt (by omega)]
    omega

lemma segment_limit (bufType : BufferType) : (segment bufType).2 = 0x20000000 := by
  cases bufType <;> rfl

lemma HasList.get_nil (hl : m.HasList c []) : m.cxtMem[c]? = some none := by
  obtain ⟨head, hget, hchain⟩ := hl
  have hnone : head = none := hchain
  rw [hget, hnone]

lemma HasList.get_cons {root : ℕ} {rest : List ℕ} (hl : m.HasList c (root :: rest)) :
    m.cxtMem[c]? = some (some root) := by
  obtain ⟨head, hget, hchain⟩ := hl
  rw [hget, hchain.1]

lemma allocMemory_nil {bufType : BufferType} (hl : m.HasList c []) (hsize : size ≠ 0)
    (hlimit : alignedSize size blockSize < 0x20000000) :
    m.allocMemory c k size bufType = .ok ((segment bufType).1,
      ⟨Function.update m.heap m.next
        ⟨none, none, k, c, (segment bufType).1, none, alignedSize size blockSize⟩,
        m.next + 1, m.cxtMem.insert c (some m.next)⟩) := by
  rw [← segment_limit bufType] at hlimit
  simp [allocMemory, hsize, hl.get_nil, hlimit]

lemma allocMemory_cons {bufType : BufferType} {root : ℕ} {rest : List ℕ}
    (hl : m.HasList c (root :: rest)) (hsize : size ≠ 0)
    (hlimit : alignedSize size blockSize < 0x20000000) :
    m.allocMemory c k size bufType =
      match m.allocVaddr root (alignedSize size blockSize) bufType with
      | .error e => .error e
      | .ok (a, v) => .ok (v, m.insertNewItem a c k v (alignedSize size blockSize)) := by
  rw [← segment_limit bufType] at hlimit
  cases hplace : m.allocVaddr root (alignedSize size blockSize) bufType with
  | error e => simp [allocMemory, hsize, hl.get_cons, hlimit, hplace]
  | ok place => simp [allocMemory, hsize, hl.get_cons, hlimit, hplace]

/-- The requests that are refused before the lists are looked at. -/
lemma allocMemory_refused (k : ℕ) (bufType : BufferType)
    (h : size = 0 ∨ c ∉ m.cxtMem ∨ 0x20000000 ≤ alignedSize size blockSize) :
    ∃ tag text, m.allocMemory c k size bufType = .error (.error tag text) := by
  unfold allocMemory
  split_ifs with hsize
  · exact ⟨_, _, rfl⟩
  · cases hget : m.cxtMem[c]? with
    | none => exact ⟨_, _, rfl⟩
    | some head =>
      have hmem : c ∈ m.cxtMem := mem_iff_exists.mpr ⟨_, hget⟩
      have hlimit : ¬ alignedSize size blockSize < (segment bufType).2 := by
        rw [segment_limit]
        exact Nat.not_lt.mpr ((h.resolve_left hsize).resolve_left (not_not.mpr hmem))
      simp only [hlimit, if_false]
      exact ⟨_, _, rfl⟩

/-- Every way in which an allocation succeeds. -/
theorem allocMemory_cases (h : m.WellLinked) {bufType : BufferType}
    (heq : m.allocMemory c k size bufType = .ok (v, m')) :
    size ≠ 0 ∧ alignedSize size blockSize < 0x20000000 ∧
      ((m.HasList c [] ∧ v = (segment bufType).1 ∧
          Added m c k v (alignedSize size blockSize) [] [m.next] m') ∨
        ∃ root rest a, m.HasList c (root :: rest) ∧
          m.allocVaddr root (alignedSize size blockSize) bufType = .ok (a, v) ∧
          m' = m.insertNewItem a c k v (alignedSize size blockSize)) := by
  by_cases hrefused : size = 0 ∨ c ∉ m.cxtMem ∨ 0x20000000 ≤ alignedSize size blockSize
  · obtain ⟨tag, text, herr⟩ := allocMemory_refused k bufType hrefused
    rw [herr] at heq
    cases heq
  · simp only [not_or, not_not, Nat.not_le] at hrefused
    obtain ⟨hsize, hmem, hlimit⟩ := hrefused
    refine ⟨hsize, hlimit, ?_⟩
    obtain ⟨l, hl⟩ := h.list c hmem
    cases l with
    | nil =>
      rw [allocMemory_nil hl hsize hlimit] at heq
      obtain ⟨rfl, rfl⟩ := Prod.mk.inj (Except.ok.inj heq)
      exact .inl ⟨hl, rfl, added_first ..⟩
    | cons root rest =>
      rw [allocMemory_cons hl hsize hlimit] at heq
      cases halloc : m.allocVaddr root (alignedSize size blockSize) bufType with
      | error e =>
        rw [halloc] at heq
        cases heq
      | ok place =>
        rw [halloc] at heq
        obtain ⟨rfl, rfl⟩ := Prod.mk.inj (Except.ok.inj heq)
        exact .inr ⟨root, rest, place.1, hl, halloc, rfl⟩

/-- The read-only segment is opened in front of the list, at its first item. -/
lemma opens_first (h : m.WellLinked) {root a : ℕ} {rest pre post : List ℕ}
    (hl : m.HasList c (root :: rest)) {bufType : BufferType}
    (halloc : m.allocVaddr root size bufType = .ok (a, v)) (hlist : root :: rest = pre ++ a :: post)
    (hv : v = rodataBase) (ha : (m.heap a).vaddr = rwdataBase) : pre = [] := by
  obtain ⟨hmem, ⟨rfl, -⟩ | rfl | rfl | rfl⟩ := allocVaddr_mem h hl halloc
  · cases pre with
    | nil => rfl
    | cons q pre =>
      -- the first item occurs once
      have hnodup := h.nodup c _ hl
      obtain ⟨rfl, rfl⟩ := List.cons.inj hlist
      simp at hnodup
  · have hsmall := (h.item c _ hl a hmem).2.2
    rw [endOf_eq (by rw [ha, rwdataBase]; omega), ha] at hv
    simp only [rodataBase, rwdataBase, globalmemBase] at hv
    omega
  · simp [rodataBase, rwdataBase, globalmemBase] at hv
  · simp [rodataBase, bufParaBase, globalmemBase] at hv

/-- An allocation that succeeds adds one item to the list of its context. -/
theorem allocMemory_added (h : m.WellLinked) {bufType : BufferType}
    (heq : m.allocMemory c k size bufType = .ok (v, m')) :
    ∃ l l', m.HasList c l ∧ Added m c k v (alignedSize size blockSize) l l' m' ∧
      m'.WellLinked := by
  obtain ⟨-, hlimit, ⟨hl, -, hadd⟩ | ⟨root, rest, a, hl, halloc, rfl⟩⟩ := allocMemory_cases h heq
  · exact ⟨[], _, hl, hadd, hadd.wellLinked h hl hlimit⟩
  · obtain ⟨pre, post, hlist⟩ := List.append_of_mem (allocVaddr_mem h hl halloc).1
    have hadd := insertNewItem_added h k (alignedSize size blockSize) (hlist ▸ hl)
      (opens_first h hl halloc hlist)
    exact ⟨_, _, hlist ▸ hl, hadd, hadd.wellLinked h (hlist ▸ hl) hlimit⟩

/-- An allocation adds no context and removes none. -/
lemma allocMemory_mem (h : m.WellLinked) {bufType : BufferType}
    (heq : m.allocMemory c k size bufType = .ok (v, m')) :
    m'.WellLinked ∧ ∀ c', c' ∈ m'.cxtMem ↔ c' ∈ m.cxtMem := by
  obtain ⟨l, l', hl, hadd, hwell⟩ := allocMemory_added h heq
  refine ⟨hwell, fun c' => ?_⟩
  by_cases hne : c' = c
  · subst hne
    exact ⟨fun _ => hl.mem, fun _ => hadd.list.mem⟩
  · rw [mem_iff_exists, mem_iff_exists, hadd.contexts c' hne]

/-- `allocVaddr` returns or finds no space. -/
lemma allocVaddr_ends (h : m.WellLinked) {root : ℕ} {rest : List ℕ}
    (hl : m.HasList c (root :: rest)) (size : ℕ) (bufType : BufferType) :
    m.allocVaddr root size bufType = .error (noSpace size) ∨
      ∃ a v, m.allocVaddr root size bufType = .ok (a, v) := by
  have habove : ∀ base limit skip, m.allocAbove root size base limit skip = .error (noSpace size) ∨
      ∃ a v, m.allocAbove root size base limit skip = .ok (a, v) := by
    intro base limit skip
    rcases allocAbove_spec h hl size base limit skip with
      ⟨-, pre, a, -, -, hres⟩ | ⟨low, pre, a, post, -, -, -, -, -, -, hres⟩
    · exact .inr ⟨a, base, hres⟩
    · rw [hres]
      split_ifs
      · exact .inl rfl
      · exact .inr ⟨_, _, rfl⟩
  cases bufType with
  | readOnly =>
    rcases allocReadOnly_spec h hl size with ⟨-, hres⟩ | ⟨-, pre, a, post, -, -, -, hres⟩
    · exact .inr ⟨_, _, hres⟩
    · rw [allocVaddr, hres]
      split_ifs
      · exact .inl rfl
      · exact .inr ⟨_, _, rfl⟩
  | readWrite => exact habove _ _ _
  | kernelMem => exact habove _ _ _

/-- An allocation returns or throws an error of the driver. -/
theorem allocMemory_ends (h : m.WellLinked) (c k size : ℕ) (bufType : BufferType) :
    (∃ v m', m.allocMemory c k size bufType = .ok (v, m')) ∨
      ∃ tag text, m.allocMemory c k size bufType = .error (.error tag text) := by
  by_cases hrefused : size = 0 ∨ c ∉ m.cxtMem ∨ 0x20000000 ≤ alignedSize size blockSize
  · exact .inr (allocMemory_refused k bufType hrefused)
  · simp only [not_or, not_not, Nat.not_le] at hrefused
    obtain ⟨hsize, hmem, hlimit⟩ := hrefused
    obtain ⟨l, hl⟩ := h.list c hmem
    cases l with
    | nil => exact .inl ⟨_, _, allocMemory_nil hl hsize hlimit⟩
    | cons root rest =>
      rw [allocMemory_cons hl hsize hlimit]
      rcases allocVaddr_ends h hl (alignedSize size blockSize) bufType with herr | ⟨a, v, hok⟩
      · rw [herr]
        exact .inr ⟨_, _, rfl⟩
      · rw [hok]
        exact .inl ⟨_, _, rfl⟩

lemma createNewContext_mem (heq : m.createNewContext c = .ok m') (c' : ℕ) :
    c' ∈ m'.cxtMem ↔ c' = c ∨ c' ∈ m.cxtMem := by
  unfold createNewContext at heq
  split_ifs at heq
  rw [← Except.ok.inj heq, Std.ExtTreeMap.mem_insertIfNew, Nat.compare_eq_eq, eq_comm]

theorem createNewContext_wellLinked (h : m.WellLinked) (heq : m.createNewContext c = .ok m') :
    m'.WellLinked ∧ c ∉ m.cxtMem ∧ m'.HasList c [] ∧
      ∀ c' l, c' ≠ c → (m'.HasList c' l ↔ m.HasList c' l) := by
  unfold createNewContext at heq
  split_ifs at heq with hmem
  obtain rfl := Except.ok.inj heq
  have hother : ∀ c', c' ≠ c → (m.cxtMem.insertIfNew c none)[c']? = m.cxtMem[c']? := by
    intro c' hne
    rw [Std.ExtTreeMap.getElem?_insertIfNew, if_neg]
    simp [hne.symm]
  have hself : (m.cxtMem.insertIfNew c none)[c]? = some none := by
    rw [Std.ExtTreeMap.getElem?_insertIfNew, if_pos]
    simp [hmem]
  have hempty : HasList { m with cxtMem := m.cxtMem.insertIfNew c none } c [] :=
    ⟨none, hself, rfl⟩
  have hiff : ∀ c' l, c' ≠ c →
      (HasList { m with cxtMem := m.cxtMem.insertIfNew c none } c' l ↔ m.HasList c' l) := by
    intro c' l hne
    simp only [HasList, hother c' hne]
  refine ⟨⟨?_, ?_, ?_⟩, hmem, hempty, hiff⟩
  · intro c' hc'
    by_cases hne : c' = c
    · subst hne
      exact ⟨[], hempty⟩
    · obtain ⟨head, hget⟩ := mem_iff_exists.mp hc'
      obtain ⟨l, hl⟩ := h.list c' (mem_iff_exists.mpr ⟨head, (hother c' hne).symm.trans hget⟩)
      exact ⟨l, (hiff c' l hne).mpr hl⟩
  · intro c' l hl
    by_cases hne : c' = c
    · subst hne
      rw [hl.unique hempty]
      exact List.nodup_nil
    · exact h.nodup c' l ((hiff c' l hne).mp hl)
  · intro c' l hl p hp
    by_cases hne : c' = c
    · subst hne
      rw [hl.unique hempty] at hp
      simp at hp
    · exact h.item c' l ((hiff c' l hne).mp hl) p hp

lemma unlink_succ (heap : ℕ → Item) (a p : ℕ) : (unlink heap a p).succ =
    if (heap a).prev = some p then (heap a).succ else (heap p).succ := by
  unfold unlink
  cases hprev : (heap a).prev <;> cases hsucc : (heap a).succ <;> simp [eq_comm]

lemma unlink_prev (heap : ℕ → Item) (a p : ℕ) : (unlink heap a p).prev =
    if (heap a).succ = some p then (heap a).prev else (heap p).prev := by
  unfold unlink
  cases hprev : (heap a).prev <;> cases hsucc : (heap a).succ <;> simp [eq_comm]

lemma unlink_data (heap : ℕ → Item) (a p : ℕ) : (unlink heap a p).data = (heap p).data := by
  unfold unlink
  cases hprev : (heap a).prev <;> cases hsucc : (heap a).succ <;> simp

/-- Unlinking an item joins its neighbours, wherever it stands in the list. -/
theorem unlink_chain {heap : ℕ → Item} {head : Option ℕ} {pre post : List ℕ} {a : ℕ}
    (h : Chain (links heap) head (pre ++ a :: post)) (hnodup : (pre ++ a :: post).Nodup) :
    Chain (links (unlink heap a)) (pre ++ post).head? (pre ++ post) := by
  have hprev : (heap a).prev = pre.getLast? := (Segment.prev_eq h).trans (Option.or_none ..)
  have hsucc : (heap a).succ = post.head? := h.succ_eq
  have hdisj := List.disjoint_of_nodup_append hnodup
  have hseg : Segment (links (unlink heap a)) none (if pre = [] then (links heap).succ a else head)
      (pre ++ post) none := by
    apply h.unlink hnodup
    · intro p hp
      simp only [links, unlink_succ, hprev]
      rw [if_pos (Option.mem_def.mp hp)]
    · intro p hp
      simp only [links, unlink_prev, hsucc]
      rw [if_pos (Option.mem_def.mp hp)]
    · intro p hp
      simp only [links, unlink_prev, unlink_succ, hprev, hsucc]
      refine ⟨if_neg fun heq => ?_, fun hnot => if_neg fun heq => hnot heq⟩
      exact hdisj hp (List.mem_cons_of_mem _ (List.mem_of_mem_head? heq))
    · intro p hp
      simp only [links, unlink_prev, unlink_succ, hprev, hsucc]
      refine ⟨if_neg fun heq => ?_, fun hnot => if_neg fun heq => hnot heq⟩
      exact hdisj (List.mem_of_mem_getLast? heq) (List.mem_cons_of_mem _ hp)
  rwa [hseg.head_eq] at hseg

/-- A search in a context finds an item at the address, or there is none. -/
lemma find_cases (h : m.WellLinked) (c v : ℕ) :
    (∃ l p head, m.HasList c l ∧ p ∈ l ∧ (m.heap p).vaddr = v ∧ m.cxtMem[c]? = some head ∧
        findVaddr m.heap v m.fuel head = .ok (some p)) ∨
      ((∀ l, m.HasList c l → ∀ p ∈ l, (m.heap p).vaddr ≠ v) ∧
        (m.cxtMem[c]? = none ∨
          ∃ head, m.cxtMem[c]? = some head ∧ findVaddr m.heap v m.fuel head = .ok none)) := by
  cases hget : m.cxtMem[c]? with
  | none =>
    refine .inr ⟨?_, .inl rfl⟩
    rintro l ⟨head, hget', -⟩
    simp [hget] at hget'
  | some head =>
    obtain ⟨l, hl⟩ := h.list c (mem_iff_exists.mpr ⟨head, hget⟩)
    have hlen := h.length_le hl
    have hl' := hl
    obtain ⟨head', hget', hchain⟩ := hl'
    rw [hget] at hget'
    obtain rfl := Option.some.inj hget'
    rcases findVaddr_spec v hchain (show l.length ≤ m.fuel by rw [fuel]; omega) with
      ⟨p, hp, hv, hfind⟩ | ⟨hnone, hfind⟩
    · exact .inl ⟨l, p, head, hl, hp, hv, rfl, hfind⟩
    · refine .inr ⟨?_, .inr ⟨head, rfl, hfind⟩⟩
      intro l' hl'
      rwa [hl'.unique hl]

/-- The manager after the address of the item `p` was set. -/
def attached (m : Manager) (p paddr : ℕ) : Manager :=
  { m with heap := Function.update m.heap p { m.heap p with paddr := some paddr } }

theorem attachPaddr_cases (h : m.WellLinked) (k c v paddr : ℕ) :
    (∃ l p, m.HasList c l ∧ p ∈ l ∧ (m.heap p).vaddr = v ∧
        m.attachPaddr k c v paddr = .ok (0, m.attached p paddr)) ∨
      ((∀ l, m.HasList c l → ∀ p ∈ l, (m.heap p).vaddr ≠ v) ∧
        ∃ e, (e = .outOfRange ∨ e = .error "Manager" "failed") ∧
          m.attachPaddr k c v paddr = .error e) := by
  rcases find_cases h c v with ⟨l, p, head, hl, hp, hv, hget, hfind⟩ | ⟨hnone, hget | ⟨head, hget, hfind⟩⟩
  · exact .inl ⟨l, p, hl, hp, hv, by simp [attachPaddr, hget, hfind, attached]⟩
  · exact .inr ⟨hnone, .outOfRange, .inl rfl, by simp [attachPaddr, hget]⟩
  · exact .inr ⟨hnone, .error "Manager" "failed", .inr rfl, by simp [attachPaddr, hget, hfind]⟩

/-- An attached address is the only change. -/
lemma attached_heap (m : Manager) (p paddr q : ℕ) :
    ((m.attached p paddr).heap q).prev = (m.heap q).prev ∧
      ((m.attached p paddr).heap q).succ = (m.heap q).succ ∧
      ((m.attached p paddr).heap q).vaddr = (m.heap q).vaddr ∧
      ((m.attached p paddr).heap q).size = (m.heap q).size ∧
      ((m.attached p paddr).heap q).taskId = (m.heap q).taskId := by
  unfold attached
  by_cases hq : q = p
  · subst hq
    simp
  · simp [hq]

lemma attached_hasList {p paddr : ℕ} : (m.attached p paddr).HasList c l ↔ m.HasList c l := by
  have hlinks : links (m.attached p paddr).heap = links m.heap := by
    unfold links
    congr 1
    · funext q
      exact (attached_heap m p paddr q).1
    · funext q
      exact (attached_heap m p paddr q).2.1
  rw [HasList, HasList, hlinks]
  rfl

theorem attached_wellLinked (h : m.WellLinked) (p paddr : ℕ) : (m.attached p paddr).WellLinked := by
  refine ⟨?_, ?_, ?_⟩
  · intro c hc
    obtain ⟨l, hl⟩ := h.list c hc
    exact ⟨l, attached_hasList.mpr hl⟩
  · intro c l hl
    exact h.nodup c l (attached_hasList.mp hl)
  · intro c l hl q hq
    obtain ⟨-, -, -, hsize, htask⟩ := attached_heap m p paddr q
    rw [hsize, htask]
    exact h.item c l (attached_hasList.mp hl) q hq

/-- The manager after a release that found the item `p`. -/
def released (m : Manager) (c p : ℕ) : Manager := ⟨unlink m.heap p, m.next, m.cxtMem.erase c⟩

/-- A release finds the item and erases the context, or throws. -/
theorem releaseMemory_cases (h : m.WellLinked) (c k v size : ℕ) :
    (∃ l p, m.HasList c l ∧ p ∈ l ∧ (m.heap p).vaddr = v ∧ m.releaseMemory c k v size =
        .ok (0, m.released c p)) ∨
      ((∀ l, m.HasList c l → ∀ p ∈ l, (m.heap p).vaddr ≠ v) ∧
        ∃ e, e ≠ .endless ∧ m.releaseMemory c k v size = .error e) := by
  rcases find_cases h c v with ⟨l, p, head, hl, hp, hv, hget, hfind⟩ | ⟨hnone, hget | ⟨head, hget, hfind⟩⟩
  · exact .inl ⟨l, p, hl, hp, hv, by simp [releaseMemory, hget, hfind, released]⟩
  · exact .inr ⟨hnone, .outOfRange, by simp, by simp [releaseMemory, hget]⟩
  · exact .inr ⟨hnone, .error "Manager" "addr [] not valid", by simp,
      by simp [releaseMemory, hget, hfind]⟩

/-- The release of an item of one context leaves the lists of the others as they are. -/
theorem released_hasList (h : m.WellLinked) {p : ℕ} (hl : m.HasList c l) (hp : p ∈ l) {c' : ℕ}
    (hne : c' ≠ c) {l' : List ℕ} : (m.released c p).HasList c' l' ↔ m.HasList c' l' := by
  have hget : (m.released c p).cxtMem[c']? = m.cxtMem[c']? := by
    simp only [released, Std.ExtTreeMap.getElem?_erase]
    rw [if_neg (by simpa using hne.symm)]
  apply hasList_iff_of_keep h hget
  intro l₁ hl₁
  obtain ⟨pre, post, rfl⟩ := List.append_of_mem hp
  have hout : ∀ q ∈ l₁, q ∉ pre ++ p :: post := fun q hq hq' =>
    hne ((h.item c' l₁ hl₁ q hq).2.1.symm.trans (h.item c _ hl q hq').2.1)
  obtain ⟨head, -, hchain⟩ := hl
  have hprev : (m.heap p).prev = pre.getLast? := (Segment.prev_eq hchain).trans (Option.or_none ..)
  have hsucc : (m.heap p).succ = post.head? := hchain.succ_eq
  obtain ⟨head₁, hget₁, hchain₁⟩ := hl₁
  refine ⟨head₁, hget.trans hget₁, hchain₁.congr fun q hq => ?_⟩
  simp only [links, released, unlink_prev, unlink_succ, hprev, hsucc]
  constructor
  · refine if_neg fun heq => hout q hq ?_
    exact List.mem_append_right _ (List.mem_cons_of_mem _ (List.mem_of_mem_head? heq))
  · exact if_neg fun heq => hout q hq (List.mem_append_left _ (List.mem_of_mem_getLast? heq))

lemma released_mem (m : Manager) (c p c' : ℕ) :
    c' ∈ (m.released c p).cxtMem ↔ c' ≠ c ∧ c' ∈ m.cxtMem := by
  rw [released, Std.ExtTreeMap.mem_erase, ne_eq, ne_eq, Nat.compare_eq_eq, eq_comm]

/-- After a release the context has no list any more. -/
lemma released_not_mem (m : Manager) (c p : ℕ) : c ∉ (m.released c p).cxtMem :=
  fun hmem => ((released_mem m c p c).mp hmem).1 rfl

theorem released_wellLinked (h : m.WellLinked) {p : ℕ} (hl : m.HasList c l) (hp : p ∈ l) :
    (m.released c p).WellLinked := by
  have hne : ∀ {c' l'}, (m.released c p).HasList c' l' → c' ≠ c := by
    rintro c' l' hl' rfl
    exact released_not_mem m c' p hl'.mem
  refine ⟨?_, ?_, ?_⟩
  · intro c' hc'
    have hne' : c' ≠ c := fun heq => released_not_mem m c p (heq ▸ hc')
    have hmem : c' ∈ m.cxtMem := ((released_mem m c p c').mp hc').2
    obtain ⟨l', hl'⟩ := h.list c' hmem
    exact ⟨l', (released_hasList h hl hp hne').mpr hl'⟩
  · intro c' l' hl'
    exact h.nodup c' l' ((released_hasList h hl hp (hne hl')).mp hl')
  · intro c' l' hl' q hq
    have hitem := h.item c' l' ((released_hasList h hl hp (hne hl')).mp hl') q hq
    have hdata := unlink_data m.heap p q
    simp only [released]
    rwa [Item.data_taskId hdata, Item.data_size hdata]

end Operations

end Manager
end VentusDriver
