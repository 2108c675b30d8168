import VentusDriver.Driver.Addresses
import VentusDriver.Driver.BufferRuns

/-! When an allocation finds the room that there is. The walk for a read-only buffer always does. The
walk for a writable buffer starts at the first item above the read-only segment, whichever segment that
is in, and the walk for a kernel buffer may pass lower items that stand behind it. -/
namespace VentusDriver
open Foundation

namespace Manager

/-- The item is the last one, or leaves room for `size` bytes in front of its successor. -/
def hasRoom (heap : ℕ → Item) (size p : ℕ) : Bool :=
  match (heap p).succ with
  | none => true
  | some q => decide (endOf (heap p) + size ≤ (heap q).vaddr)

/-- The first item with room behind it, from the first item at or above `base` on. -/
def firstRoom (heap : ℕ → Item) (base size : ℕ) (l : List ℕ) : Option ℕ :=
  (l.dropWhile fun p => decide ((heap p).vaddr < base)).find? (hasRoom heap size)

/-- The list lets an allocation of `size` bytes find free room for the type. -/
def Suits (m : Manager) (bufType : BufferType) (size : ℕ) (l : List ℕ) : Prop :=
  match bufType with
  | .readOnly => True
  | .readWrite => FirstFrom rwdataBase (fun v => v < bufParaBase) (addrs m.heap l)
  | .kernelMem => ∀ p ∈ firstRoom m.heap bufParaBase size l, bufParaBase ≤ endOf (m.heap p)

/-- No item of the list touches the `size` bytes at `x`. -/
def FreeAt (m : Manager) (l : List ℕ) (x size : ℕ) : Prop :=
  ∀ p ∈ l, endOf (m.heap p) ≤ x ∨ x + size ≤ (m.heap p).vaddr

section Walks
variable {m : Manager} {c root size x : ℕ} {rest l : List ℕ}

/-- Every item at which a walk arrives ends below the free range, if its first item does. -/
lemma passed_free (h : m.WellLinked) (hl : m.HasList c l) (hs : Shape (addrs m.heap l))
    (hsize : size < 0x20000000) (hfree : m.FreeAt l x size) {bound a : ℕ} {low pre post : List ℕ}
    (hlist : l = low ++ (pre ++ a :: post)) (hpre : Passed m.heap bound size pre)
    (hstart : ∀ p ∈ (pre ++ a :: post).head?, endOf (m.heap p) ≤ x) :
    endOf (m.heap a) ≤ x ∧ ∀ p ∈ pre, hasRoom m.heap size p = false := by
  induction pre generalizing low with
  | nil => exact ⟨hstart a rfl, by simp⟩
  | cons f pre ih =>
    obtain ⟨-, q, hq, hclose⟩ := hpre f List.mem_cons_self
    have hf := hstart f rfl
    have hmem : f ∈ l := by rw [hlist]; simp
    have hend := (endOf_addr h hl hs hmem).2.1
    have hhigh := (hs.range _ (List.mem_map_of_mem hmem)).2.2
    rw [u64_of_lt (by omega)] at hclose
    have hlist' : l = (low ++ [f]) ++ (pre ++ a :: post) := by rw [hlist]; simp
    obtain ⟨ha, hrest⟩ := ih hlist' (fun p hp => hpre p (List.mem_cons_of_mem _ hp)) (by
      intro p hp
      -- the next item cannot lie behind the free range
      have hnext : some q = (pre ++ a :: post).head? := hq.symm.trans (hl.succ_eq hlist)
      obtain rfl : q = p := Option.some.inj (hnext.trans hp)
      have hmem' : q ∈ l := by
        rw [hlist']
        exact List.mem_append_right _ (List.mem_of_mem_head? hp)
      rcases hfree q hmem' with hq' | hq'
      · exact hq'
      · omega)
    refine ⟨ha, fun p hp => ?_⟩
    cases hp with
    | head =>
      rw [hasRoom, hq]
      exact decide_eq_false (by omega)
    | tail _ hp => exact hrest p hp

/-- An item of the list that starts at or below the free range ends below it. -/
lemma FreeAt.end_le (hfree : m.FreeAt l x size) (hpos : 0 < size) {p : ℕ} (hp : p ∈ l)
    (hle : (m.heap p).vaddr ≤ x) : endOf (m.heap p) ≤ x := by
  cases hfree p hp with
  | inl hend => exact hend
  | inr hstart => omega

theorem allocReadOnly_free (h : m.WellLinked) (hl : m.HasList c (root :: rest))
    (hs : Shape (addrs m.heap (root :: rest))) (hpos : 0 < size) (hsize : size < 0x20000000)
    (hfree : m.FreeAt (root :: rest) x size) (hlow : rodataBase ≤ x) (hup : x + size ≤ rwdataBase) :
    ∃ a v, m.allocReadOnly root size = .ok (a, v) ∧ rodataBase ≤ v ∧ v + size ≤ rwdataBase := by
  rcases allocReadOnly_spec h hl size with ⟨-, hres⟩ | ⟨hroot, pre, a, post, hlist, hpre, -, hres⟩
  · refine ⟨root, rodataBase, hres, le_rfl, ?_⟩
    omega
  · have hmem : a ∈ root :: rest := by rw [hlist]; simp
    have hstart : ∀ p ∈ (pre ++ a :: post).head?, endOf (m.heap p) ≤ x := by
      rw [← hlist]
      intro p hp
      obtain rfl := Option.some.inj hp
      exact hfree.end_le hpos List.mem_cons_self (hroot.trans_le hlow)
    have hlist' : root :: rest = [] ++ (pre ++ a :: post) := hlist
    obtain ⟨ha, -⟩ := passed_free h hl hs hsize hfree hlist' hpre hstart
    obtain ⟨hge, hle, -⟩ := endOf_addr h hl hs hmem
    obtain ⟨-, hmin, hhigh⟩ := hs.range _ (List.mem_map_of_mem hmem)
    rw [u64_of_lt (by omega), if_neg (by omega)] at hres
    exact ⟨a, _, hres, hmin.trans hge, by omega⟩

/-- The walk of an upper segment whose first item stands at its base. -/
theorem allocAbove_free (h : m.WellLinked) (hl : m.HasList c (root :: rest))
    (hs : Shape (addrs m.heap (root :: rest))) (hpos : 0 < size) (hsize : size < 0x20000000)
    {base limit : ℕ} {skip : Bool} (hskip : skip = false → base ≤ (m.heap root).vaddr)
    (hfirst : FirstFrom base (fun v => v = base) (addrs m.heap (root :: rest)))
    (hfree : m.FreeAt (root :: rest) x size) (hlow : base ≤ x) (hup : x + size ≤ limit) :
    ((∀ p ∈ root :: rest, (m.heap p).vaddr < base) ∧
        ∃ a, m.allocAbove root size base limit skip = .ok (a, base)) ∨
      ∃ low pre a post, root :: rest = low ++ (pre ++ a :: post) ∧
        (∀ p ∈ low, (m.heap p).vaddr < base) ∧
        (∀ p ∈ (pre ++ a :: post).head?, (m.heap p).vaddr = base) ∧
        (∀ p ∈ pre, hasRoom m.heap size p = false) ∧ hasRoom m.heap size a = true ∧
        endOf (m.heap a) ≤ x ∧ m.allocAbove root size base limit skip = .ok (a, endOf (m.heap a)) := by
  rcases allocAbove_walk h hl size limit hskip with
    ⟨pre, a, -, hbelow, hres⟩ | ⟨low, pre, a, post, hlist, hbelow, hstart, hpre, hstop, hres⟩
  · exact .inl ⟨hbelow, a, hres⟩
  right
  have hmem : a ∈ root :: rest := by rw [hlist]; simp
  obtain ⟨hge, hle, -⟩ := endOf_addr h hl hs hmem
  have hhigh := (hs.range _ (List.mem_map_of_mem hmem)).2.2
  have hbase : ∀ p ∈ (pre ++ a :: post).head?, (m.heap p).vaddr = base := by
    intro p hp
    have hp' := hstart p hp
    obtain ⟨others, hothers⟩ := List.head?_eq_some_iff.mp hp
    rw [hlist, hothers, addrs_append, addrs_cons] at hfirst
    exact hfirst.get (by simpa [addrs] using hbelow) hp'
  obtain ⟨ha, hrooms⟩ := passed_free h hl hs hsize hfree hlist hpre fun p hp => by
    apply hfree.end_le hpos _ ((hbase p hp).trans_le hlow)
    rw [hlist]
    exact List.mem_append_right _ (List.mem_of_mem_head? hp)
  refine ⟨low, pre, a, post, hlist, hbelow, hbase, hrooms, ?_, ha, ?_⟩
  · rcases hstop with hbound | hnone | ⟨q, hq, hfits⟩
    · omega
    · rw [hasRoom, hnone]
    · rw [u64_of_lt (by omega)] at hfits
      rw [hasRoom, hq]
      exact decide_eq_true hfits
  · rw [u64_of_lt (by omega), if_neg (by omega)] at hres
    exact hres

/-- The room found lies in the segment. -/
def Finds (m : Manager) (bufType : BufferType) (root size : ℕ) : Prop :=
  ∃ a v, m.allocVaddr root size bufType = .ok (a, v) ∧ (segment bufType).1 ≤ v ∧
    v + size ≤ (segment bufType).1 + 0x20000000

theorem readWrite_finds_iff (h : m.WellLinked) (hl : m.HasList c (root :: rest))
    (hs : Shape (addrs m.heap (root :: rest))) (hpos : 0 < size) (hsize : size < 0x20000000)
    (hfree : m.FreeAt (root :: rest) x size) (hlow : rwdataBase ≤ x) (hup : x + size ≤ bufParaBase) :
    m.Finds .readWrite root size ↔ m.Suits .readWrite size (root :: rest) := by
  constructor
  · rintro ⟨a, v, heq, -, hv⟩ b hb
    have hfirst : FirstFrom rwdataBase (fun v => v = b) (addrs m.heap (root :: rest)) :=
      fun b' hb' => Option.some.inj (hb'.symm.trans hb)
    rw [allocVaddr] at heq
    rcases allocAbove_walk h hl size bufParaBase (skip_readWrite hs) with
      ⟨-, -, -, hbelow, -⟩ | ⟨low, pre, a', post, hlist, hbelow, hstart, hpre, -, hres⟩
    · have hmem := List.mem_of_find?_eq_some hb
      have hge := List.find?_some hb
      obtain ⟨p, hp, rfl⟩ := List.mem_map.mp hmem
      have := hbelow p hp
      simp only [decide_eq_true_eq] at hge
      omega
    · rw [heq] at hres
      split_ifs at hres
      obtain ⟨rfl, rfl⟩ := Prod.mk.inj (Except.ok.inj hres)
      have hend := (endOf_addr h hl hs (show a ∈ root :: rest by rw [hlist]; simp)).1
      have hbelow' : ∀ b ∈ addrs m.heap low, b < rwdataBase := by simpa [addrs] using hbelow
      rw [hlist, addrs_append] at hfirst
      cases pre with
      | nil =>
        -- the walk stops at its first item
        have ha : (m.heap a).vaddr = b := hfirst.get hbelow' (hstart a rfl)
        simp only [segment, rwdataBase_eq, bufParaBase_eq] at hv ⊢
        omega
      | cons f pre =>
        have hf : (m.heap f).vaddr = b := hfirst.get hbelow' (hstart f rfl)
        exact hf ▸ (hpre f List.mem_cons_self).1
  · intro hsuits
    have hfirst : FirstFrom rwdataBase (fun v => v = rwdataBase) (addrs m.heap (root :: rest)) :=
      fun b hb => (hs.firstRw b hb).resolve_right (Nat.not_le.mpr (hsuits b hb))
    rcases allocAbove_free h hl hs hpos hsize (skip_readWrite hs) hfirst hfree hlow hup with
      ⟨-, a, hres⟩ | ⟨low, pre, a, post, hlist, hbelow, hbase, -, -, ha, hres⟩
    · refine ⟨a, rwdataBase, hres, le_rfl, ?_⟩
      simp only [segment]
      omega
    · refine ⟨a, _, hres, ?_, ?_⟩
      · have hge := (endOf_addr h hl hs (show a ∈ root :: rest by rw [hlist]; simp)).1
        refine le_trans ?_ hge
        cases pre with
        | nil => exact (hbase a rfl).ge
        | cons f pre =>
          have hf := hbase f rfl
          rw [hlist, List.cons_append] at hs
          refine (hs.around ?_ le_rfl (by decide)).2 hf.ge a (by simp)
          intro v hv
          cases low with
          | nil =>
            obtain rfl := Option.some.inj hv
            exact hf.trans_lt (by decide)
          | cons p low =>
            obtain rfl := Option.some.inj hv
            exact (hbelow p List.mem_cons_self).trans (by decide)
      · simp only [segment, rwdataBase_eq, bufParaBase_eq] at hup ⊢
        omega

theorem kernelMem_finds_iff (h : m.WellLinked) (hl : m.HasList c (root :: rest))
    (hs : Shape (addrs m.heap (root :: rest))) (hpos : 0 < size) (hsize : size < 0x20000000)
    (hfree : m.FreeAt (root :: rest) x size) (hlow : bufParaBase ≤ x)
    (hup : x + size ≤ bufParaBase + globalmemSize / 2) :
    m.Finds .kernelMem root size ↔ m.Suits .kernelMem size (root :: rest) := by
  simp only [Finds, Suits, allocVaddr, segment, firstRoom]
  simp only [globalmemSize_eq] at hup ⊢
  rcases allocAbove_free h hl hs hpos hsize (skip_kernelMem hs) hs.firstKernel hfree hlow hup with
    ⟨hbelow, a, hres⟩ | ⟨low, pre, a, post, hlist, hbelow, hbase, hrooms, hroom, ha, hres⟩
  · have hnone : (root :: rest).dropWhile (fun p => decide ((m.heap p).vaddr < bufParaBase)) = [] := by
      rw [List.dropWhile_eq_nil_iff]
      simpa using hbelow
    refine iff_of_true ⟨a, bufParaBase, hres, le_rfl, by omega⟩ ?_
    rw [hnone]
    simp
  · have hdrop : (root :: rest).dropWhile (fun p => decide ((m.heap p).vaddr < bufParaBase)) =
        pre ++ a :: post := by
      rw [hlist, List.dropWhile_append_of_pos (by simpa using hbelow)]
      cases pre with
      | nil => exact List.dropWhile_cons_of_neg (by simp [hbase a rfl])
      | cons f pre => exact List.dropWhile_cons_of_neg (by simp [hbase f rfl])
    have hfind : (pre ++ a :: post).find? (hasRoom m.heap size) = some a := by
      rw [List.find?_eq_some_iff_append]
      exact ⟨hroom, pre, post, rfl, by simpa using hrooms⟩
    rw [hdrop, hfind, hres]
    constructor
    · rintro ⟨a', v, heq, hv, -⟩ p hp
      obtain ⟨rfl, rfl⟩ := Prod.mk.inj (Except.ok.inj heq)
      exact Option.some.inj hp ▸ hv
    · intro hsuits
      exact ⟨a, _, rfl, hsuits a rfl, by omega⟩

theorem finds_iff (h : m.WellLinked) (hl : m.HasList c (root :: rest))
    (hs : Shape (addrs m.heap (root :: rest))) (hpos : 0 < size) (hsize : size < 0x20000000)
    (bufType : BufferType) (hfree : m.FreeAt (root :: rest) x size) (hlow : (segment bufType).1 ≤ x)
    (hup : x + size ≤ (segment bufType).1 + 0x20000000) :
    m.Finds bufType root size ↔ m.Suits bufType size (root :: rest) := by
  cases bufType with
  | readOnly => exact iff_of_true (allocReadOnly_free h hl hs hpos hsize hfree hlow hup) trivial
  | readWrite => exact readWrite_finds_iff h hl hs hpos hsize hfree hlow hup
  | kernelMem => exact kernelMem_finds_iff h hl hs hpos hsize hfree hlow hup

/-- A list that does not start with a kernel item, or holds nothing else, suits every kernel buffer. -/
theorem suits_kernelMem (h : m.WellLinked) (hl : m.HasList c l) (hs : Shape (addrs m.heap l))
    (htidy : (∀ p ∈ l.head?, (m.heap p).vaddr < bufParaBase) ∨
      ∀ p ∈ l, bufParaBase ≤ (m.heap p).vaddr) (size : ℕ) : m.Suits .kernelMem size l := by
  intro p hp
  have hmem := List.mem_of_find?_eq_some hp
  have hmem' : p ∈ l := (List.dropWhile_suffix _).subset hmem
  refine le_trans ?_ (endOf_addr h hl hs hmem').1
  cases htidy with
  | inr hall => exact hall p hmem'
  | inl hhead =>
    obtain ⟨low, hlist⟩ := List.dropWhile_suffix (fun p => decide ((m.heap p).vaddr < bufParaBase)) (l := l)
    cases hdrop : l.dropWhile fun p => decide ((m.heap p).vaddr < bufParaBase) with
    | nil =>
      rw [hdrop] at hmem
      cases hmem
    | cons f rest =>
      -- the first kernel item, with only kernel items behind it
      have hf : bufParaBase ≤ (m.heap f).vaddr := by
        have hnot := List.head?_dropWhile_not (fun p => decide ((m.heap p).vaddr < bufParaBase)) l
        simpa [hdrop] using hnot
      rw [hdrop] at hmem hlist
      rw [← hlist] at hs hhead
      cases hmem with
      | head => exact hf
      | tail _ hmem =>
        refine (hs.around ?_ (by decide) le_rfl).2 hf p hmem
        intro v hv
        rw [addrs, List.head?_map, Option.mem_def, Option.map_eq_some_iff] at hv
        obtain ⟨p', hp', rfl⟩ := hv
        exact hhead p' hp'

end Walks

/-- What fits between page boundaries still fits when its size is rounded to blocks. -/
lemma rounded_fits {size x y : ℕ} (hsize : size < 0x40000000) (hx : 4096 ∣ x) (hy : 4096 ∣ y)
    (hle : x + size ≤ y) : x + alignedSize size blockSize ≤ y := by
  have hblock : blockSize = 2 ^ 6 := rfl
  rw [hblock, alignedSize_eq (by norm_num) (by norm_num; omega)]
  obtain ⟨i, rfl⟩ := hx
  obtain ⟨j, rfl⟩ := hy
  omega

end Manager

/-- The calls that take a buffer away. -/
def ManagerOp.Releases : ManagerOp → Prop
  | .releaseMemory .. => True
  | _ => False

namespace ManagerState
variable {s : ManagerState}

/-- A page-aligned range in the segment of the type that no live buffer of the context touches. -/
structure FreeRange (s : ManagerState) (c : ℕ) (bufType : BufferType) (size x : ℕ) : Prop where
  aligned : 4096 ∣ x
  lower : (Manager.segment bufType).1 ≤ x
  upper : x + size ≤ (Manager.segment bufType).1 + 0x20000000
  free : ∀ b ∈ s.live, b.context = c → b.stop ≤ x ∨ x + size ≤ b.vaddr

/-- The allocation returns an address with `size` bytes in the segment of its type. -/
def Allocates (s : ManagerState) (c k size : ℕ) (bufType : BufferType) : Prop :=
  ∃ v mgr, s.mgr.allocMemory c k size bufType = .ok (v, mgr) ∧ (Manager.segment bufType).1 ≤ v ∧
    v + size ≤ (Manager.segment bufType).1 + 0x20000000

/-- Every item of a list is a live buffer of its context. -/
structure Filed (s : ManagerState) : Prop where
  wellLinked : s.mgr.WellLinked
  addressed : s.mgr.Addressed
  listed : ∀ c l, s.mgr.HasList c l → ∀ p ∈ l, ∃ b ∈ s.live, b.context = c ∧
    (s.mgr.heap p).vaddr = b.vaddr ∧ (s.mgr.heap p).size = alignedSize b.size blockSize

lemma Filed.createNewContext (h : Filed s) {c : ℕ} {mgr : Manager}
    (heq : s.mgr.createNewContext c = .ok mgr) : Filed { s with mgr := mgr } := by
  obtain ⟨hwell, -, hnil, hother⟩ := Manager.createNewContext_wellLinked h.wellLinked heq
  refine ⟨hwell, Manager.createNewContext_addressed h.wellLinked h.addressed heq, ?_⟩
  intro c' l hl p hp
  by_cases hne : c' = c
  · subst hne
    rw [hl.unique hnil] at hp
    cases hp
  · have hheap : mgr.heap = s.mgr.heap := by
      unfold Manager.createNewContext at heq
      split_ifs at heq
      rw [← Except.ok.inj heq]
    simp only [hheap]
    exact h.listed c' l ((hother c' l hne).mp hl) p hp

lemma Filed.allocMemory (h : Filed s) {c k size v : ℕ} {bufType : BufferType} {mgr : Manager}
    (heq : s.mgr.allocMemory c k size bufType = .ok (v, mgr)) :
    Filed ⟨mgr, ⟨c, bufType, v, size⟩ :: s.live⟩ := by
  obtain ⟨l, l', hl, hadd, hwell⟩ := Manager.allocMemory_added h.wellLinked heq
  refine ⟨hwell, (Manager.allocMemory_addressed h.wellLinked h.addressed heq).1, ?_⟩
  intro c' l₁ hl₁ p hp
  -- an item of before keeps its address and its size
  have hold : ∀ l₂, s.mgr.HasList c' l₂ → p ∈ l₂ → ∃ b ∈ (⟨c, bufType, v, size⟩ :: s.live : List Buffer),
      b.context = c' ∧ (mgr.heap p).vaddr = b.vaddr ∧
        (mgr.heap p).size = alignedSize b.size blockSize := by
    intro l₂ hl₂ hp₂
    have hdata := hadd.data p (hl₂.ne_next h.wellLinked p hp₂)
    obtain ⟨b, hb, hcontext, hv, hs⟩ := h.listed c' l₂ hl₂ p hp₂
    exact ⟨b, List.mem_cons_of_mem _ hb, hcontext, (Item.data_vaddr hdata).trans hv,
      (Item.data_size hdata).trans hs⟩
  by_cases hne : c' = c
  · subst hne
    rw [hl₁.unique hadd.list, hadd.perm.mem_iff, List.mem_cons] at hp
    cases hp with
    | inl heq =>
      subst heq
      have hitem := hadd.item
      simp only [Item.data, Prod.mk.injEq] at hitem
      exact ⟨_, List.mem_cons_self, rfl, hitem.2.2.1, hitem.2.2.2.2⟩
    | inr hp => exact hold l hl hp
  · exact hold l₁ ((hadd.hasList_other h.wellLinked hl hne).mp hl₁) hp

lemma Filed.attached (h : Filed s) (p paddr : ℕ) : Filed { s with mgr := s.mgr.attached p paddr } := by
  refine ⟨Manager.attached_wellLinked h.wellLinked p paddr,
    Manager.attached_addressed h.addressed p paddr, ?_⟩
  intro c l hl q hq
  obtain ⟨-, -, hv, hs, -⟩ := Manager.attached_heap s.mgr p paddr q
  rw [hv, hs]
  exact h.listed c l (Manager.attached_hasList.mp hl) q hq

theorem filed_of_reachable (h : managerSystem.ReachableBy (fun _ op => ¬ op.Releases) s) : Filed s := by
  apply h.invariant
  · rintro s rfl
    refine ⟨Manager.new_wellLinked, Manager.new_addressed, ?_⟩
    intro c l hl
    exact absurd hl (Manager.new_no_list c l)
  · rintro s op t hs hkept rfl
    cases op with
    | createNewContext c =>
      simp only [exec]
      split
      · exact hs
      · next mgr heq => exact hs.createNewContext heq
    | allocMemory c k size bufType =>
      simp only [exec]
      split
      · exact hs
      · next v mgr heq => exact hs.allocMemory heq
    | attachPaddr k c v paddr =>
      simp only [exec]
      rcases Manager.attachPaddr_cases hs.wellLinked k c v paddr with ⟨l, p, -, -, -, heq⟩ | ⟨-, e, -, heq⟩
      · rw [heq]
        exact hs.attached p paddr
      · rw [heq]
        exact hs
    | releaseMemory c k v size => exact absurd trivial hkept

/-- A range free of buffers is free of items. -/
lemma Filed.freeAt (h : Filed s) {c size x : ℕ} {bufType : BufferType} {l : List ℕ}
    (hl : s.mgr.HasList c l) (hx : s.FreeRange c bufType size x) :
    s.mgr.FreeAt l x (alignedSize size blockSize) := by
  intro p hp
  have hs := h.addressed c l hl
  obtain ⟨b, hb, hcontext, hv, hsize⟩ := h.listed c l hl p hp
  cases hx.free b hb hcontext with
  | inl hstop =>
    left
    refine (Manager.endOf_addr h.wellLinked hl hs hp).2.2.2 x hx.aligned ?_
    rwa [hv, hsize]
  | inr hstart =>
    right
    have hupper := hx.upper
    have hlower := hx.lower
    rw [← hv] at hstart
    exact Manager.rounded_fits (by omega) hx.aligned (hs.range _ (List.mem_map_of_mem hp)).1 hstart

/-- In every state that was reached without a release, an allocation for which there is a free range
in its segment succeeds there exactly when the list of its context suits it. A list that does not
start with a kernel item suits every kernel buffer. -/
theorem allocates_iff (h : managerSystem.ReachableBy (fun _ op => ¬ op.Releases) s) {c : ℕ}
    (hc : c ∈ s.mgr.cxtMem) (k : ℕ) {size x : ℕ} {bufType : BufferType}
    (hlimit : alignedSize size blockSize < (Manager.segment bufType).2)
    (hx : s.FreeRange c bufType size x) : ∃ l, s.mgr.HasList c l ∧
      (s.Allocates c k size bufType ↔ size ≠ 0 ∧ s.mgr.Suits bufType (alignedSize size blockSize) l) ∧
      ((∀ p ∈ l.head?, (s.mgr.heap p).vaddr < bufParaBase) →
        s.mgr.Suits .kernelMem (alignedSize size blockSize) l) := by
  have hfiled := filed_of_reachable h
  obtain ⟨l, hl⟩ := hfiled.wellLinked.list c hc
  have hs := hfiled.addressed c l hl
  refine ⟨l, hl, ?_, fun hhead => Manager.suits_kernelMem hfiled.wellLinked hl hs (.inl hhead) _⟩
  rw [Manager.segment_limit] at hlimit
  by_cases hzero : size = 0
  · refine iff_of_false ?_ fun hsuits => hsuits.1 hzero
    rintro ⟨v, mgr, heq, -⟩
    exact (Manager.allocMemory_cases hfiled.wellLinked heq).1 hzero
  have hbase := (Manager.segment_base bufType).1
  have hend : 4096 ∣ (Manager.segment bufType).1 + 0x20000000 := Nat.dvd_add hbase (by norm_num)
  have hsmall : size < 0x40000000 := by
    have := hx.upper
    have := hx.lower
    omega
  have hround : size ≤ alignedSize size blockSize := by
    have hblock : blockSize = 2 ^ 6 := rfl
    rw [hblock, alignedSize_eq (by norm_num) (by norm_num; omega)]
    omega
  have hup := Manager.rounded_fits hsmall hx.aligned hend hx.upper
  rw [and_iff_right hzero]
  cases l with
  | nil =>
    refine iff_of_true ⟨_, _, Manager.allocMemory_nil hl hzero hlimit, le_rfl, by omega⟩ ?_
    cases bufType <;> simp [Manager.Suits, Manager.FirstFrom, Manager.addrs, Manager.firstRoom]
  | cons root rest =>
    rw [← Manager.finds_iff hfiled.wellLinked hl hs (by omega) hlimit bufType (hfiled.freeAt hl hx)
      hx.lower hup]
    constructor
    · rintro ⟨v, mgr, heq, hlow, hhigh⟩
      obtain ⟨-, hpage, -⟩ :=
        Manager.allocMemory_addressed hfiled.wellLinked hfiled.addressed heq
      rw [Manager.allocMemory_cons hl hzero hlimit] at heq
      cases halloc : s.mgr.allocVaddr root (alignedSize size blockSize) bufType with
      | error e =>
        rw [halloc] at heq
        cases heq
      | ok place =>
        rw [halloc] at heq
        obtain ⟨rfl, -⟩ := Prod.mk.inj (Except.ok.inj heq)
        exact ⟨place.1, place.2, halloc, hlow, Manager.rounded_fits hsmall hpage hend hhigh⟩
    · rintro ⟨a, v, halloc, hlow, hhigh⟩
      refine ⟨v, s.mgr.insertNewItem a c k v (alignedSize size blockSize), ?_, hlow, by omega⟩
      rw [Manager.allocMemory_cons hl hzero hlimit, halloc]

/-- One context with one buffer. -/
lemma oneBuffer_reachable (bufType : BufferType) : managerSystem.ReachableBy (fun _ op => ¬ op.Releases)
    ([ManagerOp.createNewContext 0, .allocMemory 0 0 4096 bufType].foldl exec ⟨Manager.new, []⟩) := by
  refine (TransitionSystem.ReachableBy.start rfl).foldl (fun _ _ => rfl) fun op hop _ => ?_
  simp only [List.mem_cons, List.not_mem_nil, or_false] at hop
  rcases hop with rfl | rfl <;> exact id

/-- A kernel buffer behind a writable one. -/
theorem allocates_iff_kernel : ∃ s, managerSystem.ReachableBy (fun _ op => ¬ op.Releases) s ∧
    s.live = [⟨0, .readWrite, 0x60000000, 4096⟩] ∧ s.Allocates 0 0 4096 .kernelMem := by
  let ops : List ManagerOp := [.createNewContext 0, .allocMemory 0 0 4096 .readWrite]
  let s : ManagerState := ops.foldl exec ⟨Manager.new, []⟩
  have hreach : managerSystem.ReachableBy (fun _ op => ¬ op.Releases) s := oneBuffer_reachable .readWrite
  have hlive : s.live = [⟨0, .readWrite, 0x60000000, 4096⟩] := by decide +kernel
  have hone : s.mgr.HasList 0 [0] := ⟨some 0, by decide +kernel, rfl, by decide +kernel,
    show (s.mgr.heap 0).succ = none by decide +kernel⟩
  have hfree : s.FreeRange 0 .kernelMem 4096 0x80000000 := by
    refine ⟨by decide, by decide, by decide, ?_⟩
    rw [hlive]
    decide
  obtain ⟨l, hl, hiff, hkernel⟩ := allocates_iff hreach hone.mem 0 (by decide) hfree
  obtain rfl := hl.unique hone
  have hhead : (s.mgr.heap 0).vaddr < bufParaBase := by decide +kernel
  refine ⟨s, hreach, hlive, hiff.mpr ⟨by decide, hkernel ?_⟩⟩
  simpa using hhead

/-- After a kernel buffer there is no room for a writable one, although its segment is empty. -/
theorem kernel_first_refuses : ∃ s, managerSystem.ReachableBy (fun _ op => ¬ op.Releases) s ∧
    0 ∈ s.mgr.cxtMem ∧ s.FreeRange 0 .readWrite 4096 0x60000000 ∧ ¬ s.Allocates 0 0 4096 .readWrite := by
  let ops : List ManagerOp := [.createNewContext 0, .allocMemory 0 0 4096 .kernelMem]
  let s : ManagerState := ops.foldl exec ⟨Manager.new, []⟩
  have hreach : managerSystem.ReachableBy (fun _ op => ¬ op.Releases) s := oneBuffer_reachable .kernelMem
  have hlive : s.live = [⟨0, .kernelMem, 0x80000000, 4096⟩] := by decide +kernel
  have hnone : (s.mgr.allocMemory 0 0 4096 .readWrite).toOption.isNone = true := by decide +kernel
  refine ⟨s, hreach, by decide +kernel, ⟨by decide, by decide, by decide, ?_⟩, ?_⟩
  · rw [hlive]
    decide
  · rintro ⟨v, mgr, heq, -⟩
    simp [heq, Except.toOption] at hnone

end ManagerState
end VentusDriver
