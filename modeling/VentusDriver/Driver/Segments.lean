import VentusDriver.Foundation.Intervals
import VentusDriver.Foundation.Transition
import VentusDriver.Driver.ItemLists

/-! The segments of virtual memory. Under three conditions on the allocations of a run, the live
buffers of a context lie disjoint in the segments of their types and its list is ascending. -/
namespace VentusDriver
open Foundation Intervals Linked

/-- The end of the bytes of an item. -/
def Item.limit (i : Item) : ℕ := i.vaddr + i.size

lemma Item.data_limit {i j : Item} (h : i.data = j.data) : i.limit = j.limit := by
  rw [Item.limit, Item.limit, Item.data_vaddr h, Item.data_size h]

namespace Manager

/-- An item at a page boundary that does not cross the border of a segment. -/
structure ItemOk (i : Item) : Prop where
  aligned : 4096 ∣ i.vaddr
  pos : 0 < i.size
  lower : rodataBase ≤ i.vaddr
  upper : i.limit ≤ bufParaBase + globalmemSize / 2
  rodata : i.vaddr < rwdataBase → i.limit ≤ rwdataBase
  rwdata : i.vaddr < bufParaBase → i.limit ≤ bufParaBase

/-- A list in the order of its addresses. A used segment is used from its base, as far as
`allocVaddr` relies on that. -/
structure OrderedList (heap : ℕ → Item) (l : List ℕ) : Prop where
  ascending : Ascending (fun p => (heap p).vaddr) (fun p => (heap p).limit) l
  item : ∀ p ∈ l, ItemOk (heap p)
  first : ∀ p ∈ l.head?, (heap p).vaddr = rodataBase ∨ (heap p).vaddr = rwdataBase ∨
    bufParaBase ≤ (heap p).vaddr
  kernelFirst : ∀ p ∈ l, bufParaBase ≤ (heap p).vaddr → ∃ x ∈ l, (heap x).vaddr = bufParaBase

/-- Where a new item of `size` bytes at `v` goes in the list. -/
structure Placed (heap : ℕ → Item) (bufType : BufferType) (v size : ℕ) (before after : List ℕ) :
    Prop where
  low : ∀ p ∈ before, (heap p).limit ≤ v
  high : ∀ p ∈ after, v + size ≤ (heap p).vaddr
  aligned : 4096 ∣ v
  inside : (segment bufType).1 ≤ v ∧ v + size ≤ (segment bufType).1 + 0x20000000
  first : before = [] → v = (segment bufType).1
  kernelFirst : bufType = .kernelMem → v = bufParaBase ∨
    ∃ p ∈ before, bufParaBase ≤ (heap p).vaddr

/-- An item at a page boundary inside the segment of a buffer type. -/
lemma itemOk_of_segment {i : Item} {bufType : BufferType} (haligned : 4096 ∣ i.vaddr) (hpos : 0 < i.size)
    (hlow : (segment bufType).1 ≤ i.vaddr) (hhigh : i.limit ≤ (segment bufType).1 + 0x20000000) :
    ItemOk i := by
  rw [Item.limit] at hhigh
  refine ⟨haligned, hpos, ?_, ?_, ?_, ?_⟩
  all_goals
    simp only [Item.limit, globalmemSize_eq, rodataBase_eq, rwdataBase_eq, bufParaBase_eq]
    cases bufType <;>
      simp only [segment, rodataBase_eq, rwdataBase_eq, bufParaBase_eq] at hlow hhigh <;> omega

/-- A place in the kernel segment is its start or behind an item of it. -/
lemma Placed.kernel {heap : ℕ → Item} {bufType : BufferType} {v size : ℕ} {before after : List ℕ}
    (h : Placed heap bufType v size before after) (hpos : 0 < size) (hv : bufParaBase ≤ v) :
    v = bufParaBase ∨ ∃ p ∈ before, bufParaBase ≤ (heap p).vaddr := by
  obtain ⟨-, hhigh⟩ := h.inside
  rw [bufParaBase_eq] at hv
  cases bufType with
  | kernelMem => exact h.kernelFirst rfl
  | readOnly =>
    simp only [segment, rodataBase_eq] at hhigh
    omega
  | readWrite =>
    simp only [segment, rwdataBase_eq] at hhigh
    omega

namespace OrderedList
variable {heap heap' : ℕ → Item} {l pre post : List ℕ} {a : ℕ}

/-- Only the addresses and sizes of the items matter. -/
lemma congr (h : OrderedList heap l) (hv : ∀ p ∈ l, (heap' p).vaddr = (heap p).vaddr)
    (hs : ∀ p ∈ l, (heap' p).size = (heap p).size) : OrderedList heap' l := by
  have hlim : ∀ p ∈ l, (heap' p).limit = (heap p).limit := by
    intro p hp
    rw [Item.limit, Item.limit, hv p hp, hs p hp]
  refine ⟨?_, ?_, ?_, ?_⟩
  · refine List.Pairwise.imp_of_mem ?_ h.ascending
    intro p q hp hq hpq
    have heq : (heap' p).limit ≤ (heap' q).vaddr ↔ (heap p).limit ≤ (heap q).vaddr := by
      rw [hlim p hp, hv q hq]
    exact heq.mpr hpq
  · intro p hp
    obtain ⟨h1, h2, h3, h4, h5, h6⟩ := h.item p hp
    refine ⟨?_, ?_, ?_, ?_, ?_, ?_⟩
    · rwa [hv p hp]
    · rwa [hs p hp]
    · rwa [hv p hp]
    · rwa [hlim p hp]
    · rwa [hv p hp, hlim p hp]
    · rwa [hv p hp, hlim p hp]
  · intro p hp
    rw [hv p (List.mem_of_mem_head? hp)]
    exact h.first p hp
  · intro p hp hpara
    rw [hv p hp] at hpara
    obtain ⟨x, hx, hxv⟩ := h.kernelFirst p hp hpara
    exact ⟨x, hx, (hv x hx).trans hxv⟩

lemma before_le (h : OrderedList heap (pre ++ a :: post)) {p : ℕ} (hp : p ∈ pre) :
    (heap p).limit ≤ (heap a).vaddr :=
  (List.pairwise_append.mp h.ascending).2.2 p hp a List.mem_cons_self

lemma after_ge (h : OrderedList heap (pre ++ a :: post)) {p : ℕ} (hp : p ∈ post) :
    (heap a).limit ≤ (heap p).vaddr :=
  List.rel_of_pairwise_cons (List.pairwise_append.mp h.ascending).2.1 hp

/-- The first page boundary behind an item. -/
lemma endOf_bounds (h : OrderedList heap l) {p : ℕ} (hp : p ∈ l) :
    (heap p).limit ≤ endOf (heap p) ∧ endOf (heap p) < (heap p).limit + 4096 ∧
      4096 ∣ endOf (heap p) ∧ (heap p).vaddr < endOf (heap p) ∧ endOf (heap p) ≤ 0xA0000000 := by
  have hok := h.item p hp
  have hpos := hok.pos
  have hupper := hok.upper
  rw [kernelEnd_eq] at hupper
  have heq : endOf (heap p) = ((heap p).vaddr + (heap p).size + 4095) / 4096 * 4096 :=
    endOf_eq (by rw [Item.limit] at hupper; omega)
  rw [heq]
  rw [Item.limit] at hupper ⊢
  omega

/-- A place right behind an item with room up to its successor. -/
lemma placed_behind (h : OrderedList heap (pre ++ a :: post)) {bufType : BufferType} {size : ℕ}
    (hroom : ∀ p ∈ post.head?, endOf (heap a) + size ≤ (heap p).vaddr)
    (hlow : (segment bufType).1 ≤ (heap a).vaddr)
    (hhigh : endOf (heap a) + size ≤ (segment bufType).1 + 0x20000000) :
    Placed heap bufType (endOf (heap a)) size (pre ++ [a]) post := by
  obtain ⟨h1, h2, h3, h4, h5⟩ := h.endOf_bounds (show a ∈ pre ++ a :: post by simp)
  refine ⟨?_, ?_, h3, ⟨by omega, hhigh⟩, by simp, ?_⟩
  · intro p hp
    cases List.mem_append.mp hp with
    | inl hp =>
      have := h.before_le hp
      omega
    | inr hp =>
      rw [List.mem_singleton.mp hp]
      exact h1
  · intro p hp
    cases post with
    | nil => simp at hp
    | cons q post =>
      have hq := hroom q rfl
      cases List.mem_cons.mp hp with
      | inl heq =>
        subst heq
        exact hq
      | inr hp =>
        have hasc := (List.pairwise_append.mp h.ascending).2.1
        have hqp : (heap q).limit ≤ (heap p).vaddr := List.rel_of_pairwise_cons hasc.tail hp
        rw [Item.limit] at hqp
        omega
  · rintro rfl
    exact .inr ⟨a, by simp, hlow⟩

/-- A walk that stops below its limit has room up to the next item. -/
lemma stops_room (h : OrderedList heap (pre ++ a :: post)) (hsucc : (heap a).succ = post.head?)
    {size limit : ℕ} (hsize : size < 0x20000000) (hstop : StopsAt heap limit size a)
    (ha : (heap a).vaddr < limit) : ∀ p ∈ post.head?, endOf (heap a) + size ≤ (heap p).vaddr := by
  intro p hp
  have hend := (h.endOf_bounds (show a ∈ pre ++ a :: post by simp)).2.2.2.2
  rw [Option.mem_def] at hp
  rw [StopsAt, hsucc, hp, u64_of_lt (by omega)] at hstop
  rcases hstop with hge | hnone | ⟨q, hq, hfits⟩
  · omega
  · cases hnone
  · rwa [Option.some.inj hq]

/-- The successor of an item of the read-write segment starts in it or at its end. -/
lemma succ_le_para {q : ℕ} (h : OrderedList heap (pre ++ a :: q :: post))
    (ha : (heap a).vaddr < bufParaBase) : (heap q).vaddr ≤ bufParaBase := by
  by_contra hlt
  obtain ⟨x, hx, hxv⟩ := h.kernelFirst q (by simp) (by omega)
  -- the kernel item at the base would stand between the two
  rw [List.mem_append, List.mem_cons, List.mem_cons] at hx
  rcases hx with hx | rfl | rfl | hx
  · have := h.before_le hx
    rw [Item.limit] at this
    omega
  · omega
  · omega
  · rw [← List.singleton_append, ← List.append_assoc] at h
    have := h.after_ge hx
    rw [Item.limit] at this
    omega

/-- A new item at its place keeps the order. -/
theorem insert (h : OrderedList heap (pre ++ post)) {bufType : BufferType} {v size x : ℕ}
    (hplaced : Placed heap bufType v size pre post) (hpos : 0 < size)
    (hdata : ∀ p ∈ pre ++ post, (heap' p).data = (heap p).data)
    (hv : (heap' x).vaddr = v) (hsize : (heap' x).size = size) :
    OrderedList heap' (pre ++ x :: post) := by
  have h' := h.congr (fun p hp => Item.data_vaddr (hdata p hp)) fun p hp =>
    Item.data_size (hdata p hp)
  have hlim : (heap' x).limit = v + size := by rw [Item.limit, hv, hsize]
  have hvaddr : ∀ p ∈ pre ++ post, (heap' p).vaddr = (heap p).vaddr :=
    fun p hp => Item.data_vaddr (hdata p hp)
  have hlimit : ∀ p ∈ pre ++ post, (heap' p).limit = (heap p).limit :=
    fun p hp => Item.data_limit (hdata p hp)
  refine ⟨?_, ?_, ?_, ?_⟩
  · apply h'.ascending.splice
    · intro p hp
      rw [hlimit p (List.mem_append_left _ hp), hv]
      exact hplaced.low p hp
    · intro p hp
      rw [hvaddr p (List.mem_append_right _ hp), hlim]
      exact hplaced.high p hp
  · intro p hp
    rw [List.mem_append, List.mem_cons] at hp
    rcases hp with hp | rfl | hp
    · exact h'.item p (List.mem_append_left _ hp)
    · exact itemOk_of_segment (hv ▸ hplaced.aligned) (hsize ▸ hpos) (hv ▸ hplaced.inside.1)
        (hlim ▸ hplaced.inside.2)
    · exact h'.item p (List.mem_append_right _ hp)
  · intro p hp
    cases pre with
    | nil =>
      obtain rfl : x = p := by simpa using hp
      rw [hv, hplaced.first rfl]
      cases bufType with
      | readWrite => exact .inr (.inl rfl)
      | readOnly => exact .inl rfl
      | kernelMem => exact .inr (.inr le_rfl)
    | cons q pre => exact h'.first p (by simpa using hp)
  · have hkeep : (∃ p ∈ pre ++ post, bufParaBase ≤ (heap' p).vaddr) →
        ∃ y ∈ pre ++ x :: post, (heap' y).vaddr = bufParaBase := by
      rintro ⟨p, hp, hpara⟩
      obtain ⟨y, hy, hyv⟩ := h'.kernelFirst p hp hpara
      refine ⟨y, ?_, hyv⟩
      rw [List.mem_append] at hy
      rw [List.mem_append, List.mem_cons]
      tauto
    intro p hp hpara
    rw [List.mem_append, List.mem_cons] at hp
    rcases hp with hp | rfl | hp
    · exact hkeep ⟨p, List.mem_append_left _ hp, hpara⟩
    · rcases hplaced.kernel hpos (hv ▸ hpara) with hbase | ⟨q, hq, hqpara⟩
      · exact ⟨p, by simp, hv.trans hbase⟩
      · refine hkeep ⟨q, List.mem_append_left _ hq, ?_⟩
        rwa [hvaddr q (List.mem_append_left _ hq)]
    · exact hkeep ⟨p, List.mem_append_right _ hp, hpara⟩

end OrderedList

/-! ### The placement of a new item -/

section Placement
variable {m : Manager} {c root a v size : ℕ} {rest : List ℕ}

/-- The items after which the new one stands, and those before which it stands. -/
def PlacedIn (m : Manager) (bufType : BufferType) (a v size : ℕ) (l : List ℕ) : Prop :=
  ∃ pre post, l = pre ++ a :: post ∧
    if v = rodataBase ∧ (m.heap a).vaddr = rwdataBase then Placed m.heap bufType v size [] l
    else Placed m.heap bufType v size (pre ++ [a]) post

/-- A successor in the chain is the next item of the list. -/
lemma lastBelow_of_le (h : OrderedList m.heap rest) {pre post : List ℕ} {bound : ℕ}
    (hlist : rest = pre ++ a :: post) (hsucc : (m.heap a).succ = post.head?)
    (ha : bound ≤ (m.heap a).vaddr) : lastBelow m.heap bound a = true := by
  subst hlist
  rw [lastBelow, hsucc]
  cases post with
  | nil => rfl
  | cons q post =>
    have hq := h.after_ge (show q ∈ q :: post by simp)
    rw [Item.limit] at hq
    simp only [List.head?_cons, decide_eq_true_eq]
    omega

theorem allocReadOnly_placed (h : m.WellLinked) (hl : m.HasList c (root :: rest))
    (hord : OrderedList m.heap (root :: rest)) (hhead : (m.heap root).vaddr < bufParaBase)
    (hsize : size < 0x20000000) (heq : m.allocReadOnly root size = .ok (a, v)) :
    m.PlacedIn .readOnly a v size (root :: rest) := by
  rcases allocReadOnly_spec h hl size with ⟨hroot, hres⟩ | ⟨hroot, pre, a', post, hlist, -, hstop, hres⟩
  · rw [heq] at hres
    obtain ⟨rfl, rfl⟩ := Prod.mk.inj (Except.ok.inj hres)
    have hrw : (m.heap a).vaddr = rwdataBase := by
      rcases hord.first a rfl with hro | hrw | hpara
      · exact absurd hro hroot
      · exact hrw
      · omega
    refine ⟨[], rest, rfl, ?_⟩
    rw [if_pos ⟨rfl, hrw⟩]
    rw [rwdataBase_eq] at hrw
    refine ⟨by simp, ?_, by decide, ?_, fun _ => rfl, by simp⟩
    · intro p hp
      rw [rodataBase_eq]
      cases List.mem_cons.mp hp with
      | inl heq =>
        subst heq
        omega
      | inr hp =>
        have hap : (m.heap a).limit ≤ (m.heap p).vaddr :=
          List.rel_of_pairwise_cons hord.ascending hp
        rw [Item.limit] at hap
        omega
    · simp only [segment]
      omega
  · rw [heq] at hres
    split_ifs at hres with hfull
    obtain ⟨rfl, rfl⟩ := Prod.mk.inj (Except.ok.inj hres)
    have hsucc := hl.succ_eq hlist
    have hbounds := hord.endOf_bounds (show a ∈ root :: rest by rw [hlist]; simp)
    rw [u64_of_lt (by omega)] at hfull
    have hlow : rodataBase ≤ (m.heap a).vaddr :=
      (hord.item a (by rw [hlist]; simp)).lower
    -- an item of the segment above ends the loop only to find no space
    have ha : (m.heap a).vaddr < rwdataBase := by
      by_contra hge
      exact hfull ⟨lastBelow_of_le hord hlist hsucc (Nat.le_of_not_lt hge), by omega⟩
    refine ⟨pre, post, hlist, ?_⟩
    rw [if_neg fun hc => by omega]
    rw [hlist] at hord
    have hroom := hord.stops_room hsucc hsize hstop ha
    rw [lastBelow, hsucc] at hfull
    rw [rodataBase_eq] at hlow
    rw [rwdataBase_eq] at hfull ha
    refine hord.placed_behind hroom hlow ?_
    simp only [segment, rodataBase_eq]
    cases post with
    | nil =>
      simp only [List.head?_nil, true_and] at hfull
      omega
    | cons q post =>
      have hfits := hroom q rfl
      simp only [List.head?_cons, decide_eq_true_eq, not_and, not_lt] at hfull
      omega

/-- The segments above the read-only one. The search must not end at an item behind the segment
that has a successor. -/
theorem allocAbove_placed (h : m.WellLinked) (hl : m.HasList c (root :: rest))
    (hord : OrderedList m.heap (root :: rest)) (hpos : 0 < size) (hsize : size < 0x20000000)
    {bufType : BufferType} {skip : Bool} (hbase : rwdataBase ≤ (segment bufType).1)
    (hskip : skip = false → (segment bufType).1 ≤ (m.heap root).vaddr)
    (hstay : ∀ low pre a q post, root :: rest = low ++ (pre ++ a :: q :: post) →
      (∀ p ∈ low, (m.heap p).vaddr < (segment bufType).1) →
      Passed m.heap ((segment bufType).1 + 0x20000000) size pre →
      (m.heap a).vaddr < (segment bufType).1 + 0x20000000)
    (heq : m.allocAbove root size (segment bufType).1 ((segment bufType).1 + 0x20000000) skip =
      .ok (a, v)) : m.PlacedIn bufType a v size (root :: rest) := by
  rw [rwdataBase_eq] at hbase
  rcases allocAbove_walk h hl size ((segment bufType).1 + 0x20000000) hskip with
    ⟨pre, a', hlist, hbelow, hres⟩ | ⟨low, pre, a', post, hlist, hlow, hhead, hpre, hstop, hres⟩
  · rw [heq] at hres
    obtain ⟨rfl, rfl⟩ := Prod.mk.inj (Except.ok.inj hres)
    refine ⟨pre, [], hlist, ?_⟩
    rw [if_neg fun hc => by rw [rodataBase_eq] at hc; omega, ← hlist]
    refine ⟨?_, by simp, ?_, ⟨le_rfl, by omega⟩, by simp, ?_⟩
    · intro p hp
      have hitem := hord.item p hp
      cases bufType with
      | readOnly => exact absurd hbase (by decide)
      | readWrite => exact hitem.rodata (hbelow p hp)
      | kernelMem => exact hitem.rwdata (hbelow p hp)
    · cases bufType <;> decide
    · rintro rfl
      exact .inl rfl
  · rw [heq] at hres
    split_ifs at hres with hfull
    obtain ⟨rfl, rfl⟩ := Prod.mk.inj (Except.ok.inj hres)
    have hlist' : root :: rest = (low ++ pre) ++ a :: post := by rw [hlist, List.append_assoc]
    have hsucc := hl.succ_eq hlist'
    rw [hlist'] at hord
    have hbounds := hord.endOf_bounds (show a ∈ (low ++ pre) ++ a :: post by simp)
    have ha : (segment bufType).1 ≤ (m.heap a).vaddr := by
      cases pre with
      | nil => exact hhead a rfl
      | cons p pre =>
        have hp := hord.before_le (show p ∈ low ++ p :: pre by simp)
        rw [Item.limit] at hp
        exact (hhead p rfl).trans (by omega)
    refine ⟨low ++ pre, post, hlist', ?_⟩
    rw [if_neg fun hc => by rw [rodataBase_eq] at hc; omega]
    rw [hsucc, u64_of_lt (by omega)] at hfull
    cases post with
    | nil =>
      apply hord.placed_behind (by simp) ha
      simp only [List.head?_nil, true_and, not_lt] at hfull
      exact hfull
    | cons q post =>
      have hstay' := hstay low pre a q post hlist hlow hpre
      have hroom := hord.stops_room hsucc hsize hstop hstay'
      refine hord.placed_behind hroom ha ((hroom q rfl).trans ?_)
      cases bufType with
      | readOnly => exact absurd hbase (by decide)
      | readWrite => exact hord.succ_le_para hstay'
      | kernelMem =>
        have hupper := (hord.item q (by simp)).upper
        rw [Item.limit] at hupper
        exact (Nat.le_add_right _ _).trans hupper

/-- What a `READ_WRITE` allocation needs: no item of the kernel segment has a successor, or there
is room behind an item of the read-write segment. -/
def ReadWriteRoom (m : Manager) (size : ℕ) (l : List ℕ) : Prop :=
  (∀ p ∈ l, bufParaBase ≤ (m.heap p).vaddr → (m.heap p).succ = none) ∨
    ∃ p ∈ l, rwdataBase ≤ (m.heap p).vaddr ∧ (m.heap p).vaddr < bufParaBase ∧
      ∀ q ∈ (m.heap p).succ, endOf (m.heap p) + size ≤ (m.heap q).vaddr

/-- Under these conditions on the list an allocation finds a place in the segment of its type. -/
def Fits (m : Manager) (bufType : BufferType) (size : ℕ) (l : List ℕ) : Prop :=
  match bufType with
  | .readOnly => ∀ p ∈ l.head?, (m.heap p).vaddr < bufParaBase
  | .readWrite => m.ReadWriteRoom size l
  | .kernelMem => True

lemma ReadWriteRoom.stays (hl : m.HasList c rest) (hord : OrderedList m.heap rest)
    (hroom : m.ReadWriteRoom size rest) (hsize : size < 0x20000000) {low pre post : List ℕ} {q : ℕ}
    (hlist : rest = low ++ (pre ++ a :: q :: post)) (hlow : ∀ p ∈ low, (m.heap p).vaddr < rwdataBase)
    (hpre : Passed m.heap bufParaBase size pre) : (m.heap a).vaddr < bufParaBase := by
  have hlist' : rest = (low ++ pre) ++ a :: q :: post := by rw [hlist, List.append_assoc]
  have hsucc := hl.succ_eq hlist'
  by_contra hge
  rcases hroom with hlast | ⟨p, hp, hrw, hpara, hgap⟩
  · have hnone := hlast a (by rw [hlist']; simp) (by omega)
    rw [hsucc] at hnone
    cases hnone
  · have hbounds := hord.endOf_bounds hp
    rw [hlist', List.mem_append, List.mem_append, List.mem_cons] at hp
    rw [hlist'] at hord
    rcases hp with (hp | hp) | rfl | hp
    · exact absurd (hlow p hp) (by omega)
    · obtain ⟨-, q', hq', hshort⟩ := hpre p hp
      rw [u64_of_lt (by omega)] at hshort
      have := hgap q' hq'
      omega
    · omega
    · have := hord.after_ge hp
      rw [Item.limit] at this
      omega

theorem allocVaddr_placed (h : m.WellLinked) (hl : m.HasList c (root :: rest))
    (hord : OrderedList m.heap (root :: rest)) (hpos : 0 < size) (hsize : size < 0x20000000)
    {bufType : BufferType} (hfits : m.Fits bufType size (root :: rest))
    (heq : m.allocVaddr root size bufType = .ok (a, v)) :
    m.PlacedIn bufType a v size (root :: rest) := by
  have hfirst := hord.first root rfl
  cases bufType with
  | readOnly => exact allocReadOnly_placed h hl hord (hfits root rfl) hsize heq
  | readWrite =>
    have hlimit : bufParaBase = (segment .readWrite).1 + 0x20000000 := by decide
    rw [allocVaddr, hlimit] at heq
    refine allocAbove_placed h hl hord hpos hsize le_rfl ?_ ?_ heq
    · intro hskip
      have hro := of_decide_eq_false hskip
      rcases hfirst with hfirst | hfirst | hfirst
      · exact absurd hfirst hro
      · exact hfirst.ge
      · exact (show rwdataBase ≤ bufParaBase by decide).trans hfirst
    · intro low pre a q post hlist hlow hpre
      rw [← hlimit] at hpre ⊢
      exact ReadWriteRoom.stays hl hord hfits hsize hlist hlow hpre
  | kernelMem =>
    have hlimit : bufParaBase + globalmemSize / 2 = (segment .kernelMem).1 + 0x20000000 := by decide
    rw [allocVaddr, hlimit] at heq
    refine allocAbove_placed h hl hord hpos hsize (by decide) ?_ ?_ heq
    · intro hskip
      have hlower := of_decide_eq_false hskip
      rcases hfirst with hfirst | hfirst | hfirst
      · exact absurd (.inl hfirst) hlower
      · exact absurd (.inr hfirst) hlower
      · exact hfirst
    · intro low pre a q post hlist _ _
      have hitem := hord.item a (by rw [hlist]; simp)
      have hupper := hitem.upper
      have hpos' := hitem.pos
      rw [Item.limit, hlimit] at hupper
      omega

lemma alignedSize_bounds {size : ℕ} (hsize : size < 0x20000000) :
    size ≤ alignedSize size blockSize ∧ (0 < size → 0 < alignedSize size blockSize) := by
  have hblock : blockSize = 2 ^ 6 := rfl
  rw [hblock, alignedSize_eq (by norm_num) (by norm_num; omega)]
  omega

/-- An allocation for which the list of its context fits keeps all lists in order, and its buffer
lies in its segment, apart from the items of the list. -/
theorem allocMemory_ordered {m' : Manager} {k : ℕ} (h : m.WellLinked)
    (hord : ∀ c l, m.HasList c l → OrderedList m.heap l) (hpos : 0 < size)
    (hsmall : size < 0x20000000) {bufType : BufferType}
    (hfits : ∀ l, m.HasList c l → m.Fits bufType (alignedSize size blockSize) l)
    (heq : m.allocMemory c k size bufType = .ok (v, m')) :
    (∀ c l, m'.HasList c l → OrderedList m'.heap l) ∧ (segment bufType).1 ≤ v ∧
      v + alignedSize size blockSize ≤ (segment bufType).1 + 0x20000000 ∧
      ∀ l, m.HasList c l → ∀ p ∈ l, (m.heap p).limit ≤ v ∨
        v + alignedSize size blockSize ≤ (m.heap p).vaddr := by
  have hpos' := (alignedSize_bounds hsmall).2 hpos
  -- the place of the new item in the list
  have hplace : ∃ pre post, m.HasList c (pre ++ post) ∧
      Placed m.heap bufType v (alignedSize size blockSize) pre post ∧
      Added m c k v (alignedSize size blockSize) (pre ++ post) (pre ++ m.next :: post) m' := by
    obtain ⟨-, hlimit, ⟨hl, rfl, hadd⟩ | ⟨root, rest, a, hl, halloc, rfl⟩⟩ := allocMemory_cases h heq
    · refine ⟨[], [], hl, ⟨by simp, by simp, ?_, ⟨le_rfl, by omega⟩, fun _ => rfl, ?_⟩, hadd⟩
      · cases bufType <;> decide
      · rintro rfl
        exact .inl rfl
    · obtain ⟨pre, post, hlist, hplaced⟩ :=
        allocVaddr_placed h hl (hord c _ hl) hpos' hlimit (hfits _ hl) halloc
      have hadd := insertNewItem_added h k (alignedSize size blockSize) (hlist ▸ hl)
        (opens_first h hl halloc hlist)
      split_ifs at hadd hplaced with hcond
      · exact ⟨[], _, hl, hplaced, hlist ▸ hadd⟩
      · refine ⟨pre ++ [a], post, ?_, hplaced, ?_⟩
        · simpa [hlist] using hl
        · simpa using hadd
  obtain ⟨pre, post, hl, hplaced, hadd⟩ := hplace
  obtain ⟨-, -, hv, -, hs⟩ : _ ∧ _ ∧ (m'.heap m.next).vaddr = v ∧ _ ∧
      (m'.heap m.next).size = alignedSize size blockSize := by
    simpa only [Item.data, Prod.mk.injEq] using hadd.item
  have hkeep : ∀ c' l', m.HasList c' l' → ∀ p ∈ l', (m'.heap p).data = (m.heap p).data := by
    intro c' l' hl' p hp
    have := (h.item c' l' hl' p hp).1
    exact hadd.data p (by omega)
  refine ⟨?_, hplaced.inside.1, hplaced.inside.2, ?_⟩
  · intro c' l' hl'
    by_cases hne : c' = c
    · subst hne
      rw [hl'.unique hadd.list]
      exact (hord c' _ hl).insert hplaced hpos' (hkeep c' _ hl) hv hs
    · rw [hadd.hasList_other h hl hne] at hl'
      exact (hord c' l' hl').congr (fun p hp => Item.data_vaddr (hkeep c' l' hl' p hp))
        fun p hp => Item.data_size (hkeep c' l' hl' p hp)
  · intro l' hl' p hp
    rw [hl'.unique hl, List.mem_append] at hp
    cases hp with
    | inl hp =>
      exact .inl (hplaced.low p hp)
    | inr hp =>
      exact .inr (hplaced.high p hp)

end Placement

end Manager
end VentusDriver
