import VentusDriver.Driver.ItemLists

/-! The virtual addresses of a context in the order of its list. Whatever was allocated before, they
stay within bounds, and the first address from the start of a segment on is that start, as far as the
walks of `allocVaddr` rely on it. -/
namespace VentusDriver
open Foundation

namespace Manager

/-- The first address from `bound` on, if there is one, satisfies `P`. -/
def FirstFrom (bound : ℕ) (P : ℕ → Prop) (as : List ℕ) : Prop :=
  ∀ a ∈ as.find? (fun a => decide (bound ≤ a)), P a

section FirstFrom
variable {bound v a : ℕ} {P : ℕ → Prop} {as pre post : List ℕ}

lemma FirstFrom.insert (h : FirstFrom bound P (pre ++ post))
    (hv : (∀ b ∈ pre, b < bound) → bound ≤ v → P v) : FirstFrom bound P (pre ++ v :: post) := by
  induction pre with
  | nil =>
    intro a ha
    rw [List.nil_append, List.find?_cons] at ha
    by_cases hbound : bound ≤ v
    · simp only [hbound, decide_true, Option.mem_def, Option.some.injEq] at ha
      exact ha ▸ hv (by simp) hbound
    · simp only [hbound, decide_false] at ha
      exact h a ha
  | cons b pre ih =>
    intro a ha
    rw [List.cons_append, List.find?_cons] at ha
    by_cases hbound : bound ≤ b
    · apply h a
      rw [List.cons_append, List.find?_cons]
      simpa only [hbound, decide_true] using ha
    · simp only [hbound, decide_false] at ha
      refine ih ?_ ?_ a ha
      · intro a' ha'
        apply h a'
        rw [List.cons_append, List.find?_cons]
        simpa only [hbound, decide_false] using ha'
      · intro hpre hvb
        apply hv _ hvb
        intro b' hb'
        cases hb' with
        | head => omega
        | tail _ hb' => exact hpre b' hb'

lemma FirstFrom.get (h : FirstFrom bound P (pre ++ a :: post)) (hpre : ∀ b ∈ pre, b < bound)
    (ha : bound ≤ a) : P a := by
  apply h a
  have hnone : pre.find? (fun b => decide (bound ≤ b)) = none := by
    rw [List.find?_eq_none]
    intro b hb
    have := hpre b hb
    simpa using this
  rw [List.find?_append, hnone, Option.none_or, List.find?_cons]
  simp [ha]

end FirstFrom

/-- What holds of the addresses of every list. -/
structure Shape (as : List ℕ) : Prop where
  range : ∀ a ∈ as, 4096 ∣ a ∧ 0x40000000 ≤ a ∧ a ≤ 0xC0000000
  head : ∀ a ∈ as.head?, a = rodataBase ∨ a = rwdataBase ∨ a = bufParaBase
  firstRw : FirstFrom rwdataBase (fun a => a = rwdataBase ∨ bufParaBase ≤ a) as
  firstKernel : FirstFrom bufParaBase (fun a => a = bufParaBase) as
  firstAbove : FirstFrom (bufParaBase + globalmemSize / 2)
    (fun a => a = bufParaBase + globalmemSize / 2) as
  behind : (∀ a ∈ as.head?, a < bufParaBase) → ∀ bound, rwdataBase ≤ bound → bound ≤ bufParaBase →
    as.Pairwise fun a b => bound ≤ a → bound ≤ b

/-- A place for a new address that keeps the shape of the list. -/
structure Slot (pre post : List ℕ) (v : ℕ) : Prop where
  range : 4096 ∣ v ∧ 0x40000000 ≤ v ∧ v ≤ 0xC0000000
  head : pre = [] → (v = rodataBase ∨ v = rwdataBase ∨ v = bufParaBase) ∧
    ∀ b ∈ post.head?, b < bufParaBase
  firstRw : (∀ b ∈ pre, b < rwdataBase) → rwdataBase ≤ v → v = rwdataBase ∨ bufParaBase ≤ v
  firstKernel : (∀ b ∈ pre, b < bufParaBase) → bufParaBase ≤ v → v = bufParaBase
  firstAbove : (∀ b ∈ pre, b < bufParaBase + globalmemSize / 2) →
    bufParaBase + globalmemSize / 2 ≤ v → v = bufParaBase + globalmemSize / 2
  behind : (∀ a ∈ (pre ++ post).head?, a < bufParaBase) → ∀ bound, rwdataBase ≤ bound →
    bound ≤ bufParaBase → (∀ a ∈ pre, bound ≤ a → bound ≤ v) ∧ (bound ≤ v → ∀ b ∈ post, bound ≤ b)

lemma Shape.nil : Shape [] :=
  ⟨by simp, by simp, by simp [FirstFrom], by simp [FirstFrom], by simp [FirstFrom], by simp⟩

theorem Shape.insert {pre post : List ℕ} {v : ℕ} (h : Shape (pre ++ post)) (hv : Slot pre post v) :
    Shape (pre ++ v :: post) := by
  refine ⟨?_, ?_, h.firstRw.insert hv.firstRw, h.firstKernel.insert hv.firstKernel,
    h.firstAbove.insert hv.firstAbove, ?_⟩
  · intro a ha
    rw [List.mem_append, List.mem_cons] at ha
    rcases ha with ha | rfl | ha
    · exact h.range a (List.mem_append_left _ ha)
    · exact hv.range
    · exact h.range a (List.mem_append_right _ ha)
  · cases pre with
    | nil =>
      intro a ha
      obtain rfl := Option.some.inj ha
      exact (hv.head rfl).1
    | cons b pre => exact h.head
  · intro hlow bound hrw hpara
    have hold : ∀ a ∈ (pre ++ post).head?, a < bufParaBase := by
      cases pre with
      | nil => exact (hv.head rfl).2
      | cons b pre => exact hlow
    obtain ⟨hpre, hpost⟩ := hv.behind hold bound hrw hpara
    have hbehind := h.behind hold bound hrw hpara
    rw [List.pairwise_append] at hbehind ⊢
    obtain ⟨h1, h2, h3⟩ := hbehind
    refine ⟨h1, List.pairwise_cons.mpr ⟨fun b hb hvb => hpost hvb b hb, h2⟩, ?_⟩
    intro a ha b hb
    cases hb with
    | head => exact hpre a ha
    | tail _ hb => exact h3 a ha b hb

/-- The addresses of the items of a list. -/
def addrs (heap : ℕ → Item) (l : List ℕ) : List ℕ := l.map fun p => (heap p).vaddr

lemma addrs_append (heap : ℕ → Item) (l l' : List ℕ) :
    addrs heap (l ++ l') = addrs heap l ++ addrs heap l' := List.map_append

lemma addrs_cons (heap : ℕ → Item) (p : ℕ) (l : List ℕ) :
    addrs heap (p :: l) = (heap p).vaddr :: addrs heap l := rfl

/-- Every list has the shape. -/
def Addressed (m : Manager) : Prop := ∀ c l, m.HasList c l → Shape (addrs m.heap l)

section Slots
variable {m : Manager} {c size : ℕ} {l pre post : List ℕ} {a : ℕ}

lemma endOf_addr (h : m.WellLinked) (hl : m.HasList c l) (hs : Shape (addrs m.heap l)) (ha : a ∈ l) :
    (m.heap a).vaddr ≤ endOf (m.heap a) ∧ endOf (m.heap a) ≤ (m.heap a).vaddr + 0x20000000 ∧
      4096 ∣ endOf (m.heap a) ∧
      ∀ x, 4096 ∣ x → (m.heap a).vaddr + (m.heap a).size ≤ x → endOf (m.heap a) ≤ x := by
  have hsize := (h.item c l hl a ha).2.2
  obtain ⟨⟨n, hn⟩, -, hhigh⟩ := hs.range _ (List.mem_map_of_mem ha)
  rw [endOf_eq (by omega)]
  refine ⟨by omega, by omega, ⟨_, Nat.mul_comm _ _⟩, ?_⟩
  rintro x ⟨k, rfl⟩ hx
  omega

/-- The reasons for a walk to stop, without wrapping. -/
lemma stopsAt_cases (h : m.WellLinked) (hl : m.HasList c (pre ++ a :: post))
    (hs : Shape (addrs m.heap (pre ++ a :: post))) (hsize : size < 0x20000000) {bound : ℕ}
    (hstop : StopsAt m.heap bound size a) :
    bound ≤ (m.heap a).vaddr ∨ post = [] ∨
      ∃ q rest, post = q :: rest ∧ endOf (m.heap a) + size ≤ (m.heap q).vaddr := by
  have hmem : a ∈ pre ++ a :: post := by simp
  have hend := (endOf_addr h hl hs hmem).2.1
  have hhigh := (hs.range _ (List.mem_map_of_mem hmem)).2.2
  have hsucc : (m.heap a).succ = post.head? := hl.succ_eq rfl
  rw [StopsAt, hsucc, u64_of_lt (by omega)] at hstop
  cases post with
  | nil => exact .inr (.inl rfl)
  | cons q rest =>
    rcases hstop with hbound | hnone | ⟨q', hq', hfits⟩
    · exact .inl hbound
    · cases hnone
    · obtain rfl := Option.some.inj hq'
      exact .inr (.inr ⟨q, rest, rfl, hfits⟩)

/-- A walk that returns has not left its segment, or stands on the first item behind it. -/
lemma walk_upper (h : m.WellLinked) (hl : m.HasList c (pre ++ a :: post))
    (hs : Shape (addrs m.heap (pre ++ a :: post))) (hsize : size < 0x20000000) {limit : ℕ}
    (hfirst : FirstFrom limit (fun v => v = limit) (addrs m.heap (pre ++ a :: post)))
    (hpre : ∀ p ∈ pre, (m.heap p).vaddr < limit) (hstop : StopsAt m.heap limit size a)
    (hok : ¬ ((m.heap a).succ = none ∧ limit < u64 (endOf (m.heap a) + size))) :
    endOf (m.heap a) ≤ limit ∨ (m.heap a).vaddr = limit := by
  have hmem : a ∈ pre ++ a :: post := by simp
  have hend := (endOf_addr h hl hs hmem).2.1
  have hhigh := (hs.range _ (List.mem_map_of_mem hmem)).2.2
  have hpre' : ∀ b ∈ addrs m.heap pre, b < limit := by simpa [addrs] using hpre
  by_cases ha : limit ≤ (m.heap a).vaddr
  · right
    rw [addrs_append, addrs_cons] at hfirst
    exact hfirst.get hpre' ha
  left
  rcases stopsAt_cases h hl hs hsize hstop with hbound | rfl | ⟨q, rest, rfl, hfits⟩
  · exact absurd hbound ha
  · have hsucc : (m.heap a).succ = none := hl.succ_eq rfl
    rw [u64_of_lt (by omega), not_and, Nat.not_lt] at hok
    have := hok hsucc
    omega
  · by_cases hq : limit ≤ (m.heap q).vaddr
    · -- the successor is the first item behind the segment
      rw [addrs_append, addrs_cons, addrs_cons, List.append_cons] at hfirst
      have heq : (m.heap q).vaddr = limit := by
        refine hfirst.get ?_ hq
        intro b hb
        rw [List.mem_append, List.mem_singleton] at hb
        cases hb with
        | inl hb => exact hpre' b hb
        | inr hb => omega
      omega
    · omega

/-- Around an item above the read-only segment, unless the list starts with a kernel item. -/
lemma Shape.around (hs : Shape (addrs m.heap (pre ++ a :: post)))
    (hlow : ∀ v ∈ (addrs m.heap (pre ++ a :: post)).head?, v < bufParaBase) {bound : ℕ}
    (hrw : rwdataBase ≤ bound) (hpara : bound ≤ bufParaBase) :
    (∀ p ∈ pre, bound ≤ (m.heap p).vaddr → bound ≤ (m.heap a).vaddr) ∧
      (bound ≤ (m.heap a).vaddr → ∀ q ∈ post, bound ≤ (m.heap q).vaddr) := by
  have hbehind := hs.behind hlow bound hrw hpara
  rw [addrs_append, addrs_cons, List.pairwise_append, List.pairwise_cons] at hbehind
  constructor
  · intro p hp
    exact hbehind.2.2 _ (List.mem_map_of_mem hp) _ List.mem_cons_self
  · intro ha q hq
    exact hbehind.2.1.1 _ (List.mem_map_of_mem hq) ha

/-- Where a walk has stopped, the items behind it are above every bound that its end has reached. -/
lemma stop_around (h : m.WellLinked) (hl : m.HasList c (pre ++ a :: post))
    (hs : Shape (addrs m.heap (pre ++ a :: post))) (hsize : size < 0x20000000) {limit bound : ℕ}
    (hstop : StopsAt m.heap limit size a)
    (hlow : ∀ v ∈ (addrs m.heap (pre ++ a :: post)).head?, v < bufParaBase) (hrw : rwdataBase ≤ bound)
    (hpara : bound ≤ bufParaBase) (hlimit : bound ≤ limit) (hv : bound ≤ endOf (m.heap a)) :
    ∀ q ∈ post, bound ≤ (m.heap q).vaddr := by
  intro q hq
  rcases stopsAt_cases h hl hs hsize hstop with hstay | rfl | ⟨q', post, rfl, hfits⟩
  · exact (hs.around hlow hrw hpara).2 (hlimit.trans hstay) q hq
  · cases hq
  · have hq' : bound ≤ (m.heap q').vaddr := by omega
    rw [List.append_cons] at hs hlow
    cases hq with
    | head => exact hq'
    | tail _ hq => exact (hs.around hlow hrw hpara).2 hq' q hq

/-- A walk of the read-only segment that returns ends in it. -/
lemma readOnly_upper (h : m.WellLinked) (hl : m.HasList c (pre ++ a :: post))
    (hs : Shape (addrs m.heap (pre ++ a :: post))) (hsize : size < 0x20000000)
    (hlow : ∀ v ∈ (addrs m.heap (pre ++ a :: post)).head?, v < bufParaBase)
    (hstop : StopsAt m.heap rwdataBase size a)
    (hok : ¬ (lastBelow m.heap rwdataBase a = true ∧ rwdataBase < u64 (endOf (m.heap a) + size))) :
    endOf (m.heap a) ≤ rwdataBase := by
  have hmem : a ∈ pre ++ a :: post := by simp
  have hend := (endOf_addr h hl hs hmem).2.1
  have hhigh := (hs.range _ (List.mem_map_of_mem hmem)).2.2
  have hsucc : (m.heap a).succ = post.head? := hl.succ_eq rfl
  rw [u64_of_lt (by omega), not_and, Nat.not_lt, lastBelow, hsucc] at hok
  cases post with
  | nil =>
    have := hok rfl
    omega
  | cons q post =>
    by_cases hq : rwdataBase ≤ (m.heap q).vaddr
    · have := hok (decide_eq_true hq)
      omega
    · rcases stopsAt_cases h hl hs hsize hstop with hbound | hnil | ⟨q', rest, hcons, hfits⟩
      · exact absurd ((hs.around hlow le_rfl (by decide)).2 hbound q List.mem_cons_self) hq
      · cases hnil
      · obtain ⟨rfl, rfl⟩ := List.cons.inj hcons
        omega

/-- A place behind the items `pre` and `a`, by the items themselves. -/
lemma slot_behind {v : ℕ} (hrange : 4096 ∣ v ∧ 0x40000000 ≤ v ∧ v ≤ 0xC0000000)
    (hrw : (∀ p ∈ pre ++ [a], (m.heap p).vaddr < rwdataBase) → rwdataBase ≤ v →
      v = rwdataBase ∨ bufParaBase ≤ v)
    (hkernel : (∀ p ∈ pre ++ [a], (m.heap p).vaddr < bufParaBase) → v ≤ bufParaBase)
    (habove : (∀ p ∈ pre ++ [a], (m.heap p).vaddr < bufParaBase + globalmemSize / 2) →
      v ≤ bufParaBase + globalmemSize / 2)
    (hbehind : (∀ v ∈ (addrs m.heap (pre ++ a :: post)).head?, v < bufParaBase) →
      ∀ bound, rwdataBase ≤ bound → bound ≤ bufParaBase →
        (∀ p ∈ pre ++ [a], bound ≤ (m.heap p).vaddr → bound ≤ v) ∧
          (bound ≤ v → ∀ q ∈ post, bound ≤ (m.heap q).vaddr)) :
    Slot (addrs m.heap (pre ++ [a])) (addrs m.heap post) v := by
  have hall : ∀ {P : ℕ → Prop}, (∀ b ∈ addrs m.heap (pre ++ [a]), P b) →
      ∀ p ∈ pre ++ [a], P (m.heap p).vaddr := fun hb p hp => hb _ (List.mem_map_of_mem hp)
  refine ⟨hrange, ?_, ?_, ?_, ?_, ?_⟩
  · intro hnil
    simp [addrs] at hnil
  · intro hb hv
    exact hrw (hall hb) hv
  · intro hb hv
    exact le_antisymm (hkernel (hall hb)) hv
  · intro hb hv
    exact le_antisymm (habove (hall hb)) hv
  · intro hlow bound hrw hpara
    rw [← addrs_append, List.append_assoc] at hlow
    obtain ⟨hpre, hpost⟩ := hbehind hlow bound hrw hpara
    constructor
    · intro b hb
      obtain ⟨p, hp, rfl⟩ := List.mem_map.mp hb
      exact hpre p hp
    · intro hv b hb
      obtain ⟨q, hq, rfl⟩ := List.mem_map.mp hb
      exact hpost hv q hq

end Slots

/-- The place of a new address at `v`, behind the item `a` or in front of the list. -/
def SlotIn (m : Manager) (a v : ℕ) (l : List ℕ) : Prop :=
  ∃ pre post, l = pre ++ a :: post ∧
    if v = rodataBase ∧ (m.heap a).vaddr = rwdataBase then Slot [] (addrs m.heap l) v
    else Slot (addrs m.heap (pre ++ [a])) (addrs m.heap post) v

section Places
variable {m : Manager} {c root a v size : ℕ} {rest : List ℕ}

theorem allocReadOnly_slot (h : m.WellLinked) (hl : m.HasList c (root :: rest))
    (hs : Shape (addrs m.heap (root :: rest))) (hsize : size < 0x20000000)
    (heq : m.allocReadOnly root size = .ok (a, v)) : m.SlotIn a v (root :: rest) := by
  rcases allocReadOnly_spec h hl size with ⟨hroot, hres⟩ | ⟨hroot, pre, a', post, hlist, hpre, hstop, hres⟩
  · rw [heq] at hres
    obtain ⟨rfl, rfl⟩ := Prod.mk.inj (Except.ok.inj hres)
    refine ⟨[], rest, rfl, ?_⟩
    have hhead := hs.head _ rfl
    simp only [rodataBase_eq, rwdataBase_eq, bufParaBase_eq] at hroot hhead
    split_ifs with hfront
    · refine ⟨⟨by decide, by decide, by decide⟩, fun _ => ⟨.inl rfl, ?_⟩, ?_, ?_, ?_, ?_⟩
      · intro b hb
        obtain rfl := Option.some.inj hb
        exact hfront.2.trans_lt (by decide)
      · exact fun _ hv => absurd hv (by decide)
      · exact fun _ hv => absurd hv (by decide)
      · exact fun _ hv => absurd hv (by decide)
      · exact fun _ bound hrw _ => ⟨by simp, fun hv => absurd (hrw.trans hv) (by decide)⟩
    · refine slot_behind ⟨by decide, by decide, by decide⟩ ?_ ?_ ?_ ?_
      · exact fun _ hv => absurd hv (by decide)
      · exact fun _ => by decide
      · exact fun _ => by decide
      · -- the list starts with a kernel item
        intro hlow
        have := hlow _ rfl
        simp only [true_and, rwdataBase_eq] at hfront
        simp only [bufParaBase_eq] at this
        omega
  · rw [heq] at hres
    split_ifs at hres with hlast
    obtain ⟨rfl, rfl⟩ := Prod.mk.inj (Except.ok.inj hres)
    have hlow : ∀ v ∈ (addrs m.heap (pre ++ a :: post)).head?, v < bufParaBase := by
      rw [← hlist]
      intro v hv
      obtain rfl := Option.some.inj hv
      exact hroot.trans_lt (by decide)
    rw [hlist] at hl hs
    have hmem : a ∈ pre ++ a :: post := by simp
    obtain ⟨hge, -, hdvd, -⟩ := endOf_addr h hl hs hmem
    have hlower := (hs.range _ (List.mem_map_of_mem hmem)).2.1
    have hup := readOnly_upper h hl hs hsize hlow hstop hlast
    have hrw := rwdataBase_eq
    refine ⟨pre, post, hlist, ?_⟩
    rw [if_neg]
    · refine slot_behind ⟨hdvd, by omega, by omega⟩ ?_ ?_ ?_ ?_
      · intro _ hv
        exact .inl (le_antisymm hup hv)
      · intro _
        exact hup.trans (by decide)
      · intro _
        exact hup.trans (by decide)
      · intro _ bound hbound hbound'
        refine ⟨fun p hp hle' => ?_, fun hv =>
          stop_around h hl hs hsize hstop hlow hbound hbound' (hv.trans hup) hv⟩
        rw [List.mem_append, List.mem_singleton] at hp
        cases hp with
        | inl hp =>
          have := (hpre p hp).1
          omega
        | inr heq =>
          subst heq
          omega
    · rintro ⟨hv, ha⟩
      rw [ha, hv] at hge
      exact absurd hge (by decide)

lemma skip_readWrite (hs : Shape (addrs m.heap (root :: rest)))
    (hskip : decide ((m.heap root).vaddr = rodataBase) = false) :
    rwdataBase ≤ (m.heap root).vaddr := by
  have hroot := of_decide_eq_false hskip
  rcases hs.head _ rfl with hv | hv | hv
  · exact absurd hv hroot
  · exact hv.ge
  · exact hv.ge.trans' (by decide)

lemma skip_kernelMem (hs : Shape (addrs m.heap (root :: rest)))
    (hskip : decide ((m.heap root).vaddr = rodataBase ∨ (m.heap root).vaddr = rwdataBase) = false) :
    bufParaBase ≤ (m.heap root).vaddr := by
  have hroot := of_decide_eq_false hskip
  rcases hs.head _ rfl with hv | hv | hv
  · exact absurd (.inl hv) hroot
  · exact absurd (.inr hv) hroot
  · exact hv.ge

theorem allocAbove_slot (h : m.WellLinked) (hl : m.HasList c (root :: rest))
    (hs : Shape (addrs m.heap (root :: rest))) (hsize : size < 0x20000000) {base limit : ℕ} {skip : Bool}
    (hsegment : (base = rwdataBase ∧ limit = bufParaBase) ∨
      (base = bufParaBase ∧ limit = bufParaBase + globalmemSize / 2))
    (hskip : skip = false → base ≤ (m.heap root).vaddr)
    (heq : m.allocAbove root size base limit skip = .ok (a, v)) : m.SlotIn a v (root :: rest) := by
  have hbase : rwdataBase ≤ base ∧ base ≤ bufParaBase ∧ base < limit ∧ 4096 ∣ base := by
    rcases hsegment with ⟨rfl, rfl⟩ | ⟨rfl, rfl⟩ <;> decide
  obtain ⟨hrw, hpara, hlt, hdvd⟩ := hbase
  rcases allocAbove_walk h hl size limit hskip with
    ⟨pre, a', hlist, hbelow, hres⟩ | ⟨low, pre, a', post, hlist, hbelow, hstart, hpre, hstop, hres⟩
  · -- the segment is opened behind the last item
    rw [heq] at hres
    obtain ⟨rfl, rfl⟩ := Prod.mk.inj (Except.ok.inj hres)
    refine ⟨pre, [], hlist, ?_⟩
    simp only [rwdataBase_eq, bufParaBase_eq] at hrw hpara
    rw [if_neg (by rintro ⟨hv, -⟩; rw [rodataBase_eq] at hv; omega)]
    refine slot_behind ⟨hdvd, by omega, by omega⟩ ?_ ?_ ?_ ?_
    · intro _ _
      exact hsegment.imp And.left fun hk => hk.1.ge
    · exact fun _ => hpara
    · intro _
      rw [kernelEnd_eq]
      omega
    · intro _ bound hlow hhigh
      refine ⟨fun p hp hbound => ?_, fun _ q hq => absurd hq (by simp)⟩
      have := hbelow p (hlist ▸ hp)
      omega
  rw [heq] at hres
  split_ifs at hres with hlast
  obtain ⟨rfl, rfl⟩ := Prod.mk.inj (Except.ok.inj hres)
  have hfirst : FirstFrom limit (fun v => v = limit) (addrs m.heap (root :: rest)) := by
    rcases hsegment with ⟨-, rfl⟩ | ⟨-, rfl⟩
    · exact hs.firstKernel
    · exact hs.firstAbove
  obtain ⟨f, hf, hfbase⟩ : ∃ f ∈ pre ++ [a], base ≤ (m.heap f).vaddr := by
    cases pre with
    | nil => exact ⟨a, by simp, hstart a rfl⟩
    | cons f pre => exact ⟨f, by simp, hstart f rfl⟩
  rw [hlist] at hl hs hfirst
  have hlist' : low ++ (pre ++ a :: post) = (low ++ pre) ++ a :: post := (List.append_assoc ..).symm
  rw [hlist'] at hl hs hfirst
  have hmem : a ∈ (low ++ pre) ++ a :: post := by simp
  obtain ⟨hge, hle, hpage, -⟩ := endOf_addr h hl hs hmem
  obtain ⟨-, hmin, hhigh⟩ := hs.range _ (List.mem_map_of_mem hmem)
  have hpassed : ∀ p ∈ low ++ pre, (m.heap p).vaddr < limit := by
    intro p hp
    rw [List.mem_append] at hp
    cases hp with
    | inl hp => exact (hbelow p hp).trans hlt
    | inr hp => exact (hpre p hp).1
  have hup := walk_upper h hl hs hsize hfirst hpassed hstop hlast
  have hstarted : ∃ p ∈ (low ++ pre) ++ [a], base ≤ (m.heap p).vaddr :=
    ⟨f, by rw [List.append_assoc]; exact List.mem_append_right _ hf, hfbase⟩
  refine ⟨low ++ pre, post, hlist.trans hlist', ?_⟩
  rw [if_neg]
  · refine slot_behind ⟨hpage, by omega, ?_⟩ ?_ ?_ ?_ ?_
    · rcases hsegment with ⟨-, rfl⟩ | ⟨-, rfl⟩ <;>
        simp only [bufParaBase_eq, globalmemSize_eq] at hup <;> omega
    · intro hall
      obtain ⟨p, hp, hpbase⟩ := hstarted
      have := hall p hp
      omega
    · intro hall
      have ha := hall a (by simp)
      obtain ⟨p, hp, hpbase⟩ := hstarted
      have hp' := hall p hp
      rcases hsegment with ⟨-, rfl⟩ | ⟨rfl, -⟩ <;> omega
    · intro hall
      have ha := hall a (by simp)
      rcases hsegment with ⟨-, rfl⟩ | ⟨-, rfl⟩ <;>
        simp only [bufParaBase_eq, globalmemSize_eq] at hup ha ⊢ <;> omega
    · intro hlow bound hbound hbound'
      have hpara' : bufParaBase ≤ limit := by
        rcases hsegment with ⟨-, rfl⟩ | ⟨-, rfl⟩ <;> decide
      obtain ⟨hbefore, -⟩ := hs.around hlow hbound hbound'
      refine ⟨fun p hp hle => ?_, fun hv =>
        stop_around h hl hs hsize hstop hlow hbound hbound' (hbound'.trans hpara') hv⟩
      rw [List.mem_append, List.mem_singleton] at hp
      cases hp with
      | inl hp => exact (hbefore p hp hle).trans hge
      | inr heq => exact (heq ▸ hle).trans hge
  · rintro ⟨hv, ha⟩
    rw [ha, hv] at hge
    exact absurd hge (by decide)

theorem allocVaddr_slot (h : m.WellLinked) (hl : m.HasList c (root :: rest))
    (hs : Shape (addrs m.heap (root :: rest))) (hsize : size < 0x20000000) {bufType : BufferType}
    (heq : m.allocVaddr root size bufType = .ok (a, v)) : m.SlotIn a v (root :: rest) := by
  cases bufType with
  | readOnly => exact allocReadOnly_slot h hl hs hsize heq
  | readWrite => exact allocAbove_slot h hl hs hsize (.inl ⟨rfl, rfl⟩) (skip_readWrite hs) heq
  | kernelMem => exact allocAbove_slot h hl hs hsize (.inr ⟨rfl, rfl⟩) (skip_kernelMem hs) heq

end Places

/-! ### Operations -/

section Operations
variable {m m' : Manager} {c k v size : ℕ} {l l' : List ℕ}

lemma addrs_congr {heap heap' : ℕ → Item} (h : ∀ p ∈ l, (heap' p).data = (heap p).data) :
    addrs heap' l = addrs heap l :=
  List.map_congr_left fun p hp => Item.data_vaddr (h p hp)

lemma Addressed.of_data (ha : m.Addressed) (hlist : ∀ c l, m'.HasList c l → m.HasList c l)
    (hdata : ∀ p, (m'.heap p).vaddr = (m.heap p).vaddr) : m'.Addressed := by
  intro c l hl
  have heq : addrs m'.heap l = addrs m.heap l := List.map_congr_left fun p _ => hdata p
  rw [heq]
  exact ha c l (hlist c l hl)

lemma new_addressed : Manager.new.Addressed := fun c l hl => absurd hl (new_no_list c l)

theorem createNewContext_addressed (h : m.WellLinked) (ha : m.Addressed)
    (heq : m.createNewContext c = .ok m') : m'.Addressed := by
  obtain ⟨-, -, hnil, hother⟩ := createNewContext_wellLinked h heq
  intro c' l hl
  by_cases hne : c' = c
  · subst hne
    rw [hl.unique hnil]
    exact Shape.nil
  · have hheap : m'.heap = m.heap := by
      unfold createNewContext at heq
      split_ifs at heq
      rw [← Except.ok.inj heq]
    rw [hheap]
    exact ha c' l ((hother c' l hne).mp hl)

lemma attached_addressed (ha : m.Addressed) (p paddr : ℕ) : (m.attached p paddr).Addressed :=
  ha.of_data (fun _ _ => attached_hasList.mp) fun q => (attached_heap m p paddr q).2.2.1

lemma released_addressed (h : m.WellLinked) (ha : m.Addressed) {p : ℕ} (hl : m.HasList c l)
    (hp : p ∈ l) : (m.released c p).Addressed := by
  refine ha.of_data (fun c' l' hl' => ?_) fun q => Item.data_vaddr (unlink_data m.heap p q)
  have hne : c' ≠ c := by
    rintro rfl
    exact released_not_mem m c' p hl'.mem
  exact (released_hasList h hl hp hne).mp hl'

lemma Added.addressed (h : m.WellLinked) (ha : m.Addressed) (hl : m.HasList c l)
    (hadd : Added m c k v size l l' m') (hnew : Shape (addrs m'.heap l')) : m'.Addressed := by
  intro c' l₁ hl₁
  by_cases hne : c' = c
  · subst hne
    rwa [hl₁.unique hadd.list]
  · have hold := (hadd.hasList_other h hl hne).mp hl₁
    rw [addrs_congr fun p hp => hadd.data p (hold.ne_next h p hp)]
    exact ha c' l₁ hold

lemma Added.addr_new (hadd : Added m c k v size l l' m') : (m'.heap m.next).vaddr = v := by
  have hitem := hadd.item
  simp only [Item.data, Prod.mk.injEq] at hitem
  exact hitem.2.2.1

lemma segment_base (bufType : BufferType) : 4096 ∣ (segment bufType).1 ∧
    0x40000000 ≤ (segment bufType).1 ∧ (segment bufType).1 ≤ 0x80000000 := by
  cases bufType <;> decide

/-- An allocation keeps the shape of all lists, and its address is one of the shape. -/
theorem allocMemory_addressed (h : m.WellLinked) (ha : m.Addressed) {bufType : BufferType}
    (heq : m.allocMemory c k size bufType = .ok (v, m')) :
    m'.Addressed ∧ 4096 ∣ v ∧ 0x40000000 ≤ v ∧ v ≤ 0xC0000000 := by
  obtain ⟨-, hlimit, ⟨hl, rfl, hadd⟩ | ⟨root, rest, a, hl, halloc, rfl⟩⟩ := allocMemory_cases h heq
  · obtain ⟨hdvd, hlow, hhigh⟩ := segment_base bufType
    refine ⟨hadd.addressed h ha hl ?_, hdvd, hlow, by omega⟩
    have haddrs : addrs _ [m.next] = [(segment bufType).1] := congrArg (fun v => [v]) hadd.addr_new
    rw [haddrs]
    apply @Shape.insert [] [] _ Shape.nil
    refine ⟨⟨hdvd, hlow, by omega⟩, fun _ => ⟨?_, by simp⟩, fun _ hv => ?_, fun _ hv => ?_, fun _ hv => ?_, ?_⟩
    · cases bufType <;> simp [segment]
    · revert hv
      cases bufType <;> decide
    · rw [bufParaBase_eq] at hv ⊢
      omega
    · rw [kernelEnd_eq] at hv
      omega
    · simp
  · have hs := ha c _ hl
    obtain ⟨pre, post, hlist, hslot⟩ := allocVaddr_slot h hl hs hlimit halloc
    have hadd := insertNewItem_added h k (alignedSize size blockSize) (hlist ▸ hl)
      (opens_first h hl halloc hlist)
    rw [hlist] at hl hs hslot
    have hne := hl.ne_next h
    split_ifs at hadd hslot with hfront
    · refine ⟨hadd.addressed h ha hl ?_, hslot.range⟩
      rw [addrs_cons, hadd.addr_new, addrs_congr fun p hp => hadd.data p (hne p hp)]
      exact @Shape.insert [] _ _ hs hslot
    · refine ⟨hadd.addressed h ha hl ?_, hslot.range⟩
      rw [List.append_cons, addrs_append, addrs_cons, hadd.addr_new,
        addrs_congr fun p hp => hadd.data p (hne p (by simp at hp ⊢; tauto)),
        addrs_congr fun p hp => hadd.data p (hne p (by simp [hp]))]
      apply Shape.insert _ hslot
      rwa [← addrs_append, List.append_assoc]

end Operations

end Manager
end VentusDriver
