import Mathlib.Algebra.Order.BigOperators.Group.Finset
import VentusDriver.Rtl.Walker

/-! What a cycle of a walker does to the multisets that its entries stand for: the answers they will
give, and the responses they wait for. -/
namespace VentusDriver.Rtl
open Foundation Foundation.TagTable

/-- An entry of a table with a property that only one entry can have. -/
lemma eq_of_nodup_sum {ι α : Type*} [Fintype ι] [DecidableEq ι] {f : ι → Multiset α} {a : α} {i j : ι}
    (h : (∑ i, f i).Nodup) (hi : a ∈ f i) (hj : a ∈ f j) : i = j := by
  by_contra hne
  have hle : f i + f j ≤ ∑ k, f k := by
    rw [← Finset.sum_pair hne]
    exact Finset.sum_le_sum_of_subset (Finset.subset_univ _)
  have hnodup := Multiset.nodup_of_le hle h
  rw [Multiset.nodup_add] at hnodup
  exact Multiset.disjoint_left.mp hnodup.2.2 hi hj

lemma not_mem_left {α : Type*} {x y : Multiset α} {t : α} (h : (x + y).Nodup) (ht : t ∈ y) : t ∉ x :=
  fun hx => Multiset.disjoint_left.mp (Multiset.nodup_add.mp h).2.2 hx ht

lemma not_mem_right {α : Type*} {x y : Multiset α} {t : α} (h : (x + y).Nodup) (ht : t ∈ x) : t ∉ y :=
  fun hy => Multiset.disjoint_left.mp (Multiset.nodup_add.mp h).2.2 ht hy

lemma cancel_common {M : Type*} [AddCancelCommMonoid M] {x y a b c d : M}
    (h : x + (a + b + c) = y + (d + a + b)) : x + c = y + d := by
  refine add_right_cancel (b := a + b) ?_
  calc x + c + (a + b) = x + (a + b + c) := by abel
    _ = y + (d + a + b) := h
    _ = y + d + (a + b) := by abel

namespace Walker
variable {Req Entry M : Type} {K : WalkerKind Req Entry} {w : Walker Entry} {io : In Req}

/-- What holds of the entry that is filled, and is kept when an entry asks, hears and leaves, holds of
all entries. -/
theorem next_invariant {P : Phase → Entry → Prop} (h : ∀ i, P (w.state i) (w.entries i))
    (hfill : w.takes io = true → P .asking (K.fill io.req.bits)) (hask : ∀ e, P .asking e → P .waiting e)
    (hreply : ∀ i, w.hears io = true → w.hit K io i = true → P .waiting (w.entries i) →
      P (K.rules.after (w.entries i)) (K.rules.learn (w.entries i) io.memRsp.bits.addr))
    (hleave : P .idle K.rules.blank) (i : Fin 4) :
    P ((w.next K false io).state i) ((w.next K false io).entries i) := by
  have hnext := congrFun (slots_next K w io) i
  have hall := TagTable.next_invariant (R := K.rules) (m := w.moves K io) (t := w.slots) (P := P) h ?_ hask
    ?_ hleave i
  · rwa [← hnext] at hall
  · intro p hp
    cases ht : w.takes io with
    | false => simp [moves, ht] at hp
    | true =>
      simp only [moves, ht, if_true, Option.some.injEq] at hp
      subst hp
      exact hfill ht
  · intro i r hans hr hwait
    obtain ⟨hheard, hhit⟩ := answered_iff.mp hans
    simp only [moves, hheard, if_true, Option.some.injEq] at hr
    subst hr
    exact hreply i hheard hhit hwait

section Weigh
variable [AddCommMonoid M] (W : Phase → Entry → M)

variable (K w io) in
/-- The weights that move in a cycle. -/
theorem weigh_cycle (hidle : ∀ e, W .idle e = 0) :
    weigh W (w.next K false io).slots +
        ((if w.asks K io then W .asking (w.entries (w.memreqArb.port (w.memreqIn K))) else 0) +
          (∑ i with Answered K.rules (w.moves K io) w.slots i, W .waiting (w.entries i)) +
          if w.sends K io then W .done (w.entries w.deqPtr) else 0) =
      weigh W w.slots +
        ((if w.takes io then W .asking (K.fill io.req.bits) else 0) +
          (if w.asks K io then W .waiting (w.entries (w.memreqArb.port (w.memreqIn K))) else 0) +
          ∑ i with Answered K.rules (w.moves K io) w.slots i, W (K.rules.after (w.entries i))
            (K.rules.learn (w.entries i) io.memRsp.bits.addr)) := by
  have h := weigh_next (R := K.rules) (moves_legal K w io) hidle
  rw [← slots_next] at h
  have hlearn : ∀ i, Answered K.rules (w.moves K io) w.slots i →
      learned K.rules (w.moves K io) (w.entries i) =
        K.rules.learn (w.entries i) io.memRsp.bits.addr := fun i hi => by
    simp [learned, moves, (answered_iff.mp hi).1]
  have hsum : (∑ i with Answered K.rules (w.moves K io) w.slots i,
      W (K.rules.after (w.entries i)) (learned K.rules (w.moves K io) (w.entries i))) =
      ∑ i with Answered K.rules (w.moves K io) w.slots i,
        W (K.rules.after (w.entries i)) (K.rules.learn (w.entries i) io.memRsp.bits.addr) :=
    Finset.sum_congr rfl fun i hi => by rw [hlearn i (Finset.mem_filter.mp hi).2]
  simp only [slots] at h hsum
  rw [hsum] at h
  cases ht : w.takes io <;> cases ha : w.asks K io <;> cases hs : w.sends K io <;>
    simpa [moves, ht, ha, hs] using h

end Weigh

/-! ### Answers and awaited responses -/

/-- An entry stands for the answer `T` until memory has given its last response, and then for `D`. -/
def tokenOf (T D : Entry → AddrBits) : Phase → Entry → Multiset AddrBits
  | .idle, _ => 0
  | .asking, e => {T e}
  | .waiting, e => {T e}
  | .done, e => {D e}

/-- The answers that the entries will give. -/
def tokens (T D : Entry → AddrBits) (w : Walker Entry) : Multiset AddrBits := weigh (tokenOf T D) w.slots

/-- The response that an entry waits for, if memory answers by `ans`. -/
def awaitOf (K : WalkerKind Req Entry) (ans : AddrBits → AddrBits) : Phase → Entry → Multiset AddrBits
  | .waiting, e => {ans (K.bits e)}
  | _, _ => 0

def awaited (K : WalkerKind Req Entry) (ans : AddrBits → AddrBits) (w : Walker Entry) :
    Multiset AddrBits := weigh (awaitOf K ans) w.slots

/-- The tags in use. -/
def tagsOf (K : WalkerKind Req Entry) : Phase → Entry → Multiset (BitVec 2)
  | .idle, _ => 0
  | _, e => {K.rules.tag e}

def tags (K : WalkerKind Req Entry) (w : Walker Entry) : Multiset (BitVec 2) :=
  weigh (tagsOf K) w.slots

variable {T D : Entry → AddrBits} {ans : AddrBits → AddrBits}

lemma map_source_tokens (hT : ∀ e, (T e).source = K.rules.tag e) (hD : ∀ e, (D e).source = K.rules.tag e) :
    (tokens T D w).map AddrBits.source = tags K w := by
  change Multiset.mapAddMonoidHom AddrBits.source _ = _
  rw [tokens, tags, weigh, weigh, map_sum]
  refine Finset.sum_congr rfl fun i _ => ?_
  cases h : (w.slots i).phase <;> simp [tokenOf, tagsOf, hT, hD]

lemma mem_awaited {b : AddrBits} :
    b ∈ awaited K ans w ↔ ∃ i, w.state i = .waiting ∧ ans (K.bits (w.entries i)) = b := by
  rw [awaited, weigh, Multiset.mem_sum]
  constructor
  · rintro ⟨i, -, hi⟩
    cases hstate : w.state i <;> simp [slots, awaitOf, hstate] at hi
    exact ⟨i, hstate, hi.symm⟩
  · rintro ⟨i, hstate, rfl⟩
    exact ⟨i, Finset.mem_univ i, by simp [slots, awaitOf, hstate]⟩

/-- The awaited responses have tags in use. -/
lemma awaited_tags_le (hbits : ∀ e, (K.bits e).source = K.rules.tag e)
    (hans : ∀ b, (ans b).source = b.source) : (awaited K ans w).map AddrBits.source ≤ tags K w := by
  change Multiset.mapAddMonoidHom AddrBits.source _ ≤ _
  rw [awaited, tags, weigh, weigh, map_sum]
  refine Finset.sum_le_sum fun i _ => ?_
  cases h : (w.slots i).phase <;> simp [awaitOf, tagsOf, hans, hbits]

lemma sent_memReq (ready : Bool) :
    (w.memReq K).sent ready = if (w.memReq K).fire ready then
      {K.bits (w.entries (w.memreqArb.port (w.memreqIn K)))} else 0 := rfl

/-- Among distinct tags only one entry is hit by a response that is awaited. -/
lemma answered_eq (htags : (tags K w).Nodup) (hbits : ∀ e, (K.bits e).source = K.rules.tag e)
    (hans : ∀ b, (ans b).source = b.source) (hheard : w.hears io = true)
    (hmem : io.memRsp.bits ∈ awaited K ans w) :
    ∃ i, (Finset.univ.filter fun i => Answered K.rules (w.moves K io) w.slots i) = {i} ∧
      w.state i = .waiting ∧ ans (K.bits (w.entries i)) = io.memRsp.bits := by
  obtain ⟨i, hi, hb⟩ := mem_awaited.mp hmem
  have htag : K.rules.tag (w.entries i) = io.memRsp.bits.source := by rw [← hb, hans, hbits]
  have hused : ∀ j, w.state j = .waiting → K.rules.tag (w.entries j) = io.memRsp.bits.source →
      io.memRsp.bits.source ∈ tagsOf K (w.slots j).phase (w.slots j).entry := fun j hj ht => by
    simp [slots, tagsOf, hj, ht]
  refine ⟨i, ?_, hi, hb⟩
  ext j
  simp only [Finset.mem_filter, Finset.mem_univ, true_and, Finset.mem_singleton, answered_iff, hheard,
    hit, isMemwait, Bool.and_eq_true, decide_eq_true_eq]
  constructor
  · intro h
    exact eq_of_nodup_sum htags (hused j h.1 h.2) (hused i hi htag)
  · intro h
    subst h
    exact ⟨hi, htag⟩

/-- The entry that a response hits is the one it was made for. -/
lemma hit_data (htags : (tags K w).Nodup) (hbits : ∀ e, (K.bits e).source = K.rules.tag e)
    (hans : ∀ b, (ans b).source = b.source) (hmem : w.hears io = true → io.memRsp.bits ∈ awaited K ans w)
    {i : Fin 4} (hheard : w.hears io = true) (hhit : w.hit K io i = true) :
    w.state i = .waiting ∧ ans (K.bits (w.entries i)) = io.memRsp.bits := by
  obtain ⟨j, hfilter, hj, hb⟩ := answered_eq htags hbits hans hheard (hmem hheard)
  have hi : i ∈ Finset.univ.filter fun i => Answered K.rules (w.moves K io) w.slots i := by
    simp [answered_iff, hheard, hhit]
  rw [hfilter, Finset.mem_singleton] at hi
  subst hi
  exact ⟨hj, hb⟩

lemma hit_unique (htags : (tags K w).Nodup) (hbits : ∀ e, (K.bits e).source = K.rules.tag e)
    (hans : ∀ b, (ans b).source = b.source) (hmem : w.hears io = true → io.memRsp.bits ∈ awaited K ans w)
    {i j : Fin 4} (hheard : w.hears io = true) (hi : w.hit K io i = true) (hj : w.hit K io j = true) :
    i = j := by
  obtain ⟨k, hfilter, -⟩ := answered_eq htags hbits hans hheard (hmem hheard)
  have hall : ∀ l, w.hit K io l = true → l = k := fun l hl => by
    have : l ∈ Finset.univ.filter fun i => Answered K.rules (w.moves K io) w.slots i := by
      simp [answered_iff, hheard, hl]
    rwa [hfilter, Finset.mem_singleton] at this
  rw [hall i hi, hall j hj]

/-- An entry is at the last port because it was there and stays, or because of a response. -/
lemma done_next {k : Fin 4} (h : (w.next K false io).state k = .done) :
    (w.state k = .done ∧ ¬ (w.sends K io = true ∧ w.deqPtr = k)) ∨
      (w.hears io = true ∧ w.hit K io k = true) := by
  have hphase := congrArg Slot.phase (congrFun (slots_next K w io) k)
  cases TagTable.next_done (hphase.symm.trans h) with
  | inl hstay =>
    refine .inl ⟨hstay.1, fun hleave => hstay.2 ?_⟩
    simp only [moves, hleave.1, if_true, hleave.2]
  | inr hans => exact .inr (answered_iff.mp hans.1)

/-- Nothing is hit where nothing is heard. -/
lemma answered_empty (hheard : w.hears io = false) :
    (Finset.univ.filter fun i => Answered K.rules (w.moves K io) w.slots i) = ∅ := by
  ext j
  simp [answered_iff, hheard]

/-- The answers of the entries change by the request that is taken and the entry that is given up. -/
theorem tokens_next (hlearn : ∀ i, w.hears io = true → w.hit K io i = true →
      tokenOf T D (K.rules.after (w.entries i)) (K.rules.learn (w.entries i) io.memRsp.bits.addr) =
        {T (w.entries i)}) :
    tokens T D (w.next K false io) + (if w.sends K io then {D (w.entries w.deqPtr)} else 0) =
      tokens T D w + (io.req.sent w.reqReady).map fun r => T (K.fill r) := by
  have h := weigh_cycle K w io (tokenOf T D) fun _ => rfl
  have hsum : (∑ i with Answered K.rules (w.moves K io) w.slots i, tokenOf T D
      (K.rules.after (w.entries i)) (K.rules.learn (w.entries i) io.memRsp.bits.addr)) =
      ∑ i with Answered K.rules (w.moves K io) w.slots i, tokenOf T D .waiting (w.entries i) := by
    refine Finset.sum_congr rfl fun i hi => ?_
    have hi := answered_iff.mp (Finset.mem_filter.mp hi).2
    exact hlearn i hi.1 hi.2
  have hin : (if w.takes io then tokenOf T D .asking (K.fill io.req.bits) else 0) =
      (io.req.sent w.reqReady).map fun r => T (K.fill r) := by
    cases ht : w.takes io with
    | false => rw [Decoupled.sent_of_not_fire ht]; rfl
    | true => rw [Decoupled.sent_of_fire ht]; rfl
  rw [hsum, hin] at h
  exact cancel_common h

/-- What is given up is what passes the last port, if it is the entry that is granted there. -/
lemma given_eq {E : AddrBits → AddrBits}
    (hsend : w.sends K io = true → D (w.entries w.deqPtr) = E (w.out K).bits) :
    (if w.sends K io then {D (w.entries w.deqPtr)} else 0) = ((w.out K).sent io.outReady).map E := by
  cases hs : w.sends K io with
  | false => rw [Decoupled.sent_of_not_fire hs]; rfl
  | true => rw [Decoupled.sent_of_fire hs, if_pos rfl, hsend hs]; rfl

/-- The tags in use change by the request that is taken and the entry that is given up. -/
theorem tags_next (htag : ∀ e d, K.rules.tag (K.rules.learn e d) = K.rules.tag e)
    (hafter : ∀ e, K.rules.after e ≠ .idle) :
    tags K (w.next K false io) + (if w.sends K io then {K.rules.tag (w.entries w.deqPtr)} else 0) =
      tags K w + (io.req.sent w.reqReady).map fun r => K.rules.tag (K.fill r) := by
  have h := weigh_cycle K w io (tagsOf K) fun _ => rfl
  have hsum : (∑ i with Answered K.rules (w.moves K io) w.slots i, tagsOf K
      (K.rules.after (w.entries i)) (K.rules.learn (w.entries i) io.memRsp.bits.addr)) =
      ∑ i with Answered K.rules (w.moves K io) w.slots i, tagsOf K .waiting (w.entries i) := by
    refine Finset.sum_congr rfl fun i _ => ?_
    have hne := hafter (w.entries i)
    cases hph : K.rules.after (w.entries i) with
    | idle => exact absurd hph hne
    | asking => simp [tagsOf, htag]
    | waiting => simp [tagsOf, htag]
    | done => simp [tagsOf, htag]
  rw [hsum] at h
  have hin : (if w.takes io then tagsOf K .asking (K.fill io.req.bits) else 0) =
      (io.req.sent w.reqReady).map fun r => K.rules.tag (K.fill r) := by
    cases ht : w.takes io with
    | false => rw [Decoupled.sent_of_not_fire ht]; rfl
    | true => rw [Decoupled.sent_of_fire ht]; rfl
  rw [hin] at h
  exact cancel_common h

lemma tag_mem_tags {i : Fin 4} (hi : w.state i ≠ .idle) : K.rules.tag (w.entries i) ∈ tags K w := by
  rw [tags, weigh, Multiset.mem_sum]
  refine ⟨i, Finset.mem_univ i, ?_⟩
  cases hs : w.state i <;> simp_all [slots, tagsOf]

/-- Among distinct tags the one that is given up is gone. -/
lemma tag_gone (htags : (tags K w).Nodup) (htag : ∀ e d, K.rules.tag (K.rules.learn e d) = K.rules.tag e)
    (hafter : ∀ e, K.rules.after e ≠ .idle) (hsend : w.sends K io = true)
    (hin : K.rules.tag (w.entries w.deqPtr) ∉
      (io.req.sent w.reqReady).map fun r => K.rules.tag (K.fill r)) :
    K.rules.tag (w.entries w.deqPtr) ∉ tags K (w.next K false io) := by
  have hnext := @tags_next _ _ K w io htag hafter
  have hcount := congrArg (Multiset.count (K.rules.tag (w.entries w.deqPtr))) hnext
  have hmem : K.rules.tag (w.entries w.deqPtr) ∈ tags K w :=
    tag_mem_tags (by rw [state_deqPtr hsend]; decide)
  rw [if_pos hsend, Multiset.count_add, Multiset.count_add, Multiset.count_singleton_self,
    Multiset.count_eq_one_of_mem htags hmem, Multiset.count_eq_zero.mpr hin] at hcount
  exact Multiset.count_eq_zero.mp (Nat.succ_injective hcount)

/-- The awaited responses change by the request that is sent and the response that is heard. -/
theorem awaited_next (hafter : ∀ e, K.rules.after e ≠ .waiting) (htags : (tags K w).Nodup)
    (hbits : ∀ e, (K.bits e).source = K.rules.tag e) (hans : ∀ b, (ans b).source = b.source)
    (hmem : w.hears io = true → io.memRsp.bits ∈ awaited K ans w) :
    awaited K ans (w.next K false io) + io.memRsp.sent w.memRspReady =
      awaited K ans w + ((w.memReq K).sent io.memReady).map ans := by
  have h := weigh_cycle K w io (awaitOf K ans) fun _ => rfl
  have hzero : (∑ i with Answered K.rules (w.moves K io) w.slots i, awaitOf K ans
      (K.rules.after (w.entries i)) (K.rules.learn (w.entries i) io.memRsp.bits.addr)) = 0 := by
    refine Finset.sum_eq_zero fun i _ => ?_
    have := hafter (w.entries i)
    cases hph : K.rules.after (w.entries i) <;> simp_all [awaitOf]
  have hsent : (if w.asks K io then awaitOf K ans .waiting
      (w.entries (w.memreqArb.port (w.memreqIn K))) else 0) =
      ((w.memReq K).sent io.memReady).map ans := by
    rw [sent_memReq]
    cases ha : w.asks K io <;> simp only [asks] at ha <;> simp [ha, awaitOf]
  rw [hzero, hsent] at h
  have hheard : (∑ i with Answered K.rules (w.moves K io) w.slots i, awaitOf K ans .waiting
      (w.entries i)) = io.memRsp.sent w.memRspReady := by
    cases hh : w.hears io with
    | false => rw [answered_empty hh, Finset.sum_empty, Decoupled.sent_of_not_fire hh]
    | true =>
      obtain ⟨i, hfilter, -, hb⟩ := answered_eq htags hbits hans hh (hmem hh)
      rw [hfilter, Finset.sum_singleton, Decoupled.sent_of_fire hh, awaitOf, hb]
  rw [hheard] at h
  simpa [awaited, awaitOf] using h

end Walker
end VentusDriver.Rtl
