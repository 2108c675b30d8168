import Mathlib.Data.List.Nodup
import Mathlib.Tactic.Common

/-! Doubly linked chains. The nodes carry a predecessor and a successor link; a segment is the list
of nodes visited along the successor links, with predecessor links that point back. -/
namespace VentusDriver.Foundation.Linked
variable {P : Type*}

structure Links (P : Type*) where
  prev : P → Option P
  succ : P → Option P

/-- The nodes `l` are visited from `head` on and then the link `last` is reached; `before` is the
predecessor of the first node. -/
def Segment (k : Links P) : Option P → Option P → List P → Option P → Prop
  | _, head, [], last => head = last
  | before, head, p :: l, last =>
    head = some p ∧ k.prev p = before ∧ Segment k (some p) (k.succ p) l last

/-- A whole list: it starts without a predecessor and ends without a successor. -/
def Chain (k : Links P) (head : Option P) (l : List P) : Prop := Segment k none head l none

namespace Segment
variable {k k' : Links P} {before head last : Option P} {l pre post : List P} {a x : P}

/-- A segment depends only on the links of its nodes. -/
theorem congr (h : Segment k before head l last)
    (hsame : ∀ p ∈ l, k'.prev p = k.prev p ∧ k'.succ p = k.succ p) :
    Segment k' before head l last := by
  induction l generalizing before head with
  | nil => exact h
  | cons p l ih =>
    obtain ⟨rfl, hprev, hrest⟩ := h
    obtain ⟨hp, hs⟩ := hsame p List.mem_cons_self
    refine ⟨rfl, hp.trans hprev, ?_⟩
    rw [hs]
    exact ih hrest fun q hq => hsame q (List.mem_cons_of_mem _ hq)

/-- The successor links determine a chain. -/
theorem unique {before' : Option P} {l' : List P} (h : Segment k before head l none)
    (h' : Segment k before' head l' none) : l = l' := by
  induction l generalizing before before' head l' with
  | nil =>
    cases l' with
    | nil => rfl
    | cons q l' => exact absurd (h.symm.trans h'.1) (by simp)
  | cons p l ih =>
    obtain ⟨rfl, -, hrest⟩ := h
    cases l' with
    | nil => exact absurd h' (by simp [Segment])
    | cons q l' =>
      obtain ⟨heq, -, hrest'⟩ := h'
      obtain rfl := Option.some.inj heq
      rw [ih hrest hrest']

lemma head_eq (h : Segment k before head l none) : head = l.head? := by
  cases l with
  | nil => exact h
  | cons p l => exact h.1

/-- The successor of a node of a chain is the next node. -/
theorem succ_eq (h : Segment k before head (pre ++ a :: post) none) : k.succ a = post.head? := by
  induction pre generalizing before head with
  | nil => exact head_eq h.2.2
  | cons p pre ih => exact ih h.2.2

/-- The predecessor of a node is the node before it. -/
theorem prev_eq (h : Segment k before head (pre ++ a :: post) last) :
    k.prev a = pre.getLast?.or before := by
  induction pre generalizing before head with
  | nil => exact h.2.1
  | cons p pre ih =>
    rw [ih h.2.2]
    cases pre with
    | nil => rfl
    | cons q pre => simp [List.getLast?_cons]

/-- A new node is linked in behind the node `a`. -/
theorem insertAfter (h : Segment k before head (pre ++ a :: post) last)
    (hnodup : (pre ++ a :: post).Nodup) (hprev : k'.prev a = k.prev a)
    (hsucc : k'.succ a = some x) (hxprev : k'.prev x = some a) (hxsucc : k'.succ x = k.succ a)
    (hpost : ∀ p ∈ post.head?, k'.prev p = some x ∧ k'.succ p = k.succ p)
    (hothers : ∀ p ∈ pre ++ post.tail, k'.prev p = k.prev p ∧ k'.succ p = k.succ p) :
    Segment k' before head (pre ++ a :: x :: post) last := by
  induction pre generalizing before head with
  | nil =>
    obtain ⟨rfl, hbefore, hrest⟩ := h
    refine ⟨rfl, hprev.trans hbefore, hsucc, hxprev, ?_⟩
    rw [hxsucc]
    cases post with
    | nil => exact hrest
    | cons q post =>
      obtain ⟨hq, -, hrest⟩ := hrest
      obtain ⟨hqprev, hqsucc⟩ := hpost q rfl
      refine ⟨hq, hqprev, ?_⟩
      rw [hqsucc]
      exact hrest.congr fun p hp => hothers p (by simpa using hp)
  | cons p pre ih =>
    obtain ⟨rfl, hbefore, hrest⟩ := h
    obtain ⟨hp, hs⟩ := hothers p (by simp)
    refine ⟨rfl, hp.trans hbefore, ?_⟩
    rw [hs]
    exact ih hrest (List.nodup_cons.mp hnodup).2 fun q hq => hothers q (List.mem_cons_of_mem _ hq)

/-- A new node is linked in before the first one. -/
theorem insertFirst (h : Chain k head (a :: post)) (hxprev : k'.prev x = none)
    (hxsucc : k'.succ x = some a) (hprev : k'.prev a = some x) (hsucc : k'.succ a = k.succ a)
    (hothers : ∀ p ∈ post, k'.prev p = k.prev p ∧ k'.succ p = k.succ p) :
    Chain k' (some x) (x :: a :: post) := by
  obtain ⟨-, -, hrest⟩ := h
  refine ⟨rfl, hxprev, hxsucc, hprev, ?_⟩
  rw [hsucc]
  exact hrest.congr hothers

/-- The node `a` is unlinked: its neighbours point to each other. -/
theorem unlink (h : Segment k before head (pre ++ a :: post) last)
    (hnodup : (pre ++ a :: post).Nodup)
    (hsucc : ∀ p ∈ pre.getLast?, k'.succ p = k.succ a)
    (hprev : ∀ p ∈ post.head?, k'.prev p = k.prev a)
    (hpre : ∀ p ∈ pre, k'.prev p = k.prev p ∧ (p ∉ pre.getLast? → k'.succ p = k.succ p))
    (hpost : ∀ p ∈ post, k'.succ p = k.succ p ∧ (p ∉ post.head? → k'.prev p = k.prev p)) :
    Segment k' before (if pre = [] then k.succ a else head) (pre ++ post) last := by
  induction pre generalizing before head with
  | nil =>
    obtain ⟨rfl, hbefore, hrest⟩ := h
    cases post with
    | nil => exact hrest
    | cons q post =>
      obtain ⟨hq, -, hrest⟩ := hrest
      have hfresh : ∀ p ∈ post, p ≠ q := by
        rintro p hp rfl
        simp [hp] at hnodup
      refine ⟨hq, (hprev q rfl).trans hbefore, ?_⟩
      rw [(hpost q List.mem_cons_self).1]
      apply hrest.congr
      intro p hp
      obtain ⟨hs, hp'⟩ := hpost p (List.mem_cons_of_mem _ hp)
      exact ⟨hp' (by simpa using (hfresh p hp).symm), hs⟩
  | cons p pre ih =>
    obtain ⟨rfl, hbefore, hrest⟩ := h
    have hnodup' := (List.nodup_cons.mp hnodup).2
    refine ⟨rfl, (hpre p List.mem_cons_self).1.trans hbefore, ?_⟩
    have hnext := ih hrest hnodup'
    cases pre with
    | nil =>
      rw [hsucc p rfl]
      exact hnext (by simp) (by simp)
    | cons q pre =>
      have hlast : ∀ y, y ∈ (q :: pre).getLast? ↔ y ∈ (p :: q :: pre).getLast? := by simp
      rw [(hpre p List.mem_cons_self).2]
      · refine hnext (fun y hy => hsucc y ((hlast y).mp hy)) fun y hy => ?_
        obtain ⟨h1, h2⟩ := hpre y (List.mem_cons_of_mem _ hy)
        exact ⟨h1, fun hy' => h2 fun hy'' => hy' ((hlast y).mpr hy'')⟩
      · -- the first node is not the last one
        intro hp
        have hmem : p ∈ q :: pre := List.mem_of_mem_getLast? ((hlast p).mpr hp)
        exact (List.nodup_cons.mp hnodup).1 (List.mem_append_left _ hmem)

end Segment

/-- The links of a chain are mutually inverse. -/
theorem Chain.inverse {k : Links P} {head : Option P} {l : List P} (h : Chain k head l) {a b : P}
    (ha : a ∈ l) (hab : k.succ a = some b) : b ∈ l ∧ k.prev b = some a := by
  have hgen : ∀ (before head : Option P) (l : List P), Segment k before head l none → a ∈ l →
      b ∈ l ∧ k.prev b = some a := by
    intro before head l hseg hmem
    induction l generalizing before head with
    | nil => simp at hmem
    | cons p l ih =>
      obtain ⟨rfl, -, hrest⟩ := hseg
      cases List.mem_cons.mp hmem with
      | inl heq =>
        subst heq
        rw [hab] at hrest
        cases l with
        | nil => simp [Segment] at hrest
        | cons q l =>
          obtain ⟨heq, hprev, -⟩ := hrest
          obtain rfl := Option.some.inj heq
          exact ⟨by simp, hprev⟩
      | inr hmem =>
        obtain ⟨hb, hprev⟩ := ih _ _ hrest hmem
        exact ⟨List.mem_cons_of_mem _ hb, hprev⟩
  exact hgen none head l h ha

/-- The node that a predecessor link names has the successor link back. -/
theorem Chain.succ_of_prev {k : Links P} {head : Option P} {l : List P} (h : Chain k head l)
    {a b : P} (hb : b ∈ l) (hab : k.prev b = some a) : k.succ a = some b := by
  obtain ⟨pre, post, rfl⟩ := List.append_of_mem hb
  have hlast : pre.getLast? = some a := by
    rw [← hab, Segment.prev_eq h, Option.or_none]
  obtain ⟨pre', rfl⟩ := List.getLast?_eq_some_iff.mp hlast
  rw [List.append_assoc] at h
  exact Segment.succ_eq h

end VentusDriver.Foundation.Linked
