import Mathlib.Order.Lattice
import Mathlib.Data.List.Basic
import Mathlib.Data.List.Pairwise
import Mathlib.Tactic.Common

/-! Ascending lists of half-open intervals. An interval is any value with a lower and an upper
end in a linear order; a list is ascending when every interval ends at or before the start of
each later one, and tiles a range when each one starts where its predecessor ended. -/
namespace VentusDriver.Foundation.Intervals
variable {ι α : Type*} [LinearOrder α] {lower upper : ι → α}

/-- Every interval of the list ends at or before the start of each later one. -/
def Ascending (lower upper : ι → α) (l : List ι) : Prop :=
  l.Pairwise fun a b => upper a ≤ lower b

/-- The point lies in the half-open interval. -/
def Contains (lower upper : ι → α) (i : ι) (x : α) : Prop := lower i ≤ x ∧ x < upper i

theorem Ascending.sublist {l k : List ι} (h : Ascending lower upper l) (hk : k.Sublist l) :
    Ascending lower upper k := List.Pairwise.sublist hk h

theorem Ascending.tail {a : ι} {l : List ι} (h : Ascending lower upper (a :: l)) :
    Ascending lower upper l := List.Pairwise.tail h

/-- Splicing an interval between a prefix that ends before it and a suffix that starts after
it keeps the list ascending. -/
theorem Ascending.splice {before after : List ι} {i : ι}
    (h : Ascending lower upper (before ++ after))
    (hb : ∀ a ∈ before, upper a ≤ lower i) (ha : ∀ b ∈ after, upper i ≤ lower b) :
    Ascending lower upper (before ++ i :: after) := by
  obtain ⟨h1, h2, h3⟩ := List.pairwise_append.mp h
  refine List.pairwise_append.mpr ⟨h1, List.pairwise_cons.mpr ⟨ha, h2⟩, ?_⟩
  intro a hmem b hb'
  cases List.mem_cons.mp hb' with
  | inl heq =>
    subst heq
    exact hb a hmem
  | inr hb' =>
    exact h3 a hmem b hb'

/-- Two positions of an ascending list that contain one point are the same position. -/
theorem Ascending.index_unique {l : List ι} (h : Ascending lower upper l) {m n : ℕ}
    (hm : m < l.length) (hn : n < l.length) {x : α}
    (hx : Contains lower upper l[m] x) (hy : Contains lower upper l[n] x) : m = n := by
  rcases Nat.lt_trichotomy m n with hlt | heq | hlt
  · have := List.pairwise_iff_getElem.mp h m n hm hn hlt
    exact absurd (lt_of_lt_of_le hx.2 (this.trans hy.1)) (lt_irrefl _)
  · exact heq
  · have := List.pairwise_iff_getElem.mp h n m hn hm hlt
    exact absurd (lt_of_lt_of_le hy.2 (this.trans hx.1)) (lt_irrefl _)

/-- A point lies in at most one interval of an ascending list. -/
theorem Ascending.mem_unique {l : List ι} (h : Ascending lower upper l) {i j : ι}
    (hi : i ∈ l) (hj : j ∈ l) {x : α} (hx : Contains lower upper i x)
    (hy : Contains lower upper j x) : i = j := by
  obtain ⟨m, hm, rfl⟩ := List.mem_iff_getElem.mp hi
  obtain ⟨n, hn, rfl⟩ := List.mem_iff_getElem.mp hj
  have := h.index_unique hm hn hx hy
  subst this
  rfl

/-- The intervals follow one another from the first point to the last, and none is empty. -/
inductive Tiles (lower upper : ι → α) : α → List ι → α → Prop
  | nil (a : α) : Tiles lower upper a [] a
  | cons {i : ι} {l : List ι} {b : α} (proper : lower i < upper i) (rest : Tiles lower upper (upper i) l b) :
      Tiles lower upper (lower i) (i :: l) b

theorem Tiles.concat {l : List ι} {i : ι} {a : α} (h : Tiles lower upper a l (lower i))
    (hi : lower i < upper i) : Tiles lower upper a (l ++ [i]) (upper i) := by
  generalize hend : lower i = b at h
  induction h with
  | nil =>
    subst hend
    exact .cons hi (.nil _)
  | cons proper _ ih => exact .cons proper (ih hend)

theorem Tiles.proper {l : List ι} {a b : α} (h : Tiles lower upper a l b) : ∀ i ∈ l, lower i < upper i := by
  induction h with
  | nil => simp
  | cons proper _ ih => exact List.forall_mem_cons.mpr ⟨proper, ih⟩

/-- Intervals that are read off other values tile the same range. -/
theorem Tiles.of_map {κ : Type*} {f : κ → ι} {l : List κ} {a b : α} (h : Tiles lower upper a (l.map f) b) :
    Tiles (lower ∘ f) (upper ∘ f) a l b := by
  induction l generalizing a with
  | nil =>
    cases h
    exact .nil _
  | cons x l ih =>
    cases h with
    | cons proper rest => exact @Tiles.cons κ α _ (lower ∘ f) (upper ∘ f) x l b proper (ih rest)

theorem Tiles.le {l : List ι} {a b : α} (h : Tiles lower upper a l b) : a ≤ b := by
  induction h with
  | nil => exact le_rfl
  | cons proper _ ih => exact proper.le.trans ih

/-- The points between the ends are those of the intervals. -/
theorem Tiles.contains_iff {l : List ι} {a b x : α} (h : Tiles lower upper a l b) :
    (∃ i ∈ l, Contains lower upper i x) ↔ a ≤ x ∧ x < b := by
  induction h with
  | nil a => exact iff_of_false (by simp) fun hx => absurd hx.1 (not_le.mpr hx.2)
  | @cons i l b proper rest ih =>
    rw [List.exists_mem_cons_iff, ih]
    constructor
    · intro hx
      cases hx with
      | inl hx => exact ⟨hx.1, hx.2.trans_le rest.le⟩
      | inr hx => exact ⟨proper.le.trans hx.1, hx.2⟩
    · intro hx
      cases lt_or_ge x (upper i) with
      | inl hlt => exact .inl ⟨hx.1, hlt⟩
      | inr hge => exact .inr ⟨hge, hx.2⟩

theorem Tiles.ascending {l : List ι} {a b : α} (h : Tiles lower upper a l b) : Ascending lower upper l := by
  -- no later interval starts before the first one ends
  have hlower : ∀ {a b : α} {l : List ι}, Tiles lower upper a l b → ∀ j ∈ l, a ≤ lower j := by
    intro a b l h
    induction h with
    | nil => simp
    | cons proper _ ih =>
      rw [List.forall_mem_cons]
      exact ⟨le_rfl, fun j hj => proper.le.trans (ih j hj)⟩
  induction h with
  | nil => exact List.Pairwise.nil
  | cons _ rest ih => exact List.pairwise_cons.mpr ⟨hlower rest, ih⟩

end VentusDriver.Foundation.Intervals
