import Mathlib.Data.List.Induction
import Mathlib.Order.Basic
import Mathlib.Tactic.Common

/-! Forests of radix tables. A table is a page with an optional successor page for every index;
a walk follows a path of indices from a root. In a forest no page is reached in two ways, so the
pages of different roots, and of different paths below one root, are distinct. -/
namespace VentusDriver.Foundation.Radix
variable {Page Index : Type*}

/-- The page reached from `q` along a path of indices. -/
def walk (entry : Page → Index → Option Page) : Page → List Index → Option Page
  | q, [] => some q
  | q, i :: path => (entry q i).bind fun q' => walk entry q' path

@[simp] theorem walk_nil (entry : Page → Index → Option Page) (q : Page) :
    walk entry q [] = some q := rfl

theorem walk_append (entry : Page → Index → Option Page) (q : Page) (path path' : List Index) :
    walk entry q (path ++ path') = (walk entry q path).bind fun q' => walk entry q' path' := by
  induction path generalizing q with
  | nil => rfl
  | cons i path ih => simp [walk, Option.bind_assoc, ih]

theorem walk_snoc (entry : Page → Index → Option Page) (q : Page) (path : List Index) (i : Index) :
    walk entry q (path ++ [i]) = (walk entry q path).bind fun q' => entry q' i := by
  simp [walk_append, walk]

/-- A page reached from a root along a path shorter than the depth. -/
def IsTable (entry : Page → Index → Option Page) (depth : ℕ) (root : Page → Prop) (q : Page) : Prop :=
  ∃ r path, root r ∧ path.length < depth ∧ walk entry r path = some q

/-- A page reached from a root along a path of at most the depth. -/
def IsReached (entry : Page → Index → Option Page) (depth : ℕ) (root : Page → Prop) (q : Page) :
    Prop :=
  ∃ r path, root r ∧ path.length ≤ depth ∧ walk entry r path = some q

/-- Every page is reached in at most one way. -/
def Forest (entry : Page → Index → Option Page) (depth : ℕ) (root : Page → Prop) : Prop :=
  ∀ r r' path path' q, root r → root r' → path.length ≤ depth → path'.length ≤ depth →
    walk entry r path = some q → walk entry r' path' = some q → r = r' ∧ path = path'

section
variable {entry entry' : Page → Index → Option Page} {depth : ℕ} {root : Page → Prop}

theorem IsTable.isReached {q : Page} (h : IsTable entry depth root q) :
    IsReached entry depth root q := by
  obtain ⟨r, path, hr, hlen, hwalk⟩ := h
  exact ⟨r, path, hr, Nat.le_of_lt hlen, hwalk⟩

/-- Walks depend only on the entries of tables. -/
theorem walk_congr (hsame : ∀ q i, IsTable entry depth root q → entry' q i = entry q i) {r : Page}
    (hr : root r) {path : List Index} (hlen : path.length ≤ depth) :
    walk entry' r path = walk entry r path := by
  induction path using List.reverseRecOn with
  | nil => rfl
  | append_singleton l i ih =>
    rw [List.length_append, List.length_singleton] at hlen
    rw [walk_snoc, walk_snoc, ih (by omega)]
    cases hl : walk entry r l with
    | none => rfl
    | some q => exact hsame q i ⟨r, l, hr, by omega, hl⟩

theorem Forest.congr (hf : Forest entry depth root)
    (hsame : ∀ q i, IsTable entry depth root q → entry' q i = entry q i) :
    Forest entry' depth root := by
  intro r r' path path' q hr hr' hlen hlen' hw hw'
  rw [walk_congr hsame hr hlen] at hw
  rw [walk_congr hsame hr' hlen'] at hw'
  exact hf r r' path path' q hr hr' hlen hlen' hw hw'

/-- Filling one empty entry of a table with a page that has no successors of its own adds exactly
one walk. -/
theorem walk_update (hf : Forest entry depth root) {r₀ q₀ q₁ : Page} {pre : List Index}
    {i₀ : Index} (hr₀ : root r₀) (hpre : pre.length < depth)
    (hq₀ : walk entry r₀ pre = some q₀) (hnone : entry q₀ i₀ = none)
    (hnew : entry' q₀ i₀ = some q₁)
    (hsame : ∀ q i, IsTable entry depth root q → q ≠ q₀ ∨ i ≠ i₀ → entry' q i = entry q i)
    (hempty : pre.length + 1 < depth → ∀ i, entry' q₁ i = none)
    {r : Page} (hr : root r) {path : List Index} (hlen : path.length ≤ depth) :
    (r = r₀ ∧ path = pre ++ [i₀] ∧ walk entry' r path = some q₁) ∨
      (¬ (r = r₀ ∧ path = pre ++ [i₀]) ∧ walk entry' r path = walk entry r path) := by
  induction path using List.reverseRecOn with
  | nil => exact .inr ⟨by simp, rfl⟩
  | append_singleton l i ih =>
    rw [List.length_append, List.length_singleton] at hlen
    rw [walk_snoc, walk_snoc]
    rcases ih (by omega) with ⟨rfl, rfl, hl⟩ | ⟨hne, hl⟩
    · -- below the new page there is nothing yet, as below the empty entry before
      right
      rw [List.length_append, List.length_singleton] at hlen
      refine ⟨fun h => ?_, ?_⟩
      · have := congrArg List.length h.2
        simp at this
      · rw [hl, walk_snoc, hq₀]
        simpa [hnone] using hempty (by omega) i
    · rw [hl]
      cases hq : walk entry r l with
      | none =>
        refine .inr ⟨?_, rfl⟩
        rintro ⟨rfl, heq⟩
        obtain ⟨rfl, -⟩ := List.append_inj' heq rfl
        rw [hq₀] at hq
        exact absurd hq (by simp)
      | some q =>
        by_cases hhere : q = q₀ ∧ i = i₀
        · obtain ⟨rfl, rfl⟩ := hhere
          obtain ⟨rfl, rfl⟩ := hf r r₀ l pre q hr hr₀ (by omega) (Nat.le_of_lt hpre) hq hq₀
          exact .inl ⟨rfl, rfl, hnew⟩
        · refine .inr ⟨?_, hsame q i ⟨r, l, hr, by omega, hq⟩ (by tauto)⟩
          rintro ⟨rfl, heq⟩
          obtain ⟨rfl, hi⟩ := List.append_inj' heq rfl
          rw [hq₀] at hq
          exact hhere ⟨(Option.some.inj hq).symm, by simpa using hi⟩

/-- Filling an empty entry with a page that is not reached keeps the forest. -/
theorem Forest.update (hf : Forest entry depth root) {r₀ q₀ q₁ : Page} {pre : List Index}
    {i₀ : Index} (hr₀ : root r₀) (hpre : pre.length < depth)
    (hq₀ : walk entry r₀ pre = some q₀) (hnone : entry q₀ i₀ = none)
    (hnew : entry' q₀ i₀ = some q₁)
    (hsame : ∀ q i, IsTable entry depth root q → q ≠ q₀ ∨ i ≠ i₀ → entry' q i = entry q i)
    (hempty : pre.length + 1 < depth → ∀ i, entry' q₁ i = none)
    (hfresh : ¬ IsReached entry depth root q₁) : Forest entry' depth root := by
  intro r r' path path' q hr hr' hlen hlen' hw hw'
  rcases walk_update hf hr₀ hpre hq₀ hnone hnew hsame hempty hr hlen with
    ⟨rfl, rfl, h⟩ | ⟨-, h⟩ <;>
  rcases walk_update hf hr₀ hpre hq₀ hnone hnew hsame hempty hr' hlen' with
    ⟨rfl, rfl, h'⟩ | ⟨-, h'⟩
  · exact ⟨rfl, rfl⟩
  · obtain rfl : q₁ = q := Option.some.inj (h.symm.trans hw)
    exact absurd ⟨r', path', hr', hlen', h'.symm.trans hw'⟩ hfresh
  · obtain rfl : q₁ = q := Option.some.inj (h'.symm.trans hw')
    exact absurd ⟨r, path, hr, hlen, h.symm.trans hw⟩ hfresh
  · exact hf r r' path path' q hr hr' hlen hlen' (h.symm.trans hw) (h'.symm.trans hw')

/-- A page without successors that is not reached becomes a further root. -/
theorem Forest.addRoot (hf : Forest entry depth root) {r₁ : Page}
    (hempty : 0 < depth → ∀ i, entry r₁ i = none) (hfresh : ¬ IsReached entry depth root r₁) :
    Forest entry depth fun r => r = r₁ ∨ root r := by
  have hleaf : ∀ path q, path.length ≤ depth → walk entry r₁ path = some q →
      path = [] ∧ q = r₁ := by
    intro path q hlen hw
    cases path with
    | nil => exact ⟨rfl, (Option.some.inj hw).symm⟩
    | cons i path =>
      rw [List.length_cons] at hlen
      simp [walk, hempty (by omega) i] at hw
  intro r r' path path' q hr hr' hlen hlen' hw hw'
  rcases hr with rfl | hr <;> rcases hr' with rfl | hr'
  · exact ⟨rfl, (hleaf path q hlen hw).1.trans (hleaf path' q hlen' hw').1.symm⟩
  · obtain ⟨-, rfl⟩ := hleaf path q hlen hw
    exact absurd ⟨r', path', hr', hlen', hw'⟩ hfresh
  · obtain ⟨-, rfl⟩ := hleaf path' q hlen' hw'
    exact absurd ⟨r, path, hr, hlen, hw⟩ hfresh
  · exact hf r r' path path' q hr hr' hlen hlen' hw hw'

end
end VentusDriver.Foundation.Radix
