import Mathlib.Tactic.Common

/-! Labelled transition systems whose runs may be restricted by a guard on each step. A guard
is a condition on the state before the step and on the label; the runs of the system itself are
the runs under the trivial guard. -/
namespace VentusDriver.Foundation

/-- Initial states, and one relation between consecutive states for every label. -/
structure TransitionSystem (State Label : Type*) where
  init : State → Prop
  step : State → Label → State → Prop

namespace TransitionSystem
variable {State Label : Type*} (S : TransitionSystem State Label)

/-- States reached by a run each of whose steps satisfies the guard. -/
inductive ReachableBy (guard : State → Label → Prop) : State → Prop
  | start {s : State} (h : S.init s) : ReachableBy guard s
  | next {s t : State} {l : Label} (reached : ReachableBy guard s) (allowed : guard s l)
      (taken : S.step s l t) : ReachableBy guard t

/-- States reached by any run. -/
abbrev Reachable : State → Prop := S.ReachableBy fun _ _ => True

variable {S}

/-- What holds initially and is kept by every allowed step holds in every state reached. -/
theorem ReachableBy.invariant {guard : State → Label → Prop} {I : State → Prop} {s : State}
    (h : S.ReachableBy guard s) (hinit : ∀ s, S.init s → I s)
    (hstep : ∀ s l t, I s → guard s l → S.step s l t → I t) : I s := by
  induction h with
  | start h => exact hinit _ h
  | next _ allowed taken ih => exact hstep _ _ _ ih allowed taken

/-- A run under a guard is a run under every weaker guard. -/
theorem ReachableBy.mono {guard weaker : State → Label → Prop} {s : State}
    (h : S.ReachableBy guard s) (hweak : ∀ s l, guard s l → weaker s l) :
    S.ReachableBy weaker s := by
  induction h with
  | start h => exact .start h
  | next _ allowed taken ih => exact .next ih (hweak _ _ allowed) taken

/-- A guard may be replaced by what it gives in the states that it lets reach. -/
theorem ReachableBy.replace {guard guard' : State → Label → Prop} {s : State}
    (h : S.ReachableBy guard s) (hguard : ∀ s l, S.ReachableBy guard s → guard s l → guard' s l) :
    S.ReachableBy guard' s := by
  induction h with
  | start h => exact .start h
  | next reached allowed taken ih => exact .next ih (hguard _ _ reached allowed) taken

theorem ReachableBy.reachable {guard : State → Label → Prop} {s : State}
    (h : S.ReachableBy guard s) : S.Reachable s :=
  h.mono fun _ _ _ => trivial

/-- Executing steps one after the other is a run. -/
theorem ReachableBy.run {guard : State → Label → Prop} {exec : State → Label → Option State}
    {labels : List Label} {s t : State} (h : S.ReachableBy guard s)
    (hexec : ∀ l ∈ labels, ∀ s t, exec s l = some t → guard s l ∧ S.step s l t)
    (hrun : labels.foldlM exec s = some t) : S.ReachableBy guard t := by
  induction labels generalizing s with
  | nil => exact Option.some.inj hrun ▸ h
  | cons l labels ih =>
    rw [List.foldlM_cons, Option.bind_eq_bind, Option.bind_eq_some_iff] at hrun
    obtain ⟨u, hu, hrest⟩ := hrun
    obtain ⟨hguard, hstep⟩ := hexec l List.mem_cons_self s u hu
    exact ih (h.next hguard hstep) (fun l hl => hexec l (List.mem_cons_of_mem _ hl)) hrest

/-- Execute the labels one after the other while each meets the guard. -/
def follow (guard : State → Label → Prop) [∀ s l, Decidable (guard s l)]
    (exec : State → Label → Option State) (labels : List Label) (s : State) : Option State :=
  labels.foldlM (fun s l => if guard s l then exec s l else none) s

theorem ReachableBy.follow {guard : State → Label → Prop} [∀ s l, Decidable (guard s l)]
    {exec : State → Label → Option State} {labels : List Label} {s t : State}
    (h : S.ReachableBy guard s) (hexec : ∀ s l t, exec s l = some t → S.step s l t)
    (hrun : follow guard exec labels s = some t) : S.ReachableBy guard t := by
  refine h.run (fun l _ s t hst => ?_) hrun
  split_ifs at hst with hguard
  exact ⟨hguard, hexec s l t hst⟩

/-- Where every step is a function of its label, so is every run. -/
theorem ReachableBy.foldl {guard : State → Label → Prop} {exec : State → Label → State}
    {labels : List Label} {s : State} (h : S.ReachableBy guard s)
    (hexec : ∀ s l, S.step s l (exec s l)) (hguard : ∀ l ∈ labels, ∀ s, guard s l) :
    S.ReachableBy guard (labels.foldl exec s) := by
  induction labels generalizing s with
  | nil => exact h
  | cons l labels ih =>
    have hnext := h.next (hguard l List.mem_cons_self s) (hexec s l)
    exact ih hnext fun l hl => hguard l (List.mem_cons_of_mem _ hl)

/-- A run each of whose steps another system follows has a run of that system beside it. -/
theorem ReachableBy.simulate {State' Label' : Type*} {T : TransitionSystem State' Label'}
    {guard : State → Label → Prop} {guard' : State' → Label' → Prop} {R : State → State' → Prop}
    {s : State} (h : S.ReachableBy guard s) (hinit : ∀ s, S.init s → ∃ s', T.init s' ∧ R s s')
    (hstep : ∀ s l t s', R s s' → guard s l → S.step s l t →
      ∃ l' t', guard' s' l' ∧ T.step s' l' t' ∧ R t t') :
    ∃ s', T.ReachableBy guard' s' ∧ R s s' := by
  induction h with
  | start h =>
    obtain ⟨s', hs', hR⟩ := hinit _ h
    exact ⟨s', .start hs', hR⟩
  | next _ allowed taken ih =>
    obtain ⟨s', hs', hR⟩ := ih
    obtain ⟨l', t', hguard, hstep', hR'⟩ := hstep _ _ _ s' hR allowed taken
    exact ⟨t', hs'.next hguard hstep', hR'⟩

variable (S) in
/-- `t` is reached from `s` by steps that satisfy the guard, and `n` is the sum of their costs. -/
inductive RunBy (guard : State → Label → Prop) (cost : State → Label → ℕ) (s : State) :
    ℕ → State → Prop
  | zero : RunBy guard cost s 0 s
  | succ {n : ℕ} {t u : State} {l : Label} (run : RunBy guard cost s n t) (allowed : guard t l)
      (taken : S.step t l u) : RunBy guard cost s (n + cost t l) u

namespace RunBy
variable {guard : State → Label → Prop} {cost : State → Label → ℕ} {n : ℕ} {s t : State}

theorem reachable (h : S.RunBy guard cost s n t) (hs : S.ReachableBy guard s) :
    S.ReachableBy guard t := by
  induction h with
  | zero => exact hs
  | succ _ allowed taken ih => exact ih.next allowed taken

/-- A rank that every step lowers by its cost bounds what a run costs. -/
theorem cost_le {R : State → ℕ → Prop} {r : ℕ} (h : S.RunBy guard cost s n t)
    (hstep : ∀ s l t r, R s r → guard s l → S.step s l t → ∃ r', R t r' ∧ r' + cost s l ≤ r)
    (hs : R s r) : ∃ r', R t r' ∧ r' + n ≤ r := by
  induction h with
  | zero => exact ⟨r, hs, Nat.le_refl _⟩
  | succ _ allowed taken ih =>
    obtain ⟨r', ht, hle⟩ := ih
    obtain ⟨r'', hu, hrank⟩ := hstep _ _ _ _ ht allowed taken
    exact ⟨r'', hu, by omega⟩

/-- A rank that falls with every step, as long as it can, is used up after as many steps. -/
theorem rank_le {I : State → Prop} {rank : State → ℕ} (h : S.RunBy guard (fun _ _ => 1) s n t)
    (hstep : ∀ s l t, I s → guard s l → S.step s l t → I t ∧ rank t ≤ rank s - 1) (hs : I s) :
    I t ∧ rank t ≤ rank s - n := by
  induction h with
  | zero => exact ⟨hs, Nat.le_refl _⟩
  | succ _ allowed taken ih =>
    obtain ⟨ht, hle⟩ := ih
    obtain ⟨hu, hrank⟩ := hstep _ _ _ ht allowed taken
    exact ⟨hu, by omega⟩

end RunBy

/-- What the labels cost, one after the other. -/
def total (cost : State → Label → ℕ) (exec : State → Label → Option State) : List Label → State → ℕ
  | [], _ => 0
  | l :: labels, s => cost s l + (exec s l).elim 0 (total cost exec labels)

theorem RunBy.follow {guard : State → Label → Prop} [∀ s l, Decidable (guard s l)]
    {cost : State → Label → ℕ} {exec : State → Label → Option State} {labels : List Label} {n : ℕ}
    {s t u : State} (h : S.RunBy guard cost s n t)
    (hexec : ∀ s l t, exec s l = some t → S.step s l t)
    (hrun : follow guard exec labels t = some u) :
    S.RunBy guard cost s (n + total cost exec labels t) u := by
  induction labels generalizing n t with
  | nil => exact Option.some.inj hrun ▸ h
  | cons l labels ih =>
    rw [TransitionSystem.follow, List.foldlM_cons, Option.bind_eq_bind, Option.bind_eq_some_iff] at hrun
    obtain ⟨v, hv, hrest⟩ := hrun
    split_ifs at hv with hguard
    have hnext := ih (h.succ hguard (hexec _ _ _ hv)) hrest
    rwa [total, hv, Option.elim, ← Nat.add_assoc]

end TransitionSystem
end VentusDriver.Foundation
