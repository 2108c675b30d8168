import Mathlib.Algebra.BigOperators.Group.Finset.Piecewise
import Mathlib.Data.Fintype.BigOperators
import Mathlib.Tactic.Abel

/-! Tables of transactions. Every slot of a table holds a transaction that asks for something, waits
for the reply with its tag, and leaves when it is done; a transaction may ask several times. In one
step a transaction may enter, one may ask, a reply may arrive and one may leave. The sum of any weight
of the slots changes by the weights of the slots that move. -/
namespace VentusDriver.Foundation.TagTable

inductive Phase
  | idle | asking | waiting | done
  deriving DecidableEq, Repr

structure Slot (Entry : Type*) where
  phase : Phase
  entry : Entry

/-- What a reply does to the entry with its tag, and the entry of a slot that was left. -/
structure Rules (Entry Tag Data : Type*) where
  tag : Entry → Tag
  after : Entry → Phase
  learn : Entry → Data → Entry
  blank : Entry

/-- What happens in one step. -/
structure Moves (ι Entry Tag Data : Type*) where
  enter : Option (ι × Entry)
  ask : Option ι
  reply : Option (Tag × Data)
  leave : Option ι

variable {ι Entry Tag Data M : Type*}

/-- Each move is of a slot in the phase that it is meant for. -/
structure Moves.Legal (m : Moves ι Entry Tag Data) (t : ι → Slot Entry) : Prop where
  enter : ∀ p, m.enter = some p → (t p.1).phase = .idle
  ask : ∀ i, m.ask = some i → (t i).phase = .asking
  leave : ∀ i, m.leave = some i → (t i).phase = .done

section
variable [DecidableEq ι] [DecidableEq Tag] (R : Rules Entry Tag Data) (m : Moves ι Entry Tag Data)
  (t : ι → Slot Entry)

/-- The slot waits for the reply that arrives. -/
def Answered (i : ι) : Prop := (t i).phase = .waiting ∧ m.reply.map Prod.fst = some (R.tag (t i).entry)

instance (i : ι) : Decidable (Answered R m t i) := inferInstanceAs (Decidable (_ ∧ _))

/-- The entry of a slot after a reply. -/
def learned (e : Entry) : Entry := m.reply.elim e fun r => R.learn e r.2

/-- One step of a table: a slot moves by its phase. -/
def next (i : ι) : Slot Entry :=
  match (t i).phase with
  | .idle => m.enter.elim (t i) fun p => if p.1 = i then ⟨.asking, p.2⟩ else t i
  | .asking => if m.ask = some i then ⟨.waiting, (t i).entry⟩ else t i
  | .waiting => if Answered R m t i then ⟨R.after (t i).entry, learned R m (t i).entry⟩ else t i
  | .done => if m.leave = some i then ⟨.idle, R.blank⟩ else t i

end

section Invariant
variable [DecidableEq ι] [DecidableEq Tag] {R : Rules Entry Tag Data} {m : Moves ι Entry Tag Data}
  {t : ι → Slot Entry}

/-- What holds of the entries that enter and is kept by asking, replies and leaving holds of all. -/
theorem next_invariant {P : Phase → Entry → Prop} (h : ∀ i, P (t i).phase (t i).entry)
    (henter : ∀ p, m.enter = some p → P .asking p.2) (hask : ∀ e, P .asking e → P .waiting e)
    (hreply : ∀ i r, Answered R m t i → m.reply = some r → P .waiting (t i).entry →
      P (R.after (t i).entry) (R.learn (t i).entry r.2))
    (hleave : P .idle R.blank) (i : ι) : P (next R m t i).phase (next R m t i).entry := by
  have hi := h i
  unfold next
  cases hphase : (t i).phase with
  | idle =>
    cases he : m.enter with
    | none => exact hi
    | some p =>
      simp only [Option.elim]
      split_ifs
      · exact henter p he
      · exact hi
  | asking =>
    rw [hphase] at hi
    simp only
    split_ifs
    · exact hask _ hi
    · rwa [hphase]
  | waiting =>
    rw [hphase] at hi
    simp only
    split_ifs with ha
    · cases hr : m.reply with
      | none => simp [Answered, hr] at ha
      | some r => simpa [learned, hr] using hreply i r ha hr hi
    · rwa [hphase]
  | done =>
    simp only
    split_ifs
    · exact hleave
    · exact hi

/-- A slot is done because it was and did not leave, or because a reply made it so. -/
theorem next_done {i : ι} (h : (next R m t i).phase = .done) :
    ((t i).phase = .done ∧ m.leave ≠ some i) ∨
      (Answered R m t i ∧ R.after (t i).entry = .done) := by
  unfold next at h
  cases hphase : (t i).phase with
  | idle =>
    rw [hphase] at h
    cases he : m.enter with
    | none => simp [he, hphase] at h
    | some p =>
      simp only [he, Option.elim] at h
      split_ifs at h
      simp [hphase] at h
  | asking =>
    rw [hphase] at h
    simp only at h
    split_ifs at h
    simp [hphase] at h
  | waiting =>
    rw [hphase] at h
    simp only at h
    split_ifs at h with ha
    · exact .inr ⟨ha, h⟩
    · simp [hphase] at h
  | done =>
    rw [hphase] at h
    simp only at h
    split_ifs at h with hl
    exact .inl ⟨rfl, hl⟩

end Invariant

section Weighing
variable [AddCommMonoid M] (W : Phase → Entry → M)

/-- The weight of a table. -/
def weigh [Fintype ι] (t : ι → Slot Entry) : M := ∑ i, W (t i).phase (t i).entry

variable [DecidableEq ι] [DecidableEq Tag] (R : Rules Entry Tag Data) (m : Moves ι Entry Tag Data)
  (t : ι → Slot Entry)

/-- The weight that leaves slot `i`. -/
def lossAt (i : ι) : M :=
  (if m.ask = some i then W .asking (t i).entry else 0) +
    (if Answered R m t i then W .waiting (t i).entry else 0) +
    (if m.leave = some i then W .done (t i).entry else 0)

/-- The weight that comes to slot `i`. -/
def gainAt (i : ι) : M :=
  (m.enter.elim 0 fun p => if p.1 = i then W .asking p.2 else 0) +
    (if m.ask = some i then W .waiting (t i).entry else 0) +
    (if Answered R m t i then W (R.after (t i).entry) (learned R m (t i).entry) else 0)

variable {W R m t}

/-- What one slot does. -/
theorem weigh_slot (hm : m.Legal t) (hidle : ∀ e, W .idle e = 0) (i : ι) :
    W (next R m t i).phase (next R m t i).entry + lossAt W R m t i =
      W (t i).phase (t i).entry + gainAt W R m t i := by
  have hask : (t i).phase ≠ .asking → m.ask ≠ some i := fun h ha => h (hm.ask i ha)
  have hleave : (t i).phase ≠ .done → m.leave ≠ some i := fun h hl => h (hm.leave i hl)
  have henter : (t i).phase ≠ .idle →
      (m.enter.elim 0 fun p => if p.1 = i then W .asking p.2 else (0 : M)) = 0 := by
    intro h
    cases he : m.enter with
    | none => rfl
    | some p =>
      have hne : p.1 ≠ i := fun heq => h (heq ▸ hm.enter p he)
      simp [hne]
  cases hphase : (t i).phase with
  | idle =>
    rw [hphase] at hask hleave
    have h1 := hask (by simp)
    have h2 := hleave (by simp)
    cases he : m.enter with
    | none => simp [next, lossAt, gainAt, Answered, hphase, h1, h2, hidle, he]
    | some p =>
      by_cases hp : p.1 = i
      · simp [next, lossAt, gainAt, Answered, hphase, h1, h2, hidle, he, hp]
      · simp [next, lossAt, gainAt, Answered, hphase, h1, h2, hidle, he, hp]
  | asking =>
    rw [hphase] at hleave henter
    have h1 := hleave (by simp)
    have h2 := henter (by simp)
    by_cases ha : m.ask = some i
    · simp [next, lossAt, gainAt, Answered, hphase, h1, h2, ha, add_comm]
    · simp [next, lossAt, gainAt, Answered, hphase, h1, h2, ha]
  | waiting =>
    rw [hphase] at hask hleave henter
    have h1 := hask (by simp)
    have h2 := hleave (by simp)
    have h3 := henter (by simp)
    by_cases ha : Answered R m t i
    · simp [next, lossAt, gainAt, hphase, h1, h2, h3, ha, add_comm]
    · simp [next, lossAt, gainAt, hphase, h1, h2, h3, ha]
  | done =>
    rw [hphase] at hask henter
    have h1 := hask (by simp)
    have h2 := henter (by simp)
    by_cases hl : m.leave = some i
    · simp [next, lossAt, gainAt, Answered, hphase, h1, h2, hl, hidle]
    · simp [next, lossAt, gainAt, Answered, hphase, h1, h2, hl]

lemma sum_option [Fintype ι] (o : Option ι) (f : ι → M) :
    (∑ i, if o = some i then f i else 0) = o.elim 0 f := by
  cases o with
  | none => simp
  | some j => simp [Finset.sum_ite_eq]

/-- The weight of a table changes by what its moves take and bring. -/
theorem weigh_next [Fintype ι] (hm : m.Legal t) (hidle : ∀ e, W .idle e = 0) :
    weigh W (next R m t) + (m.ask.elim 0 (fun i => W .asking (t i).entry) +
        (∑ i with Answered R m t i, W .waiting (t i).entry) +
        m.leave.elim 0 fun i => W .done (t i).entry) =
      weigh W t + (m.enter.elim 0 (fun p => W .asking p.2) +
        m.ask.elim 0 (fun i => W .waiting (t i).entry) +
        ∑ i with Answered R m t i, W (R.after (t i).entry) (learned R m (t i).entry)) := by
  have hsum : ∑ i, (W (next R m t i).phase (next R m t i).entry + lossAt W R m t i) =
      ∑ i, (W (t i).phase (t i).entry + gainAt W R m t i) :=
    Finset.sum_congr rfl fun i _ => weigh_slot hm hidle i
  have henter : (∑ i, m.enter.elim 0 fun p => if p.1 = i then W .asking p.2 else (0 : M)) =
      m.enter.elim 0 fun p => W .asking p.2 := by
    cases m.enter with
    | none => simp
    | some p => simp
  simpa only [weigh, Finset.sum_add_distrib, lossAt, gainAt, sum_option, henter, Finset.sum_filter]
    using hsum

end Weighing
end VentusDriver.Foundation.TagTable
