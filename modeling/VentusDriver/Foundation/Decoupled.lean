import Mathlib.Algebra.Order.Group.Multiset
import Mathlib.Data.Multiset.Fold

/-! Synchronous modules that pass values through valid/ready ports. What a port hands over in a cycle,
and what a buffer holds, are multisets, so that nothing is lost or made where their sums agree. -/
namespace VentusDriver.Foundation

/-- The side of a port that offers a value. -/
structure Decoupled (α : Type*) where
  valid : Bool
  bits : α
  deriving DecidableEq, Repr

namespace Decoupled
variable {α β : Type*}

/-- A value is handed over when it is valid and the other side is ready. -/
def fire (d : Decoupled α) (ready : Bool) : Bool := ready && d.valid

/-- What is handed over in this cycle. -/
def sent (d : Decoupled α) (ready : Bool) : Multiset α := if d.fire ready then {d.bits} else 0

def map (f : α → β) (d : Decoupled α) : Decoupled β := ⟨d.valid, f d.bits⟩

@[simp] theorem map_valid (f : α → β) (d : Decoupled α) : (d.map f).valid = d.valid := rfl

@[simp] theorem map_bits (f : α → β) (d : Decoupled α) : (d.map f).bits = f d.bits := rfl

@[simp] theorem fire_map (f : α → β) (d : Decoupled α) (ready : Bool) :
    (d.map f).fire ready = d.fire ready := rfl

theorem sent_of_fire {d : Decoupled α} {ready : Bool} (h : d.fire ready = true) :
    d.sent ready = {d.bits} := by simp [sent, h]

theorem sent_of_not_fire {d : Decoupled α} {ready : Bool} (h : d.fire ready = false) :
    d.sent ready = 0 := by simp [sent, h]

theorem mem_sent {d : Decoupled α} {ready : Bool} {a : α} :
    a ∈ d.sent ready ↔ d.fire ready = true ∧ a = d.bits := by
  cases h : d.fire ready <;> simp [sent, h]

@[simp] theorem sent_map (f : α → β) (d : Decoupled α) (ready : Bool) :
    (d.map f).sent ready = (d.sent ready).map f := by
  cases h : d.fire ready <;> simp [sent, h]

theorem card_sent (d : Decoupled α) (ready : Bool) :
    Multiset.card (d.sent ready) = if d.fire ready then 1 else 0 := by
  cases h : d.fire ready <;> simp [sent, h]

end Decoupled

/-- A buffer for one value. It takes a value only while it is empty. -/
structure OneQueue (α : Type*) where
  ram : α
  maybeFull : Bool
  deriving DecidableEq, Repr

namespace OneQueue
variable {α β : Type*} (q : OneQueue α)

def enqReady : Bool := !q.maybeFull

def deq : Decoupled α := ⟨q.maybeFull, q.ram⟩

def next (reset : Bool) (enq : Decoupled α) (deqReady : Bool) : OneQueue α where
  ram := if enq.fire q.enqReady then enq.bits else q.ram
  maybeFull :=
    if reset then false
    else if enq.fire q.enqReady != q.deq.fire deqReady then enq.fire q.enqReady
    else q.maybeFull

/-- What the buffer holds. -/
def held : Multiset α := if q.maybeFull then {q.ram} else 0

@[simp] theorem deq_valid : q.deq.valid = q.maybeFull := rfl

/-- Nothing is lost and nothing is made. -/
theorem held_next (enq : Decoupled α) (deqReady : Bool) :
    (q.next false enq deqReady).held + q.deq.sent deqReady = q.held + enq.sent q.enqReady := by
  cases hfull : q.maybeFull <;> cases henq : enq.valid <;> cases deqReady <;>
    simp [next, held, deq, Decoupled.sent, Decoupled.fire, enqReady, hfull, henq]

/-- What the buffer holds was there or came in. -/
theorem mem_held_next {enq : Decoupled α} {deqReady : Bool} {a : α}
    (h : a ∈ (q.next false enq deqReady).held) : a ∈ q.held ∨ a ∈ enq.sent q.enqReady :=
  Multiset.mem_add.mp (q.held_next enq deqReady ▸ Multiset.mem_add.mpr (.inl h))

theorem mem_held {a : α} : a ∈ q.held ↔ q.maybeFull = true ∧ a = q.ram := by
  cases h : q.maybeFull <;> simp [held, h]

theorem held_eq_zero : q.held = 0 ↔ q.maybeFull = false := by
  cases h : q.maybeFull <;> simp [held, h]

theorem held_of_full (h : q.maybeFull = true) : q.held = {q.ram} := by simp [held, h]

/-- What is handed over was held. -/
theorem sent_le_held (deqReady : Bool) : q.deq.sent deqReady ≤ q.held := by
  cases h : q.maybeFull <;> cases deqReady <;>
    simp [held, deq, Decoupled.sent, Decoupled.fire, h]

/-- An empty buffer holds what it is offered. -/
theorem next_filled (enq : Decoupled α) (deqReady : Bool) (h : q.maybeFull = false)
    (hvalid : enq.valid = true) : (q.next false enq deqReady).maybeFull = true ∧
      (q.next false enq deqReady).ram = enq.bits := by
  simp [next, deq, Decoupled.fire, enqReady, h, hvalid]

/-- A full buffer that is not read stays as it is. -/
theorem next_unread (enq : Decoupled α) (h : q.maybeFull = true) :
    (q.next false enq false).maybeFull = true ∧ (q.next false enq false).ram = q.ram := by
  simp [next, deq, Decoupled.fire, enqReady, h]

/-- A full buffer that is read is empty in the next cycle. -/
theorem empty_of_deq {enq : Decoupled α} (h : q.maybeFull = true) :
    (q.next false enq true).maybeFull = false := by
  simp [next, deq, Decoupled.fire, enqReady, h]

/-- A buffer is full because it was filled, or because it was not read. -/
theorem full_next {enq : Decoupled α} {deqReady : Bool}
    (h : (q.next false enq deqReady).maybeFull = true) :
    (q.maybeFull = false ∧ enq.valid = true) ∨ (q.maybeFull = true ∧ deqReady = false) := by
  revert h
  cases hfull : q.maybeFull <;> cases henq : enq.valid <;> cases deqReady <;>
    simp [next, deq, Decoupled.fire, enqReady, hfull, henq]

end OneQueue
end VentusDriver.Foundation
