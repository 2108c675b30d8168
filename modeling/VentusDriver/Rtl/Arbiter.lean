import Mathlib.Data.Fintype.Pi
import Mathlib.Data.Fin.VecNotation
import Mathlib.Tactic.FinCases
import Mathlib.Tactic.NormNum
import VentusDriver.Foundation.Decoupled

/-! The arbiters of the memory management unit: the priority encoder, the round-robin arbiter over the
slots of a walker, and the arbiter between the two walkers at the memory port. -/
namespace VentusDriver.Rtl
open Foundation

/-- An address with the tag of the request it belongs to. -/
structure AddrBits where
  addr : BitVec 64
  source : BitVec 2
  deriving DecidableEq, Repr

/-- A request at the memory port. The top bit of the tag is the walker. -/
structure MemReqBits where
  addr : BitVec 64
  source : BitVec 3
  deriving DecidableEq, Repr

/-- A response at the memory port. -/
structure MemRspBits where
  data : BitVec 64
  source : BitVec 3
  deriving DecidableEq, Repr

/-- Four registers of one kind. -/
structure Regs (α : Type*) where
  r0 : α
  r1 : α
  r2 : α
  r3 : α
  deriving DecidableEq, Repr

namespace Regs
variable {α : Type*}

def get (r : Regs α) (i : Fin 4) : α :=
  match i with
  | 0 => r.r0
  | 1 => r.r1
  | 2 => r.r2
  | 3 => r.r3

instance : CoeFun (Regs α) fun _ => Fin 4 → α := ⟨get⟩

def of (f : Fin 4 → α) : Regs α := ⟨f 0, f 1, f 2, f 3⟩

@[simp] theorem get_of (f : Fin 4 → α) (i : Fin 4) : (of f).get i = f i := by
  fin_cases i <;> rfl

end Regs

/-- One of the indices is set. -/
def oneOf (p : Fin 4 → Bool) : Bool := p 0 || p 1 || p 2 || p 3

lemma oneOf_iff {p : Fin 4 → Bool} : oneOf p = true ↔ ∃ i, p i = true := by
  simp only [oneOf, Bool.or_eq_true]
  constructor
  · rintro (((h | h) | h) | h) <;> exact ⟨_, h⟩
  · rintro ⟨i, hi⟩
    fin_cases i <;> simp_all

/-- The lowest index that is set, or else the last one. -/
def lowest (p : Fin 4 → Bool) : Fin 4 := if p 0 then 0 else if p 1 then 1 else if p 2 then 2 else 3

lemma lowest_set {p : Fin 4 → Bool} (h : ∃ i, p i = true) : p (lowest p) = true := by
  obtain ⟨i, hi⟩ := h
  unfold lowest
  split_ifs with h0 h1 h2
  · exact h0
  · exact h1
  · exact h2
  · fin_cases i <;> simp_all

/-- The register keeps the last grant. No reset clears it. -/
structure RRArbiter where
  lastGrant : Fin 4
  deriving DecidableEq, Repr

namespace RRArbiter
variable {α : Type*} (a : RRArbiter)

/-- The register holds any value before its first grant. -/
def powerUp : RRArbiter := ⟨0⟩

/-- The first valid port above the last grant, or else the first valid port. -/
def chosen (valid : Fin 4 → Bool) : Fin 4 :=
  if valid 1 && decide (a.lastGrant < 1) then 1
  else if valid 2 && decide (a.lastGrant < 2) then 2
  else if valid 3 && decide (a.lastGrant < 3) then 3
  else if valid 0 then 0
  else if valid 1 then 1
  else if valid 2 then 2
  else 3

/-- The port that is granted if the other side is ready. -/
def port (io : Fin 4 → Decoupled α) : Fin 4 := a.chosen fun i => (io i).valid

def out (io : Fin 4 → Decoupled α) : Decoupled α := io (a.port io)

def next (io : Fin 4 → Decoupled α) (ready : Bool) : RRArbiter :=
  if (a.out io).fire ready then ⟨a.port io⟩ else a

lemma chosen_valid {valid : Fin 4 → Bool} (h : ∃ i, valid i = true) :
    valid (a.chosen valid) = true := by
  obtain ⟨i, hi⟩ := h
  unfold chosen
  split_ifs with h1 h2 h3 h0 h1' h2'
  · exact (Bool.and_eq_true_iff.mp h1).1
  · exact (Bool.and_eq_true_iff.mp h2).1
  · exact (Bool.and_eq_true_iff.mp h3).1
  · exact h0
  · exact h1'
  · exact h2'
  · fin_cases i <;> simp_all

/-- A port is offered exactly where one of them is valid. -/
lemma out_valid {io : Fin 4 → Decoupled α} : (a.out io).valid = true ↔ ∃ i, (io i).valid = true :=
  ⟨fun h => ⟨_, h⟩, fun h => a.chosen_valid h⟩

/-- The grants that may come before one to port `j`. -/
def turns (j : Fin 4) : ℕ := (j.val + 3 - a.lastGrant.val) % 4

lemma turns_le (j : Fin 4) : a.turns j ≤ 3 := Nat.lt_succ_iff.mp (Nat.mod_lt _ (by norm_num))

/-- A valid port comes closer with every grant to another one. -/
lemma turns_chosen {valid : Fin 4 → Bool} {j : Fin 4} (hj : valid j = true)
    (hne : a.chosen valid ≠ j) : turns ⟨a.chosen valid⟩ j < a.turns j := by
  have hall : ∀ (v : Fin 4 → Bool) (l j : Fin 4), v j = true → chosen ⟨l⟩ v ≠ j →
      turns ⟨chosen ⟨l⟩ v⟩ j < turns ⟨l⟩ j := by decide
  exact hall valid a.lastGrant j hj hne

lemma turns_next (io : Fin 4 → Decoupled α) {j : Fin 4} (hj : (io j).valid = true)
    (hne : a.port io ≠ j) : (a.next io true).turns j < a.turns j := by
  have hvalid : (a.out io).valid = true := a.out_valid.mpr ⟨j, hj⟩
  rw [next, if_pos (by simp [Decoupled.fire, hvalid])]
  exact a.turns_chosen hj hne

end RRArbiter

namespace MMUMemArbiter

/-- The port of the last level comes first. -/
def reqReady (in0 : Decoupled AddrBits) (outReady : Bool) (port : Bool) : Bool :=
  if port then !in0.valid && outReady else outReady

def reqOut (in0 in1 : Decoupled AddrBits) : Decoupled MemReqBits where
  valid := in0.valid || in1.valid
  bits :=
    if in0.valid then ⟨in0.bits.addr, 0#1 ++ in0.bits.source⟩
    else ⟨in1.bits.addr, 1#1 ++ in1.bits.source⟩

/-- The walker that a tag belongs to. -/
def portOf (source : BitVec 3) : Bool := source.getLsbD 2

def rspReady (rsp : MemRspBits) (ready0 ready1 : Bool) : Bool :=
  if portOf rsp.source then ready1 else ready0

def rspOut (rsp : Decoupled MemRspBits) (port : Bool) : Decoupled AddrBits where
  valid := (portOf rsp.bits.source == port) && rsp.valid
  bits := ⟨rsp.bits.data, rsp.bits.source.extractLsb' 0 2⟩

/-- The tag at the memory port. -/
def tagOf (port : Bool) (source : BitVec 2) : BitVec 3 := (if port then 1#1 else 0#1) ++ source

@[simp] lemma portOf_tagOf (port : Bool) (source : BitVec 2) : portOf (tagOf port source) = port := by
  cases port <;> revert source <;> decide

@[simp] lemma source_tagOf (port : Bool) (source : BitVec 2) :
    (tagOf port source).extractLsb' 0 2 = source := by
  cases port <;> revert source <;> decide

end MMUMemArbiter
end VentusDriver.Rtl
