import VentusDriver.Foundation.Transition
import VentusDriver.Device.PhysicalBytes
import VentusDriver.Device.Processor

/-! The arrays of the memory controller and the indexes into them. The constructor allocates two words
for each port and one word for each thread of the controller; the port loops and the word loops run to
other bounds. -/
namespace VentusDriver
open Foundation

namespace Block

/-- The number of bytes that a read copies out of a block. -/
def copied (b : Block) (base length : ℕ) : ℕ :=
  if b.size < u64 (base + length) then 0 else min length (sub64 b.size base)

end Block

namespace PhysicalMemory
variable {pm : PhysicalMemory} {addr len : ℕ}

/-- The number of bytes that a read stores in the buffer of its caller. -/
def copied (pm : PhysicalMemory) (addr length : ℕ) : ℕ :=
  match pm.blocks.find? fun b => decide (spans b addr length) with
  | none => 0
  | some b => if b.empty then 0 else b.copied (addr - b.addr) length

/-- A read changes no other byte of the buffer. -/
lemma readData_outside {i : ℕ} (out : ℕ → UInt8) (hi : pm.copied addr len ≤ i) :
    (pm.readData addr len out).2 i = out i := by
  rw [readData, readBlocks_eq]
  rw [copied] at hi
  cases hfind : pm.blocks.find? fun b => decide (spans b addr len) with
  | none => rfl
  | some b =>
    simp only [hfind] at hi ⊢
    by_cases hempty : b.empty = true
    · simp [hempty]
    · simp only [hempty, Bool.false_eq_true, if_false, Block.copied, Block.read] at hi ⊢
      by_cases hlong : b.size < u64 (addr - b.addr + len)
      · simp [hlong]
      · simp only [hlong, if_false] at hi ⊢
        simp [Nat.not_lt.mpr hi]

lemma copied_le (pm : PhysicalMemory) (addr len : ℕ) : pm.copied addr len ≤ len := by
  rw [copied]
  cases pm.blocks.find? fun b => decide (spans b addr len) with
  | none => exact Nat.zero_le _
  | some b =>
    simp only [Block.copied]
    split_ifs
    · exact Nat.zero_le _
    · exact Nat.zero_le _
    · exact min_le_left _ _

/-- A range with storage is copied whole. -/
lemma copied_of_backed (h : pm.Ordered) (hb : pm.Backed addr len) : pm.copied addr len = len := by
  apply le_antisymm (copied_le pm addr len)
  by_contra hshort
  -- the first byte that is not copied would keep what the buffer held before
  have hlt : pm.copied addr len < len := Nat.lt_of_not_le hshort
  have hkept : ∀ v : UInt8, pm.byteAt (addr + pm.copied addr len) = v := by
    intro v
    have hout := @readData_outside pm addr len _ (fun _ => v) (le_refl _)
    rw [readData_backed h (Nat.zero_lt_of_lt hlt) hb] at hout
    simpa [hlt] using hout
  exact absurd ((hkept 0).symm.trans (hkept 1)) (by decide)

/-- Nothing is copied from a range that no block with storage covers, even where its end wraps. -/
lemma copied_of_not_backed (h : pm.Ordered) (haddr : addr < 2 ^ 64) (hlen : len < 2 ^ 29)
    (hb : ¬ pm.Backed addr len) : pm.copied addr len = 0 := by
  rw [copied]
  cases hfind : pm.blocks.find? fun b => decide (spans b addr len) with
  | none => rfl
  | some b =>
    have hmem := List.mem_of_find?_eq_some hfind
    have hspans : spans b addr len := by
      have hfound := List.find?_some (p := fun c => decide (spans c addr len)) hfind
      exact of_decide_eq_true hfound
    have hlimit := h.limit_lt hmem
    by_cases hempty : b.empty = true
    · simp [hempty]
    · have hsome : b.pages.isSome = true := by
        rwa [Bool.not_eq_true, Block.empty, Option.isNone_eq_false_iff] at hempty
      have hlower := (h.inserted_of_backed hmem hsome).lower
      have hlong : b.size < u64 (addr - b.addr + len) := by
        have hnot : ¬ addr + len ≤ b.limit := fun hle => hb ⟨b, hmem, hsome, hspans.1, hle⟩
        have hstart := hspans.1
        simp only [Block.limit] at hlimit hnot
        rw [u64_of_lt (by omega)]
        omega
      simp [hempty, Block.copied, hlong]

end PhysicalMemory

/-! ### The arrays -/

/-- `m_req_->data`, `m_rsp_->data` and `m_data_`. -/
inductive PortArray
  | req
  | rsp
  | data
  deriving DecidableEq, Repr

/-- The words that the constructor allocates for an array. -/
def PortArray.capacity (numThread : ℕ) : PortArray → ℕ
  | .req => 2
  | .rsp => 2
  | .data => numThread

/-- The indexes below a bound. -/
def PortArray.below (a : PortArray) (n : ℕ) : List (PortArray × ℕ) := (List.range n).map (a, ·)

lemma PortArray.mem_below {a b : PortArray} {i n : ℕ} : (b, i) ∈ a.below n ↔ b = a ∧ i < n := by
  simp only [below, List.mem_map, List.mem_range, Prod.mk.injEq]
  constructor
  · intro h
    obtain ⟨j, hj, rfl, rfl⟩ := h
    exact ⟨rfl, hj⟩
  · intro h
    obtain ⟨rfl, hi⟩ := h
    exact ⟨i, hi, rfl, rfl⟩

/-- All indexes below a bound are in range when the bound is. -/
lemma PortArray.below_inRange {a : PortArray} {n numThread : ℕ} :
    (∀ u ∈ a.below n, u.2 < u.1.capacity numThread) ↔ n ≤ a.capacity numThread := by
  constructor
  · intro h
    cases n with
    | zero => exact Nat.zero_le _
    | succ n => exact h (a, n) (mem_below.mpr ⟨rfl, Nat.lt_succ_self n⟩)
  · intro h u hu
    obtain ⟨heq, hlt⟩ := mem_below.mp hu
    rw [heq]
    exact lt_of_lt_of_le hlt h

namespace MemController

/-! ### The indexes that a call uses -/

def resetUses (c : MemController) : List (PortArray × ℕ) := PortArray.data.below c.num

/-- A read fills the response with the bytes that memory copies; a write takes words of `m_data_` up
to the count, of which the mask selects some. -/
def respondUses (c : MemController) (mem : Memory) : List (PortArray × ℕ) :=
  if c.rw = 4 then PortArray.rsp.below ((mem.pm.copied c.addr (u64 (c.num * 4)) + 3) / 4)
  else if c.rw = 0 then PortArray.data.below c.num
  else []

/-- The loop over the words of a write. -/
def latchUses (c : MemController) : List (PortArray × ℕ) :=
  if c.req.opcode = 0 then PortArray.req.below c.num ++ PortArray.data.below c.num else []

def evalUses (c : MemController) (clk : ℕ) (mem : Memory) : List (PortArray × ℕ) :=
  if clk ≠ 0 then []
  else if c.timeRemain ≠ 0 then []
  else if c.inRsp ≠ 0 then
    if c.rsp.ready ≠ 0 then c.respondUses mem else []
  else if c.req.valid ≠ 0 ∧ c.req.ready ≠ 0 then c.latchUses
  else []

end MemController

/-- The port loops of `get_ram_bits_port`. -/
def Processor.portUses : List (PortArray × ℕ) :=
  PortArray.req.below numThread ++ PortArray.rsp.below numThread

/-! ### Runs -/

/-- The argument of the constructor, the controller, and all indexes used so far. -/
structure BoundsState where
  numThread : ℕ
  ctl : MemController
  used : List (PortArray × ℕ)

inductive BoundsStep
  | reset
  | eval (clk : ℕ) (mem : Memory)
  | port (clk : ℕ) (p : Processor) (out : DeviceOut)

namespace BoundsState

def uses (s : BoundsState) : BoundsStep → List (PortArray × ℕ)
  | .reset => s.ctl.resetUses
  | .eval clk mem => s.ctl.evalUses clk mem
  | .port clk _ _ => if clk ≠ 0 then Processor.portUses else []

def exec (s : BoundsState) (l : BoundsStep) : BoundsState :=
  { s with
    ctl := match l with
      | .reset => s.ctl.reset
      | .eval clk mem => (s.ctl.eval clk mem).1
      | .port clk p out => if clk ≠ 0 then (p.getRamBitsPort s.ctl out).1 else s.ctl
    used := s.uses l ++ s.used }

/-- Every index used so far lies in its array. -/
def InRange (s : BoundsState) : Prop := ∀ u ∈ s.used, u.2 < u.1.capacity s.numThread

/-- The evaluation latches a write. -/
def TakesWrite (c : MemController) (clk : ℕ) : Prop :=
  clk = 0 ∧ c.timeRemain = 0 ∧ c.inRsp = 0 ∧ (c.req.valid ≠ 0 ∧ c.req.ready ≠ 0) ∧ c.req.opcode = 0

/-- The evaluation answers a read. -/
def AnswersRead (c : MemController) (clk : ℕ) : Prop :=
  clk = 0 ∧ c.timeRemain = 0 ∧ c.inRsp ≠ 0 ∧ c.rsp.ready ≠ 0 ∧ c.rw = 4

/-- The steps whose loops stay in the arrays: no port copy at a high clock, at most two words in a
write that is latched, and at most two in a read that is answered and lies in a block with storage. -/
def Fits (s : BoundsState) : BoundsStep → Prop
  | .reset => True
  | .eval clk mem => (TakesWrite s.ctl clk → s.ctl.num ≤ 2) ∧
      (AnswersRead s.ctl clk → s.ctl.num ≤ 2 ∨ ¬ mem.pm.Backed s.ctl.addr (s.ctl.num * 4))
  | .port clk _ _ => clk = 0

end BoundsState

/-- The memory of an evaluation has its blocks in order. -/
def BoundsStep.MemoryOk : BoundsStep → Prop
  | .eval _ mem => mem.pm.Ordered
  | _ => True

/-- Runs from the constructor on. It truncates the number of threads to 8 bits and leaves the other
registers as they are, with values of their types. -/
def boundsSystem : TransitionSystem BoundsState BoundsStep where
  init s := s.used = [] ∧ s.ctl.num = s.numThread % 2 ^ 8 ∧ s.ctl.addr < 2 ^ 64 ∧
    s.ctl.req.address < 2 ^ 32
  step s l t := l.MemoryOk ∧ t = s.exec l

namespace BoundsState
variable {s : BoundsState} {l : BoundsStep}

/-- The registers that the bounds depend on hold values of their types. -/
structure Typed (s : BoundsState) : Prop where
  num : s.ctl.num = s.numThread % 2 ^ 8
  addr : s.ctl.addr < 2 ^ 64
  address : s.ctl.req.address < 2 ^ 32

/-- An evaluation changes the address register only when it latches a request. -/
lemma eval_typed (c : MemController) (clk : ℕ) (mem : Memory) :
    (c.eval clk mem).1.num = c.num ∧ (c.eval clk mem).1.req.address = c.req.address ∧
      ((c.eval clk mem).1.addr = c.addr ∨ (c.eval clk mem).1.addr = c.req.address) := by
  rw [MemController.eval]
  split_ifs
  · exact ⟨rfl, rfl, .inl rfl⟩
  · exact ⟨rfl, rfl, .inl rfl⟩
  · exact ⟨rfl, rfl, .inl rfl⟩
  · exact ⟨rfl, rfl, .inl rfl⟩
  · exact ⟨rfl, rfl, .inr rfl⟩
  · exact ⟨rfl, rfl, .inl rfl⟩

lemma Typed.exec (h : s.Typed) (l : BoundsStep) : (s.exec l).Typed := by
  cases l with
  | reset => exact ⟨h.num, h.addr, h.address⟩
  | eval clk mem =>
    obtain ⟨hnum, haddress, haddr⟩ := eval_typed s.ctl clk mem
    refine ⟨hnum.trans h.num, ?_, haddress.trans_lt h.address⟩
    have haddress := h.address
    cases haddr with
    | inl heq => exact heq.trans_lt h.addr
    | inr heq => exact heq.trans_lt (by omega)
  | port clk p out =>
    by_cases hclk : clk ≠ 0
    · have hctl : (s.exec (.port clk p out)).ctl = (p.getRamBitsPort s.ctl out).1 := if_pos hclk
      refine ⟨?_, ?_, ?_⟩
      · rw [hctl]
        exact h.num
      · rw [hctl]
        exact h.addr
      · rw [hctl]
        exact Nat.mod_lt _ (by norm_num)
    · have hctl : (s.exec (.port clk p out)).ctl = s.ctl := if_neg hclk
      refine ⟨?_, ?_, ?_⟩
      · rw [hctl]
        exact h.num
      · rw [hctl]
        exact h.addr
      · rw [hctl]
        exact h.address

/-- The words of the controller fit into its own array, also when the count was truncated. -/
lemma Typed.num_le (h : s.Typed) : s.ctl.num ≤ PortArray.data.capacity s.numThread :=
  h.num.trans_le (Nat.mod_le _ _)

lemma respond_inRange_iff (h : s.Typed) {mem : Memory} (hord : mem.pm.Ordered) :
    (∀ u ∈ s.ctl.respondUses mem, u.2 < u.1.capacity s.numThread) ↔
      (s.ctl.rw = 4 → s.ctl.num ≤ 2 ∨ ¬ mem.pm.Backed s.ctl.addr (s.ctl.num * 4)) := by
  have hnum := h.num
  by_cases hread : s.ctl.rw = 4
  · have hlen : u64 (s.ctl.num * 4) = s.ctl.num * 4 := u64_of_lt (by omega)
    rw [MemController.respondUses, if_pos hread, PortArray.below_inRange, hlen]
    simp only [hread, PortArray.capacity, true_implies]
    by_cases hbacked : mem.pm.Backed s.ctl.addr (s.ctl.num * 4)
    · rw [PhysicalMemory.copied_of_backed hord hbacked]
      simp only [hbacked, not_true, or_false]
      omega
    · rw [PhysicalMemory.copied_of_not_backed hord h.addr (by omega) hbacked]
      simp [hbacked]
  · simp only [hread, false_implies, iff_true]
    rw [MemController.respondUses, if_neg hread]
    by_cases hwrite : s.ctl.rw = 0
    · rw [if_pos hwrite, PortArray.below_inRange]
      exact h.num_le
    · rw [if_neg hwrite]
      simp

lemma latch_inRange_iff (h : s.Typed) :
    (∀ u ∈ s.ctl.latchUses, u.2 < u.1.capacity s.numThread) ↔
      (s.ctl.req.opcode = 0 → s.ctl.num ≤ 2) := by
  by_cases hwrite : s.ctl.req.opcode = 0
  · rw [MemController.latchUses, if_pos hwrite, List.forall_mem_append, PortArray.below_inRange,
      PortArray.below_inRange]
    simp only [hwrite, true_implies, PortArray.capacity]
    exact ⟨fun hle => hle.1, fun hle => ⟨hle, h.num_le⟩⟩
  · rw [MemController.latchUses, if_neg hwrite]
    simp [hwrite]

/-- The indexes that an evaluation uses lie in their arrays exactly when the evaluation fits. -/
lemma eval_inRange_iff (h : s.Typed) (clk : ℕ) {mem : Memory} (hord : mem.pm.Ordered) :
    (∀ u ∈ s.ctl.evalUses clk mem, u.2 < u.1.capacity s.numThread) ↔ s.Fits (.eval clk mem) := by
  rw [MemController.evalUses]
  simp only [Fits, TakesWrite, AnswersRead]
  split_ifs with hclk hwait hbusy hready htake
  · simp [hclk]
  · simp [hwait]
  · rw [respond_inRange_iff h hord]
    simp [not_not.mp hclk, not_not.mp hwait, hbusy, hready]
  · simp [hbusy, not_not.mp hready]
  · rw [latch_inRange_iff h]
    simp [not_not.mp hclk, not_not.mp hwait, not_not.mp hbusy, htake]
  · simp [not_not.mp hbusy, htake]

/-- The indexes that a step uses lie in their arrays exactly when the step fits. -/
theorem uses_inRange_iff (h : s.Typed) (hok : l.MemoryOk) :
    (∀ u ∈ s.uses l, u.2 < u.1.capacity s.numThread) ↔ s.Fits l := by
  cases l with
  | reset =>
    have hreset : s.uses .reset = PortArray.data.below s.ctl.num := rfl
    rw [hreset, PortArray.below_inRange]
    exact ⟨fun _ => trivial, fun _ => h.num_le⟩
  | eval clk mem => exact eval_inRange_iff h clk hok
  | port clk p out =>
    by_cases hclk : clk = 0
    · simp [uses, Fits, hclk]
    · have huses : s.uses (.port clk p out) = Processor.portUses := if_pos hclk
      rw [huses, Processor.portUses, List.forall_mem_append, PortArray.below_inRange,
        PortArray.below_inRange]
      exact ⟨fun hle => absurd hle.1 (show ¬ 8 ≤ 2 by decide), fun hfits => absurd hfits hclk⟩

/-- A step keeps all indexes in range exactly when it fits. -/
lemma exec_inRange_iff (h : s.Typed) (hok : l.MemoryOk) (hin : s.InRange) :
    (s.exec l).InRange ↔ s.Fits l := by
  rw [← uses_inRange_iff h hok, InRange]
  have hused : (s.exec l).used = s.uses l ++ s.used := rfl
  have hnum : (s.exec l).numThread = s.numThread := rfl
  rw [hused, hnum, List.forall_mem_append]
  exact ⟨fun hall => hall.1, fun huses => ⟨huses, hin⟩⟩

lemma typed_of_reachable (h : boundsSystem.Reachable s) : s.Typed := by
  apply h.invariant
  · intro s hs
    exact ⟨hs.2.1, hs.2.2.1, hs.2.2.2⟩
  · intro s l t hs _ ht
    rw [ht.2]
    exact hs.exec l

/-- While all steps fit, every index is in range; the first step that does not fit uses one that is
not. -/
theorem inRange_while_fits (h : boundsSystem.ReachableBy Fits s) :
    s.InRange ∧ ∀ l, l.MemoryOk → ((s.exec l).InRange ↔ s.Fits l) := by
  have hin : s.InRange := by
    induction h with
    | start hinit =>
      intro u hu
      rw [hinit.1] at hu
      cases hu
    | next reached allowed taken ih =>
      rw [taken.2]
      exact (exec_inRange_iff (typed_of_reachable reached.reachable) taken.1 ih).mpr allowed
  exact ⟨hin, fun l hok => exec_inRange_iff (typed_of_reachable h.reachable) hok hin⟩

/-! ### Words outside the indexes used -/

lemma read_outside (mem : Memory) (addr num : ℕ) (out : ℕ → ℕ) {i : ℕ}
    (hi : PhysicalMemory.copied mem.pm addr (u64 (num * 4)) ≤ i * 4) :
    u32 ((mem.readPhy 4 addr num out none).2 i) = u32 (out i) := by
  have hbyte : ∀ j < 4, (mem.pm.readData addr (u64 (num * 4))
      fun j => byteOf (out (j / 4)) (j % 4)).2 (i * 4 + j) = byteOf (out i) j := by
    intro j hj
    rw [PhysicalMemory.readData_outside _ (by omega)]
    have hword : (i * 4 + j) / 4 = i := by omega
    have hplace : (i * 4 + j) % 4 = j := by omega
    rw [hword, hplace]
  have hread : (mem.readPhy 4 addr num out none).2 i = littleEndian 4 fun j =>
      (mem.pm.readData addr (u64 (num * 4)) fun j => byteOf (out (j / 4)) (j % 4)).2 (i * 4 + j) := rfl
  rw [hread, littleEndian_congr hbyte]
  change u32 (littleEndian 4 (byteOf (out i))) = u32 (out i)
  rw [littleEndian_byteOf]
  exact Nat.mod_mod _ _

/-- The controller after an evaluation, with the cases that the indexes are split into. -/
lemma eval_fst (c : MemController) (clk : ℕ) (mem : Memory) : (c.eval clk mem).1 =
    if clk ≠ 0 then c.sample
    else if c.timeRemain ≠ 0 then c.delay
    else if c.inRsp ≠ 0 then if c.rsp.ready ≠ 0 then (c.raise.respond mem).1.drive else c.raise.drive
    else if c.req.valid ≠ 0 ∧ c.req.ready ≠ 0 then c.raise.await.latch.drive
    else c.raise.await.drive := by
  have hbusy : c.raise.inRsp = c.inRsp := rfl
  have hready : (c.raise.rsp.ready ≠ 0 ∧ c.raise.rsp.valid ≠ 0) ↔ c.rsp.ready ≠ 0 := by
    simp [MemController.raise]
  have htake : (c.raise.await.req.valid ≠ 0 ∧ c.raise.await.req.ready ≠ 0) ↔
      c.req.valid ≠ 0 ∧ c.req.ready ≠ 0 := Iff.rfl
  rw [MemController.eval]
  simp only [hbusy, hready, htake]
  split_ifs <;> rfl

/-- A step changes no word of an array at an index that it does not use. -/
theorem exec_outside (s : BoundsState) (l : BoundsStep) (i : ℕ) :
    ((PortArray.req, i) ∉ s.uses l → (s.exec l).ctl.req.data i = s.ctl.req.data i) ∧
      ((PortArray.rsp, i) ∉ s.uses l → u32 ((s.exec l).ctl.rsp.data i) = u32 (s.ctl.rsp.data i)) ∧
      ((PortArray.data, i) ∉ s.uses l → (s.exec l).ctl.data i = s.ctl.data i) := by
  cases l with
  | reset =>
    refine ⟨fun _ => rfl, fun _ => rfl, fun hout => ?_⟩
    exact if_neg fun hi => hout (PortArray.mem_below.mpr ⟨rfl, hi⟩)
  | port clk p out =>
    by_cases hclk : clk ≠ 0
    · have huses : s.uses (.port clk p out) = Processor.portUses := if_pos hclk
      have hctl : (s.exec (.port clk p out)).ctl = (p.getRamBitsPort s.ctl out).1 := if_pos hclk
      rw [huses, hctl]
      refine ⟨fun hout => ?_, fun _ => rfl, fun _ => rfl⟩
      refine if_neg fun hi => hout ?_
      exact List.mem_append_left _ (PortArray.mem_below.mpr ⟨rfl, hi⟩)
    · have hctl : (s.exec (.port clk p out)).ctl = s.ctl := if_neg hclk
      rw [hctl]
      exact ⟨fun _ => rfl, fun _ => rfl, fun _ => rfl⟩
  | eval clk mem =>
    have huses : s.uses (.eval clk mem) = s.ctl.evalUses clk mem := rfl
    have hctl : (s.exec (.eval clk mem)).ctl = (s.ctl.eval clk mem).1 := rfl
    rw [huses, hctl, MemController.evalUses, eval_fst]
    split_ifs with hclk hwait hbusy hready htake
    · exact ⟨fun _ => rfl, fun _ => rfl, fun _ => rfl⟩
    · exact ⟨fun _ => rfl, fun _ => rfl, fun _ => rfl⟩
    · refine ⟨fun _ => rfl, fun hout => ?_, fun _ => rfl⟩
      by_cases hread : s.ctl.rw = 4
      · have hdata : (s.ctl.raise.respond mem).1.drive.rsp.data =
            (mem.readPhy 4 s.ctl.addr s.ctl.num s.ctl.rsp.data none).2 := if_pos hread
        rw [hdata]
        apply read_outside
        rw [MemController.respondUses, if_pos hread, PortArray.mem_below] at hout
        simp only [true_and] at hout
        omega
      · have hdata : (s.ctl.raise.respond mem).1.drive.rsp.data = s.ctl.rsp.data := if_neg hread
        rw [hdata]
    · exact ⟨fun _ => rfl, fun _ => rfl, fun _ => rfl⟩
    · refine ⟨fun _ => rfl, fun _ => rfl, fun hout => ?_⟩
      by_cases hwrite : s.ctl.req.opcode = 0
      · have hdata : s.ctl.raise.await.latch.drive.data =
            fun i => if i < s.ctl.num then s.ctl.req.data i else s.ctl.data i := if_pos hwrite
        rw [hdata]
        refine if_neg fun hi => hout ?_
        rw [MemController.latchUses, if_pos hwrite]
        exact List.mem_append_right _ (PortArray.mem_below.mpr ⟨rfl, hi⟩)
      · have hdata : s.ctl.raise.await.latch.drive.data = s.ctl.data := if_neg hwrite
        rw [hdata]
    · exact ⟨fun _ => rfl, fun _ => rfl, fun _ => rfl⟩

/-! ### Runs on concrete inputs -/

/-- The state after the constructor ran for 8 threads. -/
def constructed : BoundsState := ⟨8, .zeroed 8, []⟩

/-- The device drives nothing. -/
def noRequest : DeviceOut := ⟨0, 0, 0, 0, fun _ => 0, 0, 0⟩

/-- The state after the constructor for two threads, when the registers of the port hold a write. -/
def offering : BoundsState :=
  ⟨2, { MemController.zeroed 2 with req := ⟨0, 0, 0, 0, 3, 0, 1, fun i => i + 7⟩ }, []⟩

/-- The write is latched in the second cycle after a reset, with both words. The next copy of the ports at a
high clock is out of range. -/
theorem inRange_while_fits_latched : ∃ s, boundsSystem.ReachableBy Fits s ∧ s.ctl.inRsp = 1 ∧
    s.ctl.data 0 = 7 ∧ s.ctl.data 1 = 8 ∧ (PortArray.req, 1) ∈ s.used ∧ s.InRange ∧
    ¬ (s.exec (.port 1 .new noRequest)).InRange := by
  let mem : Memory := ⟨.new 0x20001000⟩
  have hmem : mem.pm.Ordered := (PhysicalMemory.new_wellFormed (by decide)).ordered
  have hstart : boundsSystem.ReachableBy Fits offering := .start ⟨rfl, rfl, by decide, by decide⟩
  have hreset : boundsSystem.ReachableBy Fits (offering.exec .reset) :=
    hstart.next (l := .reset) trivial ⟨trivial, rfl⟩
  have hfits : ∀ s : BoundsState, s.ctl.num = 2 → s.Fits (.eval 0 mem) :=
    fun s hnum => ⟨fun _ => hnum.le, fun _ => .inl hnum.le⟩
  have hwaits : boundsSystem.ReachableBy Fits ((offering.exec .reset).exec (.eval 0 mem)) :=
    hreset.next (l := .eval 0 mem) (hfits _ rfl) ⟨hmem, rfl⟩
  have hlatches : boundsSystem.ReachableBy Fits
      (((offering.exec .reset).exec (.eval 0 mem)).exec (.eval 0 mem)) :=
    hwaits.next (l := .eval 0 mem) (hfits _ rfl) ⟨hmem, rfl⟩
  obtain ⟨hin, hiff⟩ := inRange_while_fits hlatches
  refine ⟨_, hlatches, rfl, rfl, rfl, by decide, hin, fun hport => ?_⟩
  exact absurd ((hiff (.port 1 .new noRequest) trivial).mp hport) one_ne_zero

/-- The first copy of the ports uses index 2 of arrays with two words. -/
theorem port_out_of_range : ¬ ∀ s, boundsSystem.Reachable s → s.InRange := by
  intro h
  have hstart : boundsSystem.Reachable constructed := .start ⟨rfl, rfl, by decide, by decide⟩
  have hreach : boundsSystem.Reachable (constructed.exec (.port 1 .new noRequest)) :=
    hstart.next (l := .port 1 .new noRequest) trivial ⟨trivial, rfl⟩
  have hin := h _ hreach (.req, 2) (by decide)
  exact absurd hin (by decide)

end BoundsState
end VentusDriver
