import VentusDriver.Foundation.Transition
import VentusDriver.Device.PhysicalBytes
import VentusDriver.Device.MemController

/-! Sequential semantics of the memory controller. The requests are carried out one after the
other in the order in which they were latched, each on the memory that its predecessors left. -/
namespace VentusDriver
open Foundation

/-- What the device asks for. -/
structure Request where
  opcode : ℕ
  size : ℕ
  source : ℕ
  address : ℕ
  mask : ℕ
  data : ℕ → ℕ

/-- What the controller answers. -/
structure Reply where
  valid : ℕ
  opcode : ℕ
  size : ℕ
  source : ℕ
  data : ℕ → ℕ

namespace PhysicalMemory
variable {pm : PhysicalMemory} {addr num : ℕ}

/-- The blocks are well formed, wherever the cursor stands. -/
def Layout (pm : PhysicalMemory) : Prop := WellFormed { pm with currentBlock := some 0 }

lemma WellFormed.layout (h : pm.WellFormed) : pm.Layout := by
  obtain ⟨h1, h2, h3, h4, h5, i, -, hi⟩ := h
  exact ⟨h1, h2, h3, h4, h5, 0, rfl, Nat.zero_lt_of_lt hi⟩

lemma Layout.of_sameFrames {pm' : PhysicalMemory} (h : pm.Layout) (hs : SameFrames pm pm') :
    pm'.Layout := WellFormed.of_frames h hs.maxRange rfl hs.frames

lemma Layout.ordered (h : pm.Layout) : pm.Ordered := (WellFormed.ordered h).of_frames rfl rfl

lemma Layout.writeData (h : pm.Layout) {len : ℕ} (hlen : 0 < len) (hb : pm.Backed addr len)
    (data : ℕ → UInt8) (x : ℕ) : (pm.writeData addr len data).2.byteAt x =
      if addr ≤ x ∧ x < addr + len then data (x - addr) else pm.byteAt x :=
  writeData_backed h.ordered hlen hb data x

lemma Layout.readData (h : pm.Layout) {len : ℕ} (hlen : 0 < len) (hb : pm.Backed addr len)
    (out : ℕ → UInt8) : pm.readData addr len out =
      (0, fun i => if i < len then pm.byteAt (addr + i) else out i) :=
  readData_backed h.ordered hlen hb out

lemma Backed.sub {len off n : ℕ} (hb : pm.Backed addr len) (hn : off + n ≤ len) :
    pm.Backed (addr + off) n := by
  obtain ⟨b, hmem, hsome, hlow, hhigh⟩ := hb
  exact ⟨b, hmem, hsome, by omega, by omega⟩

/-- The masked loop stores the selected words and changes no other byte. -/
theorem writeMasked_byteAt (h : pm.Layout) (hb : pm.Backed addr (4 * num)) (input : ℕ → ℕ)
    (mask : ℕ → UInt8) {i k : ℕ} (hik : i + k = num) :
    SameFrames pm (writeMasked 4 addr input mask i k pm) ∧
      ∀ x, (writeMasked 4 addr input mask i k pm).byteAt x =
        if addr + 4 * i ≤ x ∧ x < addr + 4 * num ∧ maskBit mask ((x - addr) / 4) = true then
          byteOf (input ((x - addr) / 4)) ((x - addr) % 4) else pm.byteAt x := by
  have hlt := hb.lt h.ordered
  induction k generalizing i pm with
  | zero =>
    refine ⟨.refl pm, fun x => ?_⟩
    rw [if_neg (by omega)]
    rfl
  | succ k ih =>
    rw [writeMasked, u64_of_lt (by omega)]
    by_cases hbit : maskBit mask i = true
    · simp only [hbit, if_true]
      have hword := hb.sub (show i * 4 + 4 ≤ 4 * num by omega)
      have hsame := writeData_sameFrames pm (addr + i * 4) 4 (byteOf (input i))
      obtain ⟨hframes, hbytes⟩ := ih (h.of_sameFrames hsame) (hsame.backed hb) (i := i + 1) (by omega)
      refine ⟨hsame.trans hframes, fun x => ?_⟩
      rw [writeValue, hbytes x, h.writeData (by omega) hword]
      by_cases hx : addr + i * 4 ≤ x ∧ x < addr + i * 4 + 4
      · have hidx : (x - addr) / 4 = i := by omega
        rw [if_neg (by omega), if_pos hx, if_pos ⟨by omega, by omega, hidx ▸ hbit⟩, hidx]
        congr 1
        omega
      · rw [if_neg hx]
        refine if_congr ⟨fun hc => ⟨by omega, hc.2⟩, fun hc => ⟨by omega, hc.2⟩⟩ rfl rfl
    · simp only [hbit, if_false, Bool.false_eq_true]
      obtain ⟨hframes, hbytes⟩ := ih h hb (i := i + 1) (by omega)
      refine ⟨hframes, fun x => ?_⟩
      rw [hbytes x]
      refine if_congr ⟨fun hc => ⟨by omega, hc.2⟩, fun hc => ⟨?_, hc.2⟩⟩ rfl rfl
      by_contra hlow
      have hidx : (x - addr) / 4 = i := by omega
      exact hbit (hidx ▸ hc.2.2)

end PhysicalMemory

/-- The memory after a request; only opcode 0 writes. -/
def storeWords (num : ℕ) (bytes : ℕ → UInt8) (r : Request) : ℕ → UInt8 :=
  if r.opcode = 0 then fun x =>
    if r.address ≤ x ∧ x < r.address + 4 * num ∧ r.mask.testBit ((x - r.address) / 4) = true then
      byteOf (r.data ((x - r.address) / 4)) ((x - r.address) % 4)
    else bytes x
  else bytes

/-- The word at an address. -/
def wordAt (bytes : ℕ → UInt8) (addr : ℕ) : ℕ := littleEndian 4 fun j => bytes (addr + j)

/-- The bytes after some requests. -/
def storeAll (num : ℕ) (rs : List Request) (bytes : ℕ → UInt8) : ℕ → UInt8 :=
  rs.foldl (storeWords num) bytes

lemma storeAll_concat (num : ℕ) (rs : List Request) (r : Request) (bytes : ℕ → UInt8) :
    storeAll num (rs ++ [r]) bytes = storeWords num (storeAll num rs bytes) r := by
  rw [storeAll, List.foldl_append]
  rfl

/-- The inputs of one evaluation. -/
structure Signals where
  clk : ℕ
  request : Request
  valid : ℕ
  ready : ℕ

/-- The inputs are put on the ports. -/
def MemController.present (c : MemController) (i : Signals) : MemController :=
  { c with
    req := ⟨i.request.opcode, i.request.size, i.request.source, i.request.address, i.request.mask,
      c.req.ready, i.valid, i.request.data⟩
    rsp := { c.rsp with ready := i.ready } }

/-- A controller and its memory, with the requests latched so far and those carried out so far
with their replies. -/
structure ControllerState where
  ctl : MemController
  mem : Memory
  latched : List Request
  completed : List (Request × Reply)

namespace ControllerState

/-- The controller and the memory after one evaluation. -/
def evaluated (s : ControllerState) (i : Signals) : MemController × Memory :=
  (s.ctl.present i).eval i.clk s.mem

/-- The reply on the response port. -/
def reply (c : MemController) : Reply := ⟨c.rsp.valid, c.rsp.opcode, c.rsp.size, c.rsp.source, c.rsp.data⟩

/-- A request is latched when the controller enters its response, and completed when it leaves
it. -/
def record (s : ControllerState) (i : Signals) (ctl : MemController) (mem : Memory) :
    ControllerState :=
  ⟨ctl, mem,
    if s.ctl.inRsp = 0 ∧ ctl.inRsp ≠ 0 then s.latched ++ [i.request] else s.latched,
    if s.ctl.inRsp ≠ 0 ∧ ctl.inRsp = 0 then
      s.completed ++ s.latched.getLast?.toList.map fun r => (r, reply ctl)
    else s.completed⟩

def exec (s : ControllerState) (i : Signals) : ControllerState :=
  s.record i (s.evaluated i).1 (s.evaluated i).2

/-- A request that is latched reads or writes words inside one block. -/
def LatchesOk (s : ControllerState) (i : Signals) : Prop :=
  s.ctl.inRsp = 0 → (s.evaluated i).1.inRsp ≠ 0 →
    (i.request.opcode = 0 ∨ i.request.opcode = 4) ∧
      s.mem.pm.Backed i.request.address (4 * s.ctl.num)

end ControllerState

/-- Runs of a controller with `num` words, from its reset on. -/
def controllerSystem (num : ℕ) (mem : Memory) : TransitionSystem ControllerState Signals where
  init s := ∃ c : MemController, c.num = num ∧ c.defaultDelay = 0 ∧ s = ⟨c.reset, mem, [], []⟩
  step s i t := t = s.exec i

/-- Memory is the initial memory with the completed requests applied in the order of their
latching, and every reply is offered and the one its request must get there. -/
structure SequentialMemory (num : ℕ) (mem : Memory) (s : ControllerState) : Prop where
  order : ∃ held, s.latched = s.completed.map Prod.fst ++ held ∧ held.length ≤ 1
  blocks : PhysicalMemory.SameFrames mem.pm s.mem.pm
  bytes : s.mem.pm.byteAt = storeAll num (s.completed.map Prod.fst) mem.pm.byteAt
  replies : ∀ before r a after, s.completed = before ++ (r, a) :: after →
    a.valid = 1 ∧ a.source = r.source ∧ (r.opcode = 4 → ∀ i < num, a.data i =
      wordAt (storeAll num (before.map Prod.fst) mem.pm.byteAt) (r.address + 4 * i))

namespace MemController
variable {c : MemController} {mem : Memory} {num : ℕ}

/-- The registers hold the request. -/
structure Holds (c : MemController) (num : ℕ) (r : Request) : Prop where
  rw : c.rw = r.opcode
  addr : c.addr = r.address
  size : c.size = r.size
  source : c.source = r.source
  mask : c.mask = r.mask
  data : r.opcode = 0 → ∀ i < num, c.data i = r.data i

/-- What one evaluation does to a controller without delay. -/
inductive Evaluated (c : MemController) (mem : Memory) (i : Signals) : MemController → Memory → Prop
  | idle {c' : MemController} (inRsp : c'.inRsp = c.inRsp)
      (held : ∀ num r, c.Holds num r → c'.Holds num r) : Evaluated c mem i c' mem
  | latched {c' : MemController} (before : c.inRsp = 0) (after : c'.inRsp = 1)
      (held : c'.Holds c.num i.request) : Evaluated c mem i c' mem
  | responded (before : c.inRsp ≠ 0) :
      Evaluated c mem i ((c.present i).respond mem).1.drive ((c.present i).respond mem).2

theorem eval_present (mem : Memory) (htime : c.timeRemain = 0) (hdelay : c.defaultDelay = 0) (i : Signals) :
    Evaluated c mem i ((c.present i).eval i.clk mem).1 ((c.present i).eval i.clk mem).2 ∧
      ((c.present i).eval i.clk mem).1.timeRemain = 0 ∧
      ((c.present i).eval i.clk mem).1.defaultDelay = 0 ∧
      ((c.present i).eval i.clk mem).1.num = c.num := by
  have keep : ∀ {c' : MemController}, c'.inRsp = c.inRsp → c'.rw = c.rw → c'.addr = c.addr →
      c'.size = c.size → c'.source = c.source → c'.mask = c.mask → c'.data = c.data →
      Evaluated c mem i c' mem := by
    intro c' h1 h2 h3 h4 h5 h6 h7
    refine .idle h1 fun num r h => ?_
    exact ⟨h2.trans h.rw, h3.trans h.addr, h4.trans h.size, h5.trans h.source, h6.trans h.mask,
      fun h0 j hj => (congrFun h7 j).trans (h.data h0 j hj)⟩
  unfold eval
  split_ifs with hclk hwait hin hrespond hlatch
  · exact ⟨keep rfl rfl rfl rfl rfl rfl rfl, htime, hdelay, rfl⟩
  · exact absurd htime hwait
  · exact ⟨.responded hin, htime, hdelay, rfl⟩
  · exact ⟨keep rfl rfl rfl rfl rfl rfl rfl, htime, hdelay, rfl⟩
  · refine ⟨.latched (not_not.mp hin) rfl ⟨rfl, rfl, rfl, rfl, rfl, fun h0 j hj => ?_⟩, hdelay,
      hdelay, rfl⟩
    have h0' : (c.present i).raise.await.req.opcode = 0 := h0
    have hj' : j < (c.present i).raise.await.num := hj
    simp only [drive, latch, h0', if_true, hj']
    rfl
  · exact ⟨keep rfl rfl rfl rfl rfl rfl rfl, htime, hdelay, rfl⟩

/-- The response to a write stores its words; the response to a read returns the words at its
address. -/
theorem respond_spec (hmem : mem.pm.Layout) (hnum : 0 < num ∧ num < 256) (hc : c.num = num)
    {r : Request} (hholds : c.Holds num r) (hop : r.opcode = 0 ∨ r.opcode = 4)
    (hbacked : mem.pm.Backed r.address (4 * num)) :
    (c.respond mem).1.inRsp = 0 ∧ (c.respond mem).1.rsp.source = r.source ∧
      (r.opcode = 4 → ∀ i < num, (c.respond mem).1.rsp.data i =
        wordAt mem.pm.byteAt (r.address + 4 * i)) ∧
      PhysicalMemory.SameFrames mem.pm (c.respond mem).2.pm ∧
      (c.respond mem).2.pm.byteAt = storeWords num mem.pm.byteAt r := by
  have hrw := hholds.rw
  refine ⟨?_, hholds.source, ?_, ?_⟩
  · have hdone : c.rw = 4 ∨ c.rw = 0 := by rw [hrw]; exact hop.symm
    simp only [respond, hdone, if_true]
  · intro h4 i hi
    have hlen : u64 (num * 4) = 4 * num := by rw [u64_of_lt (by omega), Nat.mul_comm]
    simp only [respond, hrw, h4, if_true, Memory.readPhy, PhysicalMemory.read, hc, hholds.addr, hlen,
      hmem.readData (by omega) hbacked]
    apply littleEndian_congr
    intro j hj
    rw [if_pos (by omega)]
    congr 1
    omega
  · by_cases h0 : r.opcode = 0
    · obtain ⟨hframes, hbytes⟩ := PhysicalMemory.writeMasked_byteAt hmem hbacked c.data
        (byteOf c.mask) (Nat.zero_add num)
      simp only [respond, hrw, h0, if_true, Memory.writePhy, PhysicalMemory.write, hc, hholds.addr]
      refine ⟨hframes, ?_⟩
      funext x
      rw [hbytes x, storeWords, if_pos h0, PhysicalMemory.maskBit_byteOf, hholds.mask]
      refine if_ctx_congr Iff.rfl (fun hx => ?_) fun _ => rfl
      rw [hholds.data h0 _ (by omega)]
    · simp only [respond, hrw, h0, if_false]
      exact ⟨.refl _, by rw [storeWords, if_neg h0]⟩

end MemController

namespace ControllerState
variable {num : ℕ} {mem : Memory} {s : ControllerState}

/-- The registers belong to the last latched request as long as it is not completed. -/
structure History (num : ℕ) (mem : Memory) (s : ControllerState) : Prop where
  num_eq : s.ctl.num = num
  noDelay : s.ctl.timeRemain = 0 ∧ s.ctl.defaultDelay = 0
  sequential : SequentialMemory num mem s
  served : ∀ r ∈ s.latched, (r.opcode = 0 ∨ r.opcode = 4) ∧ mem.pm.Backed r.address (4 * num)
  pending : (s.ctl.inRsp = 0 ∧ s.latched = s.completed.map Prod.fst) ∨
    (s.ctl.inRsp = 1 ∧ ∃ r, s.latched = s.completed.map Prod.fst ++ [r] ∧ s.ctl.Holds num r)

lemma History.of_start {c : MemController} (hc : c.num = num) (hdelay : c.defaultDelay = 0) :
    History num mem ⟨c.reset, mem, [], []⟩ := by
  refine ⟨hc, ⟨rfl, hdelay⟩, ⟨⟨[], rfl, by simp⟩, .refl _, rfl, ?_⟩, by simp, .inl ⟨rfl, rfl⟩⟩
  intro before r a after heq
  simp at heq

/-- The reply to the pending request goes behind the earlier ones. -/
lemma History.respond (h : History num mem s) (hmem : mem.pm.Layout) (hnum : 0 < num ∧ num < 256)
    {i : Signals} (hin : s.ctl.inRsp ≠ 0) :
    History num mem (s.record i ((s.ctl.present i).respond s.mem).1.drive
      ((s.ctl.present i).respond s.mem).2) := by
  obtain ⟨hidle, -⟩ | ⟨-, r, hlatched, hholds⟩ := h.pending
  · exact absurd hidle hin
  obtain ⟨hop, hbacked⟩ := h.served r (by rw [hlatched]; simp)
  have hholds' : (s.ctl.present i).Holds num r := ⟨hholds.rw, hholds.addr, hholds.size,
    hholds.source, hholds.mask, hholds.data⟩
  obtain ⟨hdone, hsource, hdata, hframes, hbytes⟩ := MemController.respond_spec
    (c := s.ctl.present i) (hmem.of_sameFrames h.sequential.blocks) hnum h.num_eq hholds' hop
    (h.sequential.blocks.backed hbacked)
  have hlast : s.latched.getLast? = some r := by rw [hlatched, List.getLast?_concat]
  have hsame : s.record i ((s.ctl.present i).respond s.mem).1.drive
      ((s.ctl.present i).respond s.mem).2 =
      ⟨((s.ctl.present i).respond s.mem).1.drive, ((s.ctl.present i).respond s.mem).2, s.latched,
        s.completed ++ [(r, reply ((s.ctl.present i).respond s.mem).1.drive)]⟩ := by
    have hdone' : ((s.ctl.present i).respond s.mem).1.drive.inRsp = 0 := hdone
    rw [ControllerState.record, if_neg fun hc => hc.2 hdone', if_pos ⟨hin, hdone'⟩, hlast]
    rfl
  rw [hsame]
  refine ⟨h.num_eq, h.noDelay, ⟨⟨[], by simp [hlatched], by simp⟩, ?_, ?_, ?_⟩, h.served,
    .inl ⟨hdone, by simp [hlatched]⟩⟩
  · exact h.sequential.blocks.trans hframes
  · rw [hbytes, h.sequential.bytes, List.map_append, ← storeAll_concat]
    rfl
  · intro before r' a after heq
    rcases List.eq_nil_or_concat after with rfl | ⟨after', last, rfl⟩
    · obtain ⟨rfl, hlast'⟩ := List.append_inj' heq rfl
      obtain ⟨rfl, rfl⟩ := Prod.mk.inj (List.cons.inj hlast').1
      refine ⟨rfl, hsource, fun h4 j hj => ?_⟩
      rw [← h.sequential.bytes]
      exact hdata h4 j hj
    · have hinit : s.completed = before ++ (r', a) :: after' := by
        have heq' : s.completed ++ [(r, reply ((s.ctl.present i).respond s.mem).1.drive)] =
            (before ++ (r', a) :: after') ++ [last] := heq.trans (by simp)
        exact (List.append_inj' heq' rfl).1
      exact h.sequential.replies before r' a after' hinit

theorem History.record (h : History num mem s) (hmem : mem.pm.Layout) (hnum : 0 < num ∧ num < 256)
    {i : Signals} {ctl : MemController} {m : Memory}
    (heval : s.ctl.Evaluated s.mem i ctl m) (hn : ctl.num = s.ctl.num)
    (hdelay : ctl.timeRemain = 0 ∧ ctl.defaultDelay = 0)
    (hok : s.ctl.inRsp = 0 → ctl.inRsp ≠ 0 → (i.request.opcode = 0 ∨ i.request.opcode = 4) ∧
      s.mem.pm.Backed i.request.address (4 * s.ctl.num)) : History num mem (s.record i ctl m) := by
  cases heval with
  | idle hin held =>
    have hsame : s.record i ctl s.mem = ⟨ctl, s.mem, s.latched, s.completed⟩ := by
      simp only [ControllerState.record, hin]
      rw [if_neg fun hc => hc.2 hc.1, if_neg fun hc => hc.1 hc.2]
    rw [hsame]
    refine ⟨hn.trans h.num_eq, hdelay, ⟨h.sequential.order, h.sequential.blocks,
      h.sequential.bytes, h.sequential.replies⟩, h.served, ?_⟩
    rcases h.pending with ⟨hidle, hlatched⟩ | ⟨hbusy, r, hlatched, hholds⟩
    · exact .inl ⟨hin.trans hidle, hlatched⟩
    · exact .inr ⟨hin.trans hbusy, r, hlatched, held num r hholds⟩
  | latched hidle hbusy held =>
    obtain ⟨hop, hbacked⟩ := hok hidle (by omega)
    have hsame : s.record i ctl s.mem = ⟨ctl, s.mem, s.latched ++ [i.request], s.completed⟩ := by
      simp only [ControllerState.record, hidle, hbusy]
      rfl
    rw [hsame]
    have hlatched : s.latched = s.completed.map Prod.fst := by
      rcases h.pending with ⟨-, hlatched⟩ | ⟨hbusy', -⟩
      · exact hlatched
      · omega
    refine ⟨hn.trans h.num_eq, hdelay, ⟨⟨[i.request], by rw [hlatched], by simp⟩,
      h.sequential.blocks, h.sequential.bytes, h.sequential.replies⟩, ?_, .inr ⟨hbusy, i.request, ?_, ?_⟩⟩
    · intro r hr
      cases List.mem_append.mp hr with
      | inl hr =>
        exact h.served r hr
      | inr hr =>
        rw [List.mem_singleton.mp hr]
        rw [h.num_eq] at hbacked
        exact ⟨hop, h.sequential.blocks.symm.backed hbacked⟩
    · rw [hlatched]
    · rw [← h.num_eq]
      exact held
  | responded hin => exact h.respond hmem hnum hin

theorem History.exec (h : History num mem s) (hmem : mem.pm.Layout) (hnum : 0 < num ∧ num < 256)
    {i : Signals} (hok : s.LatchesOk i) : History num mem (s.exec i) := by
  obtain ⟨htime, hdelay⟩ := h.noDelay
  obtain ⟨heval, htime', hdelay', hn⟩ := MemController.eval_present s.mem htime hdelay i
  exact h.record hmem hnum heval hn ⟨htime', hdelay'⟩ hok

/-- In every run the controller carries out the latched requests one after the other. -/
theorem sequential_memory {num : ℕ} {mem : Memory} {s : ControllerState} (hnum : num = 1 ∨ num = 2)
    (hmem : mem.pm.Layout) (h : (controllerSystem num mem).ReachableBy LatchesOk s) :
    SequentialMemory num mem s := by
  have hnum' : 0 < num ∧ num < 256 := by omega
  have hhistory : History num mem s := by
    apply h.invariant
    · rintro s ⟨c, hc, hdelay, rfl⟩
      exact .of_start hc hdelay
    · rintro s i t hs hok rfl
      exact hs.exec hmem hnum' hok
  exact hhistory.sequential

/-- A memory with one page in use. -/
def onePage : Memory :=
  ⟨⟨0x20001000, [PhysicalMemory.reserved, ⟨0x20000000, 4096, some fun _ => 0⟩,
    PhysicalMemory.sentinel 0x20001000], some 1⟩⟩

lemma onePage_layout : onePage.pm.Layout := by
  refine PhysicalMemory.WellFormed.layout ⟨by decide, by decide, by decide,
    ⟨[⟨0x20000000, 4096, some fun _ => 0⟩], rfl, ?_⟩, ?_, ⟨1, rfl, by decide⟩⟩
  · intro b hb
    obtain rfl := List.mem_singleton.mp hb
    exact ⟨rfl, le_rfl, le_rfl, by decide, by decide⟩
  · have hpair : onePage.pm.blocks.Pairwise fun b c => b.limit ≤ c.addr := by
      simp [onePage, Block.limit, PhysicalMemory.reserved, PhysicalMemory.sentinel]
    exact hpair

instance (s : ControllerState) (i : Signals) : Decidable (s.LatchesOk i) :=
  inferInstanceAs (Decidable (_ → _ → _ ∧ ∃ b ∈ s.mem.pm.blocks, _))

/-- A write of one of two words, and a read of both. -/
theorem sequential_memory_writeRead : ∃ s : ControllerState,
    s.completed.map (fun q => (q.1.opcode, q.2.valid, q.2.source, q.2.data 0, q.2.data 1)) =
      [(0, 1, 7, 0, 0), (4, 1, 9, 0, 0xABCD)] ∧ SequentialMemory 2 onePage s := by
  let start := MemController.zeroed 2
  let store : Request := ⟨0, 0, 7, 0x20000000, 2, fun i => if i = 0 then 5 else 0xABCD⟩
  let load : Request := ⟨4, 0, 9, 0x20000000, 0, fun _ => 0⟩
  let signals : List Signals := [⟨0, store, 1, 0⟩, ⟨0, store, 1, 0⟩, ⟨1, store, 0, 1⟩, ⟨0, load, 1, 1⟩,
    ⟨0, load, 1, 0⟩, ⟨0, load, 0, 1⟩]
  have hrun : ((TransitionSystem.follow LatchesOk (fun s i => some (s.exec i)) signals
      ⟨start.reset, onePage, [], []⟩).map fun s =>
        s.completed.map fun q => (q.1.opcode, q.2.valid, q.2.source, q.2.data 0, q.2.data 1)) =
      some [(0, 1, 7, 0, 0), (4, 1, 9, 0, 0xABCD)] := by decide +kernel
  obtain ⟨s, hs, hcompleted⟩ := Option.map_eq_some_iff.mp hrun
  have hreach : (controllerSystem 2 onePage).ReachableBy LatchesOk s := by
    have hstart : (controllerSystem 2 onePage).init ⟨start.reset, onePage, [], []⟩ :=
      ⟨start, rfl, rfl, rfl⟩
    exact (TransitionSystem.ReachableBy.start hstart).follow
      (fun s i t hst => (Option.some.inj hst).symm) hs
  exact ⟨s, hcompleted, sequential_memory (.inr rfl) onePage_layout hreach⟩

end ControllerState
end VentusDriver
