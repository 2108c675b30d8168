import VentusDriver.Foundation.Transition
import VentusDriver.Device.Processor

/-! The valid/ready ports between the device and the memory controller. The controller raises
`ready` also while it holds a request, and offers a response for one cycle only, so requests are
conserved exactly as long as the device avoids both. -/
namespace VentusDriver
open Foundation

/-- The request fields of the port. -/
def DeviceOut.request (out : DeviceOut) : ℕ × ℕ × ℕ × ℕ × (ℕ → ℕ) :=
  (out.aOpcode, out.aSource, out.aAddress, out.aMask, out.aData)

/-- The processor and the controller, the request that the device still waits to see accepted, and
the sources of the requests it saw accepted and of the responses it took. -/
structure PortState where
  proc : Processor
  ctl : MemController
  waiting : Option (ℕ × ℕ × ℕ × ℕ × (ℕ → ℕ))
  accepted : List ℕ
  answered : List ℕ

namespace PortState

def exec (s : PortState) (out : DeviceOut) : PortState :=
  let r := s.proc.cycle s.ctl out
  ⟨r.1, r.2.1,
    if out.aValid ≠ 0 ∧ r.2.2.aReady = 0 then some out.request else none,
    if out.aValid ≠ 0 ∧ r.2.2.aReady ≠ 0 then s.accepted ++ [out.aSource] else s.accepted,
    if r.2.2.dValid ≠ 0 ∧ out.dReady ≠ 0 then s.answered ++ [r.2.2.dSource] else s.answered⟩

/-- The device keeps a request until it has seen it accepted. -/
def Keeps (s : PortState) (out : DeviceOut) : Prop :=
  ∀ r, s.waiting = some r → out.aValid ≠ 0 ∧ out.request = r

/-- The response that the device has not taken yet. -/
def offered (s : PortState) : List ℕ := if s.ctl.rsp.valid ≠ 0 then [s.ctl.rsp.source] else []

/-- The request in the registers. -/
def latched (s : PortState) : List ℕ := if s.ctl.inRsp ≠ 0 then [s.ctl.source] else []

/-- Every request that was accepted is answered, once and in order, or still held. -/
def NothingLost (s : PortState) : Prop := s.accepted = s.answered ++ (s.offered ++ s.latched)

/-- No request is presented while one is latched, and a response is taken when it is offered. -/
def Patient (s : PortState) (out : DeviceOut) : Prop :=
  (out.aValid ≠ 0 → s.ctl.inRsp = 0) ∧ (s.ctl.rsp.valid ≠ 0 → out.dReady ≠ 0)

/-- A request that is accepted is a read or a write. -/
def Supported (s : PortState) (out : DeviceOut) : Prop :=
  out.aValid ≠ 0 → s.ctl.req.ready ≠ 0 → out.aOpcode = 0 ∨ out.aOpcode = 4

def WellBehaved (s : PortState) (out : DeviceOut) : Prop := s.Patient out ∧ s.Supported out

end PortState

/-- Runs from the reset of a controller on. -/
def portSystem (proc : Processor) : TransitionSystem PortState DeviceOut where
  init s := ∃ c : MemController, c.defaultDelay = 0 ∧ s = ⟨proc, c.reset, none, [], []⟩
  step s out t := s.Keeps out ∧ t = s.exec out

namespace PortState
variable {proc : Processor} {s : PortState} {out : DeviceOut}

/-- The controller at the end of a cycle. The shadow registers agree with the ports; while a request
is latched no response is offered. -/
structure Settled (c : MemController) : Prop where
  noDelay : c.timeRemain = 0 ∧ c.defaultDelay = 0
  shadow : c.rspValid = c.rsp.valid ∧ c.reqReady = c.req.ready
  busy : c.inRsp ≠ 0 → c.rsp.valid = 0 ∧ c.req.ready ≠ 0 ∧ (c.rw = 0 ∨ c.rw = 4)

/-- What a cycle does to the ports and the latch. -/
inductive Cycled (c : MemController) (out : DeviceOut) (c' : MemController) : Prop
  | latched (idle : c.inRsp = 0) (taken : out.aValid ≠ 0 ∧ c.req.ready ≠ 0) (busy : c'.inRsp ≠ 0)
      (source : c'.source = out.aSource) (rw : c'.rw = out.aOpcode) (valid : c'.rsp.valid = 0)
      (ready : c'.req.ready ≠ 0)
  | waited (idle : c.inRsp = 0) (refused : ¬ (out.aValid ≠ 0 ∧ c.req.ready ≠ 0))
      (idle' : c'.inRsp = 0) (valid : c'.rsp.valid = 0)
  | responded (busy : c.inRsp ≠ 0) (taken : out.dReady ≠ 0) (idle : c'.inRsp = 0)
      (source : c'.rsp.source = c.source) (valid : c'.rsp.valid ≠ 0)
  | held (busy : c.inRsp ≠ 0) (refused : out.dReady = 0) (busy' : c'.inRsp ≠ 0)
      (source : c'.source = c.source) (rw : c'.rw = c.rw) (valid : c'.rsp.valid = c.rsp.valid)
      (ready : c'.req.ready = c.req.ready)

lemma cycle_ctl (p : Processor) (c : MemController) (out : DeviceOut) :
    (p.cycle c out).2.1 = ((p.getRamBitsPort c out).1.eval 0 p.ram).1.sample := rfl

theorem cycle_cycled (h : Settled s.ctl) (out : DeviceOut) :
    Cycled s.ctl out (s.proc.cycle s.ctl out).2.1 ∧
      (s.proc.cycle s.ctl out).2.1.timeRemain = 0 ∧
      (s.proc.cycle s.ctl out).2.1.defaultDelay = 0 := by
  obtain ⟨⟨htime, hdelay⟩, ⟨hvalid, hready⟩, hbusy⟩ := h
  have hnowait : ¬ (s.proc.getRamBitsPort s.ctl out).1.timeRemain ≠ 0 := not_not.mpr htime
  rw [cycle_ctl, MemController.eval, if_neg (by simp), if_neg hnowait]
  split_ifs with hin hrespond hlatch
  · obtain ⟨-, -, hrw⟩ := hbusy hin
    have hdone : s.ctl.rw = 4 ∨ s.ctl.rw = 0 := hrw.symm
    refine ⟨.responded hin hrespond.1 ?_ rfl (by simp [MemController.sample, MemController.drive,
      MemController.respond]), htime, hdelay⟩
    exact if_pos hdone
  · have hrefused : out.dReady = 0 := by
      by_contra hne
      exact hrespond ⟨hne, one_ne_zero⟩
    exact ⟨.held hin hrefused hin rfl rfl hvalid hready, htime, hdelay⟩
  · exact ⟨.latched (not_not.mp hin) hlatch one_ne_zero rfl rfl rfl one_ne_zero, hdelay, hdelay⟩
  · exact ⟨.waited (not_not.mp hin) hlatch (not_not.mp hin) rfl, htime, hdelay⟩

/-- After a cycle in which only reads and writes were accepted the controller is settled again. -/
theorem settled_exec (h : Settled s.ctl) (hsupp : s.Supported out) : Settled (s.exec out).ctl := by
  obtain ⟨hcycle, htime, hdelay⟩ := cycle_cycled h out
  refine ⟨⟨htime, hdelay⟩, ⟨rfl, rfl⟩, fun hbusy => ?_⟩
  cases hcycle with
  | latched idle taken busy source rw valid ready =>
    have hrw : (s.exec out).ctl.rw = out.aOpcode := rw
    rw [hrw]
    exact ⟨valid, ready, hsupp taken.1 taken.2⟩
  | waited idle refused idle' valid => exact absurd idle' hbusy
  | responded busy taken idle source valid => exact absurd idle hbusy
  | held busy refused busy' source rw valid ready =>
    obtain ⟨h1, h2, h3⟩ := h.busy busy
    have hrw : (s.exec out).ctl.rw = s.ctl.rw := rw
    rw [hrw]
    exact ⟨valid.trans h1, fun hz => h2 (ready.symm.trans hz), h3⟩

/-- In one cycle nothing is lost exactly when the device is patient. -/
theorem nothingLost_exec_iff (h : Settled s.ctl) (hlost : s.NothingLost) :
    (s.exec out).NothingLost ↔ s.Patient out := by
  obtain ⟨hcycle, -, -⟩ := cycle_cycled h out
  have haccepted : (s.exec out).accepted =
      if out.aValid ≠ 0 ∧ s.ctl.req.ready ≠ 0 then s.accepted ++ [out.aSource] else s.accepted := rfl
  have hanswered : (s.exec out).answered = if s.ctl.rsp.valid ≠ 0 ∧ out.dReady ≠ 0 then
      s.answered ++ [s.ctl.rsp.source] else s.answered := rfl
  have hctl : (s.exec out).ctl = (s.proc.cycle s.ctl out).2.1 := rfl
  rw [NothingLost] at hlost ⊢
  rw [haccepted, hanswered, hlost]
  simp only [offered, latched, Patient, hctl]
  cases hcycle with
  | latched idle taken busy source rw valid ready =>
    by_cases hv : s.ctl.rsp.valid = 0
    · simp [idle, taken, busy, source, valid, hv]
    · by_cases hd : out.dReady = 0
      · simp [idle, taken, busy, source, valid, hv, hd]
      · simp [idle, taken, busy, source, valid, hv, hd]
  | waited idle refused idle' valid =>
    by_cases hv : s.ctl.rsp.valid = 0
    · simp [idle, refused, idle', valid, hv]
    · by_cases hd : out.dReady = 0
      · simp [idle, refused, idle', valid, hv, hd]
      · simp [idle, refused, idle', valid, hv, hd]
  | responded busy taken idle source valid =>
    obtain ⟨hv, hready, -⟩ := h.busy busy
    by_cases ha : out.aValid = 0
    · simp [busy, idle, source, valid, hv, ha]
    · simp [busy, idle, source, valid, hv, hready, ha]
  | held busy refused busy' source rw valid ready =>
    obtain ⟨hv, hready, -⟩ := h.busy busy
    by_cases ha : out.aValid = 0
    · simp [busy, busy', source, valid, hv, ha]
    · simp [busy, busy', source, valid, hv, hready, ha]

/-- While the device is patient and asks for reads and writes only, no request or response is
lost; the first cycle in which it is not patient loses one. -/
theorem nothing_lost_while_patient (h : (portSystem proc).ReachableBy WellBehaved s) :
    s.NothingLost ∧ ∀ out, ¬ s.Patient out → ¬ (s.exec out).NothingLost := by
  have hinv : Settled s.ctl ∧ s.NothingLost := by
    refine h.invariant (I := fun s => Settled s.ctl ∧ s.NothingLost) ?_ ?_
    · rintro s ⟨c, hdelay, rfl⟩
      exact ⟨⟨⟨rfl, hdelay⟩, ⟨rfl, rfl⟩, fun hbusy => absurd rfl hbusy⟩, rfl⟩
    · rintro s out t ⟨hsettled, hlost⟩ ⟨hpatient, hsupp⟩ ⟨-, rfl⟩
      exact ⟨settled_exec hsettled hsupp, (nothingLost_exec_iff hsettled hlost).mpr hpatient⟩
  exact ⟨hinv.2, fun out hnot hlost => hnot ((nothingLost_exec_iff hinv.1 hinv.2).mp hlost)⟩

/-! ### Runs on concrete inputs -/

instance (s : PortState) : Decidable s.NothingLost := inferInstanceAs (Decidable (_ = _))

instance (s : PortState) (out : DeviceOut) : Decidable (s.WellBehaved out) :=
  inferInstanceAs (Decidable (((_ → _) ∧ (_ → _)) ∧ (_ → _ → _)))

/-- The device reads from address 0, under the given source. -/
def readFrom (source valid ready : ℕ) : DeviceOut := ⟨4, source, 0, 0, fun _ => 0, valid, ready⟩

def portStart : PortState := ⟨Processor.new, (MemController.zeroed numThread).reset, none, [], []⟩

lemma portStart_init : (portSystem Processor.new).init portStart := ⟨.zeroed numThread, rfl, rfl⟩

/-- A request is kept, accepted and answered. -/
theorem nothing_lost_while_patient_oneRead : ∃ s : PortState, s.accepted = [5] ∧ s.answered = [5] ∧
    s.NothingLost := by
  let s₁ := portStart.exec (readFrom 5 1 0)
  let s₂ := s₁.exec (readFrom 5 1 0)
  let s₃ := s₂.exec (readFrom 5 0 1)
  let s₄ := s₃.exec (readFrom 5 0 1)
  have h₁ : (portSystem Processor.new).ReachableBy WellBehaved s₁ :=
    (TransitionSystem.ReachableBy.start portStart_init).next (l := readFrom 5 1 0)
      (by decide +kernel) ⟨by rintro r ⟨⟩, rfl⟩
  have h₂ : (portSystem Processor.new).ReachableBy WellBehaved s₂ :=
    h₁.next (l := readFrom 5 1 0) (by decide +kernel)
      ⟨by rintro r ⟨⟩; exact ⟨by decide, rfl⟩, rfl⟩
  have h₃ : (portSystem Processor.new).ReachableBy WellBehaved s₃ :=
    h₂.next (l := readFrom 5 0 1) (by decide +kernel) ⟨by rintro r ⟨⟩, rfl⟩
  have h₄ : (portSystem Processor.new).ReachableBy WellBehaved s₄ :=
    h₃.next (l := readFrom 5 0 1) (by decide +kernel) ⟨by rintro r ⟨⟩, rfl⟩
  exact ⟨s₄, by decide +kernel, by decide +kernel, (nothing_lost_while_patient h₄).1⟩

/-- Of two reads, one right behind the other, the device sees both accepted; the second is lost. -/
theorem second_read_lost : ∃ s : PortState, (portSystem Processor.new).Reachable s ∧
    s.accepted = [5, 6] ∧ ¬ s.NothingLost := by
  let s₁ := portStart.exec (readFrom 5 1 0)
  let s₂ := s₁.exec (readFrom 5 1 0)
  let s₃ := s₂.exec (readFrom 6 1 0)
  have h₁ : (portSystem Processor.new).Reachable s₁ :=
    (TransitionSystem.ReachableBy.start portStart_init).next (l := readFrom 5 1 0) trivial
      ⟨by rintro r ⟨⟩, rfl⟩
  have h₂ : (portSystem Processor.new).Reachable s₂ :=
    h₁.next (l := readFrom 5 1 0) trivial ⟨by rintro r ⟨⟩; exact ⟨by decide, rfl⟩, rfl⟩
  have h₃ : (portSystem Processor.new).Reachable s₃ :=
    h₂.next (l := readFrom 6 1 0) trivial ⟨by rintro r ⟨⟩, rfl⟩
  exact ⟨s₃, h₃, by decide +kernel, by decide +kernel⟩

end PortState
end VentusDriver
