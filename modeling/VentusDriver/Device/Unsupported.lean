import VentusDriver.Device.WordStore

/-! Requests that are neither a read nor a write. The response to one clears the opcode but leaves
the controller in its response, so it responds again, and then as to a write of whatever words the
last write has left. -/
namespace VentusDriver
open Foundation

namespace ControllerState
variable {s : ControllerState} {num : ℕ} {mem : Memory} {i : Signals}

/-- The evaluation gives a response. -/
def Answers (s : ControllerState) (i : Signals) : Prop :=
  i.clk = 0 ∧ s.ctl.timeRemain = 0 ∧ s.ctl.inRsp ≠ 0 ∧ i.ready ≠ 0

instance (s : ControllerState) (i : Signals) : Decidable (s.Answers i) :=
  inferInstanceAs (Decidable (_ ∧ _))

/-- The number of responses during some evaluations. -/
def answers (s : ControllerState) : List Signals → ℕ
  | [] => 0
  | i :: is => (if s.Answers i then 1 else 0) + (s.exec i).answers is

/-- The evaluation latches the request at the port. -/
def Latches (s : ControllerState) (i : Signals) : Prop := s.ctl.inRsp = 0 ∧ (s.exec i).ctl.inRsp ≠ 0

/-- Since the state in which a request was just latched there was no second response; memory is as
it was, and the controller is idle and ready. -/
structure Inert (s : ControllerState) (is : List Signals) : Prop where
  memory : (is.foldl exec s).mem = s.mem
  answered : s.answers is ≤ 1
  idle : (is.foldl exec s).ctl.inRsp = 0
  ready : (is.foldl exec s).ctl.req.ready ≠ 0

/-- Between two evaluations of a controller without delay. -/
def NoDelay (s : ControllerState) : Prop := s.ctl.timeRemain = 0 ∧ s.ctl.defaultDelay = 0

lemma NoDelay.exec (h : s.NoDelay) (i : Signals) : (s.exec i).NoDelay := by
  obtain ⟨-, htime, hdelay, -⟩ := MemController.eval_present s.mem h.1 h.2 i
  exact ⟨htime, hdelay⟩

lemma noDelay_of_reachable (h : (controllerSystem num mem).Reachable s) : s.NoDelay := by
  apply h.invariant
  · rintro s ⟨c, -, hdelay, rfl⟩
    exact ⟨rfl, hdelay⟩
  · rintro s i t hs - rfl
    exact hs.exec i

/-- What an evaluation in the middle of a response does: it responds, or waits. -/
lemma exec_busy (h : s.NoDelay) (hbusy : s.ctl.inRsp ≠ 0) (i : Signals) :
    (s.Answers i ∧ (s.exec i).ctl = ((s.ctl.present i).respond s.mem).1.drive ∧
      (s.exec i).mem = ((s.ctl.present i).respond s.mem).2) ∨
    (¬ s.Answers i ∧ (s.exec i).ctl.inRsp = s.ctl.inRsp ∧ (s.exec i).ctl.rw = s.ctl.rw ∧
      (s.exec i).mem = s.mem) := by
  have hctl : (s.exec i).ctl = ((s.ctl.present i).eval i.clk s.mem).1 := rfl
  have hmem : (s.exec i).mem = ((s.ctl.present i).eval i.clk s.mem).2 := rfl
  rw [hctl, hmem, MemController.eval]
  split_ifs with hclk hwait hin hrespond
  · exact .inr ⟨fun ha => hclk ha.1, rfl, rfl, rfl⟩
  · exact absurd h.1 hwait
  · exact .inl ⟨⟨not_not.mp hclk, h.1, hbusy, hrespond.1⟩, rfl, rfl⟩
  · exact .inr ⟨fun ha => hrespond ⟨ha.2.2.2, one_ne_zero⟩, rfl, rfl, rfl⟩
  · exact absurd hbusy hin
  · exact absurd hbusy hin

lemma exec_waits (h : s.NoDelay) (hbusy : s.ctl.inRsp ≠ 0) (hwaits : ¬ s.Answers i) :
    (s.exec i).ctl.inRsp ≠ 0 ∧ (s.exec i).ctl.rw = s.ctl.rw ∧ (s.exec i).mem = s.mem := by
  cases exec_busy h hbusy i with
  | inl hanswers => exact absurd hanswers.1 hwaits
  | inr hsame =>
    obtain ⟨-, hin, hrw, hmem⟩ := hsame
    exact ⟨by rwa [hin], hrw, hmem⟩

/-- The response to an unsupported request leaves the controller busy. -/
lemma exec_answers (h : s.NoDelay) (hop : s.ctl.rw ≠ 0 ∧ s.ctl.rw ≠ 4) (hanswers : s.Answers i) :
    (s.exec i).ctl.inRsp ≠ 0 ∧ (s.exec i).ctl.rw = 0 ∧ (s.exec i).mem = s.mem := by
  have hbusy := hanswers.2.2.1
  have hop' : ¬ (s.ctl.rw = 4 ∨ s.ctl.rw = 0) := not_or.mpr ⟨hop.2, hop.1⟩
  cases exec_busy h hbusy i with
  | inl hresponds =>
    obtain ⟨-, hctl, hmem⟩ := hresponds
    have hin : ((s.ctl.present i).respond s.mem).1.drive.inRsp = s.ctl.inRsp := if_neg hop'
    have hkept : ((s.ctl.present i).respond s.mem).2 = s.mem := if_neg hop.1
    rw [hctl, hmem]
    exact ⟨by rwa [hin], rfl, hkept⟩
  | inr hwaits => exact absurd hanswers hwaits.1

/-- A second response to an unsupported request stores the words that the last write has left, at
the address and under the mask of the request. -/
theorem second_response (h : s.NoDelay) (hrw : s.ctl.rw = 0) (hanswers : s.Answers i) :
    (s.exec i).mem =
        (s.mem.writePhy 4 s.ctl.addr s.ctl.num s.ctl.data (some (byteOf s.ctl.mask))).2 ∧
      (s.exec i).ctl.inRsp = 0 := by
  cases exec_busy h hanswers.2.2.1 i with
  | inl hresponds =>
    obtain ⟨-, hctl, hmem⟩ := hresponds
    rw [hctl, hmem]
    exact ⟨if_pos hrw, if_pos (.inr hrw)⟩
  | inr hwaits => exact absurd hanswers hwaits.1

/-- Without a response a busy controller stays busy. -/
lemma busy_of_no_answer (h : s.NoDelay) (hbusy : s.ctl.inRsp ≠ 0) {is : List Signals}
    (hnone : s.answers is = 0) : (is.foldl exec s).ctl.inRsp ≠ 0 := by
  induction is generalizing s with
  | nil => exact hbusy
  | cons i is ih =>
    rw [answers] at hnone
    by_cases hanswers : s.Answers i
    · rw [if_pos hanswers] at hnone
      omega
    · rw [if_neg hanswers, Nat.zero_add] at hnone
      exact ih (h.exec i) (exec_waits h hbusy hanswers).1 hnone

/-- After one response to an unsupported request the controller is still busy. -/
lemma busy_of_one_answer (h : s.NoDelay) (hbusy : s.ctl.inRsp ≠ 0)
    (hop : s.ctl.rw ≠ 0 ∧ s.ctl.rw ≠ 4) {is : List Signals} (hone : s.answers is = 1) :
    (is.foldl exec s).ctl.inRsp ≠ 0 := by
  induction is generalizing s with
  | nil => cases hone
  | cons i is ih =>
    rw [answers] at hone
    by_cases hanswers : s.Answers i
    · rw [if_pos hanswers] at hone
      exact busy_of_no_answer (h.exec i) (exec_answers h hop hanswers).1 (by omega)
    · rw [if_neg hanswers, Nat.zero_add] at hone
      obtain ⟨hbusy', hrw, -⟩ := exec_waits h hbusy hanswers
      exact ih (h.exec i) hbusy' (by rwa [hrw]) hone

lemma Latches.opcode (h : s.NoDelay) (hlatches : s.Latches i) : (s.exec i).ctl.rw = i.request.opcode := by
  have heval := (MemController.eval_present s.mem h.1 h.2 i).1
  have hin : ((s.ctl.present i).eval i.clk s.mem).1.inRsp ≠ 0 := hlatches.2
  change ((s.ctl.present i).eval i.clk s.mem).1.rw = i.request.opcode
  generalize ((s.ctl.present i).eval i.clk s.mem).1 = c, ((s.ctl.present i).eval i.clk s.mem).2 = m
    at heval hin ⊢
  cases heval with
  | idle inRsp held => exact absurd (inRsp.trans hlatches.1) hin
  | latched before after held => exact held.rw
  | responded before => exact absurd hlatches.1 before

/-- No run has an unsupported request that got its response without a trace. -/
theorem unsupported_never_inert {num : ℕ} {mem : Memory} {s : ControllerState} {i : Signals}
    (h : (controllerSystem num mem).Reachable s) (hlatches : s.Latches i)
    (hop : i.request.opcode ≠ 0 ∧ i.request.opcode ≠ 4) (is : List Signals)
    (hanswered : 0 < (s.exec i).answers is) : ¬ (s.exec i).Inert is := by
  intro hinert
  have hdelay := noDelay_of_reachable h
  have hrw := hlatches.opcode hdelay
  have hone : (s.exec i).answers is = 1 := le_antisymm hinert.answered hanswered
  exact busy_of_one_answer (hdelay.exec i) hlatches.2 (by rwa [hrw]) hone hinert.idle

/-! ### A run on concrete inputs -/

/-- A controller after its reset. -/
def resetState : ControllerState := ⟨(MemController.zeroed 2).reset, onePage, [], []⟩

/-- The device asks with opcode 2, and takes a response or not. -/
def unsupportedSignals (ready : ℕ) : Signals := ⟨0, ⟨2, 0, 7, 0x20000000, 3, fun _ => 0⟩, 1, ready⟩

/-- The controller after one evaluation, in which it has become ready. -/
def readyState : ControllerState := resetState.exec (unsupportedSignals 0)

lemma readyState_reachable : (controllerSystem 2 onePage).Reachable readyState := by
  have hstart : (controllerSystem 2 onePage).init resetState := ⟨.zeroed 2, rfl, rfl, rfl⟩
  exact (TransitionSystem.ReachableBy.start hstart).next (l := unsupportedSignals 0) trivial rfl

theorem unsupported_never_inert_opcodeTwo :
    0 < (readyState.exec (unsupportedSignals 0)).answers [unsupportedSignals 1] ∧
      ¬ (readyState.exec (unsupportedSignals 0)).Inert [unsupportedSignals 1] := by
  have hanswered : 0 < (readyState.exec (unsupportedSignals 0)).answers [unsupportedSignals 1] := by
    decide +kernel
  exact ⟨hanswered, unsupported_never_inert readyState_reachable ⟨by decide +kernel, by decide +kernel⟩
    (by decide) [unsupportedSignals 1] hanswered⟩

/-- A request with opcode 2 got its response, and the controller is not idle. -/
theorem unsupported_not_idle : ¬ ∀ (num : ℕ) (mem : Memory) (s : ControllerState) (i : Signals)
    (is : List Signals), (controllerSystem num mem).Reachable s → s.Latches i →
      i.request.opcode ≠ 0 ∧ i.request.opcode ≠ 4 → (s.exec i).answers is = 1 →
      (s.exec i).Inert is := by
  intro h
  have hinert := h 2 onePage readyState (unsupportedSignals 0) [unsupportedSignals 1]
    readyState_reachable ⟨by decide +kernel, by decide +kernel⟩ (by decide) (by decide +kernel)
  have hidle := hinert.idle
  revert hidle
  decide +kernel

end ControllerState
end VentusDriver
