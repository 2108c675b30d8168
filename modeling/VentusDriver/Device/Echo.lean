import VentusDriver.Foundation.Transition
import VentusDriver.Device.Processor

/-! What a response says about its request. The port copies and the evaluations of the controller
come in any order. The port puts the opcode of a request where its size should go, so the size comes
back only where the two agree. -/
namespace VentusDriver
open Foundation

/-- The fields of a request that the device drives and a response should carry. -/
structure Driven where
  opcode : ℕ
  size : ℕ
  source : ℕ
  deriving DecidableEq, Repr

/-- A response that was offered to the device, with the request that the controller held for it. -/
structure Offered where
  request : Driven
  opcode : ℕ
  size : ℕ
  source : ℕ
  deriving DecidableEq, Repr

/-- A read or a write. -/
def Driven.Supported (d : Driven) : Prop := d.opcode = 0 ∨ d.opcode = 4

/-- The response carries size and source of its request, and the opcode that answers it. -/
def Offered.Echoes (o : Offered) : Prop :=
  o.size = o.request.size ∧ o.source = o.request.source ∧
    o.opcode = if o.request.opcode = 4 then 1 else 0

/-- The controller, what the device drives at the port since its last copy, what it drove for the
request that was latched last, and the responses that the device was offered. -/
structure EchoState where
  ctl : MemController
  driven : Option Driven
  latched : Option Driven
  offered : List Offered

/-- A copy of the ports at a high clock, while the device drives its signals and a size, or an
evaluation of the controller. -/
inductive EchoStep
  | port (p : Processor) (out : DeviceOut) (aSize : ℕ)
  | eval (clk : ℕ) (mem : Memory)

namespace EchoState

def exec (s : EchoState) : EchoStep → EchoState
  | .port p out aSize =>
    let r := p.getRamBitsPort s.ctl out
    let shown := s.latched.toList.map fun d => ⟨d, r.2.dOpcode, r.2.dSize, r.2.dSource⟩
    { s with
      ctl := r.1
      driven := some ⟨out.aOpcode, aSize, out.aSource⟩
      offered := if r.2.dValid ≠ 0 then shown ++ s.offered else s.offered }
  | .eval clk mem =>
    let ctl := (s.ctl.eval clk mem).1
    { s with ctl := ctl, latched := if s.ctl.inRsp = 0 ∧ ctl.inRsp ≠ 0 then s.driven else s.latched }

/-- For a read or a write the device drives a size that is the opcode. -/
def SizeIsOpcode (_ : EchoState) : EchoStep → Prop
  | .port _ out aSize => out.aOpcode = 0 ∨ out.aOpcode = 4 → aSize = out.aOpcode
  | .eval _ _ => True

end EchoState

/-- Runs from the reset of a controller on. -/
def echoSystem : TransitionSystem EchoState EchoStep where
  init s := ∃ c : MemController, c.defaultDelay = 0 ∧ s = ⟨c.reset, none, none, []⟩
  step s l t := t = s.exec l

namespace EchoState
variable {s : EchoState}

/-- The request registers hold what the device drives, with the opcode as the size. -/
structure AtPort (c : MemController) (d : Driven) : Prop where
  opcode : c.req.opcode = d.opcode
  size : c.req.size = d.opcode
  source : c.req.source = d.source

/-- A request is in the registers, and no response is shown meanwhile. -/
structure Held (c : MemController) (d : Driven) : Prop where
  inRsp : c.inRsp ≠ 0
  rw : c.rw = d.opcode
  size : c.size = d.opcode
  source : c.source = d.source
  hidden : c.rsp.valid = 0 ∧ c.rspValid = 0

/-- The registers of the response answer a request, as long as they are shown. -/
structure Answered (c : MemController) (d : Driven) : Prop where
  inRsp : c.inRsp = 0
  shown : c.rsp.valid ≠ 0 ∨ c.rspValid ≠ 0 → c.rsp.size = d.opcode ∧ c.rsp.source = d.source ∧
    c.rsp.opcode = if d.opcode = 4 then 1 else 0

/-- The last request latched is held or answered, and every response offered so far was right but for
the size. -/
structure Tracked (s : EchoState) : Prop where
  noDelay : s.ctl.timeRemain = 0 ∧ s.ctl.defaultDelay = 0
  driven : ∀ d, s.driven = some d → AtPort s.ctl d
  latched : ∀ d, s.latched = some d → d.Supported → Held s.ctl d ∨ Answered s.ctl d
  offered : ∀ o ∈ s.offered, o.request.Supported → o.size = o.request.opcode ∧
    o.source = o.request.source ∧ o.opcode = if o.request.opcode = 4 then 1 else 0

lemma tracked_reset {c : MemController} (hdelay : c.defaultDelay = 0) :
    Tracked ⟨c.reset, none, none, []⟩ :=
  ⟨⟨rfl, hdelay⟩, by simp, by simp, by simp⟩

/-- A copy of the ports shows the response of the request that was latched last. -/
lemma tracked_port (h : s.Tracked) (p : Processor) (out : DeviceOut) (aSize : ℕ) :
    (s.exec (.port p out aSize)).Tracked := by
  refine ⟨h.noDelay, ?_, ?_, ?_⟩
  · intro d hd
    obtain rfl := Option.some.inj hd
    exact ⟨rfl, rfl, rfl⟩
  · intro d hd hsupp
    cases h.latched d hd hsupp with
    | inl hheld => exact .inl ⟨hheld.inRsp, hheld.rw, hheld.size, hheld.source, hheld.hidden⟩
    | inr hanswered => exact .inr ⟨hanswered.inRsp, hanswered.shown⟩
  · intro o ho hsupp
    by_cases hvalid : s.ctl.rsp.valid ≠ 0
    · have hshown : o ∈ (s.latched.toList.map fun d =>
          (⟨d, s.ctl.rsp.opcode, s.ctl.rsp.size, s.ctl.rsp.source⟩ : Offered)) ++ s.offered := by
        simpa [exec, Processor.getRamBitsPort, hvalid] using ho
      cases List.mem_append.mp hshown with
      | inl hnew =>
        obtain ⟨d, hd, heq⟩ := List.mem_map.mp hnew
        subst heq
        cases h.latched d (Option.mem_toList.mp hd) hsupp with
        | inl hheld => exact absurd hheld.hidden.1 hvalid
        | inr hanswered => exact hanswered.shown (.inl hvalid)
      | inr hold => exact h.offered o hold hsupp
    · have hold : o ∈ s.offered := by
        simpa [exec, Processor.getRamBitsPort, hvalid] using ho
      exact h.offered o hold hsupp

/-- What an evaluation of a controller without delay does: at a high clock it copies the shown flag, at
a low one it answers the request it holds, or waits with it, takes the request at the port, or hides
the last response. -/
inductive Evaluated (c : MemController) : MemController → Prop
  | sampled : Evaluated c c.sample
  | answered (busy : c.inRsp ≠ 0) (mem : Memory) : Evaluated c (c.raise.respond mem).1.drive
  | waited (busy : c.inRsp ≠ 0) : Evaluated c c.raise.drive
  | latched (idle : c.inRsp = 0) : Evaluated c c.raise.await.latch.drive
  | hidden (idle : c.inRsp = 0) : Evaluated c c.raise.await.drive

lemma eval_evaluated {c : MemController} (htime : c.timeRemain = 0) (clk : ℕ) (mem : Memory) :
    Evaluated c (c.eval clk mem).1 := by
  rw [MemController.eval]
  split_ifs with hclk hwait hbusy hrespond hlatch
  · exact .sampled
  · exact absurd htime hwait
  · exact .answered (c := c) hbusy mem
  · exact .waited hbusy
  · exact .latched (not_not.mp hbusy)
  · exact .hidden (not_not.mp hbusy)

/-- An evaluation leaves the request registers alone and adds no delay. -/
lemma Evaluated.keeps {c c' : MemController} {d : Driven} (h : Evaluated c c')
    (hdelay : c.timeRemain = 0 ∧ c.defaultDelay = 0) :
    (c'.timeRemain = 0 ∧ c'.defaultDelay = 0) ∧ (AtPort c d → AtPort c' d) := by
  cases h with
  | sampled => exact ⟨hdelay, fun hd => ⟨hd.opcode, hd.size, hd.source⟩⟩
  | answered busy mem => exact ⟨hdelay, fun hd => ⟨hd.opcode, hd.size, hd.source⟩⟩
  | waited busy => exact ⟨hdelay, fun hd => ⟨hd.opcode, hd.size, hd.source⟩⟩
  | latched idle =>
    exact ⟨⟨hdelay.2, hdelay.2⟩, fun hd => ⟨hd.opcode, hd.size, hd.source⟩⟩
  | hidden idle => exact ⟨hdelay, fun hd => ⟨hd.opcode, hd.size, hd.source⟩⟩

/-- The request at the port is taken into the registers, and the last response is hidden. -/
lemma held_of_latched {c : MemController} {d : Driven} (hd : AtPort c d) :
    Held c.raise.await.latch.drive d :=
  ⟨one_ne_zero, hd.opcode, hd.size, hd.source, rfl, rfl⟩

/-- A read or a write that is held gets its response, or is still held. -/
lemma Held.evaluated {c c' : MemController} {d : Driven} (hheld : Held c d) (hsupp : d.Supported)
    (h : Evaluated c c') : Held c' d ∨ Answered c' d := by
  cases h with
  | sampled =>
    exact .inl ⟨hheld.inRsp, hheld.rw, hheld.size, hheld.source, hheld.hidden.1, hheld.hidden.1⟩
  | answered busy mem =>
    have hrw : c.rw = 4 ∨ c.rw = 0 := by
      rw [hheld.rw]
      exact hsupp.symm
    refine .inr ⟨if_pos hrw, fun _ => ⟨hheld.size, hheld.source, ?_⟩⟩
    rw [← hheld.rw]
    rfl
  | waited busy =>
    exact .inl ⟨hheld.inRsp, hheld.rw, hheld.size, hheld.source, hheld.hidden.2, hheld.hidden.2⟩
  | latched idle => exact absurd idle hheld.inRsp
  | hidden idle => exact absurd idle hheld.inRsp

/-- A response stays as it is until it is hidden or the next request is taken. -/
lemma Answered.evaluated {c c' : MemController} {d : Driven} (hanswered : Answered c d)
    (h : Evaluated c c') : Answered c' d ∨ c' = c.raise.await.latch.drive := by
  cases h with
  | sampled =>
    exact .inl ⟨hanswered.inRsp, fun hshown => hanswered.shown (.inl (hshown.elim id id))⟩
  | answered busy mem => exact absurd hanswered.inRsp busy
  | waited busy => exact absurd hanswered.inRsp busy
  | latched idle => exact .inr rfl
  | hidden idle =>
    refine .inl ⟨idle, fun hshown => ?_⟩
    cases hshown with
    | inl hvalid => exact absurd rfl hvalid
    | inr hvalid => exact absurd rfl hvalid

lemma tracked_eval (h : s.Tracked) (clk : ℕ) (mem : Memory) : (s.exec (.eval clk mem)).Tracked := by
  have heval := eval_evaluated h.noDelay.1 clk mem
  have hctl : (s.exec (.eval clk mem)).ctl = (s.ctl.eval clk mem).1 := rfl
  have hlatched : (s.exec (.eval clk mem)).latched =
      if s.ctl.inRsp = 0 ∧ (s.ctl.eval clk mem).1.inRsp ≠ 0 then s.driven else s.latched := rfl
  refine ⟨(heval.keeps (d := ⟨0, 0, 0⟩) h.noDelay).1, ?_, ?_, h.offered⟩
  · intro d hd
    exact (heval.keeps h.noDelay).2 (h.driven d hd)
  · intro d hd hsupp
    rw [hctl]
    rw [hlatched] at hd
    by_cases htaken : s.ctl.inRsp = 0 ∧ (s.ctl.eval clk mem).1.inRsp ≠ 0
    · rw [if_pos htaken] at hd
      generalize (s.ctl.eval clk mem).1 = c at heval htaken ⊢
      cases heval with
      | sampled => exact absurd htaken.1 htaken.2
      | answered busy mem => exact absurd htaken.1 busy
      | waited busy => exact absurd htaken.1 busy
      | latched idle => exact .inl (held_of_latched (h.driven d hd))
      | hidden idle => exact absurd idle htaken.2
    · rw [if_neg htaken] at hd
      cases h.latched d hd hsupp with
      | inl hheld => exact hheld.evaluated hsupp heval
      | inr hanswered =>
        cases hanswered.evaluated heval with
        | inl hstill => exact .inr hstill
        | inr hnext =>
          refine absurd ⟨hanswered.inRsp, ?_⟩ htaken
          rw [hnext]
          exact one_ne_zero

theorem tracked_of_reachable (h : echoSystem.Reachable s) : s.Tracked := by
  apply h.invariant
  · intro s hs
    obtain ⟨c, hdelay, heq⟩ := hs
    rw [heq]
    exact tracked_reset hdelay
  · intro s l t hs _ ht
    rw [ht]
    cases l with
    | port p out aSize => exact tracked_port hs p out aSize
    | eval clk mem => exact tracked_eval hs clk mem

/-- Where every read and write is driven with its opcode as its size, so is every request that is held
or was answered. -/
lemma sized_of_reachable (h : echoSystem.ReachableBy SizeIsOpcode s) :
    (∀ d, s.driven = some d → d.Supported → d.size = d.opcode) ∧
      (∀ d, s.latched = some d → d.Supported → d.size = d.opcode) ∧
      ∀ o ∈ s.offered, o.request.Supported → o.request.size = o.request.opcode := by
  apply h.invariant (I := fun s => (∀ d, s.driven = some d → d.Supported → d.size = d.opcode) ∧
    (∀ d, s.latched = some d → d.Supported → d.size = d.opcode) ∧
    ∀ o ∈ s.offered, o.request.Supported → o.request.size = o.request.opcode)
  · intro s hs
    obtain ⟨c, -, heq⟩ := hs
    rw [heq]
    simp
  · intro s l t hs hguard ht
    obtain ⟨hdriven, hlatched, hoffered⟩ := hs
    rw [ht]
    cases l with
    | port p out aSize =>
      refine ⟨?_, hlatched, ?_⟩
      · intro d hd hsupp
        obtain rfl := Option.some.inj hd
        exact hguard hsupp
      · intro o ho hsupp
        simp only [exec] at ho
        split_ifs at ho with hvalid
        · cases List.mem_append.mp ho with
          | inl hnew =>
            obtain ⟨d, hd, heq⟩ := List.mem_map.mp hnew
            subst heq
            exact hlatched d (Option.mem_toList.mp hd) hsupp
          | inr hold => exact hoffered o hold hsupp
        · exact hoffered o ho hsupp
    | eval clk mem =>
      refine ⟨hdriven, ?_, hoffered⟩
      intro d hd hsupp
      simp only [exec] at hd
      split_ifs at hd
      · exact hdriven d hd hsupp
      · exact hlatched d hd hsupp

/-- In runs in which the device drives the opcode as the size of every read and write, every response
echoes its request; in any run a response echoes its request exactly when that size was driven. -/
theorem echoes_iff {s : EchoState} (h : echoSystem.Reachable s) :
    (echoSystem.ReachableBy SizeIsOpcode s → ∀ o ∈ s.offered, o.request.Supported → o.Echoes) ∧
    ∀ o ∈ s.offered, o.request.Supported → (o.Echoes ↔ o.request.size = o.request.opcode) := by
  have hiff : ∀ o ∈ s.offered, o.request.Supported → (o.Echoes ↔ o.request.size = o.request.opcode) := by
    intro o ho hsupp
    obtain ⟨hsize, hsource, hopcode⟩ := (tracked_of_reachable h).offered o ho hsupp
    constructor
    · intro hecho
      exact hecho.1.symm.trans hsize
    · intro heq
      exact ⟨hsize.trans heq.symm, hsource, hopcode⟩
  refine ⟨fun hguard o ho hsupp => ?_, hiff⟩
  exact (hiff o ho hsupp).mpr ((sized_of_reachable hguard).2.2 o ho hsupp)

/-! ### Runs on concrete inputs -/

/-- Four cycles in which the device drives one request, from source 5, and is ready for the response. -/
def oneRequest (opcode size : ℕ) : List EchoStep :=
  let port := EchoStep.port .new ⟨opcode, 5, 0, 0, fun _ => 0, 1, 1⟩ size
  let ram := Processor.new.ram
  [port, .eval 0 ram, .eval 1 ram, port, .eval 0 ram, .eval 1 ram, port, .eval 0 ram, .eval 1 ram, port]

def echoStart : EchoState := ⟨(MemController.zeroed numThread).reset, none, none, []⟩

lemma oneRequest_reachable {guard : EchoState → EchoStep → Prop} {opcode size : ℕ}
    (hguard : ∀ l ∈ oneRequest opcode size, ∀ s, guard s l) :
    echoSystem.ReachableBy guard ((oneRequest opcode size).foldl exec echoStart) :=
  TransitionSystem.ReachableBy.foldl (.start ⟨.zeroed numThread, rfl, rfl⟩) (fun _ _ => rfl) hguard

/-- A read with size 4 is echoed. -/
theorem echoes_iff_read : ∃ s, echoSystem.ReachableBy SizeIsOpcode s ∧
    s.offered = [⟨⟨4, 4, 5⟩, 1, 4, 5⟩] ∧ ∀ o ∈ s.offered, o.Echoes := by
  have hreach : echoSystem.ReachableBy SizeIsOpcode ((oneRequest 4 4).foldl exec echoStart) := by
    apply oneRequest_reachable
    simp [oneRequest, SizeIsOpcode]
  have hoffered : ((oneRequest 4 4).foldl exec echoStart).offered = [⟨⟨4, 4, 5⟩, 1, 4, 5⟩] := by
    decide +kernel
  refine ⟨_, hreach, hoffered, fun o ho => (echoes_iff hreach.reachable).1 hreach o ho ?_⟩
  rw [hoffered] at ho
  rw [List.mem_singleton.mp ho]
  exact .inr rfl

/-- A write with size 2 comes back with size 0. -/
theorem write_size_not_echoed : ¬ ∀ s, echoSystem.Reachable s → ∀ o ∈ s.offered,
    o.request.Supported → o.Echoes := by
  intro h
  have hreach : echoSystem.Reachable ((oneRequest 0 2).foldl exec echoStart) :=
    oneRequest_reachable fun _ _ _ => trivial
  have hoffered : ((oneRequest 0 2).foldl exec echoStart).offered = [⟨⟨0, 2, 5⟩, 0, 0, 5⟩] := by
    decide +kernel
  have hecho := h _ hreach ⟨⟨0, 2, 5⟩, 0, 0, 5⟩ (by rw [hoffered]; simp) (.inl rfl)
  exact absurd hecho.1 (by decide)

end EchoState
end VentusDriver
