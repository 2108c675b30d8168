import VentusDriver.Device.Processor
import VentusDriver.Foundation.Transition
import VentusDriver.Rtl.Answers

/-! The host port of a clocked device. `run` offers a block until it sees the device ready and gives it
one more clock cycle; `tick` notes a response after every cycle. A block is taken in each cycle before
which the device is ready, so it is taken twice where the device was ready from the start. Before the
first call of `run` the clock may be low, and the host need not take responses. -/
namespace VentusDriver.Rtl
open Foundation

/-- What the processor drives at the host port. -/
structure HostIn where
  req : HostPort
  reqValid : Bool
  rspReady : Bool
  deriving DecidableEq, Repr

/-- A device whose outputs at the host port are registers. `M` is what its memory port carries in a
cycle. -/
structure HostDevice (σ M : Type) where
  reqReady : σ → Bool
  rspValid : σ → Bool
  rspWgId : σ → ℕ
  posedge : σ → HostIn → M → σ

/-- A call of `run`, and whether the device was ready when it began to offer the block. -/
structure RunCall where
  sig : HostPort
  ready : Bool
  deriving DecidableEq, Repr

/-- The device with its clock, the port, and the queue of finished blocks. Beside them the calls of
`run`, the blocks that the device took, the responses that it handed over since the first call began to
offer its block, the entries of the queue that calls of `wait` returned, and of that moment the entries
made before it and the response shown at it. -/
structure HostState (σ : Type) where
  device : σ
  clock : Bool
  port : HostIn
  finishedBlockQueue : List ℕ
  calls : List RunCall
  taken : List HostPort
  told : List ℕ
  returned : List ℕ
  early : List ℕ
  missed : List ℕ

namespace HostState
variable {σ M : Type} (D : HostDevice σ M) (s : HostState σ)

/-- At a rising edge of the clock the device sees its inputs. -/
def rise (m : M) : HostState σ :=
  { s with
    clock := true
    device := D.posedge s.device s.port m
    taken := if s.port.reqValid && D.reqReady s.device then s.taken ++ [s.port.req] else s.taken
    told :=
      if !s.calls.isEmpty && s.port.rspReady && D.rspValid s.device then s.told ++ [D.rspWgId s.device]
      else s.told }

/-- Toggle the clock. -/
def eval (m : M) : HostState σ := if s.clock then { s with clock := false } else s.rise D m

/-- The response on the port. -/
def shown : List ℕ := if D.rspValid s.device then [D.rspWgId s.device] else []

def tick (m : M) : HostState σ :=
  let t := (s.eval D m).eval D m
  { t with
    finishedBlockQueue := t.finishedBlockQueue ++ t.shown D
    early := if t.calls.isEmpty then t.early ++ t.shown D else t.early }

/-- The loop of `run`, by what the memory port carries in its cycles. There is no result while the
device is not ready. -/
def offerLoop : List M → HostState σ → Option (HostState σ)
  | [], _ => none
  | m :: ms, s =>
    let t := s.tick D m
    if D.reqReady t.device then
      ms.head?.map fun m' =>
        let u := t.tick D m'
        { u with port := { u.port with reqValid := false } }
    else offerLoop ms t

/-- A clock that is low is raised first. No response is noted after that. -/
def raised (m : M) : HostState σ := if s.clock then s else s.eval D m

/-- The block is put on the port, and responses are taken from now on. -/
def offer (sig : HostPort) : HostState σ :=
  { s with
    port := ⟨sig, true, true⟩
    calls := s.calls ++ [⟨sig, D.reqReady s.device⟩]
    missed := if s.calls.isEmpty then s.shown D else s.missed }

def run (sig : HostPort) (m : M) (ms : List M) : Option (HostState σ) :=
  offerLoop D ms ((s.raised D m).offer D sig)

/-- `wait` takes the queue after its cycles. -/
def wait (ms : List M) : HostState σ :=
  let t := ms.foldl (fun t m => t.tick D m) s
  { t with finishedBlockQueue := [], returned := t.returned ++ t.finishedBlockQueue }

/-- Before every call no block is offered. After the first call of `run` the clock is high and responses
are taken. -/
structure Between : Prop where
  withdrawn : s.port.reqValid = false
  clock : s.calls ≠ [] → s.clock = true
  listens : s.calls ≠ [] → s.port.rspReady = true

end HostState

/-- The calls of the processor, with what the memory port carries in their cycles. -/
inductive HostCall (M : Type)
  | run (sig : HostPort) (m : M) (ms : List M)
  | wait (ms : List M)

/-- Calls one after the other from the constructor on: the device may be in any state, its clock and its
port too, but no block is offered. -/
def hostPortSystem {σ M : Type} (D : HostDevice σ M) : TransitionSystem (HostState σ) (HostCall M) where
  init s := s.port.reqValid = false ∧ s.finishedBlockQueue = [] ∧ s.calls = [] ∧ s.taken = [] ∧
    s.told = [] ∧ s.returned = [] ∧ s.early = [] ∧ s.missed = []
  step s call t :=
    match call with
    | .run sig m ms => s.run D sig m ms = some t
    | .wait ms => s.wait D ms = t

namespace HostState
variable {σ M : Type} {D : HostDevice σ M} {s t : HostState σ}

/-- Before the first call of `run` every response that a cycle ends with is noted, and none is heard. What
is noted since then is what the device has handed over since then and what it shows, each once and in
order, without the response that was shown when the call began. -/
structure Books (D : HostDevice σ M) (s : HostState σ) : Prop where
  before : s.calls = [] → s.returned ++ s.finishedBlockQueue = s.early ∧ s.told = [] ∧ s.missed = []
  since : s.calls ≠ [] → ∃ later, s.returned ++ s.finishedBlockQueue = s.early ++ later ∧
    s.told ++ s.shown D = s.missed ++ later

/-- A cycle, from either level of the clock on. -/
structure Ticked (D : HostDevice σ M) (s t : HostState σ) : Prop where
  clock : t.clock = s.clock
  port : t.port = s.port
  calls : t.calls = s.calls
  returned : t.returned = s.returned
  missed : t.missed = s.missed
  taken : t.taken = if s.port.reqValid && D.reqReady s.device then s.taken ++ [s.port.req] else s.taken
  told : t.told =
    if !s.calls.isEmpty && s.port.rspReady && D.rspValid s.device then s.told ++ [D.rspWgId s.device]
    else s.told
  queue : t.finishedBlockQueue = s.finishedBlockQueue ++ t.shown D
  early : t.early = if s.calls.isEmpty then s.early ++ t.shown D else s.early

theorem ticked (D : HostDevice σ M) (s : HostState σ) (m : M) : Ticked D s (s.tick D m) := by
  cases hclock : s.clock with
  | false =>
    have hrise : s.eval D m = s.rise D m := if_neg (by rw [hclock]; exact Bool.false_ne_true)
    have hfall : (s.rise D m).eval D m = { s.rise D m with clock := false } := if_pos rfl
    rw [tick, hrise, hfall]
    exact ⟨hclock.symm, rfl, rfl, rfl, rfl, rfl, rfl, rfl, rfl⟩
  | true =>
    have hfall : s.eval D m = { s with clock := false } := if_pos hclock
    have hrise : eval D { s with clock := false } m = rise D { s with clock := false } m :=
      if_neg Bool.false_ne_true
    rw [tick, hfall, hrise]
    exact ⟨hclock.symm, rfl, rfl, rfl, rfl, rfl, rfl, rfl, rfl⟩

/-- What a cycle adds to the queue is what the device hands over in the next one. Before the first call of
`run` it is an early entry. -/
lemma Ticked.books (h : Ticked D s t) (hlistens : s.calls ≠ [] → s.port.rspReady = true)
    (hbooks : s.Books D) : t.Books D := by
  constructor
  · intro hcalls
    rw [h.calls] at hcalls
    obtain ⟨hnoted, htold, hmissed⟩ := hbooks.before hcalls
    rw [h.returned, h.queue, h.early, h.told, h.missed, hcalls, ← List.append_assoc, hnoted]
    exact ⟨rfl, htold, hmissed⟩
  · intro hcalls
    rw [h.calls] at hcalls
    obtain ⟨later, hnoted, hheard⟩ := hbooks.since hcalls
    have hstarted : s.calls.isEmpty = false := by simpa using hcalls
    have htold : t.told = s.told ++ s.shown D := by
      rw [h.told, hstarted, hlistens hcalls, shown]
      cases D.rspValid s.device with
      | false => exact (List.append_nil _).symm
      | true => rfl
    refine ⟨later ++ t.shown D, ?_, ?_⟩
    · rw [h.returned, h.queue, h.early, hstarted, ← List.append_assoc, hnoted]
      exact List.append_assoc ..
    · rw [htold, h.missed, hheard]
      exact List.append_assoc ..

/-- What a call of `run` does once its block is on the port. -/
structure Offered (D : HostDevice σ M) (s t : HostState σ) (sig : HostPort) : Prop where
  between : t.Between
  calls : t.calls = s.calls
  taken : t.taken = s.taken ++ (if D.reqReady s.device then [sig] else []) ++ [sig]
  books : s.Books D → t.Books D

/-- The loop lets the device take the block in its first cycle, if it is ready before that, and in its
last one. -/
theorem offered_of_loop {ms : List M} {sig : HostPort} (hclock : s.clock = true)
    (hport : s.port = ⟨sig, true, true⟩) (h : offerLoop D ms s = some t) : Offered D s t sig := by
  induction ms generalizing s with
  | nil => simp [offerLoop] at h
  | cons m ms ih =>
    have hfirst := ticked D s m
    have hclock' := hfirst.clock.trans hclock
    have hport' : (s.tick D m).port = ⟨sig, true, true⟩ := hfirst.port.trans hport
    have hbooks := hfirst.books fun _ => by rw [hport]
    have htaken : (s.tick D m).taken = s.taken ++ if D.reqReady s.device then [sig] else [] := by
      rw [hfirst.taken, hport]
      cases D.reqReady s.device with
      | false => exact (List.append_nil _).symm
      | true => rfl
    simp only [offerLoop] at h
    split_ifs at h with hready
    · obtain ⟨m', -, rfl⟩ := Option.map_eq_some_iff.mp h
      have hlast := ticked D (s.tick D m) m'
      have hbooks' := hlast.books fun _ => by rw [hport']
      refine ⟨⟨rfl, fun _ => hlast.clock.trans hclock', fun _ => ?_⟩, hlast.calls.trans hfirst.calls, ?_,
        fun hs => ⟨(hbooks' (hbooks hs)).before, (hbooks' (hbooks hs)).since⟩⟩
      · change ((s.tick D m).tick D m').port.rspReady = true
        rw [hlast.port, hport']
      · change ((s.tick D m).tick D m').taken = _
        rw [hlast.taken, hport', hready, htaken]
        rfl
    · obtain ⟨hbetween, hcalls, hlater, hbooks'⟩ := ih hclock' hport' h
      refine ⟨hbetween, hcalls.trans hfirst.calls, ?_, fun hs => hbooks' (hbooks hs)⟩
      rw [hlater, htaken, if_neg hready, List.append_nil]

/-- Cycles in which no block is offered. -/
lemma wait_cycles (ms : List M) (hbetween : s.Between) :
    (ms.foldl (fun t m => t.tick D m) s).Between ∧
      (ms.foldl (fun t m => t.tick D m) s).calls = s.calls ∧
      (ms.foldl (fun t m => t.tick D m) s).taken = s.taken ∧
      (s.Books D → (ms.foldl (fun t m => t.tick D m) s).Books D) := by
  induction ms generalizing s with
  | nil => exact ⟨hbetween, rfl, rfl, id⟩
  | cons m ms ih =>
    have htick := ticked D s m
    have hnext : (s.tick D m).Between := by
      refine ⟨htick.port ▸ hbetween.withdrawn, ?_, ?_⟩
      · rw [htick.calls, htick.clock]
        exact hbetween.clock
      · rw [htick.calls, htick.port]
        exact hbetween.listens
    obtain ⟨h1, h2, h3, h4⟩ := ih hnext
    refine ⟨h1, h2.trans htick.calls, ?_, fun hbooks => h4 (htick.books hbetween.listens hbooks)⟩
    rw [List.foldl_cons, h3, htick.taken, hbetween.withdrawn]
    rfl

/-- What the device took is what the calls offered, and what the processor got is what it was told. -/
structure Accounted (D : HostDevice σ M) (s : HostState σ) : Prop where
  between : s.Between
  taken : s.taken = s.calls.flatMap fun c => if c.ready then [c.sig, c.sig] else [c.sig]
  books : s.Books D

/-- Only the first call of `run` can find the clock low. What the device hands over as it rises is not
heard. -/
lemma Accounted.raised (h : s.Accounted D) (m : M) :
    (s.raised D m).clock = true ∧ (s.raised D m).Accounted D := by
  rw [HostState.raised]
  split_ifs with hclock
  · exact ⟨hclock, h⟩
  · have hcalls : s.calls = [] := not_not.mp fun hne => hclock (h.between.clock hne)
    have hstart : s.calls.isEmpty = true := by rw [hcalls]; rfl
    have hrise : s.eval D m = s.rise D m := if_neg hclock
    rw [hrise, rise]
    refine ⟨rfl, ⟨h.between.withdrawn, fun _ => rfl, h.between.listens⟩, ?_, ?_, ?_⟩
    · simp only [h.between.withdrawn]
      exact h.taken
    · simp only [hstart]
      exact h.books.before
    · exact fun hne => absurd hcalls hne

/-- The block on the port is one call more. The first call finds the response that is shown. -/
lemma Accounted.offer (h : s.Accounted D) (sig : HostPort) : (s.offer D sig).Books D := by
  refine ⟨fun hnil => absurd hnil (List.append_ne_nil_of_right_ne_nil _ (List.cons_ne_nil _ _)), fun _ => ?_⟩
  by_cases hcalls : s.calls = []
  · obtain ⟨hnoted, htold, -⟩ := h.books.before hcalls
    refine ⟨[], hnoted.trans (List.append_nil _).symm, ?_⟩
    simp only [HostState.offer, hcalls, htold, List.isEmpty_nil, if_true, List.append_nil]
    rfl
  · have hstarted : s.calls.isEmpty = false := by simpa using hcalls
    have hmissed : (s.offer D sig).missed = s.missed := if_neg (by rw [hstarted]; exact Bool.false_ne_true)
    rw [hmissed]
    exact h.books.since hcalls

lemma Accounted.run (h : s.Accounted D) {sig : HostPort} {m : M} {ms : List M}
    (hrun : s.run D sig m ms = some t) : t.Accounted D := by
  obtain ⟨hclock, hraised⟩ := h.raised m
  obtain ⟨hbetween, hcalls, htaken, hbooks⟩ :=
    offered_of_loop (s := (s.raised D m).offer D sig) hclock rfl hrun
  refine ⟨hbetween, ?_, hbooks (hraised.offer sig)⟩
  have hbefore : ((s.raised D m).offer D sig).taken = _ := hraised.taken
  rw [htaken, hcalls, hbefore, HostState.offer, List.flatMap_append, List.append_assoc]
  congr 1
  simp only [List.flatMap_cons, List.flatMap_nil, List.append_nil]
  split_ifs <;> rfl

lemma Accounted.wait (h : s.Accounted D) (ms : List M) : (s.wait D ms).Accounted D := by
  obtain ⟨hbetween, hcalls, htaken, hbooks⟩ := wait_cycles (D := D) ms h.between
  refine ⟨⟨hbetween.withdrawn, hbetween.clock, hbetween.listens⟩, ?_, ?_, ?_⟩
  · exact htaken.trans (hcalls.symm ▸ h.taken)
  · exact fun hnil => (List.append_nil _).symm ▸ (hbooks h.books).before hnil
  · exact fun hne => (List.append_nil _).symm ▸ (hbooks h.books).since hne

theorem accounted_of_reachable (h : (hostPortSystem D).Reachable s) : s.Accounted D := by
  refine h.invariant ?_ ?_
  · intro s hinit
    obtain ⟨hvalid, hqueue, hcalls, htaken, htold, hreturned, hearly, hmissed⟩ := hinit
    refine ⟨⟨hvalid, fun hne => absurd hcalls hne, fun hne => absurd hcalls hne⟩, ?_, fun _ => ?_,
      fun hne => absurd hcalls hne⟩
    · rw [htaken, hcalls]
      rfl
    · rw [hqueue, hreturned, hearly]
      exact ⟨rfl, htold, hmissed⟩
  · intro s call t hs _ hstep
    cases call with
    | run sig m ms => exact hs.run hstep
    | wait ms => exact hstep ▸ hs.wait ms

/-! ### The test bench at the port -/

/-- The test bench as the device; its bus carries readiness and a response. -/
def benchDevice : HostDevice MMU (Bool × Decoupled (BitVec 4 × BitVec 64)) where
  reqReady := MMUtest.hostReqReady
  rspValid u := (MMUtest.hostRsp u).valid
  rspWgId u := (MMUtest.hostRsp u).bits.toNat
  posedge u port bus := MMUtest.next u
    ⟨⟨port.reqValid, ⟨.ofNat 5 port.req.wgId, .ofNat 32 port.req.startPc, .ofNat 32 port.req.gdsBaseaddr⟩⟩,
      port.rspReady, bus.1, bus.2⟩ false

/-- A bus that takes every read, and its responses. -/
def busReply (source : Option (BitVec 4)) : Bool × Decoupled (BitVec 4 × BitVec 64) :=
  (true, ⟨source.isSome, (source.getD 0, 0)⟩)

/-- A block as `start` hands it over. -/
def aBlock : HostPort :=
  ⟨5, 2, 8, 0x80000000, 0x40, 0x40, 0x80, 0, 0x20, 0x20, 0, 0x80001000, 0x80023000, 0, 0, 0⟩

/-- The bench after a reset. -/
def afterReset : HostState MMU :=
  ⟨MMUtest.next MmuRun.powerUp ⟨⟨false, ⟨0, 0, 0⟩⟩, true, true, ⟨false, (0, 0)⟩⟩ true, true,
    ⟨aBlock, false, true⟩, [], [], [], [], [], [], []⟩

lemma afterReset_start : (hostPortSystem benchDevice).Reachable afterReset :=
  .start ⟨rfl, rfl, rfl, rfl, rfl, rfl, rfl, rfl⟩

/-- Whatever the device does: every call of `run` that returned has handed its block over once, and
once more if the device was ready when the call began to offer it. -/
theorem taken_of_calls (h : (hostPortSystem D).Reachable s) :
    s.taken = s.calls.flatMap fun c => if c.ready then [c.sig, c.sig] else [c.sig] :=
  (accounted_of_reachable h).taken

/-- The bench is ready after a reset, and takes the block twice. -/
theorem afterReset_takes_twice : ∃ s, afterReset.run benchDevice aBlock (busReply none)
      (List.replicate 3 (busReply none)) = some s ∧ s.taken = [aBlock, aBlock] ∧
    s.taken = s.calls.flatMap fun c => if c.ready then [c.sig, c.sig] else [c.sig] := by
  have hrun : (afterReset.run benchDevice aBlock (busReply none)
      (List.replicate 3 (busReply none))).map HostState.taken = some [aBlock, aBlock] := by decide +kernel
  obtain ⟨s, hs, htaken⟩ := Option.map_eq_some_iff.mp hrun
  have hreach : (hostPortSystem benchDevice).Reachable s :=
    afterReset_start.next (l := .run aBlock _ _) trivial hs
  exact ⟨s, hs, htaken, taken_of_calls hreach⟩

/-- The cycles of a `wait` in which the bus answers the three reads of a walk. -/
def walkCycles : List (Bool × Decoupled (BitVec 4 × BitVec 64)) :=
  [none, some 5, none, none, none, some 5, none, none, none, none, some 1, none, none, none, none,
    none].map busReply

/-- The bench with the answer to a block on its port, as the constructor may find a device: the clock is
low, and the host is not ready for responses. -/
def showing : HostState MMU :=
  let u := tick benchDevice { afterReset with port := ⟨aBlock, true, false⟩ } (busReply none)
  let v := walkCycles.foldl (tick benchDevice) { u with port := ⟨aBlock, false, false⟩ }
  { v with clock := false, finishedBlockQueue := [], taken := [], early := [] }

/-- Whatever the device does, from the constructor on: what calls of `wait` have returned and what waits in
the queue are the responses that were shown after the cycles before the first call of `run`, and from its
offer on the responses that the device handed over and the one it shows, each once and in order, but for
the one that it showed when that call began to offer its block. -/
theorem responses_of_calls (h : (hostPortSystem D).Reachable s) : s.Books D :=
  (accounted_of_reachable h).books

lemma showing_start : (hostPortSystem benchDevice).Reachable showing :=
  .start ⟨by decide +kernel, rfl, by decide +kernel, rfl, by decide +kernel, by decide +kernel, rfl,
    by decide +kernel⟩

/-- Two cycles before the first call of `run` note the response that is shown twice. It is handed over
once after the call began, and the answer to the block that follows is noted once. -/
theorem showing_told : ∃ s, (showing.wait benchDevice (List.replicate 2 (busReply none))).run benchDevice
      aBlock (busReply none) (List.replicate 6 (busReply none)) = some s ∧
    (s.wait benchDevice walkCycles).told = [1, 1] ∧ (s.wait benchDevice walkCycles).returned = [1, 1, 1] ∧
    (s.wait benchDevice walkCycles).Books benchDevice := by
  have hrun : ((showing.wait benchDevice (List.replicate 2 (busReply none))).run benchDevice aBlock
      (busReply none) (List.replicate 6 (busReply none))).map
      (fun s => ((s.wait benchDevice walkCycles).told, (s.wait benchDevice walkCycles).returned)) =
      some ([1, 1], [1, 1, 1]) := by decide +kernel
  obtain ⟨s, hs, hlists⟩ := Option.map_eq_some_iff.mp hrun
  obtain ⟨htold, hreturned⟩ := Prod.mk.inj hlists
  have hwaited : (hostPortSystem benchDevice).Reachable
      (showing.wait benchDevice (List.replicate 2 (busReply none))) :=
    showing_start.next (l := .wait _) trivial rfl
  have hreach : (hostPortSystem benchDevice).Reachable s :=
    hwaited.next (l := .run aBlock _ _) trivial hs
  exact ⟨s, hs, htold, hreturned, responses_of_calls (hreach.next (l := .wait _) trivial rfl)⟩

end HostState
end VentusDriver.Rtl
