import VentusDriver.Foundation.TagTable
import VentusDriver.Rtl.Arbiter

/-! The page-table walkers. Both keep four entries with a state each: an entry is filled by a request,
asks memory, waits for the response with its tag, and leaves when it has its answer. The walker of the
upper levels asks once for each of the two levels, the walker of the last level once. -/
namespace VentusDriver.Rtl
open Foundation Foundation.TagTable

/-- A request for a translation. The base register holds the page number of the root table. -/
structure TlbBits where
  addr : BitVec 64
  ptbr : BitVec 64
  source : BitVec 2
  deriving DecidableEq, Repr

structure PtwEntry where
  ppn : BitVec 44
  vpn : BitVec 27
  curLevel : BitVec 2
  source : BitVec 2
  deriving DecidableEq, Repr

/-- The address of the table entry for a virtual page at a level: 56 bits of a 59-bit sum. -/
def pteAddr (ppn : BitVec 44) (vpn : BitVec 27) (level : BitVec 2) : BitVec 64 :=
  let vpnidx := (vpn >>> (level.toNat * 9)).extractLsb' 0 9
  ((((ppn ++ 0#12).setWidth 59 + (vpnidx ++ 0#3).setWidth 59) &&& 0xffffffffffffff#59).setWidth 64)

/-- The page number in a table entry. -/
def ptePpn (pte : BitVec 64) : BitVec 44 := pte.extractLsb' 10 44

/-- What is particular to a walker: the entry that a request fills, what the entry sends to memory and
in the end to the next stage, and what a response does to it. -/
structure WalkerKind (Req Entry : Type) where
  fill : Req → Entry
  bits : Entry → AddrBits
  rules : Rules Entry (BitVec 2) (BitVec 64)

/-- The states 0 to 3 of the source are idle, memreq (asking), memwait (waiting) and llreq or ptwrsp
(done). `outArb` arbitrates between the entries that are done. -/
structure Walker (Entry : Type) where
  entries : Regs Entry
  state : Regs Phase
  memreqArb : RRArbiter
  outArb : RRArbiter

namespace Walker
variable {Req Entry : Type} (K : WalkerKind Req Entry) (w : Walker Entry)

def isIdle (i : Fin 4) : Bool := decide (w.state i = .idle)
def isMemreq (i : Fin 4) : Bool := decide (w.state i = .asking)
def isMemwait (i : Fin 4) : Bool := decide (w.state i = .waiting)
def isDone (i : Fin 4) : Bool := decide (w.state i = .done)

def reqReady : Bool := oneOf w.isIdle

def enqPtr : Fin 4 := lowest w.isIdle

/-- The entries at the arbiter of the memory port. -/
def memreqIn (i : Fin 4) : Decoupled AddrBits := ⟨w.isMemreq i, K.bits (w.entries i)⟩

def memReq : Decoupled AddrBits := w.memreqArb.out (w.memreqIn K)

def memRspReady : Bool := oneOf w.isMemwait

/-- The entries at the arbiter of the last port. -/
def outIn (i : Fin 4) : Decoupled AddrBits := ⟨w.isDone i, K.bits (w.entries i)⟩

def out : Decoupled AddrBits := w.outArb.out (w.outIn K)

/-- The entry that is given up when one is sent: the lowest, not the one that the arbiter granted. -/
def deqPtr : Fin 4 := lowest w.isDone

/-- The inputs of a walker. -/
structure In (Req : Type) where
  req : Decoupled Req
  memReady : Bool
  memRsp : Decoupled AddrBits
  outReady : Bool

section Cycle
variable (reset : Bool) (io : In Req)

def takes : Bool := io.req.fire w.reqReady
def asks : Bool := (w.memReq K).fire io.memReady
def hears : Bool := io.memRsp.fire w.memRspReady
def sends : Bool := (w.out K).fire io.outReady

/-- The response is for the entry. -/
def hit (i : Fin 4) : Bool :=
  w.isMemwait i && decide (K.rules.tag (w.entries i) = io.memRsp.bits.source)

/-- The later of two assignments to a register counts. An entry that waits for memory is not the one
that is filled. -/
def next : Walker Entry where
  entries := .of fun i =>
    if reset then K.rules.blank
    else if w.sends K io && decide (w.deqPtr = i) then K.rules.blank
    else if w.hears io && w.hit K io i then K.rules.learn (w.entries i) io.memRsp.bits.addr
    else if w.takes io && decide (w.enqPtr = i) then K.fill io.req.bits
    else w.entries i
  state := .of fun i =>
    if reset then .idle
    else if w.sends K io && decide (w.deqPtr = i) then .idle
    else if w.hears io && w.hit K io i then K.rules.after (w.entries i)
    else if w.asks K io && decide (w.memreqArb.port (w.memreqIn K) = i) then .waiting
    else if w.takes io && decide (w.enqPtr = i) then .asking
    else w.state i
  memreqArb := w.memreqArb.next (w.memreqIn K) io.memReady
  outArb := w.outArb.next (w.outIn K) io.outReady

end Cycle

/-! ### The table of a walker -/

/-- The entries with their states. -/
def slots (i : Fin 4) : Slot Entry := ⟨w.state i, w.entries i⟩

/-- What a cycle does to the entries. -/
def moves (io : In Req) : Moves (Fin 4) Entry (BitVec 2) (BitVec 64) where
  enter := if w.takes io then some (w.enqPtr, K.fill io.req.bits) else none
  ask := if w.asks K io then some (w.memreqArb.port (w.memreqIn K)) else none
  reply := if w.hears io then some (io.memRsp.bits.source, io.memRsp.bits.addr) else none
  leave := if w.sends K io then some w.deqPtr else none

variable {K w} {io : In Req}

lemma state_reset (i : Fin 4) : (w.next K true io).state i = .idle := by simp [next]

lemma reqReady_iff : w.reqReady = true ↔ ∃ i, w.state i = .idle := by
  simp only [reqReady, oneOf_iff, isIdle, decide_eq_true_eq]

lemma memRspReady_iff : w.memRspReady = true ↔ ∃ i, w.state i = .waiting := by
  simp only [memRspReady, oneOf_iff, isMemwait, decide_eq_true_eq]

lemma memReq_valid : (w.memReq K).valid = true ↔ ∃ i, w.state i = .asking := by
  rw [memReq, RRArbiter.out_valid]
  simp [memreqIn, isMemreq]

lemma out_valid : (w.out K).valid = true ↔ ∃ i, w.state i = .done := by
  rw [out, RRArbiter.out_valid]
  simp [outIn, isDone]

lemma state_enqPtr (h : w.takes io = true) : w.state w.enqPtr = .idle := by
  have hready : w.reqReady = true := by simp_all [takes, Decoupled.fire]
  obtain ⟨i, hi⟩ := reqReady_iff.mp hready
  have hset : w.isIdle w.enqPtr = true := lowest_set ⟨i, by simp [isIdle, hi]⟩
  simpa [isIdle] using hset

lemma state_memreqPort (h : w.asks K io = true) :
    w.state (w.memreqArb.port (w.memreqIn K)) = .asking := by
  have hvalid : (w.memReq K).valid = true := by simp_all [asks, Decoupled.fire]
  simpa [memReq, RRArbiter.out, memreqIn, isMemreq] using hvalid

lemma state_deqPtr (h : w.sends K io = true) : w.state w.deqPtr = .done := by
  have hvalid : (w.out K).valid = true := by simp_all [sends, Decoupled.fire]
  obtain ⟨i, hi⟩ := out_valid.mp hvalid
  have hset : w.isDone w.deqPtr = true := lowest_set ⟨i, by simp [isDone, hi]⟩
  simpa [isDone] using hset

/-- The entry that the arbiter grants. -/
lemma state_outPort (h : w.sends K io = true) : w.state (w.outArb.port (w.outIn K)) = .done := by
  have hvalid : (w.out K).valid = true := by simp_all [sends, Decoupled.fire]
  simpa [out, RRArbiter.out, outIn, isDone] using hvalid

variable (K w io) in
/-- Every move is of an entry in the state that it is meant for. -/
lemma moves_legal : (w.moves K io).Legal w.slots where
  enter p hp := by
    cases h : w.takes io with
    | false => simp [moves, h] at hp
    | true =>
      simp only [moves, h, if_true, Option.some.injEq] at hp
      subst hp
      exact state_enqPtr h
  ask i hi := by
    cases h : w.asks K io with
    | false => simp [moves, h] at hi
    | true =>
      simp only [moves, h, if_true, Option.some.injEq] at hi
      subst hi
      exact state_memreqPort h
  leave i hi := by
    cases h : w.sends K io with
    | false => simp [moves, h] at hi
    | true =>
      simp only [moves, h, if_true, Option.some.injEq] at hi
      subst hi
      exact state_deqPtr h

lemma answered_iff {i : Fin 4} :
    Answered K.rules (w.moves K io) w.slots i ↔ w.hears io = true ∧ w.hit K io i = true := by
  cases h : w.hears io with
  | false => simp [Answered, moves, h]
  | true =>
    simp only [Answered, moves, slots, h, if_true, Option.map_some, Option.some.injEq, hit, isMemwait,
      Bool.and_eq_true, decide_eq_true_eq, true_and]
    exact and_congr_right fun _ => eq_comm

variable (K w io) in
/-- Outside a reset a cycle is one step of the table. -/
theorem slots_next :
    (w.next K false io).slots = TagTable.next K.rules (w.moves K io) w.slots := by
  funext i
  have henq : w.takes io = true → w.enqPtr = i → w.state i = .idle :=
    fun h heq => heq ▸ state_enqPtr h
  have hask : w.asks K io = true → w.memreqArb.port (w.memreqIn K) = i → w.state i = .asking :=
    fun h heq => heq ▸ state_memreqPort h
  have hdeq : w.sends K io = true → w.deqPtr = i → w.state i = .done :=
    fun h heq => heq ▸ state_deqPtr h
  have hhit : w.hit K io i = true → w.state i = .waiting := fun h => by
    simp only [hit, isMemwait, Bool.and_eq_true, decide_eq_true_eq] at h
    exact h.1
  cases hstate : w.state i with
  | idle =>
    simp only [slots, next, TagTable.next, hstate]
    have h1 : ¬ (w.sends K io = true ∧ w.deqPtr = i) := fun h => by simp [hdeq h.1 h.2] at hstate
    have h2 : ¬ w.hit K io i = true := fun h => by simp [hhit h] at hstate
    have h3 : ¬ (w.asks K io = true ∧ w.memreqArb.port (w.memreqIn K) = i) :=
      fun h => by simp [hask h.1 h.2] at hstate
    cases ht : w.takes io
    · simp [h1, h2, h3, moves, ht, hstate]
    · by_cases heq : w.enqPtr = i <;> simp [h1, h2, h3, moves, ht, heq, hstate]
  | asking =>
    simp only [slots, next, TagTable.next, hstate]
    have h1 : ¬ (w.sends K io = true ∧ w.deqPtr = i) := fun h => by simp [hdeq h.1 h.2] at hstate
    have h2 : ¬ w.hit K io i = true := fun h => by simp [hhit h] at hstate
    have h3 : ¬ (w.takes io = true ∧ w.enqPtr = i) := fun h => by simp [henq h.1 h.2] at hstate
    cases ha : w.asks K io
    · simp [h1, h2, h3, moves, ha, hstate]
    · by_cases heq : w.memreqArb.port (w.memreqIn K) = i <;> simp [h1, h2, h3, moves, ha, heq, hstate]
  | waiting =>
    have h1 : ¬ (w.sends K io = true ∧ w.deqPtr = i) := fun h => by simp [hdeq h.1 h.2] at hstate
    have h2 : ¬ (w.takes io = true ∧ w.enqPtr = i) := fun h => by simp [henq h.1 h.2] at hstate
    have h3 : ¬ (w.asks K io = true ∧ w.memreqArb.port (w.memreqIn K) = i) :=
      fun h => by simp [hask h.1 h.2] at hstate
    have hans := @answered_iff _ _ K w io i
    simp only [TagTable.next, slots, hstate, next]
    cases hh : w.hears io
    · simp [h1, h2, h3, hh, hans, hstate]
    · have hlearn : learned K.rules (w.moves K io) (w.entries i) =
          K.rules.learn (w.entries i) io.memRsp.bits.addr := by simp [learned, moves, hh]
      by_cases hit : w.hit K io i = true
      · rw [if_pos (hans.mpr ⟨hh, hit⟩), hlearn]
        simp [h1, hit]
      · simp [h1, h2, h3, hans, hit, hstate]
  | done =>
    simp only [slots, next, TagTable.next, hstate]
    have h1 : ¬ w.hit K io i = true := fun h => by simp [hhit h] at hstate
    have h2 : ¬ (w.takes io = true ∧ w.enqPtr = i) := fun h => by simp [henq h.1 h.2] at hstate
    have h3 : ¬ (w.asks K io = true ∧ w.memreqArb.port (w.memreqIn K) = i) :=
      fun h => by simp [hask h.1 h.2] at hstate
    cases hs : w.sends K io
    · simp [h1, h2, h3, moves, hs, hstate]
    · by_cases heq : w.deqPtr = i <;> simp [h1, h2, h3, moves, hs, heq, hstate]

end Walker

/-- The walker of the upper levels. It starts at level 2, and its last port asks for level 0. -/
def fistLevelPTW : WalkerKind TlbBits PtwEntry where
  fill r := ⟨r.ptbr.extractLsb' 0 44, r.addr.extractLsb' 12 27, 3#2 - 1#2, r.source⟩
  bits e := ⟨pteAddr e.ppn e.vpn e.curLevel, e.source⟩
  rules :=
    { tag := PtwEntry.source
      after := fun e => if e.curLevel > 1#2 then .asking else .done
      learn := fun e pte => { e with curLevel := e.curLevel - 1#2, ppn := ptePpn pte }
      blank := ⟨0, 0, 0, 0⟩ }

abbrev FistLevelPTW := Walker PtwEntry

/-- The walker of the last level. Its entry is first the address of the leaf, then the leaf. -/
def lastLevelPTW : WalkerKind AddrBits AddrBits where
  fill r := r
  bits e := e
  rules :=
    { tag := AddrBits.source
      after := fun _ => .done
      learn := fun e pte => { e with addr := pte }
      blank := ⟨0, 0⟩ }

abbrev LastLevelPTW := Walker AddrBits

end VentusDriver.Rtl
