import VentusDriver.Rtl.Answers

/-! No request starves. While host and memory take what they are offered, the arbiters come to every
entry in turn and no buffer stays full, so a request spends a bounded number of cycles in the unit
itself, whatever other requests are under way and however late memory answers them. -/
namespace VentusDriver.Rtl
open Foundation Foundation.TagTable

namespace Walker
variable {Req Entry : Type} {K : WalkerKind Req Entry} {w : Walker Entry} {io : In Req} {i : Fin 4}

variable (K w io i) in
lemma slot_next : (⟨(w.next K false io).state i, (w.next K false io).entries i⟩ : Slot Entry) =
    TagTable.next K.rules (w.moves K io) w.slots i := congrFun (slots_next K w io) i

variable (K io) in
/-- An entry that asks is granted, or stays and comes closer to its turn if any entry is granted. -/
lemma asking_next (hi : w.state i = .asking) :
    (w.asks K io = true ∧ w.memreqArb.port (w.memreqIn K) = i ∧
      (w.next K false io).state i = .waiting ∧ (w.next K false io).entries i = w.entries i) ∨
    ((w.next K false io).state i = .asking ∧ (w.next K false io).entries i = w.entries i ∧
      (w.next K false io).memreqArb.turns i + io.memReady.toNat ≤ w.memreqArb.turns i) := by
  have hslot := slot_next K w io i
  have hvalid : (w.memReq K).valid = true := memReq_valid.mpr ⟨i, hi⟩
  simp only [TagTable.next, slots, hi] at hslot
  by_cases hgrant : w.asks K io = true ∧ w.memreqArb.port (w.memreqIn K) = i
  · rw [if_pos (by simp [moves, hgrant.1, hgrant.2])] at hslot
    obtain ⟨hstate, hentry⟩ := Slot.mk.inj hslot
    exact .inl ⟨hgrant.1, hgrant.2, hstate, hentry⟩
  · have hask : (w.moves K io).ask ≠ some i := by
      intro h
      cases ha : w.asks K io with
      | false => simp [moves, ha] at h
      | true => exact hgrant ⟨ha, by simpa [moves, ha] using h⟩
    rw [if_neg hask] at hslot
    obtain ⟨hstate, hentry⟩ := Slot.mk.inj hslot
    refine .inr ⟨hstate, hentry, ?_⟩
    cases hready : io.memReady with
    | false => simp [next, RRArbiter.next, Decoupled.fire, hready]
    | true =>
      have hne : w.memreqArb.port (w.memreqIn K) ≠ i := fun heq =>
        hgrant ⟨by simp [asks, Decoupled.fire, hready, hvalid], heq⟩
      have hturn := w.memreqArb.turns_next (w.memreqIn K) (by simp [memreqIn, isMemreq, hi]) hne
      rw [next, hready]
      exact hturn

variable (K io) in
/-- An entry that waits gets its response or stays. -/
lemma waiting_next (hi : w.state i = .waiting) :
    (w.hears io = true ∧ w.hit K io i = true ∧
      (w.next K false io).state i = K.rules.after (w.entries i) ∧
      (w.next K false io).entries i = K.rules.learn (w.entries i) io.memRsp.bits.addr) ∨
    (¬ (w.hears io = true ∧ w.hit K io i = true) ∧ (w.next K false io).state i = .waiting ∧
      (w.next K false io).entries i = w.entries i) := by
  have hslot := slot_next K w io i
  by_cases hans : w.hears io = true ∧ w.hit K io i = true
  · have hlearn : learned K.rules (w.moves K io) (w.entries i) =
        K.rules.learn (w.entries i) io.memRsp.bits.addr := by simp [learned, moves, hans.1]
    simp only [TagTable.next, hi, if_pos (answered_iff.mpr hans), slots, hlearn] at hslot
    obtain ⟨hstate, hentry⟩ := Slot.mk.inj hslot
    exact .inl ⟨hans.1, hans.2, hstate, hentry⟩
  · simp only [TagTable.next, slots, hi] at hslot
    rw [if_neg (fun h => hans (answered_iff.mp h))] at hslot
    obtain ⟨hstate, hentry⟩ := Slot.mk.inj hslot
    exact .inr ⟨hans, hstate, hentry⟩

/-- A request that is taken fills an entry. -/
lemma taken_next (h : w.takes io = true) : (w.next K false io).state w.enqPtr = .asking ∧
    (w.next K false io).entries w.enqPtr = K.fill io.req.bits := by
  have hslot := slot_next K w io w.enqPtr
  simp only [TagTable.next, slots, state_enqPtr h] at hslot
  simpa [moves, h] using hslot

/-- An entry stays at the last port while nothing is sent there. -/
lemma done_stays (hi : w.state i = .done) (h : w.sends K io = false) :
    (w.next K false io).state i = .done ∧ (w.next K false io).entries i = w.entries i := by
  have hslot := slot_next K w io i
  simp only [TagTable.next, slots, hi] at hslot
  simpa [moves, h] using hslot

lemma mem_tags {tag : BitVec 2} (h : tag ∈ tags K w) :
    ∃ i, w.state i ≠ .idle ∧ K.rules.tag (w.entries i) = tag := by
  rw [tags, weigh, Multiset.mem_sum] at h
  obtain ⟨i, -, hi⟩ := h
  refine ⟨i, ?_⟩
  cases hs : w.state i <;> simp_all [slots, tagsOf]

end Walker

namespace MmuRun
variable {mem : BitVec 64 → BitVec 64} {s t : MmuRun} {c : MmuCycle} {tag : BitVec 2} {port : Bool}

/-- Memory has taken a read of the request with this tag and not answered it. -/
def AtMemory (s : MmuRun) (tag : BitVec 2) : Prop :=
  tag ∈ s.asked.map fun r => r.source.extractLsb' 0 2

instance (s : MmuRun) (tag : BitVec 2) : Decidable (s.AtMemory tag) :=
  inferInstanceAs (Decidable (_ ∈ _))

/-- A cycle counts unless memory holds a read of the request. -/
def inUnit (tag : BitVec 2) (s : MmuRun) (_ : MmuCycle) : ℕ := if s.AtMemory tag then 0 else 1

lemma inUnit_le (tag : BitVec 2) (s : MmuRun) (c : MmuCycle) : inUnit tag s c ≤ 1 := by
  rw [inUnit]
  split_ifs <;> norm_num

/-! ### A read on its way -/

/-- The cycles until the request buffer of a page cache is empty, while memory takes reads. The walker
of the last level comes first. -/
def lag (u : MMU) (port : Bool) : ℕ :=
  if (cacheOf u port).reqFifo.maybeFull then 1 + (port && u.llPageCache.reqFifo.maybeFull).toNat else 0

/-- The longest that a request buffer stays full. -/
def slow (port : Bool) : ℕ := 1 + port.toNat

lemma lag_le (u : MMU) (port : Bool) : lag u port ≤ slow port := by
  rw [lag, slow]
  split_ifs
  · exact Nat.add_le_add_left (by cases port <;> simp [Bool.toNat_le]) 1
  · exact Nat.zero_le _

/-- The port of the last level is free at once, the other one when the last level has no read. -/
lemma memReady_eq (hready : c.memReqReady = true) : s.mmu.memReady (input mem c) port =
    !(port && s.mmu.llPageCache.reqFifo.maybeFull) := by
  cases port <;> simp [MMU.memReady, MMUMemArbiter.reqReady, input, hready, Relay.req]

lemma llReq_emptied (hready : c.memReqReady = true)
    (h : s.mmu.llPageCache.reqFifo.maybeFull = true) :
    (s.exec mem c).mmu.llPageCache.reqFifo.maybeFull = false := by
  have hfree : s.mmu.memReady (input mem c) false = true := by rw [memReady_eq hready]; rfl
  have hnext : (s.exec mem c).mmu.llPageCache.reqFifo = s.mmu.llPageCache.reqFifo.next false
      (s.mmu.llptw.memReq lastLevelPTW) (s.mmu.memReady (input mem c) false) := rfl
  rw [hnext, hfree]
  exact OneQueue.empty_of_deq _ h

/-- A page cache in the next cycle, with the read that its walker sends. -/
def CacheNext (mem : BitVec 64 → BitVec 64) (s : MmuRun) (c : MmuCycle) (port : Bool)
    (walkerReq : Decoupled AddrBits) (walkerReady : Bool) : Prop :=
  cacheOf (s.exec mem c).mmu port = (cacheOf s.mmu port).next false walkerReq
    (s.mmu.memReady (input mem c) port) (MMUMemArbiter.rspOut (input mem c).memRsp port) walkerReady

variable {walkerReq : Decoupled AddrBits} {walkerReady : Bool}

lemma CacheNext.reqFifo (h : CacheNext mem s c port walkerReq walkerReady) :
    (cacheOf (s.exec mem c).mmu port).reqFifo = (cacheOf s.mmu port).reqFifo.next false walkerReq
      (s.mmu.memReady (input mem c) port) := by rw [h]; rfl

lemma CacheNext.rspFifo (h : CacheNext mem s c port walkerReq walkerReady) :
    (cacheOf (s.exec mem c).mmu port).rspFifo = (cacheOf s.mmu port).rspFifo.next false
      (MMUMemArbiter.rspOut (input mem c).memRsp port) walkerReady := by rw [h]; rfl

/-- A full request buffer comes closer to being empty. -/
lemma CacheNext.lag_exec (h : CacheNext mem s c port walkerReq walkerReady)
    (hready : c.memReqReady = true) (hfull : (cacheOf s.mmu port).reqFifo.maybeFull = true) :
    lag (s.exec mem c).mmu port + 1 ≤ lag s.mmu port := by
  have hfree := @memReady_eq mem s c port hready
  cases hblocked : port && s.mmu.llPageCache.reqFifo.maybeFull with
  | false =>
    rw [hblocked, Bool.not_false] at hfree
    have hempty : (cacheOf (s.exec mem c).mmu port).reqFifo.maybeFull = false := by
      rw [h.reqFifo, hfree]
      exact OneQueue.empty_of_deq _ hfull
    simp [lag, hfull, hempty]
  | true =>
    have hlast := @llReq_emptied mem s c hready (Bool.and_eq_true_iff.mp hblocked).2
    simp only [lag, hfull, hblocked, hlast, Bool.and_false, if_true, Bool.toNat_false, Bool.toNat_true]
    split_ifs <;> norm_num

/-- Where the read of an entry is, and a bound on the cycles that it spends in the unit from there to
the walker. -/
inductive Travelling (s : MmuRun) (port : Bool) (tag : BitVec 2) : ℕ → Prop
  | req (full : (cacheOf s.mmu port).reqFifo.maybeFull = true)
      (source : (cacheOf s.mmu port).reqFifo.ram.source = tag) :
      Travelling s port tag (1 + lag s.mmu port)
  | memory {r : MemReqBits} (asked : r ∈ s.asked) (ofPort : MMUMemArbiter.portOf r.source = port)
      (source : r.source.extractLsb' 0 2 = tag) : Travelling s port tag 1
  | rsp (full : (cacheOf s.mmu port).rspFifo.maybeFull = true)
      (source : (cacheOf s.mmu port).rspFifo.ram.source = tag) : Travelling s port tag 1

lemma Travelling.pos {n : ℕ} (h : Travelling s port tag n) : 1 ≤ n := by
  cases h with
  | req => exact Nat.le_add_right _ _
  | memory => exact Nat.le_refl _
  | rsp => exact Nat.le_refl _

/-- A response that is under way to a walker is the one to a read on its way. -/
lemma travelling_of_underway {b : AddrBits} (h : b ∈ underway mem (cacheOf s.mmu port) s.asked port) :
    ∃ n ≤ 1 + slow port, Travelling s port b.source n := by
  rw [underway_eq, Multiset.mem_add, Multiset.mem_add, Multiset.mem_map, Multiset.mem_map,
    OneQueue.mem_held] at h
  obtain (⟨a, ha, rfl⟩ | ⟨r, hr, rfl⟩) | ⟨hfull, rfl⟩ := h
  · obtain ⟨hfull, rfl⟩ := (OneQueue.mem_held _).mp ha
    exact ⟨_, Nat.add_le_add_left (lag_le _ _) 1, .req hfull rfl⟩
  · obtain ⟨hasked, hport⟩ := Multiset.mem_filter.mp hr
    exact ⟨1, Nat.le_add_right _ _, .memory hasked hport rfl⟩
  · exact ⟨1, Nat.le_add_right _ _, .rsp hfull rfl⟩

/-- A read that memory has stays there or becomes a response in the page cache. -/
lemma CacheNext.memory_exec (h : CacheNext mem s c port walkerReq walkerReady) {r : MemReqBits}
    (hr : r ∈ s.asked + s.taken c) (hport : MMUMemArbiter.portOf r.source = port) :
    Travelling (s.exec mem c) port (r.source.extractLsb' 0 2) 1 := by
  by_cases hserved : r ∈ s.served mem c
  · have hpath : portLoad mem r ∈ (ofPort port (s.served mem c)).map (portLoad mem) :=
      Multiset.mem_map_of_mem _ (Multiset.mem_filter.mpr ⟨hserved, hport⟩)
    rw [served_port, Decoupled.mem_sent] at hpath
    obtain ⟨hfire, hbits⟩ := hpath
    obtain ⟨hroom, hvalid⟩ := Bool.and_eq_true_iff.mp hfire
    have hempty : (cacheOf s.mmu port).rspFifo.maybeFull = false := by
      simpa [Relay.rspReady, OneQueue.enqReady] using hroom
    obtain ⟨hfull, hram⟩ := (cacheOf s.mmu port).rspFifo.next_filled _ walkerReady hempty
      hvalid
    rw [← h.rspFifo] at hfull hram
    exact .rsp hfull (by rw [hram, ← hbits]; rfl)
  · refine .memory (r := r) ?_ hport rfl
    change r ∈ s.asked + s.taken c - s.served mem c
    rw [Multiset.mem_sub, Multiset.count_eq_zero.mpr hserved]
    exact Multiset.count_pos.mpr hr

/-- A read that is not heard by its walker comes closer, or memory has it. -/
lemma Travelling.exec {n : ℕ} (h : Travelling s port tag n)
    (hcache : CacheNext mem s c port walkerReq walkerReady) (hready : c.memReqReady = true)
    (hmissed : ¬ ((cacheOf s.mmu port).rspFifo.maybeFull = true ∧
      (cacheOf s.mmu port).rspFifo.ram.source = tag)) :
    ∃ n', Travelling (s.exec mem c) port tag n' ∧ n' + inUnit tag s c ≤ n := by
  cases h with
  | req full source =>
    have hlag := hcache.lag_exec hready full
    have hcost := inUnit_le tag s c
    cases hfree : s.mmu.memReady (input mem c) port with
    | false =>
      obtain ⟨hfull, hram⟩ := (cacheOf s.mmu port).reqFifo.next_unread walkerReq full
      have hfifo := hcache.reqFifo
      rw [hfree] at hfifo
      rw [← hfifo] at hfull hram
      exact ⟨_, .req hfull (hram ▸ source), by omega⟩
    | true =>
      have htaken := @taken_port mem s c port
      rw [hfree, Decoupled.sent_of_fire (by simpa [Decoupled.fire, Relay.req] using full),
        Multiset.map_singleton] at htaken
      obtain ⟨r, hr, hload⟩ := Multiset.mem_map.mp (htaken ▸ Multiset.mem_singleton_self _)
      obtain ⟨hr, hport⟩ := Multiset.mem_filter.mp hr
      have hnext := hcache.memory_exec (Multiset.mem_add.mpr (.inr hr)) hport
      have hsource : r.source.extractLsb' 0 2 = tag := (congrArg AddrBits.source hload).trans source
      exact ⟨1, hsource ▸ hnext, by omega⟩
  | memory asked ofPort source =>
    subst source
    have hnext := hcache.memory_exec (Multiset.mem_add.mpr (.inl asked)) ofPort
    have hat : s.AtMemory _ := Multiset.mem_map_of_mem (fun r => r.source.extractLsb' 0 2) asked
    exact ⟨1, hnext, by simp [inUnit, hat]⟩
  | rsp full source => exact absurd ⟨full, source⟩ hmissed

/-! ### An entry that reads a table -/

/-- An entry that needs one more table, and a bound on the cycles that this takes in the unit. -/
inductive Reading {Req Entry : Type} (K : WalkerKind Req Entry) (w : Walker Entry) (s : MmuRun)
    (port : Bool) (i : Fin 4) : ℕ → Prop
  | asking (state : w.state i = .asking) :
      Reading K w s port i ((1 + slow port) * (w.memreqArb.turns i + 1) + 1 + lag s.mmu port)
  | waiting {n : ℕ} (state : w.state i = .waiting)
      (travelling : Travelling s port (K.rules.tag (w.entries i)) n) : Reading K w s port i n

section Reading
variable {Req Entry : Type} {K : WalkerKind Req Entry} {w : Walker Entry} {io : Walker.In Req}
  {i : Fin 4} {n : ℕ}

/-- A new read takes four turns at most, and one more for its way. -/
lemma reading_le (state : w.state i = .asking) :
    ∃ n ≤ 5 * (1 + slow port), Reading K w s port i n := by
  refine ⟨_, ?_, .asking state⟩
  have hturns := w.memreqArb.turns_le i
  have hlag := lag_le s.mmu port
  have hmul := Nat.mul_le_mul_left (1 + slow port) (Nat.add_le_add_right hturns 1)
  omega

/-- The ports of a walker are those of its page cache. -/
structure Attached (K : WalkerKind Req Entry) (w : Walker Entry) (io : Walker.In Req)
    (mem : BitVec 64 → BitVec 64) (s : MmuRun) (c : MmuCycle) (port : Bool) : Prop where
  bits : ∀ e, (K.bits e).source = K.rules.tag e
  memReady : io.memReady = (cacheOf s.mmu port).reqReady
  memRsp : io.memRsp = (cacheOf s.mmu port).rsp
  cache : CacheNext mem s c port (w.memReq K) w.memRspReady

/-- In a cycle an entry gets the table that it reads, or comes closer to it, or memory has its read. -/
theorem Reading.exec (h : Reading K w s port i n) (ha : Attached K w io mem s c port)
    (hready : c.memReqReady = true) :
    ((w.next K false io).state i = K.rules.after (w.entries i) ∧
      (w.next K false io).entries i = K.rules.learn (w.entries i) io.memRsp.bits.addr ∧
      inUnit (K.rules.tag (w.entries i)) s c ≤ n) ∨
    ((w.next K false io).entries i = w.entries i ∧
      ∃ n', Reading K (w.next K false io) (s.exec mem c) port i n' ∧
        n' + inUnit (K.rules.tag (w.entries i)) s c ≤ n) := by
  have hcost := inUnit_le (K.rules.tag (w.entries i)) s c
  cases h with
  | asking state =>
    right
    cases Walker.asking_next K io state with
    | inl hgrant =>
      obtain ⟨hasks, hport, hwait, hentry⟩ := hgrant
      refine ⟨hentry, ?_⟩
      obtain ⟨hroom, hvalid⟩ := Bool.and_eq_true_iff.mp hasks
      have hempty : (cacheOf s.mmu port).reqFifo.maybeFull = false := by
        rw [ha.memReady] at hroom
        simpa [Relay.reqReady, OneQueue.enqReady] using hroom
      obtain ⟨hfull, hram⟩ := (cacheOf s.mmu port).reqFifo.next_filled _
        (s.mmu.memReady (input mem c) port) hempty hvalid
      rw [← ha.cache.reqFifo] at hfull hram
      have hbits : (w.memReq K).bits = K.bits (w.entries i) := by rw [← hport]; rfl
      have hsource : (cacheOf (s.exec mem c).mmu port).reqFifo.ram.source =
          K.rules.tag ((w.next K false io).entries i) := by rw [hram, hbits, hentry, ha.bits]
      have hlag := lag_le (s.exec mem c).mmu port
      refine ⟨_, .waiting hwait (.req hfull hsource), ?_⟩
      rw [Nat.mul_succ]
      omega
    | inr hstay =>
      obtain ⟨hask, hentry, hturns⟩ := hstay
      refine ⟨hentry, _, .asking hask, ?_⟩
      cases hroom : io.memReady with
      | false =>
        rw [hroom, Bool.toNat_false, Nat.add_zero] at hturns
        have hfull : (cacheOf s.mmu port).reqFifo.maybeFull = true := by
          rw [ha.memReady] at hroom
          simpa [Relay.reqReady, OneQueue.enqReady] using hroom
        have hlag := ha.cache.lag_exec hready hfull
        have hmul := Nat.mul_le_mul_left (1 + slow port) (Nat.add_le_add_right hturns 1)
        omega
      | true =>
        rw [hroom, Bool.toNat_true] at hturns
        have hlag := lag_le (s.exec mem c).mmu port
        have hmul := Nat.mul_le_mul_left (1 + slow port) hturns
        rw [Nat.mul_succ (1 + slow port) (w.memreqArb.turns i)]
        omega
  | waiting state travelling =>
    cases Walker.waiting_next K io state with
    | inl hheard => exact .inl ⟨hheard.2.2.1, hheard.2.2.2, hcost.trans travelling.pos⟩
    | inr hstay =>
      obtain ⟨hnot, hwait, hentry⟩ := hstay
      have hmissed : ¬ ((cacheOf s.mmu port).rspFifo.maybeFull = true ∧
          (cacheOf s.mmu port).rspFifo.ram.source = K.rules.tag (w.entries i)) := by
        rintro ⟨hfull, hsource⟩
        refine hnot ⟨?_, ?_⟩
        · rw [Walker.hears, ha.memRsp, Decoupled.fire, Walker.memRspReady_iff.mpr ⟨i, state⟩]
          exact hfull
        · simp [Walker.hit, Walker.isMemwait, state, ha.memRsp, Relay.rsp, OneQueue.deq, hsource]
      obtain ⟨n', htravel, hle⟩ := travelling.exec ha.cache hready hmissed
      exact .inr ⟨hentry, n', .waiting hwait (hentry ▸ htravel), hle⟩

end Reading

lemma ptw_attached : Attached fistLevelPTW s.mmu.ptw s.mmu.ptwIn mem s c true :=
  ⟨ptw_bits_source, rfl, rfl, rfl⟩

lemma llptw_attached : Attached lastLevelPTW s.mmu.llptw s.mmu.llptwIn mem s c false :=
  ⟨llptw_bits_source, rfl, rfl, rfl⟩

/-! ### A request in the unit -/

/-- The stage that the request with a tag has reached, and a bound on the cycles that it spends in the
unit until its response is offered to the host. -/
inductive Within (s : MmuRun) (tag : BitVec 2) : ℕ → Prop
  | hostReq (full : s.mmu.tlb.reqFifo.maybeFull = true) (source : s.mmu.tlb.reqFifo.ram.source = tag) :
      Within s tag (46 + s.mmu.l2tlb.reqFifo.maybeFull.toNat)
  | walkReq (full : s.mmu.l2tlb.reqFifo.maybeFull = true)
      (source : s.mmu.l2tlb.reqFifo.ram.source = tag) : Within s tag 45
  | upper {i : Fin 4} {n : ℕ} (source : (s.mmu.ptw.entries i).source = tag)
      (level : (s.mmu.ptw.entries i).curLevel = 2#2)
      (reading : Reading fistLevelPTW s.mmu.ptw s true i n) : Within s tag (29 + n)
  | middle {i : Fin 4} {n : ℕ} (source : (s.mmu.ptw.entries i).source = tag)
      (level : (s.mmu.ptw.entries i).curLevel = 1#2)
      (reading : Reading fistLevelPTW s.mmu.ptw s true i n) : Within s tag (14 + n)
  | leafReq {i : Fin 4} (source : (s.mmu.ptw.entries i).source = tag)
      (state : s.mmu.ptw.state i = .done) : Within s tag 14
  | leaf {i : Fin 4} {n : ℕ} (source : (s.mmu.llptw.entries i).source = tag)
      (reading : Reading lastLevelPTW s.mmu.llptw s false i n) : Within s tag (3 + n)
  | found {i : Fin 4} (source : (s.mmu.llptw.entries i).source = tag)
      (state : s.mmu.llptw.state i = .done) :
      Within s tag (2 + s.mmu.l2tlb.rspFifo.maybeFull.toNat)
  | walkRsp (full : s.mmu.l2tlb.rspFifo.maybeFull = true)
      (source : s.mmu.l2tlb.rspFifo.ram.source = tag) : Within s tag 1
  | hostRsp (full : s.mmu.tlb.rspFifo.maybeFull = true)
      (source : s.mmu.tlb.rspFifo.ram.source = tag) : Within s tag 0

/-- While a request waits for the upper walker, this has room for it: there are four tags. -/
lemma Sound.ptw_ready (h : s.Sound mem) (hfull : s.mmu.l2tlb.reqFifo.maybeFull = true) :
    s.mmu.ptw.reqReady = true := by
  by_contra hbusy
  have hle : s.mmu.l2tlb.reqFifo.held.map TlbBits.source + Walker.tags fistLevelPTW s.mmu.ptw ≤
      s.mmu.tags := by
    refine le_trans ?_ (Multiset.le_add_right _ _)
    refine le_trans ?_ (Multiset.le_add_right _ _)
    refine le_trans ?_ (Multiset.le_add_right _ _)
    rw [add_assoc]
    exact Multiset.le_add_left _ _
  have hcard := Multiset.card_le_card hle
  have hfour := card_le_of_nodup h.tags_nodup
  have hptw := card_tags_of_full (K := fistLevelPTW) (Bool.eq_false_iff.mpr hbusy)
  rw [Multiset.card_add, hptw, OneQueue.held_of_full _ hfull] at hcard
  simp only [Multiset.map_singleton, Multiset.card_singleton] at hcard
  omega

section Step
variable {i : Fin 4} {n : ℕ}

lemma Sound.hostReq_exec (h : s.Sound mem) (hfull : s.mmu.tlb.reqFifo.maybeFull = true)
    (hsource : s.mmu.tlb.reqFifo.ram.source = tag) : ∃ n', Within (s.exec mem c) tag n' ∧
      n' + inUnit tag s c ≤ 46 + s.mmu.l2tlb.reqFifo.maybeFull.toNat := by
  have hcost := inUnit_le tag s c
  have hl2 : (s.exec mem c).mmu.l2tlb.reqFifo =
      s.mmu.l2tlb.reqFifo.next false s.mmu.tlb.req s.mmu.ptw.reqReady := rfl
  cases hroom : s.mmu.l2tlb.reqFifo.maybeFull with
  | false =>
    obtain ⟨hnext, hram⟩ := s.mmu.l2tlb.reqFifo.next_filled s.mmu.tlb.req
      s.mmu.ptw.reqReady hroom hfull
    rw [← hl2] at hnext hram
    exact ⟨45, .walkReq hnext (by rw [hram]; exact hsource), by omega⟩
  | true =>
    have hblocked : s.mmu.l2tlb.reqReady = false := by
      simp [Relay.reqReady, OneQueue.enqReady, hroom]
    have htlb : (s.exec mem c).mmu.tlb.reqFifo =
        s.mmu.tlb.reqFifo.next false c.mmuReq s.mmu.l2tlb.reqReady := rfl
    rw [hblocked] at htlb
    obtain ⟨hstay, hram⟩ := s.mmu.tlb.reqFifo.next_unread c.mmuReq hfull
    rw [← htlb] at hstay hram
    have hempty : (s.exec mem c).mmu.l2tlb.reqFifo.maybeFull = false := by
      rw [hl2, h.ptw_ready hroom]
      exact OneQueue.empty_of_deq _ hroom
    refine ⟨_, .hostReq hstay (by rw [hram, hsource]), ?_⟩
    simp only [hempty, Bool.toNat_false, Bool.toNat_true]
    omega

lemma Sound.walkReq_exec (h : s.Sound mem) (hfull : s.mmu.l2tlb.reqFifo.maybeFull = true)
    (hsource : s.mmu.l2tlb.reqFifo.ram.source = tag) : ∃ n', Within (s.exec mem c) tag n' ∧
      n' + inUnit tag s c ≤ 45 := by
  have hcost := inUnit_le tag s c
  have htakes : s.mmu.ptw.takes s.mmu.ptwIn = true := by
    rw [Walker.takes, Decoupled.fire, h.ptw_ready hfull]
    exact hfull
  obtain ⟨hstate, hentry⟩ := Walker.taken_next (K := fistLevelPTW) htakes
  obtain ⟨n', hle, hreading⟩ := @reading_le (s.exec mem c) true _ _ fistLevelPTW _ _ hstate
  have hfill : (s.exec mem c).mmu.ptw.entries s.mmu.ptw.enqPtr =
      fistLevelPTW.fill s.mmu.l2tlb.reqFifo.ram := hentry
  refine ⟨29 + n', .upper (by rw [hfill]; exact hsource) (by rw [hfill]; rfl) hreading, ?_⟩
  simp only [slow, Bool.toNat_true] at hle
  omega

lemma upper_exec (hready : c.memReqReady = true) (hsource : (s.mmu.ptw.entries i).source = tag)
    (hlevel : (s.mmu.ptw.entries i).curLevel = 2#2)
    (hreading : Reading fistLevelPTW s.mmu.ptw s true i n) :
    ∃ n', Within (s.exec mem c) tag n' ∧ n' + inUnit tag s c ≤ 29 + n := by
  subst hsource
  cases hreading.exec (@ptw_attached mem s c) hready with
  | inl hheard =>
    obtain ⟨hstate, hentry, hcost⟩ := hheard
    have hagain : fistLevelPTW.rules.after (s.mmu.ptw.entries i) = .asking := by
      simp [fistLevelPTW, hlevel]
    obtain ⟨n', hle, hnext⟩ := @reading_le (s.exec mem c) true _ _ fistLevelPTW
      (s.exec mem c).mmu.ptw i (hstate.trans hagain)
    have hlearn : (s.exec mem c).mmu.ptw.entries i =
      fistLevelPTW.rules.learn (s.mmu.ptw.entries i) s.mmu.ptwIn.memRsp.bits.addr := hentry
    have hone : ((s.exec mem c).mmu.ptw.entries i).curLevel = 1#2 := by
      rw [hlearn]
      simp [fistLevelPTW, hlevel]
    refine ⟨14 + n', .middle (by rw [hlearn]; rfl) hone hnext, ?_⟩
    simp only [slow, Bool.toNat_true] at hle
    change inUnit (s.mmu.ptw.entries i).source s c ≤ n at hcost
    omega
  | inr hstay =>
    obtain ⟨hentry, n', hnext, hle⟩ := hstay
    have hsame : (s.exec mem c).mmu.ptw.entries i = s.mmu.ptw.entries i := hentry
    change n' + inUnit (s.mmu.ptw.entries i).source s c ≤ n at hle
    exact ⟨29 + n', .upper (by rw [hsame]) (by rw [hsame, hlevel]) hnext, by omega⟩

lemma middle_exec (hready : c.memReqReady = true) (hsource : (s.mmu.ptw.entries i).source = tag)
    (hlevel : (s.mmu.ptw.entries i).curLevel = 1#2)
    (hreading : Reading fistLevelPTW s.mmu.ptw s true i n) :
    ∃ n', Within (s.exec mem c) tag n' ∧ n' + inUnit tag s c ≤ 14 + n := by
  subst hsource
  cases hreading.exec (@ptw_attached mem s c) hready with
  | inl hheard =>
    obtain ⟨hstate, hentry, hcost⟩ := hheard
    have hlast : fistLevelPTW.rules.after (s.mmu.ptw.entries i) = .done := by
      simp [fistLevelPTW, hlevel]
    have hlearn : (s.exec mem c).mmu.ptw.entries i =
      fistLevelPTW.rules.learn (s.mmu.ptw.entries i) s.mmu.ptwIn.memRsp.bits.addr := hentry
    exact ⟨14, .leafReq (by rw [hlearn]; rfl) (hstate.trans hlast), Nat.add_le_add_left hcost 14⟩
  | inr hstay =>
    obtain ⟨hentry, n', hnext, hle⟩ := hstay
    have hsame : (s.exec mem c).mmu.ptw.entries i = s.mmu.ptw.entries i := hentry
    change n' + inUnit (s.mmu.ptw.entries i).source s c ≤ n at hle
    exact ⟨14 + n', .middle (by rw [hsame]) (by rw [hsame, hlevel]) hnext, by omega⟩

lemma Sound.leafReq_exec (h : s.Sound mem) (hsource : (s.mmu.ptw.entries i).source = tag)
    (hstate : s.mmu.ptw.state i = .done) :
    ∃ n', Within (s.exec mem c) tag n' ∧ n' + inUnit tag s c ≤ 14 := by
  have hcost := inUnit_le tag s c
  have hvalid : (s.mmu.ptw.out fistLevelPTW).valid = true := Walker.out_valid.mpr ⟨i, hstate⟩
  have hroom := h.llptw_ready hstate
  have hsend : s.mmu.ptw.sends fistLevelPTW s.mmu.ptwIn = true := by
    rw [Walker.sends, Decoupled.fire, hvalid]
    simpa [MMU.ptwIn] using hroom
  have hport := h.single _ _ (Walker.state_outPort hsend) hstate
  have htakes : s.mmu.llptw.takes s.mmu.llptwIn = true := by
    rw [Walker.takes, Decoupled.fire, hroom]
    exact hvalid
  obtain ⟨hasking, hentry⟩ := Walker.taken_next (K := lastLevelPTW) htakes
  obtain ⟨n', hle, hreading⟩ := @reading_le (s.exec mem c) false _ _ lastLevelPTW _ _ hasking
  have hfill : (s.exec mem c).mmu.llptw.entries s.mmu.llptw.enqPtr =
      fistLevelPTW.bits (s.mmu.ptw.entries (s.mmu.ptw.outArb.port (s.mmu.ptw.outIn fistLevelPTW))) :=
    hentry
  refine ⟨3 + n', .leaf (by rw [hfill, hport]; exact hsource) hreading, ?_⟩
  simp only [slow, Bool.toNat_false] at hle
  omega

lemma leaf_exec (hready : c.memReqReady = true) (hsource : (s.mmu.llptw.entries i).source = tag)
    (hreading : Reading lastLevelPTW s.mmu.llptw s false i n) :
    ∃ n', Within (s.exec mem c) tag n' ∧ n' + inUnit tag s c ≤ 3 + n := by
  subst hsource
  cases hreading.exec (@llptw_attached mem s c) hready with
  | inl hheard =>
    obtain ⟨hstate, hentry, hcost⟩ := hheard
    have hlearn : (s.exec mem c).mmu.llptw.entries i =
      lastLevelPTW.rules.learn (s.mmu.llptw.entries i) s.mmu.llptwIn.memRsp.bits.addr := hentry
    have hfull := Bool.toNat_le (s.exec mem c).mmu.l2tlb.rspFifo.maybeFull
    change inUnit (s.mmu.llptw.entries i).source s c ≤ n at hcost
    exact ⟨_, .found (by rw [hlearn]; rfl) hstate, by omega⟩
  | inr hstay =>
    obtain ⟨hentry, n', hnext, hle⟩ := hstay
    have hsame : (s.exec mem c).mmu.llptw.entries i = s.mmu.llptw.entries i := hentry
    change n' + inUnit (s.mmu.llptw.entries i).source s c ≤ n at hle
    exact ⟨3 + n', .leaf (by rw [hsame]) hnext, by omega⟩

lemma Brisk.found_exec (h : s.Brisk) (hsource : (s.mmu.llptw.entries i).source = tag)
    (hstate : s.mmu.llptw.state i = .done) : ∃ n', Within (s.exec mem c) tag n' ∧
      n' + inUnit tag s c ≤ 2 + s.mmu.l2tlb.rspFifo.maybeFull.toNat := by
  have hcost := inUnit_le tag s c
  have hl2 : (s.exec mem c).mmu.l2tlb.rspFifo = s.mmu.l2tlb.rspFifo.next false
      (s.mmu.llptw.out lastLevelPTW) s.mmu.tlb.rspReady := rfl
  cases hroom : s.mmu.l2tlb.rspFifo.maybeFull with
  | false =>
    obtain ⟨hsend, -⟩ := h.leaves hstate hroom
    have hport := h.single _ _ (Walker.state_outPort hsend) hstate
    obtain ⟨hnext, hram⟩ := s.mmu.l2tlb.rspFifo.next_filled (s.mmu.llptw.out lastLevelPTW)
      s.mmu.tlb.rspReady hroom (Walker.out_valid.mpr ⟨i, hstate⟩)
    rw [← hl2] at hnext hram
    have hbits : (s.mmu.llptw.out lastLevelPTW).bits = s.mmu.llptw.entries i := by rw [← hport]; rfl
    exact ⟨1, .walkRsp hnext (by rw [hram, hbits, hsource]), by omega⟩
  | true =>
    have hkept : s.mmu.llptw.sends lastLevelPTW s.mmu.llptwIn = false := by
      simp [Walker.sends, Decoupled.fire, MMU.llptwIn, Relay.rspReady, OneQueue.enqReady, hroom]
    obtain ⟨hdone, hentry⟩ := Walker.done_stays hstate hkept
    have hsame : (s.exec mem c).mmu.llptw.entries i = s.mmu.llptw.entries i := hentry
    have hempty : (s.exec mem c).mmu.l2tlb.rspFifo.maybeFull = false := by
      have hfree : s.mmu.tlb.rspReady = true := by
        simp [Relay.rspReady, OneQueue.enqReady, h.buffers hroom]
      rw [hl2, hfree]
      exact OneQueue.empty_of_deq _ hroom
    refine ⟨_, .found (by rw [hsame, hsource]) hdone, ?_⟩
    simp only [hempty, Bool.toNat_false, Bool.toNat_true]
    omega

lemma Brisk.walkRsp_exec (h : s.Brisk) (hfull : s.mmu.l2tlb.rspFifo.maybeFull = true)
    (hsource : s.mmu.l2tlb.rspFifo.ram.source = tag) :
    ∃ n', Within (s.exec mem c) tag n' ∧ n' + inUnit tag s c ≤ 1 := by
  have htlb : (s.exec mem c).mmu.tlb.rspFifo =
      s.mmu.tlb.rspFifo.next false s.mmu.l2tlb.rsp c.mmuRspReady := rfl
  obtain ⟨hnext, hram⟩ := s.mmu.tlb.rspFifo.next_filled s.mmu.l2tlb.rsp
    c.mmuRspReady (h.buffers hfull) hfull
  rw [← htlb] at hnext hram
  have hcost := inUnit_le tag s c
  exact ⟨0, .hostRsp hnext (by rw [hram]; exact hsource), by omega⟩

end Step

/-- Host and memory take what they are offered, and the host gets no response with this tag. -/
def Awaiting (tag : BitVec 2) (s : MmuRun) (c : MmuCycle) : Prop :=
  s.FairReady c ∧ c.memReqReady = true ∧ tag ∉ (s.delivered c).map AddrBits.source

/-- A cycle takes a request closer to the host unless memory has a read of it. -/
theorem Within.exec {n : ℕ} (h : Within s tag n) (hs : s.Sound mem) (hb : s.Brisk)
    (hc : Awaiting tag s c) : ∃ n', Within (s.exec mem c) tag n' ∧ n' + inUnit tag s c ≤ n := by
  obtain ⟨hfair, hready, hwait⟩ := hc
  cases h with
  | hostReq full source => exact hs.hostReq_exec full source
  | walkReq full source => exact hs.walkReq_exec full source
  | upper source level reading => exact upper_exec hready source level reading
  | middle source level reading => exact middle_exec hready source level reading
  | leafReq source state => exact hs.leafReq_exec source state
  | leaf source reading => exact leaf_exec hready source reading
  | found source state => exact hb.found_exec source state
  | walkRsp full source => exact hb.walkRsp_exec full source
  | hostRsp full source =>
    refine absurd ?_ hwait
    have hfire : s.mmu.mmuRsp.fire c.mmuRspReady = true := by
      simpa [Decoupled.fire, hfair.2, MMU.mmuRsp, Relay.rsp] using full
    rw [delivered, Decoupled.sent_of_fire hfire, Multiset.map_singleton, Multiset.mem_singleton]
    exact source.symm

/-! ### The bound -/

lemma within_of_ptw (h : s.Sound mem) (htag : tag ∈ Walker.tags fistLevelPTW s.mmu.ptw) :
    ∃ n ≤ 47, Within s tag n := by
  obtain ⟨i, hbusy, hsource⟩ := Walker.mem_tags htag
  have hreading : s.mmu.ptw.state i ≠ .done →
      ∃ n ≤ 15, Reading fistLevelPTW s.mmu.ptw s true i n := by
    intro hdone
    cases hstate : s.mmu.ptw.state i with
    | idle => exact absurd hstate hbusy
    | asking => exact @reading_le s true _ _ fistLevelPTW _ _ hstate
    | waiting =>
      have hmem : load mem (fistLevelPTW.bits (s.mmu.ptw.entries i)) ∈
          underway mem s.mmu.pageCache s.asked true := h.upper ▸ Walker.mem_awaited.mpr ⟨i, hstate, rfl⟩
      obtain ⟨n, hle, htravel⟩ := @travelling_of_underway mem s true _ hmem
      exact ⟨n, hle.trans (by decide), .waiting hstate htravel⟩
    | done => exact absurd hstate hdone
  have hlevel := h.level i
  by_cases hdone : s.mmu.ptw.state i = .done
  · exact ⟨14, by norm_num, .leafReq hsource hdone⟩
  · obtain ⟨n, hle, hread⟩ := hreading hdone
    have hlevels : (s.mmu.ptw.entries i).curLevel = 1#2 ∨ (s.mmu.ptw.entries i).curLevel = 2#2 := by
      cases hstate : s.mmu.ptw.state i <;> simp_all [LevelOk]
    cases hlevels with
    | inl hone => exact ⟨14 + n, by omega, .middle hsource hone hread⟩
    | inr htwo => exact ⟨29 + n, by omega, .upper hsource htwo hread⟩

lemma within_of_llptw (h : s.Sound mem) (htag : tag ∈ Walker.tags lastLevelPTW s.mmu.llptw) :
    ∃ n ≤ 47, Within s tag n := by
  obtain ⟨i, hbusy, hsource⟩ := Walker.mem_tags htag
  cases hstate : s.mmu.llptw.state i with
  | idle => exact absurd hstate hbusy
  | asking =>
    obtain ⟨n, hle, hreading⟩ := @reading_le s false _ _ lastLevelPTW _ _ hstate
    simp only [slow, Bool.toNat_false] at hle
    exact ⟨3 + n, by omega, .leaf hsource hreading⟩
  | waiting =>
    have hmem : load mem (lastLevelPTW.bits (s.mmu.llptw.entries i)) ∈
        underway mem s.mmu.llPageCache s.asked false := h.last ▸ Walker.mem_awaited.mpr ⟨i, hstate, rfl⟩
    obtain ⟨n, hle, htravel⟩ := @travelling_of_underway mem s false _ hmem
    simp only [slow, Bool.toNat_false] at hle
    exact ⟨3 + n, by omega, .leaf hsource (.waiting hstate htravel)⟩
  | done =>
    have hfull := Bool.toNat_le s.mmu.l2tlb.rspFifo.maybeFull
    exact ⟨_, by omega, .found hsource hstate⟩

/-- Every request in the unit is at one of the stages. -/
theorem Sound.within (h : s.Sound mem) (htag : tag ∈ s.mmu.tags) : ∃ n ≤ 47, Within s tag n := by
  simp only [MMU.tags, Multiset.mem_add, Multiset.mem_map, OneQueue.mem_held] at htag
  obtain ((((⟨r, ⟨hfull, rfl⟩, hsource⟩ | ⟨r, ⟨hfull, rfl⟩, hsource⟩) | hptw) | hllptw) |
    ⟨r, ⟨hfull, rfl⟩, hsource⟩) | ⟨r, ⟨hfull, rfl⟩, hsource⟩ := htag
  · have hnext := Bool.toNat_le s.mmu.l2tlb.reqFifo.maybeFull
    exact ⟨_, by omega, .hostReq hfull hsource⟩
  · exact ⟨45, by norm_num, .walkReq hfull hsource⟩
  · exact within_of_ptw h hptw
  · exact within_of_llptw h hllptw
  · exact ⟨1, by norm_num, .walkRsp hfull hsource⟩
  · exact ⟨0, by norm_num, .hostRsp hfull hsource⟩

/-- The tags that the host waits for are those in the unit. -/
lemma Sound.awaited_tags (h : s.Sound mem) :
    s.accepted.map TlbBits.source - s.answered.map AddrBits.source = s.mmu.tags := by
  have hbooks := congrArg (Multiset.map AddrBits.source) h.books
  rw [Multiset.map_map, Multiset.map_add, held_tags] at hbooks
  have hsource : s.accepted.map TlbBits.source = s.answered.map AddrBits.source + s.mmu.tags := hbooks
  rw [hsource, add_tsub_cancel_left]

/-- While the host waits for a response, at most 47 cycles pass in which memory has no read of the
request, whatever else is under way. -/
theorem answered_within {n : ℕ} (h : (mmuSystem mem).ReachableBy FairReady s)
    (htag : tag ∈ s.accepted.map TlbBits.source - s.answered.map AddrBits.source)
    (hrun : (mmuSystem mem).RunBy (Awaiting tag) (inUnit tag) s n t) : n ≤ 47 := by
  obtain ⟨hs, hb⟩ := sound_of_ready h
  rw [hs.awaited_tags] at htag
  obtain ⟨r, hr, hwithin⟩ := hs.within htag
  obtain ⟨r', -, hle⟩ := hrun.cost_le (R := fun s r => s.Sound mem ∧ s.Brisk ∧ Within s tag r)
    (fun s c t r hR hc hstep => by
      obtain ⟨hs, hb, hwithin⟩ := hR
      obtain ⟨r', hnext, hle⟩ := hwithin.exec hs hb hc
      rw [hstep]
      exact ⟨r', ⟨hs.exec hc.1.1 hb.inOrder, hb.exec hs hc.1.2, hnext⟩, hle⟩) ⟨hs, hb, hwithin⟩
  omega

instance (tag : BitVec 2) (s : MmuRun) (c : MmuCycle) : Decidable (Awaiting tag s c) :=
  inferInstanceAs (Decidable (_ ∧ _))

/-- A request that is alone spends fourteen cycles in the unit. -/
theorem oneWalk_within : ∃ s t, play FairReady (oneWalk.take 1) = some s ∧
    (mmuSystem sampleMem).RunBy (Awaiting 1) (inUnit 1) s 14 t ∧ 14 ≤ 47 := by
  have hplay : ((play FairReady (oneWalk.take 1)).map fun s =>
      (s.accepted, s.answered)) = some ({⟨0, 1, 1⟩}, 0) := by decide +kernel
  obtain ⟨s, hs, hbooks⟩ := Option.map_eq_some_iff.mp hplay
  obtain ⟨haccepted, hanswered⟩ := Prod.mk.inj hbooks
  have hrest : ((play FairReady (oneWalk.take 1)).bind fun s =>
      (TransitionSystem.follow (Awaiting 1) (fun s c => some (s.exec sampleMem c))
        ((oneWalk.drop 1).take 17) s).map fun _ =>
        TransitionSystem.total (inUnit 1) (fun s c => some (s.exec sampleMem c))
          ((oneWalk.drop 1).take 17) s) = some 14 := by decide +kernel
  rw [hs, Option.bind_some] at hrest
  obtain ⟨t, ht, htotal⟩ := Option.map_eq_some_iff.mp hrest
  have hrun : (mmuSystem sampleMem).RunBy (Awaiting 1) (inUnit 1) s 14 t := by
    have hzero : (mmuSystem sampleMem).RunBy (Awaiting 1) (inUnit 1) s 0 s := .zero
    have hfollow := hzero.follow (fun s c t hst => (Option.some.inj hst).symm) ht
    rwa [htotal] at hfollow
  refine ⟨s, t, hs, hrun, answered_within (reachable_of_play hs) ?_ hrun⟩
  rw [haccepted, hanswered]
  decide

end MmuRun
end VentusDriver.Rtl
