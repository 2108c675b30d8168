import Mathlib.Algebra.BigOperators.Ring.Finset
import VentusDriver.Rtl.Answers

/-! How long a request takes. A translation is a fixed number of handshakes between the parts of the
unit, and while host and memory are willing some handshake takes place in every cycle. -/
namespace VentusDriver.Rtl
open Foundation Foundation.TagTable

namespace Walker
variable {Req Entry : Type} {K : WalkerKind Req Entry} {w : Walker Entry} {io : In Req}

/-- The work of a table falls by three for a read that is sent and by one for a response, if this is
what the entries need less after it. -/
theorem work_next {W : Phase → Entry → ℕ} {new last : ℕ} (hidle : ∀ e, W .idle e = 0)
    (hask : ∀ e, W .asking e = W .waiting e + 3) (hnew : ∀ r, W .asking (K.fill r) = new)
    (hlast : ∀ e, W .done e = last)
    (hone : w.hears io = true → ∃ i, (Finset.univ.filter fun i =>
        Answered K.rules (w.moves K io) w.slots i) = {i} ∧ W .waiting (w.entries i) =
        W (K.rules.after (w.entries i)) (K.rules.learn (w.entries i) io.memRsp.bits.addr) + 1) :
    weigh W (w.next K false io).slots + 3 * Multiset.card ((w.memReq K).sent io.memReady) +
        Multiset.card (io.memRsp.sent w.memRspReady) +
        last * Multiset.card ((w.out K).sent io.outReady) =
      weigh W w.slots + new * Multiset.card (io.req.sent w.reqReady) := by
  have h := weigh_cycle K w io W hidle
  have hheard : (∑ i with Answered K.rules (w.moves K io) w.slots i, W .waiting (w.entries i)) =
      (∑ i with Answered K.rules (w.moves K io) w.slots i, W (K.rules.after (w.entries i))
        (K.rules.learn (w.entries i) io.memRsp.bits.addr)) +
        Multiset.card (io.memRsp.sent w.memRspReady) := by
    cases hh : w.hears io with
    | false => simp [answered_empty hh, Decoupled.sent_of_not_fire hh]
    | true =>
      obtain ⟨i, hfilter, hi⟩ := hone hh
      rw [hfilter, Finset.sum_singleton, Finset.sum_singleton, hi, Decoupled.sent_of_fire hh,
        Multiset.card_singleton]
  have hreq : (if w.takes io then W .asking (K.fill io.req.bits) else 0) =
      new * Multiset.card (io.req.sent w.reqReady) := by
    cases ht : w.takes io with
    | false => simp [Decoupled.sent_of_not_fire ht]
    | true => simp [Decoupled.sent_of_fire ht, hnew]
  have hout : (if w.sends K io then W .done (w.entries w.deqPtr) else 0) =
      last * Multiset.card ((w.out K).sent io.outReady) := by
    cases hs : w.sends K io with
    | false => simp [Decoupled.sent_of_not_fire hs]
    | true => simp [Decoupled.sent_of_fire hs, hlast]
  have hmem : (if w.asks K io then W .asking (w.entries (w.memreqArb.port (w.memreqIn K))) else 0) =
      (if w.asks K io then W .waiting (w.entries (w.memreqArb.port (w.memreqIn K))) else 0) +
        3 * Multiset.card ((w.memReq K).sent io.memReady) := by
    cases ha : w.asks K io with
    | false => simp [Decoupled.sent_of_not_fire ha]
    | true => simp [Decoupled.sent_of_fire ha, hask]
  rw [hheard, hreq, hout, hmem] at h
  omega

end Walker

/-- The handshakes that an entry still needs, with those of the read it waits for at the memory port
counted there. -/
def ptwWork : Phase → PtwEntry → ℕ
  | .idle, _ => 0
  | .asking, e => if e.curLevel = 2#2 then 16 else 12
  | .waiting, e => if e.curLevel = 2#2 then 13 else 9
  | .done, _ => 8

def llptwWork : Phase → AddrBits → ℕ
  | .idle, _ => 0
  | .asking, _ => 7
  | .waiting, _ => 4
  | .done, _ => 3

namespace MmuRun
variable {mem : BitVec 64 → BitVec 64} {s : MmuRun} {c : MmuCycle}

/-- The handshakes of the reads that are under way to a walker. -/
def pathWork (s : MmuRun) (port : Bool) : ℕ :=
  2 * Multiset.card (cacheOf s.mmu port).reqFifo.held + Multiset.card (ofPort port s.asked)

/-- The handshakes that the requests in the unit still need. -/
def work (s : MmuRun) : ℕ :=
  18 * Multiset.card s.mmu.tlb.reqFifo.held + 17 * Multiset.card s.mmu.l2tlb.reqFifo.held +
    weigh ptwWork s.mmu.ptw.slots + weigh llptwWork s.mmu.llptw.slots +
    2 * Multiset.card s.mmu.l2tlb.rspFifo.held + Multiset.card s.mmu.tlb.rspFifo.held +
    s.pathWork true + s.pathWork false

/-- The handshakes of a cycle at the memory port of a walker. -/
def pathFires (mem : BitVec 64 → BitVec 64) (s : MmuRun) (c : MmuCycle) (port : Bool) : ℕ :=
  Multiset.card ((cacheOf s.mmu port).req.sent (s.mmu.memReady (input mem c) port)) +
    Multiset.card (ofPort port (s.served mem c))

/-- The handshakes of a cycle. -/
def fires (mem : BitVec 64 → BitVec 64) (s : MmuRun) (c : MmuCycle) : ℕ :=
  Multiset.card (s.mmu.tlb.req.sent s.mmu.l2tlb.reqReady) +
    Multiset.card (s.mmu.l2tlb.req.sent s.mmu.ptw.reqReady) +
    Multiset.card ((s.mmu.ptw.memReq fistLevelPTW).sent s.mmu.pageCache.reqReady) +
    Multiset.card (s.mmu.pageCache.rsp.sent s.mmu.ptw.memRspReady) +
    Multiset.card ((s.mmu.ptw.out fistLevelPTW).sent s.mmu.llptw.reqReady) +
    Multiset.card ((s.mmu.llptw.memReq lastLevelPTW).sent s.mmu.llPageCache.reqReady) +
    Multiset.card (s.mmu.llPageCache.rsp.sent s.mmu.llptw.memRspReady) +
    Multiset.card s.sentLast +
    Multiset.card (s.mmu.l2tlb.rsp.sent s.mmu.tlb.rspReady) +
    Multiset.card (s.delivered c) + s.pathFires mem c true + s.pathFires mem c false

lemma card_queue {α : Type} (q : OneQueue α) (enq : Decoupled α) (ready : Bool) :
    Multiset.card (q.next false enq ready).held + Multiset.card (q.deq.sent ready) =
      Multiset.card q.held + Multiset.card (enq.sent q.enqReady) := by
  rw [← Multiset.card_add, ← Multiset.card_add, q.held_next]

lemma Sound.ptw_work (h : s.Sound mem) :
    weigh ptwWork (s.exec mem c).mmu.ptw.slots +
        3 * Multiset.card ((s.mmu.ptw.memReq fistLevelPTW).sent s.mmu.pageCache.reqReady) +
        Multiset.card (s.mmu.pageCache.rsp.sent s.mmu.ptw.memRspReady) +
        8 * Multiset.card ((s.mmu.ptw.out fistLevelPTW).sent s.mmu.llptw.reqReady) =
      weigh ptwWork s.mmu.ptw.slots +
        16 * Multiset.card (s.mmu.l2tlb.req.sent s.mmu.ptw.reqReady) := by
  refine Walker.work_next (fun _ => rfl) ?_ (fun _ => rfl) (fun _ => rfl) ?_
  · intro e
    simp only [ptwWork]
    split_ifs <;> rfl
  · intro hheard
    obtain ⟨i, hfilter, hi, -⟩ :=
      Walker.answered_eq h.ptw_tags ptw_bits_source (load_source mem) hheard (h.ptw_hears hheard)
    refine ⟨i, hfilter, ?_⟩
    have hlevel := h.level i
    rw [hi] at hlevel
    cases hlevel with
    | inl h1 => simp [ptwWork, fistLevelPTW, h1]
    | inr h2 => simp [ptwWork, fistLevelPTW, h2]

lemma Sound.llptw_work (h : s.Sound mem) :
    weigh llptwWork (s.exec mem c).mmu.llptw.slots +
        3 * Multiset.card ((s.mmu.llptw.memReq lastLevelPTW).sent s.mmu.llPageCache.reqReady) +
        Multiset.card (s.mmu.llPageCache.rsp.sent s.mmu.llptw.memRspReady) +
        3 * Multiset.card s.sentLast =
      weigh llptwWork s.mmu.llptw.slots +
        7 * Multiset.card ((s.mmu.ptw.out fistLevelPTW).sent s.mmu.llptw.reqReady) := by
  refine Walker.work_next (fun _ => rfl) (fun _ => rfl) (fun _ => rfl) (fun _ => rfl) ?_
  intro hheard
  obtain ⟨i, hfilter, -⟩ :=
    Walker.answered_eq h.llptw_tags llptw_bits_source (load_source mem) hheard (h.llptw_hears hheard)
  exact ⟨i, hfilter, rfl⟩

lemma pathWork_exec (honest : s.Honest c) {port walkerReady : Bool} {walkerReq : Decoupled AddrBits}
    (hcache : cacheOf (s.exec mem c).mmu port = (cacheOf s.mmu port).next false walkerReq
      (s.mmu.memReady (input mem c) port) (MMUMemArbiter.rspOut (input mem c).memRsp port) walkerReady) :
    (s.exec mem c).pathWork port + s.pathFires mem c port =
      s.pathWork port + 2 * Multiset.card (walkerReq.sent (cacheOf s.mmu port).reqReady) := by
  have hqueue := card_queue (cacheOf s.mmu port).reqFifo walkerReq (s.mmu.memReady (input mem c) port)
  have hasked := congrArg (fun m => Multiset.card (ofPort port m)) (@asked_exec mem s c honest)
  have htaken := congrArg Multiset.card (@taken_port mem s c port)
  simp only [ofPort_add, Multiset.card_add, Multiset.card_map] at hasked htaken
  rw [pathWork, hcache, pathWork, pathFires]
  simp only [Relay.next, Relay.req, Relay.reqReady] at *
  omega

/-- A translation takes eighteen handshakes. -/
theorem Sound.work_exec (h : s.Sound mem) (honest : s.Honest c) :
    (s.exec mem c).work + s.fires mem c =
      s.work + 18 * Multiset.card (c.mmuReq.sent s.mmu.mmuReqReady) := by
  have h1 : Multiset.card (s.exec mem c).mmu.tlb.reqFifo.held +
      Multiset.card (s.mmu.tlb.req.sent s.mmu.l2tlb.reqReady) =
      Multiset.card s.mmu.tlb.reqFifo.held + Multiset.card (c.mmuReq.sent s.mmu.mmuReqReady) :=
    card_queue ..
  have h2 : Multiset.card (s.exec mem c).mmu.l2tlb.reqFifo.held +
      Multiset.card (s.mmu.l2tlb.req.sent s.mmu.ptw.reqReady) =
      Multiset.card s.mmu.l2tlb.reqFifo.held +
        Multiset.card (s.mmu.tlb.req.sent s.mmu.l2tlb.reqReady) := card_queue ..
  have h3 := h.ptw_work (c := c)
  have h4 := h.llptw_work (c := c)
  have h5 : Multiset.card (s.exec mem c).mmu.l2tlb.rspFifo.held +
      Multiset.card (s.mmu.l2tlb.rsp.sent s.mmu.tlb.rspReady) =
      Multiset.card s.mmu.l2tlb.rspFifo.held + Multiset.card s.sentLast := card_queue ..
  have h6 : Multiset.card (s.exec mem c).mmu.tlb.rspFifo.held + Multiset.card (s.delivered c) =
      Multiset.card s.mmu.tlb.rspFifo.held + Multiset.card (s.mmu.l2tlb.rsp.sent s.mmu.tlb.rspReady) :=
    card_queue ..
  have h7 : (s.exec mem c).pathWork true + s.pathFires mem c true = s.pathWork true +
      2 * Multiset.card ((s.mmu.ptw.memReq fistLevelPTW).sent s.mmu.pageCache.reqReady) :=
    pathWork_exec honest rfl
  have h8 : (s.exec mem c).pathWork false + s.pathFires mem c false = s.pathWork false +
      2 * Multiset.card ((s.mmu.llptw.memReq lastLevelPTW).sent s.mmu.llPageCache.reqReady) :=
    pathWork_exec honest rfl
  rw [work, work, fires]
  omega

/-! ### Progress -/

/-- Host and memory take what they are offered, and memory offers a response while it owes one. -/
structure Willing (s : MmuRun) (c : MmuCycle) : Prop where
  host : c.mmuRspReady = true
  memory : c.memReqReady = true
  response : s.asked ≠ 0 → c.memRsp.valid = true

lemma valid_of_card {α : Type*} {d : Decoupled α} {ready : Bool} (hready : ready = true)
    (h : Multiset.card (d.sent ready) = 0) : d.valid = false := by
  cases hv : d.valid with
  | false => rfl
  | true => simp [Decoupled.card_sent, Decoupled.fire, hready, hv] at h

/-- A response that waits in a page cache is taken: some entry of the walker waits for it. -/
lemma rsp_empty {Req Entry : Type} {K : WalkerKind Req Entry} {w : Walker Entry} {cache : PageCache}
    {asked : Multiset MemReqBits} {port : Bool}
    (hpath : Walker.awaited K (load mem) w = underway mem cache asked port)
    (h : Multiset.card (cache.rsp.sent w.memRspReady) = 0) : cache.rspFifo.maybeFull = false := by
  by_contra hfull
  have hvalid : cache.rsp.valid = true := Bool.eq_true_of_not_eq_false hfull
  have hmem : cache.rsp.bits ∈ underway mem cache asked port :=
    @rsp_awaited mem cache asked port true (by simp [Decoupled.fire, hvalid])
  rw [← hpath] at hmem
  obtain ⟨i, hi, -⟩ := Walker.mem_awaited.mp hmem
  have hempty := valid_of_card (Walker.memRspReady_iff.mpr ⟨i, hi⟩) h
  simp [hvalid] at hempty

lemma served_zero (h : ∀ port, Multiset.card (ofPort port (s.served mem c)) = 0) :
    s.served mem c = 0 := by
  refine Multiset.eq_zero_of_forall_notMem fun r hr => ?_
  have hport : r ∈ ofPort (MMUMemArbiter.portOf r.source) (s.served mem c) :=
    Multiset.mem_filter.mpr ⟨hr, rfl⟩
  rw [Multiset.card_eq_zero.mp (h _)] at hport
  exact Multiset.notMem_zero r hport

/-- A memory that owes a response and may not hand it over finds the page cache full. -/
lemma Willing.asked_zero (hwill : s.Willing c) (hserved : s.served mem c = 0)
    (hempty1 : s.mmu.pageCache.rspFifo.maybeFull = false)
    (hempty0 : s.mmu.llPageCache.rspFifo.maybeFull = false) : s.asked = 0 := by
  by_contra hne
  have hvalid := hwill.response hne
  have hready : s.mmu.memRspReady (loadPort mem c.memRsp.bits) = true := by
    simp [MMU.memRspReady, MMUMemArbiter.rspReady, Relay.rspReady, OneQueue.enqReady, hempty1, hempty0]
  rw [served, Decoupled.sent_of_fire (by simp [Decoupled.fire, hready, hvalid])] at hserved
  exact absurd hserved (Multiset.singleton_ne_zero _)

/-- A walker without work to do is idle. -/
lemma idle_of_still {Req Entry : Type} {K : WalkerKind Req Entry} {w : Walker Entry}
    (hask : (w.memReq K).valid = false) (hwait : Walker.awaited K (load mem) w = 0)
    (hout : (w.out K).valid = false) (i : Fin 4) : w.state i = .idle := by
  cases hs : w.state i with
  | idle => rfl
  | asking => simp [Walker.memReq_valid.mpr ⟨i, hs⟩] at hask
  | waiting =>
    have hmem : load mem (K.bits (w.entries i)) ∈ Walker.awaited K (load mem) w :=
      Walker.mem_awaited.mpr ⟨i, hs, rfl⟩
    rw [hwait] at hmem
    exact absurd hmem (Multiset.notMem_zero _)
  | done => simp [Walker.out_valid.mpr ⟨i, hs⟩] at hout

/-- While host and memory are willing, the unit stands still only when it is empty. -/
theorem Sound.drained_of_still (h : s.Sound mem) (hwill : s.Willing c) (hstill : s.fires mem c = 0) :
    s.mmu.Drained := by
  simp only [fires, pathFires, Nat.add_eq_zero_iff] at hstill
  obtain ⟨⟨⟨⟨⟨⟨⟨⟨⟨⟨⟨htlb, hl2⟩, hask1⟩, hrsp1⟩, hll⟩, hask0⟩, hrsp0⟩, hlast⟩, hback⟩, hhost⟩,
    hreq1, hserved1⟩, hreq0, hserved0⟩ := hstill
  have hrspTlb : s.mmu.tlb.rspFifo.maybeFull = false := valid_of_card hwill.host hhost
  have hrspL2 : s.mmu.l2tlb.rspFifo.maybeFull = false :=
    valid_of_card (by simp [Relay.rspReady, OneQueue.enqReady, hrspTlb]) hback
  have hempty1 := rsp_empty h.upper hrsp1
  have hempty0 := rsp_empty h.last hrsp0
  have hserved : s.served mem c = 0 := served_zero fun port => by
    cases port with
    | true => exact hserved1
    | false => exact hserved0
  have hasked := hwill.asked_zero hserved hempty1 hempty0
  have hfull0 : s.mmu.llPageCache.reqFifo.maybeFull = false := valid_of_card hwill.memory hreq0
  have hfull1 : s.mmu.pageCache.reqFifo.maybeFull = false := by
    refine valid_of_card ?_ hreq1
    simp [MMU.memReady, MMUMemArbiter.reqReady, Relay.req, hfull0, input, hwill.memory]
  -- no read is under way, so no entry waits
  have hwait1 : Walker.awaited fistLevelPTW (load mem) s.mmu.ptw = 0 := by
    rw [h.upper, underway_eq, hasked, (OneQueue.held_eq_zero _).mpr hfull1,
      (OneQueue.held_eq_zero _).mpr hempty1]
    rfl
  have hwait0 : Walker.awaited lastLevelPTW (load mem) s.mmu.llptw = 0 := by
    rw [h.last, underway_eq, hasked, (OneQueue.held_eq_zero _).mpr hfull0,
      (OneQueue.held_eq_zero _).mpr hempty0]
    rfl
  have hllptw : ∀ i, s.mmu.llptw.state i = .idle := by
    refine idle_of_still (valid_of_card ?_ hask0) hwait0 (valid_of_card ?_ hlast)
    · simp [Relay.reqReady, OneQueue.enqReady, hfull0]
    · simp [Relay.rspReady, OneQueue.enqReady, hrspL2]
  have hptw : ∀ i, s.mmu.ptw.state i = .idle := by
    refine idle_of_still (valid_of_card ?_ hask1) hwait1 (valid_of_card ?_ hll)
    · simp [Relay.reqReady, OneQueue.enqReady, hfull1]
    · exact Walker.reqReady_iff.mpr ⟨0, hllptw 0⟩
  have hreqL2 : s.mmu.l2tlb.reqFifo.maybeFull = false :=
    valid_of_card (Walker.reqReady_iff.mpr ⟨0, hptw 0⟩) hl2
  have hreqTlb : s.mmu.tlb.reqFifo.maybeFull = false :=
    valid_of_card (by simp [Relay.reqReady, OneQueue.enqReady, hreqL2]) htlb
  exact ⟨⟨hreqTlb, hrspTlb⟩, ⟨hreqL2, hrspL2⟩, hptw, hllptw⟩

/-! ### The bound -/

/-- Work and awaited responses are bounded by the tags in use. -/
lemma weigh_le_tags {Req Entry : Type} {K : WalkerKind Req Entry} {w : Walker Entry}
    {ans : AddrBits → AddrBits} {W : Phase → Entry → ℕ} {bound : ℕ}
    (h : ∀ p e, W p e + 2 * Multiset.card (Walker.awaitOf K ans p e) ≤
      bound * Multiset.card (Walker.tagsOf K p e)) :
    weigh W w.slots + 2 * Multiset.card (Walker.awaited K ans w) ≤
      bound * Multiset.card (Walker.tags K w) := by
  rw [Walker.awaited, Walker.tags, weigh, weigh, weigh, Multiset.card_sum, Multiset.card_sum,
    Finset.mul_sum, Finset.mul_sum, ← Finset.sum_add_distrib]
  exact Finset.sum_le_sum fun i _ => h _ _

lemma pathWork_le (port : Bool) :
    s.pathWork port ≤ 2 * Multiset.card (underway mem (cacheOf s.mmu port) s.asked port) := by
  rw [underway_eq, pathWork]
  simp only [Multiset.card_add, Multiset.card_map]
  omega

/-- Each request in the unit needs at most eighteen handshakes. -/
theorem Sound.work_le (h : s.Sound mem) : s.work ≤ 18 * Multiset.card s.mmu.tags := by
  have hupper := @pathWork_le mem s true
  have hlast := @pathWork_le mem s false
  have hptw : weigh ptwWork s.mmu.ptw.slots +
      2 * Multiset.card (Walker.awaited fistLevelPTW (load mem) s.mmu.ptw) ≤
      16 * Multiset.card (Walker.tags fistLevelPTW s.mmu.ptw) := by
    refine weigh_le_tags fun p e => ?_
    cases p <;> simp [ptwWork, Walker.awaitOf, Walker.tagsOf] <;> split_ifs <;> norm_num
  have hllptw : weigh llptwWork s.mmu.llptw.slots +
      2 * Multiset.card (Walker.awaited lastLevelPTW (load mem) s.mmu.llptw) ≤
      7 * Multiset.card (Walker.tags lastLevelPTW s.mmu.llptw) := by
    refine weigh_le_tags fun p e => ?_
    cases p <;> simp [llptwWork, Walker.awaitOf, Walker.tagsOf]
  have h1 : Multiset.card (underway mem (cacheOf s.mmu true) s.asked true) =
      Multiset.card (Walker.awaited fistLevelPTW (load mem) s.mmu.ptw) := by rw [h.upper]; rfl
  have h0 : Multiset.card (underway mem (cacheOf s.mmu false) s.asked false) =
      Multiset.card (Walker.awaited lastLevelPTW (load mem) s.mmu.llptw) := by rw [h.last]; rfl
  simp only [MMU.tags, Multiset.card_add, Multiset.card_map]
  rw [work]
  omega

/-- The requests in the unit are those that have no answer yet. -/
lemma Sound.card_tags (h : s.Sound mem) :
    Multiset.card s.mmu.tags = Multiset.card s.accepted - Multiset.card s.answered := by
  have hbooks := congrArg Multiset.card h.books
  have htags := congrArg Multiset.card (@held_tags mem s.mmu)
  rw [Multiset.card_map, Multiset.card_add] at hbooks
  rw [Multiset.card_map] at htags
  omega

lemma idle_of_weigh {Entry : Type} {w : Walker Entry} {W : Phase → Entry → ℕ}
    (hpos : ∀ p e, p ≠ .idle → 0 < W p e) (h : weigh W w.slots = 0) (i : Fin 4) : w.state i = .idle := by
  by_contra hne
  have hzero := Finset.sum_eq_zero_iff.mp h i (Finset.mem_univ i)
  exact absurd hzero (hpos _ _ hne).ne'

lemma weigh_of_idle {Entry : Type} {w : Walker Entry} {W : Phase → Entry → ℕ}
    (hidle : ∀ e, W .idle e = 0) (h : ∀ i, w.state i = .idle) : weigh W w.slots = 0 :=
  Finset.sum_eq_zero fun i _ => by simp [Walker.slots, h i, hidle]

lemma weigh_awaited_idle {Req Entry : Type} {K : WalkerKind Req Entry} {w : Walker Entry}
    {ans : AddrBits → AddrBits} (h : ∀ i, w.state i = .idle) : Walker.awaited K ans w = 0 := by
  rw [Walker.awaited, weigh]
  refine Finset.sum_eq_zero fun i _ => ?_
  rw [Walker.slots, h i]
  rfl

/-- The work is done exactly when the unit is empty. -/
theorem Sound.work_eq_zero (h : s.Sound mem) : s.work = 0 ↔ s.mmu.Drained := by
  constructor
  · intro hwork
    simp only [work, Nat.add_eq_zero_iff, Nat.mul_eq_zero, Multiset.card_eq_zero,
      OneQueue.held_eq_zero] at hwork
    obtain ⟨⟨⟨⟨⟨⟨⟨htlb, hl2⟩, hptw⟩, hllptw⟩, hrspL2⟩, hrspTlb⟩, -⟩, -⟩ := hwork
    refine ⟨⟨by simpa using htlb, hrspTlb⟩, ⟨by simpa using hl2, by simpa using hrspL2⟩, ?_, ?_⟩
    · refine idle_of_weigh (fun p e hp => ?_) hptw
      cases p <;> simp_all [ptwWork]
      all_goals split_ifs <;> norm_num
    · refine idle_of_weigh (fun p e hp => ?_) hllptw
      cases p <;> simp_all [llptwWork]
  · intro hdrained
    have hupper := @pathWork_le mem s true
    have hlast := @pathWork_le mem s false
    have h1 : underway mem (cacheOf s.mmu true) s.asked true = 0 :=
      h.upper.symm.trans (weigh_awaited_idle hdrained.ptw)
    have h0 : underway mem (cacheOf s.mmu false) s.asked false = 0 :=
      h.last.symm.trans (weigh_awaited_idle hdrained.llptw)
    rw [h1] at hupper
    rw [h0] at hlast
    rw [work, (OneQueue.held_eq_zero _).mpr hdrained.tlb.1, (OneQueue.held_eq_zero _).mpr hdrained.l2tlb.1,
      (OneQueue.held_eq_zero _).mpr hdrained.tlb.2, (OneQueue.held_eq_zero _).mpr hdrained.l2tlb.2,
      weigh_of_idle (fun _ => rfl) hdrained.ptw, weigh_of_idle (fun _ => rfl) hdrained.llptw]
    simp only [Multiset.card_zero] at hupper hlast ⊢
    omega

/-- Cycles in which no request comes and host and memory are willing. -/
def Draining (s : MmuRun) (c : MmuCycle) : Prop :=
  s.FairReady c ∧ s.Willing c ∧ c.mmuReq.valid = false

/-- Such a cycle does some of the work that is left. -/
lemma Sound.draining_step (h : s.Sound mem) (hc : s.Draining c) : (s.exec mem c).work ≤ s.work - 1 := by
  have hwork := h.work_exec hc.1.1.1
  have hnone : c.mmuReq.sent s.mmu.mmuReqReady = 0 :=
    Decoupled.sent_of_not_fire (by simp [Decoupled.fire, hc.2.2])
  rw [hnone, Multiset.card_zero] at hwork
  rcases Nat.eq_zero_or_pos (s.fires mem c) with hstill | hfires
  · have hzero := h.work_eq_zero.mpr (h.drained_of_still hc.2.1 hstill)
    omega
  · omega

/-- Within eighteen cycles for each request without an answer, in which no request comes and host and
memory are willing, the unit answers all of them. -/
theorem drained_within {t : MmuRun} {n : ℕ} (h : (mmuSystem mem).ReachableBy FairReady s)
    (hrun : (mmuSystem mem).RunBy Draining (fun _ _ => 1) s n t)
    (hn : 18 * (Multiset.card s.accepted - Multiset.card s.answered) ≤ n) :
    t.mmu.Drained ∧ t.answered = t.accepted.map (answer mem) := by
  have hs := sound_of_ready h
  obtain ⟨ht, hrank⟩ := hrun.rank_le (I := fun s => s.Sound mem ∧ s.Brisk)
    (fun s c t hs hc hstep => by
      rw [hstep]
      exact ⟨⟨hs.1.exec hc.1.1 hs.2.inOrder, hs.2.exec hs.1 hc.1.2⟩, hs.1.draining_step hc⟩) hs
  have hbound := hs.1.work_le
  rw [hs.1.card_tags] at hbound
  have hdrained := ht.1.work_eq_zero.mp (by omega)
  exact ⟨hdrained, ht.1.answers.2 hdrained⟩

instance (s : MmuRun) (c : MmuCycle) : Decidable (s.Willing c) :=
  decidable_of_iff (c.mmuRspReady = true ∧ c.memReqReady = true ∧ (s.asked ≠ 0 → c.memRsp.valid = true))
    ⟨fun h => ⟨h.1, h.2.1, h.2.2⟩, fun h => ⟨h.host, h.memory, h.response⟩⟩

instance (s : MmuRun) (c : MmuCycle) : Decidable (s.Draining c) := inferInstanceAs (Decidable (_ ∧ _))

theorem oneWalk_drained : ∃ s t, play FairReady (oneWalk.take 1) = some s ∧ s.accepted = {⟨0, 1, 1⟩} ∧
    (mmuSystem sampleMem).RunBy Draining (fun _ _ => 1) s 18 t ∧ t.mmu.Drained ∧
    t.answered = t.accepted.map (answer sampleMem) := by
  have hplay : ((play FairReady (oneWalk.take 1)).map fun s =>
      (s.accepted, s.answered)) = some ({⟨0, 1, 1⟩}, 0) := by decide +kernel
  obtain ⟨s, hs, hbooks⟩ := Option.map_eq_some_iff.mp hplay
  obtain ⟨haccepted, hanswered⟩ := Prod.mk.inj hbooks
  have hrest : ((play FairReady (oneWalk.take 1)).bind fun s =>
      (TransitionSystem.follow Draining (fun s c => some (s.exec sampleMem c)) (oneWalk.drop 1) s).map fun _ =>
        TransitionSystem.total (fun _ _ => 1) (fun s c => some (s.exec sampleMem c)) (oneWalk.drop 1) s) =
      some 18 := by decide +kernel
  rw [hs, Option.bind_some] at hrest
  obtain ⟨t, ht, htotal⟩ := Option.map_eq_some_iff.mp hrest
  have hrun : (mmuSystem sampleMem).RunBy Draining (fun _ _ => 1) s 18 t := by
    have hzero : (mmuSystem sampleMem).RunBy Draining (fun _ _ => 1) s 0 s := .zero
    have hfollow := hzero.follow (fun s c t hst => (Option.some.inj hst).symm) ht
    rwa [htotal] at hfollow
  refine ⟨s, t, hs, haccepted, hrun, drained_within (reachable_of_play hs) hrun ?_⟩
  rw [haccepted, hanswered]
  decide

/-! ### Whole runs -/

/-- What is left to do changes by eighteen handshakes for each request, less those of the run. -/
lemma work_run {t : MmuRun} {n : ℕ} (h : s.Sound mem)
    (hrun : (mmuSystem mem).RunBy FairInOrder (fires mem) s n t) : t.Sound mem ∧
    t.work + n + 18 * Multiset.card s.accepted = s.work + 18 * Multiset.card t.accepted := by
  induction hrun with
  | zero => exact ⟨h, rfl⟩
  | @succ n t u c run allowed taken ih =>
    obtain ⟨ht, hwork⟩ := ih
    have hstep := ht.work_exec (c := c) allowed.1.1
    have haccepted : Multiset.card (t.exec mem c).accepted = Multiset.card t.accepted +
        Multiset.card (c.mmuReq.sent t.mmu.mmuReqReady) := Multiset.card_add _ _
    rw [taken]
    refine ⟨ht.exec allowed.1 allowed.2, ?_⟩
    omega

/-- From one state in which the unit is empty to another, every translation takes eighteen
handshakes. -/
theorem handshakes_between {t : MmuRun} {n : ℕ} (h : (mmuSystem mem).ReachableBy FairInOrder s)
    (hrun : (mmuSystem mem).RunBy FairInOrder (fires mem) s n t) (hs : s.mmu.Drained)
    (ht : t.mmu.Drained) :
    n + 18 * Multiset.card s.accepted = 18 * Multiset.card t.accepted := by
  have hsound := sound_of_inOrder h
  obtain ⟨htsound, hwork⟩ := work_run hsound hrun
  rw [hsound.work_eq_zero.mpr hs, htsound.work_eq_zero.mpr ht] at hwork
  omega

instance (u : MMU) : Decidable u.Drained :=
  decidable_of_iff ((u.tlb.reqFifo.maybeFull = false ∧ u.tlb.rspFifo.maybeFull = false) ∧
      (u.l2tlb.reqFifo.maybeFull = false ∧ u.l2tlb.rspFifo.maybeFull = false) ∧
      (∀ i, u.ptw.state i = .idle) ∧ ∀ i, u.llptw.state i = .idle)
    ⟨fun h => ⟨h.1, h.2.1, h.2.2.1, h.2.2.2⟩, fun h => ⟨h.tlb, h.l2tlb, h.ptw, h.llptw⟩⟩

theorem oneWalk_handshakes : ∃ t n, (mmuSystem sampleMem).RunBy FairInOrder (fires sampleMem) start n t ∧
    Multiset.card t.accepted = 1 ∧ n + 18 * 0 = 18 * Multiset.card t.accepted := by
  have hplay : ((play FairInOrder oneWalk).map fun t =>
      (decide t.mmu.Drained, Multiset.card t.accepted)) = some (true, 1) := by decide +kernel
  obtain ⟨t, ht, hend⟩ := Option.map_eq_some_iff.mp hplay
  obtain ⟨hdrained, hcard⟩ := Prod.mk.inj hend
  have hzero : (mmuSystem sampleMem).RunBy FairInOrder (fires sampleMem) start 0 start := .zero
  have hrun := hzero.follow (fun s c t hst => (Option.some.inj hst).symm) ht
  exact ⟨t, _, hrun, hcard, handshakes_between (.start ⟨powerUp, _, rfl⟩) hrun (by decide)
    (of_decide_eq_true hdrained)⟩

end MmuRun
end VentusDriver.Rtl
