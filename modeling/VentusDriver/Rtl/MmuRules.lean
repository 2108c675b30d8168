import VentusDriver.Rtl.MmuRun

/-! One cycle of the memory management unit. The sums of what its parts hold change by what passes
between them, so what the unit holds changes by what passes its ports. -/
namespace VentusDriver.Rtl
open Foundation Foundation.TagTable

section Tags

lemma ptw_bits_source (e : PtwEntry) : (fistLevelPTW.bits e).source = fistLevelPTW.rules.tag e := rfl

lemma llptw_bits_source (e : AddrBits) : (lastLevelPTW.bits e).source = lastLevelPTW.rules.tag e := rfl

lemma ptw_after_ne (e : PtwEntry) : fistLevelPTW.rules.after e ≠ .waiting := by
  simp only [fistLevelPTW]
  split_ifs <;> simp

lemma llptw_after_ne (e : AddrBits) : lastLevelPTW.rules.after e ≠ .waiting := by
  simp [lastLevelPTW]

/-- Four tags are all there are. -/
lemma card_le_of_nodup {m : Multiset (BitVec 2)} (h : m.Nodup) : Multiset.card m ≤ 4 := by
  have hfin : (m.map BitVec.toFin).Nodup :=
    h.map fun a b hab => BitVec.eq_of_toFin_eq hab
  have hcard := Finset.card_le_univ (⟨m.map BitVec.toFin, hfin⟩ : Finset (Fin (2 ^ 2)))
  simpa using hcard

/-- A walker with four entries in use holds four answers. -/
lemma card_tags_of_full {Req Entry : Type} {K : WalkerKind Req Entry} {w : Walker Entry}
    (h : w.reqReady = false) : Multiset.card (Walker.tags K w) = 4 := by
  have hbusy : ∀ i, w.state i ≠ .idle := fun i hi => by
    have := Walker.reqReady_iff.mpr ⟨i, hi⟩
    simp [h] at this
  have hone : ∀ i, Multiset.card (Walker.tagsOf K (w.slots i).phase (w.slots i).entry) = 1 := fun i => by
    have := hbusy i
    cases hs : w.state i <;> simp_all [Walker.slots, Walker.tagsOf]
  rw [Walker.tags, weigh, Multiset.card_sum]
  simp [hone]

end Tags

section Load
variable (mem : BitVec 64 → BitVec 64)

@[simp] lemma load_source (b : AddrBits) : (load mem b).source = b.source := rfl

@[simp] lemma answer_source (r : TlbBits) : (answer mem r).source = r.source := rfl

@[simp] lemma ptwAnswer_source (e : PtwEntry) : (ptwAnswer mem e).source = e.source := rfl

/-- An entry at the last port stands for the leaf at the address it sends. -/
lemma ptwAnswer_done {e : PtwEntry} (h : e.curLevel = 0#2) :
    ptwAnswer mem e = load mem (fistLevelPTW.bits e) := by
  simp [ptwAnswer, load, fistLevelPTW, h, walkFrom]

/-- A response takes an entry one level down the same walk. -/
lemma ptwAnswer_learn {e : PtwEntry} (h : e.curLevel = 1#2 ∨ e.curLevel = 2#2) :
    ptwAnswer mem (fistLevelPTW.rules.learn e (mem (fistLevelPTW.bits e).addr)) = ptwAnswer mem e := by
  cases h with
  | inl h => simp [ptwAnswer, fistLevelPTW, h, walkFrom]
  | inr h => simp [ptwAnswer, fistLevelPTW, h, walkFrom]

end Load

/-- What passes from one part to the next cancels out. -/
lemma telescope {M : Type*} [AddCancelCommMonoid M] {x₁ x₂ y₁ y₂ a m b : M} (h₁ : y₁ + m = x₁ + a)
    (h₂ : y₂ + b = x₂ + m) : y₁ + y₂ + b = x₁ + x₂ + a := by
  refine add_right_cancel (b := m) ?_
  calc y₁ + y₂ + b + m = (y₁ + m) + (y₂ + b) := by abel
    _ = (x₁ + a) + (x₂ + m) := by rw [h₁, h₂]
    _ = x₁ + x₂ + a + m := by abel

lemma rejoin {M : Type*} [AddCommMonoid M] {x x₁ x₂ y y₁ y₂ a b g e : M} (h : y + g = x + a)
    (h' : y₁ + y₂ + b = x₁ + x₂ + e) : y + y₁ + y₂ + b + g = x + x₁ + x₂ + a + e := by
  calc y + y₁ + y₂ + b + g = (y + g) + (y₁ + y₂ + b) := by abel
    _ = (x + a) + (x₁ + x₂ + e) := by rw [h, h']
    _ = x + x₁ + x₂ + a + e := by abel

/-- The tags of the requests in the unit. -/
def MMU.tags (u : MMU) : Multiset (BitVec 2) :=
  u.tlb.reqFifo.held.map TlbBits.source + u.l2tlb.reqFifo.held.map TlbBits.source +
    Walker.tags fistLevelPTW u.ptw + Walker.tags lastLevelPTW u.llptw +
    u.l2tlb.rspFifo.held.map AddrBits.source + u.tlb.rspFifo.held.map AddrBits.source

lemma MMU.walkerTags_le (u : MMU) :
    Walker.tags fistLevelPTW u.ptw + Walker.tags lastLevelPTW u.llptw ≤ u.tags := by
  refine le_trans ?_ (Multiset.le_add_right _ _)
  refine le_trans ?_ (Multiset.le_add_right _ _)
  rw [add_assoc]
  exact Multiset.le_add_left _ _

namespace MmuRun
variable {mem : BitVec 64 → BitVec 64} {s : MmuRun} {c : MmuCycle}

lemma held_tags (u : MMU) : (held mem u).map AddrBits.source = u.tags := by
  rw [MMU.tags]
  rw [← Walker.map_source_tokens (K := fistLevelPTW) (ptwAnswer_source mem) (ptwAnswer_source mem),
    ← Walker.map_source_tokens (K := lastLevelPTW) (D := id) (load_source mem) (fun _ => rfl)]
  simp only [held, Multiset.map_add, Multiset.map_map]
  rfl

lemma Sound.tags_nodup (h : s.Sound mem) : s.mmu.tags.Nodup := by
  have hnodup := h.distinct
  rwa [held_tags] at hnodup

lemma Sound.ptw_tags (h : s.Sound mem) : (Walker.tags fistLevelPTW s.mmu.ptw).Nodup := by
  refine Multiset.nodup_of_le ?_ h.tags_nodup
  exact (Multiset.le_add_left _ _).trans ((Multiset.le_add_right _ _).trans
    ((Multiset.le_add_right _ _).trans (Multiset.le_add_right _ _)))

lemma Sound.llptw_tags (h : s.Sound mem) : (Walker.tags lastLevelPTW s.mmu.llptw).Nodup := by
  refine Multiset.nodup_of_le ?_ h.tags_nodup
  exact (Multiset.le_add_left _ _).trans ((Multiset.le_add_right _ _).trans
    (Multiset.le_add_right _ _))

/-- What a page cache hands to its walker is awaited there. -/
lemma rsp_awaited {cache : PageCache} {asked : Multiset MemReqBits} {port ready : Bool}
    (hfire : cache.rsp.fire ready = true) : cache.rsp.bits ∈ underway mem cache asked port := by
  have hheld : cache.rsp.bits ∈ cache.rspFifo.held := by
    rw [OneQueue.mem_held]
    exact ⟨(Bool.and_eq_true_iff.mp hfire).2, rfl⟩
  exact Multiset.mem_add.mpr (.inr hheld)

lemma Sound.ptw_hears (h : s.Sound mem) (hheard : s.mmu.ptw.hears s.mmu.ptwIn = true) :
    s.mmu.ptwIn.memRsp.bits ∈ Walker.awaited fistLevelPTW (load mem) s.mmu.ptw :=
  h.upper ▸ rsp_awaited hheard

lemma Sound.llptw_hears (h : s.Sound mem) (hheard : s.mmu.llptw.hears s.mmu.llptwIn = true) :
    s.mmu.llptwIn.memRsp.bits ∈ Walker.awaited lastLevelPTW (load mem) s.mmu.llptw :=
  h.last ▸ rsp_awaited hheard

/-- A response reaches the entry that asked for it. -/
lemma Sound.ptw_hit (h : s.Sound mem) {i : Fin 4} (hheard : s.mmu.ptw.hears s.mmu.ptwIn = true)
    (hhit : s.mmu.ptw.hit fistLevelPTW s.mmu.ptwIn i = true) : s.mmu.ptw.state i = .waiting ∧
      s.mmu.ptwIn.memRsp.bits = load mem (fistLevelPTW.bits (s.mmu.ptw.entries i)) := by
  obtain ⟨hi, hb⟩ := Walker.hit_data h.ptw_tags ptw_bits_source (load_source mem) h.ptw_hears hheard hhit
  exact ⟨hi, hb.symm⟩

lemma Sound.llptw_hit (h : s.Sound mem) {i : Fin 4} (hheard : s.mmu.llptw.hears s.mmu.llptwIn = true)
    (hhit : s.mmu.llptw.hit lastLevelPTW s.mmu.llptwIn i = true) : s.mmu.llptw.state i = .waiting ∧
      s.mmu.llptwIn.memRsp.bits = load mem (s.mmu.llptw.entries i) := by
  obtain ⟨hi, hb⟩ :=
    Walker.hit_data h.llptw_tags llptw_bits_source (load_source mem) h.llptw_hears hheard hhit
  exact ⟨hi, hb.symm⟩

/-- The upper walker gives up what it sends: no other entry is at its last port. -/
lemma Sound.ptw_port (h : s.Sound mem) (hsend : s.mmu.ptw.sends fistLevelPTW s.mmu.ptwIn = true) :
    s.mmu.ptw.deqPtr = s.mmu.ptw.outArb.port (s.mmu.ptw.outIn fistLevelPTW) :=
  h.single _ _ (Walker.state_deqPtr hsend) (Walker.state_outPort hsend)

/-- The answers in the upper walker. -/
theorem Sound.ptw_tokens (h : s.Sound mem) :
    Walker.tokens (ptwAnswer mem) (ptwAnswer mem) (s.exec mem c).mmu.ptw +
        ((s.mmu.ptw.out fistLevelPTW).sent s.mmu.llptw.reqReady).map (load mem) =
      Walker.tokens (ptwAnswer mem) (ptwAnswer mem) s.mmu.ptw +
        (s.mmu.l2tlb.req.sent s.mmu.ptw.reqReady).map (answer mem) := by
  have hlearn : ∀ i, s.mmu.ptw.hears s.mmu.ptwIn = true →
      s.mmu.ptw.hit fistLevelPTW s.mmu.ptwIn i = true →
      Walker.tokenOf (ptwAnswer mem) (ptwAnswer mem) (fistLevelPTW.rules.after (s.mmu.ptw.entries i))
        (fistLevelPTW.rules.learn (s.mmu.ptw.entries i) s.mmu.ptwIn.memRsp.bits.addr) =
        {ptwAnswer mem (s.mmu.ptw.entries i)} := by
    intro i hheard hhit
    obtain ⟨hi, hb⟩ := h.ptw_hit hheard hhit
    have hlevel := h.level i
    rw [hi] at hlevel
    have hsame := ptwAnswer_learn mem hlevel
    rw [hb, ← hsame]
    cases hph : fistLevelPTW.rules.after (s.mmu.ptw.entries i) with
    | idle => simp only [fistLevelPTW] at hph; split_ifs at hph
    | asking => rfl
    | waiting => exact absurd hph (ptw_after_ne _)
    | done => rfl
  have hsend : s.mmu.ptw.sends fistLevelPTW s.mmu.ptwIn = true →
      ptwAnswer mem (s.mmu.ptw.entries s.mmu.ptw.deqPtr) =
        load mem (s.mmu.ptw.out fistLevelPTW).bits := by
    intro hs
    have hlevel := h.level s.mmu.ptw.deqPtr
    rw [Walker.state_deqPtr hs] at hlevel
    rw [ptwAnswer_done mem hlevel, h.ptw_port hs]
    rfl
  have htokens := Walker.tokens_next (D := ptwAnswer mem) hlearn
  rwa [Walker.given_eq hsend] at htokens

/-- What the last walker gives up. -/
def given (s : MmuRun) : Multiset AddrBits :=
  if s.mmu.llptw.sends lastLevelPTW s.mmu.llptwIn then {s.mmu.llptw.entries s.mmu.llptw.deqPtr} else 0

/-- What the last walker sends. -/
def sentLast (s : MmuRun) : Multiset AddrBits :=
  (s.mmu.llptw.out lastLevelPTW).sent s.mmu.l2tlb.rspReady

lemma given_of_inOrder (horder : s.RspInOrder c) : s.given = s.sentLast := by
  have hgiven := Walker.given_eq (K := lastLevelPTW) (w := s.mmu.llptw) (D := id) (E := id)
    fun hsend => congrArg s.mmu.llptw.entries (horder hsend)
  rwa [Multiset.map_id] at hgiven

/-- The answers in the walker of the last level. -/
theorem Sound.llptw_tokens (h : s.Sound mem) :
    Walker.tokens (load mem) id (s.exec mem c).mmu.llptw + s.given =
      Walker.tokens (load mem) id s.mmu.llptw +
        ((s.mmu.ptw.out fistLevelPTW).sent s.mmu.llptw.reqReady).map (load mem) := by
  have hlearn : ∀ i, s.mmu.llptw.hears s.mmu.llptwIn = true →
      s.mmu.llptw.hit lastLevelPTW s.mmu.llptwIn i = true →
      Walker.tokenOf (load mem) id (lastLevelPTW.rules.after (s.mmu.llptw.entries i))
        (lastLevelPTW.rules.learn (s.mmu.llptw.entries i) s.mmu.llptwIn.memRsp.bits.addr) =
        {load mem (s.mmu.llptw.entries i)} := by
    intro i hheard hhit
    obtain ⟨-, hb⟩ := h.llptw_hit hheard hhit
    rw [hb]
    rfl
  exact Walker.tokens_next hlearn

/-- What the unit holds changes by the request it takes and the response it delivers, and by the
difference between what the last walker sends and what it gives up. -/
theorem Sound.held_exec_given (h : s.Sound mem) :
    held mem (s.exec mem c).mmu + s.delivered c + s.given =
      held mem s.mmu + (c.mmuReq.sent s.mmu.mmuReqReady).map (answer mem) + s.sentLast := by
  have h1 := congrArg (Multiset.map (answer mem))
    (s.mmu.tlb.reqFifo.held_next c.mmuReq s.mmu.l2tlb.reqReady)
  have h2 := congrArg (Multiset.map (answer mem))
    (s.mmu.l2tlb.reqFifo.held_next s.mmu.tlb.req s.mmu.ptw.reqReady)
  have h3 := h.ptw_tokens (c := c)
  have h4 := h.llptw_tokens (c := c)
  have h5 := s.mmu.l2tlb.rspFifo.held_next (s.mmu.llptw.out lastLevelPTW) s.mmu.tlb.rspReady
  have h6 := s.mmu.tlb.rspFifo.held_next s.mmu.l2tlb.rsp c.mmuRspReady
  rw [Multiset.map_add, Multiset.map_add] at h1 h2
  have hreq := telescope (telescope (telescope h1 h2) h3) h4
  have hrsp := telescope h5 h6
  exact rejoin hreq hrsp

theorem Sound.held_exec (h : s.Sound mem) (horder : s.RspInOrder c) :
    held mem (s.exec mem c).mmu + s.delivered c =
      held mem s.mmu + (c.mmuReq.sent s.mmu.mmuReqReady).map (answer mem) := by
  have hheld := h.held_exec_given (c := c)
  rw [given_of_inOrder horder] at hheld
  exact add_right_cancel hheld

/-! ### Reads under way -/

/-- The read at the memory port as the response that its walker waits for. -/
def portLoad (mem : BitVec 64 → BitVec 64) (r : MemReqBits) : AddrBits :=
  ⟨mem r.addr, r.source.extractLsb' 0 2⟩

/-- The page cache of a walker. -/
def cacheOf (u : MMU) (port : Bool) : PageCache := if port then u.pageCache else u.llPageCache

/-- The reads of a walker among those at the memory port. -/
def ofPort (port : Bool) (m : Multiset MemReqBits) : Multiset MemReqBits :=
  m.filter fun r => MMUMemArbiter.portOf r.source = port

lemma ofPort_add (port : Bool) (m m' : Multiset MemReqBits) :
    ofPort port (m + m') = ofPort port m + ofPort port m' := Multiset.filter_add _ _ _

lemma taken_eq : s.taken c =
    if c.memReqReady && s.mmu.llPageCache.req.valid then
      {⟨s.mmu.llPageCache.req.bits.addr, MMUMemArbiter.tagOf false s.mmu.llPageCache.req.bits.source⟩}
    else if c.memReqReady && s.mmu.pageCache.req.valid then
      {⟨s.mmu.pageCache.req.bits.addr, MMUMemArbiter.tagOf true s.mmu.pageCache.req.bits.source⟩}
    else 0 := by
  cases hready : c.memReqReady <;> cases h0 : s.mmu.llPageCache.req.valid <;>
    cases h1 : s.mmu.pageCache.req.valid <;>
    simp [taken, MMU.memReq, MMUMemArbiter.reqOut, MMUMemArbiter.tagOf, Decoupled.sent, Decoupled.fire,
      hready, h0, h1]

/-- Memory takes from a page cache what the arbiter lets pass. -/
lemma taken_port (port : Bool) :
    (ofPort port (s.taken c)).map (portLoad mem) =
      ((cacheOf s.mmu port).req.sent (s.mmu.memReady (input mem c) port)).map (load mem) := by
  rw [taken_eq]
  cases hready : c.memReqReady <;> cases h0 : s.mmu.llPageCache.req.valid <;>
    cases h1 : s.mmu.pageCache.req.valid <;> cases port <;>
    simp [ofPort, Multiset.filter_singleton, cacheOf, MMU.memReady, MMUMemArbiter.reqReady, input,
      Decoupled.sent, Decoupled.fire, portLoad, load, hready, h0, h1]

/-- A page cache gets the responses with its tag. -/
lemma served_port (port : Bool) :
    (ofPort port (s.served mem c)).map (portLoad mem) =
      (MMUMemArbiter.rspOut (input mem c).memRsp port).sent (cacheOf s.mmu port).rspReady := by
  have hready : s.mmu.memRspReady (loadPort mem c.memRsp.bits) =
      (cacheOf s.mmu (MMUMemArbiter.portOf c.memRsp.bits.source)).rspReady := by
    cases hp : MMUMemArbiter.portOf c.memRsp.bits.source <;>
      simp [MMU.memRspReady, MMUMemArbiter.rspReady, loadPort, cacheOf, hp]
  by_cases hp : MMUMemArbiter.portOf c.memRsp.bits.source = port
  · rw [served, hready, hp]
    cases hv : c.memRsp.valid <;> cases hr : (cacheOf s.mmu port).rspReady <;>
      simp [hv, hp, ofPort, Multiset.filter_singleton, MMUMemArbiter.rspOut, input, Decoupled.sent,
        Decoupled.fire, portLoad, loadPort]
  · have hnone : ofPort port (s.served mem c) = 0 := by
      refine Multiset.filter_eq_nil.mpr fun r hr => ?_
      rw [(Decoupled.mem_sent.mp hr).2]
      exact hp
    rw [hnone, Decoupled.sent_of_not_fire]
    · rfl
    · simp [Decoupled.fire, MMUMemArbiter.rspOut, input, loadPort, hp]

lemma asked_exec (honest : s.Honest c) :
    (s.exec mem c).asked + s.served mem c = s.asked + s.taken c := by
  refine tsub_add_cancel_of_le ?_
  cases hfire : c.memRsp.fire (s.mmu.memRspReady (loadPort mem c.memRsp.bits)) with
  | false => simp [served, Decoupled.sent_of_not_fire hfire]
  | true =>
    rw [served, Decoupled.sent_of_fire hfire, Multiset.singleton_le]
    exact honest (Bool.and_eq_true_iff.mp hfire).2

lemma underway_eq (cache : PageCache) (asked : Multiset MemReqBits) (port : Bool) :
    underway mem cache asked port = cache.reqFifo.held.map (load mem) +
      (ofPort port asked).map (portLoad mem) + cache.rspFifo.held := rfl

/-- What is under way to a walker changes by the read it sends and the response it hears. -/
lemma underway_exec (honest : s.Honest c) {port walkerReady : Bool} {walkerReq : Decoupled AddrBits}
    (hcache : cacheOf (s.exec mem c).mmu port = (cacheOf s.mmu port).next false walkerReq
      (s.mmu.memReady (input mem c) port) (MMUMemArbiter.rspOut (input mem c).memRsp port) walkerReady) :
    underway mem (cacheOf (s.exec mem c).mmu port) (s.exec mem c).asked port +
        (cacheOf s.mmu port).rsp.sent walkerReady =
      underway mem (cacheOf s.mmu port) s.asked port +
        (walkerReq.sent (cacheOf s.mmu port).reqReady).map (load mem) := by
  have h1 := congrArg (Multiset.map (load mem)) ((cacheOf s.mmu port).reqFifo.held_next walkerReq
    (s.mmu.memReady (input mem c) port))
  have h2 := congrArg (fun m => (ofPort port m).map (portLoad mem)) (@asked_exec mem s c honest)
  have h3 := (cacheOf s.mmu port).rspFifo.held_next
    (MMUMemArbiter.rspOut (input mem c).memRsp port) walkerReady
  simp only [ofPort_add, Multiset.map_add, taken_port, served_port] at h1 h2
  rw [underway_eq, underway_eq, hcache]
  exact telescope (telescope h1 h2) h3

/-! ### One cycle -/

/-- The host's account of the tags in use, without the response of this cycle. -/
lemma Sound.outstanding_eq (h : s.Sound mem) :
    s.outstanding c = (held mem s.mmu).map AddrBits.source - (s.delivered c).map AddrBits.source := by
  have hbooks := congrArg (Multiset.map AddrBits.source) h.books
  rw [Multiset.map_map, Multiset.map_add] at hbooks
  have hsource : s.accepted.map TlbBits.source =
      s.answered.map AddrBits.source + (held mem s.mmu).map AddrBits.source := hbooks
  rw [outstanding, hsource, Multiset.map_add, add_tsub_add_eq_tsub_left]

lemma delivered_le : s.delivered c ≤ held mem s.mmu :=
  (s.mmu.tlb.rspFifo.sent_le_held c.mmuRspReady).trans (Multiset.le_add_left _ _)

lemma Sound.distinct_exec (h : s.Sound mem) (horder : s.RspInOrder c) (hfresh : s.FreshTag c) :
    ((held mem (s.exec mem c).mmu).map AddrBits.source).Nodup := by
  have hheld := congrArg (Multiset.map AddrBits.source) (h.held_exec horder)
  obtain ⟨rest, hrest⟩ := Multiset.le_iff_exists_add.mp (@delivered_le mem s c)
  rw [Multiset.map_add, Multiset.map_add, hrest, Multiset.map_add] at hheld
  have hout : s.outstanding c = rest.map AddrBits.source := by
    rw [h.outstanding_eq, hrest, Multiset.map_add, add_tsub_cancel_left]
  have hnodup : (rest.map AddrBits.source).Nodup :=
    Multiset.nodup_of_le (Multiset.map_le_map (hrest ▸ Multiset.le_add_left _ _)) h.distinct
  have hnext : (held mem (s.exec mem c).mmu).map AddrBits.source = rest.map AddrBits.source +
      ((c.mmuReq.sent s.mmu.mmuReqReady).map (answer mem)).map AddrBits.source := by
    refine add_right_cancel (b := (s.delivered c).map AddrBits.source) ?_
    rw [hheld]
    abel
  rw [hnext, Multiset.map_map]
  cases hfire : c.mmuReq.fire s.mmu.mmuReqReady with
  | false => simpa [Decoupled.sent_of_not_fire hfire] using hnodup
  | true =>
    have hnew := hfresh (Bool.and_eq_true_iff.mp hfire).2
    rw [hout] at hnew
    rw [Decoupled.sent_of_fire hfire, Multiset.map_singleton, add_comm, Multiset.singleton_add,
      Multiset.nodup_cons]
    exact ⟨hnew, hnodup⟩

lemma Sound.level_exec (h : s.Sound mem) (i : Fin 4) :
    LevelOk ((s.exec mem c).mmu.ptw.state i) ((s.exec mem c).mmu.ptw.entries i) := by
  refine Walker.next_invariant (P := LevelOk) h.level (fun _ => .inr rfl) (fun _ he => he) ?_ trivial i
  intro i _ _ he
  cases he with
  | inl he => simp [fistLevelPTW, he, LevelOk]
  | inr he => simp [fistLevelPTW, he, LevelOk]

/-- While the upper walker has an answer, the walker of the last level has room for it: the entries of
both have different tags, and there are four tags. -/
lemma Sound.llptw_ready (h : s.Sound mem) {i : Fin 4} (hi : s.mmu.ptw.state i = .done) :
    s.mmu.llptw.reqReady = true := by
  by_contra hfull
  have hcard := Multiset.card_le_card s.mmu.walkerTags_le
  have hfour := card_le_of_nodup h.tags_nodup
  have hllptw := card_tags_of_full (K := lastLevelPTW) (Bool.eq_false_iff.mpr hfull)
  rw [Multiset.card_add, hllptw] at hcard
  have hmem : fistLevelPTW.rules.tag (s.mmu.ptw.entries i) ∈ Walker.tags fistLevelPTW s.mmu.ptw := by
    rw [Walker.tags, weigh, Multiset.mem_sum]
    exact ⟨i, Finset.mem_univ i, by simp [Walker.slots, Walker.tagsOf, hi]⟩
  have hpos := Multiset.card_pos_iff_exists_mem.mpr ⟨_, hmem⟩
  omega

lemma Sound.ptw_hit_unique (h : s.Sound mem) {i j : Fin 4}
    (hi : s.mmu.ptw.hears s.mmu.ptwIn = true ∧ s.mmu.ptw.hit fistLevelPTW s.mmu.ptwIn i = true)
    (hj : s.mmu.ptw.hears s.mmu.ptwIn = true ∧ s.mmu.ptw.hit fistLevelPTW s.mmu.ptwIn j = true) :
    i = j :=
  Walker.hit_unique h.ptw_tags ptw_bits_source (load_source mem) h.ptw_hears hi.1 hi.2 hj.2

lemma Sound.llptw_hit_unique (h : s.Sound mem) {i j : Fin 4}
    (hi : s.mmu.llptw.hears s.mmu.llptwIn = true ∧ s.mmu.llptw.hit lastLevelPTW s.mmu.llptwIn i = true)
    (hj : s.mmu.llptw.hears s.mmu.llptwIn = true ∧ s.mmu.llptw.hit lastLevelPTW s.mmu.llptwIn j = true) :
    i = j :=
  Walker.hit_unique h.llptw_tags llptw_bits_source (load_source mem) h.llptw_hears hi.1 hi.2 hj.2

/-- An answer of the upper walker is sent at once, so the next one comes alone. -/
lemma Sound.single_exec (h : s.Sound mem) {i j : Fin 4} (hi : (s.exec mem c).mmu.ptw.state i = .done)
    (hj : (s.exec mem c).mmu.ptw.state j = .done) : i = j := by
  have hheard : ∀ k, (s.exec mem c).mmu.ptw.state k = .done →
      s.mmu.ptw.hears s.mmu.ptwIn = true ∧ s.mmu.ptw.hit fistLevelPTW s.mmu.ptwIn k = true := by
    intro k hk
    cases Walker.done_next hk with
    | inl hstay =>
      have hready := h.llptw_ready hstay.1
      have hsend : s.mmu.ptw.sends fistLevelPTW s.mmu.ptwIn = true := by
        rw [Walker.sends, Decoupled.fire, Walker.out_valid.mpr ⟨k, hstay.1⟩]
        simpa [MMU.ptwIn] using hready
      exact absurd ⟨hsend, h.single _ _ (Walker.state_deqPtr hsend) hstay.1⟩ hstay.2
    | inr hhit => exact hhit
  exact h.ptw_hit_unique (hheard i hi) (hheard j hj)

/-- A cycle keeps the books right. -/
theorem Sound.exec (h : s.Sound mem) (hfair : s.Fair c) (horder : s.RspInOrder c) :
    (s.exec mem c).Sound mem where
  books := by
    have hheld := h.held_exec horder
    change (s.accepted + c.mmuReq.sent s.mmu.mmuReqReady).map (answer mem) =
      s.answered + s.delivered c + held mem (s.exec mem c).mmu
    rw [Multiset.map_add, h.books, add_assoc, ← hheld]
    abel
  distinct := h.distinct_exec horder hfair.2
  level := h.level_exec
  upper := by
    have hwait := Walker.awaited_next ptw_after_ne h.ptw_tags ptw_bits_source (load_source mem)
      h.ptw_hears
    have hpath := @underway_exec mem s c hfair.1 true _ _ rfl
    rw [h.upper] at hwait
    exact add_right_cancel (hwait.trans hpath.symm)
  last := by
    have hwait := Walker.awaited_next llptw_after_ne h.llptw_tags llptw_bits_source (load_source mem)
      h.llptw_hears
    have hpath := @underway_exec mem s c hfair.1 false _ _ rfl
    rw [h.last] at hwait
    exact add_right_cancel (hwait.trans hpath.symm)
  single _ _ := h.single_exec

/-- After a reset the unit is empty. -/
lemma sound_reset (power : MMU) (io : MMU.In) : Sound mem ⟨power.next io true, 0, 0, 0⟩ := by
  have hptw : ∀ i, (power.next io true).ptw.state i = .idle := Walker.state_reset
  have hheld : held mem (power.next io true) = 0 := rfl
  refine ⟨?_, ?_, ?_, ?_, ?_, ?_⟩
  · rw [hheld]; rfl
  · rw [hheld]; exact Multiset.nodup_zero
  · intro i; rw [hptw i]; trivial
  · rfl
  · rfl
  · intro i j hi; rw [hptw i] at hi; cases hi

end MmuRun
end VentusDriver.Rtl
