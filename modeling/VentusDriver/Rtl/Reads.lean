import VentusDriver.Rtl.OutOfOrder

/-! Where the unit reads. The requests whose answers the unit holds are pending. Every read that memory
has or is offered is an entry on the walk of a pending request, and no two of them have one tag. -/
namespace VentusDriver.Rtl
open Foundation Foundation.TagTable

section Walk
variable (mem : BitVec 64 → BitVec 64)

/-- The addresses of the entries of a walk, from the table at page `ppn` down. -/
def entriesFrom : ℕ → BitVec 44 → BitVec 27 → List (BitVec 64)
  | 0, ppn, vpn => [pteAddr ppn vpn 0#2]
  | level + 1, ppn, vpn =>
    pteAddr ppn vpn (BitVec.ofNat 2 (level + 1)) ::
      entriesFrom level (ptePpn (mem (pteAddr ppn vpn (BitVec.ofNat 2 (level + 1))))) vpn

/-- The addresses that the walk of a request reads. -/
def walkReads (r : TlbBits) : List (BitVec 64) :=
  entriesFrom mem 2 (r.ptbr.extractLsb' 0 44) (r.addr.extractLsb' 12 27)

/-- The addresses that an entry of the upper walker has before it. -/
def restReads (e : PtwEntry) : List (BitVec 64) := entriesFrom mem e.curLevel.toNat e.ppn e.vpn

lemma mem_entriesFrom (level : ℕ) (ppn : BitVec 44) (vpn : BitVec 27) :
    pteAddr ppn vpn (BitVec.ofNat 2 level) ∈ entriesFrom mem level ppn vpn := by
  cases level with
  | zero => exact List.mem_singleton.mpr rfl
  | succ level => exact List.mem_cons_self

lemma mem_restReads (e : PtwEntry) : (fistLevelPTW.bits e).addr ∈ restReads mem e := by
  have h := mem_entriesFrom mem e.curLevel.toNat e.ppn e.vpn
  rwa [BitVec.ofNat_toNat, BitVec.setWidth_eq] at h

/-- A response takes an entry one step along its walk. -/
lemma restReads_learn {e : PtwEntry} (h : e.curLevel = 1#2 ∨ e.curLevel = 2#2) :
    restReads mem (fistLevelPTW.rules.learn e (mem (fistLevelPTW.bits e).addr)) <:+ restReads mem e := by
  cases h with
  | inl h => simp [restReads, fistLevelPTW, h, entriesFrom]
  | inr h => simp [restReads, fistLevelPTW, h, entriesFrom]

/-- The read is one of the walk of a request among `pending`. -/
def ReadOf (pending : Multiset TlbBits) (b : AddrBits) : Prop :=
  ∃ r ∈ pending, r.source = b.source ∧ b.addr ∈ walkReads mem r

/-- An entry of the upper walker in use is on the walk of a request. -/
def PtwOf (pending : Multiset TlbBits) : Phase → PtwEntry → Prop
  | .idle, _ => True
  | _, e => ∃ r ∈ pending, r.source = e.source ∧ restReads mem e <:+ walkReads mem r

/-- An entry of the last walker that holds an address is a read of a request. -/
def LlptwOf (pending : Multiset TlbBits) : Phase → AddrBits → Prop
  | .asking, b => ReadOf mem pending b
  | .waiting, b => ReadOf mem pending b
  | _, _ => True

end Walk

/-- A read at the memory port without the port that it came through. -/
def portRead (q : MemReqBits) : AddrBits := ⟨q.addr, q.source.extractLsb' 0 2⟩

namespace MmuRun
variable (mem : BitVec 64 → BitVec 64) (pending : Multiset TlbBits) (s : MmuRun)

/-- Whatever the unit is about to read belongs to a request. -/
structure Traced : Prop where
  tlb : ∀ r ∈ s.mmu.tlb.reqFifo.held, r ∈ pending
  l2tlb : ∀ r ∈ s.mmu.l2tlb.reqFifo.held, r ∈ pending
  ptw : ∀ i, PtwOf mem pending (s.mmu.ptw.state i) (s.mmu.ptw.entries i)
  llptw : ∀ i, LlptwOf mem pending (s.mmu.llptw.state i) (s.mmu.llptw.entries i)
  caches : ∀ port, ∀ b ∈ (cacheOf s.mmu port).reqFifo.held, ReadOf mem pending b
  asked : ∀ q ∈ s.asked, ReadOf mem pending (portRead q)

variable {mem pending s} {c : MmuCycle}

lemma PtwOf.of_busy {w : FistLevelPTW} {i : Fin 4} (h : PtwOf mem pending (w.state i) (w.entries i))
    (hi : w.state i ≠ .idle) :
    ∃ r ∈ pending, r.source = (w.entries i).source ∧ restReads mem (w.entries i) <:+ walkReads mem r := by
  cases hs : w.state i <;> rw [hs] at h hi
  · exact absurd rfl hi
  · exact h
  · exact h
  · exact h

/-- What an entry of the upper walker sends, to memory or to the last walker, is a read of its request. -/
lemma PtwOf.read {w : FistLevelPTW} {i : Fin 4} (h : PtwOf mem pending (w.state i) (w.entries i))
    (hi : w.state i ≠ .idle) : ReadOf mem pending (fistLevelPTW.bits (w.entries i)) := by
  obtain ⟨r, hr, hsource, hsuffix⟩ := PtwOf.of_busy h hi
  exact ⟨r, hr, hsource, hsuffix.subset (mem_restReads mem _)⟩

/-! ### One cycle -/

/-- Memory takes the read that a page cache holds. -/
lemma portRead_taken {q : MemReqBits} (h : q ∈ s.taken c) :
    ∃ port, portRead q ∈ (cacheOf s.mmu port).reqFifo.held := by
  rw [taken_eq] at h
  split_ifs at h with h0 h1
  · rw [Multiset.mem_singleton.mp h, portRead, MMUMemArbiter.source_tagOf]
    exact ⟨false, OneQueue.mem_held _ |>.mpr ⟨(Bool.and_eq_true_iff.mp h0).2, rfl⟩⟩
  · rw [Multiset.mem_singleton.mp h, portRead, MMUMemArbiter.source_tagOf]
    exact ⟨true, OneQueue.mem_held _ |>.mpr ⟨(Bool.and_eq_true_iff.mp h1).2, rfl⟩⟩
  · exact absurd h (Multiset.notMem_zero q)

/-- What a buffer holds after a cycle. -/
lemma queue_all {α : Type} {P : α → Prop} {q : OneQueue α} {enq : Decoupled α} {ready : Bool}
    (hheld : ∀ a ∈ q.held, P a) (hsent : ∀ a ∈ enq.sent q.enqReady, P a) :
    ∀ a ∈ (q.next false enq ready).held, P a := by
  intro a ha
  cases q.mem_held_next ha with
  | inl h => exact hheld a h
  | inr h => exact hsent a h

lemma queue_sent {α : Type} {P : α → Prop} {q : OneQueue α} {ready : Bool} (h : ∀ a ∈ q.held, P a) :
    ∀ a ∈ q.deq.sent ready, P a :=
  fun a ha => h a (Multiset.mem_of_le (q.sent_le_held ready) ha)

lemma Traced.mono {more : Multiset TlbBits} (h : Traced mem pending s) (hle : pending ≤ more) :
    Traced mem more s := by
  have hread : ∀ b, ReadOf mem pending b → ReadOf mem more b := by
    rintro b ⟨r, hr, hb⟩
    exact ⟨r, Multiset.mem_of_le hle hr, hb⟩
  refine ⟨fun r hr => Multiset.mem_of_le hle (h.tlb r hr), fun r hr => Multiset.mem_of_le hle (h.l2tlb r hr),
    fun i => ?_, fun i => ?_, fun port b hb => hread b (h.caches port b hb),
    fun q hq => hread _ (h.asked q hq)⟩
  · have hi := h.ptw i
    cases hs : s.mmu.ptw.state i with
    | idle => trivial
    | _ =>
      obtain ⟨r, hr, hb⟩ := PtwOf.of_busy hi (by simp [hs])
      exact ⟨r, Multiset.mem_of_le hle hr, hb⟩
  · have hi := h.llptw i
    cases hs : s.mmu.llptw.state i with
    | idle => trivial
    | done => trivial
    | _ =>
      rw [hs] at hi
      exact hread _ hi

/-- What a walker sends to its page cache. -/
lemma memReq_all {Req Entry : Type} {K : WalkerKind Req Entry} {w : Walker Entry} {P : AddrBits → Prop}
    {ready : Bool} (h : ∀ i, w.state i = .asking → P (K.bits (w.entries i))) :
    ∀ b ∈ (w.memReq K).sent ready, P b := by
  intro b hb
  obtain ⟨hfire, rfl⟩ := Decoupled.mem_sent.mp hb
  have hvalid : w.isMemreq (w.memreqArb.port (w.memreqIn K)) = true := (Bool.and_eq_true_iff.mp hfire).2
  exact h _ (of_decide_eq_true hvalid)

/-- A cycle makes no read of its own. -/
theorem Traced.exec (hs : s.Sound mem) (h : Traced mem pending s) :
    Traced mem (pending + c.mmuReq.sent s.mmu.mmuReqReady) (s.exec mem c) := by
  have hold := h.mono (Multiset.le_add_right pending (c.mmuReq.sent s.mmu.mmuReqReady))
  refine ⟨?_, ?_, ?_, ?_, ?_, ?_⟩
  · exact queue_all hold.tlb fun r hr => Multiset.mem_add.mpr (.inr hr)
  · exact queue_all hold.l2tlb (queue_sent hold.tlb)
  · refine Walker.next_invariant (K := fistLevelPTW) hold.ptw (fun htake => ?_) (fun _ he => he) ?_ trivial
    · have hmem : s.mmu.l2tlb.req.bits ∈ s.mmu.l2tlb.reqFifo.held :=
        OneQueue.mem_held _ |>.mpr ⟨(Bool.and_eq_true_iff.mp htake).2, rfl⟩
      exact ⟨_, hold.l2tlb _ hmem, rfl, List.suffix_refl _⟩
    · intro i hheard hhit he
      obtain ⟨hi, hdata⟩ := hs.ptw_hit hheard hhit
      have hlevel := hs.level i
      rw [hi] at hlevel
      obtain ⟨r, hr, hsource, hsuffix⟩ := he
      have hbelow : ∃ r ∈ pending + c.mmuReq.sent s.mmu.mmuReqReady,
          r.source = (s.mmu.ptw.entries i).source ∧ restReads mem (fistLevelPTW.rules.learn
            (s.mmu.ptw.entries i) s.mmu.ptwIn.memRsp.bits.addr) <:+ walkReads mem r := by
        rw [hdata]
        exact ⟨r, hr, hsource, (restReads_learn mem hlevel).trans hsuffix⟩
      cases hph : fistLevelPTW.rules.after (s.mmu.ptw.entries i) with
      | idle => trivial
      | _ => exact hbelow
  · refine Walker.next_invariant (K := lastLevelPTW) hold.llptw (fun htake => ?_) (fun _ he => he)
      (fun _ _ _ _ => trivial) trivial
    have hvalid : s.mmu.ptw.isDone (s.mmu.ptw.outArb.port (s.mmu.ptw.outIn fistLevelPTW)) = true :=
      (Bool.and_eq_true_iff.mp htake).2
    refine PtwOf.read (hold.ptw _) ?_
    rw [of_decide_eq_true hvalid]
    decide
  · intro port
    cases port with
    | true =>
      refine queue_all (hold.caches true) (memReq_all fun i hi => PtwOf.read (hold.ptw i) ?_)
      rw [hi]
      decide
    | false =>
      refine queue_all (hold.caches false) (memReq_all fun i hi => ?_)
      have hllptw := hold.llptw i
      rwa [hi] at hllptw
  · intro q hq
    have hmem : q ∈ s.asked + s.taken c := Multiset.mem_of_le (Multiset.sub_le_self _ _) hq
    cases Multiset.mem_add.mp hmem with
    | inl hbefore => exact hold.asked q hbefore
    | inr htaken =>
      obtain ⟨port, hport⟩ := portRead_taken htaken
      exact hold.caches port _ hport

/-! ### Pending requests -/

/-- The tags of the requests whose reads are not all done. -/
def walking (u : MMU) : Multiset (BitVec 2) :=
  u.tlb.reqFifo.held.map TlbBits.source + u.l2tlb.reqFifo.held.map TlbBits.source +
    Walker.tags fistLevelPTW u.ptw + Walker.tags lastLevelPTW u.llptw

lemma tags_eq (u : MMU) : u.tags = walking u + u.l2tlb.rspFifo.held.map AddrBits.source +
    u.tlb.rspFifo.held.map AddrBits.source := rfl

/-- What is under way to a walker has a tag of the walker. -/
lemma Sound.underway_tags (h : s.Sound mem) (port : Bool) :
    (underway mem (cacheOf s.mmu port) s.asked port).map AddrBits.source ≤
      if port then Walker.tags fistLevelPTW s.mmu.ptw else Walker.tags lastLevelPTW s.mmu.llptw := by
  cases port with
  | true =>
    rw [cacheOf, if_pos rfl, ← h.upper]
    exact Walker.awaited_tags_le ptw_bits_source (load_source mem)
  | false =>
    rw [cacheOf, if_neg (by decide), ← h.last]
    exact Walker.awaited_tags_le llptw_bits_source (load_source mem)

lemma Sound.underway_walking (h : s.Sound mem) {port : Bool} {b : AddrBits}
    (hb : b ∈ underway mem (cacheOf s.mmu port) s.asked port) : b.source ∈ walking s.mmu := by
  have hmem := Multiset.mem_of_le (h.underway_tags port) (Multiset.mem_map_of_mem AddrBits.source hb)
  cases port with
  | true => exact Multiset.mem_add.mpr (.inl (Multiset.mem_add.mpr (.inr hmem)))
  | false => exact Multiset.mem_add.mpr (.inr hmem)

/-- Requests whose tags are not walking can be left out. -/
lemma Traced.filter (h : Traced mem pending s) (hs : s.Sound mem) {p : BitVec 2 → Prop} [DecidablePred p]
    (hp : ∀ t ∈ walking s.mmu, p t) : Traced mem (pending.filter fun r => p r.source) s := by
  have hread : ∀ b, b.source ∈ walking s.mmu → ReadOf mem pending b →
      ReadOf mem (pending.filter fun r => p r.source) b := by
    rintro b hb ⟨r, hr, hsource, hmem⟩
    exact ⟨r, Multiset.mem_filter.mpr ⟨hr, hsource ▸ hp _ hb⟩, hsource, hmem⟩
  have hptw : ∀ i, s.mmu.ptw.state i ≠ .idle → (s.mmu.ptw.entries i).source ∈ walking s.mmu := fun i hi =>
    Multiset.mem_add.mpr (.inl (Multiset.mem_add.mpr (.inr (Walker.tag_mem_tags (K := fistLevelPTW) hi))))
  have hllptw : ∀ i, s.mmu.llptw.state i ≠ .idle → (s.mmu.llptw.entries i).source ∈ walking s.mmu :=
    fun i hi => Multiset.mem_add.mpr (.inr (Walker.tag_mem_tags (K := lastLevelPTW) hi))
  refine ⟨fun r hr => ?_, fun r hr => ?_, fun i => ?_, fun i => ?_, fun port b hb => ?_, fun q hq => ?_⟩
  · refine Multiset.mem_filter.mpr ⟨h.tlb r hr, hp _ ?_⟩
    simp only [walking, Multiset.mem_add]
    exact .inl (.inl (.inl (Multiset.mem_map_of_mem _ hr)))
  · refine Multiset.mem_filter.mpr ⟨h.l2tlb r hr, hp _ ?_⟩
    simp only [walking, Multiset.mem_add]
    exact .inl (.inl (.inr (Multiset.mem_map_of_mem _ hr)))
  · have hi := h.ptw i
    have htag := hptw i
    cases hs : s.mmu.ptw.state i with
    | idle => trivial
    | _ =>
      obtain ⟨r, hr, hsource, hsuffix⟩ := PtwOf.of_busy hi (by simp [hs])
      exact ⟨r, Multiset.mem_filter.mpr ⟨hr, hsource ▸ hp _ (htag (by simp [hs]))⟩, hsource, hsuffix⟩
  · have hi := h.llptw i
    have htag := hllptw i
    cases hs : s.mmu.llptw.state i with
    | idle => trivial
    | done => trivial
    | _ =>
      rw [hs] at hi
      exact hread _ (htag (by simp [hs])) hi
  · refine hread b ?_ (h.caches port b hb)
    have hunder : load mem b ∈ underway mem (cacheOf s.mmu port) s.asked port :=
      Multiset.mem_add.mpr (.inl (Multiset.mem_add.mpr (.inl (Multiset.mem_map_of_mem _ hb))))
    have hwalking : (load mem b).source ∈ walking s.mmu := hs.underway_walking hunder
    exact hwalking
  · refine hread _ ?_ (h.asked q hq)
    have hunder : portLoad mem q ∈ underway mem (cacheOf s.mmu (MMUMemArbiter.portOf q.source)) s.asked
        (MMUMemArbiter.portOf q.source) :=
      Multiset.mem_add.mpr (.inl (Multiset.mem_add.mpr (.inr (Multiset.mem_map_of_mem _
        (Multiset.mem_filter.mpr ⟨hq, rfl⟩)))))
    have hwalking : (portLoad mem q).source ∈ walking s.mmu := hs.underway_walking hunder
    exact hwalking

variable (mem pending s) in
/-- The unit holds the answers of the pending requests, and reads for them. -/
structure Pending : Prop where
  accepted : pending ≤ s.accepted
  answers : held mem s.mmu = pending.map (answer mem)
  traced : Traced mem pending s

/-- A request that is answered is not pending any more, and one that comes is. -/
theorem Pending.exec (hs : s.Sound mem) (h : Pending mem pending s) (horder : s.RspInOrder c) :
    ∃ more, Pending mem more (s.exec mem c) := by
  have hnot : ∀ t ∈ walking s.mmu, t ∉ (s.delivered c).map AddrBits.source := by
    intro t ht hmem
    have hnodup := hs.tags_nodup
    rw [tags_eq] at hnodup
    refine not_mem_right hnodup (Multiset.mem_add.mpr (.inl ht)) ?_
    exact Multiset.mem_of_le (Multiset.map_le_map (s.mmu.tlb.rspFifo.sent_le_held c.mmuRspReady)) hmem
  refine ⟨pending.filter (fun r => r.source ∉ (s.delivered c).map AddrBits.source) +
    c.mmuReq.sent s.mmu.mmuReqReady, ?_, ?_, (h.traced.filter hs hnot).exec hs⟩
  · exact add_le_add_left ((Multiset.filter_le _ _).trans h.accepted) _
  · obtain ⟨rest, hrest⟩ := Multiset.le_iff_exists_add.mp (@delivered_le mem s c)
    have hdistinct := hs.distinct
    rw [hrest, Multiset.map_add] at hdistinct
    have hfilter : (held mem s.mmu).filter (fun a => a.source ∉ (s.delivered c).map AddrBits.source) =
        rest := by
      rw [hrest, Multiset.filter_add]
      have hnone : (s.delivered c).filter (fun a => a.source ∉ (s.delivered c).map AddrBits.source) = 0 :=
        Multiset.filter_eq_nil.mpr fun a ha hout => hout (Multiset.mem_map_of_mem _ ha)
      have hall : rest.filter (fun a => a.source ∉ (s.delivered c).map AddrBits.source) = rest :=
        Multiset.filter_eq_self.mpr fun a ha => not_mem_left hdistinct (Multiset.mem_map_of_mem _ ha)
      rw [hnone, hall, zero_add]
    have hheld := hs.held_exec horder
    rw [hrest, add_comm (s.delivered c) rest, add_right_comm] at hheld
    rw [add_right_cancel hheld, Multiset.map_add, ← hfilter, h.answers, Multiset.filter_map]
    rfl

lemma pending_reset (power : MMU) (io : MMU.In) : Pending mem 0 ⟨power.next io true, 0, 0, 0⟩ := by
  have hptw : ∀ i, (power.next io true).ptw.state i = .idle := Walker.state_reset
  have hllptw : ∀ i, (power.next io true).llptw.state i = .idle := Walker.state_reset
  refine ⟨Multiset.zero_le _, rfl, fun r hr => ?_, fun r hr => ?_, fun i => ?_, fun i => ?_,
    fun port b hb => ?_, fun q hq => ?_⟩
  · exact absurd hr (Multiset.notMem_zero r)
  · exact absurd hr (Multiset.notMem_zero r)
  · rw [hptw i]; trivial
  · rw [hllptw i]; trivial
  · cases port <;> exact absurd hb (Multiset.notMem_zero b)
  · exact absurd hq (Multiset.notMem_zero q)

theorem pending_of_inOrder (h : (mmuSystem mem).ReachableBy FairInOrder s) :
    s.Sound mem ∧ ∃ pending, Pending mem pending s := by
  refine h.invariant (I := fun s => s.Sound mem ∧ ∃ pending, Pending mem pending s) ?_ ?_
  · intro s hinit
    obtain ⟨power, io, rfl⟩ := hinit
    exact ⟨sound_reset power io, 0, pending_reset power io⟩
  · intro s c t hs hguard hstep
    obtain ⟨hsound, pending, hpending⟩ := hs
    rw [hstep]
    exact ⟨hsound.exec hguard.1 hguard.2, hpending.exec hsound hguard.2⟩

/-! ### Reads -/

/-- The reads that memory has taken and not answered, and the one that it is offered. -/
def reads (s : MmuRun) : Multiset MemReqBits := s.asked + s.mmu.memReq.sent true

/-- The pending requests are those without a response, one a tag. Each read is one of the walk of the
pending request with its tag, and a request has one read at a time. -/
structure ReadsFor (mem : BitVec 64 → BitVec 64) (pending : Multiset TlbBits) (s : MmuRun) : Prop where
  accepted : pending ≤ s.accepted
  answered : s.answered = (s.accepted - pending).map (answer mem)
  tags : (pending.map TlbBits.source).Nodup
  reads : ∀ q ∈ s.reads, ReadOf mem pending (portRead q)
  distinct : (s.reads.map fun q => (portRead q).source).Nodup

lemma ofPort_all (m : Multiset MemReqBits) : ofPort true m + ofPort false m = m := by
  have hfalse : ofPort false m = m.filter fun q => ¬ MMUMemArbiter.portOf q.source = true :=
    Multiset.filter_congr fun q _ => by simp
  rw [hfalse]
  exact Multiset.filter_add_not _ m

/-- The reads of a walker are under way to it. -/
lemma reads_underway (port : Bool) : (ofPort port s.reads).map (portLoad mem) ≤
    underway mem (cacheOf s.mmu port) s.asked port := by
  have htaken := @taken_port mem s (cycle true none none) port
  have hoffered : (ofPort port (s.mmu.memReq.sent true)).map (portLoad mem) ≤
      (cacheOf s.mmu port).reqFifo.held.map (load mem) :=
    htaken ▸ Multiset.map_le_map ((cacheOf s.mmu port).reqFifo.sent_le_held _)
  rw [reads, ofPort_add, Multiset.map_add, add_comm, underway_eq]
  exact (add_le_add_left hoffered _).trans (Multiset.le_add_right _ _)

lemma Sound.reads_distinct (h : s.Sound mem) : (s.reads.map fun q => (portRead q).source).Nodup := by
  have htags : ∀ port, (ofPort port s.reads).map (fun q => (portRead q).source) ≤
      if port then Walker.tags fistLevelPTW s.mmu.ptw else Walker.tags lastLevelPTW s.mmu.llptw := by
    intro port
    have hunder := Multiset.map_le_map (f := AddrBits.source) (@reads_underway mem s port)
    have hle := hunder.trans (h.underway_tags port)
    rwa [Multiset.map_map] at hle
  have hall : s.reads.map (fun q => (portRead q).source) ≤ s.mmu.tags := by
    rw [← ofPort_all s.reads, Multiset.map_add]
    exact (add_le_add (htags true) (htags false)).trans s.mmu.walkerTags_le
  exact Multiset.nodup_of_le hall h.tags_nodup

/-- The unit reads nothing but what the walks of its pending requests read. -/
theorem reads_of_pending (h : (mmuSystem mem).ReachableBy FairInOrder s) :
    ∃ pending, ReadsFor mem pending s := by
  obtain ⟨hs, pending, hpending⟩ := pending_of_inOrder h
  refine ⟨pending, hpending.accepted, ?_, ?_, fun q hq => ?_, hs.reads_distinct⟩
  · have hbooks := hs.books
    rw [hpending.answers, ← tsub_add_cancel_of_le hpending.accepted, Multiset.map_add] at hbooks
    exact (add_right_cancel hbooks).symm
  · have hdistinct := hs.distinct
    rw [hpending.answers, Multiset.map_map] at hdistinct
    exact hdistinct
  · cases Multiset.mem_add.mp hq with
    | inl hasked => exact hpending.traced.asked q hasked
    | inr hoffered =>
      obtain ⟨port, hport⟩ := portRead_taken (c := cycle true none none) hoffered
      exact hpending.traced.caches port _ hport

/-- After 18 cycles two of four requests have a read each. -/
theorem reads_of_crowd : ∃ s, play FairInOrder (crowd.take 18) = some s ∧ Multiset.card s.reads = 2 ∧
    ∃ pending, ReadsFor sampleMem pending s := by
  have hplay : (play FairInOrder (crowd.take 18)).map (fun s => Multiset.card s.reads) = some 2 := by
    decide +kernel
  obtain ⟨s, hs, hcard⟩ := Option.map_eq_some_iff.mp hplay
  exact ⟨s, hs, hcard, reads_of_pending (reachable_of_play hs)⟩

end MmuRun
end VentusDriver.Rtl
