import VentusDriver.Driver.AllocComplete

/-! The address of a new buffer by the list of its context. The walk stands still at the first item, from
its segment on, that has room behind it or lies above the segment. -/
namespace VentusDriver
open Foundation

namespace Manager

/-- The first item that lies above the segment or has room behind it. -/
def stopAt (heap : ℕ → Item) (limit size : ℕ) (l : List ℕ) : Option ℕ :=
  l.find? fun p => decide (limit ≤ (heap p).vaddr) || hasRoom heap size p

/-- The address for a buffer of a segment that begins at `base`: that of the segment when no item lies at
or above it, and else the end of an item. -/
def roomAbove (heap : ℕ → Item) (base limit size : ℕ) (l : List ℕ) : Option ℕ :=
  match stopAt heap limit size (l.dropWhile fun p => decide ((heap p).vaddr < base)) with
  | none => some base
  | some p =>
    if (heap p).succ = none ∧ limit < endOf (heap p) + size then none else some (endOf (heap p))

/-- The address that a list has for a buffer of `size` bytes. -/
def room (heap : ℕ → Item) (size : ℕ) (l : List ℕ) : BufferType → Option ℕ
  | .readOnly =>
    if ∀ p ∈ l.head?, (heap p).vaddr ≠ rodataBase then some rodataBase
    else
      (stopAt heap rwdataBase size l).bind fun p =>
        if lastBelow heap rwdataBase p = true ∧ rwdataBase < endOf (heap p) + size then none
        else some (endOf (heap p))
  | .readWrite => roomAbove heap rwdataBase bufParaBase size l
  | .kernelMem => roomAbove heap bufParaBase (bufParaBase + globalmemSize / 2) size l

variable {m : Manager} {c size root v : ℕ} {rest l pre post : List ℕ} {a : ℕ}

/-- A walk stands still at the first item that it does not pass. -/
lemma stopAt_eq (h : m.WellLinked) (hl : m.HasList c l) (hs : Shape (addrs m.heap l)) (hsize : size < 0x20000000)
    (hsub : ∀ p ∈ pre ++ a :: post, p ∈ l) {limit : ℕ} (hpre : Passed m.heap limit size pre)
    (hstop : StopsAt m.heap limit size a) : stopAt m.heap limit size (pre ++ a :: post) = some a := by
  have hfits : ∀ p ∈ pre ++ a :: post, u64 (endOf (m.heap p) + size) = endOf (m.heap p) + size := by
    intro p hp
    have hend := (endOf_addr h hl hs (hsub p hp)).2.1
    have hhigh := (hs.range _ (List.mem_map_of_mem (hsub p hp))).2.2
    exact u64_of_lt (by omega)
  rw [stopAt, List.find?_eq_some_iff_append]
  refine ⟨?_, pre, post, rfl, fun p hp => ?_⟩
  · rw [StopsAt, hfits a (by simp)] at hstop
    rcases hstop with hbound | hnone | ⟨q, hq, hle⟩
    · simp [hbound]
    · simp [hasRoom, hnone]
    · simp [hasRoom, hq, hle]
  · obtain ⟨hbelow, q, hq, hclose⟩ := hpre p hp
    rw [hfits p (by simp [hp])] at hclose
    simp [hasRoom, hq, hbelow, hclose]

lemma allocAbove_room (h : m.WellLinked) (hl : m.HasList c (root :: rest))
    (hs : Shape (addrs m.heap (root :: rest))) (hsize : size < 0x20000000) {base limit : ℕ} {skip : Bool}
    (hskip : skip = false → base ≤ (m.heap root).vaddr) :
    (m.allocAbove root size base limit skip).toOption.map Prod.snd =
      roomAbove m.heap base limit size (root :: rest) := by
  rcases allocAbove_walk h hl size limit hskip with
    ⟨-, a, -, hbelow, hres⟩ | ⟨low, pre, a, post, hlist, hbelow, hstart, hpre, hstop, hres⟩
  · have hnil : (root :: rest).dropWhile (fun p => decide ((m.heap p).vaddr < base)) = [] := by
      rw [List.dropWhile_eq_nil_iff]
      simpa using hbelow
    rw [hres, roomAbove, hnil]
    rfl
  · have hdrop : (root :: rest).dropWhile (fun p => decide ((m.heap p).vaddr < base)) = pre ++ a :: post := by
      rw [hlist, List.dropWhile_append_of_pos (by simpa using hbelow)]
      cases pre with
      | nil => exact List.dropWhile_cons_of_neg (by simpa using hstart a rfl)
      | cons f pre => exact List.dropWhile_cons_of_neg (by simpa using hstart f rfl)
    have hsub : ∀ p ∈ pre ++ a :: post, p ∈ root :: rest := fun p hp => by
      rw [hlist]
      exact List.mem_append_right _ hp
    have hmem := hsub a (by simp)
    have hend := (endOf_addr h hl hs hmem).2.1
    have hhigh := (hs.range _ (List.mem_map_of_mem hmem)).2.2
    rw [hres, roomAbove, hdrop, stopAt_eq h hl hs hsize hsub hpre hstop, u64_of_lt (by omega)]
    simp only
    split_ifs <;> rfl

lemma allocReadOnly_room (h : m.WellLinked) (hl : m.HasList c (root :: rest))
    (hs : Shape (addrs m.heap (root :: rest))) (hsize : size < 0x20000000) :
    (m.allocReadOnly root size).toOption.map Prod.snd = room m.heap size (root :: rest) .readOnly := by
  rcases allocReadOnly_spec h hl size with ⟨hroot, hres⟩ | ⟨hroot, pre, a, post, hlist, hpre, hstop, hres⟩
  · rw [hres, room, if_pos (by simpa using hroot)]
    rfl
  · have hsub : ∀ p ∈ pre ++ a :: post, p ∈ root :: rest := fun p hp => hlist ▸ hp
    have hmem := hsub a (by simp)
    have hend := (endOf_addr h hl hs hmem).2.1
    have hhigh := (hs.range _ (List.mem_map_of_mem hmem)).2.2
    have hfound := stopAt_eq h hl hs hsize hsub hpre hstop
    rw [← hlist] at hfound
    have hfirst : ¬ ∀ p ∈ (root :: rest).head?, (m.heap p).vaddr ≠ rodataBase := by simpa using hroot
    rw [u64_of_lt (by omega)] at hres
    rw [hres, room, if_neg hfirst, hfound]
    simp only [Option.bind_some]
    split_ifs <;> rfl

theorem allocVaddr_room (h : m.WellLinked) (hl : m.HasList c (root :: rest))
    (hs : Shape (addrs m.heap (root :: rest))) (hsize : size < 0x20000000) (bufType : BufferType) :
    (m.allocVaddr root size bufType).toOption.map Prod.snd = room m.heap size (root :: rest) bufType := by
  cases bufType with
  | readOnly => exact allocReadOnly_room h hl hs hsize
  | readWrite => exact allocAbove_room h hl hs hsize (skip_readWrite hs)
  | kernelMem => exact allocAbove_room h hl hs hsize (skip_kernelMem hs)

/-- A virtual allocation gives an address exactly when the rounded size is below the limit and the list
has that address for it. -/
theorem allocMemory_ok_iff (h : m.WellLinked) (ha : m.Addressed) (k : ℕ) (bufType : BufferType) :
    (∃ mgr, m.allocMemory c k size bufType = .ok (v, mgr)) ↔
      size ≠ 0 ∧ alignedSize size blockSize < 0x20000000 ∧
        ∃ l, m.HasList c l ∧ room m.heap (alignedSize size blockSize) l bufType = some v := by
  by_cases hrefused : size = 0 ∨ c ∉ m.cxtMem ∨ 0x20000000 ≤ alignedSize size blockSize
  · obtain ⟨tag, text, herr⟩ := allocMemory_refused k bufType hrefused
    refine iff_of_false ?_ ?_
    · rintro ⟨mgr, heq⟩
      rw [herr] at heq
      cases heq
    · rintro ⟨hsize, hlimit, l, hl, -⟩
      rcases hrefused with hzero | hnone | hlarge
      · exact hsize hzero
      · exact hnone hl.mem
      · omega
  simp only [not_or, not_not, Nat.not_le] at hrefused
  obtain ⟨hsize, hmem, hlimit⟩ := hrefused
  obtain ⟨l, hl⟩ := h.list c hmem
  have honly : (∃ l, m.HasList c l ∧ room m.heap (alignedSize size blockSize) l bufType = some v) ↔
      room m.heap (alignedSize size blockSize) l bufType = some v := by
    constructor
    · rintro ⟨l', hl', heq⟩
      exact hl'.unique hl ▸ heq
    · exact fun heq => ⟨l, hl, heq⟩
  rw [and_iff_right hsize, and_iff_right hlimit, honly]
  cases l with
  | nil =>
    have hbase : room m.heap (alignedSize size blockSize) [] bufType = some (segment bufType).1 := by
      cases bufType <;> simp [room, roomAbove, stopAt, segment]
    rw [allocMemory_nil hl hsize hlimit, hbase]
    simp [eq_comm]
  | cons root rest =>
    rw [allocMemory_cons hl hsize hlimit, ← allocVaddr_room h hl (ha c _ hl) hlimit bufType]
    cases m.allocVaddr root (alignedSize size blockSize) bufType with
    | error e => simp [Except.toOption]
    | ok place => simp [Except.toOption]

end Manager
end VentusDriver
