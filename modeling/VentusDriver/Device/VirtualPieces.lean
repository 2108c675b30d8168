import VentusDriver.Foundation.Intervals
import VentusDriver.Device.Memory

/-! The loop of `act_virt` as a walk over pieces. The loop counts bytes and passes on what it has counted
when the page changes; that is one call of the action for each part of the range in one page. -/
namespace VentusDriver
open Foundation Foundation.Intervals

/-- The page number that `act_virt` compares has 27 bits. -/
lemma vpnOf_u64 (x : ℕ) : Memory.vpnOf (u64 x) = x / 4096 % 2 ^ 27 * 4096 := by
  have h := and_window (u64 x) 12 27
  rw [show (2 ^ 27 - 1) <<< 12 = 0x0000007ffffff000 from rfl] at h
  rw [Memory.vpnOf, h, u64]
  omega

namespace Memory

/-- A part of a range: the offset of its first byte and its length. -/
structure Piece where
  off : ℕ
  len : ℕ
  deriving DecidableEq, Repr

/-- The offset behind the part. -/
def Piece.stop (p : Piece) : ℕ := p.off + p.len

/-- The parts of the pages of a range, from an offset on with some bytes left. -/
def pieces (v off left : ℕ) : List Piece :=
  if left = 0 then []
  else
    let len := min left (4096 - (v + off) % 4096)
    ⟨off, len⟩ :: pieces v (off + len) (left - len)
termination_by left
decreasing_by
  have := Nat.mod_lt (v + off) (show 4096 > 0 by norm_num)
  omega

/-- The pieces of a range follow one another, each inside one page. -/
lemma pieces_tiles (v off left : ℕ) : Tiles Piece.off Piece.stop off (pieces v off left) (off + left) ∧
    ∀ p ∈ pieces v off left, 0 < p.len ∧ (v + p.off) % 4096 + p.len ≤ 4096 ∧ p.stop ≤ off + left := by
  induction off, left using pieces.induct v with
  | case1 off =>
    rw [pieces, if_pos rfl]
    exact ⟨.nil off, by simp⟩
  | case2 off left hleft len ih =>
    have hmod := Nat.mod_lt (v + off) (show 4096 > 0 by norm_num)
    have hlen : 0 < len ∧ len ≤ left ∧ (v + off) % 4096 + len ≤ 4096 := by omega
    have hend : off + len + (left - len) = off + left := by omega
    rw [hend] at ih
    rw [pieces, if_neg hleft]
    constructor
    · exact Tiles.cons (i := (⟨off, len⟩ : Piece)) (show off < off + len by omega) ih.1
    · intro p hp
      cases List.mem_cons.mp hp with
      | inl heq =>
        rw [heq]
        exact ⟨hlen.1, hlen.2.2, show off + len ≤ off + left by omega⟩
      | inr hp => exact ih.2 p hp

/-- The first piece of a range ends with the page or with the range. -/
lemma pieces_cons {v off left len : ℕ} (hlen : 0 < len) (hpage : (v + off) % 4096 + len ≤ 4096)
    (hend : left = 0 ∨ (v + off) % 4096 + len = 4096) :
    pieces v off (len + left) = ⟨off, len⟩ :: pieces v (off + len) left := by
  have hmin : min (len + left) (4096 - (v + off) % 4096) = len := by omega
  have hrest : len + left - len = left := by omega
  rw [pieces, if_neg (by omega)]
  simp only [hmin, hrest]

section Run
variable {σ : Type*} (conv : σ → ℕ → ℕ) (action : ℕ → ℕ → ℕ → σ → σ) (v : ℕ)

/-- Translate one piece after the other and pass it on; stop at a piece without a translation. -/
def runPieces : List Piece → σ → Int × σ
  | [], s => (0, s)
  | p :: ps, s =>
    if conv s (u64 (v + p.off)) = 0 then (-1, s)
    else runPieces ps (action (conv s (u64 (v + p.off))) p.len p.off s)

variable {conv action v}

lemma runPieces_stop {off left : ℕ} {s : σ} (hleft : 0 < left) (hzero : conv s (u64 (v + off)) = 0) :
    runPieces conv action v (pieces v off left) s = (-1, s) := by
  rw [pieces, if_neg (by omega)]
  exact if_pos hzero

/-- The byte loop, in the middle of a piece that is already translated. -/
lemma actVirtLoop_eq_runPieces {k off len vpn pAddr : ℕ} {s : σ} (hlen : 0 < len)
    (hpage : (v + off) % 4096 + len ≤ 4096) (hvpn : vpn = vpnOf (u64 (v + off)))
    (hphys : pAddr = conv s (u64 (v + off))) (hne : pAddr ≠ 0) :
    actVirtLoop conv action v k (off + len) vpn len pAddr s =
      runPieces conv action v (pieces v off (len + k)) s := by
  induction k generalizing off len vpn pAddr s with
  | zero =>
    have hnone : pieces v (off + len) 0 = [] := by rw [pieces, if_pos rfl]
    rw [pieces_cons hlen hpage (.inl rfl), hnone, runPieces, runPieces, ← hphys, if_neg hne,
      actVirtLoop, Nat.add_sub_cancel_right]
  | succ k ih =>
    rw [actVirtLoop]
    by_cases hleave : vpn = vpnOf (u64 (v + (off + len)))
    · -- the next byte is in the same page
      have hinside : (v + off) % 4096 + (len + 1) ≤ 4096 := by
        rw [hvpn, vpnOf_u64, vpnOf_u64] at hleave
        omega
      have hcount : len + (k + 1) = len + 1 + k := by omega
      rw [if_neg (not_not.mpr hleave), if_neg hne, hcount]
      exact ih (Nat.succ_pos len) hinside hvpn hphys hne
    · have hfull : (v + off) % 4096 + len = 4096 := by
        by_contra hnot
        apply hleave
        rw [hvpn, vpnOf_u64, vpnOf_u64]
        omega
      rw [pieces_cons hlen hpage (.inr hfull), if_pos hleave, runPieces, ← hphys, if_neg hne]
      simp only [Nat.ne_of_gt hlen, ne_eq, not_false_eq_true, if_true, Nat.add_sub_cancel_right]
      by_cases hzero : conv (action pAddr len off s) (u64 (v + (off + len))) = 0
      · rw [if_pos hzero, runPieces_stop (Nat.succ_pos k) hzero]
      · rw [if_neg hzero, Nat.add_comm k 1]
        exact ih Nat.one_pos (by omega) rfl rfl hzero

/-- `act_virt` passes on the pieces of the range. -/
theorem actVirt_eq_runPieces {size : ℕ} (hsize : 0 < size) (hv : v < 2 ^ 64) (s : σ) :
    actVirt conv action v size s = runPieces conv action v (pieces v 0 size) s := by
  have hfirst : u64 (v + 0) = v := u64_of_lt hv
  rw [actVirt]
  by_cases hzero : conv s v = 0
  · rw [runPieces_stop hsize (by rwa [hfirst])]
    exact if_pos hzero
  · -- the first byte opens the first piece, whatever its page number
    obtain ⟨k, rfl⟩ := Nat.exists_eq_succ_of_ne_zero (Nat.ne_of_gt hsize)
    have hloop : ∀ vpn, vpn = vpnOf (u64 (v + 0)) → actVirtLoop conv action v k (0 + 1) vpn 1 (conv s v) s =
        runPieces conv action v (pieces v 0 (1 + k)) s := by
      intro vpn hvpn
      exact actVirtLoop_eq_runPieces Nat.one_pos (by omega) hvpn (by rw [hfirst]) hzero
    rw [Nat.succ_eq_add_one, Nat.add_comm k 1]
    rw [if_neg hzero, Nat.add_comm 1 k, actVirtLoop, Nat.add_comm k 1]
    simp only [ne_eq, not_true_eq_false, if_false, hzero]
    split_ifs with hvpn
    · exact hloop 0 hvpn
    · exact hloop _ rfl

variable (conv action v)

/-- The pieces, each with the state in which it is translated. -/
def turns : List Piece → σ → List (σ × Piece)
  | [], _ => []
  | p :: ps, s => (s, p) :: turns ps (action (conv s (u64 (v + p.off))) p.len p.off s)

/-- An action that also notes what it is passed. -/
def noting {τ : Type*} (note : σ → ℕ → ℕ → ℕ → τ) (pAddr len off : ℕ) (s : σ × List τ) : σ × List τ :=
  (action pAddr len off s.1, s.2 ++ [note s.1 pAddr len off])

variable {conv action v}

lemma turns_pieces (ps : List Piece) (s : σ) : (turns conv action v ps s).map Prod.snd = ps := by
  induction ps generalizing s with
  | nil => rfl
  | cons p ps ih => rw [turns, List.map_cons, ih]

lemma exists_turns {Q : Piece → Prop} {ps : List Piece} {s : σ} :
    (∃ t ∈ turns conv action v ps s, Q t.2) ↔ ∃ p ∈ ps, Q p := by
  induction ps generalizing s with
  | nil => simp [turns]
  | cons p ps ih => rw [turns, List.exists_mem_cons_iff, List.exists_mem_cons_iff, ih]

lemma forall_turns {Q : Piece → Prop} {ps : List Piece} {s : σ} :
    (∀ t ∈ turns conv action v ps s, Q t.2) ↔ ∀ p ∈ ps, Q p := by
  induction ps generalizing s with
  | nil => simp [turns]
  | cons p ps ih => rw [turns, List.forall_mem_cons, List.forall_mem_cons, ih]

/-- What the action keeps holds in every turn. -/
lemma turns_keep {P : σ → Prop} (haction : ∀ pAddr len off s, P s → P (action pAddr len off s))
    {ps : List Piece} {s : σ} (hs : P s) : ∀ t ∈ turns conv action v ps s, P t.1 := by
  induction ps generalizing s with
  | nil => simp [turns]
  | cons p ps ih =>
    rw [turns, List.forall_mem_cons]
    exact ⟨hs, ih (haction _ _ _ _ hs)⟩

/-- The result is 0 exactly when each piece has a translation in its turn. -/
lemma runPieces_status_iff {ps : List Piece} {s : σ} : (runPieces conv action v ps s).1 = 0 ↔
    ∀ t ∈ turns conv action v ps s, conv t.1 (u64 (v + t.2.off)) ≠ 0 := by
  induction ps generalizing s with
  | nil => simp [runPieces, turns]
  | cons p ps ih =>
    rw [runPieces, turns, List.forall_mem_cons]
    by_cases hzero : conv s (u64 (v + p.off)) = 0
    · rw [if_pos hzero]
      exact iff_of_false (show (-1 : Int) ≠ 0 by decide) fun h => h.1 hzero
    · rw [if_neg hzero, ih]
      exact ⟨fun h => ⟨hzero, h⟩, fun h => h.2⟩

/-- The notes do not change what is done. -/
lemma runPieces_noting_result {τ : Type*} {note : σ → ℕ → ℕ → ℕ → τ} {ps : List Piece} (s : σ) (log : List τ) :
    let r := runPieces (fun s => conv s.1) (noting action note) v ps (s, log)
    (r.1, r.2.1) = runPieces conv action v ps s := by
  induction ps generalizing s log with
  | nil => rfl
  | cons p ps ih =>
    dsimp only [runPieces]
    by_cases hzero : conv s (u64 (v + p.off)) = 0
    · rw [if_pos hzero, if_pos hzero]
    · rw [if_neg hzero, if_neg hzero]
      exact ih _ _

/-- Where each piece has a translation, each of them is noted. -/
lemma runPieces_noting {τ : Type*} {note : σ → ℕ → ℕ → ℕ → τ} {ps : List Piece} {s : σ} (log : List τ)
    (hall : ∀ t ∈ turns conv action v ps s, conv t.1 (u64 (v + t.2.off)) ≠ 0) :
    (runPieces (fun s => conv s.1) (noting action note) v ps (s, log)).2.2 =
      log ++ (turns conv action v ps s).map fun t => note t.1 (conv t.1 (u64 (v + t.2.off))) t.2.len t.2.off := by
  induction ps generalizing s log with
  | nil => simp [runPieces, turns]
  | cons p ps ih =>
    rw [turns, List.forall_mem_cons] at hall
    rw [runPieces, if_neg hall.1, turns, List.map_cons]
    simp only [noting]
    rw [ih _ hall.2, List.append_assoc, List.singleton_append]

/-- `act_virt` does the same with notes as without. -/
theorem actVirt_noting_result {τ : Type*} {note : σ → ℕ → ℕ → ℕ → τ} {size : ℕ} (hsize : 0 < size)
    (hv : v < 2 ^ 64) (s : σ) (log : List τ) :
    let r := actVirt (fun s => conv s.1) (noting action note) v size (s, log)
    (r.1, r.2.1) = actVirt conv action v size s := by
  rw [actVirt_eq_runPieces hsize hv, actVirt_eq_runPieces hsize hv]
  exact runPieces_noting_result s log

end Run

end Memory
end VentusDriver
