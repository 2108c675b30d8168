import VentusDriver.Foundation.Word

/-! The Sv39 page-table format: index extraction and page-table entries. -/
namespace VentusDriver.Sv39
open VentusDriver.Foundation

def maxPhyRange : ℕ := 2 ^ 56
def pageBits : ℕ := 12
def pageSize : ℕ := 2 ^ pageBits

/-- Entry permission bits. -/
def V : ℕ := 1
def R : ℕ := 2
def W : ℕ := 4
def X : ℕ := 8

/-- The table index of a virtual address at a level; level 0 is the root table. -/
def vaExtract (va level : ℕ) : ℕ :=
  if level = 0 then (va >>> 30) &&& 0x1ff
  else if level = 1 then (va >>> 21) &&& 0x1ff
  else (va >>> 12) &&& 0x1ff

def pte2pa (pte : ℕ) : ℕ := u64 ((pte &&& 0x003ffffffffffc00) <<< 2)

def setPte (pa mods : ℕ) : ℕ := ((pa &&& 0x00fffffffffff000) >>> 2) ||| mods

theorem pageSize_eq : pageSize = 4096 := by norm_num [pageSize, pageBits]

lemma shiftRight_and_9 (va k : ℕ) : (va >>> k) &&& 0x1ff = va / 2 ^ k % 512 := by
  rw [Nat.shiftRight_eq_div_pow]
  exact Nat.and_two_pow_sub_one_eq_mod _ 9

theorem vaExtract_zero (va : ℕ) : vaExtract va 0 = va / 2 ^ 30 % 512 :=
  shiftRight_and_9 va 30

theorem vaExtract_one (va : ℕ) : vaExtract va 1 = va / 2 ^ 21 % 512 :=
  shiftRight_and_9 va 21

theorem vaExtract_two (va : ℕ) : vaExtract va 2 = va / 2 ^ 12 % 512 :=
  shiftRight_and_9 va 12

theorem vaExtract_lt (va level : ℕ) : vaExtract va level < 512 := by
  unfold vaExtract
  split_ifs <;> exact lt_of_le_of_lt Nat.and_le_right (by norm_num)

theorem pte2pa_eq (pte : ℕ) : pte2pa pte = pte / 2 ^ 10 % 2 ^ 44 * 4096 := by
  have h := and_window pte 10 44
  rw [show (2 ^ 44 - 1) <<< 10 = 0x003ffffffffffc00 from rfl] at h
  have hlt : pte / 2 ^ 10 % 2 ^ 44 < 2 ^ 44 := Nat.mod_lt _ (by positivity)
  rw [pte2pa, h, Nat.shiftLeft_eq, u64_of_lt (by omega)]
  omega

/-- The frame number sits above the ten permission bits. -/
theorem setPte_eq {pa mods : ℕ} (h : mods < 2 ^ 10) :
    setPte pa mods = pa / 4096 % 2 ^ 44 * 2 ^ 10 + mods := by
  have hw := and_window pa 12 44
  rw [show (2 ^ 44 - 1) <<< 12 = 0x00fffffffffff000 from rfl] at hw
  rw [setPte, hw, Nat.shiftRight_eq_div_pow, ← mul_or_of_lt _ h]
  congr 1
  omega

/-- An entry made for a page frame leads back to that frame. -/
theorem pte2pa_setPte {pa mods : ℕ} (hpage : 4096 ∣ pa) (hpa : pa < maxPhyRange)
    (h : mods < 2 ^ 10) : pte2pa (setPte pa mods) = pa := by
  have hrange : pa < 2 ^ 56 := hpa
  rw [pte2pa_eq, setPte_eq h]
  omega

theorem setPte_lt {pa mods : ℕ} (h : mods < 2 ^ 10) : setPte pa mods < 2 ^ 64 := by
  rw [setPte_eq h]
  omega

/-- The valid bit of an entry is the one it was made with. -/
theorem setPte_and_V {pa mods : ℕ} (h : mods < 2 ^ 10) : setPte pa mods &&& V = mods % 2 := by
  rw [setPte_eq h, V, Nat.and_one_is_mod]
  omega

@[simp] theorem pte2pa_zero : pte2pa 0 = 0 := rfl

end VentusDriver.Sv39
