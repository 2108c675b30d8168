import VentusDriver.Device.PhysicalMemory

/-! Device memory: three-level page tables kept inside physical memory, and access to physical
memory through them. -/
namespace VentusDriver
open Foundation Sv39

/-- `Memory` owns its `PhysicalMemory`. -/
structure Memory where
  pm : PhysicalMemory

/-- The table indices that `allocate` carries from page to page. -/
structure PtIdx where
  level0 : ℕ
  level1 : ℕ
  level2 : ℕ

namespace PhysicalMemory

/-- The address of entry `i` of a table. -/
def entryAddr (table i : ℕ) : ℕ := u64 (table + i * 8)

/-- Entry `i` of a table. -/
def pte (pm : PhysicalMemory) (table i : ℕ) : ℕ := pm.readValue 8 (entryAddr table i)

/-- The page that entry `i` of a table leads to, or 0. -/
def nextTable (pm : PhysicalMemory) (table i : ℕ) : ℕ := pte2pa (pm.pte table i)

/-- Levels 0 and 1 of `allocate`: make a table for an entry that is not valid. The result is
`false` where the source returns for want of a free page. -/
def ensureTable (pm : PhysicalMemory) (table i : ℕ) : Except Fault (Bool × PhysicalMemory) :=
  if pm.pte table i &&& V = 0 then
    let next := pm.usable pageSize
    if next = 0 then .ok (false, pm)
    else
      match pm.insert next pageSize true with
      | .error e => .error e
      | .ok (_, pm) => .ok (true, (pm.writeValue 8 (entryAddr table i) (setPte next V)).2)
  else .ok (true, pm)

/-- Level 2 of `allocate`: fill a leaf entry that is not valid. -/
def mapLeaf (pm : PhysicalMemory) (table i pa : ℕ) : PhysicalMemory :=
  if pm.pte table i &&& V = 0 then
    (pm.writeValue 8 (entryAddr table i) (setPte pa (R ||| W ||| X ||| V))).2
  else pm

/-- One level of the loop body: look at the entry only when the index has changed. -/
def allocateLevel (pm : PhysicalMemory) (table i cached : ℕ) :
    Except Fault (Bool × PhysicalMemory) :=
  if i ≠ cached then pm.ensureTable table i else .ok (true, pm)

/-- The loop body of `allocate` for the page at `va`, backed by the physical page `pa`. -/
def allocatePage (pm : PhysicalMemory) (root va pa : ℕ) (idx : PtIdx) :
    Except Fault (Bool × PtIdx × PhysicalMemory) :=
  match pm.allocateLevel root (vaExtract va 0) idx.level0 with
  | .error e => .error e
  | .ok (false, pm) => .ok (false, idx, pm)
  | .ok (true, pm) =>
    let pt1 := pm.nextTable root (vaExtract va 0)
    match pm.allocateLevel pt1 (vaExtract va 1) idx.level1 with
    | .error e => .error e
    | .ok (false, pm) => .ok (false, idx, pm)
    | .ok (true, pm) =>
      let pt2 := pm.nextTable pt1 (vaExtract va 1)
      let pm := if vaExtract va 2 ≠ idx.level2 then pm.mapLeaf pt2 (vaExtract va 2) pa else pm
      .ok (true, ⟨vaExtract va 0, vaExtract va 1, vaExtract va 2⟩, pm)

/-- The loop of `allocate` with `n` pages left, at byte offset `iter`. -/
def allocatePages (root vAddr pAddr : ℕ) :
    ℕ → ℕ → PtIdx → PhysicalMemory → Except Fault (Bool × PhysicalMemory)
  | 0, _, _, pm => .ok (true, pm)
  | n + 1, iter, idx, pm =>
    match pm.allocatePage root (u64 (vAddr + iter)) (u64 (pAddr + iter)) idx with
    | .error e => .error e
    | .ok (false, _, pm) => .ok (false, pm)
    | .ok (true, idx, pm) => allocatePages root vAddr pAddr n (iter + pageSize) idx pm

/-- The loop of `release` over the pages of a region. -/
def releasePages (root vAddr : ℕ) : ℕ → ℕ → PhysicalMemory → PhysicalMemory
  | 0, _, pm => pm
  | n + 1, iter, pm =>
    let pt1 := pm.nextTable root (vaExtract vAddr 0)
    let pt2 := pm.nextTable pt1 (vaExtract vAddr 1)
    let pm := (pm.writeValue 8 (entryAddr pt2 (vaExtract (u64 (vAddr + iter)) 2)) 0).2
    releasePages root vAddr n (iter + pageSize) pm

end PhysicalMemory

/-- Physical memory while a page table is cleaned, with the addresses passed to `remove` so far. -/
structure Cleanup where
  pm : PhysicalMemory
  removed : List ℕ

namespace Cleanup

def memory (s : Cleanup) : Memory := ⟨s.pm⟩

/-- The addresses in the order of their removal. -/
def log (s : Cleanup) : List ℕ := s.removed.reverse

def remove (s : Cleanup) (addr : ℕ) : Cleanup := ⟨(s.pm.remove addr).2, addr :: s.removed⟩

def clear (s : Cleanup) (table i : ℕ) : Cleanup :=
  { s with pm := (s.pm.writeValue 8 (PhysicalMemory.entryAddr table i) 0).2 }

/-- The nested loops of `clean_task`: below a table, remove what its valid entries lead to and then
the table itself. -/
def removeTree : ℕ → ℕ → Cleanup → Cleanup
  | 0, page, s => s.remove page
  | levels + 1, table, s =>
    let s := (List.range 512).foldl (fun s i =>
      if s.pm.pte table i &&& V = 0 then s else removeTree levels (s.pm.nextTable table i) s) s
    s.remove table

/-- The innermost loop of `clean_pt`: no entry is valid. -/
def noneValid (s : Cleanup) (table : ℕ) : Bool :=
  (List.range 512).all fun i => decide (s.pm.pte table i &&& V = 0)

/-- The loop of `clean_pt` over a table of level 1, with the flag that the table is empty. -/
def cleanEntry (pt1 : ℕ) (r : Bool × Cleanup) (i : ℕ) : Bool × Cleanup :=
  if r.2.pm.pte pt1 i &&& V = 0 then r
  else
    let pt2 := r.2.pm.nextTable pt1 i
    if r.2.noneValid pt2 then (r.1, (r.2.remove pt2).clear pt1 i) else (false, r.2)

/-- The loop of `clean_pt` over the root. -/
def cleanRootEntry (root : ℕ) (s : Cleanup) (i : ℕ) : Cleanup :=
  if s.pm.pte root i &&& V = 0 then s
  else
    let pt1 := s.pm.nextTable root i
    let r := (List.range 512).foldl (cleanEntry pt1) (true, s)
    if r.1 then (r.2.remove pt1).clear root i else r.2

end Cleanup

namespace PhysicalMemory

def cleanPt (pm : PhysicalMemory) (root : ℕ) : Cleanup :=
  (List.range 512).foldl (Cleanup.cleanRootEntry root) ⟨pm, []⟩

def cleanTask (pm : PhysicalMemory) (root : ℕ) : Cleanup := Cleanup.removeTree 3 root ⟨pm, []⟩

end PhysicalMemory

namespace Memory
open PhysicalMemory

def new (maxRange : ℕ) : Memory := ⟨PhysicalMemory.new maxRange⟩

def createRootPt (m : Memory) : Except Fault (ℕ × Memory) :=
  let root := m.pm.usable pageSize
  if root ≠ 0 then
    match m.pm.insert root pageSize true with
    | .error e => .error e
    | .ok (_, pm) => .ok (root, ⟨pm⟩)
  else .ok (root, m)

def allocate (m : Memory) (root vAddr length : ℕ) : Except Fault (ℕ × Memory) :=
  let length := u64 (length + pageSize - 1) / pageSize * pageSize
  let pAddr := m.pm.usable length
  if pAddr = 0 then .ok (0, m)
  else
    match m.pm.insert pAddr length true with
    | .error e => .error e
    | .ok (status, pm) =>
      if status ≠ 0 then .ok (0, ⟨pm⟩)
      else
        -- no index equals the initial ones
        match allocatePages root vAddr pAddr (length / pageSize) 0 ⟨not64 0, not64 0, not64 0⟩ pm with
        | .error e => .error e
        | .ok (ok, pm) => .ok (if ok then pAddr else 0, ⟨pm⟩)

/-- Translate a virtual address; 0 when it is not mapped. -/
def convert (m : Memory) (root vAddr : ℕ) : ℕ :=
  let pt1 := m.pm.nextTable root (vaExtract vAddr 0)
  if pt1 = 0 then 0
  else
    let pt2 := m.pm.nextTable pt1 (vaExtract vAddr 1)
    if pt2 = 0 then 0
    else
      let pAddr := m.pm.nextTable pt2 (vaExtract vAddr 2)
      if pAddr = 0 then 0 else pAddr ||| (vAddr &&& 0xfff)

/-- The page number that `act_virt` compares, in place. -/
def vpnOf (vAddr : ℕ) : ℕ := vAddr &&& 0x0000007ffffff000

section ActVirt
variable {σ : Type*} (conv : σ → ℕ → ℕ) (action : ℕ → ℕ → ℕ → σ → σ) (vAddr : ℕ)

/-- The loop of `act_virt` with `k` bytes left at offset `it`. An action gets the physical
address, the length and the offset of a chunk, and may change the state. -/
def actVirtLoop : ℕ → ℕ → ℕ → ℕ → ℕ → σ → Int × σ
  | 0, it, _, len, pAddr, s => (0, action pAddr len (it - len) s)
  | k + 1, it, vpn, len, pAddr, s =>
    if vpn ≠ vpnOf (u64 (vAddr + it)) then
      -- leave the previous page: pass on its chunk and translate the new page
      let s' := if len ≠ 0 then action pAddr len (it - len) s else s
      let pAddr := if len ≠ 0 then conv s' (u64 (vAddr + it)) else pAddr
      if pAddr = 0 then (-1, s')
      else actVirtLoop k (it + 1) (vpnOf (u64 (vAddr + it))) 1 pAddr s'
    else if pAddr = 0 then (-1, s)
    else actVirtLoop k (it + 1) vpn (len + 1) pAddr s

/-- Apply an action to the physical chunks of a virtual range. -/
def actVirt (size : ℕ) (s : σ) : Int × σ :=
  let pAddr := conv s vAddr
  if pAddr = 0 then (-1, s) else actVirtLoop conv action vAddr size 0 0 0 pAddr s

end ActVirt

/-- Read through a page table into a buffer. -/
def readVirt (m : Memory) (root vAddr size : ℕ) (out : ℕ → UInt8) : Int × (ℕ → UInt8) :=
  actVirt (fun _ va => m.convert root va)
    (fun addr len off out => fun i =>
      if off ≤ i then (m.pm.readData addr len fun j => out (off + j)).2 (i - off) else out i)
    vAddr size out

/-- Write through a page table from a buffer. -/
def writeVirt (m : Memory) (root vAddr size : ℕ) (input : ℕ → UInt8) : Int × Memory :=
  actVirt (fun m va => Memory.convert m root va)
    (fun addr len off m => ⟨(m.pm.writeData addr len fun j => input (off + j)).2⟩)
    vAddr size m

/-- `read_phy` of bytes. The status of `read_data` is dropped. -/
def readPhyBytes (m : Memory) (pAddr length : ℕ) (data : ℕ → UInt8) : Int × (ℕ → UInt8) :=
  (0, (m.pm.readData pAddr length data).2)

/-- `write_phy` of bytes. -/
def writePhyBytes (m : Memory) (pAddr length : ℕ) (data : ℕ → UInt8) : Int × Memory :=
  let r := m.pm.writeData pAddr length data
  (r.1, ⟨r.2⟩)

/-- `write_phy<T>` of a value, for a `T` of `n` bytes. -/
def writePhyValue (m : Memory) (n pAddr value : ℕ) : Int × Memory :=
  let r := m.pm.writeValue n pAddr value
  (r.1, ⟨r.2⟩)

/-- `read_phy<T>` with a mask, for a `T` of `n` bytes. -/
def readPhy (m : Memory) (n pAddr num : ℕ) (data : ℕ → ℕ) (mask : Option (ℕ → UInt8)) :
    Int × (ℕ → ℕ) := (0, (m.pm.read n pAddr num data mask).2)

/-- `write_phy<T>` with a mask, for a `T` of `n` bytes. -/
def writePhy (m : Memory) (n pAddr num : ℕ) (input : ℕ → ℕ) (mask : Option (ℕ → UInt8)) :
    Int × Memory :=
  let r := m.pm.write n pAddr num input mask
  (r.1, ⟨r.2⟩)

/-- Release a region. The local `length` is never given the size of the region. -/
def release (m : Memory) (root vAddr : ℕ) : Int × Memory :=
  let length := 0
  let pAddr := m.convert root vAddr
  if m.pm.length pAddr = 0 then (-1, m)
  else
    let pm := (m.pm.remove pAddr).2
    (0, ⟨releasePages root vAddr ((length + pageSize - 1) / pageSize) 0 pm⟩)

/-- Remove the tables of a root that have no valid entry. -/
def cleanPt (m : Memory) (root : ℕ) : ℕ × Memory := (0, (m.pm.cleanPt root).memory)

/-- Remove everything that a root leads to, and the root. -/
def cleanTask (m : Memory) (root : ℕ) : ℕ × Memory := (0, (m.pm.cleanTask root).memory)

end Memory
end VentusDriver
