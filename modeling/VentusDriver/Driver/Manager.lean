import Mathlib
import VentusDriver.Device.Memory
import VentusDriver.Device.Processor

/-! The address manager. Every context has a doubly linked list of items, one for each buffer; the
items live on a heap and are never given back before the manager is destroyed. -/
namespace VentusDriver
open Foundation

/-- Ways in which a call of the driver ends without a result: an error that it throws itself, the
exception of `std::map::at`, a loop that does not end, and the faults of device memory. -/
inductive Failure
  | error (tag text : String)
  | outOfRange
  | endless
  | device (fault : Fault)
  deriving DecidableEq, Repr

/-- An item of a context. The physical address is not set before it is attached. -/
structure Item where
  prev : Option ℕ
  succ : Option ℕ
  krlId : ℕ
  taskId : ℕ
  vaddr : ℕ
  paddr : Option ℕ
  size : ℕ
  deriving DecidableEq, Repr

inductive BufferType
  | readWrite
  | readOnly
  | kernelMem
  deriving DecidableEq, Repr

def globalmemBase : ℕ := 0x40000000
def globalmemSize : ℕ := 0x40000000
def rodataBase : ℕ := globalmemBase
def rwdataBase : ℕ := 0x60000000
def bufParaBase : ℕ := 0x80000000
def pagesize : ℕ := 1 <<< 12

/-- The items by address, in the order of their creation, and the first item of each context. -/
structure Manager where
  heap : ℕ → Item
  next : ℕ
  cxtMem : Std.ExtTreeMap ℕ (Option ℕ)

namespace Manager

def new : Manager := ⟨fun _ => ⟨none, none, 0, 0, 0, none, 0⟩, 0, ∅⟩

/-- The text of a number in base 16. -/
def hex (n : ℕ) : String := String.ofList (Nat.toDigits 16 n)

/-! ### Pointers -/

def setPrev (heap : ℕ → Item) (p : ℕ) (link : Option ℕ) : ℕ → Item :=
  Function.update heap p { heap p with prev := link }

def setSucc (heap : ℕ → Item) (p : ℕ) (link : Option ℕ) : ℕ → Item :=
  Function.update heap p { heap p with succ := link }

/-- A loop over the items of a context visits each of them once. -/
def fuel (m : Manager) : ℕ := m.next + 1

/-! ### Contexts -/

def createNewContext (m : Manager) (contextID : ℕ) : Except Failure Manager :=
  if contextID ∈ m.cxtMem then
    .error (.error "Manager::createNewContext" s!"A context of ID {contextID} exists, error!")
  else .ok { m with cxtMem := m.cxtMem.insertIfNew contextID none }

def findContextID (m : Manager) (contextID : ℕ) : Bool := decide (contextID ∈ m.cxtMem)

/-! ### Allocation -/

/-- The first page boundary behind an item. -/
def endOf (item : Item) : ℕ := alignedSize (u64 (item.vaddr + item.size)) pagesize

/-- The loop that passes every item below `bound` without room between it and its successor. It
carries the address behind the current item. -/
def walkGap (heap : ℕ → Item) (bound size : ℕ) : ℕ → ℕ → ℕ → Option (ℕ × ℕ)
  | 0, _, _ => none
  | n + 1, cur, vaddr =>
    if (heap cur).vaddr < bound then
      match (heap cur).succ with
      | none => some (cur, vaddr)
      | some next =>
        if u64 (vaddr + size) ≤ (heap next).vaddr then some (cur, vaddr)
        else walkGap heap bound size n next (endOf (heap next))
    else some (cur, vaddr)

/-- The loop that passes the items below `bound`; the flag says that the list ended there. -/
def skipBelow (heap : ℕ → Item) (bound : ℕ) : ℕ → ℕ → Option (ℕ × Bool)
  | 0, _ => none
  | n + 1, cur =>
    if (heap cur).vaddr < bound then
      match (heap cur).succ with
      | none => some (cur, true)
      | some next => skipBelow heap bound n next
    else some (cur, false)

def noSpace (size : ℕ) : Failure :=
  .error "Manager::allocMemory"
    s!"memory needs to allocate of size of 0x{hex size}failed! No enough space!"

/-- The item is the last one, or its successor starts at or above `bound`. -/
def lastBelow (heap : ℕ → Item) (bound cur : ℕ) : Bool :=
  match (heap cur).succ with
  | none => true
  | some next => decide (bound ≤ (heap next).vaddr)

/-- The case `READ_ONLY` of `allocVaddr`. -/
def allocReadOnly (m : Manager) (root size : ℕ) : Except Failure (ℕ × ℕ) :=
  if (m.heap root).vaddr = rodataBase then
    match walkGap m.heap rwdataBase size m.fuel root (endOf (m.heap root)) with
    | none => .error .endless
    | some (cur, vaddr) =>
      if lastBelow m.heap rwdataBase cur then
        if u64 (vaddr + size) ≤ rwdataBase then .ok (cur, vaddr) else .error (noSpace size)
      else .ok (cur, vaddr)
  else .ok (root, rodataBase)

/-- The cases `READ_WRITE` and `KERNEL_MEM` of `allocVaddr`, for the segment from `base` to
`limit`. The lower segments are skipped when the list starts with one of them. -/
def allocAbove (m : Manager) (root size base limit : ℕ) (skip : Bool) :
    Except Failure (ℕ × ℕ) :=
  match if skip then skipBelow m.heap base m.fuel root else some (root, false) with
  | none => .error .endless
  | some (cur, true) => .ok (cur, base)
  | some (cur, false) =>
    match walkGap m.heap limit size m.fuel cur (endOf (m.heap cur)) with
    | none => .error .endless
    | some (cur, vaddr) =>
      if (m.heap cur).succ = none ∧ limit < u64 (vaddr + size) then .error (noSpace size)
      else .ok (cur, vaddr)

/-- The item behind which the new one goes, and its virtual address. -/
def allocVaddr (m : Manager) (root size : ℕ) : BufferType → Except Failure (ℕ × ℕ)
  | .readOnly => m.allocReadOnly root size
  | .readWrite =>
    m.allocAbove root size rwdataBase bufParaBase (decide ((m.heap root).vaddr = rodataBase))
  | .kernelMem =>
    m.allocAbove root size bufParaBase (bufParaBase + globalmemSize / 2)
      (decide ((m.heap root).vaddr = rodataBase ∨ (m.heap root).vaddr = rwdataBase))

def insertNewItem (m : Manager) (currentItem contextID kernelID vaddr size : ℕ) : Manager :=
  let tmp := m.next
  let item : Item := ⟨none, none, kernelID, contextID, vaddr, none, size⟩
  if vaddr = rodataBase ∧ (m.heap currentItem).vaddr = rwdataBase then
    let heap := Function.update m.heap tmp { item with succ := some currentItem }
    ⟨setPrev heap currentItem (some tmp), tmp + 1, m.cxtMem.insert contextID (some tmp)⟩
  else
    let after := (m.heap currentItem).succ
    let heap := Function.update m.heap tmp { item with prev := some currentItem, succ := after }
    let heap := match after with
      | none => heap
      | some next => setPrev heap next (some tmp)
    ⟨setSucc heap currentItem (some tmp), tmp + 1, m.cxtMem⟩

/-- The first address of a segment, and the size that a buffer of it has to stay below. -/
def segment : BufferType → ℕ × ℕ
  | .readOnly => (rodataBase, rwdataBase - rodataBase)
  | .readWrite => (rwdataBase, rwdataBase - rodataBase)
  | .kernelMem => (bufParaBase, globalmemSize / 2)

/-- The result is the virtual address. -/
def allocMemory (m : Manager) (contextID kernelID size : ℕ) (bufType : BufferType) :
    Except Failure (ℕ × Manager) :=
  if size = 0 then .error (.error "Manager::allocMemory" "vaddr or size not valid!")
  else
    let size := alignedSize size blockSize
    match m.cxtMem[contextID]? with
    | none => .error (.error "Manager::allocMemory" s!"{contextID} is not valid")
    | some head =>
      if size < (segment bufType).2 then
        match head with
        | none =>
          let vaddr := (segment bufType).1
          let heap := Function.update m.heap m.next ⟨none, none, kernelID, contextID, vaddr, none, size⟩
          .ok (vaddr, ⟨heap, m.next + 1, m.cxtMem.insert contextID (some m.next)⟩)
        | some root =>
          match m.allocVaddr root size bufType with
          | .error e => .error e
          | .ok (currentItem, vaddr) =>
            .ok (vaddr, m.insertNewItem currentItem contextID kernelID vaddr size)
      else .error (.error "Manager::allocMemory" "buffer size too large")

/-! ### Release -/

/-- The loops that look for the item at an address. -/
def findVaddr (heap : ℕ → Item) (vaddr : ℕ) : ℕ → Option ℕ → Except Failure (Option ℕ)
  | _, none => .ok none
  | 0, some _ => .error .endless
  | n + 1, some p =>
    if (heap p).vaddr = vaddr then .ok (some p) else findVaddr heap vaddr n (heap p).succ

/-- Let the neighbours of an item point to each other. -/
def unlink (heap : ℕ → Item) (tmp : ℕ) : ℕ → Item :=
  match (heap tmp).prev, (heap tmp).succ with
  | none, none => heap
  | none, some succ => setPrev heap succ none
  | some prev, none => setSucc heap prev none
  | some prev, some succ => setPrev (setSucc heap prev (some succ)) succ (some prev)

/-- The item is unlinked, and then the entry of the whole context is erased. The kernel and the
size are not looked at. Between the brackets of the error text the source prints a pointer, left
out here. -/
def releaseMemory (m : Manager) (contextID _kernelID vaddr _size : ℕ) :
    Except Failure (Int × Manager) :=
  match m.cxtMem[contextID]? with
  | none => .error .outOfRange
  | some head =>
    match findVaddr m.heap vaddr m.fuel head with
    | .error e => .error e
    | .ok none => .error (.error "Manager" "addr [] not valid")
    | .ok (some tmp) =>
      .ok (0, { m with heap := unlink m.heap tmp, cxtMem := m.cxtMem.erase contextID })

def attachPaddr (m : Manager) (_kernelID contextID vaddr paddr : ℕ) :
    Except Failure (Int × Manager) :=
  match m.cxtMem[contextID]? with
  | none => .error .outOfRange
  | some head =>
    match findVaddr m.heap vaddr m.fuel head with
    | .error e => .error e
    | .ok none => .error (.error "Manager" "failed")
    | .ok (some tmp) => .ok (0, { m with
        heap := Function.update m.heap tmp { m.heap tmp with paddr := some paddr } })

end Manager
end VentusDriver
