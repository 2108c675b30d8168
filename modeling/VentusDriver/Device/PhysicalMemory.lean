import VentusDriver.Device.Sv39
import VentusDriver.Foundation.Bytes

/-! Physical memory: a list of blocks in address order, a cursor into that list left by the last
insertion, and byte-level access to the blocks that have storage. Addresses and sizes are 64-bit
values; every sum that the program forms is reduced by `u64`. -/
namespace VentusDriver
open Foundation Sv39

/-- Ways in which a call does not return: undefined behaviour, or a failed `new`. -/
inductive Fault
  | undefined
  | badAlloc
  deriving DecidableEq, Repr

/-- A block of physical memory. Its `pages` are the zero-initialised bytes of a `Page`; the
reserved block and the sentinel have none. -/
structure Block where
  addr : ℕ
  size : ℕ
  pages : Option (ℕ → UInt8)

namespace Block

/-- The constructor. `new uint8_t[n]` throws when `n` exceeds the largest object size. -/
def new (addr size : ℕ) (createPages : Bool) : Except Fault Block :=
  if createPages then
    let num := u64 (size + pageSize - 1) / pageSize
    if num * pageSize < 2 ^ 63 then .ok ⟨addr, size, some fun _ => 0⟩ else .error .badAlloc
  else .ok ⟨addr, size, none⟩

def endAddr (b : Block) : ℕ := u64 (b.addr + b.size)

/-- `operator<` and `operator>` on blocks. -/
def lt (b another : Block) : Prop := b.endAddr ≤ another.addr
def gt (b another : Block) : Prop := another.endAddr ≤ b.addr

/-- `operator>` and `operator==` on positions. -/
def gtPos (b : Block) (pos : ℕ) : Prop := pos < b.addr
def eqPos (b : Block) (pos : ℕ) : Prop := b.addr ≤ pos ∧ pos < b.endAddr

instance (b c : Block) : Decidable (b.lt c) := inferInstanceAs (Decidable (_ ≤ _))
instance (b c : Block) : Decidable (b.gt c) := inferInstanceAs (Decidable (_ ≤ _))
instance (b : Block) (p : ℕ) : Decidable (b.gtPos p) := inferInstanceAs (Decidable (_ < _))
instance (b : Block) (p : ℕ) : Decidable (b.eqPos p) := inferInstanceAs (Decidable (_ ∧ _))

def empty (b : Block) : Bool := b.pages.isNone

/-- Copy `length` bytes into the block at offset `base`. -/
def write (b : Block) (base length : ℕ) (data : ℕ → UInt8) : Int × Block :=
  if b.size < u64 (base + length) then (-1, b)
  else
    let sz := min length (sub64 b.size base)
    (0, { b with pages := b.pages.map fun bytes i =>
      if base ≤ i ∧ i < base + sz then data (i - base) else bytes i })

/-- Copy `length` bytes out of the block from offset `base`. -/
def read (b : Block) (base length : ℕ) (out : ℕ → UInt8) : Int × (ℕ → UInt8) :=
  if b.size < u64 (base + length) then (-1, out)
  else
    let sz := min length (sub64 b.size base)
    (0, fun i => if i < sz then (b.pages.getD fun _ => 0) (base + i) else out i)

end Block

/-- The block list in address order. The cursor is the position of a block of the list, and is
absent once the block it designated has been erased. -/
structure PhysicalMemory where
  maxRange : ℕ
  blocks : List Block
  currentBlock : Option ℕ

namespace PhysicalMemory

def reserved : Block := ⟨0, 0x20000000, none⟩

def sentinel (maxRange : ℕ) : Block := ⟨maxRange, pageSize, none⟩

def new (range : ℕ) : PhysicalMemory :=
  let range := if range ≤ maxPhyRange then range else maxPhyRange
  let maxRange := (range + pageSize - 1) / pageSize * pageSize
  ⟨maxRange, [reserved, sentinel maxRange], some 0⟩

/-- The loop of `insert` towards the front of the list, with the cursor at position `i`. -/
def insertBackward (pm : PhysicalMemory) (blk : Block) : ℕ → Except Fault (Int × PhysicalMemory)
  | 0 => .ok (-1, { pm with currentBlock := some 0 })
  | i + 1 =>
    match pm.blocks[i]? with
    | none => .error .undefined
    | some cur =>
      if cur.lt blk then
        .ok (0, { pm with blocks := pm.blocks.insertIdx (i + 1) blk, currentBlock := some i })
      else insertBackward pm blk i

/-- The loop of `insert` towards the end of the list; the blocks behind the cursor start at
position `i`. Moving past the last block dereferences `end()`. -/
def insertForward (pm : PhysicalMemory) (blk : Block) :
    List Block → ℕ → Except Fault (Int × PhysicalMemory)
  | [], _ => .error .undefined
  | next :: rest, i =>
    if next.gt blk then
      .ok (0, { pm with blocks := pm.blocks.insertIdx i blk, currentBlock := some (i + 1) })
    else insertForward pm blk rest (i + 1)

def insert (pm : PhysicalMemory) (addr size : ℕ) (createPages : Bool) :
    Except Fault (Int × PhysicalMemory) := do
  let blk ← Block.new addr size createPages
  match pm.currentBlock with
  | none => .error .undefined
  | some i =>
    match pm.blocks[i]? with
    | none => .error .undefined
    | some cur =>
      if cur.gt blk then insertBackward pm blk i
      else if cur.lt blk then insertForward pm blk (pm.blocks.drop (i + 1)) (i + 1)
      else .ok (-1, pm)

/-- The position of the block that `remove` erases. -/
def findRemove (addr : ℕ) : List Block → ℕ → Option ℕ
  | [], _ => none
  | b :: rest, i =>
    if b.addr ≤ addr ∧ addr < u64 (b.addr + b.size) then some i
    else if addr < b.addr then none
    else findRemove addr rest (i + 1)

/-- Where the cursor stands after the block at position `i` is erased. -/
def cursorAfterErase (i : ℕ) : Option ℕ → Option ℕ
  | none => none
  | some c => if c = i then none else if i < c then some (c - 1) else some c

def remove (pm : PhysicalMemory) (addr : ℕ) : Int × PhysicalMemory :=
  match findRemove addr pm.blocks 0 with
  | none => (-1, pm)
  | some i => (0, { pm with
      blocks := pm.blocks.eraseIdx i, currentBlock := cursorAfterErase i pm.currentBlock })

/-- The test by which an access selects its block. -/
def spans (b : Block) (addr length : ℕ) : Prop :=
  b.addr ≤ addr ∧ u64 (addr + length) ≤ u64 (b.addr + b.size)

instance (b : Block) (addr length : ℕ) : Decidable (spans b addr length) :=
  inferInstanceAs (Decidable (_ ∧ _))

def writeBlocks (addr length : ℕ) (data : ℕ → UInt8) : List Block → Int × List Block
  | [] => (-1, [])
  | blk :: rest =>
    if spans blk addr length then
      if blk.empty then (-1, blk :: rest)
      else (0, (blk.write (addr - blk.addr) length data).2 :: rest)
    else
      let r := writeBlocks addr length data rest
      (r.1, blk :: r.2)

def writeData (pm : PhysicalMemory) (addr length : ℕ) (data : ℕ → UInt8) :
    Int × PhysicalMemory :=
  let r := writeBlocks addr length data pm.blocks
  (r.1, { pm with blocks := r.2 })

def readBlocks (addr length : ℕ) (out : ℕ → UInt8) : List Block → Int × (ℕ → UInt8)
  | [] => (-1, out)
  | blk :: rest =>
    if spans blk addr length then
      if blk.empty then (-1, out)
      else (0, (blk.read (addr - blk.addr) length out).2)
    else readBlocks addr length out rest

def readData (pm : PhysicalMemory) (addr length : ℕ) (out : ℕ → UInt8) : Int × (ℕ → UInt8) :=
  readBlocks addr length out pm.blocks

/-- `write_value<T>` for a `T` of `n` bytes. -/
def writeValue (pm : PhysicalMemory) (n addr value : ℕ) : Int × PhysicalMemory :=
  pm.writeData addr n (byteOf value)

/-- `read_value<T>` for a `T` of `n` bytes. -/
def readValue (pm : PhysicalMemory) (n addr : ℕ) : ℕ :=
  let r := pm.readData addr n fun _ => 0
  if r.1 = 0 then littleEndian n r.2 else 0

/-- Bit `i` of a mask given as bytes. -/
def maskBit (mask : ℕ → UInt8) (i : ℕ) : Bool := (mask (i / 8)).toNat.testBit (i % 8)

/-- The masked loop of `write<T>`, from element `i` on with `k` elements left. -/
def writeMasked (n addr : ℕ) (input : ℕ → ℕ) (mask : ℕ → UInt8) :
    ℕ → ℕ → PhysicalMemory → PhysicalMemory
  | _, 0, pm => pm
  | i, k + 1, pm =>
    let pm := if maskBit mask i then (pm.writeValue n (u64 (addr + i * n)) (input i)).2 else pm
    writeMasked n addr input mask (i + 1) k pm

/-- `write<T>` for a `T` of `n` bytes. -/
def write (pm : PhysicalMemory) (n addr num : ℕ) (input : ℕ → ℕ)
    (mask : Option (ℕ → UInt8)) : Int × PhysicalMemory :=
  match mask with
  | none => (0, (pm.writeData addr (u64 (num * n)) fun j => byteOf (input (j / n)) (j % n)).2)
  | some mask => (0, writeMasked n addr input mask 0 num pm)

/-- `read<T>` for a `T` of `n` bytes; `data` is the buffer before the call. -/
def read (pm : PhysicalMemory) (n addr num : ℕ) (data : ℕ → ℕ)
    (mask : Option (ℕ → UInt8)) : Int × (ℕ → ℕ) :=
  let bytes := (pm.readData addr (u64 (num * n)) fun j => byteOf (data (j / n)) (j % n)).2
  let words := fun i => littleEndian n fun j => bytes (i * n + j)
  match mask with
  | none => (0, words)
  | some mask => (0, fun i => if i < num ∧ maskBit mask i = false then 0 else words i)

/-- The scan of `usable` with its running maximum. -/
def usableFrom (maxRange size : ℕ) : ℕ → List Block → ℕ
  | usable, iter :: next :: rest =>
    let usable := if usable ≤ iter.endAddr then iter.endAddr else usable
    if next.gtPos (sub64 (usable + size) 1) then
      if u64 (usable + size) ≤ maxRange then usable else 0
    else usableFrom maxRange size usable (next :: rest)
  | _, _ => 0

/-- The lowest free address with room for `size` bytes rounded up to pages, or 0. -/
def usable (pm : PhysicalMemory) (size : ℕ) : ℕ :=
  let size := u64 (size + pageSize - 1) / pageSize * pageSize
  usableFrom pm.maxRange size 0 pm.blocks

/-- The size of the block that contains the address, or 0. -/
def length (pm : PhysicalMemory) (addr : ℕ) : ℕ :=
  match pm.blocks.find? fun b => decide (b.eqPos addr) with
  | none => 0
  | some b => b.size

end PhysicalMemory
end VentusDriver
