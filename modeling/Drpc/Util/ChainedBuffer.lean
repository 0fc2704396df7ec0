import Drpc.Library.Chain
import Drpc.Util.BufferBlock

/-! # The chained buffer

`ChainedBuffer`: a chain of blocks from `head_` to `tail_` and a free list, with
the nodes as cells of an explicit heap. An operation is `none` where the source
dereferences a null pointer, or does not return.
-/

namespace Drpc.Util

abbrev Ptr := Nat

structure Node where
  block : BufferBlock
  next : Option Ptr

/-- The buffer and the cells its nodes live in: those below `fresh` were allocated. -/
structure ChainedBuffer where
  heap : Ptr → Node
  fresh : Ptr
  head : Option Ptr
  tail : Option Ptr
  freeList : Option Ptr
  totalSize : Nat
  consumedBytes : Nat
  limit : Int

/-- `INT32_MAX`: no limit. -/
def noLimit : Int := 2 ^ 31 - 1

/-- `IOV_MAX` -/
def iovMax : Nat := 1024

namespace ChainedBuffer

/-! ## The operations -/

/-- A new buffer, on memory whose bytes are whatever they are. -/
def init (memory : Ptr → Nat → UInt8) : ChainedBuffer where
  heap node := ⟨⟨memory node, 0, 0⟩, none⟩
  fresh := 1
  head := some 0
  tail := some 0
  freeList := none
  totalSize := 0
  consumedBytes := 0
  limit := noLimit

/-- The block of a node. -/
def block (b : ChainedBuffer) (node : Ptr) : BufferBlock := (b.heap node).block

/-- The link of a node. -/
def next (b : ChainedBuffer) (node : Ptr) : Option Ptr := (b.heap node).next

def setBlock (b : ChainedBuffer) (node : Ptr) (block : BufferBlock) : ChainedBuffer :=
  { b with heap := Function.update b.heap node { b.heap node with block } }

def setNext (b : ChainedBuffer) (node : Ptr) (next : Option Ptr) : ChainedBuffer :=
  { b with heap := Function.update b.heap node { b.heap node with next } }

/-- A node without a link and with an empty block; the array keeps its bytes. -/
def renew (b : ChainedBuffer) (node : Ptr) : ChainedBuffer :=
  (b.setNext node none).setBlock node (b.block node).reset

/-- A node of the free list, or a new one. -/
def allocateNode (b : ChainedBuffer) : ChainedBuffer × Ptr :=
  match b.freeList with
  | some node => ({ b.renew node with freeList := b.next node }, node)
  | none => ({ b.renew b.fresh with fresh := b.fresh + 1 }, b.fresh)

def deallocateNode (b : ChainedBuffer) (node : Ptr) : ChainedBuffer :=
  { ((b.setBlock node (b.block node).reset).setNext node b.freeList) with freeList := some node }

def appendNode (b : ChainedBuffer) : ChainedBuffer :=
  let (b, new) := b.allocateNode
  match b.tail with
  | none => { b with head := some new, tail := some new }
  | some tail => { (b.setNext tail (some new)) with tail := some new }

def removeHead (b : ChainedBuffer) : ChainedBuffer :=
  match b.head with
  | none => b
  | some node =>
      { b with
        head := b.next node
        tail := if b.tail = some node then none else b.tail }.deallocateNode node

/-- The loop of `write`. The reference to the block of the tail is taken before a
node may be appended. -/
def writeLoop (blockSize : Nat) : Nat → ChainedBuffer → Bytes → Nat → Option (ChainedBuffer × Nat)
  | _, b, [], written => some (b, written)
  | 0, _, _ :: _, _ => none
  | fuel + 1, b, source, written =>
      match b.tail with
      | none => none
      | some tail =>
          let b := if (b.block tail).full blockSize then b.appendNode else b
          let (block, count) := (b.block tail).write blockSize source
          writeLoop blockSize fuel { (b.setBlock tail block) with totalSize := b.totalSize + count }
            (source.drop count) (written + count)

/-- `write`: in every second turn at the latest a byte is written. -/
def write (blockSize : Nat) (b : ChainedBuffer) (data : Bytes) : Option (ChainedBuffer × Nat) :=
  writeLoop blockSize (2 * data.length) b data 0

/-- The loop of `read`; it ends when the chain does. -/
def readLoop : Nat → ChainedBuffer → Nat → Bytes → Option (ChainedBuffer × Bytes)
  | _, b, 0, taken => some (b, taken)
  | fuel, b, length + 1, taken =>
      match b.head, fuel with
      | none, _ => some (b, taken)
      | some _, 0 => none
      | some head, fuel + 1 =>
          let view := (b.block head).readView
          let count := min (length + 1) view.length
          let (block, _) := (b.block head).read count
          let b := { (b.setBlock head block) with
            consumedBytes := b.consumedBytes + count
            totalSize := sizeSub b.totalSize count }
          readLoop fuel (if block.empty then b.removeHead else b) (length + 1 - count)
            (taken ++ view.take count)

/-- `read`: each turn but the last removes a node. -/
def read (b : ChainedBuffer) (length : Nat) : Option (ChainedBuffer × Bytes) :=
  readLoop (b.fresh + 1) b length []

def commitResv (blockSize : Nat) (b : ChainedBuffer) (resv : Int) : Option ChainedBuffer :=
  if 0 < resv then
    match b.tail with
    | none => none
    | some tail =>
        let block := { b.block tail with writePos := wrapAdd (b.block tail).writePos resv }
        let b := { (b.setBlock tail block) with totalSize := sizeAdd b.totalSize resv }
        some (if block.full blockSize then b.appendNode else b)
  else some b

/-- The loop of `commit_send`. -/
def commitSendLoop : Nat → ChainedBuffer → Nat → Option ChainedBuffer
  | _, b, 0 => some b
  | 0, _, _ + 1 => none
  | fuel + 1, b, send + 1 =>
      match b.head with
      | none => none
      | some head =>
          let least := min (send + 1) (b.block head).size
          let count := Int.bmod least (2 ^ 32)
          let block := { b.block head with readPos := wrapAdd (b.block head).readPos count }
          let b := b.setBlock head block
          let b :=
            if block.empty then
              (if b.next head = none then b.appendNode else b).removeHead
            else b
          -- `send` is no counter of bytes: a negative count wraps it around
          commitSendLoop fuel b
            (if count < 0 then wrapAdd (send + 1) (-count) else sizeAdd (send + 1) (-count))

/-- `commit_send`: each turn but the last removes a node. -/
def commitSend (b : ChainedBuffer) (send : Nat) : Option ChainedBuffer :=
  if send = 0 then some b
  else commitSendLoop (b.fresh + 1) { b with totalSize := sizeSub b.totalSize send } send

/-- Where the next byte goes, and how much room there is. -/
def writeView (blockSize : Nat) (b : ChainedBuffer) : Option (Ptr × Nat × Nat) :=
  match b.tail with
  | none => none
  | some tail => some (tail, (b.block tail).writeView blockSize)

/-- The nodes of the chain. -/
def nodes (b : ChainedBuffer) : List Ptr := Chain.walk b.next b.fresh b.head

/-- The bytes of the first `IOV_MAX` blocks. -/
def getIovecs (b : ChainedBuffer) : List Bytes :=
  (Chain.walk b.next iovMax b.head).map fun node => (b.block node).unread

/-- `input_next`: the region, or `none` inside when there is nothing to give. -/
def inputNext (blockSize : Nat) (b : ChainedBuffer) :
    Option (ChainedBuffer × Option (Ptr × Nat × Int)) :=
  match b.head with
  | none => none
  | some head =>
      let block := b.block head
      if block.empty ∨ b.limit = 0 then some (b, none)
      else
        let size := min (Int.bmod block.size (2 ^ 32)) b.limit
        let readPos := wrapAdd block.readPos size
        let b : ChainedBuffer := { (b.setBlock head { block with readPos }) with
          limit := if b.limit = noLimit then b.limit else b.limit - size
          consumedBytes := sizeAdd b.consumedBytes size }
        let b := if readPos = blockSize ∧ b.next head ≠ none then b.removeHead else b
        some ({ b with totalSize := sizeAdd b.totalSize (-size) },
          some (head, block.readPos, size))

def inputBackUp (b : ChainedBuffer) (n : Int) : Option ChainedBuffer :=
  match b.head with
  | none => none
  | some head =>
      let block := b.block head
      let count := min n (Int.bmod block.readPos (2 ^ 32))
      some { (b.setBlock head { block with readPos := wrapAdd block.readPos (-count) }) with
        totalSize := sizeAdd b.totalSize count
        limit := if b.limit = noLimit then b.limit else b.limit + count
        consumedBytes := sizeAdd b.consumedBytes (-count) }

/-- `int64_t` of `consumed_bytes_`. -/
def inputByteCount (b : ChainedBuffer) : Int := Int.bmod b.consumedBytes (2 ^ 64)

/-- The loop of `input_skip`. The reference names the block of the node that was the
head when the loop began. -/
def skipLoop (blockSize : Nat) (node : Ptr) : Nat → ChainedBuffer → Int → Option ChainedBuffer
  | fuel, b, n =>
      if 0 < n then
        match fuel with
        | 0 => none
        | fuel + 1 =>
            let block := b.block node
            let count := min n (Int.bmod block.size (2 ^ 32))
            let readPos := wrapAdd block.readPos count
            let b : ChainedBuffer := { (b.setBlock node { block with readPos }) with
              consumedBytes := sizeAdd b.consumedBytes count
              totalSize := sizeAdd b.totalSize (-count) }
            skipLoop blockSize node fuel
              (if readPos = blockSize ∧ b.head.bind b.next ≠ none then b.removeHead else b)
              (n - count)
      else some b

/-- `input_skip` in at most `turns` turns of its loop. -/
def inputSkip (blockSize turns : Nat) (b : ChainedBuffer) (n : Int) :
    Option (ChainedBuffer × Bool) :=
  match b.head with
  | none => none
  | some head =>
      if b.inputByteCount < n then some (b, false)
      else (skipLoop blockSize head turns b n).map fun b => (b, true)

/-- `output_next`: the region. Where the tail is full, the block of the new tail is
copied over the block of the old one, which the reference still names. -/
def outputNext (blockSize : Nat) (b : ChainedBuffer) :
    Option (ChainedBuffer × Ptr × Nat × Int) :=
  match b.tail with
  | none => none
  | some tail =>
      let b :=
        if (b.block tail).full blockSize then
          let b := b.appendNode
          match b.tail with
          | none => b
          | some new => b.setBlock tail (b.block new)
        else b
      let block := b.block tail
      let size := Int.bmod (block.available blockSize) (2 ^ 32)
      some ({ (b.setBlock tail { block with writePos := wrapAdd block.writePos size }) with
          totalSize := sizeAdd b.totalSize size },
        tail, block.writePos, size)

def outputBackUp (b : ChainedBuffer) (count : Int) : Option ChainedBuffer :=
  match b.tail with
  | none => none
  | some tail =>
      let block := b.block tail
      let count := min count (Int.bmod block.writePos (2 ^ 32))
      some { (b.setBlock tail { block with writePos := wrapAdd block.writePos (-count) }) with
        totalSize := sizeAdd b.totalSize (-count) }

/-- The loop of `clear`. -/
def clearLoop : Nat → ChainedBuffer → Option ChainedBuffer
  | fuel, b =>
      match b.head, fuel with
      | none, _ => some b
      | some _, 0 => none
      | some _, fuel + 1 => clearLoop fuel b.removeHead

/-- `clear` in at most `turns` turns of its loop. -/
def clear (turns : Nat) (b : ChainedBuffer) : Option ChainedBuffer :=
  (clearLoop turns b).map fun b => { b with totalSize := 0 }

/-- The loop of the destructor: the nodes in the order in which they are deleted. -/
def deleteLoop : Nat → ChainedBuffer → Option (List Ptr)
  | fuel, b =>
      match b.freeList, fuel with
      | none, _ => some []
      | some _, 0 => none
      | some node, fuel + 1 =>
          (deleteLoop fuel { b with freeList := b.next node }).map (node :: ·)

/-- The destructor. -/
def destroy (turns : Nat) (b : ChainedBuffer) : Option (List Ptr) :=
  (b.clear turns).bind (deleteLoop turns)

def pushLimit (b : ChainedBuffer) (limit : Int) : ChainedBuffer := { b with limit }

def popLimit (b : ChainedBuffer) : ChainedBuffer := { b with limit := noLimit }

/-- The caller of `write_view` or `output_next` puts bytes into the region. -/
def fill (b : ChainedBuffer) (node : Ptr) (offset : Nat) (source : Bytes) : ChainedBuffer :=
  b.setBlock node ((b.block node).store offset source)

/-- The unread bytes of the blocks from `head_` to `tail_`. -/
def contents (b : ChainedBuffer) : Bytes := b.nodes.flatMap fun node => (b.block node).unread

end ChainedBuffer

end Drpc.Util
