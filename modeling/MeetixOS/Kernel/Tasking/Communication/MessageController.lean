import MeetixOS.Lib.Runs
import MeetixOS.Kernel.Utils.HashMap

/-! # Message queues

`tasking/communication/MessageController.cpp` and the limits in `Api/IPC.h`. A message lies in a block, a
header and the bytes behind it, from one of six pools of blocks of one size each; the queue of a thread is a
doubly linked list of blocks. `none` is a null or wild pointer, a write over the end of a block, or a loop
that does not end. What `new` returns is a parameter. An `AddressStack` is a list with its top first. -/

namespace MeetixOS.Kernel

/-! ## Data -/

abbrev MessageTransaction := Nat

def messageTransactionNone : MessageTransaction := 0

def messageMaximumLength : Nat := 8192

def messageMaximumQueueContent : Nat := 8192 * 64

def messageQueueSize : Nat := 64

/-- `sizeof(MessageHeader)`: five packed words. -/
def sizeofMessageHeader : Nat := 20

inductive MessageSendStatus
  | successful
  | queueFull
  | failed
  | exceedsMaximum
  deriving DecidableEq, Repr

inductive MessageReceiveStatus
  | successful
  | queueEmpty
  | failed
  | failedNotPermitted
  | exceedsBufferSize
  | interrupted
  deriving DecidableEq, Repr

/-- `MessageHeader`, with the bytes of its block that lie behind it. -/
structure MessageHeader where
  senderTid : Tid := 0
  transaction : MessageTransaction := 0
  messageLen : Nat := 0
  previous : Option Address := none
  next : Option Address := none
  content : List UInt8

/-- A message as it is sent and as it is received: its header fields and the bytes of its content. -/
structure Message where
  sender : Tid
  transaction : MessageTransaction
  length : Nat
  content : List UInt8
  deriving DecidableEq

/-- What `Memory::copy` puts into the buffer of the receiver, its pointers aside. -/
def MessageHeader.message (header : MessageHeader) : Message :=
  { sender := header.senderTid
    transaction := header.transaction
    length := header.messageLen
    content := header.content.take header.messageLen }

structure MessageQueueHead where
  first : Option Address := none
  last : Option Address := none
  total : Nat := 0

/-- The six pools. -/
inductive MessageMemoryPool
  | pool32
  | pool64
  | pool256
  | pool2048
  | pool4096
  | pool8192
  deriving DecidableEq, Repr

/-- The size of the blocks in a pool. -/
def MessageMemoryPool.size : MessageMemoryPool → Nat
  | pool32 => 32
  | pool64 => 64
  | pool256 => 256
  | pool2048 => 2048
  | pool4096 => 4096
  | pool8192 => 8192

/-- The pool that `get` and `release` choose for a size. -/
def poolFor (size : Nat) : Option MessageMemoryPool :=
  if size < 32 then some .pool32
  else if size < 64 then some .pool64
  else if size < 256 then some .pool256
  else if size < 2048 then some .pool2048
  else if size < 4096 then some .pool4096
  else if size < 8192 then some .pool8192
  else none

/-- What `new` returns, allocation by allocation. Blocks of messages are never deleted, so no address
comes twice. -/
structure KernelHeap where
  address : Nat → Option Address
  distinct : ∀ i j a, address i = some a → address j = some a → i = j

/-- The queues, the pools, the blocks, and the number of blocks allocated so far. -/
structure MessageController where
  queues : Option (HashMap Tid MessageQueueHead) := none
  pools : MessageMemoryPool → List Address := fun _ => []
  memory : Address → Option MessageHeader := fun _ => none
  allocations : Nat := 0

namespace MessageController

/-! ## Pools -/

/-- Changes the stack of a pool. -/
def setPool (s : MessageController) (pool : MessageMemoryPool) (addresses : List Address) :
    MessageController :=
  { s with pools := Function.update s.pools pool addresses }

/-- `AddressStack::push`. -/
def push (s : MessageController) (pool : MessageMemoryPool) (address : Address) :
    MessageController :=
  s.setPool pool (address :: s.pools pool)

/-- `AddressStack::pop`. -/
def pop (s : MessageController) (pool : MessageMemoryPool) : Option (Address × MessageController) :=
  match s.pools pool with
  | [] => none
  | address :: rest => some (address, s.setPool pool rest)

/-- Puts a block at an address. -/
def setHeader (s : MessageController) (address : Address) (header : MessageHeader) :
    MessageController :=
  { s with memory := Function.update s.memory address (some header) }

/-- `new uint8_t[size]`, at an address. The bytes of a new block are not read before they are written. -/
def newBlock (s : MessageController) (size : Nat) (address : Address) : MessageController :=
  { s.setHeader address { content := List.replicate (size - sizeofMessageHeader) 0 } with
    allocations := s.allocations + 1 }

/-- The loop of `refill`, with `n` blocks to go; it breaks if `new` returns null. -/
def refillLoop (heap : KernelHeap) (pool : MessageMemoryPool) :
    Nat → MessageController → MessageController
  | 0, s => s
  | n + 1, s =>
    match heap.address s.allocations with
    | none => { s with allocations := s.allocations + 1 }
    | some address => refillLoop heap pool n ((s.newBlock pool.size address).push pool address)

def refill (s : MessageController) (heap : KernelHeap) (pool : MessageMemoryPool) :
    MessageController :=
  refillLoop heap pool messageQueueSize s

/-- `getFromPool`. If `refill` has allocated nothing, the function calls itself without end. -/
def getFromPool (s : MessageController) (heap : KernelHeap) (pool : MessageMemoryPool) :
    Option (Address × MessageController) :=
  match s.pop pool with
  | some result => some result
  | none => (s.refill heap pool).pop pool

def release (s : MessageController) (message : Address) : Option MessageController := do
  let header ← s.memory message
  match poolFor (sizeofMessageHeader + header.messageLen) with
  | some pool => some (s.push pool message)
  | none => some s

/-! ## Blocks and links -/

/-- A write to the header of a block. -/
def modifyMessage (s : MessageController) (message : Address)
    (f : MessageHeader → MessageHeader) : Option MessageController :=
  (s.memory message).map fun header => s.setHeader message (f header)

/-- The same through a pointer that is checked for null first. -/
def modifyIfSome (s : MessageController) (message : Option Address)
    (f : MessageHeader → MessageHeader) : Option MessageController :=
  match message with
  | none => some s
  | some message => s.modifyMessage message f

/-- The header fields and `Memory::copy` of the content into a block. -/
def writeMessage (s : MessageController) (message : Address) (source : Tid) (content : List UInt8)
    (tx : MessageTransaction) : Option MessageController := do
  let header ← s.memory message
  if content.length ≤ header.content.length then
    s.modifyMessage message fun header =>
      { header with
        transaction := tx
        senderTid := source
        messageLen := content.length
        content := content ++ header.content.drop content.length }
  else none

/-- The part of `sendMessage` that appends a message to a queue. -/
def append (s : MessageController) (queue : MessageQueueHead) (message : Address) :
    Option (MessageController × MessageQueueHead) := do
  let first := queue.first.or (some message)
  let s ← s.modifyIfSome queue.last fun header => { header with next := some message }
  let s ← s.modifyMessage message fun header =>
    { header with previous := queue.last, next := none }
  some (s, { queue with first, last := some message })

/-- The part of `receiveMessage` that takes a message out of a queue. -/
def unlink (s : MessageController) (queue : MessageQueueHead) (message : Address) :
    Option (MessageController × MessageQueueHead) := do
  let header ← s.memory message
  let (s, queue) ← match header.next with
    | some next =>
      (s.modifyMessage next fun h => { h with previous := header.previous }).map (·, queue)
    | none =>
      (s.modifyIfSome header.previous fun h => { h with next := none }).map
        (·, { queue with last := header.previous })
  match header.previous with
  | some previous =>
    (s.modifyMessage previous fun h => { h with next := header.next }).map (·, queue)
  | none =>
    (s.modifyIfSome header.next fun h => { h with previous := none }).map
      (·, { queue with first := header.next })

/-- The loop of `receiveMessage` that looks for a transaction, from the block `message` on. -/
def findMessage (s : MessageController) (tx : MessageTransaction) :
    Nat → Option Address → Option (Option Address)
  | _, none => some none
  | 0, some _ => none
  | fuel + 1, some message => do
      let header ← s.memory message
      if header.transaction = tx then some (some message)
      else s.findMessage tx fuel header.next

/-- The block that `receiveMessage` chooses: the first one, or the first one of a transaction. -/
def wantedMessage (s : MessageController) (queue : MessageQueueHead) (tx : MessageTransaction) :
    Option (Option Address) :=
  if tx = messageTransactionNone then some queue.first
  else s.findMessage tx s.allocations queue.first

/-- The loop of `clear`, from the block `message` on. -/
def releaseAll : Nat → MessageController → Option Address → Option MessageController
  | _, s, none => some s
  | 0, _, some _ => none
  | fuel + 1, s, some message => do
      let header ← s.memory message
      let s ← s.release message
      releaseAll fuel s header.next

/-! ## Calls -/

/-- The map of queues with a queue for `target`, made if there is none. -/
def ensureQueue (s : MessageController) (target : Tid) : HashMap Tid MessageQueueHead :=
  let queues := s.queues.getD .empty
  if (queues.get target).isNone then queues.add target {} else queues

def sendMessage (s : MessageController) (heap : KernelHeap) (target source : Tid)
    (content : List UInt8) (tx : MessageTransaction) :
    Option (MessageController × MessageSendStatus) :=
  let s := { s with queues := some (s.queues.getD .empty) }
  if content.length > messageMaximumLength then some (s, .exceedsMaximum)
  else
    let queues := s.ensureQueue target
    let queue := (queues.get target).getD {}
    let s := { s with queues := some queues }
    if u32 (queue.total + content.length) > messageMaximumQueueContent then some (s, .queueFull)
    else
      match poolFor (sizeofMessageHeader + content.length) with
      | none => some (s, .failed)
      | some pool => do
          let (message, s) ← s.getFromPool heap pool
          let s ← s.writeMessage message source content tx
          let (s, queue) ← s.append queue message
          let queue := { queue with total := u32 (queue.total + content.length) }
          some ({ s with queues := some (queues.update target queue) }, .successful)

/-- `MessageController::receiveMessage`, with what it copied to the receiver. -/
def receiveMessage (s : MessageController) (target : Tid) (max : Nat) (tx : MessageTransaction) :
    Option (MessageController × MessageReceiveStatus × Option Message) :=
  match s.queues.bind (·.get target), s.queues with
  | some queue, some queues => do
      match ← s.wantedMessage queue tx with
      | none => some (s, .queueEmpty, none)
      | some message => do
          let header ← s.memory message
          if sizeofMessageHeader + header.messageLen > max then some (s, .exceedsBufferSize, none)
          else do
            let (s, queue) ← s.unlink queue message
            let s ← s.release message
            let queue := { queue with total := u32 (queue.total + 2 ^ 32 - header.messageLen) }
            some ({ s with queues := some (queues.update target queue) }, .successful,
              some header.message)
  | _, _ => some (s, .queueEmpty, none)

def clear (s : MessageController) (tid : Tid) : Option MessageController :=
  match s.queues.bind (·.get tid), s.queues with
  | some queue, some queues => do
      let s ← releaseAll s.allocations s queue.first
      some { s with queues := some (queues.erase tid) }
  | _, _ => some s

end MessageController

/-- A call of the controller. -/
inductive MessageCall
  | sendMessage (target source : Tid) (content : List UInt8) (tx : MessageTransaction)
  | receiveMessage (target : Tid) (max : Nat) (tx : MessageTransaction)
  | clear (tid : Tid)

/-- What the caller sees. -/
inductive MessageResult
  | sent (status : MessageSendStatus)
  | received (status : MessageReceiveStatus) (message : Option Message)
  | cleared
  deriving DecidableEq

def MessageController.call (heap : KernelHeap) (s : MessageController) :
    MessageCall → Option (MessageController × MessageResult)
  | .sendMessage target source content tx =>
    (s.sendMessage heap target source content tx).map fun (s, status) => (s, .sent status)
  | .receiveMessage target max tx =>
    (s.receiveMessage target max tx).map fun (s, status, message) => (s, .received status message)
  | .clear tid => (s.clear tid).map (·, .cleared)

end MeetixOS.Kernel
