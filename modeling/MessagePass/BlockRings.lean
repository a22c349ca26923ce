import MessagePass.LabelledRuns
import MessagePass.LinkedCycles
import MessagePass.PowersOfTwo
import MessagePass.QueueBlocks

/-!
# A reader-writer queue and its two threads

A `ReaderWriterQueue` is a circle of blocks. The consumer takes from the front block, the producer
writes to the tail block, and a producer that finds its block full goes on to the next block of
the circle unless the consumer is there; `enqueue` then links in a new block, `try_enqueue` gives
up. A step performs one access to what the other thread can see, so a schedule interleaves the two
threads at every such access. Accesses take effect in the order of the steps, which is what the
fences of the source are there for.
-/
namespace MessagePass.BlockRings
open QueueBlocks LinkedCycles

variable {T : Type}

inductive AllocationMode | canAlloc | cannotAlloc deriving DecidableEq

/-- The members of the queue, and the blocks in the order in which they were allocated. -/
structure Queue (T : Type) where
  heap : ℕ → Block T
  allocated : ℕ
  frontBlock : ℕ
  tailBlock : ℕ
  largestBlockSize : ℕ

/-- Where `inner_enqueue` stands: before its next access to what the consumer can see. A call that
has found its block full remembers how many elements the queue held then. -/
inductive ProducerPc (T : Type) where
  | idle
  | returned (success : Bool)
  | loadFront (v : T) (mode : AllocationMode)
  | construct (v : T)
  | publish (v : T)
  | checkNext (v : T) (mode : AllocationMode) (held : ℕ)
  | loadNextFront (v : T)
  | constructNext (v : T) (block : ℕ)
  | publishNext (v : T) (block : ℕ)
  | makeBlock (v : T) (held : ℕ)
  | link (v : T) (block : ℕ)
  | moveTail (v : T) (block : ℕ)
  deriving DecidableEq

inductive ConsumerOp | tryDequeue | pop | peek deriving DecidableEq

/-- A call of the consumer, with the number of elements whose enqueueing was complete before it. -/
structure Call where
  op : ConsumerOp
  since : ℕ
  deriving DecidableEq

/-- Where `try_dequeue`, `pop` or `peek` stands; the element a call goes for is at the front of
the block it names. -/
inductive ConsumerPc where
  | idle
  | returned (success : Bool)
  | loadTail (call : Call)
  | checkTailBlock (call : Call)
  | reloadTail (call : Call)
  | loadNext (call : Call)
  | loadNextTail (call : Call) (block : ℕ)
  | moveFront (call : Call) (block : ℕ)
  | element (call : Call) (block : ℕ)
  | publishFront
  deriving DecidableEq

def ProducerPc.remaining : ProducerPc T → ℕ
  | .idle | .returned _ => 0
  | .publish _ | .moveTail _ _ => 1
  | .construct _ | .publishNext _ _ | .link _ _ => 2
  | .constructNext _ _ | .makeBlock _ _ => 3
  | .loadNextFront _ => 4
  | .checkNext _ _ _ => 5
  | .loadFront _ _ => 6

def ConsumerPc.remaining : ConsumerPc → ℕ
  | .idle | .returned _ => 0
  | .publishFront => 1
  | .element _ _ => 2
  | .moveFront _ _ => 3
  | .loadNextTail _ _ => 4
  | .loadNext _ => 5
  | .reloadTail _ => 6
  | .checkTailBlock _ => 7
  | .loadTail _ => 8

def ProducerPc.value? : ProducerPc T → Option T
  | .loadFront v _ | .construct v | .publish v | .checkNext v _ _ | .loadNextFront v
  | .constructNext v _ | .publishNext v _ | .makeBlock v _ | .link v _ | .moveTail v _ => some v
  | .idle | .returned _ => none

def ConsumerPc.call? : ConsumerPc → Option Call
  | .loadTail call | .checkTailBlock call | .reloadTail call | .loadNext call
  | .loadNextTail call _ | .moveFront call _ | .element call _ => some call
  | .idle | .returned _ | .publishFront => none

/-- What must not happen: a failing assertion, a null pointer that is followed, a cell that is read
without an object in it, an object constructed over another one. -/
inductive Fault | assertion | nullBlock | rawCell | liveCell deriving DecidableEq

/-- The queue, its two threads, and what they did: the elements enqueued and dequeued, what each
`peek` saw and after how many removals, the calls of the consumer that found no element (with the
elements enqueued before the call and removed until then), and how many elements the queue held in
each call of the producer that found no block to go on to. -/
structure State (T : Type) where
  queue : Queue T
  producer : ProducerPc T := .idle
  consumer : ConsumerPc := .idle
  fault : Option Fault := none
  enqueued : List T := []
  dequeued : List T := []
  peeked : List (ℕ × T) := []
  misses : List (ℕ × ℕ) := []
  noRoom : List ℕ := []

namespace Queue

def front (q : Queue T) : Block T := q.heap q.frontBlock
def tail (q : Queue T) : Block T := q.heap q.tailBlock

def set (q : Queue T) (b : ℕ) (block : Block T) : Queue T :=
  { q with heap := Function.update q.heap b block }

section Reads
variable (q : Queue T) (b : ℕ) (block : Block T)

@[simp] theorem heap_set_self : (q.set b block).heap b = block := Function.update_self ..
@[simp] theorem front_set_self : (q.set q.frontBlock block).front = block :=
  Function.update_self ..
@[simp] theorem tail_set_self : (q.set q.tailBlock block).tail = block := Function.update_self ..

theorem front_set_of_ne {b : ℕ} (h : q.frontBlock ≠ b) : (q.set b block).front = q.front :=
  Function.update_of_ne h ..

theorem tail_set_of_ne {b : ℕ} (h : q.tailBlock ≠ b) : (q.set b block).tail = q.tail :=
  Function.update_of_ne h ..

@[simp] theorem frontBlock_set : (q.set b block).frontBlock = q.frontBlock := rfl
@[simp] theorem tailBlock_set : (q.set b block).tailBlock = q.tailBlock := rfl
@[simp] theorem allocated_set : (q.set b block).allocated = q.allocated := rfl

end Reads

/-- `largestBlockSize` after a block was made: it doubles up to the maximum. -/
def newBlockSize (maxBlockSize : ℕ) (q : Queue T) : ℕ :=
  if maxBlockSize ≤ q.largestBlockSize then q.largestBlockSize else q.largestBlockSize * 2

def addBlock (maxBlockSize : ℕ) (q : Queue T) (v : T) : Queue T :=
  { q with
    heap := Function.update q.heap q.allocated
      (Block.withFirst (q.newBlockSize maxBlockSize) v q.tail.next)
    allocated := q.allocated + 1
    largestBlockSize := q.newBlockSize maxBlockSize }

/-- The blocks in the order in which a `do … while (block != frontBlock)` loop visits them. -/
def blocks (q : Queue T) : Option (List ℕ) :=
  walk (fun b => (q.heap b).next) q.frontBlock q.allocated q.frontBlock

def scanBlocks (q : Queue T) : List ℕ → Option (List T)
  | [] => some []
  | b :: bs => ((q.heap b).scan ((q.heap b).sizeMask + 1) (q.heap b).front).bind fun held =>
      (q.scanBlocks bs).map (held ++ ·)

/-- The destructor: the elements it destroys and the blocks it frees. -/
def destroy (q : Queue T) : Option (List T × List ℕ) :=
  q.blocks.bind fun bs => (q.scanBlocks bs).map fun held => (held, bs)

def sizeApprox (q : Queue T) : Option ℕ :=
  q.blocks.map fun bs => (bs.map fun b =>
    (((q.heap b).tail + (2 ^ 64 - (q.heap b).front)) % 2 ^ 64) &&& (q.heap b).sizeMask).sum % 2 ^ 64

def maxCapacity (q : Queue T) : Option ℕ :=
  q.blocks.map fun bs => (bs.map fun b => (q.heap b).sizeMask).sum % 2 ^ 64

end Queue

namespace State

def removals (s : State T) : ℕ :=
  match s.consumer with
  | .publishFront => 1
  | _ => 0

/-- The elements in the queue; one that is being moved out still takes up its place. -/
def held (s : State T) : ℕ := s.enqueued.length - s.dequeued.length + s.removals

def construct (s : State T) (b : ℕ) (v : T) (pc : ProducerPc T) : State T :=
  match (s.queue.heap b).data (s.queue.heap b).tail with
  | none => { s with queue := s.queue.set b ((s.queue.heap b).construct v), producer := pc }
  | some _ => { s with fault := some .liveCell }

/-- `inner_enqueue` up to its first look at the consumer's index. -/
def startEnqueue (s : State T) (v : T) (mode : AllocationMode) : State T :=
  { s with
    producer := if s.queue.tail.nextTail ≠ s.queue.tail.localFront then .construct v
      else .loadFront v mode }

/-- `malloc` says whether an allocation succeeds, where a step makes one. -/
def producerStep (maxBlockSize : ℕ) (malloc : Bool) (s : State T) : Option (State T) :=
  match s.producer with
  | .idle | .returned _ => none
  | .loadFront v mode =>
      let tail := s.queue.tail.loadFront
      some { s with
        queue := s.queue.set s.queue.tailBlock tail
        producer := if tail.nextTail ≠ tail.localFront then .construct v
          else .checkNext v mode s.held }
  | .construct v => some (s.construct s.queue.tailBlock v (.publish v))
  | .publish v =>
      some { s with
        queue := s.queue.set s.queue.tailBlock s.queue.tail.publishTail
        producer := .returned true
        enqueued := s.enqueued ++ [v] }
  | .checkNext v mode held =>
      if s.queue.tail.next ≠ some s.queue.frontBlock then
        some { s with producer := .loadNextFront v }
      else match mode with
        | .canAlloc => some { s with producer := .makeBlock v held }
        | .cannotAlloc =>
            some { s with producer := .returned false, noRoom := s.noRoom ++ [held] }
  | .loadNextFront v =>
      match s.queue.tail.next with
      | none => some { s with fault := some .nullBlock }
      | some n =>
          let next := (s.queue.heap n).loadFront
          if next.localFront = next.tail then
            some { s with queue := s.queue.set n next, producer := .constructNext v n }
          else some { s with fault := some .assertion }
  | .constructNext v n => some (s.construct n v (.publishNext v n))
  | .publishNext v n =>
      some { s with
        queue := s.queue.set n (s.queue.heap n).publishTail
        producer := .moveTail v n }
  | .makeBlock v held =>
      if malloc then
        some { s with
          queue := s.queue.addBlock maxBlockSize v
          producer := .link v s.queue.allocated
          noRoom := s.noRoom ++ [held] }
      else some { s with producer := .returned false, noRoom := s.noRoom ++ [held] }
  | .link v n =>
      some { s with
        queue := s.queue.set s.queue.tailBlock { s.queue.tail with next := some n }
        producer := .moveTail v n }
  | .moveTail v n =>
      some { s with
        queue := { s.queue with tailBlock := n }
        producer := .returned true
        enqueued := s.enqueued ++ [v] }

def startCall (s : State T) (op : ConsumerOp) : State T :=
  { s with
    consumer := if s.queue.front.front ≠ s.queue.front.localTail
      then .element ⟨op, s.enqueued.length⟩ s.queue.frontBlock
      else .loadTail ⟨op, s.enqueued.length⟩ }

def consumerStep (s : State T) : Option (State T) :=
  match s.consumer with
  | .idle | .returned _ => none
  | .loadTail call =>
      let front := s.queue.front.loadTail
      some { s with
        queue := s.queue.set s.queue.frontBlock front
        consumer := if front.front ≠ front.localTail then .element call s.queue.frontBlock
          else .checkTailBlock call }
  | .checkTailBlock call =>
      if s.queue.frontBlock ≠ s.queue.tailBlock then some { s with consumer := .reloadTail call }
      else some { s with
        consumer := .returned false
        misses := s.misses ++ [(call.since, s.dequeued.length)] }
  | .reloadTail call =>
      let front := s.queue.front.loadTail
      some { s with
        queue := s.queue.set s.queue.frontBlock front
        consumer := if front.front ≠ front.localTail then .element call s.queue.frontBlock
          else .loadNext call }
  | .loadNext call =>
      match s.queue.front.next with
      | none => some { s with fault := some .nullBlock }
      | some n => some { s with consumer := .loadNextTail call n }
  | .loadNextTail call n =>
      if (s.queue.heap n).front ≠ (s.queue.heap n).tail then
        match call.op with
        | .peek => some { s with consumer := .element call n }
        | .tryDequeue | .pop =>
            some { s with
              queue := s.queue.set n (s.queue.heap n).loadTail
              consumer := .moveFront call n }
      else some { s with fault := some .assertion }
  | .moveFront call n =>
      some { s with queue := { s.queue with frontBlock := n }, consumer := .element call n }
  | .element call b =>
      match (s.queue.heap b).data (s.queue.heap b).front with
      | none => some { s with fault := some .rawCell }
      | some v =>
          match call.op with
          | .peek =>
              some { s with
                consumer := .returned true
                peeked := s.peeked ++ [(s.dequeued.length, v)] }
          | .tryDequeue | .pop =>
              some { s with
                queue := s.queue.set b (s.queue.heap b).moveOut
                consumer := .publishFront
                dequeued := s.dequeued ++ [v] }
  | .publishFront =>
      some { s with
        queue := s.queue.set s.queue.frontBlock s.queue.front.publishFront
        consumer := .returned true }

end State

inductive Label (T : Type) where
  | enqueue (v : T) (mode : AllocationMode)
  | producer (malloc : Bool)
  | call (op : ConsumerOp)
  | consumer
  deriving DecidableEq

def Label.ofProducer : Label T → Bool
  | .producer _ => true
  | _ => false

def Label.ofConsumer : Label T → Bool
  | .consumer => true
  | _ => false

def next (maxBlockSize : ℕ) (s : State T) (label : Label T) : Option (State T) :=
  if s.fault.isSome then none
  else match label with
    | .enqueue v mode =>
        match s.producer with
        | .idle | .returned _ => some (s.startEnqueue v mode)
        | _ => none
    | .producer malloc => s.producerStep maxBlockSize malloc
    | .call op =>
        match s.consumer with
        | .idle | .returned _ => some (s.startCall op)
        | _ => none
    | .consumer => s.consumerStep

def ceilToPow2 (x : ℕ) : ℕ :=
  let x := (x + (2 ^ 64 - 1)) % 2 ^ 64
  let x := x ||| x >>> 1
  let x := x ||| x >>> 2
  let x := x ||| x >>> 4
  let x := x ||| x >>> 8
  let x := x ||| x >>> 16
  let x := x ||| x >>> 32
  (x + 1) % 2 ^ 64

/-- The loop of the constructor: the blocks numbered below `count` form a circle that starts at the
first one. -/
def reserve (T : Type) (blockSize : ℕ) : ℕ → ℕ → Block T
  | 0 => fun _ => makeBlock T blockSize
  | 1 => Function.update (reserve T blockSize 0) 0 { makeBlock T blockSize with next := some 0 }
  | i + 2 =>
      let heap := reserve T blockSize (i + 1)
      let heap := Function.update heap i { heap i with next := some (i + 1) }
      Function.update heap (i + 1) { makeBlock T blockSize with next := some 0 }

def Queue.make (T : Type) (maxBlockSize size : ℕ) : Queue T :=
  let largestBlockSize := ceilToPow2 ((size + 1) % 2 ^ 64)
  if maxBlockSize * 2 < largestBlockSize then
    let initialBlockCount := (size + maxBlockSize * 2 - 3) / (maxBlockSize - 1)
    { heap := reserve T maxBlockSize initialBlockCount
      allocated := initialBlockCount
      frontBlock := 0
      tailBlock := 0
      largestBlockSize := maxBlockSize }
  else
    { heap := reserve T largestBlockSize 1
      allocated := 1
      frontBlock := 0
      tailBlock := 0
      largestBlockSize := largestBlockSize }

def make (T : Type) (maxBlockSize size : ℕ) : State T where
  queue := .make T maxBlockSize size

end MessagePass.BlockRings
