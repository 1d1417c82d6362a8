import Hqemu.Lib.Linear

/-! The lock-free queue of `utils.c`, one access to shared memory at a time. A pair of pointer and
count is loaded word by word. A freed node keeps what it holds until it is reused. -/
namespace Hqemu.Llvm.MsQueue

open Lib.Linear

abbrev Addr := Nat

section Memory

variable (w : Nat) (Value : Type)

structure Pointer where
  ptr : Option Addr
  count : BitVec w
deriving DecidableEq

/-- `node_t`. A value is a pointer that is not null; the first node has none. -/
structure Node where
  next : Pointer w
  value : Option Value
  live : Bool

structure Queue where
  heap : Addr → Node w Value
  head : Pointer w
  tail : Pointer w

/-- Where a thread is, with its variables. The constructor names the access it makes next. -/
inductive Local where
  | idle
  | crashed
  | newNode (data : Value)
  | loadTail (node : Addr)
  | loadTailCount (node : Addr) (tail : Option Addr)
  | loadNext (node : Addr) (tail : Pointer w)
  | loadNextCount (node : Addr) (tail : Pointer w) (next : Option Addr)
  | reloadTail (node : Addr) (tail next : Pointer w)
  | reloadTailCount (node : Addr) (tail next : Pointer w) (now : Option Addr)
  | checkTail (node : Addr) (tail next now : Pointer w)
  | linkNode (node : Addr) (tail next : Pointer w)
  | helpEnqueue (node : Addr) (tail next : Pointer w)
  | swingTail (node : Addr) (tail : Pointer w)
  | enqueued
  | loadHead
  | loadHeadCount (head : Option Addr)
  | loadLast (head : Pointer w)
  | loadLastCount (head : Pointer w) (tail : Option Addr)
  | loadFirst (head tail : Pointer w)
  | loadFirstCount (head tail : Pointer w) (next : Option Addr)
  | reloadHead (head tail next : Pointer w)
  | reloadHeadCount (head tail next : Pointer w) (now : Option Addr)
  | checkHead (head tail next now : Pointer w)
  | helpDequeue (tail next : Pointer w)
  | loadValue (head next : Pointer w)
  | swingHead (head next : Pointer w) (data : Option Value)
  | freeHead (head : Pointer w) (data : Option Value)
  | dequeued (data : Option Value)

variable {w Value}

def cas2 (cell old new : Pointer w) : Option (Pointer w) :=
  if cell = old then some new else none

def Queue.setNext (queue : Queue w Value) (addr : Addr) (next : Pointer w) : Queue w Value :=
  { queue with heap := Function.update queue.heap addr { queue.heap addr with next := next } }

def enqueueStep (queue : Queue w Value) : Local w Value → Option (Queue w Value × Local w Value)
  | .loadTail node => some (queue,.loadTailCount node queue.tail.ptr)
  | .loadTailCount node tail => some (queue,.loadNext node ⟨tail,queue.tail.count⟩)
  | .loadNext node tail =>
    match tail.ptr with
    | none => some (queue,.crashed)
    | some last => some (queue,.loadNextCount node tail (queue.heap last).next.ptr)
  | .loadNextCount node tail next =>
    match tail.ptr with
    | none => some (queue,.crashed)
    | some last => some (queue,.reloadTail node tail ⟨next,(queue.heap last).next.count⟩)
  | .reloadTail node tail next => some (queue,.reloadTailCount node tail next queue.tail.ptr)
  | .reloadTailCount node tail next now =>
    some (queue,.checkTail node tail next ⟨now,queue.tail.count⟩)
  | .checkTail node tail next now =>
    match cas2 queue.tail tail now with
    | none => some (queue,.loadTail node)
    | some pair =>
      some ({ queue with tail := pair },
        if next.ptr = none then .linkNode node tail next else .helpEnqueue node tail next)
  | .linkNode node tail next =>
    match tail.ptr with
    | none => some (queue,.crashed)
    | some last =>
      match cas2 (queue.heap last).next next ⟨some node,next.count+1⟩ with
      | none => some (queue,.loadTail node)
      | some pair => some (queue.setNext last pair,.swingTail node tail)
  | .helpEnqueue node tail next =>
    match cas2 queue.tail tail ⟨next.ptr,tail.count+1⟩ with
    | none => some (queue,.loadTail node)
    | some pair => some ({ queue with tail := pair },.loadTail node)
  | .swingTail node tail =>
    match cas2 queue.tail tail ⟨some node,tail.count+1⟩ with
    | none => some (queue,.enqueued)
    | some pair => some ({ queue with tail := pair },.enqueued)
  | _ => none

def dequeueStep (queue : Queue w Value) : Local w Value → Option (Queue w Value × Local w Value)
  | .loadHead => some (queue,.loadHeadCount queue.head.ptr)
  | .loadHeadCount head => some (queue,.loadLast ⟨head,queue.head.count⟩)
  | .loadLast head => some (queue,.loadLastCount head queue.tail.ptr)
  | .loadLastCount head tail => some (queue,.loadFirst head ⟨tail,queue.tail.count⟩)
  | .loadFirst head tail =>
    match head.ptr with
    | none => some (queue,.crashed)
    | some dummy => some (queue,.loadFirstCount head tail (queue.heap dummy).next.ptr)
  | .loadFirstCount head tail next =>
    match head.ptr with
    | none => some (queue,.crashed)
    | some dummy => some (queue,.reloadHead head tail ⟨next,(queue.heap dummy).next.count⟩)
  | .reloadHead head tail next => some (queue,.reloadHeadCount head tail next queue.head.ptr)
  | .reloadHeadCount head tail next now =>
    some (queue,.checkHead head tail next ⟨now,queue.head.count⟩)
  | .checkHead head tail next now =>
    match cas2 queue.head head now with
    | none => some (queue,.loadHead)
    | some pair =>
      some ({ queue with head := pair },
        if head.ptr = tail.ptr then
          if next.ptr = none then .dequeued none else .helpDequeue tail next
        else .loadValue head next)
  | .helpDequeue tail next =>
    match cas2 queue.tail tail ⟨next.ptr,tail.count+1⟩ with
    | none => some (queue,.loadHead)
    | some pair => some ({ queue with tail := pair },.loadHead)
  | .loadValue head next =>
    match next.ptr with
    | none => some (queue,.crashed)
    | some first => some (queue,.swingHead head next (queue.heap first).value)
  | .swingHead head next data =>
    match cas2 queue.head head ⟨next.ptr,head.count+1⟩ with
    | none => some (queue,.loadHead)
    | some pair => some ({ queue with head := pair },.freeHead head data)
  | .freeHead head data =>
    match head.ptr with
    | none => some (queue,.crashed)
    | some dummy =>
      some ({ queue with
        heap := Function.update queue.heap dummy { queue.heap dummy with live := false } },
        .dequeued data)
  | _ => none

def Local.node : Local w Value → Option Addr
  | .loadTail node | .loadTailCount node _ | .loadNext node _ | .loadNextCount node _ _
  | .reloadTail node _ _ | .reloadTailCount node _ _ _ | .checkTail node _ _ _
  | .linkNode node _ _ | .helpEnqueue node _ _ => some node
  | _ => none

def Local.held : Local w Value → Option Addr
  | .loadTailCount _ tail => tail
  | .loadNext _ tail | .loadNextCount _ tail _ | .reloadTail _ tail _ | .reloadTailCount _ tail _ _
  | .checkTail _ tail _ _ | .linkNode _ tail _ | .helpEnqueue _ tail _ | .swingTail _ tail
  | .helpDequeue tail _ => tail.ptr
  | .loadHeadCount head => head
  | .loadLast head | .loadLastCount head _ | .loadFirst head _ | .loadFirstCount head _ _
  | .reloadHead head _ _ | .reloadHeadCount head _ _ _ | .checkHead head _ _ _ | .loadValue head _
  | .swingHead head _ _ | .freeHead head _ => head.ptr
  | _ => none

end Memory

section System

variable (n w : Nat) (Value : Type)

structure System where
  queue : Queue w Value
  threads : Fin n → Local w Value

inductive Action where
  | enqueue (tid : Fin n) (data : Value)
  | dequeue (tid : Fin n)
  | alloc (tid : Fin n) (addr : Addr) (count : BitVec w)
  | access (tid : Fin n)
  | ret (tid : Fin n)

variable {n w Value}

def System.put (system : System n w Value) (tid : Fin n) (queue : Queue w Value)
    (next : Local w Value) : System n w Value :=
  ⟨queue,Function.update system.threads tid next⟩

def Local.result : Local w Value → Option (QueueRes Value)
  | .enqueued => some .stored
  | .dequeued data => some (.taken data)
  | _ => none

def System.Free (system : System n w Value) (addr : Addr) : Prop :=
  (system.queue.heap addr).live = false ∧ ∀ tid, (system.threads tid).held ≠ some addr

instance (system : System n w Value) (addr : Addr) : Decidable (system.Free addr) :=
  inferInstanceAs (Decidable (_ ∧ _))

def step (system : System n w Value) : Action n w Value → Option (System n w Value)
  | .enqueue tid data =>
    match system.threads tid with
    | .idle => some (system.put tid system.queue (.newNode data))
    | _ => none
  | .dequeue tid =>
    match system.threads tid with
    | .idle => some (system.put tid system.queue .loadHead)
    | _ => none
  | .alloc tid addr count =>
    match system.threads tid with
    | .newNode data =>
      if system.Free addr then
        let node : Node w Value := ⟨⟨none,count⟩,some data,true⟩
        some (system.put tid
          { system.queue with heap := Function.update system.queue.heap addr node }
          (.loadTail addr))
      else none
    | _ => none
  | .access tid =>
    ((enqueueStep system.queue (system.threads tid)).or
      (dequeueStep system.queue (system.threads tid))).map fun out => system.put tid out.1 out.2
  | .ret tid => (system.threads tid).result.map fun _ => system.put tid system.queue .idle

def event (system : System n w Value) :
    Action n w Value → Option (Event (Fin n) (QueueOp Value) (QueueRes Value))
  | .enqueue tid data => some (.call tid (.enqueue data))
  | .dequeue tid => some (.call tid .dequeue)
  | .ret tid => (system.threads tid).result.map (Event.ret tid)
  | _ => none

def history : System n w Value → List (Action n w Value) →
    List (Event (Fin n) (QueueOp Value) (QueueRes Value))
  | _, [] => []
  | system, action :: rest =>
    match step system action with
    | none => []
    | some next => (event system action).toList ++ history next rest

def create (garbage : Addr → Node w Value) (dummy : Addr) : System n w Value where
  queue :=
    { heap := Function.update (fun addr => { garbage addr with live := false }) dummy
        ⟨⟨none,(garbage dummy).next.count⟩,none,true⟩
      head := ⟨some dummy,0⟩
      tail := ⟨some dummy,0⟩ }
  threads := fun _ => .idle

end System

end Hqemu.Llvm.MsQueue
