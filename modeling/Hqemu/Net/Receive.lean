import Hqemu.Net.MoveData

/-! The receiving half of `tcp.c`. The queue thread reads whole messages into
`recvq[RECVQ_COMPLETE]`, and posted receives take bytes out of them. -/
namespace Hqemu.Net.Receive

structure Config where
  isServer : Bool
  useCallback : Bool
  recvTag : Tag
  flushTag : Tag
deriving DecidableEq

inductive RequestStatus where
  | complete
  | inprogress
  | hup
deriving DecidableEq

/-- `struct buffer_msg_t` of a message that has been read. `flushed` is `is_flushed`, with the
socket of the flush that set it. -/
structure Inbound where
  sock : Sock
  tag : Tag
  buffer : List Byte
  requestSize : Nat
  flushed : Option Sock
deriving DecidableEq

structure Posted where
  sock : Sock
  tag : Tag
  bufs : List (List Byte)
  requestSize : Nat
  completeSize : Nat
  flushed : Option Sock
  error : RequestStatus
  /-- It is out of `recvq[RECVQ_INPROGRESS]` and freed. -/
  released : Bool
deriving DecidableEq

inductive Phase where
  /-- In `sock_nbpeek`, with `comp` bytes to go. -/
  | peek (comp : Nat)
  /-- In `tcp_block_recv` on the header. -/
  | header (got : List Byte)
  /-- In `tcp_block_recv` on the payload. -/
  | payload (got : List Byte)
deriving DecidableEq

structure Reading where
  sock : Sock
  phase : Phase
  behind : List (Sock × Bool)
deriving DecidableEq

/-- `header` is `tcp_header`. `order` is for the statements only: the receives that hold bytes, by
their first one. -/
structure State where
  inflight : Sock → List Byte
  arrived : Sock → List Byte
  polled : List Sock
  dropq : List Sock
  header : List Byte
  reading : Option Reading
  complete : List Inbound
  posted : List Posted
  halted : Bool
  order : List Nat

def init (socks : List Sock) (streams : Sock → List Framed) : State where
  inflight := fun sock => (streams sock).flatMap Framed.frame
  arrived := fun _ => []
  polled := socks
  dropq := []
  header := []
  reading := none
  complete := []
  posted := []
  halted := false
  order := []

/-- `net_error`, or `llvm_malloc` with a size that is not positive. -/
def State.halt (state : State) : State := { state with halted := true }

def tcpDropConnection (state : State) (sock : Sock) : State :=
  { state with dropq := state.dropq ++ [sock] }

/-- What `search_recvq` looks for. -/
def Inbound.suits (sock : Sock) (tag : Tag) (data : Inbound) : Bool :=
  (sock = anySource || data.sock = anySource || sock = data.sock) &&
    (tag = anyTag || data.tag = anyTag || tag = data.tag)

structure Place where
  front : List Inbound
  data : Inbound
  back : List Inbound

def searchRecvq (sock : Sock) (tag : Tag) : List Inbound → Option Place
  | [] => none
  | data :: queue =>
    if data.suits sock tag then some ⟨[],data,queue⟩
    else (searchRecvq sock tag queue).map fun place =>
      { place with front := data :: place.front }

def Place.erase (place : Place) : List Inbound := place.front ++ place.back

/-- A receive for any source or any tag becomes one for those of the first message it takes. -/
def Posted.bind (request : Posted) (data : Inbound) : Posted :=
  { request with
    sock := if request.sock = anySource then data.sock else request.sock
    tag := if request.tag = anyTag then data.tag else request.tag }

/-- `total_size` in `TCP_Irecv` and `TCP_Wait`. -/
def Posted.room (request : Posted) : Nat := request.requestSize-request.completeSize

def Inbound.left (data : Inbound) : List Byte := data.buffer.drop data.requestSize

def Posted.fill (request : Posted) (data : Inbound) : Posted :=
  let size := min request.room data.left.length
  { request with
    bufs := (moveData request.bufs request.completeSize size data.left).1
    completeSize := request.completeSize+size }

def Place.after (place : Place) (request : Posted) : List Inbound :=
  if place.data.left.length ≤ request.room then place.erase
  else place.front ++ { place.data with
    requestSize := place.data.requestSize +
      (moveData request.bufs request.completeSize request.room place.data.left).2 } :: place.back

/-- The loop of `TCP_Irecv`; one message of the queue goes with each round but the last. -/
def irecvLoop : Nat → Posted → List Inbound → Posted × List Inbound
  | 0, request, queue => (request,queue)
  | fuel+1, request, queue =>
    match searchRecvq request.sock request.tag queue with
    | none => (request,queue)
    | some place =>
      let bound := { request.bind place.data with
        flushed := place.data.flushed.or request.flushed }
      let filled := bound.fill place.data
      let queue := place.after bound
      if filled.room = 0 then (filled,queue) else irecvLoop fuel filled queue

/-- `TCP_Irecv` and `TCP_Irecv_list`: an argument that is refused leaves all as it is. -/
def tcpIrecv (state : State) (sock : Sock) (tag : Tag) (bufs : List (List Byte)) : State :=
  let size := bufs.flatten.length%2^32
  if (sock.msb ∧ sock ≠ anySource) ∨ size = 0 then state
  else
    let request : Posted :=
      { sock := sock, tag := tag, bufs := bufs, requestSize := size, completeSize := 0
        flushed := none, error := .inprogress, released := false }
    let (filled,queue) := irecvLoop (state.complete.length+1) request state.complete
    let filled := if filled.room = 0 then { filled with error := .complete } else filled
    { state with
      complete := queue
      posted := state.posted ++ [filled]
      order := if filled.completeSize = 0 then state.order
        else state.order ++ [state.posted.length] }

def tcpWait (state : State) (handle : Nat) (request : Posted) : State :=
  if request.error = .complete then
    let state := { state with
      posted := state.posted.set handle { request with released := true } }
    if request.flushed.isSome then state.halt else state
  else
    match searchRecvq request.sock request.tag state.complete with
    | none => state
    | some place =>
      let bound := request.bind place.data
      if place.data.flushed.isSome then
        { state with
          complete := place.erase
          posted := state.posted.set handle
            { bound with flushed := place.data.flushed, error := .complete } }
      else
        let filled := bound.fill place.data
        { state with
          complete := place.after bound
          posted := state.posted.set handle
            (if filled.room = 0 then { filled with error := .complete } else filled)
          order := if request.completeSize = 0 ∧ filled.completeSize ≠ 0 then
            state.order ++ [handle] else state.order }

def flushQueue (state : State) (sock : Sock) : State :=
  { state with complete := state.complete.map fun data => { data with flushed := some sock } }

/-- Whether a message goes to `recv_callback` or `flush_callback`. -/
def Config.callback (config : Config) (tag : Tag) : Bool :=
  config.useCallback && (tag = config.recvTag || tag = config.flushTag)

def recvMessage (config : Config) (state : State) (sock : Sock) (tag : Tag)
    (payload : List Byte) : State :=
  if config.callback tag then state
  else
    let state := if config.isServer && tag = config.flushTag then flushQueue state sock else state
    { state with complete := state.complete ++ [⟨sock,tag,payload,0,none⟩] }

def nextSock (state : State) : List (Sock × Bool) → State
  | [] => { state with reading := none }
  | (sock,hup) :: behind =>
    if hup then nextSock (tcpDropConnection state sock) behind
    else { state with reading := some ⟨sock,.peek tcpHeaderSize,behind⟩ }

/-- What a read comes back with: a number of bytes, or an `errno`. `EPIPE`, `ECONNRESET` and
`EBADF` are `hup`, and so is the end of the stream. -/
inductive Answer where
  | got (count : Nat)
  | wouldBlock
  | interrupted
  | failed (hup : Bool)
deriving DecidableEq

/-- The header after a peek of `count` bytes: `sock_nbpeek` does not advance its pointer. -/
def peeked (state : State) (sock : Sock) (count : Nat) : List Byte :=
  memcpy state.header ((state.arrived sock).take count)

/-- One `recvfrom` with `MSG_PEEK`. When it has returned as many bytes as a header has, in
however many parts, the magic number is looked at. -/
def peekStep (state : State) (reading : Reading) (comp count : Nat) : State :=
  let state := { state with header := peeked state reading.sock count }
  if comp - count ≠ 0 then
    { state with reading := some { reading with phase := .peek (comp-count) } }
  else if wordAt state.header 0 ≠ commMagicNr then
    nextSock (tcpDropConnection state reading.sock) reading.behind
  else { state with reading := some { reading with phase := .header [] } }

def State.consume (state : State) (sock : Sock) (count : Nat) : State :=
  { state with arrived := Function.update state.arrived sock ((state.arrived sock).drop count) }

/-- One `recv` on the header; its size is the `int` given to `tcp_malloc`. -/
def headerStep (state : State) (reading : Reading) (got : List Byte) (count : Nat) : State :=
  let got := got ++ (state.arrived reading.sock).take count
  let state := { state.consume reading.sock count with header := memcpy state.header got }
  if got.length ≠ tcpHeaderSize then
    { state with reading := some { reading with phase := .header got } }
  else if (wordAt state.header 4).toNat = 0 ∨ intMax < (wordAt state.header 4).toNat then state.halt
  else { state with reading := some { reading with phase := .payload [] } }

def payloadStep (config : Config) (state : State) (reading : Reading) (got : List Byte)
    (count : Nat) : State :=
  let got := got ++ (state.arrived reading.sock).take count
  let state := state.consume reading.sock count
  if got.length ≠ (wordAt state.header 4).toNat then
    { state with reading := some { reading with phase := .payload got } }
  else nextSock (recvMessage config state reading.sock (wordAt state.header 8) got) reading.behind

def Phase.wanted (header : List Byte) : Phase → Nat
  | .peek comp => comp
  | .header got => tcpHeaderSize-got.length
  | .payload got => (wordAt header 4).toNat - got.length

/-- The queue thread's next system call inside `tcp_recv_messages`. -/
def answerStep (config : Config) (state : State) (reading : Reading) : Answer → Option State
  | .got count =>
    if count = 0 ∨ reading.phase.wanted state.header < count ∨
        (state.arrived reading.sock).length < count then none
    else match reading.phase with
      | .peek comp => some (peekStep state reading comp count)
      | .header got => some (headerStep state reading got count)
      | .payload got => some (payloadStep config state reading got count)
  | .wouldBlock =>
    if state.arrived reading.sock ≠ [] then none
    else match reading.phase with
      | .peek _ => some (nextSock state reading.behind)
      | _ => some state
  | .interrupted => some state
  | .failed hup =>
    some (if hup then nextSock (tcpDropConnection state reading.sock) reading.behind
      else state.halt)

/-- What `tcp_drain_connection` does to a posted receive of the socket: a second drop frees it. -/
def Posted.drop (sock : Sock) (request : Posted) : Posted :=
  if request.sock = sock ∧ request.released = false then
    if request.error = .hup then { request with released := true }
    else { request with error := .hup }
  else request

def tcpDrainConnection (state : State) : List Sock → State
  | [] => { state with dropq := [] }
  | sock :: rest =>
    if sock ∈ state.polled then
      tcpDrainConnection { state with
        polled := state.polled.erase sock
        posted := state.posted.map (Posted.drop sock) } rest
    else { state with dropq := rest }

inductive Action where
  /-- The kernel gets more of a socket's stream. -/
  | arrive (sock : Sock) (count : Nat)
  /-- The queue thread enters `tcp_recv_messages`: the sockets poll reports, with `POLLHUP` or not,
  and what the stack holds where `tcp_header` is. -/
  | poll (ready : List (Sock × Bool)) (garbage : List Byte)
  | answer (answer : Answer)
  | irecv (sock : Sock) (tag : Tag) (bufs : List (List Byte))
  /-- A round of `TCP_Wait`. -/
  | wait (handle : Nat)
  /-- A sending call finds the connection broken. -/
  | dropped (sock : Sock)
  | drain
deriving DecidableEq

/-- What a thread does that has to get `recv_lock` first. -/
def locked (state : State) (next : State) : Option State :=
  if state.reading.isSome then none else some next

/-- What poll can report: it passes over descriptors that are negative. -/
def Pollable (state : State) (ready : List (Sock × Bool)) : Prop :=
  ∀ entry ∈ ready, entry.1 ∈ state.polled ∧ entry.1.msb = false ∧
    (entry.2 = true ∨ state.arrived entry.1 ≠ [])

instance (state : State) (ready : List (Sock × Bool)) : Decidable (Pollable state ready) :=
  List.decidableBAll _ ready

def step (config : Config) (state : State) (action : Action) : Option State :=
  if state.halted then none
  else match action with
    | .arrive sock count => some { state with
        arrived := Function.update state.arrived sock
          (state.arrived sock ++ (state.inflight sock).take count)
        inflight := Function.update state.inflight sock ((state.inflight sock).drop count) }
    | .poll ready garbage =>
      if garbage.length = tcpHeaderSize ∧ Pollable state ready then
        locked state (nextSock { state with header := garbage } ready)
      else none
    | .answer answer => state.reading.bind fun reading => answerStep config state reading answer
    | .irecv sock tag bufs => locked state (tcpIrecv state sock tag bufs)
    | .wait handle =>
      state.posted[handle]?.bind fun request =>
        if request.released then none else locked state (tcpWait state handle request)
    | .dropped sock => some (tcpDropConnection state sock)
    | .drain => locked state (tcpDrainConnection state state.dropq)

end Hqemu.Net.Receive
