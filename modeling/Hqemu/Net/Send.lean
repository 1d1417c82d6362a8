import Hqemu.Lib.Iovec
import Hqemu.Net.Frame

/-! The sending half of `tcp.c`. `send_lock` is held by the caller, when no request for the socket
is queued, or by the queue thread. A step is one answer of the kernel. -/
namespace Hqemu.Net.Send

open Lib

def maxTcpIovCount : Nat := 1024
inductive NetErr where
  | handle
  | tag
  | size
deriving DecidableEq

inductive RequestStatus where
  | complete
  | inprogress
deriving DecidableEq

structure Request where
  msg : Msg
  requestSize : Nat
  completeSize : Nat
  headerRequired : BitVec 32
  iovIdx : Nat
  iovLenDone : Nat
  error : RequestStatus
deriving DecidableEq

inductive Phase where
  /-- In `tcp_block_send` on the header, with these bytes to go. -/
  | header (left : List Byte)
  /-- In `tcp_block_send` on the only buffer. -/
  | block (left : List Byte)
  /-- In `tcp_block_sendv`, at its label `restart`. -/
  | vector (idx last comp : Nat)
deriving DecidableEq

inductive Job where
  /-- `TCP_Send` in `tcp_block_send`. -/
  | send (sock : Sock) (left : List Byte)
  /-- `TCP_Send_list` in `tcp_block_send` on the header. -/
  | listHeader (sock : Sock) (left : List Byte) (bufs : List (List Byte))
  /-- `TCP_Send_list` in `sock_bvector`: the buffers from `p` on, `comp` and `len`. -/
  | listVector (sock : Sock) (vec : List (List Byte)) (comp len : Nat)
  /-- The queue thread in `tcp_send_messages`: the requests it has passed over, the one it is
  at, and those behind it. -/
  | queue (passed : List Request) (request : Request) (behind : List Request) (phase : Phase)
deriving DecidableEq

/-- `inprogress` is `sendq[SENDQ_INPROGRESS]` unless the queue thread walks it: then its job holds
it. `log` has the messages of the calls not refused, in order; no function reads it. -/
structure State where
  inprogress : List Request
  complete : List Request
  job : Option Job
  dropq : List Sock
  polled : List Sock
  wire : Sock → List Byte
  halted : Bool
  log : List Msg

/-- `setup_tcp_module`, with the connections `add_connection` was called for. -/
def init (socks : List Sock) : State where
  inprogress := []
  complete := []
  job := none
  dropq := []
  polled := socks
  wire := fun _ => []
  halted := false
  log := []

/-- `net_error`, or a size that does not fit the `int` it is put in. -/
def State.halt (state : State) : State := { state with halted := true }

def State.unlock (state : State) : State := { state with job := none }

def State.put (state : State) (sock : Sock) (bytes : List Byte) : State :=
  { state with wire := Function.update state.wire sock (state.wire sock ++ bytes) }

def tcpDropConnection (state : State) (sock : Sock) : State :=
  { state with dropq := state.dropq ++ [sock] }

def refuse (sock : Sock) (tag : Tag) (size : Nat) : Option NetErr :=
  if sock = anySource then some .handle
  else if tag = anyTag then some .tag
  else if size = 0 then some .size
  else none

def totalSize (bufs : List (List Byte)) : Nat := bufs.flatten.length%2^32

def searchSendq (sock : Sock) (queue : List Request) : Option Request :=
  queue.find? fun request => request.msg.sock = sock

/-- The request a call queues. `header` is what `header_required` holds. -/
def newRequest (msg : Msg) (size : Nat) (header : BitVec 32) : Request where
  msg := msg
  requestSize := size
  completeSize := 0
  headerRequired := header
  iovIdx := 0
  iovLenDone := 0
  error := .inprogress

def enqueue (state : State) (request : Request) : State :=
  { state with
    inprogress := state.inprogress ++ [request]
    log := state.log ++ [request.msg] }

/-- `TCP_Send`. When the request is queued `header_required` is not assigned: it keeps what
the allocated memory held, `garbage`. -/
def tcpSend (state : State) (sock : Sock) (tag : Tag) (buffer : List Byte)
    (garbage : BitVec 32) : State :=
  match refuse sock tag buffer.length with
  | some _ => state
  | none =>
    let msg : Msg := ⟨sock,tag,[buffer]⟩
    match searchSendq sock state.inprogress with
    | some _ => enqueue state (newRequest msg buffer.length garbage)
    | none =>
      if intMax < buffer.length + tcpHeaderSize then state.halt
      else { state with
        job := some (.send sock (fillTcpHeader (BitVec.ofNat 32 buffer.length) tag ++ buffer))
        log := state.log ++ [msg] }

def tcpIsend (state : State) (sock : Sock) (tag : Tag) (buffer : List Byte) : State :=
  match refuse sock tag buffer.length with
  | some _ => state
  | none => enqueue state (newRequest ⟨sock,tag,[buffer]⟩ buffer.length 1)

def tcpSendList (state : State) (sock : Sock) (tag : Tag) (bufs : List (List Byte)) : State :=
  match refuse sock tag (totalSize bufs) with
  | some _ => state
  | none =>
    let msg : Msg := ⟨sock,tag,bufs⟩
    match searchSendq sock state.inprogress with
    | some _ => enqueue state (newRequest msg (totalSize bufs) 1)
    | none =>
      if maxTcpIovCount + 1 < bufs.length then state.halt
      else { state with
        job := some (.listHeader sock (fillTcpHeader (BitVec.ofNat 32 (totalSize bufs)) tag) bufs)
        log := state.log ++ [msg] }

/-- `TCP_Isend_list`. It does not assign `header_required` either. -/
def tcpIsendList (state : State) (sock : Sock) (tag : Tag) (bufs : List (List Byte))
    (garbage : BitVec 32) : State :=
  match refuse sock tag (totalSize bufs) with
  | some _ => state
  | none => enqueue state (newRequest ⟨sock,tag,bufs⟩ (totalSize bufs) garbage)

def beginVector (state : State) (sock : Sock) (bufs : List (List Byte)) : State :=
  if maxTcpIovCount < bufs.length ∨ intMax < bufs.flatten.length then state.halt
  else { state with job := some (.listVector sock bufs 0 bufs.flatten.length) }

def beginPayload (state : State) (passed : List Request) (request : Request)
    (behind : List Request) : State :=
  let bufs := request.msg.bufs.drop request.iovIdx
  if bufs.length = 1 ∧ request.iovLenDone = 0 then
    if intMax < bufs.flatten.length then state.halt
    else { state with job := some (.queue passed request behind (.block bufs.flatten)) }
  else if maxTcpIovCount < bufs.length then state.halt
  else { state with
    job := some (.queue passed request behind (.vector 0 request.iovLenDone 0)) }

def beginRequest (state : State) (passed : List Request) : List Request → State
  | [] => { state with inprogress := passed }.unlock
  | request :: behind =>
    let held := { state with inprogress := [] }
    if request.headerRequired = 1 then
      { held with job := some (.queue passed request behind
        (.header (fillTcpHeader (BitVec.ofNat 32 request.requestSize) request.msg.tag))) }
    else beginPayload held passed request behind

/-- `tcp_send_messages` once the payload is written: one request is enough for a pass. -/
def finishRequest (state : State) (passed : List Request) (request : Request)
    (behind : List Request) (ret : Nat) : State :=
  if intMax < ret ∨ request.completeSize+ret ≠ request.requestSize then state.halt
  else { state with
    inprogress := passed ++ behind
    complete := state.complete ++
      [{ request with completeSize := request.completeSize+ret, error := .complete }] }.unlock

/-- What a write comes back with: the number of bytes taken, or an `errno`. `EPIPE`,
`ECONNRESET` and `EBADF` are `hup`. -/
inductive Answer where
  | accepted (count : Nat)
  | wouldBlock
  | interrupted
  | failed (hup : Bool)
deriving DecidableEq

/-- `check_status` on a failed write; `dropped` is what stands at `drop_connection`. -/
def checkStatus (state : State) (hup : Bool) (dropped : State) : State :=
  if hup then dropped else state.halt

def blockSend (state : State) (sock : Sock) (left : List Byte) (next : State → List Byte → State)
    (done dropped : State → State) : Answer → Option State
  | .accepted count =>
    if left.length < count then none
    else
      let state := state.put sock (left.take count)
      some (if left.drop count = [] then done state else next state (left.drop count))
  | .wouldBlock => some state
  | .interrupted => some state
  | .failed hup => some (checkStatus state hup (dropped state))

/-- One `writev` of `sock_bvector`. The socket is in blocking mode. -/
def bvector (state : State) (sock : Sock) (vec : List (List Byte)) (comp len : Nat) :
    Answer → Option State
  | .accepted count =>
    if vec.flatten.length < count then none
    else
      let state := state.put sock (vec.flatten.take count)
      some (if comp + count = len then state.unlock
        else { state with job := some (.listVector sock (Iovec.skip vec count) (comp+count) len) })
  | .wouldBlock => none
  | .interrupted => some state
  | .failed hup => some (checkStatus state hup (tcpDropConnection state sock).unlock)

def blockSendv (state : State) (passed : List Request) (request : Request)
    (behind : List Request) (idx last comp count : Nat) : Option State :=
  let bufs := request.msg.bufs.drop request.iovIdx
  let vec := Iovec.rest bufs idx last
  if vec.flatten.length < count then none
  else
    let state := state.put request.msg.sock (vec.flatten.take count)
    let cursor := Iovec.advance vec count idx last
    some (if cursor.1 = bufs.length then finishRequest state passed request behind (comp+count)
      else { state with
        job := some (.queue passed request behind (.vector cursor.1 cursor.2 (comp+count))) })

def skipRequest (state : State) (passed : List Request) (request : Request)
    (behind : List Request) : State :=
  beginRequest (tcpDropConnection state request.msg.sock) (passed ++ [request]) behind

def queueAnswer (state : State) (passed : List Request) (request : Request)
    (behind : List Request) (answer : Answer) : Phase → Option State
  | .header left =>
    blockSend state request.msg.sock left
      (fun state left => { state with job := some (.queue passed request behind (.header left)) })
      (fun state => beginPayload state passed { request with headerRequired := 0 } behind)
      (fun state => skipRequest state passed request behind) answer
  | .block left =>
    blockSend state request.msg.sock left
      (fun state left => { state with job := some (.queue passed request behind (.block left)) })
      (fun state => finishRequest state passed request behind
        (request.msg.bufs.drop request.iovIdx).flatten.length)
      (fun state => skipRequest state passed request behind) answer
  | .vector idx last comp =>
    match answer with
    | .accepted count => blockSendv state passed request behind idx last comp count
    | .wouldBlock => blockSendv state passed request behind idx last comp 0
    | .interrupted => some state
    | .failed hup => some (checkStatus state hup (skipRequest state passed request behind))

def answerJob (state : State) (answer : Answer) : Job → Option State
  | .send sock left =>
    blockSend state sock left
      (fun state left => { state with job := some (.send sock left) })
      State.unlock (fun state => (tcpDropConnection state sock).unlock) answer
  | .listHeader sock left bufs =>
    blockSend state sock left
      (fun state left => { state with job := some (.listHeader sock left bufs) })
      (fun state => beginVector state sock bufs)
      (fun state => (tcpDropConnection state sock).unlock) answer
  | .listVector sock vec comp len => bvector state sock vec comp len answer
  | .queue passed request behind phase =>
    queueAnswer state passed request behind answer phase

def tcpDrainConnection (state : State) : List Sock → State
  | [] => { state with dropq := [] }
  | sock :: rest =>
    if sock ∈ state.polled then
      tcpDrainConnection { state with
        polled := state.polled.erase sock
        inprogress := state.inprogress.filter fun request => request.msg.sock ≠ sock } rest
    else { state with dropq := rest }

inductive Action where
  | send (sock : Sock) (tag : Tag) (buffer : List Byte) (garbage : BitVec 32)
  | isend (sock : Sock) (tag : Tag) (buffer : List Byte)
  | sendList (sock : Sock) (tag : Tag) (bufs : List (List Byte))
  | isendList (sock : Sock) (tag : Tag) (bufs : List (List Byte)) (garbage : BitVec 32)
  /-- The queue thread enters `tcp_send_messages`. -/
  | sendMessages
  /-- The holder of `send_lock` makes its next system call. -/
  | answer (answer : Answer)
  /-- `TCP_Wait` on the request that is at this place of `sendq[SENDQ_COMPLETE]`. -/
  | wait (place : Nat)
  /-- The receiving half finds the connection closed or a header without the magic number. -/
  | hangup (sock : Sock)
  /-- The queue thread enters `tcp_drain_connection`. -/
  | drain
deriving DecidableEq

/-- What a thread does that has to get `send_lock` first. -/
def locked (state : State) (next : State) : Option State :=
  if state.job.isSome then none else some next

def step (state : State) (action : Action) : Option State :=
  if state.halted then none
  else match action with
    | .send sock tag buffer garbage => locked state (tcpSend state sock tag buffer garbage)
    | .isend sock tag buffer => locked state (tcpIsend state sock tag buffer)
    | .sendList sock tag bufs => locked state (tcpSendList state sock tag bufs)
    | .isendList sock tag bufs garbage => locked state (tcpIsendList state sock tag bufs garbage)
    | .sendMessages => locked state (beginRequest state [] state.inprogress)
    | .answer answer => state.job.bind (answerJob state answer)
    | .wait place => locked state { state with complete := state.complete.eraseIdx place }
    | .hangup sock => some (tcpDropConnection state sock)
    | .drain => locked state (tcpDrainConnection state state.dropq)

end Hqemu.Net.Send
