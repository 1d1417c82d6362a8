import Hqemu.Net.TraceServer

/-! The clients of a translation server, which install a region when it arrives. -/
namespace Hqemu.Net.Client

open Net.Region Net.Server

section Client

variable (abi : Abi)

structure CodeCache where
  codeBase : HostWord abi
  codeSize : Int
  threshold : Int
  codeGenPtr : HostWord abi
  codeRemain : Int

/-- A region that was asked for; `sent` is how many flushes there had been. -/
structure TraceInfo where
  pc : GuestAddr abi
  csBase : GuestAddr abi
  sent : Nat
deriving DecidableEq

structure Installed where
  pc : GuestAddr abi
  size : BitVec 32
  code : HostWord abi
  received : Nat
deriving DecidableEq

inductive Site where
  | code (addr : HostWord abi)
  | entry (key : CodeKey abi)
deriving DecidableEq

inductive Target where
  | stub (addr : HostWord abi)
  | region (installed : Installed abi)
deriving DecidableEq

inductive Effect where
  | install (info : TraceInfo abi) (installed : Installed abi)
  | patch (site : Site abi) (target : Target abi)
deriving DecidableEq

/-- `traces` has the `TraceInfo` objects by their addresses; none is ever deleted. -/
structure ClientInfo where
  retAddr : HostWord abi
  cache : CodeCache abi
  traces : BitVec 64 → Option (TraceInfo abi)
  traceComplete : Nat → Option (TraceInfo abi)
  netCodeRegions : CodeKey abi → Option (Installed abi)
  traceChain : GuestAddr abi → List (HostWord abi)
  flushCount : Nat

variable {abi}

def TraceInfo.key (info : TraceInfo abi) : CodeKey abi := (info.pc,info.csBase)

/-- `startFunctionBody` and `endFunctionBody` around the code. A client without room for it ends. -/
def CodeCache.emit (cache : CodeCache abi) (size : Nat) :
    Option (HostWord abi × CodeCache abi) :=
  if cache.threshold ≤ cache.codeRemain ∧ size ≤ cache.codeRemain then
    let next := (cache.codeGenPtr+BitVec.ofNat _ (size+15)) &&& ~~~15
    some (cache.codeGenPtr,{ cache with
      codeGenPtr := next
      codeRemain := cache.codeRemain-(next-cache.codeGenPtr).toNat })
  else none

def CodeCache.flush (cache : CodeCache abi) : CodeCache abi :=
  { cache with codeGenPtr := cache.codeBase, codeRemain := cache.codeSize }

def ClientInfo.init (retAddr : HostWord abi) (cache : CodeCache abi) : ClientInfo abi where
  retAddr := retAddr
  cache := cache
  traces := fun _ => none
  traceComplete := fun _ => none
  netCodeRegions := fun _ => none
  traceChain := fun _ => []
  flushCount := 0

/-- `SetupTraceInfo` in `SendTrace`; `new` gives no object that there already is. -/
def ClientInfo.sendTrace (client : ClientInfo abi) (request : Request abi) :
    Option (ClientInfo abi) :=
  match client.traces request.traceKey with
  | some _ => none
  | none =>
    let info : TraceInfo abi := ⟨request.root.pc,request.csBase,client.flushCount⟩
    some { client with traces := Function.update client.traces request.traceKey (some info) }

/-- `llvm_tb_flush`. -/
def ClientInfo.flush (client : ClientInfo abi) : ClientInfo abi :=
  { client with
    cache := client.cache.flush
    traceChain := fun _ => []
    flushCount := client.flushCount+1 }

def target (regions : CodeKey abi → Option (Installed abi)) (addr : HostWord abi)
    (csBase : GuestAddr abi) (exec : Exec abi) : Target abi :=
  match if exec.toTrace ≠ 0 then regions (exec.pc,csBase) else none with
  | some installed => .region installed
  | none => .stub (addr+exec.nextOff.setWidth _)

def patchExits (client : ClientInfo abi) (csBase : GuestAddr abi) (code : HostWord abi)
    (ack : Ack abi) : List (Effect abi) :=
  ack.toExit.map (fun off => .patch (.code (code+off.setWidth _)) (.stub client.retAddr)) ++
  ack.execs.map fun exec =>
    let addr := code+exec.off.setWidth _
    .patch (.code addr) (target client.netCodeRegions addr csBase exec)

/-- The exits that the next region at their address will be patched to. -/
def chain (code : HostWord abi) (traceChain : GuestAddr abi → List (HostWord abi))
    (exec : Exec abi) : GuestAddr abi → List (HostWord abi) :=
  Function.update traceChain exec.pc
    (traceChain exec.pc ++ [code+exec.off.setWidth _ + exec.jmpOff.setWidth _])

/-- One region of a message; the first is the one that was asked for. -/
def ClientInfo.install (client : ClientInfo abi) (info : TraceInfo abi) (first : Bool)
    (ack : Ack abi) : Option (ClientInfo abi × List (Effect abi)) :=
  (client.cache.emit (ack.codeSize+ack.constPoolSize).toNat).map fun emitted =>
    let code := emitted.1+ack.constPoolSize.setWidth _
    let installed : Installed abi := ⟨info.pc,ack.codeSize,code,client.flushCount⟩
    let traceChain := ack.execs.foldl (chain code) client.traceChain
    ({ client with
        cache := emitted.2
        netCodeRegions := Function.update client.netCodeRegions info.key (some installed)
        traceChain := traceChain },
      patchExits client info.csBase code ack ++ [.install info installed] ++
        (if first then [.patch (.entry info.key) (.region installed)] else []) ++
        (traceChain info.pc).map fun site => .patch (.code site) (.region installed))

def ClientInfo.recvAcks (traceKey : BitVec 64) :
    ClientInfo abi → Bool → List (Ack abi) → Option (ClientInfo abi × List (Effect abi))
  | client, _, [] => some (client,[])
  | client, true, ack :: rest =>
    (client.traces traceKey).bind fun info =>
    ({ client with
      traceComplete := Function.update client.traceComplete ack.traceId.toNat (some info) } :
        ClientInfo abi).install info true ack |>.bind fun out =>
    (recvAcks traceKey out.1 false rest).map fun all => (all.1,out.2 ++ all.2)
  | client, false, ack :: rest =>
    (client.traceComplete ack.traceId.toNat).bind fun info =>
    (client.install info false ack).bind fun out =>
    (recvAcks traceKey out.1 false rest).map fun all => (all.1,out.2 ++ all.2)

/-- `RecvTrace`, with the message decoded. -/
def ClientInfo.recvTrace (client : ClientInfo abi) (pack : Pack abi) :
    Option (ClientInfo abi × List (Effect abi)) :=
  client.recvAcks pack.traceKey true pack.acks

end Client

section System

variable (abi : Abi)

inductive Call where
  | trace (request : Request abi)
  | flush

inductive Answer where
  | region (pack : Pack abi)
  | flushed

structure Peer where
  client : ClientInfo abi
  uplink : List (Call abi)
  downlink : List (Answer abi)

structure System where
  server : State abi
  peers : Ticket → Option (Peer abi)

inductive Action where
  | connect (sock : Sock) (handshake : Handshake abi) (retAddr : HostWord abi)
      (cache : CodeCache abi)
  | request (ticket : Ticket) (request : Request abi)
  | flush (ticket : Ticket)
  | serve (ticket : Ticket)
  | receive (ticket : Ticket)

variable {abi}

def Call.message (ticket : Ticket) : Call abi → Message abi
  | .trace request => .trace { request with ticket := ticket }
  | .flush => .flush ticket

def answers (reply : Option (Reply abi)) : Call abi → List (Answer abi)
  | .trace _ => (reply.map fun reply => Answer.region reply.pack).toList
  | .flush => [.flushed]

def ClientInfo.receive (client : ClientInfo abi) :
    Answer abi → Option (ClientInfo abi × List (Effect abi))
  | .region pack => client.recvTrace pack
  | .flushed => some (client,[])

def System.put (system : System abi) (ticket : Ticket) (peer : Peer abi) : System abi :=
  { system with peers := Function.update system.peers ticket (some peer) }

/-- A handshake waits for its ticket, so it is one step. -/
def connect (system : System abi) (sock : Sock) (handshake : Handshake abi)
    (client : ClientInfo abi) : System abi :=
  if handshake.arch ≠ system.server.arch ∨ handshake.baseRegNo ≠ system.server.baseRegNo then
    system
  else
    System.put { system with server := sync system.server sock handshake }
      (genTicket system.server.ticket) ⟨client,[],[]⟩

def serve (translate : Translator abi) (system : System abi) (ticket : Ticket) (peer : Peer abi) :
    Option (System abi) :=
  match peer.uplink with
  | [] => none
  | call :: rest =>
    (Server.step translate system.server (call.message ticket)).map fun out =>
      System.put { system with server := out.1 } ticket { peer with
        uplink := rest
        downlink := peer.downlink ++ answers out.2 call }

def receive (system : System abi) (ticket : Ticket) (peer : Peer abi) : Option (System abi) :=
  match peer.downlink with
  | [] => none
  | answer :: rest =>
    (peer.client.receive answer).map fun out =>
      system.put ticket { peer with client := out.1, downlink := rest }

def step (translate : Translator abi) (system : System abi) : Action abi → Option (System abi)
  | .connect sock handshake retAddr cache =>
    some (connect system sock handshake (ClientInfo.init retAddr cache))
  | .request ticket request => (system.peers ticket).bind fun peer =>
    (peer.client.sendTrace request).map fun client =>
      system.put ticket { peer with client := client, uplink := peer.uplink ++ [.trace request] }
  | .flush ticket => (system.peers ticket).map fun peer =>
    system.put ticket { peer with client := peer.client.flush, uplink := peer.uplink ++ [.flush] }
  | .serve ticket => (system.peers ticket).bind (serve translate system ticket)
  | .receive ticket => (system.peers ticket).bind (receive system ticket)

def start (arch baseRegNo : BitVec 32) (globals : Globals abi) : System abi :=
  ⟨Server.init arch baseRegNo globals,fun _ => none⟩

end System

end Hqemu.Net.Client
