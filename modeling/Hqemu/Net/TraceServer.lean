import Hqemu.Llvm.TraceBuilder
import Hqemu.Net.Region

/-! The translation server (`llvm-net.cpp`): handshakes, region requests and flushes of any number
of clients. Clients share a code cache by the digest of their program. -/
namespace Hqemu.Net.Server

open Net.Cfg Net.Region

open Llvm.TraceBuilder (Region genTrace nodup_translated)

abbrev Name := List Byte
abbrev Digest := List Byte
abbrev Ticket := BitVec 32

def invalidTicket : Ticket := 0

def isBasic (profileMode : BitVec 64) : Bool := profileMode.getLsbD 0

section Handshake

variable (abi : Abi)

structure TempEntry where
  fixedReg : BitVec 8
  type : BitVec 8
  reg : BitVec 32
  memOffset : HostWord abi
  name : Name

structure Temp where
  fixedReg : BitVec 8
  type : BitVec 8
  reg : BitVec 32
  memReg : BitVec 32
  memOffset : HostWord abi
  name : Option Name

structure Handshake where
  arch : BitVec 32
  baseRegNo : BitVec 32
  frameStart : HostWord abi
  guestBase : BitVec 64
  profileMode : BitVec 64
  program : Option Digest
  x86FPOff : List (BitVec 32)
  temps : List (TempEntry abi)
  helpers : List (HostWord abi × Name)
  nestedFunc : List (HostWord abi × Name)
  globalVariable : List (HostWord abi × Name)
  externalSymbol : List (HostWord abi)

structure Globals where
  nestedFunc : List (HostWord abi × Name)
  globalVariable : List (HostWord abi × Name)
  externalSymbol : List (HostWord abi)
  nbGlobals : Nat
  temps : Nat → Temp abi
  helpers : List (HostWord abi × Name)
  frameStart : HostWord abi
  profileMode : BitVec 64
  guestBase : BitVec 64
  x86FPOff : List (BitVec 32)

variable {abi}

def Temp.decode (temp : Temp abi) (entry : TempEntry abi) : Temp abi where
  fixedReg := entry.fixedReg
  type := entry.type
  reg := if entry.fixedReg ≠ 0 then entry.reg else temp.reg
  memReg := if entry.fixedReg ≠ 0 then temp.memReg else entry.reg
  memOffset := entry.memOffset
  name := some (temp.name.getD entry.name)

/-- The part of `Sync` behind the ticket. -/
def Globals.sync (globals : Globals abi) (handshake : Handshake abi) : Globals abi where
  nestedFunc := handshake.nestedFunc
  globalVariable := handshake.globalVariable
  externalSymbol := handshake.externalSymbol
  nbGlobals := handshake.temps.length
  temps i := match handshake.temps[i]? with
    | none => globals.temps i
    | some entry => (globals.temps i).decode entry
  helpers := handshake.helpers
  frameStart := handshake.frameStart
  profileMode := handshake.profileMode
  guestBase := handshake.guestBase
  x86FPOff := handshake.x86FPOff

end Handshake

section Translation

variable (abi : Abi)

structure ChainInfo where
  off : BitVec 32
  nextOff : BitVec 32
  jmpOff : BitVec 32
  key : HostWord abi
  pc : GuestAddr abi

/-- What the JIT makes of a region: code behind its constant pool, and `PatchInfo`. -/
structure Translation where
  guestICount : BitVec 32
  profile : Profile
  realCode : List Byte
  size : BitVec 16
  toExit : List (BitVec 32)
  toExec : List (ChainInfo abi)
  externalSymbol : List (BitVec 32 × Nat)
  constPool : List (BitVec 32 × BitVec 32)
  constPoolSize : BitVec 32
  code_fits : realCode.length = size.toNat+constPoolSize.toNat ∧ realCode.length < 2^31
  toExit_fits : toExit.length < 2^31
  toExec_fits : toExec.length < 2^31
  constPool_fits : constPool.length < 2^31

structure Image where
  pc : GuestAddr abi
  flags : BitVec 64
  cflags : BitVec 16
  icount : BitVec 32
  code : List Byte
  state : List Byte

/-- A message with tag `TAG_TRACE`, its graph decoded, and the message itself: it lies in `Buf` when
the reply is written there, and reaches beyond its headers. -/
structure Request where
  ticket : Ticket
  regen : Bool
  traceKey : BitVec 64
  csBase : GuestAddr abi
  root : GraphNode abi.guest
  others : List (GraphNode abi.guest)
  images : List (Image abi)
  images_count : images.length = others.length+1
  images_fit : images.length < 2^31
  raw : List Byte
  covers : packHeaderSize abi + 28 + abi.ackPad ≤ raw.length

variable {abi}

def Request.count (request : Request abi) : Nat := request.others.length+1

def Request.key (request : Request abi) : CodeKey abi := (request.root.pc,request.csBase)

theorem Request.count_fits (request : Request abi) : request.count < 2^31 := by
  rw [Request.count,← request.images_count]
  exact request.images_fit

def Request.node (request : Request abi) (i : Fin request.count) : GraphNode abi.guest :=
  (request.root :: request.others).get i

def Request.image (request : Request abi) (i : Fin request.count) : Image abi :=
  request.images.get (i.cast request.images_count.symm)

/-- The graph of a request, with the branches that the front end finds in the images. -/
def Request.graph (branches : GuestAddr abi → Image abi → List (Option (CodeKey abi)))
    (request : Request abi) : Region (CodeKey abi) (Fin request.count) where
  cfg := ⟨0,Nat.succ_pos _⟩
  key i := ((request.node i).pc,request.csBase)
  successor i := (request.node i).successor.filterMap fun child =>
    if h : child < request.count then some ⟨child,h⟩ else none
  exits i := branches request.csBase (request.image i)

/-- `LinkMap`, by the numbers of `CFGMap`. -/
def linkMap {count : Nat} (graph : Region (CodeKey abi) (Fin count)) (pc : GuestAddr abi) :
    List (BitVec 32) :=
  (genTrace graph).translated.flatMap fun node =>
    ((graph.outside node).filter (·.1 = pc)).map fun _ => BitVec.ofNat 32 node

theorem length_linkMap_le {count : Nat} (graph : Region (CodeKey abi) (Fin count))
    (hone : ∀ node, (graph.exits node).length ≤ 1) (pc : GuestAddr abi) :
    (linkMap graph pc).length ≤ count := by
  have hnode : ∀ node, (((graph.outside node).filter (·.1 = pc)).map fun _ =>
      BitVec.ofNat 32 node.val).length ≤ 1 := fun node => by
    rw [List.length_map]
    exact (List.length_filter_le _ _).trans ((List.length_filterMap_le _ _).trans (hone node))
  have hnodup := (nodup_translated graph).length_le_card
  rw [Fintype.card_fin] at hnodup
  refine le_trans ?_ hnodup
  unfold linkMap
  induction (genTrace graph).translated with
  | nil => exact Nat.le_refl 0
  | cons node nodes ih =>
    rw [List.flatMap_cons,List.length_append,List.length_cons]
    exact (Nat.add_le_add (hnode node) ih).trans_eq (Nat.add_comm _ _)

variable (abi)

structure TranslatedCode where
  serial : Nat
  id : Nat
  count : Nat
  pc : GuestAddr abi
  csBase : GuestAddr abi
  graph : Region (CodeKey abi) (Fin count)
  count_fits : count < 2^31
  links_fit : ∀ pc, (linkMap graph pc).length < 2^31
  code : Translation abi

variable {abi}

def TranslatedCode.key (tc : TranslatedCode abi) : CodeKey abi := (tc.pc,tc.csBase)

end Translation

section State

variable (abi : Abi)

/-- What `ClientData` and `PermanentCodeInfo` share. Regions are numbered by their place in
`TraceProfile`, which has the flags `Cached` only; `ChainPoint` is its size. -/
structure Store where
  codeRegions : CodeKey abi → Option (TranslatedCode abi)
  traceProfile : List Bool
  chainPoints : Nat

inductive Owner where
  | client (ticket : Ticket)
  | program (digest : Digest)
deriving DecidableEq

/-- `program` is `PCode` of a client with `UseStatic`. -/
structure ClientData where
  sock : Sock
  program : Option Digest
  remote : CodeKey abi → Option (TranslatedCode abi)
  externalSymbol : List (HostWord abi)

/-- `updates` has the variables with which `UpdateTranslator` has run, the latest first. -/
structure State where
  arch : BitVec 32
  baseRegNo : BitVec 32
  globals : Globals abi
  updates : List (Globals abi)
  clients : Ticket → Option (ClientData abi)
  stores : Owner → Store abi
  ticket : Ticket
  serial : Nat

structure Reply where
  sock : Sock
  region : TranslatedCode abi
  pack : Pack abi
  buf : List Byte

/-- `LLVMTranslator`. Its `Engine`, with the module, the helper functions and the addresses bound to
symbols, goes through `Update` on every handshake and keeps what earlier ones bound. `genTrace`
gives the code of a request and how many chain points there are then, by the region's number and the
chain points before. -/
structure Translator where
  Engine : Type
  start : Engine
  update : Engine → Globals abi → Engine
  branches : GuestAddr abi → Image abi → List (Option (CodeKey abi))
  genTrace : Engine → Globals abi → Nat → Nat → Request abi → Option (Translation abi) × Nat
  links_fit : ∀ request pc, (linkMap (Request.graph branches request) pc).length < 2^31

variable {abi}

def Translator.engine (translate : Translator abi) (updates : List (Globals abi)) :
    translate.Engine :=
  updates.foldr (fun globals engine => translate.update engine globals) translate.start

def Translator.trace (translate : Translator abi) (state : State abi) (store : Store abi)
    (request : Request abi) : Option (Translation abi) × Nat :=
  translate.genTrace (translate.engine state.updates) state.globals store.traceProfile.length
    store.chainPoints request

def Reply.bytes (reply : Reply abi) : List Byte := encodePack reply.buf reply.pack

def Store.empty : Store abi where
  codeRegions := fun _ => none
  traceProfile := []
  chainPoints := 0

def ClientData.owner (client : ClientData abi) (ticket : Ticket) : Owner :=
  (client.program.map Owner.program).getD (Owner.client ticket)

def State.put (state : State abi) (ticket : Ticket) (client : ClientData abi)
    (store : Store abi) : State abi :=
  { state with
    clients := Function.update state.clients ticket (some client)
    stores := Function.update state.stores (client.owner ticket) store }

theorem owner_eq_client {client : ClientData abi} {ticket other : Ticket}
    (howner : client.owner ticket = Owner.client other) :
    client.program = none ∧ ticket = other := by
  unfold ClientData.owner at howner
  cases hprogram : client.program with
  | none =>
    rw [hprogram] at howner
    exact ⟨rfl,Owner.client.inj howner⟩
  | some digest =>
    rw [hprogram] at howner
    exact nomatch howner

theorem owner_of_none {client : ClientData abi} {ticket : Ticket}
    (hprogram : client.program = none) : client.owner ticket = Owner.client ticket := by
  rw [ClientData.owner,hprogram]
  rfl

end State

section ClientData

variable {abi : Abi}

/-- `ClientData::reset`. The loop is over the client's own `TraceProfile`, of size `own`,
whichever profile it writes to. -/
def ClientData.reset (client : ClientData abi) (own : Nat) (store : Store abi) :
    ClientData abi × Store abi :=
  ({ client with remote := fun _ => none },
    { store with traceProfile := store.traceProfile.mapIdx fun i cached =>
        if i < own then false else cached })

def ClientData.setTrace (client : ClientData abi) (store : Store abi) (tc : TranslatedCode abi) :
    ClientData abi × Store abi :=
  ({ client with remote := Function.update client.remote tc.key (some tc) },
    { store with
      codeRegions := Function.update store.codeRegions tc.key (some tc)
      traceProfile := store.traceProfile ++ [true] })

def ClientData.cacheTrace (client : ClientData abi) (store : Store abi) (key : CodeKey abi)
    (tc : TranslatedCode abi) : ClientData abi × Store abi :=
  if store.traceProfile[tc.id]? = some false then
    ({ client with remote := Function.update client.remote key (some tc) },
      { store with traceProfile := store.traceProfile.set tc.id true })
  else (client,store)

def ClientData.removeTrace (client : ClientData abi) (store : Store abi) (key : CodeKey abi)
    (tc : TranslatedCode abi) : ClientData abi × Store abi :=
  ({ client with remote := Function.update client.remote key none },
    { store with
      codeRegions := Function.update store.codeRegions key none
      traceProfile := store.traceProfile.set tc.id false })

end ClientData

section SendTrace

variable {abi : Abi}

def overwrite (code : List Byte) (pos : Nat) (bytes : List Byte) : List Byte :=
  code.mapIdx fun i byte =>
    if pos ≤ i ∧ i < pos+bytes.length then bytes.getD (i-pos) 0 else byte

/-- `PatchExternalSymbol`. All patched places are written again on every send, so the code that
is stored need not be changed. -/
def patchExternalSymbol (symbols : List (HostWord abi)) (code : Translation abi) : List Byte :=
  code.externalSymbol.foldl (fun bytes entry =>
    overwrite bytes (code.constPoolSize.toNat+entry.1.toNat)
      (wordBytes ((symbols.getD entry.2 0).setWidth 32))) code.realCode

/-- An exit as `SendTraceEmitted` describes it to a client with these regions. -/
def describeExec (client : ClientData abi) (tc : TranslatedCode abi) (chain : ChainInfo abi) :
    Exec abi where
  toTrace := if (client.remote (chain.pc,tc.csBase)).isSome then 1 else 0
  off := chain.off
  nextOff := chain.nextOff
  jmpOff := chain.jmpOff
  key := chain.key
  pc := chain.pc
  links := linkMap tc.graph chain.pc

def describe (client : ClientData abi) (tc : TranslatedCode abi) (basic : Bool) : Ack abi where
  traceId := BitVec.ofNat 32 tc.id
  guestICount := tc.code.guestICount
  codeSize := tc.code.size.setWidth 32
  constPoolSize := tc.code.constPoolSize
  maxKey := tc.code.toExec.foldl (fun maxKey chain =>
    if maxKey < chain.key then chain.key else maxKey) 0
  realCode := patchExternalSymbol client.externalSymbol tc.code
  toExit := tc.code.toExit
  execs := tc.code.toExec.map (describeExec client tc)
  constPool := tc.code.constPool
  profile := if basic then some tc.code.profile else none

/-- `SendTraceEmitted`, with the one region both callers pass. -/
def sendTraceEmitted (globals : Globals abi) (client : ClientData abi) (tc : TranslatedCode abi)
    (request : Request abi) : Reply abi where
  sock := client.sock
  region := tc
  pack := ⟨request.traceKey,[describe client tc (isBasic globals.profileMode)]⟩
  buf := request.raw

end SendTrace

section Process

variable {abi : Abi} (translate : Translator abi)

def newTrace (state : State abi) (store : Store abi) (request : Request abi)
    (code : Translation abi) : TranslatedCode abi where
  serial := state.serial
  id := store.traceProfile.length
  count := request.count
  pc := request.root.pc
  csBase := request.csBase
  graph := request.graph translate.branches
  count_fits := request.count_fits
  links_fit := translate.links_fit request
  code := code

/-- `ProcessTrace` from where no region could be sent from the cache. -/
def generate (state : State abi) (client : ClientData abi) (store : Store abi)
    (request : Request abi) : State abi × Option (Reply abi) :=
  match translate.trace state store request with
  | (none,chainPoints) =>
    (state.put request.ticket client { store with chainPoints := chainPoints },none)
  | (some code,chainPoints) =>
    let tc := newTrace translate state store request code
    let (client,store) := client.setTrace { store with chainPoints := chainPoints } tc
    ({ state.put request.ticket client store with serial := state.serial+1 },
      some (sendTraceEmitted state.globals client tc request))

def lookup (store : Store abi) (request : Request abi) : Option (TranslatedCode abi) :=
  if request.regen then none else store.codeRegions request.key

def processTrace (state : State abi) (client : ClientData abi) (store : Store abi)
    (request : Request abi) : State abi × Option (Reply abi) :=
  match lookup store request with
  | none => generate translate state client store request
  | some tc =>
    if tc.count < request.count then
      let (client,store) := client.removeTrace store request.key tc
      generate translate state client store request
    else
      let (client,store) := client.cacheTrace store request.key tc
      (state.put request.ticket client store,
        some (sendTraceEmitted state.globals client tc request))

def genTicket (ticket : Ticket) : Ticket :=
  if ticket + 1 = invalidTicket then ticket + 2 else ticket + 1

/-- `Sync` on the server, with `CreateTicket`, and `UpdateTranslator`. -/
def sync (state : State abi) (sock : Sock) (handshake : Handshake abi) : State abi :=
  if handshake.arch ≠ state.arch ∨ handshake.baseRegNo ≠ state.baseRegNo then state
  else
    let ticket := genTicket state.ticket
    let client : ClientData abi :=
      { sock := sock, program := handshake.program, remote := fun _ => none
        externalSymbol := handshake.externalSymbol }
    { state with
      globals := state.globals.sync handshake
      updates := state.globals.sync handshake :: state.updates
      clients := Function.update state.clients ticket (some client)
      stores := Function.update state.stores (Owner.client ticket) Store.empty
      ticket := ticket }

def processFlush (state : State abi) (ticket : Ticket) (client : ClientData abi) : State abi :=
  let own := (state.stores (Owner.client ticket)).traceProfile.length
  let (client,store) := client.reset own (state.stores (client.owner ticket))
  state.put ticket client store

inductive Message (abi : Abi) where
  | sync (sock : Sock) (handshake : Handshake abi)
  | trace (request : Request abi)
  | flush (ticket : Ticket)

/-- The body of the loop in `Daemonize`; a ticket nobody has ends the server. -/
def step (state : State abi) : Message abi → Option (State abi × Option (Reply abi))
  | .sync sock handshake => some (sync state sock handshake,none)
  | .trace request => (state.clients request.ticket).map fun client =>
    processTrace translate state client (state.stores (client.owner request.ticket)) request
  | .flush ticket => (state.clients ticket).map fun client =>
    (processFlush state ticket client,none)

def serve : State abi → List (Message abi) → Option (State abi × List (Reply abi))
  | state, [] => some (state,[])
  | state, message :: rest =>
    (step translate state message).bind fun out =>
      (serve out.1 rest).map fun served => (served.1,out.2.toList ++ served.2)

end Process

def init {abi : Abi} (arch baseRegNo : BitVec 32) (globals : Globals abi) : State abi where
  arch := arch
  baseRegNo := baseRegNo
  globals := globals
  updates := []
  clients := fun _ => none
  stores := fun _ => Store.empty
  ticket := invalidTicket
  serial := 0

section Samples

def sampleAbi : Abi := ⟨4,8,4,4⟩

def sampleGlobals : Globals sampleAbi :=
  ⟨[],[],[],0,fun _ => ⟨0,0,0,0,0,none⟩,[],0,0,0,[]⟩

def sampleHandshake (profileMode : BitVec 64) (program : Option Digest) : Handshake sampleAbi :=
  ⟨0,0,0,0,profileMode,program,[],[],[],[],[],[]⟩

def exitCode (pc : GuestAddr sampleAbi) : Translation sampleAbi where
  guestICount := 1
  profile := ⟨0,1,1,0,4⟩
  realCode := [0x90]
  size := 1
  toExit := []
  toExec := [⟨0,5,1,0,pc⟩]
  externalSymbol := []
  constPool := []
  constPoolSize := 0
  code_fits := by decide
  toExit_fits := by decide
  toExec_fits := by simp
  constPool_fits := by decide

def bindSymbols (bindings : Name → Option (HostWord sampleAbi)) (globals : Globals sampleAbi) :
    Name → Option (HostWord sampleAbi) :=
  (globals.nestedFunc ++ globals.globalVariable).foldl
    (fun bindings entry => Function.update bindings entry.2 (some entry.1)) bindings

/-- Every block branches to the address `0x1000` behind its own. -/
def exitTranslator : Translator sampleAbi where
  Engine := Name → Option (HostWord sampleAbi)
  start _ := none
  update := bindSymbols
  branches csBase image := [some (image.pc+0x1000,csBase)]
  genTrace _ _ _ points request :=
    match request.images with
    | [only] => (some (exitCode (only.pc+0x1000)),points+1)
    | [_,last] => (some (exitCode (last.pc+0x1000)),points+1)
    | _ => (none,points)
  links_fit request pc := by
    have hle := length_linkMap_le (request.graph fun csBase image => [some (image.pc+0x1000,
        csBase)])
      (fun node => Nat.le_refl 1) pc
    exact hle.trans_lt request.count_fits

def sampleImage (pc : GuestAddr sampleAbi) : Image sampleAbi := ⟨pc,0,0,1,[],[]⟩

def oneBlock (ticket : Ticket) : Request sampleAbi where
  ticket := ticket
  regen := false
  traceKey := 0x100
  csBase := 0
  root := ⟨0x8000,[]⟩
  others := []
  images := [sampleImage 0x8000]
  images_count := rfl
  images_fit := by decide
  raw := List.replicate 80 0
  covers := by decide

def twoBlocks (ticket : Ticket) : Request sampleAbi where
  ticket := ticket
  regen := false
  traceKey := 0x200
  csBase := 0
  root := ⟨0x8000,[1]⟩
  others := [⟨0x9000,[]⟩]
  images := [sampleImage 0x8000,sampleImage 0x9000]
  images_count := rfl
  images_fit := by decide
  raw := List.replicate 80 0
  covers := by decide

def oneClient : State sampleAbi := sync (init 0 0 sampleGlobals) 5 (sampleHandshake 0 none)

end Samples

end Hqemu.Net.Server
