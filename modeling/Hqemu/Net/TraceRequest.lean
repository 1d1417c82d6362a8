import Hqemu.Net.Region

/-! Region requests: what `SendTrace` writes behind a `TraceHeader`, and what `ProcessTrace` reads
when it has to translate the region. -/
namespace Hqemu.Net.TraceRequest

open List Lib.Codec Lib.Traverse Net.Cfg Net.Region

/-- The size of `Buf`. The checks of the message size are compiled with `ASSERT` only, which is
not defined. -/
def maxBufSize : Nat := 1024*1024

/-- The sizes of `target_ulong`, of what is behind the last field of `TraceHeader`, and of what
`tcg_pack_state` copies, if the target has it. -/
structure Target where
  guest : Nat
  headerPad : Nat
  stateSize : Nat
  stateSize_lt : stateSize < 2^31

structure Block (target : Target) where
  pc : BitVec (8*target.guest)
  csBase : BitVec (8*target.guest)
  flags : BitVec 64
  size : BitVec 16
  cflags : BitVec 16
  icount : BitVec 32
  code : List Byte
  state : List Byte
  code_size : code.length = size.toNat
  state_size : state.length = target.stateSize

structure Trace (target : Target) (Node : Type) where
  block : Node → Block target
  successor : Node → List Node
  root : Node

structure Header where
  ticket : BitVec 32
  mode : BitVec 32
  traceKey : BitVec 64
deriving DecidableEq

structure Image (target : Target) where
  csBase : BitVec (8*target.guest)
  pc : BitVec (8*target.guest)
  flags : BitVec 64
  size : BitVec 16
  cflags : BitVec 16
  icount : BitVec 32
  code : List Byte
  env : Option (List Byte)
deriving DecidableEq

structure Request (target : Target) where
  header : Header
  csBase : BitVec (8*target.guest)
  cfg : List (GraphNode target.guest)
  images : List (Image target)
deriving DecidableEq

section

variable {target : Target}

/-- The saved state of a block, or `NULL` for a target without any. -/
def envOf (state : List Byte) : Option (List Byte) := if state.length = 0 then none else some state

def Block.image (block : Block target) : Image target where
  csBase := block.csBase
  pc := block.pc
  flags := block.flags
  size := block.size
  cflags := block.cflags
  icount := block.icount
  code := block.code
  env := envOf block.state

def encodeImage (block : Block target) : List Byte :=
  encodeWord target.guest block.pc ++ encodeWord 8 block.flags ++ encodeWord 2 block.size ++
    encodeWord 2 block.cflags ++ encodeWord 4 block.icount ++ block.code ++
    encodeWord 4 (BitVec.ofNat 32 block.state.length) ++ block.state

/-- `SendTrace`; the base of the code segment is the one of the root. -/
def sendTrace {Node : Type} [DecidableEq Node] [Fintype Node] (buf : List Byte) (header : Header)
    (trace : Trace target Node) : List Byte :=
  let vec := cfgVec trace.successor trace.root
  encodeWord 4 header.ticket ++ encodeWord 4 header.mode ++ encodeWord 8 header.traceKey ++
    encodeWord target.guest (trace.block trace.root).csBase ++
    padding buf (16+target.guest) target.headerPad ++
    encodeCfg (fun node => (trace.block node).pc) trace.successor trace.root ++
    (intTake vec).flatMap fun node => encodeImage (trace.block node)

variable (target)

/-- One round of the loop over the blocks. A negative size would move the pointer back. -/
def decodeImage (csBase : BitVec (8*target.guest)) : Decoder (Image target) := do
  let pc ← decodeWord (8*target.guest) target.guest
  let flags ← decodeWord 64 8
  let size ← decodeWord 16 2
  let cflags ← decodeWord 16 2
  let icount ← decodeWord 32 4
  let code ← takeBytes size.toNat
  let stateSize ← decodeWord 32 4
  if stateSize.toInt < 0 then failure
  else
    let state ← takeBytes (loops stateSize)
    return ⟨csBase,pc,flags,size,cflags,icount,code,envOf state⟩

/-- `ProcessTrace` up to the translation. -/
def processTrace : Decoder (Request target) := do
  let ticket ← decodeWord 32 4
  let mode ← decodeWord 32 4
  let traceKey ← decodeWord 64 8
  let csBase ← decodeWord (8*target.guest) target.guest
  let _ ← takeBytes target.headerPad
  let cfg ← decodeCfg target.guest
  let images ← decodeMany (decodeImage target csBase) cfg.length
  return ⟨⟨ticket,mode,traceKey⟩,csBase,cfg,images⟩

end

section RoundTrip

variable {target : Target}

theorem reads_image (csBase : BitVec (8*target.guest)) (block : Block target) :
    Reads (decodeImage target csBase) (encodeImage block) { block.image with csBase := csBase } :=
        by
  have hstate : block.state.length < 2^31 := block.state_size ▸ target.stateSize_lt
  simp (disch := omega) only [decodeImage,encodeImage,append_assoc,reads_word_bind]
  refine (block.code_size ▸ reads_takeBytes block.code).bind ?_
  refine (reads_word _ (by omega)).bind ?_
  have hpos : ¬ (BitVec.ofNat 32 block.state.length).toInt < 0 := by
    rw [BitVec.toInt_eq_toNat_of_lt]
    · omega
    · rw [BitVec.toNat_ofNat]
      omega
  rw [if_neg hpos,loops_ofNat hstate]
  exact (reads_takeBytes block.state).map _

variable {Node : Type} [DecidableEq Node] [Fintype Node]

def Trace.request (trace : Trace target Node) (header : Header) : Request target :=
  let vec := cfgVec trace.successor trace.root
  { header := header
    csBase := (trace.block trace.root).csBase
    cfg := vec.map fun node =>
      ⟨(trace.block node).pc,(trace.successor node).map (vec.idxOf ·)⟩
    images := vec.map fun node =>
      { (trace.block node).image with csBase := (trace.block trace.root).csBase } }

variable {trace : Trace target Node}

theorem reads_trace (henc : Encodable trace.successor trace.root) (buf : List Byte)
    (header : Header) :
    Reads (processTrace target) (sendTrace buf header trace) (trace.request header) := by
  have hlen : (cfgVec trace.successor trace.root).length < 2^31 := by
    rw [length_cfgVec fun _ => mem_cfgVec henc]
    exact henc.1
  simp (disch := omega) only [processTrace,sendTrace,append_assoc,intTake_eq hlen,reads_word_bind]
  have hpad := reads_takeBytes (padding buf (16+target.guest) target.headerPad)
  rw [length_padding] at hpad
  refine hpad.bind ?_
  refine (reads_cfg henc).bind ?_
  rw [length_map]
  exact (reads_many fun node _ => reads_image _ (trace.block node)).map _

noncomputable def Trace.nodes (trace : Trace target Node) : Finset Node :=
  (Set.toFinite {node | Reachable trace.successor trace.root node}).toFinset

noncomputable def Trace.messageSize (trace : Trace target Node) : Nat :=
  20+target.guest+target.headerPad + ∑ node ∈ trace.nodes,
    (2*target.guest+24+4*(trace.successor node).length +
      (trace.block node).size.toNat + target.stateSize)

theorem length_flatMap_const {α : Type} (items : List α) (encode : α → List Byte) {size : Nat}
    (hsize : ∀ item, (encode item).length = size) :
    (items.flatMap encode).length = items.length*size := by
  induction items with
  | nil => simp
  | cons item items ih => rw [flatMap_cons,length_append,hsize,ih,length_cons,
      Nat.succ_mul,Nat.add_comm]

@[simp] theorem length_encodeImage (block : Block target) :
    (encodeImage block).length = target.guest+20+block.size.toNat+target.stateSize := by
  simp only [encodeImage,length_append,length_encodeWord,block.code_size,block.state_size]
  omega

section

variable (henc : Encodable trace.successor trace.root)
include henc

theorem nodes_eq : trace.nodes = (cfgVec trace.successor trace.root).toFinset := by
  ext node
  simp [Trace.nodes,mem_cfgVec henc]

theorem messageSize_eq :
    trace.messageSize = 20+target.guest+target.headerPad +
      ((cfgVec trace.successor trace.root).map fun node =>
        2*target.guest+24+4*(trace.successor node).length +
          (trace.block node).size.toNat + target.stateSize).sum := by
  have hnodup : (cfgVec trace.successor trace.root).Nodup := nodup_numbering _ _
  rw [Trace.messageSize,nodes_eq henc,sum_toFinset _ hnodup]

theorem length_sendTrace (buf : List Byte)
    (header : Header) : (sendTrace buf header trace).length = trace.messageSize := by
  have hlen : (cfgVec trace.successor trace.root).length < 2^31 := by
    rw [length_cfgVec fun _ => mem_cfgVec henc]
    exact henc.1
  have hsuccessor : ∀ node ∈ cfgVec trace.successor trace.root,
      intTake (trace.successor node) = trace.successor node := fun node hnode =>
    intTake_eq (henc.2 node ((mem_cfgVec henc).mp hnode))
  rw [messageSize_eq henc]
  simp only [sendTrace,encodeCfg,length_append,length_encodeWord,length_padding,intTake_eq hlen]
  generalize cfgVec trace.successor trace.root = vec at *
  have hlist : ∀ (order nodes : List Node), (∀ node ∈ nodes, node ∈ vec) →
      (nodes.flatMap fun node => encodeWord target.guest (trace.block node).pc).length +
        (nodes.flatMap fun node => encodeWord 4 (BitVec.ofNat 32 (trace.successor node).length) ++
          (intTake (trace.successor node)).flatMap fun child =>
            encodeWord 4 (BitVec.ofNat 32 (order.idxOf child))).length +
        (nodes.flatMap fun node => encodeImage (trace.block node)).length =
      (nodes.map fun node => 2*target.guest+24+4*(trace.successor node).length +
        (trace.block node).size.toNat + target.stateSize).sum := by
    intro order nodes
    induction nodes with
    | nil => exact fun _ => rfl
    | cons node nodes ih =>
      intro hmem
      have hrest := ih fun other hother => hmem other (mem_cons_of_mem _ hother)
      have hlinks := length_flatMap_const (trace.successor node)
        (fun child => encodeWord 4 (BitVec.ofNat 32 (order.idxOf child)))
        fun child => length_encodeWord 4 _
      simp only [flatMap_cons,length_append,length_encodeWord,map_cons,sum_cons,
        length_encodeImage,hsuccessor node (hmem node mem_cons_self),hlinks] at hrest ⊢
      omega
  have hnodes := hlist vec vec fun _ hnode => hnode
  omega

end

/-- The server has the client's request: the header, the graph, and every node's block with all its
fields. The message fits the buffer, and all of it is read. -/
structure Received (buf : List Byte) (header : Header) (trace : Trace target Node)
    (request : Request target) : Prop where
  exact : ∀ rest, processTrace target (sendTrace buf header trace ++ rest) = some (request,rest)
  within : (sendTrace buf header trace).length ≤ maxBufSize
  header : request.header = header
  graph : Decoded (fun node => (trace.block node).pc) trace.successor trace.root request.cfg
  images : request.images =
    (cfgVec trace.successor trace.root).map fun node => (trace.block node).image

structure Sendable (trace : Trace target Node) : Prop where
  encodable : Encodable trace.successor trace.root
  sameBase : ∀ node, Reachable trace.successor trace.root node →
    (trace.block node).csBase = (trace.block trace.root).csBase
  size : trace.messageSize ≤ maxBufSize

theorem Sendable.received (h : Sendable trace) (buf : List Byte) (header : Header) :
    Received buf header trace (trace.request header) where
  exact := reads_trace h.encodable buf header
  within := (length_sendTrace h.encodable buf header).trans_le h.size
  header := rfl
  graph := decoded_of_encodable h.encodable
  images := by
    apply map_congr_left
    intro node hnode
    rw [← h.sameBase node ((mem_cfgVec h.encodable).mp hnode)]
    rfl

theorem Received.sendable {buf : List Byte} {header : Header} {request : Request target}
    (h : Received buf header trace request) : Sendable trace := by
  have henc := h.graph.encodable
  refine ⟨henc,fun node hnode => ?_,(length_sendTrace henc buf header) ▸ h.within⟩
  have hreq : request = trace.request header := by
    have hread := h.exact []
    rw [reads_trace henc buf header [],Option.some_inj,Prod.mk.injEq] at hread
    exact hread.1.symm
  have himages := h.images
  rw [hreq] at himages
  have hsame := map_inj_left.mp himages node ((mem_cfgVec henc).mpr hnode)
  exact (congrArg Image.csBase hsame).symm

/-- A request arrives as it was sent exactly if all its blocks have one segment base, and it fits
the buffer and the `int`s that count. -/
theorem received_iff_sendable (buf : List Byte) (header : Header) (trace : Trace target Node) :
    (∃ request, Received buf header trace request) ↔ Sendable trace :=
  ⟨fun ⟨_,h⟩ => h.sendable,fun h => ⟨_,h.received buf header⟩⟩

end RoundTrip

def sparc : Target := ⟨4,4,0,by decide⟩

def sparcBlock (pc : BitVec (8*sparc.guest)) : Block sparc where
  pc := pc
  csBase := pc+4
  flags := 0
  size := 4
  cflags := 0
  icount := 1
  code := [0x01,0,0,0]
  state := []
  code_size := rfl
  state_size := rfl

def branch : Trace sparc Bool where
  block node := if node then sparcBlock 0x9000 else sparcBlock 0x8000
  successor node := if node then [] else [true]
  root := false

/-- The second block comes with the next instruction of the first one. -/
theorem branch_base_lost :
    (processTrace sparc (sendTrace [] ⟨1, 0, 0x1000⟩ branch)).map
        (fun out => out.1.images.map fun image => (image.pc.toNat, image.csBase.toNat)) =
      some [(0x8000, 0x8004), (0x9000, 0x8004)] ∧
    (branch.block true).csBase.toNat = 0x9004 ∧
    ¬ ∃ request, Received [] ⟨1, 0, 0x1000⟩ branch request := by
  refine ⟨rfl,rfl,fun ⟨request,h⟩ => ?_⟩
  have hbase := h.sendable.sameBase true (.single mem_cons_self)
  exact absurd hbase (by decide)

end Hqemu.Net.TraceRequest
