import Hqemu.Net.TraceServer

/-! What a client reads out of a reply. The links of a cached region are those of the request it was
translated for. -/
namespace Hqemu.Net.Server

open List Lib.Codec Net.Cfg Net.Region

open Llvm.TraceBuilder (Region mem_outside mem_translated)

open Lib.Traverse (Reachable)

section Codec

variable {abi : Abi}

theorem length_overwrite (code : List Byte) (pos : Nat) (bytes : List Byte) :
    (overwrite code pos bytes).length = code.length := length_mapIdx

theorem length_patchExternalSymbol (symbols : List (HostWord abi)) (code : Translation abi) :
    (patchExternalSymbol symbols code).length = code.realCode.length := by
  unfold patchExternalSymbol
  generalize code.realCode = bytes
  induction code.externalSymbol generalizing bytes with
  | nil => rfl
  | cons entry entries ih => rw [foldl_cons,ih,length_overwrite]

theorem describe_fits (client : ClientData abi) (tc : TranslatedCode abi) (basic : Bool) :
    (describe client tc basic).Fits where
  code := by
    have hfit := tc.code.code_fits
    simp only [describe,length_patchExternalSymbol,BitVec.toNat_add,BitVec.toNat_setWidth]
    omega
  toExit := tc.code.toExit_fits
  execs := by
    simp only [describe,length_map]
    exact tc.code.toExec_fits
  links exec hexec := by
    obtain ⟨chain,-,rfl⟩ := mem_map.mp hexec
    exact tc.links_fit chain.pc
  constPool := tc.code.constPool_fits

theorem reads_reply (globals : Globals abi) (client : ClientData abi) (tc : TranslatedCode abi)
    (request : Request abi) :
    Reads (decodePack abi (isBasic globals.profileMode))
      (sendTraceEmitted globals client tc request).bytes
      (sendTraceEmitted globals client tc request).pack := by
  apply reads_pack
  refine ⟨?_,?_,?_,?_⟩
  · simp [sendTraceEmitted]
  · exact forall_mem_singleton.mpr (describe_fits client tc _)
  · rintro _ ⟨⟩
    simp only [describe]
    split <;> simp_all
  · exact forall_mem_nil _

theorem decodePack_tail {ack : Ack abi} (hfit : ack.Fits) (traceKey : BitVec 64)
    {front pad : List Byte} (hfront : front.length = abi.packPad) (hpad : pad.length = abi.ackPad)
    (tail : List Byte) (basic : Bool) :
    decodePack abi basic (encodeWord 8 traceKey ++ (encodeWord 4 1#32 ++
      (front ++ (encodeBody pad ack ++ tail)))) =
        if basic then (decodeProfile tail).map fun out =>
          (⟨traceKey,[{ ack with profile := some out.1 }]⟩,out.2)
        else some (⟨traceKey,[{ ack with profile := none }]⟩,tail) := by
  have hkey := reads_word traceKey (by omega : 64 ≤ 8*8)
  have hcount := reads_word 1#32 (by omega : 32 ≤ 8*4)
  have hskip := hfront ▸ reads_takeBytes front
  have hbody := reads_body hfit hpad
  have hone : loops 1#32 = 1 := rfl
  simp only [decodePack,decodeAcks,decodeAck,bind_apply,hkey _,hcount _,hskip _,hbody _,
    hone,Option.bind_some]
  cases basic with
  | true =>
    simp only [if_true,bind_apply]
    cases decodeProfile tail with
    | none => rfl
    | some out => rfl
  | false => rfl

theorem decodes_iff_mode (globals : Globals abi) (client : ClientData abi)
    (tc : TranslatedCode abi) (request : Request abi) (basic : Bool) :
    decodePack abi basic (sendTraceEmitted globals client tc request).bytes =
        some ((sendTraceEmitted globals client tc request).pack,[]) ↔
      basic = isBasic globals.profileMode := by
  constructor
  · intro hread
    have hbytes : (sendTraceEmitted globals client tc request).bytes =
        encodeWord 8 request.traceKey ++ (encodeWord 4 1#32 ++
          (padding request.raw 12 abi.packPad ++
            (encodeBody (padding request.raw (packHeaderSize abi + 28) abi.ackPad)
                (describe client tc (isBasic globals.profileMode)) ++
              if isBasic globals.profileMode then encodeProfile tc.code.profile else []))) := by
      simp only [Reply.bytes,sendTraceEmitted,encodePack,encodeAcks,encodeAck,
        append_assoc,append_nil,length_singleton]
      cases isBasic globals.profileMode <;> rfl
    rw [hbytes,decodePack_tail (describe_fits client tc _) _ (length_padding _ _ _)
      (length_padding _ _ _)] at hread
    cases basic with
    | true =>
      cases hmode : isBasic globals.profileMode with
      | true => rfl
      | false =>
        rw [hmode] at hread
        cases hread
    | false =>
      cases hmode : isBasic globals.profileMode with
      | true =>
        rw [hmode] at hread
        have hrest := congrArg (fun out => out.map fun pair => pair.2.length) hread
        simp [encodeProfile] at hrest
      | false => rfl
  · intro hmode
    have hreads := reads_reply globals client tc request []
    rwa [append_nil,← hmode] at hreads

end Codec

section Links

variable {abi : Abi}

/-- The block has a branch to `pc`. -/
def Translator.BranchesTo (translate : Translator abi) (request : Request abi) (image : Image abi)
    (pc : GuestAddr abi) : Prop :=
  ∃ cs, some (pc,cs) ∈ translate.branches request.csBase image

/-- Branches lead from the head of the region to a block that branches to `pc`, and no block of the
region begins there. -/
def Leaves {count : Nat} (graph : Region (CodeKey abi) (Fin count)) (node : Fin count)
    (pc : GuestAddr abi) : Prop :=
  Reachable graph.linked graph.cfg node ∧
    ∃ cs, some (pc,cs) ∈ graph.exits node ∧ graph.lookupNode (pc,cs) = none

/-- Where a block leaves the region of an earlier request, the block with its number in this one
branches to the same address. -/
def Translator.Matches (translate : Translator abi) (tc : TranslatedCode abi)
    (request : Request abi) : Prop :=
  ∀ chain ∈ tc.code.toExec, ∀ node, Leaves tc.graph node chain.pc →
    ∃ image, request.images[node.val]? = some image ∧
      translate.BranchesTo request image chain.pc

/-- What the client makes of a reply: the description the server had, the whole message, and links
that denote the right blocks of its `CFGVec`. -/
structure Faithful (translate : Translator abi) (basic : Bool) (request : Request abi)
    (reply : Reply abi) : Prop where
  decoded : decodePack abi basic reply.bytes = some (reply.pack,[])
  links : ∀ ack ∈ reply.pack.acks, ∀ exec ∈ ack.execs, ∀ link ∈ exec.links,
    ∃ image, request.images[link.toNat]? = some image ∧
      translate.BranchesTo request image exec.pc

theorem mem_linkMap {count : Nat} {graph : Region (CodeKey abi) (Fin count)} {pc : GuestAddr abi}
    {link : BitVec 32} :
    link ∈ linkMap graph pc ↔ ∃ node, Leaves graph node pc ∧ link = BitVec.ofNat 32 node := by
  simp only [linkMap,mem_flatMap,mem_map,mem_filter,mem_outside,mem_translated,decide_eq_true_eq]
  constructor
  · rintro ⟨node,hpath,⟨key,cs⟩,⟨hexit,rfl⟩,rfl⟩
    exact ⟨node,⟨hpath,cs,hexit⟩,rfl⟩
  · rintro ⟨node,⟨hpath,cs,hexit⟩,rfl⟩
    exact ⟨node,hpath,(pc,cs),⟨hexit,rfl⟩,rfl⟩

theorem links_iff_matches (translate : Translator abi) (globals : Globals abi)
    (client : ClientData abi) (tc : TranslatedCode abi) (request : Request abi) :
    (∀ ack ∈ (sendTraceEmitted globals client tc request).pack.acks, ∀ exec ∈ ack.execs,
      ∀ link ∈ exec.links, ∃ image, request.images[link.toNat]? = some image ∧
        translate.BranchesTo request image exec.pc) ↔ translate.Matches tc request := by
  have hnumber : ∀ node : Fin tc.count, (BitVec.ofNat 32 node.val).toNat = node.val := fun node =>
      by
    have hfit := node.isLt.trans tc.count_fits
    rw [BitVec.toNat_ofNat]
    omega
  simp only [sendTraceEmitted,mem_singleton,forall_eq,describe,List.forall_mem_map,describeExec,
    mem_linkMap,Translator.Matches,forall_exists_index,and_imp]
  refine forall₂_congr fun chain _ => ⟨fun h node hleaves => ?_,fun h link node hleaves hlink => ?_⟩
  · rw [← hnumber node]
    exact h _ node hleaves rfl
  · rw [hlink,hnumber]
    exact h node hleaves

theorem matches_newTrace (translate : Translator abi) (state : State abi) (store : Store abi)
    (request : Request abi) (code : Translation abi) :
    translate.Matches (newTrace translate state store request code) request := by
  rintro chain - node ⟨-,cs,hexit,-⟩
  exact ⟨request.image node,getElem?_eq_getElem _,cs,hexit⟩

theorem faithful_iff (translate : Translator abi) (basic : Bool) (globals : Globals abi)
    (client : ClientData abi) (tc : TranslatedCode abi) (request : Request abi) :
    Faithful translate basic request (sendTraceEmitted globals client tc request) ↔
      basic = isBasic globals.profileMode ∧ translate.Matches tc request := by
  rw [← decodes_iff_mode globals client tc request,
    ← links_iff_matches translate globals client tc request]
  exact ⟨fun h => ⟨h.decoded,h.links⟩,fun h => ⟨h.1,h.2⟩⟩

theorem generate_faithful {translate : Translator abi} {state : State abi}
    {client : ClientData abi} {store : Store abi} {request : Request abi} {reply : Reply abi}
    (hreply : (generate translate state client store request).2 = some reply) (basic : Bool) :
    Faithful translate basic request reply ↔ basic = isBasic state.globals.profileMode := by
  unfold generate at hreply
  split at hreply
  · exact nomatch hreply
  · next code chainPoints hcode =>
    cases hreply
    rw [faithful_iff]
    exact and_iff_left (matches_newTrace translate state store request code)

end Links

section Samples

end Samples

end Hqemu.Net.Server
