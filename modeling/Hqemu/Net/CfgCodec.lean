import Hqemu.Lib.Codec
import Hqemu.Lib.Traverse
import Mathlib.Data.Set.Card

/-! `EncodeCFG` and `DecodeCFG`: a graph travels as a count, the guest PCs and the numbers of each
node's successors. All counts are `int`s. -/
namespace Hqemu.Net.Cfg

open List Lib.Codec Lib.Traverse

/-- How often `for (int i = 0; i < count; i++)` runs. -/
def loops (count : BitVec 32) : Nat := count.toInt.toNat

/-- The items `for (int i = 0, e = items.size(); i < e; i++)` passes. -/
def intTake {α : Type} (items : List α) : List α :=
  items.take (loops (BitVec.ofNat 32 items.length))

structure GraphNode (guest : Nat) where
  pc : BitVec (8*guest)
  successor : List Nat
deriving DecidableEq

section Encode

variable {Node : Type} [DecidableEq Node] [Fintype Node] {guest : Nat}

/-- `CFGVec` after the first loop of `EncodeCFG`. -/
def cfgVec (successor : Node → List Node) (root : Node) : List Node :=
  numbering (fun node => intTake (successor node)) root

/-- `EncodeCFG`; the number of a node is its position in `CFGVec`. -/
def encodeCfg (pc : Node → BitVec (8*guest)) (successor : Node → List Node) (root : Node) :
    List (BitVec 8) :=
  let vec := cfgVec successor root
  encodeWord 4 (BitVec.ofNat 32 vec.length) ++
    ((intTake vec).flatMap (fun node => encodeWord guest (pc node)) ++
      (intTake vec).flatMap fun node =>
        encodeWord 4 (BitVec.ofNat 32 (successor node).length) ++
          (intTake (successor node)).flatMap fun child =>
            encodeWord 4 (BitVec.ofNat 32 (vec.idxOf child)))

end Encode

def decodeChildren : Decoder (List (BitVec 32)) := do
  let numChild ← decodeWord 32 4
  decodeMany (decodeWord 32 4) (loops numChild)

/-- `DecodeCFG`: there is no `Nodes[0]` without a node, and `Nodes[ChildIdx]` is undefined for
an index out of range. -/
def decodeCfg (guest : Nat) : Decoder (List (GraphNode guest)) := do
  let numNodes ← decodeWord 32 4
  let pcs ← decodeMany (decodeWord (8*guest) guest) (loops numNodes)
  let children ← decodeMany decodeChildren (loops numNodes)
  if loops numNodes = 0 ∨
      ¬ children.all fun indices => indices.all fun index => index.toNat < pcs.length then
    failure
  else return List.zipWith (fun pc indices => ⟨pc,indices.map BitVec.toNat⟩) pcs children

theorem loops_lt (count : BitVec 32) : loops count < 2^31 := by
  have hlt := BitVec.toInt_lt (x := count)
  unfold loops
  omega

theorem loops_ofNat {count : Nat} (hcount : count < 2^31) :
    loops (BitVec.ofNat 32 count) = count := by
  rw [loops,BitVec.toInt_eq_toNat_of_lt]
  · simp
    omega
  · simp
    omega

theorem intTake_eq {α : Type} {items : List α} (hlen : items.length < 2^31) :
    intTake items = items := by
  rw [intTake,loops_ofNat hlen,take_length]

theorem reads_children {Node : Type} [DecidableEq Node] (vec : List Node) {children : List Node}
    (hlen : children.length < 2^31) :
    Reads decodeChildren
      (encodeWord 4 (BitVec.ofNat 32 children.length) ++
        (intTake children).flatMap fun child => encodeWord 4 (BitVec.ofNat 32 (vec.idxOf child)))
      (children.map fun child => BitVec.ofNat 32 (vec.idxOf child)) := by
  refine (reads_word _ (by omega)).bind ?_
  rw [loops_ofNat hlen,intTake_eq hlen]
  exact reads_many fun child _ => reads_word _ (by omega)

section RoundTrip

variable {Node : Type} [DecidableEq Node] [Fintype Node] {guest : Nat}

def Encodable (successor : Node → List Node) (root : Node) : Prop :=
  {node | Reachable successor root node}.ncard < 2^31 ∧
    ∀ node, Reachable successor root node → (successor node).length < 2^31

structure Decoded (pc : Node → BitVec (8*guest)) (successor : Node → List Node) (root : Node)
    (nodes : List (GraphNode guest)) : Prop where
  exact : ∀ rest, decodeCfg guest (encodeCfg pc successor root ++ rest) = some (nodes,rest)
  nodup : (cfgVec successor root).Nodup
  reached : ∀ node, node ∈ cfgVec successor root ↔ Reachable successor root node
  first : (cfgVec successor root)[0]? = some root
  length : nodes.length = (cfgVec successor root).length
  node : ∀ (i : Nat) node, (cfgVec successor root)[i]? = some node →
    ∃ decoded : GraphNode guest,
      nodes[i]? = some decoded ∧ decoded.pc = pc node ∧
      decoded.successor.map (fun index => (cfgVec successor root)[index]?) =
        (successor node).map some

variable {pc : Node → BitVec (8 * guest)} {successor : Node → List Node} {root : Node}

theorem mem_cfgVec (henc : Encodable successor root) {node : Node} :
    node ∈ cfgVec successor root ↔ Reachable successor root node := by
  have hsame : ∀ node, Reachable successor root node → intTake (successor node) = successor node :=
    fun node hnode => intTake_eq (henc.2 node hnode)
  rw [cfgVec,mem_numbering]
  constructor
  · intro hreach
    induction hreach with
    | refl => exact .refl
    | tail _ hs ih =>
      exact ih.tail ((congrArg (_ ∈ ·) (hsame _ ih)).mp hs)
  · intro hreach
    exact hreach.congr hsame

theorem length_cfgVec (hreached : ∀ node, node ∈ cfgVec successor root ↔
      Reachable successor root node) :
    (cfgVec successor root).length = {node | Reachable successor root node}.ncard := by
  have hset : {node | Reachable successor root node} =
      ((cfgVec successor root).toFinset : Set Node) := by
    ext node
    simp [hreached]
  have hnodup : (cfgVec successor root).Nodup := nodup_numbering _ root
  rw [hset,Set.ncard_coe_finset,toFinset_card_of_nodup hnodup]

theorem reads_cfg (henc : Encodable successor root) :
    Reads (decodeCfg guest) (encodeCfg pc successor root)
      ((cfgVec successor root).map fun node =>
        ⟨pc node,(successor node).map ((cfgVec successor root).idxOf ·)⟩) := by
  have hlen : (cfgVec successor root).length < 2^31 := by
    rw [length_cfgVec fun _ => mem_cfgVec henc]
    exact henc.1
  have hreached : ∀ node ∈ cfgVec successor root, Reachable successor root node :=
    fun node => (mem_cfgVec henc).mp
  have hindex : ∀ node ∈ cfgVec successor root, ∀ child ∈ successor node,
      (cfgVec successor root).idxOf child < (cfgVec successor root).length := by
    intro node hnode child hchild
    exact idxOf_lt_length_iff.mpr ((mem_cfgVec henc).mpr ((hreached node hnode).tail hchild))
  have hpos : (cfgVec successor root).length ≠ 0 := by
    have hroot := head_numbering (fun node => intTake (successor node)) root
    have hlt := (List.getElem?_eq_some_iff.mp hroot).1
    exact Nat.ne_of_gt hlt
  unfold encodeCfg
  generalize cfgVec successor root = vec at *
  have hwords : ∀ node ∈ vec, ((successor node).map fun child =>
      BitVec.ofNat 32 (vec.idxOf child)).map BitVec.toNat = (successor node).map (vec.idxOf ·) := by
    intro node hnode
    rw [List.map_map]
    apply map_congr_left
    intro child hchild
    have hlt := hindex node hnode child hchild
    rw [Function.comp_apply,BitVec.toNat_ofNat]
    omega
  refine (reads_word _ (by omega)).bind ?_
  simp only [loops_ofNat hlen,intTake_eq hlen]
  refine (reads_many fun node _ => reads_word (pc node) (by omega)).bind ?_
  have hchildren := reads_many fun node (hnode : node ∈ vec) =>
    reads_children vec (henc.2 node (hreached node hnode))
  rw [← append_nil (vec.flatMap _)]
  refine hchildren.bind fun rest => ?_
  have hrange : ((vec.map fun node => (successor node).map fun child =>
      BitVec.ofNat 32 (vec.idxOf child)).all fun indices => indices.all fun index =>
        index.toNat < (vec.map pc).length) = true := by
    simp only [List.all_eq_true,List.mem_map,decide_eq_true_eq,length_map]
    rintro _ ⟨node,hnode,rfl⟩ _ hindices
    obtain ⟨child,hchild,rfl⟩ := mem_map.mp hindices
    have hlt := hindex node hnode child hchild
    rw [BitVec.toNat_ofNat]
    omega
  have hnodes : List.zipWith (fun pc indices => GraphNode.mk pc (indices.map BitVec.toNat))
      (vec.map pc) (vec.map fun node => (successor node).map fun child =>
        BitVec.ofNat 32 (vec.idxOf child)) =
      vec.map fun node => ⟨pc node,(successor node).map (vec.idxOf ·)⟩ := by
    rw [zipWith_map,zipWith_self]
    apply map_congr_left
    intro node hnode
    rw [hwords node hnode]
  rw [if_neg (by simp only [hrange,hpos,not_true_eq_false,or_self,not_false_eq_true]),hnodes]
  rfl

theorem decoded_of_encodable (henc : Encodable successor root) :
    Decoded pc successor root ((cfgVec successor root).map fun node =>
        ⟨pc node,(successor node).map ((cfgVec successor root).idxOf ·)⟩) where
  exact := reads_cfg henc
  nodup := nodup_numbering _ root
  reached _ := mem_cfgVec henc
  first := head_numbering _ root
  length := length_map _
  node i node hnode := by
    refine ⟨_,by rw [List.getElem?_map,hnode,Option.map_some],rfl,?_⟩
    rw [List.map_map]
    apply map_congr_left
    intro child hchild
    have hparent := (mem_cfgVec henc).mp (mem_of_getElem? hnode)
    exact List.getElem?_idxOf ((mem_cfgVec henc).mpr (hparent.tail hchild))

theorem decodeChildren_length {bytes rest : List (BitVec 8)} {indices : List (BitVec 32)}
    (hread : decodeChildren bytes = some (indices,rest)) : indices.length < 2^31 := by
  obtain ⟨numChild,-,hread⟩ := Option.bind_eq_some_iff.mp hread
  have hlen := (decodeMany_forall (fun _ _ _ _ => trivial) hread).1
  rw [hlen]
  exact loops_lt _

theorem decodeCfg_bounds {bytes rest : List (BitVec 8)} {nodes : List (GraphNode guest)}
    (hread : decodeCfg guest bytes = some (nodes,rest)) :
    nodes.length < 2^31 ∧ ∀ node ∈ nodes, node.successor.length < 2^31 := by
  obtain ⟨numNodes,-,hread⟩ := Option.bind_eq_some_iff.mp hread
  obtain ⟨pcs,hpcs,hread⟩ := Option.bind_eq_some_iff.mp hread
  obtain ⟨children,hchildren,hread⟩ := Option.bind_eq_some_iff.mp hread
  have hpcs := (decodeMany_forall (fun _ _ _ _ => trivial) hpcs).1
  have hcounts := (decodeMany_forall (fun _ indices _ h => decodeChildren_length h) hchildren).2
  dsimp only at hread
  split at hread
  · exact nomatch hread
  cases hread
  constructor
  · rw [length_zipWith]
    have hlt := loops_lt numNodes.1
    omega
  · intro node hnode
    obtain ⟨i,hi,rfl⟩ := getElem_of_mem hnode
    rw [getElem_zipWith,length_map]
    exact hcounts _ (getElem_mem _)

theorem Decoded.encodable {nodes : List (GraphNode guest)}
    (hdec : Decoded pc successor root nodes) : Encodable successor root := by
  obtain ⟨hlen,hnodes⟩ := decodeCfg_bounds (hdec.exact [])
  constructor
  · rw [← length_cfgVec hdec.reached,← hdec.length]
    exact hlen
  · intro node hnode
    obtain ⟨i,hi,hget⟩ := getElem_of_mem ((hdec.reached node).mpr hnode)
    obtain ⟨decoded,hmem,-,hsuccessor⟩ := hdec.node i node (hget ▸ List.getElem?_eq_getElem hi)
    have hsame := congrArg List.length hsuccessor
    rw [length_map,length_map] at hsame
    rw [← hsame]
    exact hnodes decoded (mem_of_getElem? hmem)

/-- The round trip of a graph works exactly when its nodes, and the successors of each of them,
can be counted with an `int`. -/
theorem decodes_iff_encodable (pc : Node → BitVec (8 * guest)) (successor : Node → List Node)
    (root : Node) : (∃ nodes, Decoded pc successor root nodes) ↔ Encodable successor root :=
  ⟨fun ⟨_,hdec⟩ => hdec.encodable,fun henc => ⟨_,decoded_of_encodable henc⟩⟩

end RoundTrip

def selfLoops (_ : Unit) : List Unit := List.replicate (2^32) ()

theorem intTake_selfLoops (node : Unit) : intTake (selfLoops node) = [] := by
  have hloops : loops (BitVec.ofNat 32 (2^32)) = 0 := by decide
  rw [selfLoops,intTake,length_replicate,hloops,take_zero]

/-- None of the branches arrives. -/
theorem selfLoops_lost :
    decodeCfg 4 (encodeCfg (fun _ => 0x8000#(8 * 4)) selfLoops ()) =
        some ([⟨0x8000#(8 * 4), []⟩], []) ∧
      (selfLoops ()).length = 2 ^ 32 ∧
      ¬ ∃ nodes : List (GraphNode 4), Decoded (fun _ => 0x8000#(8 * 4)) selfLoops () nodes := by
  have hvec : cfgVec selfLoops () = [()] := by
    unfold cfgVec
    simp only [intTake_selfLoops]
    rfl
  have hcount : BitVec.ofNat 32 (selfLoops ()).length = 0#32 := by
    rw [selfLoops,length_replicate]
    rfl
  refine ⟨?_,length_replicate,?_⟩
  · have hbytes : encodeCfg (fun _ => 0x8000#(8*4)) selfLoops () =
        encodeWord 4 1#32 ++ (encodeWord 4 0x8000#32 ++ encodeWord 4 0#32) := by
      simp only [encodeCfg,hvec,intTake_selfLoops,hcount]
      rfl
    rw [hbytes]
    rfl
  · rintro ⟨nodes,hdec⟩
    have hlen := hdec.encodable.2 () .refl
    rw [selfLoops,length_replicate] at hlen
    omega

end Hqemu.Net.Cfg
