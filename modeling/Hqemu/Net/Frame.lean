import Mathlib.Data.BitVec

/-! What two peers agree on (`tcp.h`, `net_types.h`): a message is a header of three words and its
payload, and a stream is cut into messages by the size word. -/
namespace Hqemu.Net

open List

abbrev Byte := BitVec 8
abbrev Sock := BitVec 32
abbrev Tag := BitVec 32

scoped instance (priority := 2000) sock_lawfulBEq : LawfulBEq Sock := inferInstance

def anySource : Sock := BitVec.ofInt 32 (-1)
def anyTag : Tag := BitVec.ofInt 32 (-2)
def commMagicNr : BitVec 32 := 0x41824182#32
def tcpHeaderSize : Nat := 12
/-- The largest value of the `int`s that hold sizes and counts of bytes. -/
def intMax : Nat := 2^31-1

/-- A word as it lies in memory on the little-endian hosts. -/
def wordBytes (word : BitVec 32) : List Byte :=
  [word.extractLsb' 0 8,word.extractLsb' 8 8,word.extractLsb' 16 8,word.extractLsb' 24 8]

def wordAt (bytes : List Byte) (pos : Nat) : BitVec 32 :=
  bytes.getD (pos+3) 0 ++ bytes.getD (pos+2) 0 ++ bytes.getD (pos+1) 0 ++ bytes.getD pos 0

def fillTcpHeader (size : BitVec 32) (tag : Tag) : List Byte :=
  wordBytes commMagicNr ++ wordBytes size ++ wordBytes tag

structure Msg where
  sock : Sock
  tag : Tag
  bufs : List (List Byte)
deriving DecidableEq

def Msg.payload (msg : Msg) : List Byte := msg.bufs.flatten

def Msg.frame (msg : Msg) : List Byte :=
  fillTcpHeader (BitVec.ofNat 32 msg.payload.length) msg.tag ++ msg.payload

structure Framed where
  tag : Tag
  payload : List Byte
  fits : payload.length < 2^32
deriving DecidableEq

def Framed.frame (message : Framed) : List Byte :=
  fillTcpHeader (BitVec.ofNat 32 message.payload.length) message.tag ++ message.payload

/-- One message off the front of a stream: its tag, its payload and the rest. -/
def takeFrame (bytes : List Byte) : Option (Tag × List Byte × List Byte) :=
  if bytes.length < tcpHeaderSize+(wordAt bytes 4).toNat ∨ wordAt bytes 0 ≠ commMagicNr then
    none
  else some (wordAt bytes 8,(bytes.drop tcpHeaderSize).take (wordAt bytes 4).toNat,
    bytes.drop (tcpHeaderSize+(wordAt bytes 4).toNat))

/-- The first `count` messages a reader of the stream gets. -/
def takeFrames : Nat → List Byte → List (Tag × List Byte)
  | 0, _ => []
  | count+1, bytes =>
    match takeFrame bytes with
    | none => []
    | some (tag,payload,rest) => (tag,payload) :: takeFrames count rest

@[simp] theorem length_fillTcpHeader (size : BitVec 32) (tag : Tag) :
    (fillTcpHeader size tag).length = tcpHeaderSize := rfl

theorem Framed.frame_ne_nil (message : Framed) : message.frame ≠ [] := by
  intro hnil
  have hlength := congrArg List.length hnil
  rw [Framed.frame,length_append,length_fillTcpHeader,length_nil,tcpHeaderSize] at hlength
  omega

theorem wordAt_wordBytes (word : BitVec 32) (rest : List Byte) :
    wordAt (wordBytes word ++ rest) 0 = word := by
  simp only [wordAt,wordBytes,cons_append,getD_cons_succ,getD_cons_zero,Nat.zero_add]
  ext i hi
  simp only [BitVec.getElem_append,BitVec.getElem_extractLsb']
  split
  · simp [hi]
  split
  · simp only [BitVec.getLsbD_eq_getElem hi,show 8 + (i-8) = i by omega]
  · split
    · simp only [BitVec.getLsbD_eq_getElem hi,show 16 + (i-8-8) = i by omega]
    · simp only [BitVec.getLsbD_eq_getElem hi,show 24 + (i-8-8-8) = i by omega]

theorem wordAt_append (front bytes : List Byte) (pos : Nat) :
    wordAt (front ++ bytes) (front.length+pos) = wordAt bytes pos := by
  simp only [wordAt,getD_eq_getElem?_getD,Nat.add_assoc,
    List.getElem?_append_right (Nat.le_add_right front.length _),Nat.add_sub_cancel_left]

theorem wordAt_header (size : BitVec 32) (tag : Tag) (rest : List Byte) :
    wordAt (fillTcpHeader size tag ++ rest) 0 = commMagicNr ∧
      wordAt (fillTcpHeader size tag ++ rest) 4 = size ∧
      wordAt (fillTcpHeader size tag ++ rest) 8 = tag := by
  refine ⟨?_,?_,?_⟩
  · rw [fillTcpHeader,append_assoc,append_assoc]
    exact wordAt_wordBytes commMagicNr _
  · have hsize := wordAt_append (wordBytes commMagicNr) (wordBytes size ++ (wordBytes tag ++ rest))
        0
    rw [wordAt_wordBytes] at hsize
    exact hsize
  · have htag := wordAt_append (wordBytes commMagicNr ++ wordBytes size) (wordBytes tag ++ rest) 0
    rw [wordAt_wordBytes] at htag
    exact htag

theorem takeFrame_frame (msg : Msg) (hsize : msg.payload.length < 2^32) (rest : List Byte) :
    takeFrame (msg.frame ++ rest) = some (msg.tag,msg.payload,rest) := by
  obtain ⟨hmagic,hword,htag⟩ := wordAt_header (BitVec.ofNat 32 msg.payload.length) msg.tag
    (msg.payload ++ rest)
  have hnat : (BitVec.ofNat 32 msg.payload.length).toNat = msg.payload.length := by
    rw [BitVec.toNat_ofNat,Nat.mod_eq_of_lt hsize]
  have hheader := length_fillTcpHeader (BitVec.ofNat 32 msg.payload.length) msg.tag
  unfold takeFrame
  rw [Msg.frame,append_assoc,hmagic,hword,htag,hnat,← hheader,if_neg (by simp),
    drop_left,take_left,← append_assoc,← length_append,drop_left]

theorem takeFrame_cut {msg : Msg} {bytes : List Byte} (hsize : msg.payload.length < 2^32)
    (hpre : bytes <+: msg.frame) (hlt : bytes.length < msg.frame.length) :
    takeFrame bytes = none := by
  apply if_pos
  by_cases hheader : bytes.length < tcpHeaderSize
  · exact .inl (by omega)
  left
  obtain ⟨rest,hrest⟩ := hpre
  have hword := (wordAt_header (BitVec.ofNat 32 msg.payload.length) msg.tag msg.payload).2.1
  have hsame : wordAt msg.frame 4 = wordAt bytes 4 := by
    have hin : ∀ i, i < 12 → (bytes ++ rest).getD i 0 = bytes.getD i 0 := by
      intro i hi
      rw [getD_eq_getElem?_getD,getD_eq_getElem?_getD,
        List.getElem?_append_left (by unfold tcpHeaderSize at hheader; omega)]
    rw [← hrest]
    simp only [wordAt,hin _ (show 4 + 3 < 12 by omega),hin _ (show 4 + 2 < 12 by omega),
      hin _ (show 4 + 1 < 12 by omega),hin _ (show 4 < 12 by omega)]
  have hlen : msg.frame.length = tcpHeaderSize+msg.payload.length := by
    simp [Msg.frame]
  rw [← Msg.frame,hsame] at hword
  rw [hword,BitVec.toNat_ofNat,Nat.mod_eq_of_lt hsize]
  omega

theorem takeFrames_pre {msgs : List Msg} (hsize : ∀ msg ∈ msgs, msg.payload.length < 2^32)
    (count : Nat) {bytes : List Byte} (hpre : bytes <+: msgs.flatMap Msg.frame) :
    takeFrames count bytes <+: msgs.map fun msg => (msg.tag,msg.payload) := by
  induction msgs generalizing count bytes with
  | nil =>
    have hnil : bytes = [] := prefix_nil.mp hpre
    rw [hnil]
    cases count <;> exact List.nil_prefix
  | cons msg msgs ih =>
    have hmsg := hsize msg mem_cons_self
    cases count with
    | zero => exact List.nil_prefix
    | succ count =>
      by_cases hlt : bytes.length < msg.frame.length
      · have hframe : bytes <+: msg.frame :=
          prefix_of_prefix_length_le hpre (prefix_append _ _) (Nat.le_of_lt hlt)
        rw [takeFrames,takeFrame_cut hmsg hframe hlt]
        exact List.nil_prefix
      · have hfront : msg.frame <+: bytes :=
          prefix_of_prefix_length_le (prefix_append _ _) hpre (Nat.le_of_not_lt hlt)
        obtain ⟨rest,hrest⟩ := hfront
        have htail : rest <+: msgs.flatMap Msg.frame := by
          rw [← hrest] at hpre
          exact (prefix_append_right_inj _).mp hpre
        rw [← hrest,takeFrames,takeFrame_frame msg hmsg rest,map_cons]
        exact (prefix_cons_inj _).mpr
          (ih (fun other hother => hsize other (mem_cons_of_mem _ hother)) count htail)

theorem takeFrames_flatMap {msgs : List Msg} (hsize : ∀ msg ∈ msgs, msg.payload.length < 2^32) :
    takeFrames msgs.length (msgs.flatMap Msg.frame) =
      msgs.map fun msg => (msg.tag,msg.payload) := by
  induction msgs with
  | nil => rfl
  | cons msg msgs ih =>
    rw [flatMap_cons,length_cons,takeFrames,takeFrame_frame msg (hsize msg mem_cons_self),map_cons]
    simp only [ih fun other hother => hsize other (mem_cons_of_mem _ hother)]

end Hqemu.Net
