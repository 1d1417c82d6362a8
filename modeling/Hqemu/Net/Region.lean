import Hqemu.Net.CfgCodec
import Hqemu.Net.Frame

/-! Regions on their way from the server to a client: what `SendTraceEmitted` writes behind a
`TracePackHeader`, and what `RecvTrace` reads. -/
namespace Hqemu.Net.Region

open List Lib.Codec Net.Cfg

/-- Sizes of the build: `target_ulong`, `tcg_target_ulong`, and the bytes of the headers that no
field covers. -/
structure Abi where
  guest : Nat
  host : Nat
  packPad : Nat
  ackPad : Nat
deriving DecidableEq

abbrev GuestAddr (abi : Abi) := BitVec (8*abi.guest)
abbrev HostWord (abi : Abi) := BitVec (8*abi.host)
abbrev CodeKey (abi : Abi) := GuestAddr abi × GuestAddr abi

/-- An exit to other code as the message has it. `toTrace` says that the client has a region for
`pc`; the links are numbers of the blocks that branch to it. -/
structure Exec (abi : Abi) where
  toTrace : BitVec 32
  off : BitVec 32
  nextOff : BitVec 32
  jmpOff : BitVec 32
  key : HostWord abi
  pc : GuestAddr abi
  links : List (BitVec 32)
deriving DecidableEq

structure Profile where
  numLoop : BitVec 32
  numBlock : BitVec 32
  numExit : BitVec 32
  numIndirectBranch : BitVec 32
  guestSize : BitVec 16
deriving DecidableEq

structure Ack (abi : Abi) where
  traceId : BitVec 32
  guestICount : BitVec 32
  codeSize : BitVec 32
  constPoolSize : BitVec 32
  maxKey : HostWord abi
  realCode : List Byte
  toExit : List (BitVec 32)
  execs : List (Exec abi)
  constPool : List (BitVec 32 × BitVec 32)
  profile : Option Profile
deriving DecidableEq

structure Pack (abi : Abi) where
  traceKey : BitVec 64
  acks : List (Ack abi)
deriving DecidableEq

section Encode

variable {abi : Abi}

/-- Bytes of `Buf` that no field covers keep what the last message left there. -/
def padding (buf : List Byte) (pos count : Nat) : List Byte :=
  (List.range count).map fun i => buf.getD (pos+i) 0

def encodeExec (exec : Exec abi) : List Byte :=
  encodeWord 4 exec.toTrace ++ encodeWord 4 exec.off ++ encodeWord 4 exec.nextOff ++
    encodeWord 4 exec.jmpOff ++ encodeWord abi.host exec.key ++ encodeWord abi.guest exec.pc ++
    encodeWord 4 (BitVec.ofNat 32 exec.links.length) ++ exec.links.flatMap (encodeWord 4)

def encodeProfile (profile : Profile) : List Byte :=
  encodeWord 4 profile.numLoop ++ encodeWord 4 profile.numBlock ++
    encodeWord 4 profile.numExit ++ encodeWord 4 profile.numIndirectBranch ++
    encodeWord 2 profile.guestSize

def encodeBody (pad : List Byte) (ack : Ack abi) : List Byte :=
  encodeWord 4 ack.traceId ++ encodeWord 4 ack.guestICount ++ encodeWord 4 ack.codeSize ++
    encodeWord 4 (BitVec.ofNat 32 ack.toExit.length) ++
    encodeWord 4 (BitVec.ofNat 32 ack.execs.length) ++
    encodeWord 4 (BitVec.ofNat 32 ack.constPool.length) ++ encodeWord 4 ack.constPoolSize ++
    pad ++ encodeWord abi.host ack.maxKey ++ ack.realCode ++
    ack.toExit.flatMap (encodeWord 4) ++ ack.execs.flatMap encodeExec ++
    ack.constPool.flatMap fun entry => encodeWord 4 entry.1 ++ encodeWord 4 entry.2

def encodeAck (pad : List Byte) (ack : Ack abi) : List Byte :=
  encodeBody pad ack ++ (ack.profile.map encodeProfile).getD []

def encodeAcks (buf : List Byte) : Nat → List (Ack abi) → List Byte
  | _, [] => []
  | pos, ack :: acks =>
    let bytes := encodeAck (padding buf (pos+28) abi.ackPad) ack
    bytes ++ encodeAcks buf (pos+bytes.length) acks

def packHeaderSize (abi : Abi) : Nat := 12+abi.packPad

def encodePack (buf : List Byte) (pack : Pack abi) : List Byte :=
  encodeWord 8 pack.traceKey ++ encodeWord 4 (BitVec.ofNat 32 pack.acks.length) ++
    padding buf 12 abi.packPad ++ encodeAcks buf (packHeaderSize abi) pack.acks

end Encode

section Decode

variable (abi : Abi)

def decodeExec : Decoder (Exec abi) := do
  let toTrace ← decodeWord 32 4
  let off ← decodeWord 32 4
  let nextOff ← decodeWord 32 4
  let jmpOff ← decodeWord 32 4
  let key ← decodeWord (8*abi.host) abi.host
  let pc ← decodeWord (8*abi.guest) abi.guest
  let numLink ← decodeWord 32 4
  let links ← decodeMany (decodeWord 32 4) (loops numLink)
  return ⟨toTrace,off,nextOff,jmpOff,key,pc,links⟩

def decodeProfile : Decoder Profile := do
  let numLoop ← decodeWord 32 4
  let numBlock ← decodeWord 32 4
  let numExit ← decodeWord 32 4
  let numIndirectBranch ← decodeWord 32 4
  let guestSize ← decodeWord 16 2
  return ⟨numLoop,numBlock,numExit,numIndirectBranch,guestSize⟩

def decodePool : Decoder (BitVec 32 × BitVec 32) := do
  let off ← decodeWord 32 4
  let constPoolOff ← decodeWord 32 4
  return (off,constPoolOff)

def decodeBody : Decoder (Ack abi) := do
  let traceId ← decodeWord 32 4
  let guestICount ← decodeWord 32 4
  let codeSize ← decodeWord 32 4
  let numExit ← decodeWord 32 4
  let numExec ← decodeWord 32 4
  let numConstPool ← decodeWord 32 4
  let constPoolSize ← decodeWord 32 4
  let _ ← takeBytes abi.ackPad
  let maxKey ← decodeWord (8*abi.host) abi.host
  let realCode ← takeBytes (codeSize+constPoolSize).toNat
  let toExit ← decodeMany (decodeWord 32 4) (loops numExit)
  let execs ← decodeMany (decodeExec abi) (loops numExec)
  let constPool ← decodeMany decodePool (loops numConstPool)
  return ⟨traceId,guestICount,codeSize,constPoolSize,maxKey,realCode,toExit,execs,
    constPool,none⟩

/-- `basic` says whether the client's own profile mode has `PROFILE_BASIC`. -/
def decodeAck (basic : Bool) : Decoder (Ack abi) := do
  let ack ← decodeBody abi
  if basic then
    let profile ← decodeProfile
    return { ack with profile := some profile }
  else return ack

/-- The loop over `TraceIdx`: only the first region comes with a profile. -/
def decodeAcks (basic : Bool) : Nat → Decoder (List (Ack abi))
  | 0 => pure []
  | count+1 => do
      let ack ← decodeAck abi basic
      let acks ← decodeMany (decodeAck abi false) count
      return ack :: acks

def decodePack (basic : Bool) : Decoder (Pack abi) := do
  let traceKey ← decodeWord 64 8
  let numTrace ← decodeWord 32 4
  let _ ← takeBytes abi.packPad
  let acks ← decodeAcks abi basic (loops numTrace)
  return ⟨traceKey,acks⟩

end Decode

structure Ack.Fits {abi : Abi} (ack : Ack abi) : Prop where
  code : ack.realCode.length = (ack.codeSize+ack.constPoolSize).toNat
  toExit : ack.toExit.length < 2^31
  execs : ack.execs.length < 2^31
  links : ∀ exec ∈ ack.execs, exec.links.length < 2^31
  constPool : ack.constPool.length < 2^31

section RoundTrip

variable {abi : Abi}

@[simp] theorem length_padding (buf : List Byte) (pos count : Nat) :
    (padding buf pos count).length = count := by
  simp [padding]

theorem reads_exec {exec : Exec abi} (hlinks : exec.links.length < 2^31) :
    Reads (decodeExec abi) (encodeExec exec) exec := by
  simp (disch := omega) only [decodeExec,encodeExec,append_assoc,reads_word_bind,loops_ofNat hlinks]
  exact (reads_words _ (by omega)).map _

theorem reads_profile (profile : Profile) :
    Reads decodeProfile (encodeProfile profile) profile := by
  simp (disch := omega) only [decodeProfile,encodeProfile,append_assoc,reads_word_bind]
  exact (reads_word _ (by omega)).map _

theorem reads_pool (entry : BitVec 32 × BitVec 32) :
    Reads decodePool (encodeWord 4 entry.1 ++ encodeWord 4 entry.2) entry :=
  (reads_word _ (by omega)).bind ((reads_word _ (by omega)).map _)

theorem reads_body {ack : Ack abi} (hfit : ack.Fits) {pad : List Byte}
    (hpad : pad.length = abi.ackPad) :
    Reads (decodeBody abi) (encodeBody pad ack) { ack with profile := none } := by
  simp (disch := omega) only [decodeBody,encodeBody,append_assoc,reads_word_bind]
  refine (hpad ▸ reads_takeBytes pad).bind ?_
  refine (reads_word _ (by omega)).bind ?_
  refine (hfit.code ▸ reads_takeBytes ack.realCode).bind ?_
  simp only [loops_ofNat hfit.toExit,loops_ofNat hfit.execs,loops_ofNat hfit.constPool]
  refine (reads_words _ (by omega)).bind ?_
  have hexecs := reads_many fun exec hexec => reads_exec (hfit.links exec hexec)
  have hpool := reads_many fun entry (_ : entry ∈ ack.constPool) => reads_pool entry
  rw [List.map_id'] at hexecs hpool
  exact hexecs.bind (hpool.map _)

theorem reads_ack {ack : Ack abi} (hfit : ack.Fits) {pad : List Byte}
    (hpad : pad.length = abi.ackPad) :
    Reads (decodeAck abi ack.profile.isSome) (encodeAck pad ack) ack := by
  have hbody := reads_body hfit hpad
  cases ack with
  | mk traceId guestICount codeSize constPoolSize maxKey realCode toExit execs constPool profile =>
    cases profile with
    | none => exact hbody.bind (Reads.pure _)
    | some profile => exact hbody.bind ((reads_profile profile).map _)

/-- What `SendTraceEmitted` sends: the first region has a profile in basic mode, the others
never. -/
structure Pack.Fits (basic : Bool) (pack : Pack abi) : Prop where
  count : pack.acks.length < 2^31
  acks : ∀ ack ∈ pack.acks, ack.Fits
  first : ∀ ack ∈ pack.acks.head?, ack.profile.isSome = basic
  rest : ∀ ack ∈ pack.acks.tail, ack.profile = none

theorem reads_acks_rest {acks : List (Ack abi)} (hfit : ∀ ack ∈ acks, ack.Fits)
    (hrest : ∀ ack ∈ acks, ack.profile = none) (buf : List Byte) (pos : Nat) :
    Reads (decodeMany (decodeAck abi false) acks.length) (encodeAcks buf pos acks) acks := by
  induction acks generalizing pos with
  | nil => exact Reads.pure []
  | cons ack acks ih =>
    have hack := reads_ack (hfit ack mem_cons_self) (length_padding buf (pos+28) abi.ackPad)
    rw [hrest ack mem_cons_self] at hack
    refine hack.bind ?_
    exact (ih (fun ack hack => hfit ack (mem_cons_of_mem _ hack))
      (fun ack hack => hrest ack (mem_cons_of_mem _ hack)) _).map _

theorem reads_pack {basic : Bool} {pack : Pack abi} (hfit : pack.Fits basic) (buf : List Byte) :
    Reads (decodePack abi basic) (encodePack buf pack) pack := by
  refine (reads_word _ (by omega)).bind ?_
  refine (reads_word _ (by omega)).bind ?_
  have hpad := reads_takeBytes (padding buf 12 abi.packPad)
  rw [length_padding] at hpad
  refine hpad.bind ?_
  rw [loops_ofNat hfit.count]
  refine Reads.map ?_ _
  cases hacks : pack.acks with
  | nil => exact Reads.pure []
  | cons ack acks =>
    have hmem : ∀ other ∈ ack :: acks, other.Fits := hacks ▸ hfit.acks
    have hack := reads_ack (hmem ack mem_cons_self)
      (length_padding buf (packHeaderSize abi + 28) abi.ackPad)
    rw [hfit.first ack (by rw [hacks]; rfl)] at hack
    refine hack.bind ?_
    exact (reads_acks_rest (fun other hother => hmem other (mem_cons_of_mem _ hother))
      (fun other hother => hfit.rest other (by rw [hacks]; exact hother)) buf _).map _

end RoundTrip

end Hqemu.Net.Region
