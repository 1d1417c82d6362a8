import Hqemu.Lib.Run
import Hqemu.Net.Send

/-! What reaches the wire, what is still to be written, and what is queued. -/
namespace Hqemu.Net.Send

open List Option Lib

def sent (sock : Sock) (log : List Msg) : List Msg := log.filter fun msg => msg.sock = sock

def stream (sock : Sock) (log : List Msg) : List Byte := (sent sock log).flatMap Msg.frame

theorem sent_append (sock : Sock) (log : List Msg) (msg : Msg) :
    sent sock (log ++ [msg]) = sent sock log ++ if msg.sock = sock then [msg] else [] := by
  unfold sent
  by_cases hsock : msg.sock = sock <;> simp [hsock]

def onSock (sock other : Sock) (bytes : List Byte) : List Byte := if other = sock then bytes else []

theorem onSock_append (sock other : Sock) (front back : List Byte) :
    onSock sock other (front ++ back) = onSock sock other front ++ onSock sock other back := by
  unfold onSock
  split <;> simp

theorem onSock_split (sock other : Sock) (bytes : List Byte) (count : Nat) :
    onSock sock other (bytes.take count) ++ onSock sock other (bytes.drop count) =
      onSock sock other bytes := by
  rw [← onSock_append,take_append_drop]

theorem stream_append (sock : Sock) (log : List Msg) (msg : Msg) :
    stream sock (log ++ [msg]) = stream sock log ++ onSock sock msg.sock msg.frame := by
  unfold stream onSock
  rw [sent_append,flatMap_append]
  split <;> simp

theorem wire_put (state : State) (sock other : Sock) (bytes : List Byte) :
    (state.put other bytes).wire sock = state.wire sock ++ onSock sock other bytes := by
  unfold State.put onSock
  by_cases hsock : other = sock
  · simp [hsock]
  · simp [hsock,Function.update_of_ne (Ne.symm hsock)]

def queued (sock : Sock) (requests : List Request) : List Byte :=
  requests.flatMap fun request => onSock sock request.msg.sock request.msg.frame

theorem queued_eq_nil {sock : Sock} {requests : List Request}
    (hother : ∀ request ∈ requests, request.msg.sock ≠ sock) : queued sock requests = [] := by
  unfold queued
  rw [flatMap_eq_nil_iff]
  intro request hmem
  exact if_neg (hother request hmem)

theorem queued_append (sock : Sock) (front back : List Request) :
    queued sock (front ++ back) = queued sock front ++ queued sock back := flatMap_append

theorem queued_cons (sock : Sock) (request : Request) (requests : List Request) :
    queued sock (request :: requests) =
      onSock sock request.msg.sock request.msg.frame ++ queued sock requests := rfl

def Phase.left (request : Request) : Phase → List Byte
  | .header left => left ++ request.msg.payload
  | .block left => left
  | .vector idx last _ => (Iovec.rest request.msg.bufs idx last).flatten

def left (sock : Sock) (state : State) : List Byte :=
  match state.job with
  | none => queued sock state.inprogress
  | some (.send other left) => onSock sock other left ++ queued sock state.inprogress
  | some (.listHeader other left bufs) =>
    onSock sock other (left ++ bufs.flatten) ++ queued sock state.inprogress
  | some (.listVector other vec _ _) =>
    onSock sock other vec.flatten ++ queued sock state.inprogress
  | some (.queue passed request behind phase) =>
    onSock sock request.msg.sock (phase.left request) ++ queued sock (passed ++ behind)

structure Fits (bufs : List (List Byte)) : Prop where
  size : bufs.flatten.length ≤ intMax
  count : bufs.length ≤ maxTcpIovCount

theorem Fits.totalSize_eq {bufs : List (List Byte)} (hfit : Fits bufs) :
    totalSize bufs = bufs.flatten.length := by
  have hsize := hfit.size
  unfold intMax at hsize
  exact Nat.mod_eq_of_lt (by omega)

structure Request.Sound (request : Request) : Prop where
  fits : Fits request.msg.bufs
  requestSize : request.requestSize = request.msg.payload.length
  completeSize : request.completeSize = 0
  iovIdx : request.iovIdx = 0
  iovLenDone : request.iovLenDone = 0

def Listed (sock : Sock) (requests : List Request) : Prop :=
  ∀ request ∈ requests,
    request.Sound ∧ (request.msg.sock = sock → request.headerRequired = 1)

theorem Listed.append {sock : Sock} {front back : List Request} (hfront : Listed sock front)
    (hback : Listed sock back) : Listed sock (front ++ back) :=
  forall_mem_append.mpr ⟨hfront,hback⟩

def Phase.Sound (request : Request) : Phase → Prop
  | .header _ => True
  | .block _ => True
  | .vector idx last comp =>
    comp+(Iovec.rest request.msg.bufs idx last).flatten.length = request.msg.payload.length ∧
      idx+(Iovec.rest request.msg.bufs idx last).length = request.msg.bufs.length

def Job.Sound (sock : Sock) (state : State) : Option Job → Prop
  | none => Listed sock state.inprogress
  | some (.send _ _) => Listed sock state.inprogress
  | some (.listHeader _ _ bufs) => Listed sock state.inprogress ∧ Fits bufs
  | some (.listVector _ vec comp len) =>
    Listed sock state.inprogress ∧ comp+vec.flatten.length = len
  | some (.queue passed request behind phase) =>
    Listed sock passed ∧ request.Sound ∧ Listed sock behind ∧
      (∀ other ∈ passed, other.msg.sock ≠ sock) ∧ phase.Sound request

structure Inv (sock : Sock) (state : State) : Prop where
  sizes : ∀ msg ∈ state.log, msg.payload.length < 2^32
  dropq : sock ∉ state.dropq
  job : Job.Sound sock state state.job
  bytes : state.wire sock ++ left sock state = stream sock state.log

def Job.sock : Job → Sock
  | .send sock _ => sock
  | .listHeader sock _ _ => sock
  | .listVector sock _ _ _ => sock
  | .queue _ request _ _ => request.msg.sock

/-- Steps that keep the framing: a size fits, a request queued with an unassigned `header_required`
finds a one there, and the connection is not given up. -/
def Admits (sock : Sock) (state : State) : Action → Prop
  | .send other tag buffer garbage =>
    buffer.length+tcpHeaderSize ≤ intMax ∧
      (other = sock → refuse other tag buffer.length = none →
        (searchSendq other state.inprogress).isSome → garbage = 1)
  | .isend _ _ buffer => buffer.length ≤ intMax
  | .sendList _ _ bufs => Fits bufs
  | .isendList other tag bufs garbage =>
    Fits bufs ∧ (other = sock → refuse other tag (totalSize bufs) = none → garbage = 1)
  | .answer (.failed true) => ∀ job, state.job = some job → job.sock ≠ sock
  | .hangup other => other ≠ sock
  | _ => True

section Steps

variable {sock : Sock} {state : State}

variable {buffer : List Byte}

theorem fits_single (hsize : buffer.length ≤ intMax) : Fits [buffer] :=
  ⟨by simpa using hsize,by simp [maxTcpIovCount]⟩

variable {msg : Msg}

theorem sound_newRequest (hfit : Fits msg.bufs) (header : BitVec 32) :
    (newRequest msg msg.payload.length header).Sound :=
  ⟨hfit,rfl,rfl,rfl,rfl⟩

theorem Fits.small (hfit : Fits msg.bufs) : msg.payload.length < 2^32 := by
  have hsize := hfit.size
  unfold intMax at hsize
  unfold Msg.payload
  omega

theorem sizes_append {log : List Msg} (hsizes : ∀ other ∈ log, other.payload.length < 2^32)
    (hfit : Fits msg.bufs) : ∀ other ∈ log ++ [msg], other.payload.length < 2^32 := by
  intro other hmem
  rcases mem_append.mp hmem with hold | hnew
  · exact hsizes other hold
  · rw [mem_singleton.mp hnew]
    exact hfit.small

theorem Inv.listed (hinv : Inv sock state) (hjob : state.job = none) :
    Listed sock state.inprogress := by
  have := hinv.job
  rwa [hjob] at this

theorem Inv.enqueue (hinv : Inv sock state) (hjob : state.job = none) (hfit : Fits msg.bufs)
    {header : BitVec 32} (hheader : msg.sock = sock → header = 1) :
    Inv sock (enqueue state (newRequest msg msg.payload.length header)) := by
  have hbytes := hinv.bytes
  simp only [left,hjob] at hbytes
  refine ⟨sizes_append hinv.sizes hfit,hinv.dropq,?_,?_⟩
  · simp only [Send.enqueue,hjob,Job.Sound]
    apply (hinv.listed hjob).append
    intro request hmem
    rw [mem_singleton.mp hmem]
    exact ⟨sound_newRequest hfit header,hheader⟩
  · simp only [left,Send.enqueue,hjob,queued_append,stream_append]
    rw [← append_assoc,hbytes]
    simp [queued,newRequest]

variable {requests : List Request}

theorem queued_of_searchSendq {other : Sock} (hsource : searchSendq other requests = none)
    (bytes : List Byte) :
    queued sock requests ++ onSock sock other bytes =
      onSock sock other bytes ++ queued sock requests := by
  by_cases hsock : other = sock
  · have hnil : queued sock requests = [] := by
      apply queued_eq_nil
      intro request hmem
      have hnone := List.find?_eq_none.mp hsource request hmem
      simpa [hsock] using hnone
    rw [hnil,nil_append,append_nil]
  · simp [onSock,hsock]

variable {tag : Tag}

theorem Inv.tcpSend (hinv : Inv sock state) (hjob : state.job = none) {other : Sock}
    {garbage : BitVec 32} (hadmitted : Admits sock state (.send other tag buffer garbage)) :
    Inv sock (tcpSend state other tag buffer garbage) := by
  have hfit : Fits [buffer] := fits_single (by have := hadmitted.1; omega)
  have hpayload : Msg.payload ⟨other,tag,[buffer]⟩ = buffer := by simp [Msg.payload]
  unfold Send.tcpSend
  split
  · exact hinv
  · next hrefuse =>
    split
    · next hsource =>
      have hnew : Inv sock (Send.enqueue state (newRequest ⟨other,tag,[buffer]⟩ _ garbage)) :=
        hinv.enqueue hjob hfit (fun hsock => hadmitted.2 hsock hrefuse (by rw [hsource]; rfl))
      rwa [hpayload] at hnew
    · next hsource =>
      rw [if_neg (by have := hadmitted.1; omega)]
      refine ⟨sizes_append hinv.sizes hfit,hinv.dropq,hinv.listed hjob,?_⟩
      have hbytes := hinv.bytes
      simp only [left,hjob] at hbytes
      have hframe : Msg.frame ⟨other,tag,[buffer]⟩ =
          fillTcpHeader (BitVec.ofNat 32 buffer.length) tag ++ buffer := by
        simp [Msg.frame,Msg.payload]
      simp only [left,stream_append,hframe]
      rw [← queued_of_searchSendq hsource,← append_assoc,hbytes]

theorem Inv.tcpIsend (hinv : Inv sock state) (hjob : state.job = none) {other : Sock}
    (hadmitted : Admits sock state (.isend other tag buffer)) :
    Inv sock (tcpIsend state other tag buffer) := by
  have hpayload : Msg.payload ⟨other,tag,[buffer]⟩ = buffer := by simp [Msg.payload]
  unfold Send.tcpIsend
  split
  · exact hinv
  have hnew : Inv sock (Send.enqueue state (newRequest ⟨other,tag,[buffer]⟩ _ 1)) :=
    hinv.enqueue hjob (fits_single hadmitted) (fun _ => rfl)
  rwa [hpayload] at hnew

variable {bufs : List (List Byte)}

theorem Inv.tcpSendList (hinv : Inv sock state) (hjob : state.job = none) {other : Sock}
    (hfit : Fits bufs) : Inv sock (tcpSendList state other tag bufs) := by
  unfold Send.tcpSendList
  rw [hfit.totalSize_eq]
  split
  · exact hinv
  split
  · have hnew : Inv sock (Send.enqueue state (newRequest ⟨other,tag,bufs⟩ _ 1)) :=
      hinv.enqueue hjob hfit (fun _ => rfl)
    exact hnew
  · next hsource =>
    rw [if_neg (by have := hfit.count; omega)]
    refine ⟨sizes_append hinv.sizes hfit,hinv.dropq,⟨hinv.listed hjob,hfit⟩,?_⟩
    have hbytes := hinv.bytes
    simp only [left,hjob] at hbytes
    have hframe : Msg.frame ⟨other,tag,bufs⟩ =
        fillTcpHeader (BitVec.ofNat 32 bufs.flatten.length) tag ++ bufs.flatten := rfl
    simp only [left,stream_append,hframe]
    rw [← queued_of_searchSendq hsource,← append_assoc,hbytes]

theorem Inv.tcpIsendList (hinv : Inv sock state) (hjob : state.job = none) {other : Sock}
    {garbage : BitVec 32} (hadmitted : Admits sock state (.isendList other tag bufs garbage)) :
    Inv sock (tcpIsendList state other tag bufs garbage) := by
  have hheader := hadmitted.2
  unfold Send.tcpIsendList
  rw [hadmitted.1.totalSize_eq] at hheader ⊢
  split
  · exact hinv
  · next hrefuse =>
    have hnew : Inv sock (Send.enqueue state (newRequest ⟨other,tag,bufs⟩ _ garbage)) :=
      hinv.enqueue hjob hadmitted.1 (fun hsock => hheader hsock hrefuse)
    exact hnew

structure At (sock : Sock) (state : State) (passed : List Request) (request : Request)
    (behind : List Request) (bytes : List Byte) : Prop where
  sizes : ∀ msg ∈ state.log, msg.payload.length < 2^32
  dropq : sock ∉ state.dropq
  passedListed : Listed sock passed
  sound : request.Sound
  behindListed : Listed sock behind
  passedOther : ∀ other ∈ passed, other.msg.sock ≠ sock
  bytes : state.wire sock ++ (onSock sock request.msg.sock bytes ++ queued sock (passed ++ behind))
      =
    stream sock state.log

variable {passed behind : List Request} {request : Request}

variable {bytes : List Byte} {phase : Phase}

theorem At.inv (hat : At sock state passed request behind bytes) (hphase : phase.Sound request)
    (hleft : phase.left request = bytes) :
    Inv sock { state with job := some (.queue passed request behind phase) } := by
  refine ⟨hat.sizes,hat.dropq,⟨hat.passedListed,hat.sound,hat.behindListed,hat.passedOther,hphase⟩,
      ?_⟩
  simp only [left,hleft]
  exact hat.bytes

theorem at_of_inv (hinv : Inv sock state)
    (hjob : state.job = some (.queue passed request behind phase)) :
    At sock state passed request behind (phase.left request) ∧ phase.Sound request := by
  have hsound := hinv.job
  have hbytes := hinv.bytes
  rw [hjob] at hsound
  simp only [left,hjob] at hbytes
  exact ⟨⟨hinv.sizes,hinv.dropq,hsound.1,hsound.2.1,hsound.2.2.1,hsound.2.2.2.1,hbytes⟩,
      hsound.2.2.2.2⟩

theorem At.put (hat : At sock state passed request behind bytes) (count : Nat) :
    At sock (state.put request.msg.sock (bytes.take count)) passed request behind
      (bytes.drop count) := by
  refine ⟨hat.sizes,hat.dropq,hat.passedListed,hat.sound,hat.behindListed,hat.passedOther,?_⟩
  have hbytes := hat.bytes
  rw [← onSock_split sock _ bytes count] at hbytes
  rw [wire_put]
  change _ = stream sock state.log
  simpa only [append_assoc] using hbytes

theorem Request.Sound.bufs_drop (hsound : request.Sound) :
    request.msg.bufs.drop request.iovIdx = request.msg.bufs := by
  rw [hsound.iovIdx,drop_zero]

theorem At.beginPayload (hat : At sock state passed request behind request.msg.payload) :
    Inv sock (beginPayload state passed request behind) := by
  have hsound := hat.sound
  simp only [Send.beginPayload,hsound.bufs_drop]
  split
  · rw [if_neg (by have := hsound.fits.size; omega)]
    exact hat.inv trivial rfl
  · rw [if_neg (by have := hsound.fits.count; omega),hsound.iovLenDone]
    apply hat.inv
    · simp [Phase.Sound,Msg.payload]
    · simp [Phase.left,Msg.payload]

theorem At.beginRequest (hat : At sock state passed request behind request.msg.frame)
    (hheader : request.msg.sock = sock → request.headerRequired = 1) :
    Inv sock (beginRequest state passed (request :: behind)) := by
  simp only [Send.beginRequest]
  split
  · have hheld : At sock { state with inprogress := [] } passed request behind request.msg.frame :=
      ⟨hat.sizes,hat.dropq,hat.passedListed,hat.sound,hat.behindListed,hat.passedOther,hat.bytes⟩
    rw [hat.sound.requestSize]
    exact hheld.inv trivial rfl
  · next hno =>
    have hother : request.msg.sock ≠ sock := fun hsock => hno (hheader hsock)
    apply At.beginPayload
    refine ⟨hat.sizes,hat.dropq,hat.passedListed,hat.sound,hat.behindListed,hat.passedOther,?_⟩
    have hbytes := hat.bytes
    unfold onSock at hbytes ⊢
    rw [if_neg hother] at hbytes ⊢
    exact hbytes

theorem At.finishRequest (hat : At sock state passed request behind []) {ret : Nat}
    (hret : ret = request.msg.payload.length) :
    Inv sock (finishRequest state passed request behind ret) := by
  have hsize := hat.sound.fits.size
  have hcomplete : request.completeSize+ret = request.requestSize := by
    rw [hat.sound.completeSize,hat.sound.requestSize,hret,Nat.zero_add]
  unfold Send.finishRequest
  rw [if_neg (by unfold Msg.payload at hret; omega)]
  refine ⟨hat.sizes,hat.dropq,hat.passedListed.append hat.behindListed,?_⟩
  have hbytes := hat.bytes
  simpa [left,State.unlock,onSock] using hbytes

theorem inv_beginRequest (hsizes : ∀ msg ∈ state.log, msg.payload.length < 2^32)
    (hdropq : sock ∉ state.dropq) (hpassed : Listed sock passed)
    (hother : ∀ other ∈ passed, other.msg.sock ≠ sock) (hlist : Listed sock requests)
    (hbytes : state.wire sock ++ queued sock requests = stream sock state.log) :
    Inv sock (beginRequest state passed requests) := by
  have hnil := queued_eq_nil hother
  cases requests with
  | nil =>
    refine ⟨hsizes,hdropq,hpassed,?_⟩
    simp only [left,Send.beginRequest,State.unlock,hnil]
    exact hbytes
  | cons request behind =>
    have hhead := hlist request mem_cons_self
    apply At.beginRequest _ hhead.2
    refine ⟨hsizes,hdropq,hpassed,hhead.1,
      fun other hmem => hlist other (mem_cons_of_mem _ hmem),hother,?_⟩
    rw [queued_append,hnil,nil_append]
    exact hbytes

theorem At.skipRequest (hat : At sock state passed request behind bytes)
    (hheader : request.msg.sock ≠ sock) : Inv sock (skipRequest state passed request behind) := by
  have hbytes := hat.bytes
  rw [queued_append,queued_eq_nil hat.passedOther] at hbytes
  simp only [onSock,if_neg hheader,nil_append] at hbytes
  apply inv_beginRequest
  · exact hat.sizes
  · simp only [tcpDropConnection,mem_append,mem_singleton,not_or]
    exact ⟨hat.dropq,Ne.symm hheader⟩
  · apply hat.passedListed.append
    intro other hmem
    rw [mem_singleton.mp hmem]
    exact ⟨hat.sound,fun hsock => absurd hsock hheader⟩
  · intro other hmem
    rcases mem_append.mp hmem with hold | hnew
    · exact hat.passedOther other hold
    · rw [mem_singleton.mp hnew]
      exact hheader
  · exact hat.behindListed
  · exact hbytes

theorem Inv.halt (hinv : Inv sock state) : Inv sock state.halt :=
  ⟨hinv.sizes,hinv.dropq,hinv.job,hinv.bytes⟩

theorem Inv.checkStatus (hinv : Inv sock state) {hup : Bool} {dropped : State}
    (hdrop : hup = true → Inv sock dropped) : Inv sock (checkStatus state hup dropped) := by
  unfold Send.checkStatus
  split
  · next hhup => exact hdrop hhup
  · exact hinv.halt

variable {answer : Answer} {out : State}

theorem Inv.blockSend (hinv : Inv sock state) {other : Sock} {next : State → List Byte → State}
    {done dropped : State → State} (hnext : ∀ count, count ≤ bytes.length →
      Inv sock (next (state.put other (bytes.take count)) (bytes.drop count)))
    (hdone : ∀ count, count ≤ bytes.length → bytes.drop count = [] →
      Inv sock (done (state.put other (bytes.take count))))
    (hdrop : answer = .failed true → Inv sock (dropped state))
    (hout : blockSend state other bytes next done dropped answer = some out) : Inv sock out := by
  cases answer with
  | accepted count =>
    simp only [Send.blockSend] at hout
    split at hout
    · exact absurd hout (by simp)
    · next hcount =>
      rw [← some.inj hout]
      split
      · next hnil => exact hdone count (Nat.le_of_not_lt hcount) hnil
      · exact hnext count (Nat.le_of_not_lt hcount)
  | wouldBlock | interrupted => exact some.inj hout ▸ hinv
  | failed hup =>
    rw [← some.inj hout]
    exact hinv.checkStatus fun hhup => hdrop (by rw [hhup])

theorem At.blockSendv {idx last comp count : Nat}
    (hat : At sock state passed request behind (Phase.left request (.vector idx last comp)))
    (hphase : Phase.Sound request (.vector idx last comp))
    (hout : blockSendv state passed request behind idx last comp count = some out) :
    Inv sock out := by
  simp only [Send.blockSendv,hat.sound.bufs_drop] at hout
  split at hout
  · exact absurd hout (by simp)
  · next hcount =>
    rw [← some.inj hout]
    have hput := hat.put count
    simp only [Phase.left] at hput
    generalize hvec : Iovec.rest request.msg.bufs idx last = vec at hput hcount ⊢
    have hcomplete := hvec ▸ hphase.1
    have hrest := Iovec.flatten_rest_advance count hvec
    have hlength := Iovec.advance_add_length count hvec (hvec ▸ hphase.2)
    generalize Iovec.advance vec count idx last = cursor at hrest hlength ⊢
    have hsum : comp+count+(Iovec.rest request.msg.bufs cursor.1 cursor.2).flatten.length =
        request.msg.payload.length := by
      rw [hrest,length_drop]
      omega
    rw [← hrest] at hput
    split
    · next hend =>
      have hnil : Iovec.rest request.msg.bufs cursor.1 cursor.2 = [] := by
        apply length_eq_zero_iff.mp
        omega
      simp only [hnil,flatten_nil,length_nil,Nat.add_zero] at hput hsum
      exact hput.finishRequest hsum
    · exact hput.inv ⟨hsum,hlength⟩ rfl

theorem Inv.queueAnswer (hinv : Inv sock state)
    (hjob : state.job = some (.queue passed request behind phase))
    (hup : answer = .failed true → request.msg.sock ≠ sock)
    (hout : queueAnswer state passed request behind answer phase = some out) : Inv sock out := by
  obtain ⟨hat,hphase⟩ := at_of_inv hinv hjob
  have hbufs := hat.sound.bufs_drop
  cases phase with
  | header bytes =>
    have hput : ∀ count, count ≤ bytes.length →
        At sock (state.put request.msg.sock (bytes.take count)) passed request behind
          (bytes.drop count ++ request.msg.payload) := by
      intro count hcount
      have := hat.put count
      simp only [Phase.left] at this
      rwa [take_append_of_le_length hcount,drop_append_of_le_length hcount] at this
    simp only [Send.queueAnswer] at hout
    apply Inv.blockSend hinv _ _ (fun hfail => hat.skipRequest (hup hfail)) hout
    · intro count hcount
      exact (hput count hcount).inv trivial rfl
    · intro count hcount hnil
      apply At.beginPayload
      have hdone := hput count hcount
      rw [hnil,nil_append] at hdone
      exact ⟨hdone.sizes,hdone.dropq,hdone.passedListed,
        ⟨hat.sound.fits,hat.sound.requestSize,hat.sound.completeSize,hat.sound.iovIdx,
          hat.sound.iovLenDone⟩,hdone.behindListed,hdone.passedOther,hdone.bytes⟩
  | block bytes =>
    simp only [Send.queueAnswer] at hout
    apply Inv.blockSend hinv _ _ (fun hfail => hat.skipRequest (hup hfail)) hout
    · intro count _
      have hput := hat.put count
      exact hput.inv trivial rfl
    · intro count _ hnil
      rw [hbufs]
      apply At.finishRequest _ rfl
      exact hnil ▸ hat.put count
  | vector idx last comp =>
    have hvector : ∀ count, blockSendv state passed request behind idx last comp count = some out →
        Inv sock out := fun count hsendv => hat.blockSendv hphase hsendv
    cases answer with
    | accepted count => exact hvector count hout
    | wouldBlock => exact hvector 0 hout
    | interrupted => exact some.inj hout ▸ hinv
    | failed isHup =>
      rw [← some.inj hout]
      exact hinv.checkStatus fun hhup => hat.skipRequest (hup (by rw [hhup]))

structure Direct (sock : Sock) (state : State) (other : Sock) (bytes : List Byte) : Prop where
  sizes : ∀ msg ∈ state.log, msg.payload.length < 2^32
  dropq : sock ∉ state.dropq
  listed : Listed sock state.inprogress
  bytes : state.wire sock ++ (onSock sock other bytes ++ queued sock state.inprogress) =
    stream sock state.log

variable {other : Sock}

theorem Direct.put (hdir : Direct sock state other bytes) (count : Nat) :
    Direct sock (state.put other (bytes.take count)) other (bytes.drop count) := by
  refine ⟨hdir.sizes,hdir.dropq,hdir.listed,?_⟩
  have hbytes := hdir.bytes
  rw [← onSock_split sock _ bytes count] at hbytes
  rw [wire_put]
  change _ ++ (_ ++ queued sock state.inprogress) = stream sock state.log
  simpa only [append_assoc] using hbytes

theorem Direct.unlock (hdir : Direct sock state other []) : Inv sock state.unlock := by
  refine ⟨hdir.sizes,hdir.dropq,hdir.listed,?_⟩
  have hbytes := hdir.bytes
  simpa [left,State.unlock,onSock] using hbytes

theorem Direct.drop (hdir : Direct sock state other bytes) (hother : other ≠ sock) :
    Inv sock (tcpDropConnection state other).unlock := by
  refine ⟨hdir.sizes,?_,hdir.listed,?_⟩
  · simp only [tcpDropConnection,State.unlock,mem_append,mem_singleton,not_or]
    exact ⟨hdir.dropq,Ne.symm hother⟩
  · have hbytes := hdir.bytes
    simpa [left,State.unlock,tcpDropConnection,onSock,hother] using hbytes

theorem Direct.beginVector (hdir : Direct sock state other bufs.flatten) (hfit : Fits bufs) :
    Inv sock (beginVector state other bufs) := by
  have hsize := hfit.size
  have hcount := hfit.count
  unfold Send.beginVector
  rw [if_neg (by omega)]
  exact ⟨hdir.sizes,hdir.dropq,⟨hdir.listed,Nat.zero_add _⟩,hdir.bytes⟩

theorem Direct.bvector {vec : List (List Byte)} {comp len : Nat} (hinv : Inv sock state)
    (hdir : Direct sock state other vec.flatten) (hlen : comp+vec.flatten.length = len)
    (hup : answer = .failed true → other ≠ sock)
    (hout : bvector state other vec comp len answer = some out) : Inv sock out := by
  cases answer with
  | accepted count =>
    simp only [Send.bvector] at hout
    split at hout
    · exact absurd hout (by simp)
    · next hcount =>
      rw [← some.inj hout]
      have hput := hdir.put count
      rw [← Iovec.flatten_skip] at hput
      have hskip : comp+count+(Iovec.skip vec count).flatten.length = len := by
        rw [Iovec.flatten_skip,length_drop]
        omega
      split
      · next hend =>
        have hnil : (Iovec.skip vec count).flatten = [] := by
          apply length_eq_zero_iff.mp
          omega
        rw [hnil] at hput
        exact hput.unlock
      · exact ⟨hput.sizes,hput.dropq,⟨hput.listed,hskip⟩,hput.bytes⟩
  | wouldBlock => exact absurd hout (by simp [Send.bvector])
  | interrupted => exact some.inj hout ▸ hinv
  | failed isHup =>
    rw [← some.inj hout]
    exact hinv.checkStatus fun hhup => hdir.drop (hup (by rw [hhup]))

theorem Inv.answerJob (hinv : Inv sock state) {job : Job} (hjob : state.job = some job)
    (hadmitted : Admits sock state (.answer answer)) (hout : answerJob state answer job = some out)
        :
    Inv sock out := by
  have hup : answer = .failed true → job.sock ≠ sock := by
    intro hfail
    rw [hfail] at hadmitted
    exact hadmitted job hjob
  have hsound := hinv.job
  have hbytes := hinv.bytes
  rw [hjob] at hsound
  cases job with
  | send other bytes =>
    simp only [left,hjob] at hbytes
    have hdir : Direct sock state other bytes := ⟨hinv.sizes,hinv.dropq,hsound,hbytes⟩
    simp only [Send.answerJob] at hout
    apply Inv.blockSend hinv _ _ (fun hfail => hdir.drop (hup hfail)) hout
    · intro count _
      have hput := hdir.put count
      exact ⟨hput.sizes,hput.dropq,hput.listed,hput.bytes⟩
    · intro count _ hnil
      exact Direct.unlock (hnil ▸ hdir.put count)
  | listHeader other bytes bufs =>
    simp only [left,hjob] at hbytes
    have hdir : Direct sock state other (bytes ++ bufs.flatten) :=
      ⟨hinv.sizes,hinv.dropq,hsound.1,hbytes⟩
    have hput : ∀ count, count ≤ bytes.length →
        Direct sock (state.put other (bytes.take count)) other (bytes.drop count ++ bufs.flatten) :=
            by
      intro count hcount
      have := hdir.put count
      rwa [take_append_of_le_length hcount,drop_append_of_le_length hcount] at this
    simp only [Send.answerJob] at hout
    apply Inv.blockSend hinv _ _ (fun hfail => hdir.drop (hup hfail)) hout
    · intro count hcount
      have hleft := hput count hcount
      exact ⟨hleft.sizes,hleft.dropq,⟨hleft.listed,hsound.2⟩,hleft.bytes⟩
    · intro count hcount hnil
      have hdone := hput count hcount
      rw [hnil,nil_append] at hdone
      exact hdone.beginVector hsound.2
  | listVector other vec comp len =>
    simp only [left,hjob] at hbytes
    have hdir : Direct sock state other vec.flatten := ⟨hinv.sizes,hinv.dropq,hsound.1,hbytes⟩
    exact hdir.bvector hinv hsound.2 hup hout
  | queue passed request behind phase => exact hinv.queueAnswer hjob hup hout

theorem queued_filter (hother : other ≠ sock) :
    queued sock (requests.filter fun request => request.msg.sock ≠ other) = queued sock requests :=
        by
  induction requests with
  | nil => rfl
  | cons request requests ih =>
    rw [filter_cons]
    split
    · rw [queued_cons,queued_cons,ih]
    · next hskip =>
      have hsock : request.msg.sock = other := by simpa using hskip
      have hnil : onSock sock request.msg.sock request.msg.frame = [] := by
        rw [onSock,if_neg (hsock ▸ hother)]
      rw [ih,queued_cons,hnil,nil_append]

theorem Inv.tcpDrainConnection {socks : List Sock} (hinv : Inv sock state) (hjob : state.job = none)
    (hsocks : sock ∉ socks) : Inv sock (tcpDrainConnection state socks) := by
  induction socks generalizing state with
  | nil => exact ⟨hinv.sizes,not_mem_nil,hinv.job,hinv.bytes⟩
  | cons first socks ih =>
    have hfirst : first ≠ sock := fun heq => hsocks (heq ▸ mem_cons_self)
    have hrest : sock ∉ socks := fun hmem => hsocks (mem_cons_of_mem _ hmem)
    unfold Send.tcpDrainConnection
    split
    · have hsound := hinv.job
      have hbytes := hinv.bytes
      simp only [left,hjob] at hsound hbytes
      refine ih ?_ hjob hrest
      refine ⟨hinv.sizes,hinv.dropq,?_,?_⟩
      · simp only [hjob]
        intro request hmem
        exact hsound request (mem_of_mem_filter hmem)
      · simp only [left,hjob]
        rw [queued_filter hfirst]
        exact hbytes
    · exact ⟨hinv.sizes,hrest,hinv.job,hinv.bytes⟩

theorem job_of_locked {next : State} (hout : locked state next = some out) :
    state.job = none ∧ next = out := by
  unfold locked at hout
  split at hout
  · exact absurd hout (by simp)
  · next hnone => exact ⟨by simpa using hnone,some.inj hout⟩

theorem Inv.step (hinv : Inv sock state) {action : Action} (hadmitted : Admits sock state action)
    (hout : step state action = some out) : Inv sock out := by
  unfold Send.step at hout
  split at hout
  · exact absurd hout (by simp)
  cases action with
  | send other tag buffer garbage =>
    obtain ⟨hjob,hnext⟩ := job_of_locked hout
    exact hnext ▸ hinv.tcpSend hjob hadmitted
  | isend other tag buffer =>
    obtain ⟨hjob,hnext⟩ := job_of_locked hout
    exact hnext ▸ hinv.tcpIsend hjob hadmitted
  | sendList other tag bufs =>
    obtain ⟨hjob,hnext⟩ := job_of_locked hout
    exact hnext ▸ hinv.tcpSendList hjob hadmitted
  | isendList other tag bufs garbage =>
    obtain ⟨hjob,hnext⟩ := job_of_locked hout
    exact hnext ▸ hinv.tcpIsendList hjob hadmitted
  | sendMessages =>
    obtain ⟨hjob,hnext⟩ := job_of_locked hout
    have hsound := hinv.job
    have hbytes := hinv.bytes
    simp only [left,hjob] at hsound hbytes
    have hnone : Listed sock [] := forall_mem_nil _
    exact hnext ▸ inv_beginRequest hinv.sizes hinv.dropq hnone (forall_mem_nil _) hsound hbytes
  | answer answer =>
    obtain ⟨job,hjob,hans⟩ := bind_eq_some_iff.mp hout
    exact hinv.answerJob hjob hadmitted hans
  | wait place =>
    obtain ⟨hjob,hnext⟩ := job_of_locked hout
    exact hnext ▸ ⟨hinv.sizes,hinv.dropq,hinv.job,hinv.bytes⟩
  | hangup other =>
    rw [← some.inj hout]
    refine ⟨hinv.sizes,?_,hinv.job,hinv.bytes⟩
    simp only [tcpDropConnection,mem_append,mem_singleton,not_or]
    exact ⟨hinv.dropq,Ne.symm hadmitted⟩
  | drain =>
    obtain ⟨hjob,hnext⟩ := job_of_locked hout
    exact hnext ▸ hinv.tcpDrainConnection hjob hinv.dropq

end Steps

end Hqemu.Net.Send
