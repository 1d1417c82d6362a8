import Hqemu.Net.SendStream

/-! The stream does reach the wire, and a peer reads the messages. -/
namespace Hqemu.Net.Send

open List Lib Lib.Run

section Progress

def Action.Quiet (action : Action) : Prop :=
  action = .sendMessages ∨ ∃ count, action = .answer (.accepted count)

def Drains (state out : State) : Prop :=
  ∃ actions : List Action, (∀ action ∈ actions, action.Quiet) ∧ run step state actions = some out

variable {sock : Sock} {state middle out : State}

theorem Drains.refl (state : State) : Drains state state := ⟨[],forall_mem_nil _,rfl⟩

theorem Drains.trans (hfront : Drains state middle) (hback : Drains middle out) :
    Drains state out := by
  obtain ⟨front,hqueue,hrun⟩ := hfront
  obtain ⟨back,hquietBack,hrunBack⟩ := hback
  refine ⟨front ++ back,forall_mem_append.mpr ⟨hqueue,hquietBack⟩,?_⟩
  rw [run_append,hrun]
  exact hrunBack

theorem Drains.single {action : Action} (hqueue : action.Quiet)
    (hs : step state action = some out) : Drains state out :=
  ⟨[action],forall_mem_singleton.mpr hqueue,by simp [run,hs]⟩

theorem admits_of_quiet {action : Action} (hqueue : action.Quiet) : Admits sock state action := by
  rcases hqueue with rfl | ⟨count,rfl⟩ <;> trivial

theorem Drains.inv (hdrain : Drains state out) (hinv : Inv sock state) : Inv sock out := by
  obtain ⟨actions,hqueue,hrun⟩ := hdrain
  induction actions generalizing state with
  | nil => exact Option.some.inj hrun ▸ hinv
  | cons action rest ih =>
    obtain ⟨next,hs,hrest⟩ := Option.bind_eq_some_iff.mp hrun
    have hadmitted : Admits sock state action := admits_of_quiet (hqueue action mem_cons_self)
    exact ih (hinv.step hadmitted hs) (fun other hmem => hqueue other (mem_cons_of_mem _ hmem))
        hrest

theorem drains_accepted {job : Job} {count : Nat} (hhalt : state.halted = false)
    (hjob : state.job = some job) (hans : answerJob state (.accepted count) job = some out) :
    Drains state out := by
  apply Drains.single (.inr ⟨count,rfl⟩)
  simp [step,hhalt,hjob,hans]

theorem blockSend_all (state : State) (other : Sock) (bytes : List Byte)
    (next : State → List Byte → State) (done dropped : State → State) :
    blockSend state other bytes next done dropped (.accepted bytes.length) =
      some (done (state.put other bytes)) := by
  simp [blockSend]

structure Freed (state : State) (requests : List Request) (out : State) : Prop where
  drains : Drains state out
  job : out.job = none
  halted : out.halted = false
  log : out.log = state.log
  inprogress : out.inprogress = requests

theorem Freed.of_drains {requests : List Request} (hdrain : Drains state middle)
    (hlog : middle.log = state.log) (hfreed : Freed middle requests out) :
    Freed state requests out :=
  ⟨hdrain.trans hfreed.drains,hfreed.job,hfreed.halted,hfreed.log.trans hlog,hfreed.inprogress⟩

variable {passed behind : List Request} {request : Request}

theorem finishRequest_freed {ret : Nat} (hsound : request.Sound)
    (hret : ret = request.msg.payload.length) (hhalt : middle.halted = false)
    (hlog : middle.log = state.log)
    (hdrain : Drains state (finishRequest middle passed request behind ret)) :
    Freed state (passed ++ behind) (finishRequest middle passed request behind ret) := by
  have hsize := hsound.fits.size
  have hcomplete : request.completeSize+ret = request.requestSize := by
    rw [hsound.completeSize,hsound.requestSize,hret,Nat.zero_add]
  have heq : ¬(intMax < ret ∨ request.completeSize+ret ≠ request.requestSize) := by
    unfold Msg.payload at hret
    omega
  refine ⟨hdrain,?_,?_,?_,?_⟩ <;> simp [finishRequest,heq,State.unlock,hhalt,hlog]

theorem freed_of_payload {phase : Phase} (hinv : Inv sock state) (hhalt : state.halted = false)
    (hjob : state.job = some (.queue passed request behind phase))
    (hphase : ∀ bytes, phase ≠ .header bytes) : ∃ out, Freed state (passed ++ behind) out := by
  obtain ⟨hat,hsound⟩ := at_of_inv hinv hjob
  have hbufs := hat.sound.bufs_drop
  cases phase with
  | header bytes => exact absurd rfl (hphase bytes)
  | block bytes =>
    have hans : answerJob state (.accepted bytes.length)
        (.queue passed request behind (.block bytes)) =
        some (finishRequest (state.put request.msg.sock bytes) passed request behind
          request.msg.payload.length) := by
      simp [answerJob,queueAnswer,blockSend_all,hbufs,Msg.payload]
    have hput : (state.put request.msg.sock bytes).halted = false := hhalt
    exact ⟨_,finishRequest_freed hat.sound rfl hput rfl (drains_accepted hhalt hjob hans)⟩
  | vector idx last comp =>
    generalize hvec : Iovec.rest request.msg.bufs idx last = vec at hsound
    have hend : (Iovec.advance vec vec.flatten.length idx last).1 = request.msg.bufs.length := by
      rw [Iovec.advance_all]
      exact hvec ▸ hsound.2
    have hans : answerJob state (.accepted vec.flatten.length)
        (.queue passed request behind (.vector idx last comp)) =
        some (finishRequest (state.put request.msg.sock vec.flatten) passed request behind
          (comp+vec.flatten.length)) := by
      simp only [answerJob,queueAnswer,blockSendv,hbufs,hvec,hend,Nat.lt_irrefl,if_true,
        if_false,take_length]
    have hput : (state.put request.msg.sock vec.flatten).halted = false := hhalt
    exact ⟨_,finishRequest_freed hat.sound (hvec ▸ hsound.1) hput rfl
      (drains_accepted hhalt hjob hans)⟩

theorem beginPayload_job (hsound : request.Sound) :
    ∃ phase, (∀ bytes, phase ≠ .header bytes) ∧ beginPayload state passed request behind =
        { state with job := some (.queue passed request behind phase) } := by
  have hsize := hsound.fits.size
  have hcount := hsound.fits.count
  simp only [beginPayload,hsound.bufs_drop]
  split
  · exact ⟨.block request.msg.bufs.flatten,fun _ => by simp,if_neg (by omega)⟩
  · exact ⟨.vector 0 request.iovLenDone 0,fun _ => by simp,if_neg (by omega)⟩

theorem freed_of_queue {phase : Phase} (hinv : Inv sock state) (hhalt : state.halted = false)
    (hjob : state.job = some (.queue passed request behind phase)) :
    ∃ out, Freed state (passed ++ behind) out := by
  cases phase with
  | header bytes =>
    have hans : answerJob state (.accepted bytes.length)
        (.queue passed request behind (.header bytes)) =
        some (beginPayload (state.put request.msg.sock bytes) passed
          { request with headerRequired := 0 } behind) := by
      simp [answerJob,queueAnswer,blockSend_all]
    have hdrain := drains_accepted hhalt hjob hans
    have hsound := (at_of_inv hinv hjob).1.sound
    have hwrite : Request.Sound { request with headerRequired := 0 } :=
      ⟨hsound.fits,hsound.requestSize,hsound.completeSize,hsound.iovIdx,hsound.iovLenDone⟩
    obtain ⟨phase,hphase,hbegin⟩ := beginPayload_job hwrite
    rw [hbegin] at hdrain
    obtain ⟨out,hfreed⟩ := freed_of_payload (hdrain.inv hinv) hhalt rfl hphase
    exact ⟨out,hfreed.of_drains hdrain rfl⟩
  | block bytes | vector idx last comp =>
    exact freed_of_payload hinv hhalt hjob (fun _ => by simp)

theorem freed_of_vector {other : Sock} {vec : List (List Byte)} {comp len : Nat}
    (hhalt : state.halted = false) (hjob : state.job = some (.listVector other vec comp len))
    (hlen : comp+vec.flatten.length = len) : ∃ out, Freed state state.inprogress out := by
  have hans : answerJob state (.accepted vec.flatten.length) (.listVector other vec comp len) =
      some (state.put other vec.flatten).unlock := by
    simp only [answerJob,bvector,hlen,Nat.lt_irrefl,if_true,if_false,take_length]
  exact ⟨_,drains_accepted hhalt hjob hans,rfl,hhalt,rfl,rfl⟩

theorem freed_of_job {job : Job} (hinv : Inv sock state) (hhalt : state.halted = false)
    (hjob : state.job = some job) : ∃ requests out, Freed state requests out := by
  have hsound := hinv.job
  rw [hjob] at hsound
  cases job with
  | send other bytes =>
    have hans : answerJob state (.accepted bytes.length) (.send other bytes) =
        some (state.put other bytes).unlock := by
      simp [answerJob,blockSend_all]
    exact ⟨_,_,drains_accepted hhalt hjob hans,rfl,hhalt,rfl,rfl⟩
  | listHeader other bytes bufs =>
    have hans : answerJob state (.accepted bytes.length) (.listHeader other bytes bufs) =
        some (beginVector (state.put other bytes) other bufs) := by
      simp [answerJob,blockSend_all]
    have hsize := hsound.2.size
    have hcount := hsound.2.count
    have hdrain := drains_accepted hhalt hjob hans
    rw [beginVector,if_neg (by omega)] at hdrain
    have hheld : State.halted { state.put other bytes with
        job := some (.listVector other bufs 0 bufs.flatten.length) } = false := hhalt
    obtain ⟨out,hfreed⟩ := freed_of_vector hheld rfl (Nat.zero_add _)
    exact ⟨_,out,hfreed.of_drains hdrain rfl⟩
  | listVector other vec comp len =>
    obtain ⟨out,hfreed⟩ := freed_of_vector hhalt hjob hsound.2
    exact ⟨_,out,hfreed⟩
  | queue passed request behind phase =>
    obtain ⟨out,hfreed⟩ := freed_of_queue hinv hhalt hjob
    exact ⟨_,out,hfreed⟩

theorem freed_of_request (hinv : Inv sock state) (hhalt : state.halted = false)
    (hjob : state.job = none) (hq : state.inprogress = request :: behind) :
    ∃ out, Freed state behind out := by
  have hlist := hinv.job
  rw [hjob] at hlist
  have hsound : request.Sound := (hlist request (hq ▸ mem_cons_self)).1
  obtain ⟨phase,hbegin⟩ : ∃ phase, beginRequest state [] state.inprogress =
      { state with inprogress := [], job := some (.queue [] request behind phase) } := by
    rw [hq]
    simp only [beginRequest]
    split
    · exact ⟨_,rfl⟩
    · obtain ⟨phase,-,hpayload⟩ := beginPayload_job hsound
      exact ⟨phase,hpayload⟩
  have hdrain : Drains state
      { state with inprogress := [], job := some (.queue [] request behind phase) } := by
    apply Drains.single (.inl rfl)
    simp [step,hhalt,locked,hjob,hbegin]
  obtain ⟨out,hfreed⟩ := freed_of_queue (hdrain.inv hinv) hhalt rfl
  exact ⟨out,hfreed.of_drains hdrain rfl⟩

theorem drains_queue (requests : List Request) (hinv : Inv sock state) (hhalt : state.halted =
    false)
    (hjob : state.job = none) (hq : state.inprogress = requests) : ∃ out, Freed state [] out := by
  induction requests generalizing state with
  | nil => exact ⟨state,Drains.refl state,hjob,hhalt,rfl,hq⟩
  | cons request behind ih =>
    obtain ⟨middle,hfirst⟩ := freed_of_request hinv hhalt hjob hq
    obtain ⟨out,hrest⟩ := ih (hfirst.drains.inv hinv) hfirst.halted hfirst.job hfirst.inprogress
    exact ⟨out,hrest.of_drains hfirst.drains hfirst.log⟩

theorem drains_all (hinv : Inv sock state) (hhalt : state.halted = false) :
    ∃ out, Drains state out ∧ out.wire sock = stream sock state.log := by
  have hfreed : ∃ out, Freed state [] out := by
    cases hjob : state.job with
    | none => exact drains_queue state.inprogress hinv hhalt hjob rfl
    | some job =>
      obtain ⟨requests,middle,hfirst⟩ := freed_of_job hinv hhalt hjob
      obtain ⟨out,hrest⟩ := drains_queue requests (hfirst.drains.inv hinv) hfirst.halted
        hfirst.job hfirst.inprogress
      exact ⟨out,hrest.of_drains hfirst.drains hfirst.log⟩
  obtain ⟨out,hout⟩ := hfreed
  have hbytes := (hout.drains.inv hinv).bytes
  simp only [left,hout.job,hout.inprogress,hout.log,queued,flatMap_nil,append_nil] at hbytes
  exact ⟨out,hout.drains,hbytes⟩

end Progress

def State.requests (state : State) : List Request :=
  match state.job with
  | some (.queue passed request behind _) => passed ++ request :: behind
  | _ => state.inprogress

def Idle (sock : Sock) (state : State) : Prop :=
  (∀ request ∈ state.requests, request.msg.sock ≠ sock) ∧
    ∀ job, state.job = some job → job.sock ≠ sock

instance (sock : Sock) (state : State) : Decidable (Idle sock state) :=
  inferInstanceAs (Decidable ((∀ request ∈ state.requests, request.msg.sock ≠ sock) ∧
    ∀ job ∈ state.job, job.sock ≠ sock))

theorem left_of_idle {sock : Sock} {state : State} (hidle : Idle sock state) :
    left sock state = [] := by
  have hqueued := queued_eq_nil hidle.1
  unfold State.requests at hqueued
  cases hjob : state.job with
  | none =>
    simpa only [left,hjob] using hqueued
  | some job =>
    have hsock := hidle.2 job hjob
    cases job with
    | queue passed request behind phase =>
      simp only [hjob,queued_append,queued_cons,append_eq_nil_iff] at hqueued
      simp only [left,hjob,queued_append,hqueued,append_nil]
      exact if_neg hsock
    | _ =>
      simp only [hjob] at hqueued
      simp only [left,hjob,hqueued,append_nil]
      exact if_neg hsock

/-- The wire has a beginning of the frames of the messages in call order, all of them once every
call is carried out, which can be reached; a reader gets these messages and no others. -/
structure Framed (sock : Sock) (state : State) : Prop where
  wire : state.wire sock <+: stream sock state.log
  idle : Idle sock state → state.wire sock = stream sock state.log
  drains : state.halted = false →
    ∃ out, Drains state out ∧ out.wire sock = stream sock state.log
  reader : ∀ count, takeFrames count (state.wire sock) <+:
    (sent sock state.log).map fun msg => (msg.tag,msg.payload)
  whole : takeFrames (sent sock state.log).length (stream sock state.log) =
    (sent sock state.log).map fun msg => (msg.tag,msg.payload)

theorem Inv.framed {sock : Sock} {state : State} (hinv : Inv sock state) : Framed sock state := by
  have hpre : state.wire sock <+: stream sock state.log := ⟨left sock state,hinv.bytes⟩
  have hsizes : ∀ msg ∈ sent sock state.log, msg.payload.length < 2^32 := by
    intro msg hmem
    exact hinv.sizes msg (mem_of_mem_filter hmem)
  refine ⟨hpre,fun hidle => ?_,drains_all hinv,fun count => takeFrames_pre hsizes count hpre,
    takeFrames_flatMap hsizes⟩
  have hbytes := hinv.bytes
  rwa [left_of_idle hidle,append_nil] at hbytes

theorem inv_init (sock : Sock) (socks : List Sock) : Inv sock (init socks) :=
  ⟨forall_mem_nil _,not_mem_nil,forall_mem_nil _,rfl⟩

/-- If each step is admitted, the bytes on the socket are the frames of its messages, in call order.
-/
theorem framed_of_admitted (sock : Sock) (socks : List Sock) (actions : List Action)
    (hmeets : Meets step (Admits sock) (init socks) actions) :
    Always step (Framed sock) (init socks) actions :=
  (always_of_meets (fun _ _ _ hinv hadmitted hs => hinv.step hadmitted hs)
    (inv_init sock socks) hmeets).imp fun _ hinv => hinv.framed

/-- A message sent whole on socket 5, in two writes, before another one is queued. -/
theorem framed_of_admitted_short :
    Always step (Framed 5#32) (init [5#32])
      [.isend 5#32 1#32 [0xAA#8], .sendMessages, .answer (.accepted 5), .answer .wouldBlock,
        .answer (.accepted 7), .answer (.accepted 1), .send 5#32 2#32 [0xBB#8] 0#32] :=
  framed_of_admitted 5#32 [5#32] _
    (meets_cons rfl (by decide : 1 ≤ intMax) <| meets_cons rfl trivial <|
      meets_cons rfl trivial <| meets_cons rfl trivial <| meets_cons rfl trivial <|
      meets_cons rfl trivial <|
      meets_cons rfl ⟨by decide,fun _ _ hqueued => absurd hqueued (by decide)⟩ trivial)

/-- Two messages go out without a header, and the reader gets neither. -/
theorem queued_without_header :
    (∃ out, run step (init [5#32])
        [.isend 5#32 1#32 [0xAA#8], .send 5#32 2#32 [0xBB#8] 0#32, .sendMessages,
          .answer (.accepted 12), .answer (.accepted 1), .sendMessages, .answer (.accepted 1)] =
          some out ∧
        Idle 5#32 out ∧ ¬out.wire 5#32 <+: stream 5#32 out.log ∧
        takeFrames 2 (out.wire 5#32) = [(1#32, [0xAA#8])]) ∧
      ∃ out, run step (init [5#32])
        [.isendList 5#32 1#32 [[0xAA#8], [0xBB#8]] 0#32, .sendMessages, .answer (.accepted 2)] =
          some out ∧
        Idle 5#32 out ∧ ¬out.wire 5#32 <+: stream 5#32 out.log ∧
        takeFrames 1 (out.wire 5#32) = [] := by
  refine ⟨⟨_,rfl,?_,?_,?_⟩,_,rfl,?_,?_,?_⟩ <;> decide

end Hqemu.Net.Send
