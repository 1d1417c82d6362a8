import Hqemu.Lib.Locking
import Hqemu.Net.Receive
import Hqemu.Net.Send

/-! The locks that the calls of `tcp.c`, its queue thread and the sampling handlers take. -/
namespace Hqemu.Net.Locks

open List Lib.Locking

inductive Lock where
  | service | send | recv | dbo
deriving DecidableEq

/-- The arguments of a call, `null` when a pointer it asks for is missing, and what it finds where
it looks. -/
structure Input where
  sock : Sock
  tag : Tag
  buffer : List Byte
  null : Bool
  port : BitVec 32
  send : Send.State
  receive : Receive.State
  fd : BitVec 32
  threadRegistry : List (BitVec 32)

abbrev Body := Stmt Lock Input

def refused (cond : Input → Bool) : Body := .test cond .ret .skip

/-- `ret` behind `unlock`, on a test that other threads or the kernel decide. -/
def maybeDone (l : Lock) : Body := .choose (block [.unlock l, .ret]) .skip

/-- `check_status` and `drop_connection` of the calls that hold `send_lock`. -/
def checkStatus : Body := .choose (.choose (block [.unlock .send, .ret]) .halt) .skip

def tcpInitialize : Body :=
  block [.choose .halt .skip, refused fun input => input.port.msb, .lock .service,
    maybeDone .service, .io,
    maybeDone .service, .unlock .service, .ret]

def tcpFinalize : Body := block [.choose (.loop (.choose .leave .io)) .skip, .ret]

def tcpConnect : Body :=
  block [refused fun input => input.null || input.port.msb, .choose .ret .skip,
    .choose .halt .skip, .io, .choose .ret .skip, .lock .recv, .unlock .recv, .ret]

def waitSend : Body :=
  .loop (block [.choose (block [.lock .send, .unlock .send, .ret]) .skip, .io])

def waitRecv : Body :=
  .loop (block [
    .choose (block [.lock .recv, .unlock .recv, .choose .halt .skip, .ret]) .skip,
    .lock .recv,
    .choose (block [.choose (block [.unlock .recv, .again]) .skip,
      .choose (block [.unlock .recv, .again]) .skip]) .skip,
    .unlock .recv, .io])

def tcpWait : Body :=
  block [refused Input.null, .choose waitSend (.choose waitRecv .skip), .ret]

/-- `TCP_Wait` with the request and the status that a blocking call has on its stack. -/
def waitOwn : Body := block [.choose waitSend (.choose waitRecv .skip), .ret]

def refuseSend (input : Input) : Bool :=
  input.null || (Send.refuse input.sock input.tag input.buffer.length).isSome

def pending (input : Input) : Bool := (Send.searchSendq input.sock input.send.inprogress).isSome

def tcpSend : Body :=
  block [refused refuseSend, .lock .send,
    .test pending (block [.unlock .send, waitOwn]) .skip,
    .test (fun input => intMax < input.buffer.length + tcpHeaderSize) .halt .skip,
    .io, checkStatus, .unlock .send, .ret]

def tcpIsend : Body := block [refused refuseSend, .lock .send, .unlock .send, .ret]

def tcpSendList : Body :=
  block [refused refuseSend, .lock .send,
    .test pending (block [.unlock .send, waitOwn]) .skip,
    .io, checkStatus, .io, checkStatus, .unlock .send, .ret]

def tcpIsendList : Body := tcpIsend

def refuseRecv (input : Input) : Bool :=
  input.null || input.sock.msb && input.sock != anySource || input.buffer.isEmpty

def tcpIrecv : Body :=
  block [refused refuseRecv, .lock .recv, .loop (.choose .leave .skip), .unlock .recv, .ret]

def tcpRecv : Body := block [refused refuseRecv, .call tcpIrecv, .choose .ret .skip, waitOwn]

def tcpIrecvList : Body := tcpIrecv

def tcpRecvList : Body := tcpRecv

def tcpProbe : Body :=
  block [refused Input.null,
    .loop (block [.lock .recv, maybeDone .recv, maybeDone .recv, .unlock .recv, .io]), .ret]

def tcpIprobe : Body :=
  block [.choose .halt .skip, refused Input.null, .lock .recv, maybeDone .recv, maybeDone .recv,
    .unlock .recv, .ret]

/-- Not implemented: `net_error` ends the process. -/
def tcpTest : Body := .halt

def tcpCancel : Body := .halt

def tcpClose : Body :=
  block [refused fun input => input.sock.msb, .lock .recv,
    .test (fun input => decide (input.sock ∈ input.receive.polled)) .skip .ret,
    .unlock .recv, .io, .ret]

def tcpCheckConnection : Body :=
  block [.loop (.choose .leave (block [.io, .choose .ret .skip])), .lock .send, .unlock .send, .ret]

def tcpQueueFunc : Body :=
  block [.loop (block [.lock .recv, .call tcpCheckConnection, .io, .unlock .recv,
    .lock .send, .io, .unlock .send, .choose .leave .skip, .io]), .ret]

def registered (input : Input) : Bool := input.threadRegistry.contains input.fd

/-- The samples are read until the buffer is empty. -/
def readSamples : Body := block [.loop (block [.io, .choose .leave .skip]), .choose .halt .skip]

def dboDefaultHandler : Body :=
  block [.lock .dbo, .test registered .skip .ret, readSamples, .unlock .dbo, .ret]

/-- This one uses the thread's record without looking whether there is one. -/
def dboLbrDefaultHandler : Body :=
  block [.lock .dbo, .test registered .skip .halt, readSamples, .unlock .dbo, .ret]

inductive Call where
  | init | finalize | connect | close | send | recv | isend | irecv | sendList | recvList
  | isendList | irecvList | probe | iprobe | test | wait | cancel | queueFunc
  | defaultHandler | lbrDefaultHandler
deriving DecidableEq

def Call.body : Call → Body
  | .init => tcpInitialize
  | .finalize => tcpFinalize
  | .connect => tcpConnect
  | .close => tcpClose
  | .send => tcpSend
  | .recv => tcpRecv
  | .isend => tcpIsend
  | .irecv => tcpIrecv
  | .sendList => tcpSendList
  | .recvList => tcpRecvList
  | .isendList => tcpIsendList
  | .irecvList => tcpIrecvList
  | .probe => tcpProbe
  | .iprobe => tcpIprobe
  | .test => tcpTest
  | .wait => tcpWait
  | .cancel => tcpCancel
  | .queueFunc => tcpQueueFunc
  | .defaultHandler => dboDefaultHandler
  | .lbrDefaultHandler => dboLbrDefaultHandler

/-- `TCP_Close` and the handler find what they search for. -/
def Call.Known (input : Input) : Call → Prop
  | .close => input.sock.msb = false → input.sock ∈ input.receive.polled
  | .defaultHandler => registered input = true
  | _ => True

/-- A call is over, with no lock held, or has ended the process, or is in a system call. -/
def Ended (x : End × List Lock) : Prop := x = (.ret,[]) ∨ x.1 = .halt ∨ x.1 = .io

instance (x : End × List Lock) : Decidable (Ended x) := inferInstanceAs (Decidable (_ ∨ _))

theorem ended_of_opened {body : Body} {input : Input}
    (h : ∀ x ∈ outcomes () body.opened [], Ended x) : ∀ x ∈ outcomes input body [], Ended x :=
  fun x hx => h x (outcomes_subset_opened hx)

theorem ended_of_known {call : Call} {input : Input} (h : call.Known input) :
    ∀ x ∈ outcomes input call.body [], Ended x := by
  cases call with
  | close =>
    cases hsock : input.sock.msb with
    | true =>
      simp [Call.body,tcpClose,block,refused,outcomes,hsock,Ended]
    | false =>
      simp [Call.body,tcpClose,block,refused,outcomes,hsock,Ended,show _ ∈ _ from h hsock]
  | defaultHandler =>
    have hfound : outcomes input Call.defaultHandler.body [] =
        outcomes input (block [.lock .dbo, readSamples, .unlock .dbo, .ret]) [] := by
      simp [Call.body,dboDefaultHandler,block,outcomes,show registered input = true from h]
    rw [hfound]
    exact ended_of_opened (by decide +kernel)
  | _ => exact ended_of_opened (by decide +kernel)

theorem clean_of_known {call : Call} {input : Input} (h : call.Known input) :
    Clean input call.body [] := by
  intro x hx hblocked
  obtain rfl | hhalt | hio := ended_of_known h x hx
  · exact nomatch hblocked
  · exact nomatch hblocked.symm.trans hhalt
  · exact nomatch hblocked.symm.trans hio

/-- Every return of a call releases the locks it took exactly when it finds what it searches for. -/
theorem released_iff_known (call : Call) (input : Input) :
    (∀ held, Exec input call.body [] .ret held → held = []) ↔ call.Known input := by
  refine ⟨fun h => ?_,fun h held hexec => ?_⟩
  · cases call with
    | close =>
      intro hsock
      by_contra hunknown
      refine absurd (h [.recv] (exec_of_mem_outcomes ?_ (by decide))) (by decide)
      simp [Call.body,tcpClose,block,refused,outcomes,hsock,hunknown]
    | defaultHandler =>
      by_contra hunknown
      refine absurd (h [.dbo] (exec_of_mem_outcomes ?_ (by decide))) (by decide)
      simp [Call.body,dboDefaultHandler,block,outcomes,show registered input = false by
        simpa [Call.Known] using hunknown]
    | _ => trivial
  · obtain heq | hhalt | hio := ended_of_known h _ (hexec.mem_outcomes (clean_of_known h))
    · exact congrArg Prod.snd heq
    · cases hhalt
    · cases hio

/-- Calls one after the other: each begins when the one before has returned. -/
inductive Runs : List (Call × Input) → List Lock → End → List Lock → Prop
  | done {held} : Runs [] held .next held
  | returned {call calls held middle e after}
    (hcall : Exec call.2 call.1.body held .ret middle) (hrest : Runs calls middle e after) :
    Runs (call :: calls) held e after
  | ended {call calls held e after} (hcall : Exec call.2 call.1.body held e after)
    (hend : e ≠ .ret) : Runs (call :: calls) held e after

/-- Calls never wait for a lock that a returned call has left behind, and leave none themselves, if
`TCP_Close` and the handler find what they search for. -/
theorem released_of_known {calls : List (Call × Input)} {e : End} {after : List Lock}
    (hknown : ∀ call ∈ calls, call.1.Known call.2) (hrun : Runs calls [] e after) :
    e ≠ .blocked ∧ (e = .next → after = []) := by
  induction calls with
  | nil =>
    cases hrun
    exact ⟨nofun,fun _ => rfl⟩
  | cons call calls ih =>
    rw [forall_mem_cons] at hknown
    cases hrun with
    | returned hcall hrest =>
      cases (released_iff_known call.1 call.2).mpr hknown.1 _ hcall
      exact ih hknown.2 hrest
    | ended hcall hend =>
      have hclean := clean_of_known hknown.1
      have hmem := hcall.mem_outcomes hclean
      refine ⟨hclean _ hmem,fun hnext => ?_⟩
      obtain heq | hhalt | hio := ended_of_known hknown.1 _ hmem
      · exact congrArg Prod.snd heq
      · exact nomatch hnext.symm.trans hhalt
      · exact nomatch hnext.symm.trans hio

def sampleInput (socks : List Sock) : Input :=
  ⟨4,0,[],false,80,Send.init socks,Receive.init socks fun _ => [],7,[7]⟩

theorem released_of_known_close :
    Runs [(.close, sampleInput [4]), (.defaultHandler, sampleInput [4])] [] .next [] ∧
      End.next ≠ .blocked ∧ (End.next = .next → ([] : List Lock) = []) := by
  have hclose : Exec (sampleInput [4]) tcpClose [] .ret [] :=
    exec_of_mem_outcomes (by decide) nofun
  have hhandler : Exec (sampleInput [4]) dboDefaultHandler [] .ret [] :=
    exec_of_mem_outcomes (by decide) nofun
  have hrun : Runs [(.close, sampleInput [4]), (.defaultHandler, sampleInput [4])] [] .next [] :=
    .returned hclose (.returned hhandler .done)
  exact ⟨hrun,released_of_known (by simp [Call.Known,registered,sampleInput,Receive.init]) hrun⟩

/-- A socket that is not in `recv_pollfd` leaves `recv_lock` held, and the next call blocks. -/
theorem close_keeps_recv :
    Runs [(.close, sampleInput []), (.connect, sampleInput [])] [] .blocked [.recv] := by
  have hclose : Exec (sampleInput []) tcpClose [] .ret [.recv] :=
    exec_of_mem_outcomes (by decide) nofun
  refine .returned hclose (.ended ?_ nofun)
  exact .seq (.test .skip) (.seq (.no .skip) (.seq (.no .skip) (.seq .io (.seq (.no .skip)
    (.stop (.blocked (mem_singleton_self _)) nofun)))))

/-- `TCP_Send` is in a system call with `send_lock` held exactly when the model of the sending half
has its job. -/
theorem send_holds_iff_job (input : Input) (garbage : BitVec 32) (hgiven : input.null = false)
    (hfree : input.send.job = none) :
    Exec input tcpSend [] .io [.send] ↔
      (Send.tcpSend input.send input.sock input.tag input.buffer garbage).job.isSome := by
  have hwait : ∀ x ∈ outcomes input waitOwn [], x.1 ≠ .next ∧ x ≠ (.io,[.send]) := fun x hx =>
    (by decide +kernel : ∀ x ∈ outcomes () waitOwn.opened [], x.1 ≠ .next ∧ x ≠ (.io,[.send])) x
      (outcomes_subset_opened hx)
  have hclean : Clean input tcpSend [] := clean_of_known (show Call.send.Known input from trivial)
  rw [exec_iff hclean]
  unfold Send.tcpSend
  cases hrefuse : Send.refuse input.sock input.tag input.buffer.length with
  | some err =>
    simp [tcpSend,block,refused,refuseSend,outcomes,hrefuse,hfree]
  | none =>
    cases hpending : Send.searchSendq input.sock input.send.inprogress with
    | some request =>
      simp [tcpSend,block,refused,refuseSend,pending,outcomes,hgiven,hrefuse,hpending,hfree,
        Send.enqueue]
      intro e held e' held' hout hmem
      obtain ⟨hnext,hne⟩ := hwait _ hout
      rw [if_neg hnext] at hmem
      cases mem_singleton.mp hmem
      rw [if_neg hnext,mem_singleton]
      exact hne.symm
    | none =>
      by_cases hbig : intMax < input.buffer.length + tcpHeaderSize <;>
        simp [tcpSend,block,refused,refuseSend,pending,outcomes,hgiven,hrefuse,hpending,hfree,hbig,
          Send.State.halt,checkStatus]

end Hqemu.Net.Locks
