import Hqemu.Net.RemoteRegions
import Hqemu.Net.TraceClient

/-! Flushes against regions under way. A client is not told that a region was asked for before a
flush, and `NetCodeRegions` outlives the code it points to. -/
namespace Hqemu.Net.Client

open Function List Option Lib.Run Net.Region Net.Server

section Property

variable {abi : Abi}

def Effect.Fresh (flushCount : Nat) : Effect abi → Prop
  | .install info _ => info.sent = flushCount
  | .patch _ (.region installed) => installed.received = flushCount
  | .patch _ (.stub _) => True

def Peer.effects (peer : Peer abi) : List (Effect abi) :=
  ((peer.downlink.head?.bind peer.client.receive).map Prod.snd).getD []

/-- A message the client takes makes it install and patch nothing older than its last flush. -/
def Fresh (ticket : Ticket) (system : System abi) (action : Action abi) : Prop :=
  action = .receive ticket → ∀ peer, system.peers ticket = some peer →
    ∀ effect ∈ peer.effects, effect.Fresh peer.client.flushCount

def Call.isFlush : Call abi → Bool
  | .trace _ => false
  | .flush => true

def Answer.isFlushed : Answer abi → Bool
  | .region _ => false
  | .flushed => true

def Peer.Idle (peer : Peer abi) : Prop :=
  peer.uplink.all Call.isFlush ∧ peer.downlink.all Answer.isFlushed

/-- No exit of the region leads to its own head while an old region stands for that. -/
def SelfExitFree (client : ClientInfo abi) : Answer abi → Prop
  | .region pack => ∀ info ∈ client.traces pack.traceKey, ∀ ack ∈ pack.acks,
      ∀ exec ∈ ack.execs, exec.pc = info.pc →
        ∀ installed ∈ client.netCodeRegions info.key, installed.received = client.flushCount
  | .flushed => True

/-- The client flushes when nothing is under way. -/
def Quiet (ticket : Ticket) (system : System abi) : Action abi → Prop
  | .flush other => other = ticket → ∀ peer ∈ system.peers ticket, peer.Idle
  | .receive other => other = ticket → ∀ peer ∈ system.peers ticket,
      ∀ answer ∈ peer.downlink.head?, SelfExitFree peer.client answer
  | _ => True

instance (peer : Peer abi) : Decidable peer.Idle :=
  inferInstanceAs (Decidable (peer.uplink.all Call.isFlush ∧ peer.downlink.all Answer.isFlushed))

instance (client : ClientInfo abi) (answer : Answer abi) :
    Decidable (SelfExitFree client answer) :=
  match answer with
  | .region pack => inferInstanceAs (Decidable (∀ info ∈ client.traces pack.traceKey,
      ∀ ack ∈ pack.acks, ∀ exec ∈ ack.execs, exec.pc = info.pc →
        ∀ installed ∈ client.netCodeRegions info.key, installed.received = client.flushCount))
  | .flushed => isTrue trivial

instance (ticket : Ticket) (system : System abi) (action : Action abi) :
    Decidable (Quiet ticket system action) :=
  match action with
  | .flush other => inferInstanceAs (Decidable (other = ticket →
      ∀ peer ∈ system.peers ticket, peer.Idle))
  | .receive other => inferInstanceAs (Decidable (other = ticket →
      ∀ peer ∈ system.peers ticket, ∀ answer ∈ peer.downlink.head?,
        SelfExitFree peer.client answer))
  | .connect _ _ _ _ => isTrue trivial
  | .request _ _ => isTrue trivial
  | .serve _ => isTrue trivial

end Property

section Expected

variable {abi : Abi} (traces : BitVec 64 → Option (TraceInfo abi)) (flushCount : Nat)

def learn (known : CodeKey abi → Prop) : Answer abi → CodeKey abi → Prop
  | .region pack => fun key => known key ∨ ∃ info, traces pack.traceKey = some info ∧ key = info.key
  | .flushed => known

def Sound (known : CodeKey abi → Prop) : Answer abi → Prop
  | .region pack => ∃ info ack, traces pack.traceKey = some info ∧ info.sent = flushCount ∧
      pack.acks = [ack] ∧ ∀ exec ∈ ack.execs, exec.toTrace ≠ 0 →
        known (exec.pc,info.csBase) ∨ exec.pc = info.pc
  | .flushed => True

def Expected : (CodeKey abi → Prop) → List (Answer abi) → Prop
  | _, [] => True
  | known, answer :: rest =>
    Sound traces flushCount known answer ∧ Expected (learn traces known answer) rest

variable {traces flushCount} {traces' : BitVec 64 → Option (TraceInfo abi)}
  {known known' : CodeKey abi → Prop}

theorem expected_append (front back : List (Answer abi)) :
    Expected traces flushCount known (front ++ back) ↔ Expected traces flushCount known front ∧
        Expected traces flushCount (front.foldl (learn traces) known) back := by
  induction front generalizing known with
  | nil => simp [Expected]
  | cons answer rest ih => simp [Expected,ih,and_assoc]

section

variable (htrc : ∀ key info, traces key = some info → traces' key = some info)
include htrc

section

variable (hknown : ∀ key, known key → known' key)
include hknown

theorem learn_mono (answer : Answer abi) (key : CodeKey abi)
    (hkey : learn traces known answer key) : learn traces' known' answer key := by
  cases answer with
  | region pack =>
    rcases hkey with hkey | ⟨info,hinfo,hkey⟩
    · exact .inl (hknown key hkey)
    · exact .inr ⟨info,htrc _ _ hinfo,hkey⟩
  | flushed => exact hknown key hkey

theorem foldl_learn_mono (answers : List (Answer abi)) (key : CodeKey abi)
    (hkey : answers.foldl (learn traces) known key) : answers.foldl (learn traces') known' key := by
  induction answers generalizing known known' with
  | nil => exact hknown key hkey
  | cons answer rest ih => exact ih (learn_mono htrc hknown answer) hkey

theorem Sound.mono {answer : Answer abi}
    (hsound : Sound traces flushCount known answer) : Sound traces' flushCount known' answer := by
  cases answer with
  | region pack =>
    obtain ⟨info,ack,hinfo,hsent,hacks,hexecs⟩ := hsound
    refine ⟨info,ack,htrc _ _ hinfo,hsent,hacks,fun exec hexec htrace => ?_⟩
    exact (hexecs exec hexec htrace).imp_left (hknown _)
  | flushed => trivial

theorem Expected.mono {answers : List (Answer abi)}
    (hexpect : Expected traces flushCount known answers) :
    Expected traces' flushCount known' answers := by
  induction answers generalizing known known' with
  | nil => trivial
  | cons answer rest ih =>
    exact ⟨hexpect.1.mono htrc hknown,ih (learn_mono htrc hknown answer) hexpect.2⟩

end

end

theorem expected_of_flushed {answers : List (Answer abi)}
    (hanswers : answers.all Answer.isFlushed) : Expected traces flushCount known answers := by
  induction answers generalizing known with
  | nil => trivial
  | cons answer rest ih =>
    rw [all_cons,Bool.and_eq_true] at hanswers
    cases answer with
    | region pack => exact nomatch hanswers.1
    | flushed => exact ⟨trivial,ih hanswers.2⟩

end Expected

section Served

variable {abi : Abi} {translate : Translator abi} {heap : Heap abi} {state : State abi}
  {client : ClientData abi} {store : Store abi} {request : Request abi}

structure Served (state : State abi) (client : ClientData abi) (request : Request abi)
    (out : State abi × Option (Reply abi)) (next : ClientData abi) : Prop where
  clients : out.1.clients = Function.update state.clients request.ticket (some next)
  remote : ∀ key, (next.remote key).isSome →
    (client.remote key).isSome ∨ (out.2.isSome ∧ key = request.key)
  reply : ∀ reply, out.2 = some reply → ∃ ack, reply.pack = ⟨request.traceKey,[ack]⟩ ∧
    ∀ exec ∈ ack.execs, exec.toTrace ≠ 0 → (next.remote (exec.pc,request.csBase)).isSome

variable {tc : TranslatedCode abi}

theorem describe_toTrace {basic : Bool} {exec : Exec abi}
    (hexec : exec ∈ (describe client tc basic).execs) (htrace : exec.toTrace ≠ 0) :
    (client.remote (exec.pc,tc.csBase)).isSome := by
  obtain ⟨info,-,rfl⟩ := mem_map.mp hexec
  by_contra hnone
  exact htrace (if_neg hnone)

theorem isSome_update {map : CodeKey abi → Option (TranslatedCode abi)} {key other : CodeKey abi}
    (h : (update map key (some tc) other).isSome) : (map other).isSome ∨ other = key := by
  by_cases hkey : other = key
  · exact .inr hkey
  · rw [update_of_ne hkey] at h
    exact .inl h

theorem cacheTrace_remote {key other : CodeKey abi}
    (h : ((client.cacheTrace store key tc).1.remote other).isSome) :
    (client.remote other).isSome ∨ other = key := by
  unfold ClientData.cacheTrace at h
  split at h
  · exact isSome_update h
  · exact .inl h

theorem generate_served (translate : Translator abi) (state : State abi) (client : ClientData abi)
    (store : Store abi) (request : Request abi) :
    ∃ next, Served state client request (generate translate state client store request) next := by
  unfold generate
  split
  · exact ⟨client,rfl,fun key hkey => .inl hkey,nofun⟩
  refine ⟨_,rfl,fun key hkey => ?_,fun reply hreply => ?_⟩
  · exact (isSome_update hkey).imp_right fun heq => ⟨rfl,heq⟩
  · rw [← some.inj hreply]
    exact ⟨_,rfl,fun exec hexec htrace => describe_toTrace hexec htrace⟩

theorem processTrace_served (hfiled : ∀ tc, store.codeRegions request.key = some tc →
    tc.key = request.key) :
    ∃ next, Served state client request (processTrace translate state client store request)
      next := by
  unfold processTrace
  split
  · exact generate_served translate state client store request
  · next tc htc =>
    have hkey := hfiled tc (lookup_eq_some htc)
    split
    · obtain ⟨next,hclients,hrem,hreply⟩ := generate_served translate state
        (client.removeTrace store request.key tc).1 (client.removeTrace store request.key tc).2
        request
      refine ⟨next,hclients,fun key hsome => ?_,hreply⟩
      refine (hrem key hsome).imp_left fun hold => ?_
      obtain ⟨old,hold⟩ := isSome_iff_exists.mp hold
      rw [(update_none_eq_some hold).2]
      rfl
    · refine ⟨(client.cacheTrace store request.key tc).1,rfl,fun key hsome => ?_,
        fun reply hreply => ?_⟩
      · exact (cacheTrace_remote hsome).imp_right fun heq => ⟨rfl,heq⟩
      · rw [← some.inj hreply]
        refine ⟨_,rfl,fun exec hexec htrace => ?_⟩
        have hcs : tc.csBase = request.csBase := congrArg Prod.snd hkey
        rw [← hcs]
        exact describe_toTrace hexec htrace

end Served

section Linked

variable {abi : Abi} {translate : Translator abi} {ticket : Ticket} {peer : Peer abi}
  {believed believed' : CodeKey abi → Prop}

def Known (client : ClientInfo abi) (key : CodeKey abi) : Prop :=
  ∃ installed, client.netCodeRegions key = some installed ∧
    installed.received = client.flushCount

/-- A connection between flushes: `flushes` are under way to the server, and behind them newer
requests. Then what the server believes to be with the client is there or under way. -/
structure Linked (believed : CodeKey abi → Prop) (peer : Peer abi) (flushes : Nat)
    (requests : List (Request abi)) : Prop where
  uplink : peer.uplink = List.replicate flushes .flush ++ requests.map .trace
  requests : ∀ request ∈ requests, peer.client.traces request.traceKey =
    some ⟨request.root.pc,request.csBase,peer.client.flushCount⟩
  downlink : Expected peer.client.traces peer.client.flushCount (Known peer.client) peer.downlink
  believed : flushes = 0 → ∀ key, believed key →
    peer.downlink.foldl (learn peer.client.traces) (Known peer.client) key

theorem linked_init (believed : CodeKey abi → Prop) (client : ClientInfo abi)
    (hbelieved : ∀ key, ¬ believed key) : Linked believed ⟨client,[],[]⟩ 0 [] where
  uplink := rfl
  requests _ h := nomatch h
  downlink := trivial
  believed _ key hkey := absurd hkey (hbelieved key)

variable {flushes : Nat} {requests : List (Request abi)}

section

variable (hlink : Linked believed peer flushes requests)
include hlink

theorem Linked.request {request : Request abi}
    {client : ClientInfo abi} (hsend : peer.client.sendTrace request = some client) :
    Linked believed { peer with client := client, uplink := peer.uplink ++ [.trace request] }
      flushes (requests ++ [request]) := by
  unfold ClientInfo.sendTrace at hsend
  split at hsend
  · exact nomatch hsend
  · next hnew =>
    cases hsend
    have htrc : ∀ key info, peer.client.traces key = some info →
        update peer.client.traces request.traceKey
          (some ⟨request.root.pc,request.csBase,peer.client.flushCount⟩) key = some info := by
      intro key info hinfo
      rw [update_of_ne,hinfo]
      rintro rfl
      rw [hnew] at hinfo
      exact nomatch hinfo
    constructor
    · simp [hlink.uplink]
    · intro other hother
      rcases mem_append.mp hother with hold | hlast
      · exact htrc _ _ (hlink.requests other hold)
      · rw [mem_singleton.mp hlast]
        exact update_self _ _ _
    · exact hlink.downlink.mono htrc fun _ hkey => hkey
    · intro hz key hkey
      exact foldl_learn_mono htrc (fun _ hkey => hkey) _ key (hlink.believed hz key hkey)

theorem Linked.flush (hidle : peer.Idle) :
    Linked believed { peer with client := peer.client.flush, uplink := peer.uplink ++ [.flush] }
      (flushes+1) [] where
  uplink := by
    have hnone : requests = [] := by
      cases requests with
      | nil => rfl
      | cons request rest =>
        have hcall := all_eq_true.mp hidle.1 (.trace request) (by simp [hlink.uplink])
        exact nomatch hcall
    rw [hlink.uplink,hnone,replicate_succ']
    simp
  requests _ h := nomatch h
  downlink := expected_of_flushed hidle.2
  believed h := nomatch h

theorem Linked.serve_flush {rest : List (Call abi)} (huplink : peer.uplink = .flush :: rest)
    (hbelieved : ∀ key, ¬ believed' key) :
    ∃ flushes, Linked believed' { peer with
      uplink := rest, downlink := peer.downlink ++ [.flushed] } flushes requests := by
  have hshape := hlink.uplink
  rw [huplink] at hshape
  cases flushes with
  | zero => cases requests <;> simp at hshape
  | succ flushes =>
    refine ⟨flushes,?_,hlink.requests,?_,fun _ key hkey => absurd hkey (hbelieved key)⟩
    · rw [replicate_succ,cons_append] at hshape
      exact (List.cons.inj hshape).2
    · exact (expected_append _ _).mpr ⟨hlink.downlink,trivial,trivial⟩

end

theorem Linked.serve_trace {state : State abi} {data next : ClientData abi} {request : Request abi}
    {rest : List (Call abi)} {out : State abi × Option (Reply abi)}
    (hlink : Linked (fun key => (data.remote key).isSome) peer flushes requests)
    (huplink : peer.uplink = .trace request :: rest)
    (hserver : Served state data { request with ticket := ticket } out next) :
    ∃ requests, Linked (fun key => (next.remote key).isSome) { peer with
      uplink := rest, downlink := peer.downlink ++ answers out.2 (.trace request) } 0 requests := by
  have hshape := hlink.uplink
  rw [huplink] at hshape
  cases flushes with
  | succ flushes =>
    exact nomatch hshape
  | zero =>
    cases requests with
    | nil => exact nomatch hshape
    | cons first requests =>
      obtain ⟨rfl,rfl⟩ := hshape
      have hinfo := hlink.requests request mem_cons_self
      refine ⟨requests,rfl,fun other hother =>
        hlink.requests other (mem_cons_of_mem _ hother),?_,fun _ key hkey => ?_⟩
      · cases hreply : out.2 with
        | none => simpa [answers] using hlink.downlink
        | some reply =>
          obtain ⟨ack,hpack,htoTrace⟩ := hserver.reply reply hreply
          simp only [answers,map_some,toList_some,hpack]
          refine (expected_append _ _).mpr ⟨hlink.downlink,⟨_,ack,hinfo,rfl,rfl,?_⟩,trivial⟩
          intro exec hexec htrace
          rcases hserver.remote _ (htoTrace exec hexec htrace) with hold | ⟨-,hkey⟩
          · exact .inl (hlink.believed rfl _ hold)
          · exact .inr (congrArg Prod.fst hkey)
      · rw [foldl_append]
        rcases hserver.remote key hkey with hold | ⟨hsome,rfl⟩
        · have hbefore := hlink.believed rfl key hold
          cases out.2 with
          | none => exact hbefore
          | some reply => exact .inl hbefore
        · obtain ⟨reply,hreply⟩ := isSome_iff_exists.mp hsome
          obtain ⟨ack,hpack,-⟩ := hserver.reply reply hreply
          simp only [hreply,answers,map_some,toList_some,hpack]
          exact .inr ⟨_,hinfo,rfl⟩

end Linked

section Receive

variable {abi : Abi} {client : ClientInfo abi} {info : TraceInfo abi} {ack : Ack abi}
  {pack : Pack abi} {out : ClientInfo abi × List (Effect abi)}

structure Installs (client : ClientInfo abi) (info : TraceInfo abi) (ack : Ack abi)
    (out : ClientInfo abi × List (Effect abi)) (code : HostWord abi) : Prop where
  traces : out.1.traces = client.traces
  flushCount : out.1.flushCount = client.flushCount
  regions : out.1.netCodeRegions = Function.update client.netCodeRegions info.key
    (some ⟨info.pc,ack.codeSize,code,client.flushCount⟩)
  effects : ∀ effect ∈ out.2, effect ∈ patchExits client info.csBase code ack ∨
    effect = .install info ⟨info.pc,ack.codeSize,code,client.flushCount⟩ ∨
    ∃ site, effect = .patch site (.region ⟨info.pc,ack.codeSize,code,client.flushCount⟩)

theorem install_installs {first : Bool} (hout : client.install info first ack = some out) :
    ∃ code, Installs client info ack out code := by
  obtain ⟨emitted,-,rfl⟩ := map_eq_some_iff.mp hout
  refine ⟨_,rfl,rfl,rfl,fun effect heffect => ?_⟩
  simp only [mem_append,List.mem_map] at heffect
  rcases heffect with ((hexit | hinstall) | hentry) | ⟨site,-,rfl⟩
  · exact .inl (by simpa [patchExits] using hexit)
  · exact .inr (.inl (mem_singleton.mp hinstall))
  · cases first with
    | false => exact nomatch hentry
    | true => exact .inr (.inr ⟨_,mem_singleton.mp hentry⟩)
  · exact .inr (.inr ⟨_,rfl⟩)

theorem recvTrace_installs (hinfo : client.traces pack.traceKey = some info)
    (hacks : pack.acks = [ack]) (hout : client.recvTrace pack = some out) :
    ∃ code, Installs client info ack out code := by
  rw [ClientInfo.recvTrace,hacks,ClientInfo.recvAcks,hinfo,bind_some,bind_eq_some_iff] at hout
  obtain ⟨one,hone,hout⟩ := hout
  obtain ⟨code,htrc,hflush,hregions,heffects⟩ := install_installs hone
  simp only [ClientInfo.recvAcks,map_some,append_nil] at hout
  cases hout
  exact ⟨code,htrc,hflush,hregions,heffects⟩

theorem patchExits_fresh {code : HostWord abi} (hexecs : ∀ exec ∈ ack.execs, exec.toTrace ≠ 0 →
      Known client (exec.pc,info.csBase) ∨ exec.pc = info.pc)
    (hself : ∀ exec ∈ ack.execs, exec.pc = info.pc → ∀ installed,
      client.netCodeRegions info.key = some installed → installed.received = client.flushCount) :
    ∀ effect ∈ patchExits client info.csBase code ack, effect.Fresh client.flushCount := by
  intro effect heffect
  rcases mem_append.mp heffect with hexit | hexec
  · obtain ⟨off,-,rfl⟩ := mem_map.mp hexit
    trivial
  · obtain ⟨exec,hmem,rfl⟩ := mem_map.mp hexec
    unfold target
    split
    · next installed hinstall =>
      split at hinstall
      · next htrace =>
        rcases hexecs exec hmem htrace with ⟨known,hknown,hreceived⟩ | hhead
        · rw [hinstall] at hknown
          cases hknown
          exact hreceived
        · rw [hhead] at hinstall
          exact hself exec hmem hhead installed hinstall
      · exact nomatch hinstall
    · trivial

variable {answer : Answer abi}

theorem receive_fresh (hsound : Sound client.traces client.flushCount
    (Known client) answer) (hself : SelfExitFree client answer)
    (hout : client.receive answer = some out) :
    ∀ effect ∈ out.2, effect.Fresh client.flushCount := by
  intro effect heffect
  cases answer with
  | flushed =>
    cases hout
    exact nomatch heffect
  | region pack =>
    obtain ⟨info,ack,hinfo,hsent,hacks,hexecs⟩ := hsound
    obtain ⟨code,hinstalls⟩ := recvTrace_installs hinfo hacks hout
    rcases hinstalls.effects effect heffect with hexit | rfl | ⟨site,rfl⟩
    · refine patchExits_fresh hexecs (fun exec hexec hhead installed hinstall => ?_) effect hexit
      exact hself info hinfo ack (by rw [hacks]; exact mem_singleton_self _) exec hexec hhead
        installed hinstall
    · exact hsent
    · rfl

theorem receive_known (hsound : Sound client.traces client.flushCount
    (Known client) answer) (hout : client.receive answer = some out) :
    out.1.traces = client.traces ∧ out.1.flushCount = client.flushCount ∧
      ∀ key, learn client.traces (Known client) answer key → Known out.1 key := by
  cases answer with
  | flushed =>
    cases hout
    exact ⟨rfl,rfl,fun _ hkey => hkey⟩
  | region pack =>
    obtain ⟨info,ack,hinfo,-,hacks,-⟩ := hsound
    obtain ⟨code,htrc,hflush,hregions,-⟩ := recvTrace_installs hinfo hacks hout
    refine ⟨htrc,hflush,fun key hkey => ?_⟩
    unfold Known
    rw [hregions,hflush]
    by_cases hown : key = info.key
    · rw [hown,update_self]
      exact ⟨_,rfl,rfl⟩
    · rw [update_of_ne hown]
      rcases hkey with hkey | ⟨other,hother,rfl⟩
      · exact hkey
      rw [hinfo] at hother
      cases hother
      exact absurd rfl hown

theorem Linked.receive {believed : CodeKey abi → Prop} {peer : Peer abi} {flushes : Nat}
    {requests : List (Request abi)} {rest : List (Answer abi)}
    (hlink : Linked believed peer flushes requests) (hdown : peer.downlink = answer :: rest)
    (hout : peer.client.receive answer = some out) :
    Linked believed { peer with client := out.1, downlink := rest } flushes requests := by
  have hexpect := hlink.downlink
  rw [hdown] at hexpect
  obtain ⟨htrc,hflush,hknown⟩ := receive_known hexpect.1 hout
  constructor
  · exact hlink.uplink
  · intro request hreq
    simp only [htrc,hflush]
    exact hlink.requests request hreq
  · simp only [htrc,hflush]
    exact hexpect.2.mono (fun _ _ h => h) hknown
  · intro hz key hkey
    have hbelieved := hlink.believed hz key hkey
    rw [hdown,foldl_cons] at hbelieved
    simp only [htrc]
    exact foldl_learn_mono (fun _ _ h => h) hknown rest key hbelieved

end Receive

section Steady

variable {abi : Abi} {translate : Translator abi} {ticket : Ticket} {system next : System abi}

def believes (state : State abi) (ticket : Ticket) (key : CodeKey abi) : Prop :=
  ((state.clients ticket).bind fun data => data.remote key).isSome

theorem believes_eq {state : State abi} {data : ClientData abi}
    (hdata : state.clients ticket = some data) :
    believes state ticket = fun key => ((data.remote key).isSome : Prop) := by
  unfold believes
  rw [hdata]
  rfl

structure Steady (ticket : Ticket) (system : System abi) : Prop where
  server : ∃ heap, Inv heap system.server
  linked : ∀ peer, system.peers ticket = some peer →
    ∃ flushes requests, Linked (believes system.server ticket) peer flushes requests

theorem believes_congr {state state' : State abi}
    (hclients : state'.clients ticket = state.clients ticket) :
    believes state' ticket = believes state ticket := by
  unfold believes
  rw [hclients]

variable {peer : Peer abi} {other : Ticket}

section

variable (hsteady : Steady ticket system)
include hsteady

theorem Steady.put {server : State abi} (hserver : ∃ heap, Inv heap server)
    (hother : other ≠ ticket → server.clients ticket = system.server.clients ticket)
    (hpeer : other = ticket → ∃ flushes requests,
      Linked (believes server ticket) peer flushes requests) :
    Steady ticket (System.put { system with server := server } other peer) where
  server := hserver
  linked found hfound := by
    simp only [System.put] at hfound ⊢
    by_cases hticket : other = ticket
    · rw [hticket,update_self] at hfound
      cases hfound
      exact hpeer hticket
    · rw [update_of_ne (Ne.symm hticket)] at hfound
      rw [believes_congr (hother hticket)]
      exact hsteady.linked found hfound

theorem Steady.connect (sock : Sock) (handshake : Handshake abi)
    (client : ClientInfo abi) : Steady ticket (connect system sock handshake client) := by
  unfold Client.connect
  split
  · exact hsteady
  · next haccept =>
    obtain ⟨heap,hinv⟩ := hsteady.server
    have hsync : sync system.server sock handshake = _ := if_neg haccept
    refine Steady.put hsteady ⟨heap,hinv.sync sock handshake⟩ (fun hticket => ?_)
      fun hticket => ⟨0,[],linked_init _ _ fun key hkey => ?_⟩
    · rw [hsync]
      exact update_of_ne (Ne.symm hticket) _ _
    · rw [hsync] at hkey
      simp [believes,hticket] at hkey

theorem Steady.serve (hpeer : system.peers other = some peer)
    (hserve : serve translate system other peer = some next) : Steady ticket next := by
  obtain ⟨heap,hinv⟩ := hsteady.server
  unfold Client.serve at hserve
  split at hserve
  · exact nomatch hserve
  · next call rest huplink =>
    obtain ⟨out,hout,rfl⟩ := map_eq_some_iff.mp hserve
    cases call with
    | flush =>
      obtain ⟨data,hdata,rfl⟩ := map_eq_some_iff.mp hout
      refine hsteady.put (hinv.step hout) (fun hother => ?_) fun hticket => ?_
      · exact update_of_ne (Ne.symm hother) _ _
      · subst hticket
        obtain ⟨flushes,requests,hlink⟩ := hsteady.linked peer hpeer
        have hnone : ∀ key, ¬ believes (processFlush system.server other data) other key := by
          simp [believes,processFlush,State.put,ClientData.reset]
        obtain ⟨flushes,hlink⟩ := hlink.serve_flush huplink hnone
        exact ⟨flushes,requests,hlink⟩
    | trace request =>
      obtain ⟨data,hdata,rfl⟩ := map_eq_some_iff.mp hout
      have hfiled := hinv.filed (data.owner other)
      obtain ⟨after,hserver⟩ := processTrace_served fun tc htc => (hfiled.region _ tc htc).2.1
      refine hsteady.put (hinv.step hout) (fun hother => ?_) fun hticket => ?_
      · rw [hserver.clients]
        exact update_of_ne (Ne.symm hother) _ _
      · subst hticket
        obtain ⟨flushes,requests,hlink⟩ := hsteady.linked peer hpeer
        rw [believes_eq (show system.server.clients other = some data from hdata)] at hlink
        obtain ⟨requests,hlink⟩ := hlink.serve_trace huplink hserver
        refine ⟨0,requests,?_⟩
        rw [believes_eq (by rw [hserver.clients]; exact update_self _ _ _)]
        exact hlink

theorem Steady.receive (hpeer : system.peers other = some peer)
    (hreceive : receive system other peer = some next) : Steady ticket next := by
  unfold Client.receive at hreceive
  split at hreceive
  · exact nomatch hreceive
  · next answer rest hdown =>
    obtain ⟨out,hout,rfl⟩ := map_eq_some_iff.mp hreceive
    refine hsteady.put hsteady.server (fun _ => rfl) fun hticket => ?_
    subst hticket
    obtain ⟨flushes,requests,hlink⟩ := hsteady.linked peer hpeer
    exact ⟨flushes,requests,hlink.receive hdown hout⟩

theorem Steady.step {action : Action abi} (hquiet : Quiet ticket system action)
    (hs : step translate system action = some next) : Steady ticket next := by
  cases action with
  | connect sock handshake retAddr cache =>
    rw [← some.inj hs]
    exact hsteady.connect sock handshake _
  | request other request =>
    obtain ⟨peer,hpeer,hsend⟩ := bind_eq_some_iff.mp hs
    obtain ⟨client,hclient,rfl⟩ := map_eq_some_iff.mp hsend
    refine hsteady.put hsteady.server (fun _ => rfl) fun hticket => ?_
    subst hticket
    obtain ⟨flushes,requests,hlink⟩ := hsteady.linked peer hpeer
    exact ⟨flushes,_,hlink.request hclient⟩
  | flush other =>
    obtain ⟨peer,hpeer,rfl⟩ := map_eq_some_iff.mp hs
    refine hsteady.put hsteady.server (fun _ => rfl) fun hticket => ?_
    subst hticket
    obtain ⟨flushes,requests,hlink⟩ := hsteady.linked peer hpeer
    exact ⟨_,[],hlink.flush (hquiet rfl peer hpeer)⟩
  | serve other =>
    obtain ⟨peer,hpeer,hserve⟩ := bind_eq_some_iff.mp hs
    exact hsteady.serve hpeer hserve
  | receive other =>
    obtain ⟨peer,hpeer,hreceive⟩ := bind_eq_some_iff.mp hs
    exact hsteady.receive hpeer hreceive

theorem Steady.fresh {action : Action abi} (hquiet : Quiet ticket system action) :
    Fresh ticket system action := by
  rintro rfl peer hpeer effect heffect
  obtain ⟨flushes,requests,hlink⟩ := hsteady.linked peer hpeer
  have hself := hquiet rfl peer hpeer
  have hexpect := hlink.downlink
  unfold Peer.effects at heffect
  cases hdown : peer.downlink with
  | nil =>
    rw [hdown] at heffect
    exact nomatch heffect
  | cons answer rest =>
    rw [hdown] at heffect hself hexpect
    rw [List.head?_cons,bind_some] at heffect
    cases hout : peer.client.receive answer with
    | none =>
      rw [hout] at heffect
      exact nomatch heffect
    | some out =>
      rw [hout] at heffect
      exact receive_fresh hexpect.1 (hself answer rfl) hout effect heffect

end

end Steady

/-- If a client flushes only while nothing it asked for is under way, it installs and chains no
region from before its last flush. -/
theorem fresh_of_quiet {abi : Abi} (translate : Translator abi) (arch baseRegNo : BitVec 32)
    (globals : Globals abi) (ticket : Ticket) (actions : List (Action abi))
    (hquiet : Meets (step translate) (Quiet ticket) (start arch baseRegNo globals) actions) :
    Meets (step translate) (Fresh ticket) (start arch baseRegNo globals) actions :=
  have hstart : Steady ticket (start arch baseRegNo globals) :=
    ⟨⟨[],inv_init arch baseRegNo globals⟩,nofun⟩
  hquiet.imp (fun _ _ _ (hsteady : Steady ticket _) hcalm hnext => hsteady.step hcalm hnext)
    (fun _ _ hsteady hcalm => hsteady.fresh hcalm) hstart

section Samples

def sampleCache : CodeCache sampleAbi := ⟨0x1000,4096,64,0x1000,4096⟩

def blockAt (pc : GuestAddr sampleAbi) (traceKey : BitVec 64) : Request sampleAbi :=
  { oneBlock 1 with
    traceKey := traceKey
    root := ⟨pc,[]⟩
    images := [sampleImage pc] }

def asked : List (Action sampleAbi) :=
  [.connect 5 (sampleHandshake 0 none) 0x40 sampleCache,.request 1 (blockAt 0x9000 0x100),
    .serve 1,.receive 1,.request 1 (blockAt 0x8000 0x200),.serve 1]

def askedAgain : List (Action sampleAbi) :=
  asked ++ [.receive 1,.flush 1,.request 1 (blockAt 0x9000 0x300),.serve 1,.serve 1,.receive 1,
    .receive 1]

def sampleStart : System sampleAbi := start 0 0 sampleGlobals

end Samples

/-- Both regions arrive, the flush comes after that, and the first region is asked for again. -/
theorem flush_after_answers :
    (run (step exitTranslator) sampleStart askedAgain).isSome ∧
    Meets (step exitTranslator) (Fresh 1) sampleStart askedAgain := by
  constructor
  · decide
  · apply fresh_of_quiet
    decide

/-- The flush comes while the second region is under way. -/
theorem stale_region_installed :
    ((run (step exitTranslator) sampleStart (asked ++ [.flush 1])).bind fun system =>
      (system.peers 1).map fun peer => (peer.client.flushCount, peer.effects)) =
    some (1, [.patch (.code 0x1000) (.region ⟨0x9000, 1, 0x1000, 0⟩),
      .install ⟨0x8000, 0, 0⟩ ⟨0x8000, 1, 0x1000, 1⟩,
      .patch (.entry (0x8000, 0)) (.region ⟨0x8000, 1, 0x1000, 1⟩)]) := by
  decide

end Hqemu.Net.Client
