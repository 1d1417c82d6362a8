import Hqemu.Net.RecvReading

/-! Flush messages on a server with several clients. `flush_queue` marks every message, and
`TCP_Wait` ends the process at a marked one. -/
namespace Hqemu.Net.Receive

open List Option Lib.Run

/-- With this step a server has read a flush message of the client whole. -/
structure Flushes (config : Config) (state : State) (action : Action) (client : Sock) : Prop where
  server : config.isServer = true
  queued : config.callback config.flushTag = false
  tag : wordAt state.header 8 = config.flushTag
  whole : ∃ behind got count, state.reading = some ⟨client,.payload got,behind⟩ ∧
    action = .answer (.got count) ∧ got.length+count = (wordAt state.header 4).toNat

/-- What a flush may do: the messages of other clients stay, and a wait that ends the server does so
for a flush of the client it waits for. -/
def Isolated (config : Config) (state : State) (action : Action) : Prop :=
  ∀ next, step config state action = some next →
    (∀ client, Flushes config state action client →
      ∀ data ∈ state.complete, data.sock ≠ client → data ∈ next.complete) ∧
    ∀ handle request client, action = .wait handle → state.posted[handle]? = some request →
      next.halted = true → request.flushed = some client → request.sock = client

/-- A flush message is read while only messages of its own client wait. -/
def Alone (config : Config) (state : State) (action : Action) : Prop :=
  ∀ next, step config state action = some next → ∀ client, Flushes config state action client →
    ∀ data ∈ state.complete, data.sock = client

def OwnMarks (queue : List Inbound) : Prop :=
  ∀ data ∈ queue, data.sock ≠ anySource ∧ ∀ client, data.flushed = some client → data.sock = client

def Posted.OwnMark (request : Posted) : Prop :=
  ∀ client, request.flushed = some client → request.sock = client ∧ client ≠ anySource

structure Owned (state : State) : Prop where
  reading : ∀ reading, state.reading = some reading →
    reading.sock ≠ anySource ∧ ∀ entry ∈ reading.behind, entry.1 ≠ anySource
  queue : OwnMarks state.complete
  posted : ∀ request ∈ state.posted, request.OwnMark

section Steps

variable {config : Config} {state : State}

variable {request : Posted} {data : Inbound}

theorem bind_sock (hnamed : data.sock ≠ anySource)
    (hsuits : data.suits request.sock request.tag = true) : (request.bind data).sock = data.sock :=
        by
  simp only [Inbound.suits,Bool.and_eq_true,Bool.or_eq_true,decide_eq_true_eq,hnamed,or_false]
      at hsuits
  simp only [Posted.bind]
  split
  · rfl
  · next hsock => exact hsuits.1.resolve_left hsock

variable {place : Place}

theorem mem_erase (hmem : data ∈ place.erase) :
    ∃ old ∈ place.front ++ place.data :: place.back,
      data.sock = old.sock ∧ data.flushed = old.flushed := by
  rcases mem_append.mp hmem with hfront | hback
  · exact ⟨data,mem_append_left _ hfront,rfl,rfl⟩
  · exact ⟨data,mem_append_right _ (mem_cons_of_mem _ hback),rfl,rfl⟩

theorem mem_after {bound : Posted} (hmem : data ∈ place.after bound) :
    ∃ old ∈ place.front ++ place.data :: place.back,
      data.sock = old.sock ∧ data.flushed = old.flushed := by
  unfold Place.after at hmem
  split at hmem
  · exact mem_erase hmem
  rcases mem_append.mp hmem with hfront | hback
  · exact ⟨data,mem_append_left _ hfront,rfl,rfl⟩
  rcases mem_cons.mp hback with rfl | hback
  · exact ⟨place.data,mem_append_right _ mem_cons_self,rfl,rfl⟩
  · exact ⟨data,mem_append_right _ (mem_cons_of_mem _ hback),rfl,rfl⟩

variable {queue : List Inbound}

theorem OwnMarks.of_same {others : List Inbound} (hq : OwnMarks queue)
    (hothers : ∀ data ∈ others, ∃ old ∈ queue, data.sock = old.sock ∧ data.flushed = old.flushed) :
    OwnMarks others := by
  intro data hmem
  obtain ⟨old,hold,hsock,hflushed⟩ := hothers data hmem
  rw [hsock,hflushed]
  exact hq old hold

theorem OwnMarks.erase (hq : OwnMarks queue)
    (hsource : searchRecvq request.sock request.tag queue = some place) : OwnMarks place.erase := by
  rw [(searchRecvq_split hsource).1] at hq
  exact hq.of_same fun data => mem_erase

theorem OwnMarks.after (hq : OwnMarks queue)
    (hsource : searchRecvq request.sock request.tag queue = some place) (bound : Posted) :
    OwnMarks (place.after bound) := by
  rw [(searchRecvq_split hsource).1] at hq
  exact hq.of_same fun data => mem_after

theorem Posted.OwnMark.bind (hown : request.OwnMark) (data : Inbound) :
    (request.bind data).OwnMark := by
  intro client hclient
  obtain ⟨hsock,hnamed⟩ := hown client hclient
  have hexplicit : request.sock ≠ anySource := hsock ▸ hnamed
  simp only [Posted.bind,if_neg hexplicit]
  exact ⟨hsock,hnamed⟩

theorem irecvLoop_owned (fuel : Nat) (hq : OwnMarks queue) (hreq : request.OwnMark) :
    OwnMarks (irecvLoop fuel request queue).2 ∧ (irecvLoop fuel request queue).1.OwnMark := by
  induction fuel generalizing request queue with
  | zero => exact ⟨hq,hreq⟩
  | succ fuel ih =>
    unfold irecvLoop
    split
    · exact ⟨hq,hreq⟩
    · next place hsource =>
      obtain ⟨hsplit,hsuits,-⟩ := searchRecvq_split hsource
      have hdata := hq place.data (by rw [hsplit]; simp)
      have hsock := bind_sock hdata.1 hsuits
      generalize hbound : { request.bind place.data with
        flushed := place.data.flushed.or request.flushed } = bound
      have hmark : bound.OwnMark := by
        intro client hclient
        rw [← hbound] at hclient ⊢
        simp only [or_eq_some_iff] at hclient
        rcases hclient with hown | ⟨-,hold⟩
        · have hsame := hdata.2 client hown
          exact ⟨hsock.trans hsame,hsame ▸ hdata.1⟩
        · exact (hreq.bind place.data) client hold
      have hafter : OwnMarks (place.after bound) := hq.after hsource bound
      simp only
      split
      · exact ⟨hafter,hmark⟩
      · exact ih hafter hmark

theorem owned_nextSock {behind : List (Sock × Bool)} (hq : OwnMarks state.complete)
    (hpost : ∀ request ∈ state.posted, request.OwnMark)
    (hbehind : ∀ entry ∈ behind, entry.1 ≠ anySource) : Owned (nextSock state behind) := by
  obtain ⟨dropped,reading,hnext,-,hreading⟩ := nextSock_eq state behind
  rw [hnext]
  refine ⟨fun other hsome => ?_,hq,hpost⟩
  obtain ⟨-,hsock,hmem⟩ := hreading other hsome
  exact ⟨hbehind _ hsock,fun entry hentry => hbehind entry (hmem entry hentry)⟩

variable {next : State}

theorem Owned.reading_on {reading : Reading} (howner : Owned state)
    (hreading : state.reading = some reading) (phase : Phase)
    (hnext : next.reading = some { reading with phase := phase })
    (hcomplete : next.complete = state.complete) (hpost : next.posted = state.posted) : Owned
        next := by
  refine ⟨fun other hsome => ?_,hcomplete ▸ howner.queue,hpost ▸ howner.posted⟩
  rw [hnext] at hsome
  rw [← some.inj hsome]
  exact howner.reading reading hreading

theorem ownMarks_recvMessage {client : Sock} {word : Tag} {payload : List Byte}
    (hq : OwnMarks next.complete) (hnamed : client ≠ anySource)
    (hflush : config.isServer = true → word = config.flushTag →
      config.callback config.flushTag = false → ∀ data ∈ next.complete, data.sock = client) :
    OwnMarks (recvMessage config next client word payload).complete ∧
      (recvMessage config next client word payload).posted = next.posted := by
  have happend : ∀ queue, OwnMarks queue → OwnMarks (queue ++ [⟨client,word,payload,0,none⟩]) := by
    intro queue hmarks data hmem
    rcases mem_append.mp hmem with hold | hnew
    · exact hmarks data hold
    · rw [mem_singleton.mp hnew]
      exact ⟨hnamed,nofun⟩
  unfold recvMessage
  split
  · exact ⟨hq,rfl⟩
  · next hcall =>
    split
    · next hserver =>
      rw [Bool.and_eq_true,decide_eq_true_eq] at hserver
      have hown := hflush hserver.1 hserver.2 (by rw [← hserver.2]; simpa using hcall)
      refine ⟨happend _ fun data hmem => ?_,rfl⟩
      obtain ⟨old,hold,rfl⟩ := mem_map.mp hmem
      refine ⟨(hq old hold).1,fun other hother => ?_⟩
      rw [← some.inj hother]
      exact hown old hold
    · exact ⟨happend _ hq,rfl⟩

theorem Owned.answerStep {reading : Reading} {answer : Answer} (howner : Owned state)
    (hreading : state.reading = some reading)
    (halone : Flushes config state (.answer answer) reading.sock →
      ∀ data ∈ state.complete, data.sock = reading.sock)
    (hnext : answerStep config state reading answer = some next) : Owned next := by
  obtain ⟨hnamed,hbehind⟩ := howner.reading reading hreading
  cases answer with
  | got count =>
    simp only [Receive.answerStep] at hnext
    split at hnext
    · exact absurd hnext (by simp)
    · next hcount =>
      cases hphase : reading.phase with
      | peek comp =>
        simp only [hphase] at hnext
        rw [← some.inj hnext]
        simp only [peekStep]
        split
        · exact howner.reading_on hreading _ rfl rfl rfl
        split
        · exact owned_nextSock howner.queue howner.posted hbehind
        · exact howner.reading_on hreading _ rfl rfl rfl
      | header got =>
        simp only [hphase] at hnext
        rw [← some.inj hnext]
        simp only [headerStep]
        split
        · exact howner.reading_on hreading _ rfl rfl rfl
        split
        · exact ⟨howner.reading,howner.queue,howner.posted⟩
        · exact howner.reading_on hreading _ rfl rfl rfl
      | payload got =>
        simp only [hphase] at hnext
        rw [← some.inj hnext]
        have hsize : (got ++ (state.arrived reading.sock).take count).length = got.length+count :=
            by
          rw [length_append,length_take_of_le (by omega)]
        generalize hbytes : got ++ (state.arrived reading.sock).take count = bytes at hsize
        simp only [payloadStep,hbytes,consume_header]
        split
        · exact howner.reading_on hreading _ rfl rfl rfl
        · next hwhole =>
          have hlen : got.length+count = (wordAt state.header 4).toNat := by
            rw [← hsize]
            simpa using hwhole
          have hflush : config.isServer = true → wordAt state.header 8 = config.flushTag →
              config.callback config.flushTag = false →
              ∀ data ∈ (state.consume reading.sock count).complete, data.sock = reading.sock := by
            intro hserver htag hcb
            refine halone ⟨hserver,hcb,htag,reading.behind,got,count,?_,rfl,hlen⟩
            rw [hreading,← hphase]
          obtain ⟨hq,hpost⟩ : OwnMarks (recvMessage config
              (state.consume reading.sock count) reading.sock (wordAt state.header 8)
              bytes).complete ∧ _ := ownMarks_recvMessage howner.queue hnamed hflush
          exact owned_nextSock hq (hpost ▸ howner.posted) hbehind
  | wouldBlock =>
    simp only [Receive.answerStep] at hnext
    split at hnext
    · exact absurd hnext (by simp)
    cases hphase : reading.phase with
    | peek comp =>
      simp only [hphase] at hnext
      rw [← some.inj hnext]
      exact owned_nextSock howner.queue howner.posted hbehind
    | header got | payload got =>
      simp only [hphase] at hnext
      exact some.inj hnext ▸ howner
  | interrupted => exact some.inj hnext ▸ howner
  | failed hup =>
    rw [← some.inj hnext]
    split
    · exact owned_nextSock howner.queue howner.posted hbehind
    · exact ⟨howner.reading,howner.queue,howner.posted⟩

variable {action : Action}

theorem complete_of_flushes {client : Sock} (hflush : Flushes config state action client)
    (hs : step config state action = some next) :
    ∃ message : Inbound, message.sock = client ∧ next.complete =
      state.complete.map (fun data => { data with flushed := some client }) ++ [message] := by
  obtain ⟨behind,got,count,hreading,haction,hlen⟩ := hflush.whole
  subst haction
  unfold step at hs
  split at hs
  · exact absurd hs (by simp)
  simp only [hreading,bind_some,answerStep] at hs
  split at hs
  · exact absurd hs (by simp)
  · next hcount =>
    have htake : (got ++ (state.arrived client).take count).length =
        (wordAt state.header 4).toNat := by
      rw [length_append,length_take_of_le (by omega),hlen]
    rw [← some.inj hs]
    simp only [payloadStep,consume_header,htake,ne_eq,not_true_eq_false,if_false]
    obtain ⟨dropped,reading,hnext,-,-⟩ := nextSock_eq
      (recvMessage config (state.consume client count) client (wordAt state.header 8)
        (got ++ (state.arrived client).take count)) behind
    rw [hnext]
    simp only [recvMessage,hflush.tag,hflush.queued,hflush.server,Bool.true_and,decide_true,if_true]
    exact ⟨_,rfl,rfl⟩

section

variable (howner : Owned state)
include howner

theorem Owned.tcpWait {handle : Nat} (hreq : state.posted[handle]? = some request) :
    Owned (tcpWait state handle request) := by
  have hmem : request ∈ state.posted := mem_of_getElem? hreq
  have hset : ∀ next : Posted, next.OwnMark →
      ∀ other ∈ state.posted.set handle next, other.OwnMark := by
    intro next hnext other hother
    rcases mem_or_eq_of_mem_set hother with hold | hnew
    · exact howner.posted other hold
    · exact hnew ▸ hnext
  unfold Receive.tcpWait
  split
  · have hrel := hset { request with released := true } (howner.posted request hmem)
    split <;> exact ⟨howner.reading,howner.queue,hrel⟩
  · split
    · exact howner
    · next place hsource =>
      obtain ⟨hsplit,hsuits,-⟩ := searchRecvq_split hsource
      have hdata := howner.queue place.data (by rw [hsplit]; simp)
      have hsock := bind_sock hdata.1 hsuits
      split
      · refine ⟨howner.reading,howner.queue.erase hsource,hset _ fun client hclient => ?_⟩
        have hsame := hdata.2 client hclient
        exact ⟨hsock.trans hsame,hsame ▸ hdata.1⟩
      · have hbound := (howner.posted request hmem).bind place.data
        refine ⟨howner.reading,howner.queue.after hsource _,hset _ ?_⟩
        split <;> exact hbound

theorem Owned.tcpIrecv {sock : Sock} {tag : Tag} {bufs : List (List Byte)} :
    Owned (tcpIrecv state sock tag bufs) := by
  simp only [Receive.tcpIrecv]
  split
  · exact howner
  have hloop := irecvLoop_owned (state.complete.length+1) howner.queue
    (fun _ h => nomatch h : (Posted.mk sock tag bufs (bufs.flatten.length%2^32) 0 none
      .inprogress false).OwnMark)
  refine ⟨howner.reading,hloop.1,fun request hmem => ?_⟩
  rcases mem_append.mp hmem with hold | hnew
  · exact howner.posted request hold
  · rw [mem_singleton.mp hnew]
    split <;> exact hloop.2

theorem Owned.tcpDrainConnection {dropped : List Sock} :
    Owned (tcpDrainConnection state dropped) := by
  induction dropped generalizing state with
  | nil => exact ⟨howner.reading,howner.queue,howner.posted⟩
  | cons first dropped ih =>
    unfold Receive.tcpDrainConnection
    split
    · apply ih
      refine ⟨howner.reading,howner.queue,fun request hmem => ?_⟩
      obtain ⟨old,hold,rfl⟩ := mem_map.mp hmem
      have hown := howner.posted old hold
      unfold Posted.drop
      split
      · split <;> exact hown
      · exact hown
    · exact ⟨howner.reading,howner.queue,howner.posted⟩

theorem Owned.step (halone : Alone config state action)
    (hs : step config state action = some next) : Owned next := by
  have hown := halone next hs
  unfold Receive.step at hs
  split at hs
  · exact absurd hs (by simp)
  cases action with
  | arrive sock count | dropped sock =>
    rw [← some.inj hs]
    exact ⟨howner.reading,howner.queue,howner.posted⟩
  | poll ready garbage =>
    simp only at hs
    split at hs
    · next hready =>
      obtain ⟨-,hnext⟩ := reading_of_locked hs
      rw [← hnext]
      exact owned_nextSock howner.queue howner.posted
        fun entry hmem => ne_anySource (hready.2 entry hmem).2.1
    · exact absurd hs (by simp)
  | answer answer =>
    obtain ⟨reading,hreading,hans⟩ := bind_eq_some_iff.mp hs
    exact howner.answerStep hreading (hown reading.sock) hans
  | irecv sock tag bufs =>
    obtain ⟨-,hnext⟩ := reading_of_locked hs
    exact hnext ▸ howner.tcpIrecv
  | wait handle =>
    obtain ⟨request,hreq,hwait⟩ := bind_eq_some_iff.mp hs
    split at hwait
    · exact absurd hwait (by simp)
    · obtain ⟨-,hnext⟩ := reading_of_locked hwait
      exact hnext ▸ howner.tcpWait hreq
  | drain =>
    obtain ⟨-,hnext⟩ := reading_of_locked hs
    exact hnext ▸ howner.tcpDrainConnection

theorem alone_of_isolated (hisolated : Isolated config state action) :
    Alone config state action := by
  intro next hs client hflush data hmem
  by_contra hother
  obtain ⟨message,hsock,hcomplete⟩ := complete_of_flushes hflush hs
  have hkeep := (hisolated next hs).1 client hflush data hmem hother
  rw [hcomplete] at hkeep
  rcases mem_append.mp hkeep with hold | hnew
  · obtain ⟨old,-,rfl⟩ := mem_map.mp hold
    exact hother ((howner.queue _ hmem).2 client rfl)
  · exact hother (mem_singleton.mp hnew ▸ hsock)

theorem isolated_of_alone (halone : Alone config state action) : Isolated config state action := by
  intro next hs
  constructor
  · intro client hflush data hmem hother
    exact absurd (halone next hs client hflush data hmem) hother
  · intro handle request client _ hreq _ hmark
    exact (howner.posted request (mem_of_getElem? hreq) client hmark).1

end

end Steps

theorem owned_init (socks : List Sock) (streams : Sock → List Framed) :
    Owned (init socks streams) where
  reading _ hreading := nomatch hreading
  queue := forall_mem_nil _
  posted := forall_mem_nil _

/-- In a run, flushes stay with the clients that sent them exactly when each of them is read
while no message of another client waits. -/
theorem isolated_iff_alone (config : Config) (socks : List Sock) (streams : Sock → List Framed)
    (actions : List Action) :
    Meets (step config) (Isolated config) (init socks streams) actions ↔
      Meets (step config) (Alone config) (init socks streams) actions := by
  have hinit := owned_init socks streams
  constructor
  · refine Meets.imp ?_ (fun _ _ (howner : Owned _) => alone_of_isolated howner) hinit
    intro state action next howner hisolated hs
    exact howner.step (alone_of_isolated howner hisolated) hs
  · refine Meets.imp ?_ (fun _ _ (howner : Owned _) => isolated_of_alone howner) hinit
    intro state action next howner halone hs
    exact howner.step halone hs

def requestAndFlush : Sock → List Framed
  | 5#32 => [⟨3#32,[9#8],by decide⟩]
  | 6#32 => [⟨1#32,[7#8],by decide⟩]
  | _ => []

def serverConfig : Config := ⟨true,false,1#32,3#32⟩

def readByte (sock : Sock) : List Action :=
  [.arrive sock 13,.poll [(sock,false)] (List.replicate 12 0#8),.answer (.got 12),
    .answer (.got 12),.answer (.got 1)]

/-- The flush of client 5 marks the request of client 6, and the server ends when it waits for
that request. -/
theorem foreign_flush_halts :
    (∃ before out, run (step serverConfig) (init [5#32, 6#32] requestAndFlush)
        (readByte 6#32 ++ readByte 5#32 ++ [.irecv 6#32 1#32 [[0#8]]]) = some before ∧
      (before.posted.map fun request => (request.sock, request.flushed)) = [(6#32, some 5#32)] ∧
      step serverConfig before (.wait 0) = some out ∧ out.halted = true) ∧
      ¬ Meets (step serverConfig) (Isolated serverConfig) (init [5#32, 6#32] requestAndFlush)
        (readByte 6#32 ++ readByte 5#32) := by
  refine ⟨⟨_,_,rfl,by decide,rfl,rfl⟩,fun hmeets => ?_⟩
  have hread := (((((hmeets _ rfl).2 _ rfl).2 _ rfl).2 _ rfl).2 _ rfl).2
  have hflush := (((((hread _ rfl).2 _ rfl).2 _ rfl).2 _ rfl).2 _ rfl).1
  have hkeep := (hflush _ rfl).1 5#32 ⟨rfl,rfl,by decide,[],[],1,rfl,rfl,by decide⟩
    ⟨6#32,1#32,[7#8],0,none⟩ (by decide) (by decide)
  revert hkeep
  decide

end Hqemu.Net.Receive
