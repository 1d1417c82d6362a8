import Hqemu.Net.RecvStream

/-! What the kernel and the queue thread keep of a stream: messages are read whole and in order,
under conditions on the answers. -/
namespace Hqemu.Net.Receive

open Function List Option

def Account (sock : Sock) (tag : Tag) (streams : Sock → List Framed) (state : State) : Prop :=
  ∃ front rest, streams sock = front ++ rest ∧
    unread sock state = rest.flatMap Framed.frame ∧
    filled sock tag state ++ waiting sock tag state.complete = payloads tag front

def Entries (sock : Sock) (ready : List (Sock × Bool)) : Prop :=
  ∀ entry ∈ ready, entry.1 ≠ anySource ∧ (entry.1 = sock → entry.2 = false)

structure Reading.Sound (sock : Sock) (header : List Byte) (reading : Reading) : Prop where
  header : header.length = tcpHeaderSize
  named : reading.sock ≠ anySource
  behind : Entries sock reading.behind
  peek : ∀ comp, reading.phase = .peek comp → comp ≤ tcpHeaderSize

structure Inv (sock : Sock) (tag : Tag) (socks : List Sock) (streams : Sock → List Framed)
    (state : State) : Prop where
  account : Account sock tag streams state
  reading : ∀ reading, state.reading = some reading → reading.Sound sock state.header
  queue : Queue sock tag state.complete
  posted : ∀ request ∈ state.posted, request.Sound ∧ request.Settled
  whole : ∀ request ∈ state.posted, request.sock = sock → request.tag = tag →
    request.error = .complete → request.room = 0
  nodup : state.order.Nodup
  order : ∀ handle, handle ∈ state.order ↔
    ∃ request, state.posted[handle]? = some request ∧ request.completeSize ≠ 0
  dropq : sock ∉ state.dropq
  polled : sock ∈ socks → sock ∈ state.polled

def Latest (sock : Sock) (tag : Tag) (state : State) (handle : Nat) : Prop :=
  ∃ front back, state.order = front ++ handle :: back ∧
    ∀ other ∈ back, ∀ request, state.posted[other]? = some request →
      ¬(request.sock = sock ∧ request.tag = tag)

/-- Answers of the kernel after which the stream is kept: the magic number, a size that can be
allocated and a tag, no flush message while messages wait, and no broken connection. -/
def AdmitsAnswer (config : Config) (sock : Sock) (tag : Tag) (state : State) (reading : Reading) :
    Answer → Prop
  | .got count =>
    match reading.phase with
    | .peek comp => reading.sock = sock → comp-count = 0 →
        wordAt (peeked state sock count) 0 = commMagicNr
    | .header got => reading.sock = sock → got.length+count = tcpHeaderSize →
        let header := got ++ (state.arrived sock).take count
        0 < (wordAt header 4).toNat ∧ (wordAt header 4).toNat ≤ intMax
    | .payload got => got.length+count = (wordAt state.header 4).toNat →
        wordAt state.header 8 ≠ anyTag ∧
          (config.isServer = true → wordAt state.header 8 = config.flushTag →
            config.callback config.flushTag = false →
            ∀ data ∈ state.complete, ¬(data.sock = sock ∧ data.tag = tag))
  | .failed true => reading.sock ≠ sock
  | _ => True

/-- Steps that keep the stream. A receive takes bytes of it where one of its buffers begins, and
only if no other receive has come in between. -/
def Admits (config : Config) (sock : Sock) (tag : Tag) (state : State) (action : Action) : Prop :=
  config.callback tag = false ∧
  match action with
  | .poll ready _ => ∀ entry ∈ ready, entry.1 = sock → entry.2 = false
  | .answer answer => ∀ reading, state.reading = some reading →
      AdmitsAnswer config sock tag state reading answer
  | .irecv other otherTag bufs =>
    bufs.flatten.length < 2^32 ∧
      ∀ place, searchRecvq other otherTag state.complete = some place →
        place.data.sock = sock → place.data.tag = tag →
          Aligned bufs 0 (lefts sock tag state.complete)
  | .wait handle =>
    ∀ request place, state.posted[handle]? = some request → request.error ≠ .complete →
      searchRecvq request.sock request.tag state.complete = some place →
        place.data.sock = sock → place.data.tag = tag →
          Boundary request.bufs request.completeSize ∧
            (request.completeSize ≠ 0 → Latest sock tag state handle)
  | .dropped other => other ≠ sock
  | _ => True

section Steps

variable {config : Config} {sock : Sock} {tag : Tag} {socks : List Sock}
  {streams : Sock → List Framed} {state : State}

variable {next : State}

theorem Inv.of_same (hinv : Inv sock tag socks streams state)
    (haccount : Account sock tag streams next)
    (hreading : ∀ reading, next.reading = some reading → reading.Sound sock next.header)
    (hq : Queue sock tag next.complete) (hpost : next.posted = state.posted)
    (horder : next.order = state.order) (hdropq : sock ∉ next.dropq)
    (hpolled : next.polled = state.polled) : Inv sock tag socks streams next :=
  ⟨haccount,hreading,hq,hpost ▸ hinv.posted,hpost ▸ hinv.whole,horder ▸ hinv.nodup,
    fun handle => by rw [horder,hpost]; exact hinv.order handle,hdropq,hpolled ▸ hinv.polled⟩

theorem reading_of_locked {out : State} (hout : locked state next = some out) :
    state.reading = none ∧ next = out := by
  unfold locked at hout
  split at hout
  · exact absurd hout (by simp)
  · next hnone => exact ⟨by simpa using hnone,some.inj hout⟩

theorem filled_congr (hpost : next.posted = state.posted) (horder : next.order = state.order) :
    filled sock tag next = filled sock tag state := by
  rw [filled,filled,hpost,horder]

theorem nextSock_eq (state : State) (behind : List (Sock × Bool)) :
    ∃ dropped reading, nextSock state behind =
        { state with dropq := state.dropq ++ dropped, reading := reading } ∧
      (∀ other ∈ dropped, (other,true) ∈ behind) ∧
      ∀ next, reading = some next → next.phase = .peek tcpHeaderSize ∧
        (next.sock,false) ∈ behind ∧ ∀ entry ∈ next.behind, entry ∈ behind := by
  induction behind generalizing state with
  | nil => exact ⟨[],none,by simp [nextSock],forall_mem_nil _,by simp⟩
  | cons entry behind ih =>
    obtain ⟨first,hup⟩ := entry
    cases hup with
    | true =>
      obtain ⟨dropped,reading,hnext,hdrop,hreading⟩ := ih (tcpDropConnection state first)
      refine ⟨first :: dropped,reading,?_,?_,?_⟩
      · simp only [nextSock,if_true,hnext]
        simp [tcpDropConnection]
      · intro other hmem
        rcases mem_cons.mp hmem with rfl | hmem
        · exact mem_cons_self
        · exact mem_cons_of_mem _ (hdrop other hmem)
      · intro next hsome
        obtain ⟨hphase,hsock,hbehind⟩ := hreading next hsome
        exact ⟨hphase,mem_cons_of_mem _ hsock,fun entry hmem => mem_cons_of_mem _ (hbehind entry
            hmem)⟩
    | false =>
      refine ⟨[],some ⟨first,.peek tcpHeaderSize,behind⟩,by simp [nextSock],forall_mem_nil _,?_⟩
      intro next hsome
      rw [← some.inj hsome]
      exact ⟨rfl,mem_cons_self,fun entry hmem => mem_cons_of_mem _ hmem⟩

theorem inv_nextSock {behind : List (Sock × Bool)} (hinv : Inv sock tag socks streams state)
    (hentries : Entries sock behind) (hheader : next.header.length = tcpHeaderSize)
    (haccount : ∃ front rest, streams sock = front ++ rest ∧
      next.arrived sock ++ next.inflight sock = rest.flatMap Framed.frame ∧
      filled sock tag state ++ waiting sock tag next.complete = payloads tag front)
    (hq : Queue sock tag next.complete) (hpost : next.posted = state.posted)
    (horder : next.order = state.order) (hdropq : sock ∉ next.dropq)
    (hpolled : next.polled = state.polled) : Inv sock tag socks streams (nextSock next behind) := by
  obtain ⟨dropped,reading,hnext,hdrop,hreading⟩ := nextSock_eq next behind
  rw [hnext]
  refine Inv.of_same hinv ?_ ?_ hq hpost horder ?_ hpolled
  · obtain ⟨front,rest,hsplit,hunread,hstream⟩ := haccount
    refine ⟨front,rest,hsplit,?_,?_⟩
    · rw [← hunread]
      unfold unread
      cases hr : reading with
      | none => simp
      | some next =>
        have hphase := (hreading next hr).1
        simp [hphase,Phase.got]
    · exact (congrArg (· ++ waiting sock tag next.complete) (filled_congr hpost horder)).trans
          hstream
  · intro other hsome
    obtain ⟨hphase,hsock,hbehind⟩ := hreading other hsome
    refine ⟨hheader,(hentries _ hsock).1,fun entry hmem => hentries entry (hbehind entry hmem),
      fun comp hpeek => ?_⟩
    rw [hphase] at hpeek
    exact (Phase.peek.inj hpeek).ge
  · rw [mem_append,not_or]
    refine ⟨hdropq,fun hmem => ?_⟩
    have hhup := (hentries _ (hdrop sock hmem)).2 rfl
    exact Bool.noConfusion hhup

variable {reading : Reading} {count : Nat}

theorem length_peeked (hheader : state.header.length = tcpHeaderSize) (hcount : count ≤
    tcpHeaderSize) :
    (peeked state reading.sock count).length = tcpHeaderSize := by
  rw [peeked,length_memcpy,hheader]
  exact (length_take_le _ _).trans (hheader.symm ▸ hcount)

theorem Inv.peekStep {comp : Nat} (hinv : Inv sock tag socks streams state)
    (hreading : state.reading = some reading) (hphase : reading.phase = .peek comp)
    (hcount : count ≤ comp) (hadmitted : reading.sock = sock → comp-count = 0 →
      wordAt (peeked state sock count) 0 = commMagicNr) :
    Inv sock tag socks streams (peekStep state reading comp count) := by
  have hsound := hinv.reading reading hreading
  have hheader : (peeked state reading.sock count).length = tcpHeaderSize :=
    length_peeked hsound.header (hcount.trans (hsound.peek comp hphase))
  obtain ⟨front,rest,hsplit,hunread,hstream⟩ := hinv.account
  have hraw : state.arrived sock ++ state.inflight sock = rest.flatMap Framed.frame := by
    rw [← hunread,unread,hreading]
    simp [hphase,Phase.got]
  have hkeep : ∀ phase header, header.length = tcpHeaderSize → phase.got header = [] →
      (∀ left, phase = .peek left → left ≤ tcpHeaderSize) →
      Inv sock tag socks streams
        { state with header := header, reading := some { reading with phase := phase } } := by
    intro phase header hlen hgot hpeek
    refine Inv.of_same hinv ?_ ?_ hinv.queue rfl rfl hinv.dropq rfl
    · refine ⟨front,rest,hsplit,?_,hstream⟩
      rw [← hraw,unread]
      simp [hgot]
    · intro other hsome
      rw [← some.inj hsome]
      exact ⟨hlen,hsound.named,hsound.behind,hpeek⟩
  simp only [Receive.peekStep]
  split
  · apply hkeep (.peek (comp-count)) _ hheader rfl
    intro left hleft
    have hle := hsound.peek comp hphase
    rw [← Phase.peek.inj hleft]
    omega
  · next hdone =>
    split
    · next hmagic =>
      have hother : reading.sock ≠ sock := by
        intro hsame
        apply hmagic
        rw [hsame]
        exact hadmitted hsame (by omega)
      refine inv_nextSock hinv hsound.behind hheader ?_ hinv.queue rfl rfl ?_ rfl
      · exact ⟨front,rest,hsplit,hraw,hstream⟩
      · simp only [tcpDropConnection,mem_append,mem_singleton,not_or]
        exact ⟨hinv.dropq,Ne.symm hother⟩
    · exact hkeep (.header []) _ hheader rfl nofun

theorem unread_consume (state : State) (header : List Byte) (reading : Reading) (phase : Phase)
    (count : Nat) (hgot : phase.got header =
      reading.phase.got state.header ++ (state.arrived reading.sock).take count)
    (hreading : state.reading = some reading) :
    unread sock { state.consume reading.sock count with
        header := header, reading := some { reading with phase := phase } } =
      unread sock state := by
  simp only [unread,hreading,State.consume]
  by_cases hsock : reading.sock = sock
  · subst hsock
    simp only [if_true,hgot,update_self,append_assoc]
    rw [← append_assoc (List.take _ _),take_append_drop]
  · simp [if_neg hsock,update_of_ne (Ne.symm hsock)]

@[simp] theorem consume_header (other : Sock) (count : Nat) :
    (state.consume other count).header = state.header := rfl

variable {got : List Byte}

theorem Inv.headerStep (hinv : Inv sock tag socks streams state)
    (hreading : state.reading = some reading) (hphase : reading.phase = .header got)
    (hwanted : got.length+count ≤ tcpHeaderSize)
    (harrived : count ≤ (state.arrived reading.sock).length)
    (hadmitted : reading.sock = sock → got.length+count = tcpHeaderSize →
      let header := got ++ (state.arrived sock).take count
      0 < (wordAt header 4).toNat ∧ (wordAt header 4).toNat ≤ intMax) :
    Inv sock tag socks streams (headerStep state reading got count) := by
  have hsound := hinv.reading reading hreading
  obtain ⟨front,rest,hsplit,hunread,hstream⟩ := hinv.account
  have hlen : (got ++ (state.arrived reading.sock).take count).length = got.length+count := by
    rw [length_append,length_take_of_le harrived]
  generalize hgot : got ++ (state.arrived reading.sock).take count = bytes at hlen
  have hheader : (memcpy state.header bytes).length = tcpHeaderSize := by
    rw [length_memcpy,hsound.header]
    rw [hsound.header,hlen]
    exact hwanted
  have hkeep : ∀ phase, phase.got (memcpy state.header bytes) = bytes → (∀ left, phase ≠ .peek left)
      →
      Inv sock tag socks streams { state.consume reading.sock count with
        header := memcpy state.header bytes, reading := some { reading with phase := phase } } := by
    intro phase hphaseGot hpeek
    refine Inv.of_same hinv ?_ ?_ hinv.queue rfl rfl hinv.dropq rfl
    · refine ⟨front,rest,hsplit,?_,hstream⟩
      rw [← hunread]
      apply unread_consume _ _ _ _ _ _ hreading
      rw [hphaseGot,← hgot,hphase,Phase.got]
    · intro other hsome
      rw [← some.inj hsome]
      exact ⟨hheader,hsound.named,hsound.behind,fun left hleft => absurd hleft (hpeek left)⟩
  simp only [Receive.headerStep,hgot]
  split
  · exact hkeep (.header bytes) rfl nofun
  · next hfull =>
    have hcomplete : bytes.length = tcpHeaderSize := by simpa using hfull
    have hwhole : memcpy state.header bytes = bytes := memcpy_of_length_eq (by rw [hsound.header,
        hcomplete])
    split
    · next hsize =>
      have hother : reading.sock ≠ sock := by
        intro hsame
        have hok := hadmitted hsame (hlen ▸ hcomplete)
        rw [← hsame,hgot] at hok
        rw [hwhole] at hsize
        omega
      refine Inv.of_same hinv ?_ ?_ hinv.queue rfl rfl hinv.dropq rfl
      · refine ⟨front,rest,hsplit,?_,hstream⟩
        simpa only [unread,hreading,if_neg hother,State.halt,State.consume,
          update_of_ne (Ne.symm hother)] using hunread
      · intro other hsome
        have hsame : some reading = some other := hreading.symm.trans hsome
        rw [← some.inj hsame]
        exact ⟨hheader,hsound.named,hsound.behind,hsound.peek⟩
    · exact hkeep (.payload []) (by rw [Phase.got,append_nil,hwhole]) nofun

theorem payloads_append (front : List Framed) (message : Framed) :
    payloads tag (front ++ [message]) =
      payloads tag front ++ if message.tag = tag then message.payload else [] := by
  unfold payloads
  rw [filter_append,flatMap_append]
  by_cases htag : message.tag = tag <;> simp [htag]

theorem frames_of_whole {header behind : List Byte} {rest : List Framed}
    (hheader : header.length = tcpHeaderSize) (hgot : got.length = (wordAt header 4).toNat)
    (hframes : header ++ got ++ behind = rest.flatMap Framed.frame) :
    ∃ message others, rest = message :: others ∧ message.tag = wordAt header 8 ∧
      message.payload = got ∧ behind = others.flatMap Framed.frame := by
  cases rest with
  | nil =>
    have hnil := congrArg List.length hframes
    simp only [length_append,hheader,flatMap_nil,length_nil,tcpHeaderSize] at hnil
    omega
  | cons message others =>
    rw [flatMap_cons,Framed.frame,append_assoc,append_assoc] at hframes
    obtain ⟨hhead,htail⟩ := append_inj hframes (by rw [hheader,length_fillTcpHeader])
    have hwords := wordAt_header (BitVec.ofNat 32 message.payload.length) message.tag []
    rw [append_nil,← hhead] at hwords
    have hsize : got.length = message.payload.length := by
      rw [hgot,hwords.2.1,BitVec.toNat_ofNat,Nat.mod_eq_of_lt message.fits]
    obtain ⟨hpayload,hbehind⟩ := append_inj htail hsize
    exact ⟨message,others,rfl,hwords.2.2.symm,hpayload.symm,hbehind⟩

theorem waiting_map_flushed (queue : List Inbound) (by_ : Sock) :
    waiting sock tag (queue.map fun data => { data with flushed := some by_ }) =
      waiting sock tag queue := by
  unfold waiting
  rw [flatMap_map]
  rfl

theorem recvMessage_eq {other : Sock} {word : Tag} {payload : List Byte}
    (hcb : config.callback tag = false) (hq : Queue sock tag next.complete)
    (hnamed : other ≠ anySource) (hword : word ≠ anyTag)
    (hflush : config.isServer = true → word = config.flushTag →
      config.callback config.flushTag = false →
      ∀ data ∈ next.complete, ¬(data.sock = sock ∧ data.tag = tag)) :
    ∃ queue, recvMessage config next other word payload = { next with complete := queue } ∧
      Queue sock tag queue ∧
      waiting sock tag queue = waiting sock tag next.complete ++
        if other = sock ∧ word = tag then payload else [] := by
  unfold recvMessage
  split
  · next hcall =>
    have hne : ¬(other = sock ∧ word = tag) := by
      rintro ⟨-,hsame⟩
      rw [hsame,hcb] at hcall
      exact Bool.noConfusion hcall
    exact ⟨next.complete,rfl,hq,by rw [if_neg hne,append_nil]⟩
  · next hcall =>
    obtain ⟨marked,hmarked,hmarkedQueue,hmarkedWaiting⟩ : ∃ marked,
        (if (config.isServer && word = config.flushTag) = true then flushQueue next other
          else next) = { next with complete := marked } ∧
        Queue sock tag marked ∧ waiting sock tag marked = waiting sock tag next.complete := by
      split
      · next hserver =>
        rw [Bool.and_eq_true,decide_eq_true_eq] at hserver
        refine ⟨_,rfl,?_,waiting_map_flushed _ _⟩
        intro data hmem
        obtain ⟨old,hold,rfl⟩ := mem_map.mp hmem
        refine ⟨(hq old hold).1,fun hsock htag => ?_⟩
        have hnone := hflush hserver.1 hserver.2 (by
          rw [← hserver.2]
          simpa using hcall) old hold
        exact absurd ⟨hsock,htag⟩ hnone
      · exact ⟨next.complete,rfl,hq,rfl⟩
    simp only [hmarked]
    refine ⟨_,rfl,?_,?_⟩
    · intro data hmem
      rcases mem_append.mp hmem with hold | hnew
      · exact hmarkedQueue data hold
      · rw [mem_singleton.mp hnew]
        exact ⟨⟨hnamed,hword⟩,fun _ _ => rfl⟩
    · rw [waiting_append,hmarkedWaiting]
      simp [waiting,Inbound.left]

theorem Inv.payloadStep (hinv : Inv sock tag socks streams state)
    (hreading : state.reading = some reading) (hphase : reading.phase = .payload got)
    (hcb : config.callback tag = false) (harrived : count ≤ (state.arrived reading.sock).length)
    (hadmitted : got.length+count = (wordAt state.header 4).toNat →
      wordAt state.header 8 ≠ anyTag ∧
        (config.isServer = true → wordAt state.header 8 = config.flushTag →
          config.callback config.flushTag = false →
          ∀ data ∈ state.complete, ¬(data.sock = sock ∧ data.tag = tag))) :
    Inv sock tag socks streams (payloadStep config state reading got count) := by
  have hsound := hinv.reading reading hreading
  obtain ⟨front,rest,hsplit,hunread,hstream⟩ := hinv.account
  have hlen : (got ++ (state.arrived reading.sock).take count).length = got.length+count := by
    rw [length_append,length_take_of_le harrived]
  generalize hgot : got ++ (state.arrived reading.sock).take count = bytes at hlen
  have hkeep : unread sock { state.consume reading.sock count with
      reading := some { reading with phase := .payload bytes } } = rest.flatMap Framed.frame := by
    rw [← hunread]
    apply unread_consume _ _ _ _ _ _ hreading
    rw [hphase,Phase.got,Phase.got,← hgot,append_assoc,consume_header]
  simp only [Receive.payloadStep,hgot,consume_header]
  split
  · refine Inv.of_same hinv ⟨front,rest,hsplit,hkeep,hstream⟩ ?_ hinv.queue rfl rfl hinv.dropq rfl
    intro other hsome
    rw [← some.inj hsome]
    exact ⟨hsound.header,hsound.named,hsound.behind,nofun⟩
  · next hfull =>
    have hcomplete : bytes.length = (wordAt state.header 4).toNat := by simpa using hfull
    obtain ⟨hword,hflush⟩ := hadmitted (hlen ▸ hcomplete)
    obtain ⟨queue,hrecv,hq,hwait⟩ :
        ∃ queue, recvMessage config (state.consume reading.sock count) reading.sock
            (wordAt state.header 8) bytes =
            { state.consume reading.sock count with complete := queue } ∧
          Queue sock tag queue ∧
          waiting sock tag queue = waiting sock tag state.complete ++
            if reading.sock = sock ∧ wordAt state.header 8 = tag then bytes else [] :=
      recvMessage_eq hcb hinv.queue hsound.named hword hflush
    rw [hrecv]
    refine inv_nextSock hinv hsound.behind hsound.header ?_ hq rfl rfl hinv.dropq rfl
    by_cases hsame : reading.sock = sock
    · have hframes : state.header ++ bytes ++
          ((state.consume reading.sock count).arrived sock ++ state.inflight sock) =
          rest.flatMap Framed.frame := by
        rw [← hkeep,unread]
        simp only [if_pos hsame,Phase.got,append_assoc]
        rfl
      obtain ⟨message,others,hrest,hmessageTag,hmessage,hbehind⟩ :=
        frames_of_whole hsound.header hcomplete hframes
      refine ⟨front ++ [message],others,?_,hbehind,?_⟩
      · rw [hsplit,hrest,append_assoc,singleton_append]
      · simp [hwait,← append_assoc,hstream,payloads_append,hmessageTag,hmessage,hsame]
    · have hskip : ¬(reading.sock = sock ∧ wordAt state.header 8 = tag) := fun h => hsame h.1
      refine ⟨front,rest,hsplit,?_,?_⟩
      · rw [← hkeep,unread]
        simp [if_neg hsame]
      · simp [hwait,if_neg hskip,hstream]

theorem Inv.answerStep {answer : Answer} {out : State} (hinv : Inv sock tag socks streams state)
    (hreading : state.reading = some reading) (hcb : config.callback tag = false)
    (hadmitted : AdmitsAnswer config sock tag state reading answer)
    (hout : answerStep config state reading answer = some out) :
    Inv sock tag socks streams out := by
  have hsound := hinv.reading reading hreading
  have hleave : ∀ next : State, next.arrived = state.arrived → next.inflight = state.inflight →
      next.header = state.header → next.complete = state.complete → next.posted = state.posted →
      next.order = state.order → next.polled = state.polled → sock ∉ next.dropq →
      (reading.sock = sock → reading.phase.got state.header = []) →
      Inv sock tag socks streams (nextSock next reading.behind) := by
    intro next harrived hinflight hheader hcomplete hpost horder hpolled hdropq hnone
    refine inv_nextSock hinv hsound.behind (hheader ▸ hsound.header) ?_ (hcomplete ▸ hinv.queue)
      hpost horder hdropq hpolled
    obtain ⟨front,rest,hsplit,hunread,hstream⟩ := hinv.account
    refine ⟨front,rest,hsplit,?_,hcomplete ▸ hstream⟩
    rw [← hunread,unread,hreading,harrived,hinflight]
    by_cases hsame : reading.sock = sock
    · simp [hsame,hnone hsame]
    · simp [hsame]
  cases answer with
  | got count =>
    simp only [Receive.answerStep] at hout
    split at hout
    · exact absurd hout (by simp)
    · next hcount =>
      have harrived : count ≤ (state.arrived reading.sock).length := by omega
      have hwanted : count ≤ reading.phase.wanted state.header := by omega
      cases hp : reading.phase with
      | peek comp =>
        simp only [hp,AdmitsAnswer,Phase.wanted] at hout hadmitted hwanted
        rw [← some.inj hout]
        exact hinv.peekStep hreading hp hwanted hadmitted
      | header got =>
        simp only [hp,AdmitsAnswer,Phase.wanted] at hout hadmitted hwanted
        rw [← some.inj hout]
        exact hinv.headerStep hreading hp (by omega) harrived hadmitted
      | payload got =>
        simp only [hp,AdmitsAnswer,Phase.wanted] at hout hadmitted hwanted
        rw [← some.inj hout]
        exact hinv.payloadStep hreading hp hcb harrived hadmitted
  | wouldBlock =>
    simp only [Receive.answerStep] at hout
    split at hout
    · exact absurd hout (by simp)
    cases hp : reading.phase with
    | peek comp =>
      simp only [hp] at hout
      rw [← some.inj hout]
      exact hleave state rfl rfl rfl rfl rfl rfl rfl hinv.dropq (fun _ => by rw [hp,Phase.got])
    | header got | payload got =>
      simp only [hp] at hout
      exact some.inj hout ▸ hinv
  | interrupted => exact some.inj hout ▸ hinv
  | failed hup =>
    rw [← some.inj hout]
    cases hup with
    | true =>
      have hother : reading.sock ≠ sock := hadmitted
      refine hleave _ rfl rfl rfl rfl rfl rfl rfl ?_ (fun hsame => absurd hsame hother)
      simp only [tcpDropConnection,mem_append,mem_singleton,not_or]
      exact ⟨hinv.dropq,Ne.symm hother⟩
    | false =>
      exact Inv.of_same hinv hinv.account hinv.reading hinv.queue rfl rfl hinv.dropq rfl

end Steps

end Hqemu.Net.Receive
