import Hqemu.Lib.Run
import Hqemu.Net.TraceServer

/-! What one client sees of the others. A handshake writes the variables every later translation and
reply reads, and binds addresses in the engine that translates for all. -/
namespace Hqemu.Net.Server

open Function Option Lib.Run Lib.Codec Net.Region

section Runs

variable {abi : Abi} (translate : Translator abi) (ticket : Ticket)

/-- The message is the client's: its handshake, or one with its ticket. -/
def Concerns (state : State abi) : Message abi → Prop
  | .sync _ handshake => ¬ (handshake.arch ≠ state.arch ∨ handshake.baseRegNo ≠ state.baseRegNo) ∧
      genTicket state.ticket = ticket
  | .trace request => request.ticket = ticket
  | .flush other => other = ticket

instance (state : State abi) (message : Message abi) :
    Decidable (Concerns ticket state message) :=
  match message with
  | .sync _ handshake => inferInstanceAs (Decidable (
      ¬ (handshake.arch ≠ state.arch ∨ handshake.baseRegNo ≠ state.baseRegNo) ∧
        genTicket state.ticket = ticket))
  | .trace request => inferInstanceAs (Decidable (request.ticket = ticket))
  | .flush other => inferInstanceAs (Decidable (other = ticket))

def answer (reply : Option (Reply abi)) : Message abi → List (List Byte)
  | .trace _ => (reply.map Reply.bytes).toList
  | _ => [encodeWord 4 ticket]

def own : State abi → List (Message abi) → List (Message abi)
  | _, [] => []
  | state, message :: rest =>
    match step translate state message with
    | none => []
    | some out =>
      if Concerns ticket state message then message :: own out.1 rest else own out.1 rest

def replies : State abi → List (Message abi) → List (List Byte)
  | _, [] => []
  | state, message :: rest =>
    match step translate state message with
    | none => []
    | some out =>
      if Concerns ticket state message then answer ticket out.2 message ++ replies out.1 rest
      else replies out.1 rest

/-- What the client gets from a server that hears of nobody else; it is given this ticket. -/
def alone : State abi → List (Message abi) → List (List Byte)
  | _, [] => []
  | state, message :: rest =>
    match step translate { state with ticket := ticket-1 } message with
    | none => []
    | some out => answer ticket out.2 message ++ alone out.1 rest

/-- The variables and the updates of the translator that the client's own handshakes make. -/
def heard (state : State abi) (left : Globals abi × List (Globals abi)) :
    Message abi → Globals abi × List (Globals abi)
  | .sync sock handshake =>
    if Concerns ticket state (.sync sock handshake) then
      (left.1.sync handshake,left.1.sync handshake :: left.2)
    else left
  | _ => left

def watched (state : State abi × Globals abi × List (Globals abi)) (message : Message abi) :
    Option (State abi × Globals abi × List (Globals abi)) :=
  (step translate state.1 message).map fun out => (out.1,heard ticket state.1 state.2 message)

/-- The client shares no program, and when it asks for a region the variables and the engine are as
its own handshakes leave them. -/
def Undisturbed (state : State abi × Globals abi × List (Globals abi)) : Message abi → Prop
  | .sync sock handshake =>
    Concerns ticket state.1 (.sync sock handshake) → handshake.program = none
  | .trace request => request.ticket = ticket → state.1.globals = state.2.1 ∧
      translate.engine state.1.updates = translate.engine state.2.2
  | .flush _ => True

end Runs

section Strip

variable {abi : Abi}

/-- Which `new` a region comes from is nothing a client can see. -/
def TranslatedCode.strip (tc : TranslatedCode abi) : TranslatedCode abi := { tc with serial := 0 }

def ClientData.strip (client : ClientData abi) : ClientData abi :=
  { client with remote := Option.map TranslatedCode.strip ∘ client.remote }

def Store.strip (store : Store abi) : Store abi :=
  { store with codeRegions := Option.map TranslatedCode.strip ∘ store.codeRegions }

variable (client : ClientData abi)

variable (store : Store abi)

theorem strip_setTrace (tc : TranslatedCode abi) :
    Prod.map ClientData.strip Store.strip (client.setTrace store tc) =
      client.strip.setTrace store.strip tc.strip := by
  simp only [ClientData.setTrace,ClientData.strip,Store.strip,comp_update,map_some,Prod.map]
  rfl

theorem strip_removeTrace (key : CodeKey abi) (tc : TranslatedCode abi) :
    Prod.map ClientData.strip Store.strip (client.removeTrace store key tc) =
      client.strip.removeTrace store.strip key tc.strip := by
  simp only [ClientData.removeTrace,ClientData.strip,Store.strip,comp_update,map_none,Prod.map]
  rfl

theorem strip_cacheTrace (key : CodeKey abi) (tc : TranslatedCode abi) :
    Prod.map ClientData.strip Store.strip (client.cacheTrace store key tc) =
      client.strip.cacheTrace store.strip key tc.strip := by
  have hflag : store.strip.traceProfile[tc.strip.id]? = store.traceProfile[tc.id]? := rfl
  unfold ClientData.cacheTrace
  rw [hflag]
  split
  · simp only [ClientData.strip,Store.strip,comp_update,map_some,Prod.map]
    rfl
  · rfl

theorem strip_reset (size : Nat) :
    Prod.map ClientData.strip Store.strip (client.reset size store) =
      client.strip.reset size store.strip := rfl

theorem lookup_strip (request : Request abi) :
    lookup store.strip request = (lookup store request).map TranslatedCode.strip := by
  unfold lookup
  split <;> rfl

theorem describe_strip (tc : TranslatedCode abi) (basic : Bool) :
    describe client.strip tc.strip basic = describe client tc basic := by
  have hexec : describeExec client.strip tc.strip = describeExec client tc := by
    funext chain
    simp [describeExec,ClientData.strip,TranslatedCode.strip]
  simp only [describe,hexec]
  rfl

theorem bytes_strip (globals : Globals abi) (client : ClientData abi) (tc : TranslatedCode abi)
    (request : Request abi) :
    (sendTraceEmitted globals client.strip tc.strip request).bytes =
      (sendTraceEmitted globals client tc request).bytes := by
  simp [Reply.bytes,sendTraceEmitted,describe_strip]

variable {client' : ClientData abi}

theorem bytes_alike {globals globals' : Globals abi} {client : ClientData abi}
    {tc tc' : TranslatedCode abi} (request : Request abi) (hglobals : globals = globals')
    (hclient : client.strip = client'.strip) (htc : tc.strip = tc'.strip) :
    (sendTraceEmitted globals client tc request).bytes =
      (sendTraceEmitted globals' client' tc' request).bytes := by
  rw [← bytes_strip,← bytes_strip globals',hclient,htc,hglobals]

structure Outcome (state : State abi) (ticket : Ticket) (out : State abi × Option (Reply abi))
    (client : ClientData abi) (store : Store abi) (bytes : Option (List Byte)) : Prop where
  state : ∃ serial, out.1 = { state.put ticket client store with serial := serial }
  bytes : out.2.map Reply.bytes = bytes

theorem generate_alike {translate : Translator abi} {state lone : State abi}
    {client : ClientData abi} {store store' : Store abi} (request : Request abi)
    (hglobals : state.globals = lone.globals)
    (hengine : translate.engine state.updates = translate.engine lone.updates) (hclient :
        client.strip = client'.strip)
    (hstore : store.strip = store'.strip) :
    ∃ next next' after after' bytes,
      Outcome state request.ticket (generate translate state client store request) next after
        bytes ∧
      Outcome lone request.ticket (generate translate lone client' store' request) next' after'
        bytes ∧ next.strip = next'.strip ∧ after.strip = after'.strip ∧
      next.program = client.program := by
  obtain ⟨hprof,hpoints⟩ : store.traceProfile = store'.traceProfile ∧
      store.chainPoints = store'.chainPoints := by
    have hprof : store.strip.traceProfile = store'.strip.traceProfile := by rw [hstore]
    have hpoints : store.strip.chainPoints = store'.strip.chainPoints := by rw [hstore]
    exact ⟨hprof,hpoints⟩
  have hpoint : ∀ chainPoints, Store.strip { store with chainPoints := chainPoints } =
      Store.strip { store' with chainPoints := chainPoints } := fun chainPoints =>
    congrArg (fun stripped : Store abi => { stripped with chainPoints := chainPoints }) hstore
  have htranslate : translate.trace lone store' request = translate.trace state store request := by
    rw [Translator.trace,Translator.trace,hglobals,hengine,hprof,hpoints]
  unfold generate
  rw [htranslate]
  cases translate.trace state store request with
  | mk code chainPoints =>
    cases code with
    | none => exact ⟨client,client',_,_,none,⟨⟨_,rfl⟩,rfl⟩,⟨⟨_,rfl⟩,rfl⟩,hclient,
        hpoint chainPoints,rfl⟩
    | some code =>
      have hnew : (newTrace translate state store request code).strip =
          (newTrace translate lone store' request code).strip := by
        simp [newTrace,TranslatedCode.strip,hprof]
      have hset := strip_setTrace client { store with chainPoints := chainPoints }
        (newTrace translate state store request code)
      rw [hclient,hpoint chainPoints,hnew,← strip_setTrace] at hset
      have hnext := congrArg Prod.fst hset
      exact ⟨_,_,_,_,_,⟨⟨_,rfl⟩,rfl⟩,
        ⟨⟨_,rfl⟩,congrArg some (bytes_alike request hglobals hnext hnew).symm⟩,hnext,
        congrArg Prod.snd hset,rfl⟩

theorem processTrace_alike (translate : Translator abi) {state lone : State abi}
    {client : ClientData abi} {store store' : Store abi} (request : Request abi)
    (hglobals : state.globals = lone.globals)
    (hengine : translate.engine state.updates = translate.engine lone.updates) (hclient :
        client.strip = client'.strip)
    (hstore : store.strip = store'.strip) :
    ∃ next next' after after' bytes,
      Outcome state request.ticket (processTrace translate state client store request) next after
        bytes ∧
      Outcome lone request.ticket (processTrace translate lone client' store' request) next' after'
        bytes ∧ next.strip = next'.strip ∧ after.strip = after'.strip ∧
      next.program = client.program := by
  have hlook : (lookup store request).map TranslatedCode.strip =
      (lookup store' request).map TranslatedCode.strip := by
    rw [← lookup_strip,← lookup_strip,hstore]
  unfold processTrace
  cases htc : lookup store request with
  | none =>
    rw [htc,map_none,eq_comm,map_eq_none_iff] at hlook
    rw [hlook]
    exact generate_alike request hglobals hengine hclient hstore
  | some tc =>
    rw [htc,map_some,eq_comm,map_eq_some_iff] at hlook
    obtain ⟨tc',htc',hstrip⟩ := hlook
    rw [htc']
    have hcount : tc'.strip.count = tc.strip.count := by rw [hstrip]
    simp only [TranslatedCode.strip] at hcount
    simp only [hcount]
    split
    · have hremove := strip_removeTrace client store request.key tc
      rw [hclient,hstore,← hstrip,← strip_removeTrace] at hremove
      exact generate_alike request hglobals hengine (congrArg Prod.fst hremove) (congrArg Prod.snd
          hremove)
    · have hcache := strip_cacheTrace client store request.key tc
      rw [hclient,hstore,← hstrip,← strip_cacheTrace] at hcache
      have hnext := congrArg Prod.fst hcache
      refine ⟨_,_,_,_,_,⟨⟨_,rfl⟩,rfl⟩,
        ⟨⟨_,rfl⟩,congrArg some (bytes_alike request hglobals hnext hstrip.symm).symm⟩,hnext,
        congrArg Prod.snd hcache,?_⟩
      unfold ClientData.cacheTrace
      split <;> rfl

end Strip

section Alike

variable {abi : Abi} {translate : Translator abi} {ticket : Ticket} {state lone : State abi}
  {left : Globals abi × List (Globals abi)}

structure Alike (ticket : Ticket) (state lone : State abi)
    (left : Globals abi × List (Globals abi)) : Prop where
  arch : state.arch = lone.arch
  baseRegNo : state.baseRegNo = lone.baseRegNo
  globals : lone.globals = left.1
  updates : lone.updates = left.2
  client : (state.clients ticket).map ClientData.strip = (lone.clients ticket).map ClientData.strip
  store : (state.stores (.client ticket)).strip = (lone.stores (.client ticket)).strip
  program : ∀ client, state.clients ticket = some client → client.program = none

theorem Alike.put {next next' : ClientData abi} {after after' : Store abi}
    (halike : Alike ticket state lone left) (hnext : next.strip = next'.strip)
    (hafter : after.strip = after'.strip) (hprogram : next.program = none) (serial serial' : Nat)
    (counter : Ticket) :
    Alike ticket { state.put ticket next after with serial := serial }
      { ({ lone with ticket := counter } : State abi).put ticket next' after' with
        serial := serial' } left where
  arch := halike.arch
  baseRegNo := halike.baseRegNo
  globals := halike.globals
  updates := halike.updates
  client := by
    simp [State.put,hnext]
  store := by
    have hprogram' : next'.strip.program = none := by rw [← hnext]; exact hprogram
    simp [State.put,owner_of_none hprogram,owner_of_none (show next'.program = none from
      hprogram'),hafter]
  program client hclient := by
    simp only [State.put,update_self] at hclient
    cases hclient
    exact hprogram

theorem Alike.put_other {other : Ticket} {next : ClientData abi} {after : Store abi}
    (halike : Alike ticket state lone left) (hother : other ≠ ticket) (serial : Nat) :
    Alike ticket { state.put other next after with serial := serial } lone left := by
  have howner : Owner.client ticket ≠ next.owner other := fun h => hother (owner_eq_client h.symm).2
  refine ⟨halike.arch,halike.baseRegNo,halike.globals,halike.updates,?_,?_,?_⟩
  · simp only [State.put,update_of_ne hother.symm]
    exact halike.client
  · simp only [State.put,update_of_ne howner]
    exact halike.store
  · simp only [State.put,update_of_ne hother.symm]
    exact halike.program

theorem genTicket_pred (ticket : Ticket) (hticket : ticket ≠ invalidTicket) :
    genTicket (ticket-1) = ticket := by
  rw [genTicket,BitVec.sub_add_cancel,if_neg hticket]

theorem genTicket_ne (ticket : Ticket) : genTicket ticket ≠ invalidTicket := by
  unfold genTicket invalidTicket
  split <;> bv_omega

theorem Alike.sync_other {sock : Sock} {handshake : Handshake abi}
    (halike : Alike ticket state lone left) (hother : ¬ Concerns ticket state (.sync sock
        handshake)) :
    Alike ticket (sync state sock handshake) lone left := by
  unfold sync
  split
  · exact halike
  · next haccept =>
    have hticket : ticket ≠ genTicket state.ticket := fun h => hother ⟨haccept,h.symm⟩
    have howner : Owner.client ticket ≠ Owner.client (genTicket state.ticket) :=
      fun h => hticket (Owner.client.inj h)
    refine ⟨halike.arch,halike.baseRegNo,halike.globals,halike.updates,?_,?_,?_⟩
    · simp only [update_of_ne hticket]
      exact halike.client
    · simp only [update_of_ne howner]
      exact halike.store
    · simp only [update_of_ne hticket]
      exact halike.program

theorem Alike.sync_own {sock : Sock} {handshake : Handshake abi}
    (halike : Alike ticket state lone left)
    (hown : Concerns ticket state (.sync sock handshake)) (hprogram : handshake.program = none) :
    Alike ticket (sync state sock handshake)
      (sync { lone with ticket := ticket-1 } sock handshake)
      (left.1.sync handshake,left.1.sync handshake :: left.2) := by
  obtain ⟨haccept,hticket⟩ := hown
  have hpred := genTicket_pred ticket (hticket ▸ genTicket_ne state.ticket)
  unfold sync
  rw [if_neg haccept,if_neg (by simpa only [← halike.arch,← halike.baseRegNo] using haccept)]
  simp only [hticket,hpred]
  refine ⟨halike.arch,halike.baseRegNo,by rw [halike.globals],by rw [halike.globals,halike.updates],
      ?_,?_,?_⟩
  · simp
  · simp
  · simp only [update_self]
    rintro client ⟨⟩
    exact hprogram

variable {message : Message abi}

theorem Alike.step_other {out : State abi × Option (Reply abi)}
    (halike : Alike ticket state lone left) (hother : ¬ Concerns ticket state message)
    (hs : step translate state message = some out) : Alike ticket out.1 lone left := by
  cases message with
  | sync sock handshake =>
    rw [← some.inj hs]
    exact halike.sync_other hother
  | trace request =>
    obtain ⟨client,-,rfl⟩ := map_eq_some_iff.mp hs
    obtain ⟨next,-,after,-,-,⟨⟨serial,hnext⟩,-⟩,-⟩ :=
      processTrace_alike translate request (Eq.refl state.globals)
        (Eq.refl (translate.engine state.updates)) (Eq.refl client.strip)
        (Eq.refl (state.stores (client.owner request.ticket)).strip)
    rw [hnext]
    exact halike.put_other hother serial
  | flush other =>
    obtain ⟨client,-,rfl⟩ := map_eq_some_iff.mp hs
    exact halike.put_other hother state.serial

theorem heard_other (hother : ¬ Concerns ticket state message) :
    heard ticket state left message = left := by
  cases message with
  | sync sock handshake => rw [heard,if_neg hother]
  | trace request => rfl
  | flush other => rfl

theorem Alike.find {client : ClientData abi} (halike : Alike ticket state lone left)
    (hclient : state.clients ticket = some client) :
    ∃ client', lone.clients ticket = some client' ∧ client.strip = client'.strip ∧
      client.owner ticket = Owner.client ticket ∧ client'.owner ticket = Owner.client ticket := by
  have hlone := halike.client
  rw [hclient,map_some,eq_comm,map_eq_some_iff] at hlone
  obtain ⟨client',hclient',hstrip⟩ := hlone
  have hprogram := halike.program client hclient
  have hprogram' : client'.strip.program = none := by rw [hstrip]; exact hprogram
  exact ⟨client',hclient',hstrip.symm,owner_of_none hprogram,owner_of_none hprogram'⟩

theorem Alike.step_own {out : State abi × Option (Reply abi)} (halike : Alike ticket state lone
    left)
    (hown : Concerns ticket state message) (hcalm : Undisturbed translate ticket (state,left)
        message)
    (hs : step translate state message = some out) :
    ∃ out', step translate { lone with ticket := ticket-1 } message = some out' ∧
      answer ticket out.2 message = answer ticket out'.2 message ∧
      Alike ticket out.1 out'.1 (heard ticket state left message) := by
  cases message with
  | sync sock handshake =>
    rw [← some.inj hs,heard,if_pos hown]
    exact ⟨_,rfl,rfl,halike.sync_own hown (hcalm hown)⟩
  | trace request =>
    obtain ⟨client,hclient,rfl⟩ := map_eq_some_iff.mp hs
    cases hown
    obtain ⟨client',hclient',hstrip,howner,howner'⟩ := halike.find hclient
    have hglobals : state.globals = ({ lone with ticket := request.ticket-1 } : State
        abi).globals :=
      (hcalm rfl).1.trans halike.globals.symm
    have hengine : translate.engine state.updates = translate.engine lone.updates := by
      rw [(hcalm rfl).2,halike.updates]
    have hstore : (state.stores (client.owner request.ticket)).strip =
        (lone.stores (client'.owner request.ticket)).strip := by
      rw [howner,howner']
      exact halike.store
    obtain ⟨next,next',after,after',bytes,⟨⟨serial,hnext⟩,hbytes⟩,
      ⟨⟨serial',hnext'⟩,hbytes'⟩,hsame,hafter,hkeep⟩ :=
      processTrace_alike translate request hglobals hengine hstrip hstore
    refine ⟨_,by rw [step,hclient',map_some],?_,?_⟩
    · rw [answer,hbytes,answer,hbytes']
    · rw [hnext,hnext']
      exact halike.put hsame hafter (hkeep.trans (halike.program client hclient)) serial serial' _
  | flush other =>
    obtain ⟨client,hclient,rfl⟩ := map_eq_some_iff.mp hs
    cases hown
    obtain ⟨client',hclient',hstrip,howner,howner'⟩ := halike.find hclient
    have hsize : (state.stores (.client ticket)).strip.traceProfile.length =
        (lone.stores (.client ticket)).strip.traceProfile.length := by rw [halike.store]
    have hreset : Prod.map ClientData.strip Store.strip
        (client.reset (state.stores (.client ticket)).strip.traceProfile.length
          (state.stores (.client ticket))) =
        Prod.map ClientData.strip Store.strip
          (client'.reset (lone.stores (.client ticket)).strip.traceProfile.length
            (lone.stores (.client ticket))) := by
      rw [strip_reset,strip_reset,hstrip,hsize,halike.store]
    refine ⟨(processFlush { lone with ticket := ticket-1 } ticket client',none),
      by rw [step,hclient',map_some],rfl,?_⟩
    simp only [processFlush,howner,howner',heard]
    exact halike.put (congrArg Prod.fst hreset) (congrArg Prod.snd hreset)
      (halike.program client hclient) state.serial lone.serial (ticket-1)

theorem replies_of_alike {messages : List (Message abi)} (halike : Alike ticket state lone left)
    (hmeets : Meets (watched translate ticket) (Undisturbed translate ticket) (state,left) messages)
        :
    replies translate ticket state messages =
      alone translate ticket lone (own translate ticket state messages) := by
  induction messages generalizing state lone left with
  | nil => rfl
  | cons message rest ih =>
    rw [replies,own]
    cases hs : step translate state message with
    | none => rfl
    | some out =>
      obtain ⟨hcalm,hrest⟩ := hmeets _ (by rw [watched,hs,map_some])
      simp only
      by_cases hown : Concerns ticket state message
      · obtain ⟨out',hstep',hans,hnext⟩ := halike.step_own hown hcalm hs
        rw [if_pos hown,if_pos hown,alone,hstep']
        exact congrArg₂ (· ++ ·) hans (ih hnext hrest)
      · rw [heard_other hown] at hrest
        rw [if_neg hown,if_neg hown]
        exact ih (halike.step_other hown hs) hrest

end Alike

/-- In a run in which the client is undisturbed, it is sent what its own messages get from a
server that hears of nobody else. -/
theorem replies_eq_alone {abi : Abi} (translate : Translator abi) (arch baseRegNo : BitVec 32)
    (globals : Globals abi) (ticket : Ticket) (messages : List (Message abi))
    (hmeets : Meets (watched translate ticket) (Undisturbed translate ticket)
      (init arch baseRegNo globals, globals, []) messages) :
    replies translate ticket (init arch baseRegNo globals) messages =
      alone translate ticket (init arch baseRegNo globals)
        (own translate ticket (init arch baseRegNo globals) messages) :=
  replies_of_alike ⟨rfl,rfl,rfl,rfl,rfl,rfl,nofun⟩ hmeets

def symbolHandshake : Handshake sampleAbi :=
  { sampleHandshake 0 none with nestedFunc := [(0x400,[0x66])] }

theorem symbols_bound_again :
    exitTranslator.engine [sampleGlobals.sync symbolHandshake,sampleGlobals.sync symbolHandshake] =
      exitTranslator.engine [sampleGlobals.sync symbolHandshake] :=
  @update_idem Name _ (fun _ => Option (HostWord sampleAbi)) [0x66] (some 0x400) (some 0x400)
    fun _ => none

/-- Two clients with the same symbols, one after the other. -/
theorem second_undisturbed :
    replies exitTranslator 2 (init 0 0 sampleGlobals)
        [.sync 5 symbolHandshake, .sync 6 symbolHandshake, .trace (oneBlock 1),
          .trace (twoBlocks 2)] =
      alone exitTranslator 2 (init 0 0 sampleGlobals)
        [.sync 6 symbolHandshake, .trace (twoBlocks 2)] :=
  replies_eq_alone exitTranslator 0 0 sampleGlobals 2 _
    (meets_cons rfl (fun hown => absurd hown (by decide)) (meets_cons rfl (fun _ => rfl)
      (meets_cons rfl (fun hown => absurd hown (by decide))
        (meets_cons rfl (fun _ => ⟨rfl,symbols_bound_again⟩) trivial))))

/-- The same request in two runs; in the second, another client has come with a profile mode. -/
theorem profile_mode_leaks :
    own exitTranslator 1 (init 0 0 sampleGlobals)
        [.sync 5 (sampleHandshake 0 none), .sync 6 (sampleHandshake 1 none), .trace (oneBlock 1)] =
      [.sync 5 (sampleHandshake 0 none), .trace (oneBlock 1)] ∧
    (replies exitTranslator 1 (init 0 0 sampleGlobals)
        [.sync 5 (sampleHandshake 0 none), .trace (oneBlock 1)]).map List.length = [4, 93] ∧
    (replies exitTranslator 1 (init 0 0 sampleGlobals)
        [.sync 5 (sampleHandshake 0 none), .sync 6 (sampleHandshake 1 none),
          .trace (oneBlock 1)]).map List.length = [4, 111] := by
  refine ⟨rfl,?_,?_⟩ <;> decide

end Hqemu.Net.Server
