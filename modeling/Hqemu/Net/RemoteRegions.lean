import Hqemu.Lib.Run
import Hqemu.Net.TraceServer

/-! `RemoteCodeRegions` against what a client was sent. The flag `Cached` is the client's own unless
it shares the regions of its program. -/
namespace Hqemu.Net.Server

open Function List Option Lib.Run Net.Region

section Held

variable {abi : Abi}

inductive Event (abi : Abi) where
  | joined (ticket : Ticket)
  | sent (ticket : Ticket) (tc : TranslatedCode abi)
  | removed (tc : TranslatedCode abi)
  | flushed (ticket : Ticket)

/-- The regions of a client after an event; one region of a key replaces another. -/
def Event.apply (ticket : Ticket) (held : CodeKey abi → Option (TranslatedCode abi)) :
    Event abi → CodeKey abi → Option (TranslatedCode abi)
  | .joined other => if other = ticket then fun _ => none else held
  | .sent other tc => if other = ticket then Function.update held tc.key (some tc) else held
  | .removed tc => fun key => (held key).filter fun old => old.serial ≠ tc.serial
  | .flushed other => if other = ticket then fun _ => none else held

def held (ticket : Ticket) (log : List (Event abi)) : CodeKey abi → Option (TranslatedCode abi) :=
  log.foldl (Event.apply ticket) fun _ => none

def outgrown (store : Store abi) (request : Request abi) : Option (TranslatedCode abi) :=
  (lookup store request).filter fun tc => tc.count < request.count

def events (state : State abi) (reply : Option (Reply abi)) : Message abi → List (Event abi)
  | .sync _ handshake =>
    if handshake.arch ≠ state.arch ∨ handshake.baseRegNo ≠ state.baseRegNo then []
    else [.joined (genTicket state.ticket)]
  | .trace request =>
    (((state.clients request.ticket).bind fun client =>
      outgrown (state.stores (client.owner request.ticket)) request).map Event.removed).toList ++
    (reply.map fun reply => Event.sent request.ticket reply.region).toList
  | .flush ticket => [.flushed ticket]

def logged (translate : Translator abi) (state : State abi × List (Event abi))
    (message : Message abi) : Option (State abi × List (Event abi)) :=
  (step translate state.1 message).map fun out =>
    (out.1,state.2 ++ events state.1 out.2 message)

def Exact (state : State abi × List (Event abi)) : Prop :=
  ∀ ticket client, state.1.clients ticket = some client → client.remote = held ticket state.2

/-- A region from the cache is marked as cached only if this client has it. A removed region is no
other client's, and takes none of this client with it unless a new one comes in its place. -/
def Settled (translate : Translator abi) (state : State abi) (client : ClientData abi)
    (request : Request abi) : Prop :=
  ∀ tc, lookup (state.stores (client.owner request.ticket)) request = some tc →
    (request.count ≤ tc.count →
      (state.stores (client.owner request.ticket)).traceProfile[tc.id]? = some false ∨
        client.remote request.key = some tc) ∧
    (tc.count < request.count →
      (∀ ticket other, ticket ≠ request.ticket → state.clients ticket = some other →
        other.remote request.key ≠ some tc) ∧
      (client.remote request.key = none ∨ client.remote request.key = some tc ∨
        (translate.trace state (state.stores (client.owner request.ticket)) request).1.isSome))

/-- The requests of clients that share the regions of a program find them as they need them. -/
def Agrees (translate : Translator abi) (state : State abi × List (Event abi))
    (message : Message abi) : Prop :=
  ∀ request client, message = .trace request → state.1.clients request.ticket = some client →
    client.program ≠ none → Settled translate state.1 client request

end Held

section Inv

variable {abi : Abi}

abbrev Heap (abi : Abi) := List (Owner × TranslatedCode abi)

structure Filed (heap : Heap abi) (owner : Owner) (store : Store abi) : Prop where
  region : ∀ key tc, store.codeRegions key = some tc →
    heap[tc.serial]? = some (owner,tc) ∧ tc.key = key ∧ tc.id < store.traceProfile.length
  ids : ∀ key tc other old, store.codeRegions key = some tc → store.codeRegions other = some old →
    tc.id = old.id → key = other

structure Kept (heap : Heap abi) (owner : Owner) (client : ClientData abi) (store : Store abi) :
    Prop where
  remote : ∀ key tc, client.remote key = some tc → heap[tc.serial]? = some (owner,tc) ∧ tc.key = key
  own : client.program = none → ∀ key tc, client.remote key = some tc →
    store.codeRegions key = some tc
  flag : client.program = none → ∀ key tc, store.codeRegions key = some tc →
    (store.traceProfile[tc.id]? = some true ↔ client.remote key = some tc)

structure Inv (heap : Heap abi) (state : State abi) : Prop where
  serial : heap.length = state.serial
  filed : ∀ owner, Filed heap owner (state.stores owner)
  kept : ∀ ticket client, state.clients ticket = some client →
    Kept heap (client.owner ticket) client (state.stores (client.owner ticket))

variable {heap : Heap abi} {owner : Owner} {client : ClientData abi} {store : Store abi}

theorem getElem?_append_mono {i : Nat} {entry last : Owner × TranslatedCode abi}
    (hget : heap[i]? = some entry) : (heap ++ [last])[i]? = some entry := by
  rw [List.getElem?_append_left (List.getElem?_eq_some_iff.mp hget).1,hget]

theorem Filed.mono (hfiled : Filed heap owner store) (last : Owner × TranslatedCode abi) :
    Filed (heap ++ [last]) owner store where
  region key tc htc := by
    obtain ⟨hget,hrest⟩ := hfiled.region key tc htc
    exact ⟨getElem?_append_mono hget,hrest⟩
  ids := hfiled.ids

theorem Kept.mono (hkeep : Kept heap owner client store) (last : Owner × TranslatedCode abi) :
    Kept (heap ++ [last]) owner client store where
  remote key tc htc := by
    obtain ⟨hget,hkey⟩ := hkeep.remote key tc htc
    exact ⟨getElem?_append_mono hget,hkey⟩
  own := hkeep.own
  flag := hkeep.flag

variable {key other : CodeKey abi} {tc : TranslatedCode abi}

theorem update_none_eq_some {map : CodeKey abi → Option (TranslatedCode abi)}
    (h : update map key none other = some tc) : other ≠ key ∧ map other = some tc := by
  rw [update_apply,ite_eq_iff] at h
  exact h.resolve_left fun hnone => nomatch hnone.2

theorem update_some_eq_some {map : CodeKey abi → Option (TranslatedCode abi)}
    {old : TranslatedCode abi} (h : update map key (some tc) other = some old) :
    (other = key ∧ old = tc) ∨ (other ≠ key ∧ map other = some old) := by
  rw [update_apply,ite_eq_iff] at h
  exact h.imp_left fun hnew => ⟨hnew.1,(some.inj hnew.2).symm⟩

theorem Filed.removeTrace (hfiled : Filed heap owner store) (client : ClientData abi)
    (key : CodeKey abi) (tc : TranslatedCode abi) :
    Filed heap owner (client.removeTrace store key tc).2 where
  region other old hold := by
    obtain ⟨-,hold⟩ := update_none_eq_some hold
    obtain ⟨hget,hkey,hid⟩ := hfiled.region other old hold
    exact ⟨hget,hkey,by simpa [ClientData.removeTrace] using hid⟩
  ids other old another tc' hold htc' :=
    hfiled.ids other old another tc' (update_none_eq_some hold).2 (update_none_eq_some htc').2

theorem flag_set {old : TranslatedCode abi} (hfiled : Filed heap owner store)
    (htc : store.codeRegions key = some tc) (hold : store.codeRegions other = some old)
    (hne : other ≠ key) (cached : Bool) :
    (store.traceProfile.set tc.id cached)[old.id]? = store.traceProfile[old.id]? := by
  apply List.getElem?_set_ne
  intro hid
  exact hne (hfiled.ids other old key tc hold htc hid.symm)

theorem Kept.removeTrace (hkeep : Kept heap owner client store) (hfiled : Filed heap owner store)
    (htc : store.codeRegions key = some tc) :
    Kept heap owner (client.removeTrace store key tc).1 (client.removeTrace store key tc).2 where
  remote other old hold := hkeep.remote other old (update_none_eq_some hold).2
  own hprogram other old hold := by
    obtain ⟨hne,hold⟩ := update_none_eq_some hold
    rw [← hkeep.own hprogram other old hold]
    exact update_of_ne hne _ _
  flag hprogram other old hold := by
    obtain ⟨hne,hold⟩ := update_none_eq_some hold
    simp only [ClientData.removeTrace,flag_set hfiled htc hold hne,update_of_ne hne]
    exact hkeep.flag hprogram other old hold

theorem Filed.cacheTrace (hfiled : Filed heap owner store) (client : ClientData abi)
    (key : CodeKey abi) (tc : TranslatedCode abi) :
    Filed heap owner (client.cacheTrace store key tc).2 := by
  unfold ClientData.cacheTrace
  split
  · refine ⟨fun other old hold => ?_,hfiled.ids⟩
    obtain ⟨hget,hkey,hid⟩ := hfiled.region other old hold
    exact ⟨hget,hkey,by simpa using hid⟩
  · exact hfiled

theorem Kept.cacheTrace (hkeep : Kept heap owner client store) (hfiled : Filed heap owner store)
    (htc : store.codeRegions key = some tc) :
    Kept heap owner (client.cacheTrace store key tc).1 (client.cacheTrace store key tc).2 := by
  obtain ⟨hget,hkey,hid⟩ := hfiled.region key tc htc
  unfold ClientData.cacheTrace
  split
  · constructor
    · intro other old hold
      rcases update_some_eq_some hold with ⟨rfl,rfl⟩ | ⟨-,hold⟩
      · exact ⟨hget,hkey⟩
      · exact hkeep.remote other old hold
    · intro hprogram other old hold
      rcases update_some_eq_some hold with ⟨rfl,rfl⟩ | ⟨-,hold⟩
      · exact htc
      · exact hkeep.own hprogram other old hold
    · intro hprogram other old hold
      by_cases hne : other = key
      · subst hne
        cases hold.symm.trans htc
        simp [hid]
      · simp only [flag_set hfiled htc hold hne,update_of_ne hne]
        exact hkeep.flag hprogram other old hold
  · exact hkeep

theorem Filed.setTrace (hfiled : Filed heap owner store) (client : ClientData abi)
    (hserial : tc.serial = heap.length) (hid : tc.id = store.traceProfile.length) :
    Filed (heap ++ [(owner,tc)]) owner (client.setTrace store tc).2 where
  region other old hold := by
    simp only [ClientData.setTrace,length_append,length_singleton] at hold ⊢
    rcases update_some_eq_some hold with ⟨rfl,rfl⟩ | ⟨-,hold⟩
    · exact ⟨by rw [hserial,List.getElem?_concat_length],rfl,by omega⟩
    · obtain ⟨hget,hkey,hlt⟩ := hfiled.region other old hold
      exact ⟨getElem?_append_mono hget,hkey,by omega⟩
  ids other old another tc' hold htc' heq := by
    rcases update_some_eq_some hold with ⟨rfl,rfl⟩ | ⟨-,hold⟩
    · rcases update_some_eq_some htc' with ⟨rfl,rfl⟩ | ⟨-,htc'⟩
      · rfl
      · have hlt := (hfiled.region another tc' htc').2.2
        omega
    · have hlt := (hfiled.region other old hold).2.2
      rcases update_some_eq_some htc' with ⟨rfl,rfl⟩ | ⟨-,htc'⟩
      · omega
      · exact hfiled.ids other old another tc' hold htc' heq

theorem Kept.setTrace (hkeep : Kept heap owner client store) (hfiled : Filed heap owner store)
    (hserial : tc.serial = heap.length) (hid : tc.id = store.traceProfile.length) :
    Kept (heap ++ [(owner,tc)]) owner (client.setTrace store tc).1 (client.setTrace store tc).2
        where
  remote other old hold := by
    rcases update_some_eq_some hold with ⟨rfl,rfl⟩ | ⟨-,hold⟩
    · exact ⟨by rw [hserial,List.getElem?_concat_length],rfl⟩
    · exact (hkeep.mono _).remote other old hold
  own hprogram other old hold := by
    rcases update_some_eq_some hold with ⟨rfl,rfl⟩ | ⟨hne,hold⟩
    · exact update_self _ _ _
    · rw [← hkeep.own hprogram other old hold]
      exact update_of_ne hne _ _
  flag hprogram other old hold := by
    rcases update_some_eq_some hold with ⟨rfl,rfl⟩ | ⟨hne,hold⟩
    · simp [ClientData.setTrace,hid]
    have hlt := (hfiled.region other old hold).2.2
    simp only [ClientData.setTrace,update_of_ne hne,List.getElem?_append_left hlt]
    exact hkeep.flag hprogram other old hold

theorem Filed.reset (hfiled : Filed heap owner store) (client : ClientData abi) (own : Nat) :
    Filed heap owner (client.reset own store).2 where
  region key tc htc := by
    obtain ⟨hget,hkey,hid⟩ := hfiled.region key tc htc
    exact ⟨hget,hkey,by simpa [ClientData.reset] using hid⟩
  ids := hfiled.ids

theorem Kept.reset {own : Nat} (hfiled : Filed heap owner store)
    (hown : client.program = none → own = store.traceProfile.length) :
    Kept heap owner (client.reset own store).1 (client.reset own store).2 where
  remote _ _ h := nomatch h
  own _ _ _ h := nomatch h
  flag hprogram key tc htc := by
    have hid := (hfiled.region key tc htc).2.2
    simp [ClientData.reset,hown hprogram,hid]

theorem Kept.share {other : Store abi} (hkeep : Kept heap owner client store)
    (hprogram : client.program ≠ none) : Kept heap owner client other where
  remote := hkeep.remote
  own h := absurd h hprogram
  flag h := absurd h hprogram

theorem inv_put {state : State abi} {ticket : Ticket} {serial : Nat}
    (hserial : heap.length = serial) (hfiled : ∀ owner, Filed heap owner (state.stores owner))
    (hkeep : ∀ ticket client, state.clients ticket = some client →
      Kept heap (client.owner ticket) client (state.stores (client.owner ticket)))
    (hstore : Filed heap (client.owner ticket) store)
    (hclient : Kept heap (client.owner ticket) client store) :
    Inv heap { state.put ticket client store with serial := serial } where
  serial := hserial
  filed := (forall_update_iff _ fun owner store => Filed heap owner store).mpr
    ⟨hstore,fun owner _ => hfiled owner⟩
  kept ticket' other hother := by
    simp only [State.put] at hother ⊢
    by_cases hticket : ticket' = ticket
    · subst hticket
      rw [update_self] at hother
      cases hother
      rw [update_self]
      exact hclient
    · rw [update_of_ne hticket] at hother
      have hold := hkeep ticket' other hother
      by_cases howner : other.owner ticket' = client.owner ticket
      · rw [howner,update_self,← howner]
        refine hold.share fun hprogram => hticket ?_
        rw [owner_of_none hprogram] at howner
        exact (owner_eq_client howner.symm).2.symm
      · rw [update_of_ne howner]
        exact hold

end Inv

section Step

variable {abi : Abi} {translate : Translator abi} {heap : Heap abi} {state : State abi}

theorem Inv.sync (hinv : Inv heap state) (sock : Sock) (handshake : Handshake abi) :
    Inv heap (sync state sock handshake) := by
  unfold Server.sync
  split
  · exact hinv
  constructor
  · exact hinv.serial
  · exact (forall_update_iff _ fun owner store => Filed heap owner store).mpr
      ⟨⟨fun _ _ h => (nomatch h),nofun⟩,fun owner _ => hinv.filed owner⟩
  · intro ticket client hclient
    by_cases hticket : ticket = genTicket state.ticket
    · subst hticket
      simp only [update_self] at hclient
      cases hclient
      refine ⟨fun _ _ h => (nomatch h),fun _ _ _ h => (nomatch h),fun hprogram key tc htc => ?_⟩
      simp only [owner_of_none hprogram,update_self] at htc
      exact nomatch htc
    · simp only [update_of_ne hticket] at hclient
      have howner : client.owner ticket ≠ Owner.client (genTicket state.ticket) :=
        fun h => hticket (owner_eq_client h).2
      simp only [update_of_ne howner]
      exact hinv.kept ticket client hclient

theorem Inv.processFlush (hinv : Inv heap state) (ticket : Ticket) (client : ClientData abi) :
    Inv heap (processFlush state ticket client) := by
  have hfiled := hinv.filed (client.owner ticket)
  refine inv_put hinv.serial hinv.filed hinv.kept (hfiled.reset client _) ?_
  apply Kept.reset hfiled
  intro hprogram
  rw [owner_of_none hprogram]

variable {request : Request abi}

theorem Inv.generate {client : ClientData abi} {store : Store abi} (hinv : Inv heap state)
    (hfiled : Filed heap (client.owner request.ticket) store)
    (hkeep : Kept heap (client.owner request.ticket) client store) :
    ∃ heap, Inv heap (generate translate state client store request).1 := by
  have hfiled (chainPoints : Nat) : Filed heap (client.owner request.ticket)
      { store with chainPoints := chainPoints } := ⟨hfiled.region,hfiled.ids⟩
  have hkeep (chainPoints : Nat) : Kept heap (client.owner request.ticket) client
      { store with chainPoints := chainPoints } := ⟨hkeep.remote,hkeep.own,hkeep.flag⟩
  unfold Server.generate
  split
  · exact ⟨heap,inv_put hinv.serial hinv.filed hinv.kept (hfiled _) (hkeep _)⟩
  · next code chainPoints _ =>
    have hserial : (newTrace translate state store request code).serial = heap.length :=
        hinv.serial.symm
    refine ⟨heap ++ [(client.owner request.ticket,newTrace translate state store request code)],
      inv_put (by simp [hinv.serial]) (fun owner => (hinv.filed owner).mono _)
        (fun ticket client hclient => (hinv.kept ticket client hclient).mono _) ?_ ?_⟩
    · exact (hfiled chainPoints).setTrace client hserial rfl
    · exact (hkeep chainPoints).setTrace (hfiled chainPoints) hserial rfl

theorem lookup_eq_some {store : Store abi} {tc : TranslatedCode abi}
    (h : lookup store request = some tc) : store.codeRegions request.key = some tc := by
  unfold lookup at h
  split at h
  · exact nomatch h
  · exact h

theorem Inv.processTrace {client : ClientData abi} (hinv : Inv heap state)
    (hclient : state.clients request.ticket = some client) :
    ∃ heap, Inv heap (processTrace translate state client
      (state.stores (client.owner request.ticket)) request).1 := by
  have hfiled := hinv.filed (client.owner request.ticket)
  have hkeep := hinv.kept request.ticket client hclient
  unfold Server.processTrace
  split
  · exact hinv.generate hfiled hkeep
  · next tc htc =>
    have hreg := lookup_eq_some htc
    split
    · exact hinv.generate (hfiled.removeTrace client _ tc) (hkeep.removeTrace hfiled hreg)
    · have howner : (client.cacheTrace (state.stores (client.owner request.ticket)) request.key
          tc).1.owner request.ticket = client.owner request.ticket := by
        unfold ClientData.cacheTrace
        split <;> rfl
      refine ⟨heap,inv_put hinv.serial hinv.filed hinv.kept ?_ ?_⟩
      · rw [howner]
        exact hfiled.cacheTrace client _ tc
      · rw [howner]
        exact hkeep.cacheTrace hfiled hreg

theorem Inv.step {message : Message abi} {out : State abi × Option (Reply abi)}
    (hinv : Inv heap state) (hs : step translate state message = some out) :
    ∃ heap, Inv heap out.1 := by
  cases message with
  | sync sock handshake =>
    rw [← some.inj hs]
    exact ⟨heap,hinv.sync sock handshake⟩
  | trace request =>
    obtain ⟨client,hclient,rfl⟩ := map_eq_some_iff.mp hs
    exact hinv.processTrace hclient
  | flush ticket =>
    obtain ⟨client,-,rfl⟩ := map_eq_some_iff.mp hs
    exact ⟨heap,hinv.processFlush ticket client⟩

end Step

section Exact

variable {abi : Abi} {translate : Translator abi} {heap : Heap abi} {state : State abi}
  {log : List (Event abi)}

theorem held_append (ticket : Ticket) (log more : List (Event abi)) :
    held ticket (log ++ more) = more.foldl (Event.apply ticket) (held ticket log) :=
  foldl_append

theorem apply_removed (ticket : Ticket) (held : CodeKey abi → Option (TranslatedCode abi))
    (tc : TranslatedCode abi) (key : CodeKey abi) :
    Event.apply ticket held (.removed tc) key =
      (held key).filter fun old => old.serial ≠ tc.serial := rfl

theorem filter_self (tc : TranslatedCode abi) :
    (some tc).filter (fun old => old.serial ≠ tc.serial) = none := by
  simp [Option.filter]

variable {owner other : Owner} {client : ClientData abi} {store : Store abi}
  {tc : TranslatedCode abi}

theorem filter_serial {key : CodeKey abi} (hkeep : Kept heap other client store)
    (htc : heap[tc.serial]? = some (owner,tc)) (hne : client.remote key ≠ some tc) :
    (client.remote key).filter (fun old => old.serial ≠ tc.serial) = client.remote key := by
  cases hold : client.remote key with
  | none => rfl
  | some old =>
    have hget := (hkeep.remote key old hold).1
    have hserial : old.serial ≠ tc.serial := by
      intro heq
      rw [heq,htc] at hget
      exact hne (by rw [hold,(Prod.mk.inj (some.inj hget)).2])
    simp [hserial]

variable {request : Request abi}

theorem settled_of_own (hinv : Inv heap state) (hclient : state.clients request.ticket = some
    client)
    (hprogram : client.program = none) : Settled translate state client request := by
  intro tc htc
  have hkeep := hinv.kept request.ticket client hclient
  have hreg := lookup_eq_some htc
  obtain ⟨hget,hkey,hid⟩ := (hinv.filed (client.owner request.ticket)).region _ _ hreg
  refine ⟨fun _ => ?_,fun _ => ⟨?_,?_⟩⟩
  · rw [← hkeep.flag hprogram _ _ hreg,List.getElem?_eq_getElem hid]
    cases (state.stores (client.owner request.ticket)).traceProfile[tc.id] <;> simp
  · intro ticket other hticket hother hrem
    have hrem := ((hinv.kept ticket other hother).remote _ _ hrem).1
    rw [hget] at hrem
    have howner := (Prod.mk.inj (some.inj hrem)).1
    rw [owner_of_none hprogram] at howner
    exact hticket (owner_eq_client howner.symm).2
  · cases hrem : client.remote request.key with
    | none => exact .inl rfl
    | some old =>
      have hold := hkeep.own hprogram _ _ hrem
      rw [hreg] at hold
      exact .inr (.inl hold.symm)

theorem generate_clients (translate : Translator abi) (state : State abi)
    (client : ClientData abi) (store : Store abi) (request : Request abi) :
    ∃ next : ClientData abi,
      (generate translate state client store request).1.clients =
        update state.clients request.ticket (some next) ∧
      next.remote = (((generate translate state client store request).2.map fun reply =>
        Event.sent request.ticket reply.region).toList.foldl (Event.apply request.ticket)
          client.remote) := by
  unfold generate
  split
  · exact ⟨client,rfl,rfl⟩
  · refine ⟨_,rfl,?_⟩
    simp [Event.apply,ClientData.setTrace,sendTraceEmitted]

theorem generate_reply_isSome (client : ClientData abi) (store : Store abi)
    (request : Request abi) :
    (generate translate state client store request).2.isSome =
      (translate.trace state store request).1.isSome := by
  unfold generate
  split <;> simp_all

theorem generate_region (client : ClientData abi) (store : Store abi) (request : Request abi)
    {reply : Reply abi} (hreply : (generate translate state client store request).2 = some reply) :
    reply.region.key = request.key := by
  unfold generate at hreply
  split at hreply
  · exact nomatch hreply
  · rw [← some.inj hreply]
    rfl

variable {ticket : Ticket}

theorem filter_eq_remote_iff (hkeep : Kept heap other client store)
    (htc : heap[tc.serial]? = some (owner,tc)) :
    client.remote = Event.apply ticket client.remote (.removed tc) ↔
      client.remote tc.key ≠ some tc := by
  constructor
  · intro heq hrem
    have hkey := congrFun heq tc.key
    rw [apply_removed,hrem,filter_self] at hkey
    exact nomatch hkey
  · intro hne
    funext key
    refine (filter_serial hkeep htc fun hrem => hne ?_).symm
    rw [(hkeep.remote key tc hrem).2,hrem]

theorem erase_eq_filter_iff (hkeep : Kept heap other client store)
    (htc : heap[tc.serial]? = some (owner,tc)) :
    update client.remote tc.key none = Event.apply ticket client.remote (.removed tc) ↔
      client.remote tc.key = none ∨ client.remote tc.key = some tc := by
  constructor
  · intro heq
    have hkey := congrFun heq tc.key
    rw [update_self] at hkey
    by_cases hrem : client.remote tc.key = some tc
    · exact .inr hrem
    · rw [apply_removed,filter_serial hkeep htc hrem] at hkey
      exact .inl hkey.symm
  · intro hrem
    funext key
    by_cases hkey : key = tc.key
    · rw [hkey,update_self,apply_removed]
      rcases hrem with hnone | hsome
      · rw [hnone,filter_none]
      · rw [hsome,filter_self]
    · rw [update_of_ne hkey]
      refine (filter_serial hkeep htc fun hsome => hkey ?_).symm
      exact (hkeep.remote key tc hsome).2.symm

theorem exact_iff_remote {next : State abi} {after : ClientData abi} {more : List (Event abi)}
    (hexact : Exact (state,log)) (hclient : state.clients ticket = some client)
    (hnext : next.clients = update state.clients ticket (some after)) :
    Exact (next,log ++ more) ↔ after.remote = more.foldl (Event.apply ticket) client.remote ∧
        ∀ other data, other ≠ ticket → state.clients other = some data →
          data.remote = more.foldl (Event.apply other) data.remote := by
  constructor
  · intro hafter
    constructor
    · have hrem := hafter ticket after (by rw [hnext,update_self])
      rw [held_append,← hexact ticket client hclient] at hrem
      exact hrem
    · intro other data hother hdata
      have hrem := hafter other data (by rw [hnext,update_of_ne hother,hdata])
      rw [held_append,← hexact other data hdata] at hrem
      exact hrem
  · rintro ⟨hown,hothers⟩ other data hdata
    by_cases hother : other = ticket
    · subst hother
      rw [hnext,update_self] at hdata
      cases hdata
      rw [held_append,← hexact other client hclient]
      exact hown
    · rw [hnext,update_of_ne hother] at hdata
      rw [held_append,← hexact other data hdata]
      exact hothers other data hother hdata

theorem foldl_sent_other {other : Ticket} (hother : other ≠ ticket) (reply : Option (Reply abi))
    (held : CodeKey abi → Option (TranslatedCode abi)) :
    (reply.map fun reply => Event.sent ticket reply.region).toList.foldl (Event.apply other) held =
      held := by
  cases reply with
  | none => rfl
  | some reply => simp [Event.apply,hother.symm]

theorem events_trace (hclient : state.clients request.ticket = some client)
    (reply : Option (Reply abi)) :
    events state reply (.trace request) =
      ((outgrown (state.stores (client.owner request.ticket)) request).map Event.removed).toList ++
      (reply.map fun reply => Event.sent request.ticket reply.region).toList := by
  simp [events,hclient]

theorem exact_generate (store : Store abi) (hexact : Exact (state,log))
    (hclient : state.clients request.ticket = some client) :
    Exact ((generate translate state client store request).1,
      log ++ ((generate translate state client store request).2.map fun reply =>
        Event.sent request.ticket reply.region).toList) := by
  obtain ⟨after,hnext,hrem⟩ := generate_clients translate state client store request
  refine (exact_iff_remote hexact hclient hnext).mpr ⟨hrem,?_⟩
  intro other data hother _
  rw [foldl_sent_other hother]

section

variable (hinv : Inv heap state) (hexact : Exact (state, log))
  (hclient : state.clients request.ticket = some client)
include hinv hexact hclient

theorem exact_removed_iff (hstore : state.stores (client.owner request.ticket) = store)
    (htc : store.codeRegions request.key = some tc) :
    Exact ((generate translate state (client.removeTrace store request.key tc).1
        (client.removeTrace store request.key tc).2 request).1,
        log ++ (.removed tc :: ((generate translate state (client.removeTrace store request.key
            tc).1
          (client.removeTrace store request.key tc).2 request).2.map
            fun reply => Event.sent request.ticket reply.region).toList)) ↔
      (∀ ticket other, ticket ≠ request.ticket → state.clients ticket = some other →
        other.remote request.key ≠ some tc) ∧
      (client.remote request.key = none ∨ client.remote request.key = some tc ∨
        (translate.trace state store request).1.isSome) := by
  have hkeep := hinv.kept request.ticket client hclient
  obtain ⟨hget,hkey,-⟩ := (hstore ▸ hinv.filed (client.owner request.ticket)).region _ _ htc
  generalize hpair : client.removeTrace store request.key tc = pair
  have herase : pair.1.remote = update client.remote tc.key none := by
    rw [← hpair,hkey]
    rfl
  have hsome : (generate translate state pair.1 pair.2 request).2.isSome =
      (translate.trace state store request).1.isSome := by
    rw [generate_reply_isSome,← hpair]
    simp [ClientData.removeTrace,Translator.trace]
  obtain ⟨after,hnext,hrem⟩ := generate_clients translate state pair.1 pair.2 request
  have hreg : ∀ reply, (generate translate state pair.1 pair.2 request).2 = some reply →
      reply.region.key = tc.key := fun reply h => (generate_region _ _ _ h).trans hkey.symm
  rw [exact_iff_remote hexact hclient hnext,hrem,herase,← hsome,and_comm,← hkey]
  generalize (generate translate state pair.1 pair.2 request).2 = reply at *
  apply and_congr
  · apply forall_congr'
    intro ticket
    apply forall_congr'
    intro other
    refine imp_congr_right fun hticket => imp_congr_right fun hother => ?_
    rw [foldl_cons,foldl_sent_other hticket]
    exact filter_eq_remote_iff (hinv.kept ticket other hother) hget
  · cases reply with
    | none =>
      simp only [map_none,toList_none,foldl_nil,foldl_cons,isSome_none,Bool.false_eq_true,or_false]
      exact erase_eq_filter_iff hkeep hget
    | some reply =>
      simp only [map_some,toList_some,foldl_nil,foldl_cons,isSome_some,or_true,iff_true]
      simp only [Event.apply,if_true,hreg reply rfl]
      funext key
      by_cases hkey : key = tc.key
      · simp [hkey]
      rw [update_of_ne hkey,update_of_ne hkey,update_of_ne hkey]
      refine (filter_serial hkeep hget fun hold => hkey ?_).symm
      exact (hkeep.remote key tc hold).2.symm

theorem exact_cached_iff (hstore : state.stores (client.owner request.ticket) = store)
    (htc : store.codeRegions request.key = some tc) :
    Exact (state.put request.ticket (client.cacheTrace store request.key tc).1
        (client.cacheTrace store request.key tc).2,log ++ [Event.sent request.ticket tc]) ↔
      store.traceProfile[tc.id]? = some false ∨ client.remote request.key = some tc := by
  obtain ⟨-,hkey,-⟩ := (hstore ▸ hinv.filed (client.owner request.ticket)).region _ _ htc
  rw [exact_iff_remote hexact hclient rfl]
  have hothers : ∀ other (data : ClientData abi), other ≠ request.ticket →
      state.clients other = some data →
      data.remote = [Event.sent request.ticket tc].foldl (Event.apply other) data.remote := by
    intro other data hother _
    simp [Event.apply,hother.symm]
  rw [and_iff_left hothers]
  simp only [foldl_cons,foldl_nil,Event.apply,if_true,hkey]
  unfold ClientData.cacheTrace
  split
  · next hflag => simp [hflag]
  · next hflag =>
    rw [or_iff_right hflag]
    exact ⟨fun h => by rw [h,update_self],fun h => (update_eq_self_iff.mpr h.symm).symm⟩

theorem exact_iff_settled :
    Exact ((processTrace translate state client (state.stores (client.owner request.ticket))
        request).1,log ++ events state (processTrace translate state client
          (state.stores (client.owner request.ticket)) request).2 (.trace request)) ↔
      Settled translate state client request := by
  rw [events_trace hclient]
  unfold processTrace Settled outgrown
  cases hlook : lookup (state.stores (client.owner request.ticket)) request with
  | none =>
    exact ⟨fun _ _ h => (nomatch h),fun _ => exact_generate _ hexact hclient⟩
  | some tc =>
    have htc := lookup_eq_some hlook
    simp only [some.injEq,forall_eq']
    by_cases hcount : tc.count < request.count
    · have hle : ¬ request.count ≤ tc.count := by omega
      rw [← exact_removed_iff hinv hexact hclient rfl htc]
      simp [Option.filter,hcount]
    · have hle : request.count ≤ tc.count := by omega
      simp only [hcount,hle,if_false,false_imp_iff,and_true,true_imp_iff]
      rw [← exact_cached_iff hinv hexact hclient rfl htc]
      simp [Option.filter,hcount,sendTraceEmitted]

end

theorem Exact.sync (hexact : Exact (state,log)) (reply : Option (Reply abi)) (sock : Sock)
    (handshake : Handshake abi) :
    Exact (sync state sock handshake,log ++ events state reply (.sync sock handshake)) := by
  by_cases href : handshake.arch ≠ state.arch ∨ handshake.baseRegNo ≠ state.baseRegNo
  · simp only [Server.sync,events,if_pos href,append_nil]
    exact hexact
  · simp only [Server.sync,events,if_neg href]
    intro ticket client hclient
    rw [held_append,foldl_cons,foldl_nil]
    by_cases hticket : ticket = genTicket state.ticket
    · subst hticket
      simp only [update_self] at hclient
      cases hclient
      simp [Event.apply]
    · simp only [update_of_ne hticket] at hclient
      rw [hexact ticket client hclient]
      simp [Event.apply,Ne.symm hticket]

theorem Exact.processFlush (hexact : Exact (state,log))
    (hclient : state.clients ticket = some client) (reply : Option (Reply abi)) :
    Exact (processFlush state ticket client,log ++ events state reply (.flush ticket)) := by
  refine (exact_iff_remote hexact hclient rfl).mpr ⟨?_,?_⟩
  · simp [events,Event.apply]
  · intro other data hother _
    simp [events,Event.apply,hother.symm]

theorem inv_init (arch baseRegNo : BitVec 32) (globals : Globals abi) :
    Inv [] (init arch baseRegNo globals) where
  serial := rfl
  filed _ := ⟨fun _ _ h => (nomatch h),nofun⟩
  kept _ _ h := nomatch h

/-- In every run `RemoteCodeRegions` is what the clients hold, exactly when requests agree with it.
-/
theorem exact_iff_agrees (translate : Translator abi) (arch baseRegNo : BitVec 32)
    (globals : Globals abi) (messages : List (Message abi)) :
    Always (logged translate) Exact (init arch baseRegNo globals, []) messages ↔
      Meets (logged translate) (Agrees translate) (init arch baseRegNo globals, []) messages := by
  refine always_iff_meets (fun state => ∃ heap, Inv heap state.1) ?_ ?_ ?_
    ⟨[],inv_init arch baseRegNo globals⟩ nofun
  · rintro state message next ⟨heap,hinv⟩ hnext
    obtain ⟨out,hout,rfl⟩ := map_eq_some_iff.mp hnext
    exact hinv.step hout
  · rintro ⟨state,log⟩ message next ⟨heap,hinv⟩ hexact hagrees hnext
    obtain ⟨out,hout,rfl⟩ := map_eq_some_iff.mp hnext
    cases message with
    | sync sock handshake =>
      rw [← some.inj hout]
      exact hexact.sync none sock handshake
    | trace request =>
      obtain ⟨client,hclient,rfl⟩ := map_eq_some_iff.mp hout
      refine (exact_iff_settled hinv hexact hclient).mpr ?_
      by_cases hprogram : client.program = none
      · exact settled_of_own hinv hclient hprogram
      · exact hagrees request client rfl hclient hprogram
    | flush ticket =>
      obtain ⟨client,hclient,rfl⟩ := map_eq_some_iff.mp hout
      exact hexact.processFlush hclient none
  · rintro ⟨state,log⟩ message next ⟨heap,hinv⟩ hexact hafter hnext request client rfl hclient -
    obtain ⟨out,hout,rfl⟩ := map_eq_some_iff.mp hnext
    obtain ⟨other,hother,rfl⟩ := map_eq_some_iff.mp hout
    cases hother.symm.trans hclient
    exact (exact_iff_settled hinv hexact hclient).mp hafter

end Exact

/-- A client flushes and asks for its region again; and a second client of that program asks for it.
Both are sent the region, and neither has it in `RemoteCodeRegions`. -/
theorem shared_flag_hides :
    (∃ state log client, run (logged exitTranslator) (init 0 0 sampleGlobals, [])
        [.sync 5 (sampleHandshake 0 (some [1])), .trace (oneBlock 1), .flush 1,
          .trace (oneBlock 1)] = some (state, log) ∧
      state.clients 1 = some client ∧ client.remote (oneBlock 1).key = none ∧
      (held 1 log (oneBlock 1).key).isSome) ∧
    ∃ state log client, run (logged exitTranslator) (init 0 0 sampleGlobals, [])
        [.sync 5 (sampleHandshake 0 (some [1])), .sync 6 (sampleHandshake 0 (some [1])),
          .trace (oneBlock 1), .trace (oneBlock 2)] = some (state, log) ∧
      state.clients 2 = some client ∧ client.remote (oneBlock 2).key = none ∧
      (held 2 log (oneBlock 2).key).isSome := by
  exact ⟨⟨_,_,_,rfl,rfl,rfl,rfl⟩,_,_,_,rfl,rfl,rfl,rfl⟩

end Hqemu.Net.Server
