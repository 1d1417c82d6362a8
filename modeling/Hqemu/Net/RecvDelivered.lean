import Hqemu.Net.RecvReading

/-! What the threads that post and wait for receives keep of a stream, and what every run of
admitted steps delivers. -/
namespace Hqemu.Net.Receive

open Function List Option Lib.Run

section Steps

variable {config : Config} {sock : Sock} {tag : Tag} {socks : List Sock}
  {streams : Sock → List Framed} {state : State}

def takenAt (sock : Sock) (tag : Tag) (posted : List Posted) (handle : Nat) : List Byte :=
  (posted[handle]?.map (Posted.taken sock tag)).getD []

variable {posted : List Posted} {handle : Nat} {request next : Posted}

theorem takenAt_set_self (hreq : posted[handle]? = some request) :
    takenAt sock tag (posted.set handle next) handle = next.taken sock tag := by
  have hlt : handle < posted.length := (List.getElem?_eq_some_iff.mp hreq).1
  simp [takenAt,hlt]

theorem takenAt_set_ne {other : Nat} (hne : handle ≠ other) :
    takenAt sock tag (posted.set handle next) other = takenAt sock tag posted other := by
  simp [takenAt,List.getElem?_set_ne hne]

theorem flatMap_takenAt_set {order : List Nat} (hnot : handle ∉ order) :
    order.flatMap (takenAt sock tag (posted.set handle next)) =
      order.flatMap (takenAt sock tag posted) := by
  apply flatMap_congr
  intro other hmem
  exact takenAt_set_ne fun heq => hnot (heq ▸ hmem)

theorem flatMap_takenAt_same {order : List Nat} (hreq : posted[handle]? = some request)
    (hsame : next.taken sock tag = request.taken sock tag) :
    order.flatMap (takenAt sock tag (posted.set handle next)) =
      order.flatMap (takenAt sock tag posted) := by
  apply flatMap_congr
  intro other _
  by_cases hother : handle = other
  · rw [← hother,takenAt_set_self hreq,hsame,takenAt,hreq]
    rfl
  · exact takenAt_set_ne hother

variable {queue : List Inbound}

section

variable (hinv : Inv sock tag socks streams state)
include hinv

section

variable (hreq : state.posted[handle]? = some request)
include hreq

theorem filled_take {behind ahead : List Byte}
    (hmove : next.taken sock tag ++ behind = request.taken sock tag ++ ahead)
    (hlatest : request.completeSize ≠ 0 → next.taken sock tag = request.taken sock tag ∨
      Latest sock tag state handle) :
    (if request.completeSize = 0 ∧ next.completeSize ≠ 0 then state.order ++ [handle]
        else state.order).flatMap (takenAt sock tag (state.posted.set handle next)) ++ behind =
      state.order.flatMap (takenAt sock tag state.posted) ++ ahead := by
  by_cases hempty : request.completeSize = 0
  · have hnot : handle ∉ state.order := by
      intro hmem
      obtain ⟨other,hother,hsize⟩ := (hinv.order handle).mp hmem
      rw [hreq] at hother
      exact hsize (some.inj hother ▸ hempty)
    have hnone : request.taken sock tag = [] := by
      rw [Posted.taken,Posted.content_of_empty hempty,ite_self]
    rw [hnone,nil_append] at hmove
    by_cases hfirst : next.completeSize = 0
    · have hnext : next.taken sock tag = [] := by
        rw [Posted.taken,Posted.content_of_empty hfirst,ite_self]
      rw [hnext,nil_append] at hmove
      rw [if_neg (fun h => h.2 hfirst),flatMap_takenAt_set hnot,hmove]
    · rw [if_pos ⟨hempty,hfirst⟩,flatMap_append,flatMap_takenAt_set hnot,
        flatMap_singleton,takenAt_set_self hreq,append_assoc,hmove]
  · rw [if_neg (fun h => hempty h.1)]
    rcases hlatest hempty with hsame | ⟨front,back,horder,hback⟩
    · rw [flatMap_takenAt_same hreq hsame]
      rw [hsame] at hmove
      rw [append_cancel_left hmove]
    · have hnodup := hinv.nodup
      rw [horder] at hnodup
      have hfrontNot : handle ∉ front := by
        intro hmem
        exact (nodup_append.mp hnodup).2.2 handle hmem handle mem_cons_self rfl
      have hbackNot : handle ∉ back := (nodup_cons.mp (nodup_append.mp hnodup).2.1).1
      have hbackNil : back.flatMap (takenAt sock tag state.posted) = [] := by
        rw [flatMap_eq_nil_iff]
        intro other hmem
        cases hsome : state.posted[other]? with
        | none => simp [takenAt,hsome]
        | some otherRequest =>
          simp [takenAt,hsome,Posted.taken,hback other hmem otherRequest hsome]
      have hself : takenAt sock tag state.posted handle = request.taken sock tag := by
        simp [takenAt,hreq]
      rw [horder,flatMap_append,flatMap_append,flatMap_cons,flatMap_cons,
        flatMap_takenAt_set hfrontNot,flatMap_takenAt_set hbackNot,hbackNil,hself,
        takenAt_set_self hreq]
      simp [hmove]

theorem order_set (hgrow : request.completeSize ≠ 0 → next.completeSize ≠ 0) (other : Nat) :
    other ∈ (if request.completeSize = 0 ∧ next.completeSize ≠ 0 then state.order ++ [handle]
        else state.order) ↔
      ∃ posted, (state.posted.set handle next)[other]? = some posted ∧ posted.completeSize ≠ 0 := by
  have hlt : handle < state.posted.length := (List.getElem?_eq_some_iff.mp hreq).1
  have hmem := hinv.order other
  by_cases hother : handle = other
  · subst hother
    rw [hreq] at hmem
    simp only [some.injEq,exists_eq_left'] at hmem
    rw [List.getElem?_set_self hlt]
    simp only [some.injEq,exists_eq_left']
    split
    · next hfirst => simp [hfirst.2]
    · next hnot =>
      rw [hmem]
      constructor
      · exact hgrow
      · intro hnext hz
        exact hnot ⟨hz,hnext⟩
  · rw [List.getElem?_set_ne hother,← hmem]
    split
    · simp [Ne.symm hother]
    · exact Iff.rfl

theorem nodup_set :
    (if request.completeSize = 0 ∧ next.completeSize ≠ 0 then state.order ++ [handle]
      else state.order).Nodup := by
  split
  · next hfirst =>
    have hnot : handle ∉ state.order := by
      intro hmem
      obtain ⟨other,hother,hsize⟩ := (hinv.order handle).mp hmem
      rw [hreq] at hother
      exact hsize (some.inj hother ▸ hfirst.1)
    rw [nodup_append]
    refine ⟨hinv.nodup,nodup_singleton _,fun other hmem last hlast heq => ?_⟩
    rw [mem_singleton.mp hlast] at heq
    exact hnot (heq ▸ hmem)
  · exact hinv.nodup

theorem inv_set (hmove : next.taken sock tag ++ waiting sock tag queue =
      request.taken sock tag ++ waiting sock tag state.complete)
    (hlatest : request.completeSize ≠ 0 → next.taken sock tag = request.taken sock tag ∨
      Latest sock tag state handle) (hgrow : request.completeSize ≤ next.completeSize)
    (hq : Queue sock tag queue) (hnext : next.Sound ∧ next.Settled)
    (hwhole : next.sock = sock → next.tag = tag → next.error = .complete → next.room = 0) :
    Inv sock tag socks streams { state with
      complete := queue
      posted := state.posted.set handle next
      order := if request.completeSize = 0 ∧ next.completeSize ≠ 0 then state.order ++ [handle]
        else state.order } := by
  obtain ⟨front,rest,hsplit,hunread,hstream⟩ := hinv.account
  refine ⟨⟨front,rest,hsplit,hunread,?_⟩,hinv.reading,hq,?_,?_,nodup_set hinv hreq,
    order_set hinv hreq (fun hne => by omega),hinv.dropq,hinv.polled⟩
  · exact (filled_take hinv hreq hmove hlatest).trans hstream
  · intro other hmem
    rcases mem_or_eq_of_mem_set hmem with hold | hnew
    · exact hinv.posted other hold
    · exact hnew ▸ hnext
  · intro other hmem
    rcases mem_or_eq_of_mem_set hmem with hold | hnew
    · exact hinv.whole other hold
    · exact hnew ▸ hwhole

end

theorem Inv.halt :
    Inv sock tag socks streams state.halt :=
  Inv.of_same hinv hinv.account hinv.reading hinv.queue rfl rfl hinv.dropq rfl

theorem inv_flags (hreq : state.posted[handle]? = some request)
    (htaken : next.taken sock tag = request.taken sock tag)
    (hwait : waiting sock tag queue = waiting sock tag state.complete)
    (hsize : next.completeSize = request.completeSize) (hq : Queue sock tag queue)
    (hnext : next.Sound ∧ next.Settled)
    (hwhole : next.sock = sock → next.tag = tag → next.error = .complete → next.room = 0) :
    Inv sock tag socks streams
      { state with complete := queue, posted := state.posted.set handle next } := by
  have hset := inv_set hinv hreq (by rw [htaken,hwait]) (fun _ => .inl htaken) hsize.ge hq hnext
      hwhole
  rw [if_neg (by rw [hsize]; exact fun h => h.2 h.1)] at hset
  exact hset

theorem Inv.tcpWait (hreq : state.posted[handle]? = some request)
    (hadmitted : ∀ place, request.error ≠ .complete →
      searchRecvq request.sock request.tag state.complete = some place →
        place.data.sock = sock → place.data.tag = tag → Boundary request.bufs request.completeSize ∧
            (request.completeSize ≠ 0 → Latest sock tag state handle)) :
    Inv sock tag socks streams (tcpWait state handle request) := by
  have hmem : request ∈ state.posted := mem_of_getElem? hreq
  obtain ⟨hsound,hsettled⟩ := hinv.posted request hmem
  unfold Receive.tcpWait
  split
  · have hsame : Posted.Sound { request with released := true } := ⟨hsound.1,hsound.2⟩
    have hrel : Inv sock tag socks streams { state with
        posted := state.posted.set handle { request with released := true } } :=
      inv_flags hinv hreq rfl rfl rfl hinv.queue ⟨hsame,hsettled⟩ (hinv.whole request hmem)
    split
    · exact hrel.halt
    · exact hrel
  · next herr =>
    split
    · exact hinv
    · next place hsource =>
      obtain ⟨hsplit,hsuits,-⟩ := searchRecvq_split hsource
      have hdata := hinv.queue place.data (by rw [hsplit]; simp)
      have hbind := bind_eq hdata.1 hsuits
      have hbefore : request.taken sock tag = if _ then request.content else [] :=
        taken_before hdata.1 hsuits hsettled
      have hboundSound : (request.bind place.data).Sound := ⟨hsound.1,hsound.2⟩
      simp only
      split
      · next hmarked =>
        have hother : ¬(place.data.sock = sock ∧ place.data.tag = tag) := by
          rintro ⟨hsock,htag⟩
          rw [hdata.2 hsock htag] at hmarked
          exact Bool.noConfusion hmarked
        refine inv_flags hinv hreq ?_ ?_ rfl (hinv.queue.erase hsource)
          ⟨⟨hsound.1,hsound.2⟩,Settled_of_named hdata.1 hbind.1 hbind.2⟩ ?_
        · rw [hbefore,if_neg hother]
          apply if_neg
          rw [hbind.1,hbind.2]
          exact hother
        · rw [hsplit,waiting_append,waiting_cons,if_neg hother,nil_append,← waiting_append]
          rfl
        · intro hsock htag _
          exact absurd ⟨hbind.1.symm.trans hsock,hbind.2.symm.trans htag⟩ hother
      · have hstream : _ = request.taken sock tag ++ waiting sock tag state.complete :=
          fill_stream hsource (fun data hmem => (hinv.queue data hmem).1) hsettled hboundSound
            rfl rfl rfl (fun hsock htag => (hadmitted place herr hsource hsock htag).1)
        generalize hfield : (request.bind place.data).fill place.data = filledRequest at hstream
        have hkeep : filledRequest.sock = place.data.sock ∧
            filledRequest.tag = place.data.tag ∧ filledRequest.error = request.error ∧
            request.completeSize ≤ filledRequest.completeSize ∧ filledRequest.Sound := by
          rw [← hfield]
          exact ⟨hbind.1,hbind.2,rfl,Nat.le_add_right _ _,fill_sound hboundSound⟩
        obtain ⟨hsock,htag,hsameError,hgrow,hfilledSound⟩ := hkeep
        have hlatest : request.completeSize ≠ 0 →
            filledRequest.taken sock tag = request.taken sock tag ∨
              Latest sock tag state handle := by
          intro hne
          by_cases hmine : place.data.sock = sock ∧ place.data.tag = tag
          · exact .inr ((hadmitted place herr hsource hmine.1 hmine.2).2 hne)
          · left
            rw [hbefore,if_neg hmine,Posted.taken,hsock,htag,if_neg hmine]
        have hsettledNext : filledRequest.Settled := Settled_of_named hdata.1 hsock htag
        have hq : Queue sock tag (place.after (request.bind place.data)) := hinv.queue.after hsource
            _
        split
        · next hfull =>
          have hcomplete : Posted.Sound { filledRequest with error := .complete } :=
            ⟨hfilledSound.1,hfilledSound.2⟩
          exact inv_set hinv hreq hstream hlatest hgrow hq ⟨hcomplete,hsettledNext⟩ (fun _ _ _ =>
              hfull)
        · exact inv_set hinv hreq hstream hlatest hgrow hq ⟨hfilledSound,hsettledNext⟩
            (fun _ _ hcomplete => absurd (hsameError.symm.trans hcomplete) herr)

theorem Inv.order_lt (hmem : handle ∈ state.order) : handle < state.posted.length := by
  obtain ⟨request,hreq,-⟩ := (hinv.order handle).mp hmem
  exact (List.getElem?_eq_some_iff.mp hreq).1

theorem inv_append
    (hmove : next.taken sock tag ++ waiting sock tag queue = waiting sock tag state.complete)
    (hq : Queue sock tag queue) (hnext : next.Sound ∧ next.Settled)
    (hwhole : next.sock = sock → next.tag = tag → next.error = .complete → next.room = 0) :
    Inv sock tag socks streams { state with
      complete := queue
      posted := state.posted ++ [next]
      order := if next.completeSize = 0 then state.order
        else state.order ++ [state.posted.length] } := by
  obtain ⟨front,rest,hsplit,hunread,hstream⟩ := hinv.account
  have hold : ∀ handle, handle < state.posted.length →
      (state.posted ++ [next])[handle]? = state.posted[handle]? :=
    fun handle hlt => List.getElem?_append_left hlt
  have hsame : state.order.flatMap (takenAt sock tag (state.posted ++ [next])) =
      state.order.flatMap (takenAt sock tag state.posted) := by
    apply flatMap_congr
    intro handle hmem
    rw [takenAt,takenAt,hold handle (hinv.order_lt hmem)]
  have hlast : takenAt sock tag (state.posted ++ [next]) state.posted.length =
      next.taken sock tag := by
    simp [takenAt]
  refine ⟨⟨front,rest,hsplit,hunread,?_⟩,hinv.reading,hq,?_,?_,?_,?_,hinv.dropq,hinv.polled⟩
  · rw [← hstream,← hmove]
    change List.flatMap (takenAt sock tag (state.posted ++ [next])) _ ++ _ = _
    split
    · next hempty =>
      have hnone : next.taken sock tag = [] := by
        rw [Posted.taken,Posted.content_of_empty hempty,ite_self]
      rw [hsame,hnone,nil_append]
      rfl
    · rw [flatMap_append,hsame,flatMap_singleton,hlast,append_assoc]
      rfl
  · intro request hmem
    rcases mem_append.mp hmem with hmem | hmem
    · exact hinv.posted request hmem
    · exact mem_singleton.mp hmem ▸ hnext
  · intro request hmem
    rcases mem_append.mp hmem with hmem | hmem
    · exact hinv.whole request hmem
    · exact mem_singleton.mp hmem ▸ hwhole
  · simp only
    split
    · exact hinv.nodup
    rw [nodup_append]
    refine ⟨hinv.nodup,nodup_singleton _,fun handle hmem last hlast heq => ?_⟩
    have hlt := hinv.order_lt hmem
    rw [heq,mem_singleton.mp hlast] at hlt
    omega
  · intro handle
    by_cases hlt : handle < state.posted.length
    · rw [hold handle hlt,← hinv.order handle]
      split
      · exact Iff.rfl
      · simp only [mem_append,mem_singleton]
        exact ⟨fun h => h.resolve_right (by omega),.inl⟩
    · have hnot : handle ∉ state.order := fun hmem => hlt (hinv.order_lt hmem)
      by_cases heq : handle = state.posted.length
      · rw [heq] at hnot ⊢
        simp only [List.getElem?_append_right (Nat.le_refl _),Nat.sub_self,
          List.getElem?_cons_zero,some.injEq,exists_eq_left']
        split
        · next hempty => simp [hnot,hempty]
        · next hne => simp [hne]
      · have hnone : (state.posted ++ [next])[handle]? = none := by
          rw [List.getElem?_eq_none]
          rw [length_append,length_singleton]
          omega
        rw [hnone]
        split
        · simp [hnot]
        · simp [hnot,heq]

theorem Inv.tcpIrecv {other : Sock} {otherTag : Tag} {bufs : List (List Byte)}
    (hsize : bufs.flatten.length < 2^32)
    (halign : ∀ place, searchRecvq other otherTag state.complete = some place →
      place.data.sock = sock → place.data.tag = tag →
        Aligned bufs 0 (lefts sock tag state.complete)) :
    Inv sock tag socks streams (tcpIrecv state other otherTag bufs) := by
  simp only [Receive.tcpIrecv,Nat.mod_eq_of_lt hsize]
  split
  · exact hinv
  · next hok =>
    generalize hreq : (Posted.mk other otherTag bufs bufs.flatten.length 0 none .inprogress
      false) = request
    have hempty : request.completeSize = 0 := by rw [← hreq]
    have hkeep : LoopKept sock tag request state.complete
        (irecvLoop (state.complete.length+1) request state.complete) := by
      apply irecvLoop_kept _ hinv.queue
      · rw [← hreq]
        exact ⟨rfl,Nat.zero_le _⟩
      · exact fun hne => absurd hempty hne
      · rw [← hreq]
        exact fun hz => hok (.inr hz)
      · rw [← hreq]
        exact halign
    have herr : request.error = .inprogress := by rw [← hreq]
    have hnone : request.taken sock tag = [] := by
      rw [Posted.taken,Posted.content_of_empty hempty,ite_self]
    generalize irecvLoop (state.complete.length+1) request state.complete = out at hkeep ⊢
    have hmove := hkeep.stream
    rw [hnone,nil_append] at hmove
    by_cases hfull : out.1.room = 0
    · simp only [if_pos hfull]
      have hsound : Posted.Sound { out.1 with error := .complete } := ⟨hkeep.sound.1,hkeep.sound.2⟩
      exact inv_append hinv hmove hkeep.queue ⟨hsound,hkeep.settled⟩ (fun _ _ _ => hfull)
    · simp only [if_neg hfull]
      refine inv_append hinv hmove hkeep.queue ⟨hkeep.sound,hkeep.settled⟩ (fun _ _ hcomplete => ?_)
      rw [hkeep.error,herr] at hcomplete
      exact absurd hcomplete (by decide)

end

variable (other : Sock)

theorem taken_drop (request : Posted) :
    (request.drop other).taken sock tag = request.taken sock tag := by
  unfold Posted.drop
  split
  · split <;> rfl
  · rfl

theorem drop_same (request : Posted) :
    (request.drop other).completeSize = request.completeSize ∧
      (request.Sound → (request.drop other).Sound) ∧
      (request.Settled → (request.drop other).Settled) ∧
      ((request.drop other).error = .complete → request.error = .complete) ∧
      (request.drop other).sock = request.sock ∧ (request.drop other).tag = request.tag ∧
      (request.drop other).room = request.room := by
  unfold Posted.drop
  split
  · split
    · exact ⟨rfl,fun h => ⟨h.1,h.2⟩,id,id,rfl,rfl,rfl⟩
    · exact ⟨rfl,fun h => ⟨h.1,h.2⟩,id,nofun,rfl,rfl,rfl⟩
  · exact ⟨rfl,id,id,id,rfl,rfl,rfl⟩

theorem Inv.tcpDrainConnection {dropped : List Sock} (hinv : Inv sock tag socks streams state)
    (hdrop : sock ∉ dropped) : Inv sock tag socks streams (tcpDrainConnection state dropped) := by
  induction dropped generalizing state with
  | nil => exact Inv.of_same hinv hinv.account hinv.reading hinv.queue rfl rfl not_mem_nil rfl
  | cons first dropped ih =>
    have hfirst : sock ≠ first := fun heq => hdrop (heq ▸ mem_cons_self)
    have hrest : sock ∉ dropped := fun hmem => hdrop (mem_cons_of_mem _ hmem)
    unfold Receive.tcpDrainConnection
    split
    · refine ih ?_ hrest
      obtain ⟨front,rest,hsplit,hunread,hstream⟩ := hinv.account
      have htaken : ∀ handle, takenAt sock tag (state.posted.map (Posted.drop first)) handle =
          takenAt sock tag state.posted handle := by
        intro handle
        rw [takenAt,takenAt,List.getElem?_map,Option.map_map]
        congr 2
        funext request
        exact taken_drop first request
      refine ⟨⟨front,rest,hsplit,hunread,?_⟩,hinv.reading,hinv.queue,?_,?_,hinv.nodup,?_,
        hinv.dropq,fun hmem => (mem_erase_of_ne hfirst).mpr (hinv.polled hmem)⟩
      · rw [← hstream]
        exact congrArg (· ++ _) (flatMap_congr fun handle _ => htaken handle)
      · intro request hmem
        obtain ⟨old,hold,rfl⟩ := mem_map.mp hmem
        obtain ⟨-,hsound,hsettled,-⟩ := drop_same first old
        exact ⟨hsound (hinv.posted old hold).1,hsettled (hinv.posted old hold).2⟩
      · intro request hmem hsock htag herr
        obtain ⟨old,hold,rfl⟩ := mem_map.mp hmem
        obtain ⟨-,-,-,hcomplete,hsameSock,hsameTag,hroom⟩ := drop_same first old
        rw [hroom]
        exact hinv.whole old hold (hsameSock ▸ hsock) (hsameTag ▸ htag) (hcomplete herr)
      · intro handle
        rw [hinv.order handle,List.getElem?_map]
        cases state.posted[handle]? with
        | none => simp
        | some old => simp [(drop_same first old).1]
    · exact Inv.of_same hinv hinv.account hinv.reading hinv.queue rfl rfl hrest rfl

theorem unread_arrive (count : Nat) :
    unread sock { state with
        arrived := update state.arrived other
          (state.arrived other ++ (state.inflight other).take count)
        inflight := update state.inflight other ((state.inflight other).drop count) } =
      unread sock state := by
  unfold unread
  by_cases hsame : other = sock
  · subst hsame
    simp
  · simp [update_of_ne (Ne.symm hsame)]

theorem Inv.step {action : Action} {out : State} (hinv : Inv sock tag socks streams state)
    (hadmitted : Admits config sock tag state action)
    (hout : step config state action = some out) : Inv sock tag socks streams out := by
  obtain ⟨hcb,hadmitted⟩ := hadmitted
  unfold Receive.step at hout
  split at hout
  · exact absurd hout (by simp)
  cases action with
  | arrive other count =>
    rw [← some.inj hout]
    obtain ⟨front,rest,hsplit,hunread,hstream⟩ := hinv.account
    refine Inv.of_same hinv ⟨front,rest,hsplit,?_,hstream⟩ hinv.reading hinv.queue rfl rfl
        hinv.dropq rfl
    rw [unread_arrive,hunread]
  | poll ready garbage =>
    simp only at hout
    split at hout
    · next hready =>
      obtain ⟨hnone,hnext⟩ := reading_of_locked hout
      obtain ⟨front,rest,hsplit,hunread,hstream⟩ := hinv.account
      simp only [unread,hnone,nil_append] at hunread
      have hentries : Entries sock ready := fun entry hmem =>
        ⟨ne_anySource (hready.2 entry hmem).2.1,hadmitted entry hmem⟩
      rw [← hnext]
      exact inv_nextSock hinv hentries hready.1 ⟨front,rest,hsplit,hunread,hstream⟩
        hinv.queue rfl rfl hinv.dropq rfl
    · exact absurd hout (by simp)
  | answer answer =>
    obtain ⟨reading,hreading,hans⟩ := bind_eq_some_iff.mp hout
    exact hinv.answerStep hreading hcb (hadmitted reading hreading) hans
  | irecv other otherTag bufs =>
    obtain ⟨-,hnext⟩ := reading_of_locked hout
    exact hnext ▸ hinv.tcpIrecv hadmitted.1 hadmitted.2
  | wait handle =>
    obtain ⟨request,hreq,hwait⟩ := bind_eq_some_iff.mp hout
    split at hwait
    · exact absurd hwait (by simp)
    · obtain ⟨-,hnext⟩ := reading_of_locked hwait
      exact hnext ▸ hinv.tcpWait hreq fun place => hadmitted request place hreq
  | dropped other =>
    rw [← some.inj hout]
    refine Inv.of_same hinv hinv.account hinv.reading hinv.queue rfl rfl ?_ rfl
    simp only [tcpDropConnection,mem_append,mem_singleton,not_or]
    exact ⟨hinv.dropq,Ne.symm hadmitted⟩
  | drain =>
    obtain ⟨-,hnext⟩ := reading_of_locked hout
    exact hnext ▸ hinv.tcpDrainConnection hinv.dropq

end Steps

theorem inv_init (sock : Sock) (tag : Tag) (socks : List Sock) (streams : Sock → List Framed) :
    Inv sock tag socks streams (init socks streams) := by
  refine ⟨⟨[],streams sock,rfl,rfl,rfl⟩,nofun,forall_mem_nil _,forall_mem_nil _,forall_mem_nil _,
    nodup_nil,fun handle => ?_,not_mem_nil,id⟩
  simp [init]

/-- The receives hold a beginning of the stream, with no byte missing, twice or out of place, and
the rest is in messages or the socket; a complete receive is full, and the socket is read from. -/
structure Delivered (sock : Sock) (tag : Tag) (socks : List Sock) (streams : Sock → List Framed)
    (state : State) : Prop where
  account : Account sock tag streams state
  inOrder : filled sock tag state <+: payloads tag (streams sock)
  all : unread sock state = [] → waiting sock tag state.complete = [] →
    filled sock tag state = payloads tag (streams sock)
  whole : ∀ request ∈ state.posted, request.sock = sock → request.tag = tag →
    request.error = .complete → request.content.length = request.bufs.flatten.length
  polled : sock ∈ socks → sock ∈ state.polled ∧ sock ∉ state.dropq

theorem Inv.delivered {sock : Sock} {tag : Tag} {socks : List Sock} {streams : Sock → List Framed}
    {state : State} (hinv : Inv sock tag socks streams state) :
    Delivered sock tag socks streams state := by
  obtain ⟨front,rest,hsplit,hunread,hstream⟩ := hinv.account
  have happend : payloads tag (streams sock) = payloads tag front ++ payloads tag rest := by
    rw [hsplit,payloads,filter_append,flatMap_append]
    rfl
  refine ⟨hinv.account,?_,fun hnone hempty => ?_,?_,fun hmem =>
    ⟨hinv.polled hmem,hinv.dropq⟩⟩
  · rw [happend,← hstream,append_assoc]
    exact prefix_append _ _
  · have hrest : rest = [] := by
      cases rest with
      | nil => rfl
      | cons message others =>
        rw [hunread,flatMap_cons,append_eq_nil_iff] at hnone
        exact absurd hnone.1 message.frame_ne_nil
    rw [hempty,append_nil] at hstream
    rw [happend,hstream,hrest]
    exact (append_nil _).symm
  · intro request hmem hsock htag herr
    have hroom := hinv.whole request hmem hsock htag herr
    have hsound := (hinv.posted request hmem).1
    have hfull : request.completeSize = request.bufs.flatten.length := by
      have hle := hsound.completeSize
      have hsize := hsound.requestSize
      unfold Posted.room at hroom
      omega
    rw [Posted.content,hfull,take_length]

/-- In every run in which each step is admitted, the receive buffers of a stream, one after the
other, hold its bytes in order. -/
theorem delivered_of_admitted (config : Config) (sock : Sock) (tag : Tag) (socks : List Sock)
    (streams : Sock → List Framed) (actions : List Action)
    (hmeets : Meets (step config) (Admits config sock tag) (init socks streams) actions) :
    Always (step config) (Delivered sock tag socks streams) (init socks streams) actions :=
  (always_of_meets (fun _ _ _ hinv hadmitted hs => hinv.step hadmitted hs)
    (inv_init sock tag socks streams) hmeets).imp fun _ hinv => hinv.delivered

def plainConfig : Config := ⟨false,false,0#32,0#32⟩

def twoMessages : Sock → List Framed := fun sock =>
  if sock = 5#32 then [⟨1#32,[1#8,2#8],by decide⟩,⟨1#32,[3#8,4#8],by decide⟩] else []

def readMessage : List Action :=
  [.arrive 5#32 14,.poll [(5#32,false)] (List.replicate 12 0#8),.answer (.got 12),
    .answer (.got 12),.answer (.got 2),.wait 0]

/-- The first of the messages into two buffers of two bytes. -/
theorem delivered_of_admitted_pair :
    Always (step plainConfig) (Delivered 5#32 1#32 [5#32] twoMessages) (init [5#32] twoMessages)
      (.irecv 5#32 1#32 [[0#8, 0#8], [0#8, 0#8]] :: readMessage) := by
  refine delivered_of_admitted _ _ _ _ _ _ ?_
  refine meets_cons rfl ⟨rfl,by decide,fun _ hplace => ?_⟩ ?_
  · exact nomatch hplace
  refine meets_cons rfl ⟨rfl,trivial⟩ ?_
  refine meets_cons rfl ⟨rfl,forall_mem_singleton.mpr fun _ => rfl⟩ ?_
  refine meets_cons rfl ⟨rfl,?_⟩ ?_
  · rintro _ ⟨⟩ - -
    decide
  refine meets_cons rfl ⟨rfl,?_⟩ ?_
  · rintro _ ⟨⟩ - -
    exact ⟨by decide,by decide⟩
  refine meets_cons rfl ⟨rfl,?_⟩ ?_
  · rintro _ ⟨⟩ -
    exact ⟨by decide,nofun⟩
  refine meets_cons rfl ⟨rfl,?_⟩ trivial
  rintro _ _ ⟨⟩ - ⟨⟩ - -
  exact ⟨by decide,fun h => absurd rfl h⟩

/-- Two messages of two bytes go into one buffer, the second over the first. And a header is taken
for one without the magic number. -/
theorem received_overwritten :
    (∃ out, run (step plainConfig) (init [5#32] twoMessages)
        (.irecv 5#32 1#32 [[0#8, 0#8, 0#8, 0#8]] :: (readMessage ++ readMessage)) = some out ∧
        unread 5#32 out = [] ∧ waiting 5#32 1#32 out.complete = [] ∧
        filled 5#32 1#32 out = [3#8, 4#8, 0#8, 0#8]) ∧
      payloads 1#32 (twoMessages 5#32) = [1#8, 2#8, 3#8, 4#8] ∧
      ∃ out, run (step plainConfig) (init [5#32] twoMessages)
        [.arrive 5#32 3, .poll [(5#32, false)] (List.replicate 12 0#8), .answer (.got 3),
          .answer (.got 3), .answer (.got 3), .answer (.got 3), .drain] = some out ∧
        out.polled = [] ∧ filled 5#32 1#32 out = [] := by
  refine ⟨⟨_,rfl,?_,?_,?_⟩,?_,_,rfl,?_,?_⟩ <;> decide

end Hqemu.Net.Receive
