import Hqemu.Lib.Run
import Hqemu.Net.Receive

/-! Where the bytes of a stream are: in the buffers of receives, then in the messages not taken,
then in the socket. -/
namespace Hqemu.Net.Receive

open List

def payloads (tag : Tag) (messages : List Framed) : List Byte :=
  (messages.filter fun message => message.tag = tag).flatMap Framed.payload

def Posted.content (request : Posted) : List Byte := request.bufs.flatten.take request.completeSize

def Posted.taken (sock : Sock) (tag : Tag) (request : Posted) : List Byte :=
  if request.sock = sock ∧ request.tag = tag then request.content else []

def filled (sock : Sock) (tag : Tag) (state : State) : List Byte :=
  state.order.flatMap fun handle => (state.posted[handle]?.map (Posted.taken sock tag)).getD []

def waiting (sock : Sock) (tag : Tag) (queue : List Inbound) : List Byte :=
  queue.flatMap fun data => if data.sock = sock ∧ data.tag = tag then data.left else []

def Phase.got (header : List Byte) : Phase → List Byte
  | .peek _ => []
  | .header got => got
  | .payload got => header ++ got

def unread (sock : Sock) (state : State) : List Byte :=
  (match state.reading with
    | some reading => if reading.sock = sock then reading.phase.got state.header else []
    | none => []) ++ state.arrived sock ++ state.inflight sock

section Fill

variable {sock : Sock} {tag : Tag}

variable {queue : List Inbound} {place : Place}

theorem searchRecvq_split (hsource : searchRecvq sock tag queue = some place) :
    queue = place.front ++ place.data :: place.back ∧ place.data.suits sock tag = true ∧
      ∀ data ∈ place.front, data.suits sock tag = false := by
  induction queue generalizing place with
  | nil => exact absurd hsource (by simp [searchRecvq])
  | cons first queue ih =>
    unfold searchRecvq at hsource
    split at hsource
    · next hsuits =>
      rw [← Option.some.inj hsource]
      exact ⟨rfl,hsuits,forall_mem_nil _⟩
    · next hnot =>
      obtain ⟨inner,hinner,hplace⟩ := Option.map_eq_some_iff.mp hsource
      obtain ⟨hq,hsuits,hfront⟩ := ih hinner
      rw [← hplace]
      refine ⟨by rw [hq]; rfl,hsuits,?_⟩
      intro data hmem
      rcases mem_cons.mp hmem with rfl | hmem
      · simpa using hnot
      · exact hfront data hmem

theorem ne_anySource {other : Sock} (hother : other.msb = false) : other ≠ anySource := by
  intro heq
  rw [heq] at hother
  exact absurd hother (by decide)

def Inbound.Named (data : Inbound) : Prop := data.sock ≠ anySource ∧ data.tag ≠ anyTag

structure Posted.Sound (request : Posted) : Prop where
  requestSize : request.requestSize = request.bufs.flatten.length
  completeSize : request.completeSize ≤ request.requestSize

def Posted.Settled (request : Posted) : Prop :=
  request.completeSize ≠ 0 → request.sock ≠ anySource ∧ request.tag ≠ anyTag

variable {request : Posted}

theorem Posted.content_of_empty (hempty : request.completeSize = 0) : request.content = [] := by
  rw [Posted.content,hempty,take_zero]

variable {data : Inbound}

theorem bind_eq (hnamed : data.Named) (hsuits : data.suits request.sock request.tag = true) :
    (request.bind data).sock = data.sock ∧ (request.bind data).tag = data.tag := by
  simp only [Inbound.suits,Bool.and_eq_true,Bool.or_eq_true,decide_eq_true_eq,
    hnamed.1,hnamed.2,or_false] at hsuits
  constructor
  · simp only [Posted.bind]
    split
    · rfl
    · next hsock => exact hsuits.1.resolve_left hsock
  · simp only [Posted.bind]
    split
    · rfl
    · next htag => exact hsuits.2.resolve_left htag

theorem taken_before (hnamed : data.Named) (hsuits : data.suits request.sock request.tag = true)
    (hset : request.Settled) :
    request.taken sock tag = if data.sock = sock ∧ data.tag = tag then request.content else [] := by
  by_cases hempty : request.completeSize = 0
  · unfold Posted.taken
    rw [Posted.content_of_empty hempty]
    split <;> split <;> rfl
  · have hexplicit := hset hempty
    have hbind := bind_eq hnamed hsuits
    simp only [Posted.bind,if_neg hexplicit.1,if_neg hexplicit.2] at hbind
    rw [Posted.taken,hbind.1,hbind.2]

theorem fill_sound (hsound : request.Sound) : (request.fill data).Sound := by
  have hroom := hsound.completeSize
  refine ⟨?_,?_⟩
  · have hlengths := congrArg List.sum
      (moveData_lengths request.bufs request.completeSize (min request.room data.left.length)
        data.left)
    simp only [Posted.fill,hsound.requestSize,length_flatten] at hlengths ⊢
    exact hlengths.symm
  · simp only [Posted.fill,Posted.room]
    omega

theorem fill_content (hsound : request.Sound) (hbound : Boundary request.bufs request.completeSize)
    :
    (request.fill data).content =
      request.content ++ data.left.take (min request.room data.left.length) := by
  have hroom := hsound.completeSize
  have hsize := hsound.requestSize
  generalize hcount : min request.room data.left.length = count
  have hle : request.completeSize+count ≤ request.bufs.flatten.length := by
    unfold Posted.room at hcount
    omega
  have hleft : count ≤ data.left.length := by omega
  have hmoved := moved_moveData hbound hle hleft
  have hfront : (request.bufs.flatten.take request.completeSize ++ data.left.take count).length =
      request.completeSize+count := by
    rw [length_append,length_take_of_le (by omega),length_take_of_le hleft]
  simp only [Posted.fill,hcount,Posted.content]
  rw [hmoved.content,← hfront,take_left]

theorem waiting_append (front back : List Inbound) :
    waiting sock tag (front ++ back) = waiting sock tag front ++ waiting sock tag back :=
  flatMap_append

theorem waiting_cons (data : Inbound) (queue : List Inbound) :
    waiting sock tag (data :: queue) =
      (if data.sock = sock ∧ data.tag = tag then data.left else []) ++ waiting sock tag queue := rfl

theorem after_left (hsound : request.Sound) (hbound : Boundary request.bufs request.completeSize)
    (hmine : place.data.sock = sock ∧ place.data.tag = tag) :
    waiting sock tag (place.after request) = waiting sock tag place.front ++
      place.data.left.drop (min request.room place.data.left.length) ++
        waiting sock tag place.back := by
  have hroom := hsound.completeSize
  unfold Place.after
  split
  · next hall =>
    rw [Place.erase,waiting_append,Nat.min_eq_right hall,drop_length,append_nil]
  · next hpart =>
    have hle : request.completeSize+request.room ≤ request.bufs.flatten.length := by
      rw [← hsound.requestSize]
      unfold Posted.room
      omega
    have hmoved := moved_moveData hbound hle (Nat.le_of_not_le hpart)
    have hdrop : place.data.buffer.drop (place.data.requestSize+request.room) =
        place.data.left.drop request.room := by
      rw [Inbound.left,drop_drop]
    rw [hmoved.count,waiting_append,waiting_cons,if_pos hmine,Nat.min_eq_left (by omega),
      append_assoc,← hdrop]
    rfl

theorem after_other (hother : ¬(place.data.sock = sock ∧ place.data.tag = tag)) :
    waiting sock tag (place.after request) =
      waiting sock tag (place.front ++ place.data :: place.back) := by
  unfold Place.after
  rw [waiting_append,waiting_cons,if_neg hother,nil_append]
  split
  · rw [Place.erase,waiting_append]
  · rw [waiting_append,waiting_cons,if_neg hother,nil_append]

theorem fill_stream {bound : Posted}
    (hsource : searchRecvq request.sock request.tag queue = some place)
    (hnamed : ∀ data ∈ queue, data.Named) (hset : request.Settled) (hsound : bound.Sound)
    (hsock : bound.sock = (request.bind place.data).sock)
    (htag : bound.tag = (request.bind place.data).tag) (hcontent : bound.content = request.content)
    (hbound : place.data.sock = sock → place.data.tag = tag → Boundary bound.bufs
        bound.completeSize) :
    (bound.fill place.data).taken sock tag ++ waiting sock tag (place.after bound) =
      request.taken sock tag ++ waiting sock tag queue := by
  obtain ⟨hq,hsuits,hfront⟩ := searchRecvq_split hsource
  have hdata : place.data.Named := hnamed _ (by rw [hq]; simp)
  have hbind := bind_eq hdata hsuits
  have hkeep : (bound.fill place.data).sock = place.data.sock ∧
      (bound.fill place.data).tag = place.data.tag :=
    ⟨hsock.trans hbind.1,htag.trans hbind.2⟩
  rw [taken_before hdata hsuits hset,Posted.taken,hkeep.1,hkeep.2]
  by_cases hmine : place.data.sock = sock ∧ place.data.tag = tag
  · have hnone : waiting sock tag place.front = [] := by
      unfold waiting
      rw [flatMap_eq_nil_iff]
      intro data hmem
      apply if_neg
      intro hsame
      have hno := hfront data hmem
      rw [Inbound.suits,hsame.1,hsame.2,← hmine.1,← hmine.2] at hno
      rw [Inbound.suits,hno] at hsuits
      exact absurd hsuits (by decide)
    have hat := hbound hmine.1 hmine.2
    rw [if_pos hmine,if_pos hmine,fill_content hsound hat,after_left hsound hat hmine,hq,
      waiting_append,waiting_cons,if_pos hmine,hnone,hcontent]
    simp only [nil_append,append_assoc]
    rw [← append_assoc (List.take _ _),take_append_drop]
  · rw [if_neg hmine,if_neg hmine,after_other hmine,hq]

def lefts (sock : Sock) (tag : Tag) (queue : List Inbound) : List (List Byte) :=
  (queue.filter fun data => data.sock = sock ∧ data.tag = tag).map Inbound.left

def Aligned (bufs : List (List Byte)) (done : Nat) (messages : List (List Byte)) : Prop :=
  ∀ count, done+(messages.take count).flatten.length < bufs.flatten.length →
    Boundary bufs (done+(messages.take count).flatten.length)

theorem lefts_of_place (hsource : searchRecvq request.sock request.tag queue = some place)
    (hmine : place.data.sock = sock ∧ place.data.tag = tag) :
    lefts sock tag queue = place.data.left :: lefts sock tag place.erase := by
  obtain ⟨hq,hsuits,hfront⟩ := searchRecvq_split hsource
  have hnone : place.front.filter (fun data => data.sock = sock ∧ data.tag = tag) = [] := by
    rw [filter_eq_nil_iff]
    intro data hmem hsame
    have hpair : data.sock = sock ∧ data.tag = tag := by simpa using hsame
    have hno := hfront data hmem
    rw [Inbound.suits,hpair.1,hpair.2,← hmine.1,← hmine.2] at hno
    rw [Inbound.suits,hno] at hsuits
    exact absurd hsuits (by decide)
  have hkeep : decide (place.data.sock = sock ∧ place.data.tag = tag) = true := by simp [hmine]
  simp only [lefts,Place.erase,hq,filter_append,hnone,nil_append]
  rw [filter_cons,if_pos hkeep,map_cons]

def Queue (sock : Sock) (tag : Tag) (queue : List Inbound) : Prop :=
  ∀ data ∈ queue, data.Named ∧ (data.sock = sock → data.tag = tag → data.flushed = none)

theorem Queue.erase (hq : Queue sock tag queue)
    (hsource : searchRecvq request.sock request.tag queue = some place) :
    Queue sock tag place.erase := by
  rw [(searchRecvq_split hsource).1] at hq
  intro data hmem
  rcases mem_append.mp hmem with hfront | hback
  · exact hq data (mem_append_left _ hfront)
  · exact hq data (mem_append_right _ (mem_cons_of_mem _ hback))

theorem Queue.after (hq : Queue sock tag queue)
    (hsource : searchRecvq request.sock request.tag queue = some place) (bound : Posted) :
    Queue sock tag (place.after bound) := by
  unfold Place.after
  split
  · exact hq.erase hsource
  rw [(searchRecvq_split hsource).1] at hq
  intro data hmem
  rcases mem_append.mp hmem with hfront | hback
  · exact hq data (mem_append_left _ hfront)
  · rcases mem_cons.mp hback with rfl | hback
    · exact hq place.data (mem_append_right _ mem_cons_self)
    · exact hq data (mem_append_right _ (mem_cons_of_mem _ hback))

theorem Settled_of_named (hnamed : data.Named) (hsock : request.sock = data.sock)
    (htag : request.tag = data.tag) : request.Settled :=
  fun _ => ⟨hsock ▸ hnamed.1,htag ▸ hnamed.2⟩

structure LoopKept (sock : Sock) (tag : Tag) (request : Posted) (queue : List Inbound)
    (out : Posted × List Inbound) : Prop where
  stream : out.1.taken sock tag ++ waiting sock tag out.2 =
    request.taken sock tag ++ waiting sock tag queue
  sound : out.1.Sound
  settled : out.1.Settled
  queue : Queue sock tag out.2
  error : out.1.error = request.error

theorem irecvLoop_kept (fuel : Nat) (hq : Queue sock tag queue) (hsound : request.Sound)
    (hset : request.Settled) (hroom : request.room ≠ 0)
    (halign : ∀ place, searchRecvq request.sock request.tag queue = some place →
      place.data.sock = sock → place.data.tag = tag →
        Aligned request.bufs request.completeSize (lefts sock tag queue)) :
    LoopKept sock tag request queue (irecvLoop fuel request queue) := by
  induction fuel generalizing request queue with
  | zero => exact ⟨rfl,hsound,hset,hq,rfl⟩
  | succ fuel ih =>
    unfold irecvLoop
    split
    · exact ⟨rfl,hsound,hset,hq,rfl⟩
    · next place hsource =>
      obtain ⟨hsplit,hsuits,-⟩ := searchRecvq_split hsource
      have hnamed : place.data.Named := (hq _ (by rw [hsplit]; simp)).1
      have hbind := bind_eq hnamed hsuits
      generalize hbound : { request.bind place.data with
        flushed := place.data.flushed.or request.flushed } = bound
      have hsame : bound.bufs = request.bufs ∧ bound.completeSize = request.completeSize ∧
          bound.requestSize = request.requestSize ∧ bound.sock = place.data.sock ∧
          bound.tag = place.data.tag ∧ bound.error = request.error := by
        rw [← hbound]
        exact ⟨rfl,rfl,rfl,hbind.1,hbind.2,rfl⟩
      obtain ⟨hbufs,hcomplete,hreq,hsock,htag,herr⟩ := hsame
      have hboundSound : bound.Sound := by
        refine ⟨?_,?_⟩
        · rw [hreq,hbufs,hsound.requestSize]
        · rw [hreq,hcomplete]
          exact hsound.completeSize
      have hlt : request.completeSize < request.bufs.flatten.length := by
        have hsize := hsound.requestSize
        unfold Posted.room at hroom
        omega
      have hat : place.data.sock = sock → place.data.tag = tag →
          Boundary bound.bufs bound.completeSize := by
        intro hmineSock hmineTag
        rw [hbufs,hcomplete]
        exact halign place hsource hmineSock hmineTag 0 (by simpa using hlt)
      have hstream := fill_stream hsource (fun data hmem => (hq data hmem).1) hset
        hboundSound (hsock.trans hbind.1.symm) (htag.trans hbind.2.symm)
        (by rw [Posted.content,Posted.content,hbufs,hcomplete]) hat
      have hfield : (bound.fill place.data).Sound := fill_sound hboundSound
      have hnext : (bound.fill place.data).Settled := Settled_of_named hnamed hsock htag
      have hafter : Queue sock tag (place.after bound) := hq.after hsource bound
      simp only
      split
      · exact ⟨hstream,hfield,hnext,hafter,herr⟩
      · next hmore =>
        have hrest := ih hafter hfield hnext hmore ?_
        · exact ⟨hrest.stream.trans hstream,hrest.sound,hrest.settled,hrest.queue,hrest.error.trans
              herr⟩
        · intro other hother hmineSock hmineTag
          have hotherNamed : other.data.Named :=
            (hafter _ (by rw [(searchRecvq_split hother).1]; simp)).1
          have hexplicit := bind_eq hotherNamed (searchRecvq_split hother).2.1
          have hmine : place.data.sock = sock ∧ place.data.tag = tag := by
            simp only [Posted.bind,Posted.fill,hsock,htag,if_neg hnamed.1,if_neg hnamed.2]
                at hexplicit
            exact ⟨hexplicit.1.trans hmineSock,hexplicit.2.trans hmineTag⟩
          have hall : place.data.left.length ≤ bound.room := by
            by_contra hpart
            apply hmore
            simp only [Posted.room,Posted.fill]
            unfold Posted.room at hpart
            omega
          have herase : place.after bound = place.erase := if_pos hall
          have hlefts := lefts_of_place hsource hmine
          have hkeep : (bound.fill place.data).bufs.map List.length =
              request.bufs.map List.length := by
            rw [← hbufs]
            exact moveData_lengths _ _ _ _
          have hsize : (bound.fill place.data).completeSize =
              request.completeSize+place.data.left.length := by
            simp [Posted.fill,Nat.min_eq_right hall,hcomplete]
          have htotal : (bound.fill place.data).bufs.flatten.length =
              request.bufs.flatten.length := by
            rw [length_flatten,hkeep,← length_flatten]
          intro count hcount
          rw [herase,hsize,htotal,Nat.add_assoc] at hcount
          rw [herase,hsize,Nat.add_assoc]
          have hold := halign place hsource hmine.1 hmine.2 (count+1)
          rw [hlefts,take_succ_cons,flatten_cons,length_append] at hold
          exact boundary_congr hkeep.symm (hold hcount)

end Fill

end Hqemu.Net.Receive
