import Hqemu.Lib.Run
import Mathlib.Algebra.Ring.Nat

/-! DMA between guest memory and a disk (`dma-helpers.c`), in rounds of what can be mapped. -/
namespace Hqemu.Block.Dma

open List

open Lib.Run (Always Meets always_of_meets)

structure ScatterGatherEntry where
  base : Nat
  len : Nat

def bytes (list : List ScatterGatherEntry) : List Nat :=
  list.flatMap fun entry => List.range' entry.base entry.len

/-- `todo` are the entries from `sg_cur_index` on. -/
structure DMAAIOCB where
  sectorNum : Nat
  todo : List ScatterGatherEntry
  sgCurByte : Nat
  iov : List ScatterGatherEntry

/-- What `dma_bdrv_cb` does first: the sectors of the last request are passed, and it is
unmapped. -/
def DMAAIOCB.reset (dbs : DMAAIOCB) : DMAAIOCB :=
  { dbs with sectorNum := dbs.sectorNum+(bytes dbs.iov).length / 512, iov := [] }

/-- The loop over the list, for the lengths that `cpu_physical_memory_map` grants: less than asked
for, perhaps, but not 0. A refusal ends it. -/
def mapLoop : List Nat → DMAAIOCB → Option DMAAIOCB
  | [], dbs => some dbs
  | curLen :: grants, dbs =>
    match dbs.todo with
    | [] => none
    | entry :: later =>
      if 0 < curLen ∧ dbs.sgCurByte+curLen ≤ entry.len then
        let iov := dbs.iov ++ [⟨entry.base+dbs.sgCurByte,curLen⟩]
        mapLoop grants (if dbs.sgCurByte + curLen = entry.len then ⟨dbs.sectorNum,later,0,iov⟩
          else { dbs with sgCurByte := dbs.sgCurByte+curLen, iov := iov })
      else none

def DMAAIOCB.moved (dbs : DMAAIOCB) : List (Nat × Nat) :=
  (List.range' (512*dbs.sectorNum) (512 * ((bytes dbs.iov).length / 512))).zip (bytes dbs.iov)

def transfer : List (List Nat) → DMAAIOCB → Option (List (Nat × Nat))
  | [], dbs => if dbs.todo.isEmpty then some [] else none
  | grants :: rounds, dbs =>
    if dbs.todo.isEmpty then none
    else (mapLoop grants dbs.reset).bind fun dbs => (transfer rounds dbs).map (dbs.moved ++ ·)

def ofList (sg : List ScatterGatherEntry) (sectorNum : Nat) : DMAAIOCB := ⟨sectorNum,sg,0,[]⟩

def wholeList (sg : List ScatterGatherEntry) (sectorNum : Nat) : List (Nat × Nat) :=
  (List.range' (512*sectorNum) (bytes sg).length).zip (bytes sg)

def DMAAIOCB.remaining (dbs : DMAAIOCB) : List Nat := (bytes dbs.todo).drop dbs.sgCurByte

variable {dbs next : DMAAIOCB} {grants : List Nat} {entry : ScatterGatherEntry}
  {later sg : List ScatterGatherEntry} {cur n sectorNum : Nat}

theorem drop_bytes_cons (hle : cur+n ≤ entry.len) :
    (bytes (entry :: later)).drop cur =
      List.range' (entry.base+cur) n ++ (bytes (entry :: later)).drop (cur+n) := by
  have hsplit : List.range' entry.base entry.len = List.range' entry.base cur ++
      (List.range' (entry.base+cur) n ++ List.range' (entry.base+cur+n) (entry.len-cur-n)) := by
    rw [range'_append_1,range'_append_1]
    congr 1
    omega
  simp only [bytes,flatMap_cons,hsplit,append_assoc]
  rw [drop_left' (by simp),← drop_drop,drop_left' (by simp),drop_left' (by simp)]

theorem mapLoop_some (h : mapLoop grants dbs = some next) :
    ∃ part, part.length = grants.sum ∧ dbs.remaining = part ++ next.remaining ∧
      bytes next.iov = bytes dbs.iov ++ part ∧ next.sectorNum = dbs.sectorNum := by
  induction grants generalizing dbs with
  | nil =>
    cases h
    exact ⟨[],rfl,rfl,(append_nil _).symm,rfl⟩
  | cons curLen grants ih =>
    unfold mapLoop at h
    cases htodo : dbs.todo with
    | nil => simp [htodo] at h
    | cons entry later =>
      simp only [htodo,Option.ite_none_right_eq_some] at h
      obtain ⟨⟨-,hle⟩,h⟩ := h
      obtain ⟨part,hlen,hremaining,hiov,hsector⟩ := ih h
      refine ⟨List.range' (entry.base+dbs.sgCurByte) curLen ++ part,?_,?_,?_,?_⟩
      · rw [length_append,length_range',hlen,sum_cons]
      · rw [append_assoc,← hremaining,DMAAIOCB.remaining,htodo,drop_bytes_cons hle]
        split
        · next hend =>
          rw [hend]
          simp [DMAAIOCB.remaining,bytes]
        · rfl
      · rw [hiov]
        split <;> simp [bytes]
      · rw [hsector]
        split <;> rfl

variable {rounds : List (List Nat)} {log : List (Nat × Nat)}

theorem transfer_some (h : transfer rounds dbs = some log) :
    log.length ≤ dbs.remaining.length ∧
    (log.length = dbs.remaining.length → ∀ grants ∈ rounds, grants.sum%512 = 0) ∧
    ((∀ grants ∈ rounds, grants.sum%512 = 0) →
      log = (List.range' (512*dbs.reset.sectorNum) dbs.remaining.length).zip dbs.remaining) := by
  induction rounds generalizing dbs log with
  | nil =>
    obtain ⟨hempty,hlog⟩ := Option.ite_none_right_eq_some.mp h
    cases hlog
    simp [DMAAIOCB.remaining,isEmpty_iff.mp hempty,bytes]
  | cons grants rounds ih =>
    unfold transfer at h
    simp only [Option.ite_none_left_eq_some,Option.bind_eq_some_iff,Option.map_eq_some_iff] at h
    obtain ⟨-,next,hmap,rest,hrest,rfl⟩ := h
    obtain ⟨part,hlen,hremaining,hiov,hsector⟩ := mapLoop_some hmap
    obtain ⟨hle,hwhole,hexact⟩ := ih hrest
    have hbytes : bytes next.iov = part := hiov
    have hmoved : next.moved.length = 512*(grants.sum/512) := by
      simp only [DMAAIOCB.moved,hbytes,hlen,length_zip,length_range']
      omega
    have hsplit : dbs.remaining = part ++ next.remaining := hremaining
    rw [hsplit,length_append,length_append,hmoved,hlen]
    refine ⟨by omega,fun hsame => ?_,fun hall => ?_⟩
    · exact forall_mem_cons.mpr ⟨by omega,hwhole (by omega)⟩
    · obtain ⟨hgrants,hall⟩ := forall_mem_cons.mp hall
      have hfull : 512*(grants.sum/512) = grants.sum := by omega
      rw [hexact hall,DMAAIOCB.moved,hbytes,hlen,hfull,← range'_append_1,
        zip_append (by rw [length_range',hlen]),hsector]
      congr 3
      simp only [DMAAIOCB.reset,hbytes,hlen,hsector]
      omega

/-- Each byte is moved to its place, and once, exactly if each round maps whole sectors. -/
theorem transfer_exact_iff (h : transfer rounds (ofList sg sectorNum) = some log) :
    log = wholeList sg sectorNum ↔ ∀ grants ∈ rounds, grants.sum % 512 = 0 := by
  obtain ⟨-,hwhole,hexact⟩ := transfer_some h
  have hstart : (ofList sg sectorNum).reset.sectorNum = sectorNum := by
    simp [ofList,DMAAIOCB.reset,bytes]
  rw [hstart] at hexact
  refine ⟨fun hlog => hwhole ?_,hexact⟩
  rw [hlog,wholeList,length_zip,length_range',Nat.min_self]
  rfl

theorem transfer_exact_twoRounds :
    ∃ log, transfer [[512], [512]] (ofList [⟨0, 1024⟩] 3) = some log ∧
      log = wholeList [⟨0, 1024⟩] 3 := by
  obtain ⟨log,hlog⟩ : ∃ log, transfer [[512],[512]] (ofList [⟨0,1024⟩] 3) = some log :=
    Option.isSome_iff_exists.mp (by decide +kernel)
  exact ⟨log,hlog,(transfer_exact_iff hlog).mpr (by decide)⟩

/-- The second entry is mapped after the first one, half a sector long, was given to the disk: the
transfer succeeds and moves nothing. -/
theorem half_sectors_lost :
    transfer [[256], [256]] (ofList [⟨0, 256⟩, ⟨4096, 256⟩] 0) = some [] ∧
      wholeList [⟨0, 256⟩, ⟨4096, 256⟩] 0 ≠ [] := by
  constructor
  · simp [transfer,mapLoop,ofList,DMAAIOCB.reset,DMAAIOCB.moved,bytes]
  intro h
  have hlen := congrArg List.length h
  simp [wholeList,bytes] at hlen

theorem transfer_order (h : transfer rounds dbs = some log) :
    log.map Prod.fst = List.range' (512*dbs.reset.sectorNum) log.length ∧
      log.map Prod.snd <+ dbs.remaining := by
  induction rounds generalizing dbs log with
  | nil =>
    cases (Option.ite_none_right_eq_some.mp h).2
    simp
  | cons grants rounds ih =>
    unfold transfer at h
    simp only [Option.ite_none_left_eq_some,Option.bind_eq_some_iff,Option.map_eq_some_iff] at h
    obtain ⟨-,next,hmap,rest,hrest,rfl⟩ := h
    obtain ⟨part,-,hremaining,hiov,hsector⟩ := mapLoop_some hmap
    obtain ⟨hdisk,hmem⟩ := ih hrest
    have hbytes : bytes next.iov = part := hiov
    have hle : 512*(part.length/512) ≤ part.length := Nat.mul_div_le _ _
    have hlen : next.moved.length = 512*(part.length/512) := by
      simp [DMAAIOCB.moved,hbytes,hle]
    constructor
    · rw [map_append,hdisk,length_append,hlen,← range'_append_1,DMAAIOCB.moved,hbytes,
        map_fst_zip (by simpa using hle),hsector]
      congr 2
      simp only [DMAAIOCB.reset,hbytes,hsector]
      omega
    · have hpart : next.moved.map Prod.snd <+ part := by
        rw [DMAAIOCB.moved,hbytes,zip_eq_zip_take_min,map_snd_zip (by simp)]
        exact take_sublist ..
      rw [map_append]
      exact hremaining ▸ hpart.append hmem

/-- However the list is mapped, the disk is filled without a gap, and the bytes of the list are in
order on it, each at most once. -/
theorem transfer_in_order (h : transfer rounds (ofList sg sectorNum) = some log) :
    log.map Prod.fst = List.range' (512 * sectorNum) log.length ∧
      log.map Prod.snd <+ bytes sg := by
  simpa [ofList,DMAAIOCB.reset,DMAAIOCB.remaining,bytes] using transfer_order h

theorem transfer_in_order_uneven :
    ∃ log, transfer [[512, 256], [256]] (ofList [⟨0, 512⟩, ⟨4096, 512⟩] 3) = some log ∧
      log.map Prod.fst = List.range' (512 * 3) log.length ∧
        log.map Prod.snd <+ bytes [⟨0, 512⟩, ⟨4096, 512⟩] := by
  obtain ⟨log,hlog⟩ := Option.isSome_iff_exists.mp (show (transfer [[512,256],[256]]
    (ofList [⟨0,512⟩,⟨4096,512⟩] 3)).isSome by decide +kernel)
  exact ⟨log,hlog,transfer_in_order hlog⟩

/-- Who will call `dma_bdrv_cb`: the disk, the bottom half, or the bottom half that
`continue_after_map_failure` is going to schedule. -/
inductive Waiting where
  | disk | mapClient | bh
  deriving DecidableEq

/-- The answer to a disk request. One that completes at once calls `dma_bdrv_cb`, with the mappings
and the answer to the next request. -/
inductive Answer where
  | refused
  | accepted
  | completes (ret : Int) (grants : List Nat) (answer : Answer)

/-- A control block, with the calls of the callback, the releases, and whether it was used after
one. `handle` is what `dma_bdrv_io` returned. -/
structure Request where
  dbs : DMAAIOCB
  acb : Bool
  waiting : Option Waiting
  calls : Nat
  released : Nat
  stale : Bool
  handle : Bool

def Request.use (request : Request) : Request :=
  { request with stale := request.stale || decide (0 < request.released) }

def dmaBdrvCb (answer : Answer) (request : Request) (ret : Int) (grants : List Nat) :
    Option Request :=
  let request := { request.use with acb := false, waiting := none }
  if request.dbs.todo.isEmpty ∨ ret < 0 then
    some { request with calls := request.calls+1, released := request.released+1 }
  else
    (mapLoop grants request.dbs.reset).bind fun dbs =>
      let request := { request with dbs := dbs }
      if (bytes dbs.iov).length = 0 then some { request with waiting := some .mapClient }
      else match answer with
        | .refused => some request
        | .accepted => some { request with acb := true, waiting := some .disk }
        | .completes ret grants answer =>
          (dmaBdrvCb answer request ret grants).map fun request => { request.use with acb := true }

def dmaBdrvIo (sg : List ScatterGatherEntry) (sectorNum : Nat) (grants : List Nat)
    (answer : Answer) : Option Request :=
  (dmaBdrvCb answer ⟨ofList sg sectorNum,false,none,0,0,false,false⟩ 0 grants).map
    fun request =>
      if request.acb then { request.use with handle := true }
      else { request.use with released := request.released+1 }

inductive Event where
  | complete (ret : Int) (grants : List Nat) (answer : Answer)
  | mapClients
  | bottomHalf (grants : List Nat) (answer : Answer)

def Request.step (request : Request) : Event → Option Request
  | .complete ret grants answer =>
    if request.waiting = some .disk then dmaBdrvCb answer request ret grants else none
  | .mapClients =>
    if request.waiting = some .mapClient then some { request.use with waiting := some .bh }
    else none
  | .bottomHalf grants answer =>
    if request.waiting = some .bh then dmaBdrvCb answer request 0 grants else none

/-- With a handle the callback is called once, when nothing is waited for, and without one never;
then the control block is released, once. -/
structure Request.Sound (request : Request) : Prop where
  unused : request.stale = false
  calls : request.calls = if request.handle ∧ request.waiting = none then 1 else 0
  ended : request.handle = false → request.waiting = none
  released : request.released = if request.waiting = none then 1 else 0

def GoesOn (request : Request) (ret : Int) (grants : List Nat) (answer : Answer) : Prop :=
  request.dbs.todo = [] ∨ ret < 0 ∨ grants = [] ∨ answer = .accepted

def Request.Smooth (request : Request) : Event → Prop
  | .complete ret grants answer => GoesOn request ret grants answer
  | .mapClients => True
  | .bottomHalf grants answer => GoesOn request 0 grants answer

variable {request after : Request} {ret : Int} {answer : Answer}

theorem Request.Sound.dmaBdrvCb (h : request.Sound) (hwait : request.waiting ≠ none)
    (hsmooth : GoesOn request ret grants answer)
    (hcb : dmaBdrvCb answer request ret grants = some after) : after.Sound := by
  have hhandle : request.handle = true := by
    by_contra hnone
    exact hwait (h.ended (Bool.eq_false_iff.mpr hnone))
  have hclass : request.calls = 0 := by rw [h.calls,if_neg fun hend => hwait hend.2]
  have hrel : request.released = 0 := by rw [h.released,if_neg hwait]
  unfold Dma.dmaBdrvCb at hcb
  simp only [Request.use,h.unused,hclass,hrel] at hcb
  split at hcb
  · cases hcb
    exact ⟨rfl,by simp [hhandle],by simp,rfl⟩
  · next hmore =>
    obtain ⟨dbs,hmap,hcb⟩ := Option.bind_eq_some_iff.mp hcb
    split at hcb
    · cases hcb
      exact ⟨rfl,by simp,by simp [hhandle],by simp⟩
    · next hsize =>
      rcases hsmooth with htodo | hret | rfl | rfl
      · simp [htodo] at hmore
      · exact absurd (.inr hret) hmore
      · cases hmap
        exact absurd rfl hsize
      · cases hcb
        exact ⟨rfl,by simp,by simp [hhandle],by simp⟩

theorem Request.Sound.step {event : Event} (h : request.Sound) (hsmooth : request.Smooth event)
    (hs : request.step event = some after) : after.Sound := by
  cases event with
  | complete ret grants answer | bottomHalf grants answer =>
    obtain ⟨hwait,hcb⟩ := Option.ite_none_right_eq_some.mp hs
    exact h.dmaBdrvCb (by simp [hwait]) hsmooth hcb
  | mapClients =>
    obtain ⟨hwait,hafter⟩ := Option.ite_none_right_eq_some.mp hs
    cases hafter
    obtain ⟨hunused,hclass,hended,hrel⟩ := h
    simp only [hwait,reduceCtorEq,and_false,if_false,imp_false] at hclass hended hrel
    exact ⟨by simp [Request.use,hunused,hrel],by simpa [Request.use] using hclass,
      fun hhandle => absurd hhandle hended,by simpa [Request.use] using hrel⟩

/-- The list is not empty, its first mapping is granted, and the disk completes no request at
once. -/
theorem always_sound_dmaBdrvIo (hsg : sg ≠ []) (hgrants : 0 < grants.sum)
    (hanswer : answer = .refused ∨ answer = .accepted)
    (h : dmaBdrvIo sg sectorNum grants answer = some request) {events : List Event}
    (hsmooth : Meets Request.step Request.Smooth request events) :
    Always Request.step Request.Sound request events := by
  refine always_of_meets (fun _ _ _ hsound hcond hs => hsound.step hcond hs) ?_ hsmooth
  obtain ⟨after,hcb,rfl⟩ := Option.map_eq_some_iff.mp h
  unfold Dma.dmaBdrvCb at hcb
  simp only [Request.use,ofList,List.isEmpty_iff,hsg,Int.lt_irrefl,or_self,if_false] at hcb
  obtain ⟨dbs,hmap,hcb⟩ := Option.bind_eq_some_iff.mp hcb
  obtain ⟨part,hlen,-,hiov,-⟩ := mapLoop_some hmap
  have hsize : (bytes dbs.iov).length ≠ 0 := by
    rw [show bytes dbs.iov = part from hiov]
    omega
  rw [if_neg hsize] at hcb
  obtain rfl | rfl := hanswer
  · cases hcb
    exact ⟨rfl,rfl,fun _ => rfl,rfl⟩
  · cases hcb
    exact ⟨rfl,rfl,nofun,rfl⟩

theorem always_sound_oneRound :
    ∃ request, dmaBdrvIo [⟨0, 1⟩] 0 [1] .accepted = some request ∧
      Always Request.step Request.Sound request [.complete 0 [] .refused] := by
  have hreq : dmaBdrvIo [⟨0,1⟩] 0 [1] .accepted =
      some ⟨⟨0,[],0,[⟨0,1⟩]⟩,true,some .disk,0,0,false,true⟩ := rfl
  exact ⟨_,hreq,always_sound_dmaBdrvIo (by simp) (by decide) (.inr rfl) hreq
    fun _ _ => ⟨.inl rfl,trivial⟩⟩

/-- An empty list, a refused first mapping, and a later request that is refused. -/
theorem unsound_requests :
    (∃ request, dmaBdrvIo [] 0 [] .accepted = some request ∧ request.handle = false ∧
      request.calls = 1 ∧ request.released = 2 ∧ request.stale = true) ∧
    (∃ request, dmaBdrvIo [⟨0, 1⟩] 0 [] .accepted = some request ∧ request.handle = false ∧
      request.released = 1 ∧ request.waiting = some .mapClient) ∧
    ∃ request after, dmaBdrvIo [⟨0, 2⟩] 0 [1] .accepted = some request ∧
      request.step (.complete 0 [1] .refused) = some after ∧ after.handle = true ∧
      after.waiting = none ∧ after.calls = 0 ∧ after.released = 0 :=
  ⟨⟨_,rfl,rfl,rfl,rfl,rfl⟩,⟨_,rfl,rfl,rfl,rfl⟩,_,_,rfl,rfl,rfl,rfl,rfl,rfl⟩

end Hqemu.Block.Dma
