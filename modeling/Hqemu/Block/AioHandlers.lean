import Hqemu.Lib.Run
import Mathlib.Data.List.Nodup

/-! The loops over the handlers of `aio.c`, whose callbacks nest them and change the list. -/
namespace Hqemu.Block.AioHandlers
open List Lib.Run Function

inductive Callback where
  | ioRead | ioWrite | ioFlush | ioProcessQueue
deriving DecidableEq

structure AioHandler where
  fd : Int
  registered : List Callback
  deleted : Bool

/-- The loop of `qemu_aio_process_queue`, the two of `qemu_aio_wait` and that of
`qemu_aio_flush`. -/
inductive Loop where
  | processQueue | fillSets | dispatch | flush
deriving DecidableEq

def Loop.callbacks : Loop → List Callback
  | .processQueue => [.ioProcessQueue]
  | .fillSets | .flush => [.ioFlush]
  | .dispatch => [.ioRead,.ioWrite]

/-- A running loop: the handler it is positioned on and the callbacks still to look at there. -/
structure Walk where
  loop : Loop
  node : Option Nat
  todo : List Callback
deriving DecidableEq

/-- `aioHandlers` are the addresses in the list; `walks` has the innermost loop first. -/
structure State where
  aioHandlers : List Nat
  memory : Nat → AioHandler
  walkingHandlers : Bool
  walks : List Walk

def init : State := ⟨[],fun _ => ⟨0,[],false⟩,false,[]⟩

/-- What a callback does, with the address `qemu_mallocz` gives, and how the innermost loop goes
on, with what `FD_ISSET` gives. -/
inductive Action where
  | setFdHandler (fd : Int) (callbacks : List Callback) (new : Nat)
  | enter (loop : Loop)
  | visit (isSet : Bool)
  | advance
  | leave

def findAioHandler (s : State) (fd : Int) : Option Nat :=
  s.aioHandlers.find? fun node => (s.memory node).fd = fd ∧ ¬(s.memory node).deleted

def removes (callbacks : List Callback) : Bool := .ioRead ∉ callbacks ∧ .ioWrite ∉ callbacks

def setFdHandler (s : State) (fd : Int) (callbacks : List Callback) (new : Nat) : Option State :=
  match findAioHandler s fd with
  | some node =>
    if !removes callbacks then
      some { s with memory := update s.memory node ⟨fd,callbacks,false⟩ }
    else if s.walkingHandlers then
      some { s with memory := update s.memory node { s.memory node with deleted := true } }
    else some { s with aioHandlers := s.aioHandlers.erase node }
  | none =>
    if removes callbacks then some s
    else if new ∈ s.aioHandlers then none
    else some { s with
      aioHandlers := new :: s.aioHandlers
      memory := update s.memory new ⟨fd,callbacks,false⟩ }

/-- The handler whose callback the innermost loop invokes. -/
def invoked (s : State) (isSet : Bool) : Option Nat :=
  match s.walks with
  | ⟨loop,some node,callback :: _⟩ :: _ =>
    if callback ∈ (s.memory node).registered ∧
        (loop = .dispatch → ¬(s.memory node).deleted ∧ isSet) then some node
    else none
  | _ => none

def step (s : State) : Action → Option State
  | .setFdHandler fd callbacks new => setFdHandler s fd callbacks new
  | .enter loop => some { s with
      walkingHandlers := s.walkingHandlers || loop ≠ .flush
      walks := ⟨loop,s.aioHandlers.head?,loop.callbacks⟩ :: s.walks }
  | .visit _ =>
    match s.walks with
    | ⟨loop,node,_ :: todo⟩ :: outer => some { s with walks := ⟨loop,node,todo⟩ :: outer }
    | _ => none
  | .advance =>
    match s.walks with
    | ⟨loop,some node,[]⟩ :: outer =>
      if node ∉ s.aioHandlers then none
      else some { s with
        aioHandlers :=
          if loop = .dispatch ∧ (s.memory node).deleted then s.aioHandlers.erase node
          else s.aioHandlers
        walks := ⟨loop,s.aioHandlers[s.aioHandlers.idxOf node+1]?,loop.callbacks⟩ :: outer }
    | _ => none
  | .leave =>
    match s.walks with
    | ⟨loop,none,_⟩ :: outer => some { s with
        walkingHandlers := s.walkingHandlers && loop = .flush
        walks := outer }
    | _ => none

/-- Every loop is positioned on a handler that is still in the list. -/
def Linked (s : State) : Prop := ∀ walk ∈ s.walks, ∀ node ∈ walk.node, node ∈ s.aioHandlers

/-- A handler that was removed is marked or no longer in the list, and not invoked. -/
def Current (s : State) : Action → Prop
  | .visit isSet => ∀ node ∈ invoked s isSet, node ∈ s.aioHandlers ∧ ¬(s.memory node).deleted
  | _ => True

/-- `qemu_aio_wait` does not dispatch inside another loop. A handler is removed outside of all
loops, or while the flag is set if no callback of it is invoked on marked handlers. -/
def Calm (s : State) : Action → Prop
  | .enter loop => loop = .dispatch → s.walks = []
  | .setFdHandler fd callbacks _ => removes callbacks →
    if s.walkingHandlers then ∀ node ∈ findAioHandler s fd,
      .ioFlush ∉ (s.memory node).registered ∧ .ioProcessQueue ∉ (s.memory node).registered
    else s.walks = []
  | _ => True

instance (s : State) : DecidablePred (Calm s)
  | .enter _ | .setFdHandler _ _ _ => inferInstanceAs (Decidable (_ → _))
  | .visit _ | .advance | .leave => instDecidableTrue

structure Inv (s : State) : Prop where
  linked : Linked s
  distinct : s.aioHandlers.Nodup
  marked : ∀ node ∈ s.aioHandlers, (s.memory node).deleted →
    .ioFlush ∉ (s.memory node).registered ∧ .ioProcessQueue ∉ (s.memory node).registered
  outermost : s.walks.Pairwise fun inner _ => inner.loop ≠ .dispatch
  todo : ∀ walk ∈ s.walks, ∀ callback ∈ walk.todo, callback ∈ walk.loop.callbacks

variable {s next : State} {action : Action}

theorem Inv.setFdHandler {fd : Int} {callbacks : List Callback} {new : Nat} (hinv : Inv s)
    (hcalm : Calm s (.setFdHandler fd callbacks new))
    (hs : setFdHandler s fd callbacks new = some next) : Inv next := by
  have ⟨hlink,hdistinct,hmarked,_,_⟩ := hinv
  rw [Linked] at hlink
  rw [Calm] at hcalm
  unfold AioHandlers.setFdHandler at hs
  split at hs
  · split at hs
    · cases hs
      exact { hinv with marked := by grind [update_apply] }
    · split at hs <;> cases hs
      · exact { hinv with marked := by grind [update_apply] }
      · refine { hinv with linked := ?_, distinct := hdistinct.erase _, marked := by grind }
        rw [Linked]
        grind
  · split at hs
    · cases hs
      exact hinv
    · split at hs <;> cases hs
      refine { hinv with linked := ?_, distinct := by grind, marked := by grind [update_apply] }
      rw [Linked]
      grind

theorem next_ne {list : List Nat} {node other : Nat} (hdistinct : list.Nodup)
    (hnode : node ∈ list) (hother : list[list.idxOf node+1]? = some other) : other ≠ node := by
  rintro rfl
  have hsame := (getElem?_inj (idxOf_lt_length_of_mem hnode) hdistinct).mp
    ((getElem?_idxOf hnode).trans hother.symm)
  omega

theorem Inv.step (hinv : Inv s) (hcalm : Calm s action) (hs : step s action = some next) :
    Inv next := by
  have ⟨hlink,hdistinct,hmarked,houter,htodo⟩ := hinv
  rw [Linked] at hlink
  unfold AioHandlers.step at hs
  cases action with
  | setFdHandler fd callbacks new => exact hinv.setFdHandler hcalm hs
  | enter loop =>
    cases hs
    rw [Calm] at hcalm
    constructor <;> dsimp only [Linked] <;> grind [pairwise_cons,mem_of_mem_head?]
  | visit isSet =>
    dsimp only at hs
    split at hs <;> cases hs
    case h_1 loop node callback todo outer hwalks =>
    have hold : ⟨loop,node,callback :: todo⟩ ∈ s.walks := hwalks ▸ mem_cons_self
    have hnode := hlink _ hold
    have hrest := htodo _ hold
    constructor <;> dsimp only [Linked] <;> grind [pairwise_cons,mem_of_mem_head?]
  | advance =>
    dsimp only at hs
    split at hs
    case h_2 => cases hs
    split at hs <;> cases hs
    have := @next_ne s.aioHandlers
    constructor <;> dsimp only [Linked] <;> grind [pairwise_cons,mem_of_mem_head?]
  | leave =>
    dsimp only at hs
    split at hs <;> cases hs
    constructor <;> dsimp only [Linked] <;> grind [pairwise_cons,mem_of_mem_head?]

theorem Inv.current (hinv : Inv s) : Current s action := by
  cases action with
  | visit isSet =>
    intro other hother
    unfold invoked at hother
    split at hother
    case h_2 => cases hother
    case h_1 loop node callback todo outer hwalks =>
    split at hother <;> cases hother
    case isTrue hcall =>
    have hwalk : (⟨loop,some other,callback :: todo⟩ : Walk) ∈ s.walks := hwalks ▸ mem_cons_self
    have hmem := hinv.linked _ hwalk other rfl
    refine ⟨hmem,fun hdeleted => ?_⟩
    have hqueue := hinv.marked other hmem hdeleted
    have hcb : callback ∈ loop.callbacks := hinv.todo _ hwalk callback mem_cons_self
    cases loop with
    | processQueue => exact hqueue.2 (mem_singleton.mp hcb ▸ hcall.1)
    | fillSets | flush => exact hqueue.1 (mem_singleton.mp hcb ▸ hcall.1)
    | dispatch => exact (hcall.2 rfl).1 hdeleted
  | _ => trivial

/-- Loops may be nested and handlers registered everywhere, if the removals are calm. -/
theorem linked_of_calm (actions : List Action) (hcalm : Meets step Calm init actions) :
    Always step Linked init actions ∧ Meets step Current init actions := by
  have hinit : Inv init := ⟨nofun,nodup_nil,nofun,.nil,nofun⟩
  have hstep (s action next) (h : Inv s) (hc : Calm s action)
      (hs : AioHandlers.step s action = some next) : Inv next := h.step hc hs
  exact ⟨(always_of_meets hstep hinit hcalm).imp fun _ h => h.linked,
    hcalm.imp hstep (fun _ _ h _ => h.current) hinit⟩

/-- A read callback removes its own handler and has the queues processed. -/
def selfRemoval : List Action :=
  [.setFdHandler 3 [.ioRead] 0,.enter .dispatch,.visit true,.setFdHandler 3 [] 0,
    .enter .processQueue,.visit false,.advance,.leave,.visit true,.advance,.leave]

theorem linked_of_calm_selfRemoval : (run step init selfRemoval).isSome ∧
    Always step Linked init selfRemoval ∧ Meets step Current init selfRemoval :=
  ⟨by decide,linked_of_calm selfRemoval (by decide)⟩

/-- `io_process_queue` calls `qemu_aio_process_queue`, whose end clears the flag, and removes its
handler, which is freed under the outer loop. -/
theorem nested_unlinks : ∃ s, run step init
    [.setFdHandler 3 [.ioRead, .ioProcessQueue] 0, .enter .processQueue, .visit false,
      .enter .processQueue, .visit false, .advance, .leave, .setFdHandler 3 [] 0] = some s ∧
    ¬Linked s :=
  ⟨_,rfl,fun h => absurd (h _ mem_cons_self 0 rfl) (by decide)⟩

end Hqemu.Block.AioHandlers
