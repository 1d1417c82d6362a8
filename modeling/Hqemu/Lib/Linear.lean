import Hqemu.Lib.Run
import Mathlib.Data.List.Basic

/-! Linearizability. Every operation takes effect between its call and its return; one that changes
nothing may rest on what it saw earlier. -/
namespace Hqemu.Lib.Linear

open Function List Lib.Run

section Object

variable (Tid Op Res State : Type)

structure Object where
  init : State
  apply : State → Op → State × Res

inductive Event where
  | call (tid : Tid) (op : Op)
  | ret (tid : Tid) (res : Res)

inductive Mark where
  | event (event : Event Tid Op Res)
  | lin (tid : Tid)

inductive Status where
  | idle
  | called (op : Op)
  | done (res : Res)

structure Config where
  state : State
  status : Tid → Status Op Res
  order : List (Op × Res)

variable {Tid Op Res State}

def Mark.event? : Mark Tid Op Res → Option (Event Tid Op Res)
  | .event external => some external
  | .lin _ => none

def Object.start (object : Object Op Res State) : Config Tid Op Res State :=
  ⟨object.init,fun _ => .idle,[]⟩

variable [DecidableEq Tid] [DecidableEq Res]

def Object.step (object : Object Op Res State) (config : Config Tid Op Res State) :
    Mark Tid Op Res → Option (Config Tid Op Res State)
  | .event (.call tid op) =>
    match config.status tid with
    | .idle => some { config with status := Function.update config.status tid (.called op) }
    | _ => none
  | .lin tid =>
    match config.status tid with
    | .called op =>
      let (state,res) := object.apply config.state op
      some {
        state := state
        status := Function.update config.status tid (.done res)
        order := config.order ++ [(op,res)] }
    | _ => none
  | .event (.ret tid res) =>
    match config.status tid with
    | .done result =>
      if result = res then
        some { config with status := Function.update config.status tid .idle }
      else none
    | _ => none

structure Linearizes (object : Object Op Res State) (history : List (Event Tid Op Res))
    (marks : List (Mark Tid Op Res)) (config : Config Tid Op Res State) : Prop where
  run : run object.step object.start marks = some config
  history : marks.filterMap Mark.event? = history

end Object

section Late

variable (Tid Op Res State : Type)

inductive Late where
  | event (event : Event Tid Op Res)
  | lin (tid : Tid)
  | see (tid : Tid)
  | settle (tid : Tid)

inductive Progress where
  | idle
  | called (op : Op) (seen : Option Res)
  | done (res : Res)

structure LateConfig where
  state : State
  progress : Tid → Progress Op Res

variable {Tid Op Res State}

def Late.event? : Late Tid Op Res → Option (Event Tid Op Res)
  | .event external => some external
  | _ => none

def Object.lateStart (object : Object Op Res State) : LateConfig Tid Op Res State :=
  ⟨object.init,fun _ => .idle⟩

variable [DecidableEq Tid]

inductive Object.LateStep (object : Object Op Res State) (config : LateConfig Tid Op Res State) :
    Late Tid Op Res → LateConfig Tid Op Res State → Prop where
  | call {tid : Tid} {op : Op} (hidle : config.progress tid = .idle) :
      LateStep object config (.event (.call tid op))
        ⟨config.state,Function.update config.progress tid (.called op none)⟩
  | lin {tid : Tid} {op : Op} {seen : Option Res} (hcalled : config.progress tid = .called op seen)
      :
      LateStep object config (.lin tid) ⟨(object.apply config.state op).1,
        Function.update config.progress tid (.done (object.apply config.state op).2)⟩
  | see {tid : Tid} {op : Op} {seen : Option Res} (hcalled : config.progress tid = .called op seen)
      (hsame : (object.apply config.state op).1 = config.state) :
      LateStep object config (.see tid) ⟨config.state,Function.update config.progress tid
        (.called op (some (object.apply config.state op).2))⟩
  | settle {tid : Tid} {op : Op} {res : Res} (hcalled : config.progress tid = .called op (some res))
      :
      LateStep object config (.settle tid)
        ⟨config.state,Function.update config.progress tid (.done res)⟩
  | ret {tid : Tid} {res : Res} (hdone : config.progress tid = .done res) :
      LateStep object config (.event (.ret tid res))
        ⟨config.state,Function.update config.progress tid .idle⟩

inductive Object.LateRun (object : Object Op Res State) : LateConfig Tid Op Res State →
    List (Late Tid Op Res) → LateConfig Tid Op Res State → Prop where
  | nil (config : LateConfig Tid Op Res State) : LateRun object config [] config
  | cons {config next last : LateConfig Tid Op Res State} {mark : Late Tid Op Res}
      {rest : List (Late Tid Op Res)} (hstep : object.LateStep config mark next)
      (hrest : LateRun object next rest last) : LateRun object config (mark :: rest) last

theorem Object.LateRun.append {object : Object Op Res State}
    {config next last : LateConfig Tid Op Res State} {front back : List (Late Tid Op Res)}
    (hfront : object.LateRun config front next) (hback : object.LateRun next back last) :
    object.LateRun config (front ++ back) last := by
  induction hfront with
  | nil => exact hback
  | cons hs _ ih => exact .cons hs (ih hback)

end Late

section Resolve

variable {Tid Op Res State : Type} [DecidableEq Tid]

def Late.tid : Late Tid Op Res → Tid
  | .event (.call tid _) | .event (.ret tid _) | .lin tid | .see tid | .settle tid => tid

def Late.isSettle : Late Tid Op Res → Bool
  | .settle _ => true
  | _ => false

def settles (tid : Tid) : List (Late Tid Op Res) → Bool
  | [] => false
  | mark :: rest => if mark.tid = tid then mark.isSettle else settles tid rest

/-- The moment of an operation that settles is when it last looked. -/
def resolve : List (Late Tid Op Res) → List (Mark Tid Op Res)
  | [] => []
  | .event event :: rest => .event event :: resolve rest
  | .lin tid :: rest => .lin tid :: resolve rest
  | .see tid :: rest => if settles tid rest then .lin tid :: resolve rest else resolve rest
  | .settle _ :: rest => resolve rest

theorem resolve_history (marks : List (Late Tid Op Res)) :
    (resolve marks).filterMap Mark.event? = marks.filterMap Late.event? := by
  induction marks with
  | nil => rfl
  | cons mark rest ih =>
    cases mark with
    | see tid =>
      rw [resolve]
      split <;> simp [filterMap_cons,Mark.event?,Late.event?,ih]
    | _ => simp [filterMap_cons,resolve,Mark.event?,Late.event?,ih]

def Progress.status (settles : Bool) : Progress Op Res → Status Op Res
  | .idle => .idle
  | .called op (some res) => if settles then .done res else .called op
  | .called op none => .called op
  | .done res => .done res

structure Resolved (rest : List (Late Tid Op Res)) (config : LateConfig Tid Op Res State)
    (atomic : Config Tid Op Res State) : Prop where
  state : atomic.state = config.state
  status : ∀ tid, atomic.status tid = (config.progress tid).status (settles tid rest)

variable {mark : Late Tid Op Res} {rest : List (Late Tid Op Res)}
  {config : LateConfig Tid Op Res State} {atomic : Config Tid Op Res State}

theorem Resolved.own (hres : Resolved (mark :: rest) config atomic) (tid : Tid)
    (htid : mark.tid = tid) : atomic.status tid = (config.progress tid).status mark.isSettle := by
  rw [hres.status,settles,if_pos htid]

theorem Progress.status_called (op : Op) (seen : Option Res) :
    (Progress.called op seen).status false = .called op := by
  cases seen <;> rfl

theorem Resolved.update (hres : Resolved (mark :: rest) config atomic) (tid : Tid)
    (htid : mark.tid = tid) (state : State) (order : List (Op × Res)) {progress : Progress Op Res}
    {status : Status Op Res} (hstatus : status = progress.status (settles tid rest)) :
    Resolved rest ⟨state,Function.update config.progress tid progress⟩
      ⟨state,Function.update atomic.status tid status,order⟩ where
  state := rfl
  status other := by
    dsimp only
    by_cases hother : other = tid
    · rw [hother,update_self,update_self,hstatus]
    · rw [update_of_ne hother,update_of_ne hother,hres.status,settles,
        if_neg (by rw [htid]; exact Ne.symm hother)]

theorem Resolved.skip (hres : Resolved (mark :: rest) config atomic) (tid : Tid)
    (htid : mark.tid = tid) {progress : Progress Op Res}
    (hstatus : atomic.status tid = progress.status (settles tid rest)) :
    Resolved rest ⟨config.state,Function.update config.progress tid progress⟩ atomic := by
  have hupdate := hres.update tid htid config.state atomic.order hstatus
  rw [update_eq_self,← hres.state] at hupdate
  rw [← hres.state]
  exact hupdate

variable [DecidableEq Res]

theorem resolve_step {object : Object Op Res State} {next : LateConfig Tid Op Res State}
    (hs : object.LateStep config mark next) (hres : Resolved (mark :: rest) config atomic) :
    ∃ front result, resolve (mark :: rest) = front ++ resolve rest ∧
      run object.step atomic front = some result ∧ Resolved rest next result := by
  have hstate := hres.state
  cases hs with
  | @call tid op hidle =>
    have hown := hres.own tid rfl
    rw [hidle] at hown
    refine ⟨[_],_,rfl,?_,hres.update tid rfl config.state atomic.order rfl⟩
    simp [run,Object.step,hown,Progress.status,hstate]
  | @lin tid op seen hcalled =>
    have hown : atomic.status tid = .called op := by
      rw [hres.own tid rfl,hcalled]
      exact Progress.status_called op seen
    refine ⟨[_],_,rfl,?_,hres.update tid rfl _
      (atomic.order ++ [(op,(object.apply config.state op).2)]) rfl⟩
    simp [run,Object.step,hown,Progress.status,hstate]
  | @see tid op seen hcalled hsame =>
    have hown : atomic.status tid = .called op := by
      rw [hres.own tid rfl,hcalled]
      exact Progress.status_called op seen
    rw [resolve]
    cases hsettles : settles tid rest with
    | true =>
      refine ⟨[.lin tid],_,rfl,?_,hres.update tid rfl _
        (atomic.order ++ [(op,(object.apply config.state op).2)]) rfl⟩
      simp [run,Object.step,hown,Progress.status,hstate,hsame,hsettles]
    | false =>
      refine ⟨[],atomic,rfl,rfl,hres.skip tid rfl ?_⟩
      rw [hown,hsettles,Progress.status_called]
  | @settle tid op res hcalled =>
    have hown := hres.own tid rfl
    rw [hcalled] at hown
    exact ⟨[],atomic,rfl,rfl,hres.skip tid rfl hown⟩
  | @ret tid res hdone =>
    have hown := hres.own tid rfl
    rw [hdone] at hown
    refine ⟨[_],_,rfl,?_,hres.update tid rfl config.state atomic.order rfl⟩
    simp [run,Object.step,hown,Progress.status,hstate]

section

variable {object : Object Op Res State} {marks : List (Late Tid Op Res)}
  {last : LateConfig Tid Op Res State}

theorem run_resolve (hrun : object.LateRun config marks last)
    (hres : Resolved marks config atomic) :
    ∃ result, run object.step atomic (resolve marks) = some result ∧ result.state = last.state := by
  induction hrun generalizing atomic with
  | nil => exact ⟨atomic,rfl,hres.state⟩
  | cons hs _ ih =>
    obtain ⟨front,next,hfront,hnext,hres⟩ := resolve_step hs hres
    obtain ⟨result,hret,hstate⟩ := ih hres
    exact ⟨result,by rw [hfront,run_append,hnext]; exact hret,hstate⟩

theorem linearizes_of_late (hrun : object.LateRun object.lateStart marks last) :
    ∃ config, config.state = last.state ∧
      Linearizes object (marks.filterMap Late.event?) (resolve marks) config := by
  have hstart : Resolved marks object.lateStart object.start := ⟨rfl,fun _ => rfl⟩
  obtain ⟨result,hret,hstate⟩ := run_resolve hrun hstart
  exact ⟨result,hstate,hret,resolve_history marks⟩

end

end Resolve

section Fifo

variable (Value : Type)

inductive QueueOp where
  | enqueue (value : Value)
  | dequeue

inductive QueueRes where
  | stored
  | taken (value : Option Value)
deriving DecidableEq

variable {Value}

/-- A queue: values leave it in the order they came. -/
def fifo : Object (QueueOp Value) (QueueRes Value) (List Value) where
  init := []
  apply
    | values, .enqueue value => (values ++ [value],.stored)
    | [], .dequeue => ([],.taken none)
    | value :: rest, .dequeue => (rest,.taken (some value))

def enqueued (order : List (QueueOp Value × QueueRes Value)) : List Value :=
  order.filterMap fun
    | (.enqueue value,_) => some value
    | (.dequeue,_) => none

def dequeued (order : List (QueueOp Value × QueueRes Value)) : List Value :=
  order.filterMap fun
    | (_,.stored) => none
    | (_,.taken value) => value

variable {Tid : Type}

/-- What a queue has done so far: each value put in has been taken out once, in order, or is still
there, and it was found empty only when it was. -/
structure Orderly (config : Config Tid (QueueOp Value) (QueueRes Value) (List Value)) : Prop where
  values : enqueued config.order = dequeued config.order ++ config.state
  empty : ∀ front op back, config.order = front ++ (op,.taken none) :: back →
    enqueued front = dequeued front

theorem orderly_start : Orderly (Object.start fifo :
    Config Tid (QueueOp Value) (QueueRes Value) (List Value)) where
  values := rfl
  empty front op back h := by simp [Object.start] at h

variable {config next : Config Tid (QueueOp Value) (QueueRes Value) (List Value)}

theorem Orderly.append (horder : Orderly config) (op : QueueOp Value)
    (status : Tid → Status (QueueOp Value) (QueueRes Value)) :
    Orderly ⟨(fifo.apply config.state op).1,status,
      config.order ++ [(op,(fifo.apply config.state op).2)]⟩ := by
  have hvals := horder.values
  constructor
  · cases op with
    | enqueue value => simp_all [enqueued,dequeued,fifo]
    | dequeue => cases hstate : config.state <;> simp_all [enqueued,dequeued,fifo]
  · intro front other back horde
    rcases eq_nil_or_concat back with rfl | ⟨rest,last,rfl⟩
    · obtain ⟨rfl,hlast⟩ := append_inj' horde rfl
      rw [List.cons.injEq,Prod.mk.injEq] at hlast
      have hempty : config.state = [] := by
        cases op with
        | enqueue value => exact nomatch hlast.1.2
        | dequeue =>
          cases hstate : config.state with
          | nil => rfl
          | cons value rest => rw [hstate] at hlast; exact nomatch hlast.1.2
      rw [hvals,hempty,append_nil]
    · have hinit : config.order = front ++ (other,.taken none) :: rest := by
        simp only [concat_eq_append] at horde
        rw [← cons_append,← append_assoc] at horde
        exact (append_inj' horde rfl).1
      exact horder.empty front other rest hinit

variable [DecidableEq Tid] [DecidableEq Value]

theorem Orderly.step (horder : Orderly config) {mark : Mark Tid (QueueOp Value) (QueueRes Value)}
    (hs : fifo.step config mark = some next) : Orderly next := by
  cases mark with
  | event event =>
    have hsame : next.state = config.state ∧ next.order = config.order := by
      cases event with
      | call tid op =>
        simp only [Object.step] at hs
        split at hs
        · cases hs
          exact ⟨rfl,rfl⟩
        · exact nomatch hs
      | ret tid res =>
        simp only [Object.step] at hs
        split at hs
        · split at hs
          · cases hs
            exact ⟨rfl,rfl⟩
          · exact nomatch hs
        · exact nomatch hs
    constructor
    · rw [hsame.1,hsame.2]
      exact horder.values
    · rw [hsame.2]
      exact horder.empty
  | lin tid =>
    simp only [Object.step] at hs
    split at hs
    · cases hs
      exact horder.append _ _
    · exact nomatch hs

theorem Orderly.run {marks : List (Mark Tid (QueueOp Value) (QueueRes Value))}
    (horder : Orderly config) (hrun : run fifo.step config marks = some next) : Orderly next := by
  induction marks generalizing config with
  | nil =>
    cases hrun
    exact horder
  | cons mark rest ih =>
    obtain ⟨middle,hmid,hrest⟩ := Option.bind_eq_some_iff.mp hrun
    exact ih (horder.step hmid) hrest

end Fifo

end Hqemu.Lib.Linear
