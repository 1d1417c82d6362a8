import Hqemu.Llvm.MsQueueShape

/-! The lock-free queue is linearizable: an enqueue takes effect when its node is linked, a dequeue
when `head` moves on. -/
namespace Hqemu.Llvm.MsQueue

open Function Option Lib.Linear Lib.Run

variable {w : Nat} {Value : Type}

section Facts

variable (queue : Queue w Value) (front back : List Addr)

def TailOk (ptr : Option Addr) : Prop :=
  ∃ addr, ptr = some addr ∧
    (queue.tail.ptr = some addr ∨ (addr ∉ back ∧ queue.next addr ≠ none))

def HeadOk (ptr : Option Addr) : Prop :=
  ∃ addr, ptr = some addr ∧ (queue.head.ptr = some addr ∨ addr ∉ front ++ back)

def NextOk (ptr next : Option Addr) : Prop :=
  next ≠ none → ∀ addr, ptr = some addr → queue.next addr = next

def NowOk (shared ptr now : Option Addr) : Prop := shared = ptr → now = ptr

def SplitOk (head tail : Option Addr) : Prop :=
  queue.head.ptr = head → tail ≠ head → ∀ addr, head = some addr → addr ∉ back

def SeenOk (head tail next : Option Addr) (seen : Option (QueueRes Value)) : Prop :=
  queue.head.ptr = head →
    (next = none → seen = some (.taken none)) ∧ (tail ≠ head → next ≠ none)

structure Pending (node : Addr) (data : Value) : Prop where
  out : node ∉ front ++ back
  live : (queue.heap node).live = true
  value : (queue.heap node).value = some data
  next : queue.next node = none

structure Loaded (head tail next : Option Addr) (seen : Option (QueueRes Value)) : Prop where
  first : HeadOk queue front back head
  split : SplitOk queue back head tail
  link : NextOk queue head next
  found : SeenOk queue head tail next seen

def LocalOk (progress : Progress (QueueOp Value) (QueueRes Value)) : Local w Value → Prop
  | .idle => progress = .idle
  | .crashed => False
  | .newNode data => progress = .called (.enqueue data) none
  | .loadTail node => ∃ data, progress = .called (.enqueue data) none ∧
      Pending queue front back node data
  | .loadTailCount node tail => ∃ data, progress = .called (.enqueue data) none ∧
      Pending queue front back node data ∧ TailOk queue back tail
  | .loadNext node tail => ∃ data, progress = .called (.enqueue data) none ∧
      Pending queue front back node data ∧ TailOk queue back tail.ptr
  | .loadNextCount node tail next => ∃ data, progress = .called (.enqueue data) none ∧
      Pending queue front back node data ∧ TailOk queue back tail.ptr ∧
      NextOk queue tail.ptr next
  | .reloadTail node tail next => ∃ data, progress = .called (.enqueue data) none ∧
      Pending queue front back node data ∧ TailOk queue back tail.ptr ∧
      NextOk queue tail.ptr next.ptr
  | .reloadTailCount node tail next now => ∃ data, progress = .called (.enqueue data) none ∧
      Pending queue front back node data ∧ TailOk queue back tail.ptr ∧
      NextOk queue tail.ptr next.ptr ∧ NowOk queue.tail.ptr tail.ptr now
  | .checkTail node tail next now => ∃ data, progress = .called (.enqueue data) none ∧
      Pending queue front back node data ∧ TailOk queue back tail.ptr ∧
      NextOk queue tail.ptr next.ptr ∧ NowOk queue.tail.ptr tail.ptr now.ptr
  | .linkNode node tail next => ∃ data, progress = .called (.enqueue data) none ∧
      Pending queue front back node data ∧ TailOk queue back tail.ptr ∧ next.ptr = none
  | .helpEnqueue node tail next => ∃ data, progress = .called (.enqueue data) none ∧
      Pending queue front back node data ∧ TailOk queue back tail.ptr ∧
      next.ptr ≠ none ∧ NextOk queue tail.ptr next.ptr
  | .swingTail node tail => progress = .done .stored ∧ TailOk queue back tail.ptr ∧
      NextOk queue tail.ptr (some node)
  | .enqueued => progress = .done .stored
  | .loadHead => ∃ seen, progress = .called .dequeue seen
  | .loadHeadCount head => ∃ seen, progress = .called .dequeue seen ∧
      HeadOk queue front back head
  | .loadLast head => ∃ seen, progress = .called .dequeue seen ∧
      HeadOk queue front back head.ptr
  | .loadLastCount head tail => ∃ seen, progress = .called .dequeue seen ∧
      HeadOk queue front back head.ptr ∧ SplitOk queue back head.ptr tail
  | .loadFirst head tail => ∃ seen, progress = .called .dequeue seen ∧
      HeadOk queue front back head.ptr ∧ SplitOk queue back head.ptr tail.ptr
  | .loadFirstCount head tail next => ∃ seen, progress = .called .dequeue seen ∧
      Loaded queue front back head.ptr tail.ptr next seen
  | .reloadHead head tail next => ∃ seen, progress = .called .dequeue seen ∧
      Loaded queue front back head.ptr tail.ptr next.ptr seen
  | .reloadHeadCount head tail next now => ∃ seen, progress = .called .dequeue seen ∧
      Loaded queue front back head.ptr tail.ptr next.ptr seen ∧
      NowOk queue.head.ptr head.ptr now
  | .checkHead head tail next now => ∃ seen, progress = .called .dequeue seen ∧
      Loaded queue front back head.ptr tail.ptr next.ptr seen ∧
      NowOk queue.head.ptr head.ptr now.ptr
  | .helpDequeue tail next => ∃ seen, progress = .called .dequeue seen ∧ tail.ptr ≠ none ∧
      next.ptr ≠ none ∧ NextOk queue tail.ptr next.ptr
  | .loadValue head next => ∃ seen, progress = .called .dequeue seen ∧
      HeadOk queue front back head.ptr ∧ SplitOk queue back head.ptr none ∧
      next.ptr ≠ none ∧ NextOk queue head.ptr next.ptr
  | .swingHead head next data => ∃ seen, progress = .called .dequeue seen ∧
      HeadOk queue front back head.ptr ∧ SplitOk queue back head.ptr none ∧
      next.ptr ≠ none ∧ NextOk queue head.ptr next.ptr ∧
      (queue.head.ptr = head.ptr → ∀ first, next.ptr = some first →
        data = (queue.heap first).value)
  | .freeHead head data => progress = .done (.taken data) ∧
      ∃ addr, head.ptr = some addr ∧ addr ∉ front ++ back
  | .dequeued data => progress = .done (.taken data)

end Facts

section Stable

variable {queue queue' : Queue w Value} {front back front' back' : List Addr}
  {values' : List Value} {ptr next now : Option Addr}

section

variable (hrely : ∀ addr, ptr = some addr → Rely queue front back queue' front' back' addr)
include hrely

theorem TailOk.rely (htail : TailOk queue back ptr) : TailOk queue' back' ptr := by
  obtain ⟨addr,rfl,hlast | ⟨hleft,hnext⟩⟩ := htail
  · exact ⟨addr,rfl,(hrely addr rfl).tail hlast⟩
  refine ⟨addr,rfl,.inr ⟨(hrely addr rfl).left hleft,?_⟩⟩
  rw [(hrely addr rfl).next hnext]
  exact hnext

theorem HeadOk.rely (hhead : HeadOk queue front back ptr) : HeadOk queue' front' back' ptr := by
  obtain ⟨addr,rfl,hfirst | hgone⟩ := hhead
  · exact ⟨addr,rfl,(hrely addr rfl).head hfirst⟩
  · exact ⟨addr,rfl,.inr ((hrely addr rfl).gone hgone)⟩

theorem NextOk.rely (hnext : NextOk queue ptr next) : NextOk queue' ptr next := by
  intro hsome addr haddr
  have hbefore := hnext hsome addr haddr
  rw [(hrely addr haddr).next (by rw [hbefore]; exact hsome),hbefore]

variable (hshape : Shape queue' front' back' values')
include hshape

theorem TailOk.before (htail : TailOk queue back ptr) (hnow : queue'.tail.ptr = ptr) :
    queue.tail.ptr = ptr := by
  obtain ⟨addr,rfl,hlast | ⟨hleft,-⟩⟩ := htail
  · exact hlast
  · exact absurd (hshape.tail_mem hnow) ((hrely addr rfl).left hleft)

theorem HeadOk.before (hhead : HeadOk queue front back ptr) (hnow : queue'.head.ptr = ptr) :
    queue.head.ptr = ptr := by
  obtain ⟨addr,rfl,hfirst | hgone⟩ := hhead
  · exact hfirst
  · exact absurd (hshape.head_mem hnow) ((hrely addr rfl).gone hgone)

theorem SplitOk.rely {tail : Option Addr} (hsplit : SplitOk queue back ptr tail)
    (hhead : HeadOk queue front back ptr) : SplitOk queue' back' ptr tail := by
  intro hnow hne addr haddr
  exact (hrely addr haddr).left (hsplit (hhead.before hrely hshape hnow) hne addr haddr)

theorem Loaded.rely {tail : Option Addr} {seen : Option (QueueRes Value)}
    (hload : Loaded queue front back ptr tail next seen) :
    Loaded queue' front' back' ptr tail next seen where
  first := hload.first.rely hrely
  split := hload.split.rely hrely hshape hload.first
  link := hload.link.rely hrely
  found hnow := hload.found (hload.first.before hrely hshape hnow)

end

theorem Pending.untouched {node : Addr} {data : Value} (hpend : Pending queue front back node data)
    (hnode : queue'.heap node = queue.heap node ∧ node ∉ front' ++ back') :
    Pending queue' front' back' node data where
  out := hnode.2
  live := by rw [hnode.1]; exact hpend.live
  value := by rw [hnode.1]; exact hpend.value
  next := by rw [Queue.next,hnode.1]; exact hpend.next

theorem LocalOk.rely {progress : Progress (QueueOp Value) (QueueRes Value)} {thread : Local w Value}
    (hloc : LocalOk queue front back progress thread)
    (hrely : ∀ addr, thread.held = some addr → Rely queue front back queue' front' back' addr)
    (hnode : ∀ node, thread.node = some node → node ∉ front ++ back →
      queue'.heap node = queue.heap node ∧ node ∉ front' ++ back')
    (hshape : Shape queue' front' back' values') : LocalOk queue' front' back' progress thread := by
  cases thread with
  | idle | newNode | enqueued | loadHead | dequeued => exact hloc
  | crashed => exact hloc.elim
  | loadTail node =>
    obtain ⟨data,hprog,hpend⟩ := hloc
    exact ⟨data,hprog,hpend.untouched (hnode node rfl hpend.out)⟩
  | loadTailCount node tail | loadNext node tail =>
    obtain ⟨data,hprog,hpend,htail⟩ := hloc
    exact ⟨data,hprog,hpend.untouched (hnode node rfl hpend.out),htail.rely hrely⟩
  | loadNextCount node tail next | reloadTail node tail next =>
    obtain ⟨data,hprog,hpend,htail,hnext⟩ := hloc
    exact ⟨data,hprog,hpend.untouched (hnode node rfl hpend.out),htail.rely hrely,hnext.rely hrely⟩
  | reloadTailCount node tail next now | checkTail node tail next now =>
    obtain ⟨data,hprog,hpend,htail,hnext,hnow⟩ := hloc
    exact ⟨data,hprog,hpend.untouched (hnode node rfl hpend.out),htail.rely hrely,
      hnext.rely hrely,fun heq => hnow (htail.before hrely hshape heq)⟩
  | linkNode node tail next =>
    obtain ⟨data,hprog,hpend,htail,hnone⟩ := hloc
    exact ⟨data,hprog,hpend.untouched (hnode node rfl hpend.out),htail.rely hrely,hnone⟩
  | helpEnqueue node tail next =>
    obtain ⟨data,hprog,hpend,htail,hsome,hnext⟩ := hloc
    exact ⟨data,hprog,hpend.untouched (hnode node rfl hpend.out),htail.rely hrely,hsome,hnext.rely
        hrely⟩
  | swingTail node tail =>
    obtain ⟨hprog,htail,hnext⟩ := hloc
    exact ⟨hprog,htail.rely hrely,hnext.rely hrely⟩
  | loadHeadCount head | loadLast head =>
    obtain ⟨seen,hprog,hhead⟩ := hloc
    exact ⟨seen,hprog,hhead.rely hrely⟩
  | loadLastCount head tail | loadFirst head tail =>
    obtain ⟨seen,hprog,hhead,hsplit⟩ := hloc
    exact ⟨seen,hprog,hhead.rely hrely,hsplit.rely hrely hshape hhead⟩
  | loadFirstCount head tail next | reloadHead head tail next =>
    obtain ⟨seen,hprog,hload⟩ := hloc
    exact ⟨seen,hprog,hload.rely hrely hshape⟩
  | reloadHeadCount head tail next now | checkHead head tail next now =>
    obtain ⟨seen,hprog,hload,hnow⟩ := hloc
    exact ⟨seen,hprog,hload.rely hrely hshape,fun heq => hnow (hload.first.before hrely hshape heq)⟩
  | helpDequeue tail next =>
    obtain ⟨seen,hprog,htail,hsome,hnext⟩ := hloc
    exact ⟨seen,hprog,htail,hsome,hnext.rely hrely⟩
  | loadValue head next =>
    obtain ⟨seen,hprog,hhead,hsplit,hsome,hnext⟩ := hloc
    exact ⟨seen,hprog,hhead.rely hrely,hsplit.rely hrely hshape hhead,hsome,hnext.rely hrely⟩
  | swingHead head next data =>
    obtain ⟨seen,hprog,hhead,hsplit,hsome,hnext,hvalue⟩ := hloc
    refine ⟨seen,hprog,hhead.rely hrely,hsplit.rely hrely hshape hhead,hsome,
      hnext.rely hrely,fun heq first hfirst => ?_⟩
    have hbefore := hhead.before hrely hshape heq
    obtain ⟨addr,haddr,-⟩ := hhead
    have hlink := hnext hsome addr haddr
    rw [hvalue hbefore first hfirst,(hrely addr haddr).value (hbefore.trans haddr) first
        (hlink.trans hfirst)]
  | freeHead head data =>
    obtain ⟨hprog,addr,haddr,hgone⟩ := hloc
    exact ⟨hprog,addr,haddr,(hrely addr haddr).gone hgone⟩

end Stable

section Simulation

variable {n : Nat}

abbrev Spec (n : Nat) (Value : Type) : Type :=
  LateConfig (Fin n) (QueueOp Value) (QueueRes Value) (List Value)

structure Inv (system : System n w Value) (config : Spec n Value) (front back : List Addr) :
    Prop where
  shape : Shape system.queue front back config.state
  threads : ∀ tid, LocalOk system.queue front back (config.progress tid) (system.threads tid)
  held : ∀ tid other node, (system.threads tid).node = some node →
    (system.threads other).held ≠ some node
  nodes : ∀ tid other node, tid ≠ other → (system.threads tid).node = some node →
    (system.threads other).node ≠ some node

variable {queue : Queue w Value} {progress : Progress (QueueOp Value) (QueueRes Value)}
  {thread : Local w Value}

theorem LocalOk.pending {front back : List Addr} {node : Addr}
    (hloc : LocalOk queue front back progress thread) (hnode : thread.node = some node) :
    ∃ data, Pending queue front back node data := by
  cases thread with
  | loadTail other =>
    obtain ⟨data,-,hpend⟩ := hloc
    cases hnode
    exact ⟨data,hpend⟩
  | loadTailCount other _ | loadNext other _ | loadNextCount other _ _ | reloadTail other _ _
  | reloadTailCount other _ _ _ | checkTail other _ _ _ | linkNode other _ _
  | helpEnqueue other _ _ =>
    obtain ⟨data,-,hpend,-⟩ := hloc
    cases hnode
    exact ⟨data,hpend⟩
  | _ => exact nomatch hnode

variable {system : System n w Value} {config : Spec n Value} {front back : List Addr}
  {tid : Fin n}

variable {values : List Value}

theorem Inv.move (hinv : Inv system config front back) (tid : Fin n) {front' back' : List Addr}
    {fresh dealt : Option Addr} (hshape : Shape queue front' back' values)
    (hchange : Change system.queue front back queue front' back' fresh dealt)
    (hloc : LocalOk queue front' back' progress thread) (hheld : ∀ addr, thread.held = some addr →
      (system.threads tid).held = some addr ∨ addr ∈ front ++ back)
    (hnode : ∀ node, thread.node = some node → (system.threads tid).node = some node ∨
      (fresh = some node ∧ dealt = some node ∧ node ∉ front ++ back))
    (hfresh : ∀ addr, fresh = some addr → ∀ other, (system.threads other).held ≠ some addr)
    (hdealt : ∀ addr, dealt = some addr → ∀ other, other ≠ tid →
      (system.threads other).node ≠ some addr) :
    Inv (system.put tid queue thread) ⟨values,update config.progress tid progress⟩
      front' back' where
  shape := hshape
  threads other := by
    simp only [System.put]
    by_cases hother : other = tid
    · rw [hother,update_self,update_self]
      exact hloc
    · rw [update_of_ne hother,update_of_ne hother]
      refine (hinv.threads other).rely ?_ ?_ hshape
      · exact fun addr haddr => hchange.rely addr fun h => hfresh addr h other haddr
      · exact fun node hnode hout => hchange.untouched node hout fun h =>
          hdealt node h other hother hnode
  held other third node hother hthird := by
    simp only [System.put] at hother hthird
    have hout : ∀ other node, (system.threads other).node = some node → node ∉ front ++ back := by
      intro other node hnode
      obtain ⟨data,hpend⟩ := (hinv.threads other).pending hnode
      exact hpend.out
    have hmoved : ∀ node, (∀ other, (system.threads other).held ≠ some node) →
        node ∉ front ++ back →
        (update system.threads tid thread third).held ≠ some node := by
      intro node hfree hnot hthird
      by_cases hself : third = tid
      · rw [hself,update_self] at hthird
        rcases hheld node hthird with hold | hmem
        · exact hfree tid hold
        · exact hnot hmem
      · rw [update_of_ne hself] at hthird
        exact hfree third hthird
    by_cases hself : other = tid
    · rw [hself,update_self] at hother
      rcases hnode node hother with hold | ⟨hnew,-,hnot⟩
      · exact hmoved node (fun other => hinv.held tid other node hold) (hout tid node hold) hthird
      · exact hmoved node (hfresh node hnew) hnot hthird
    · rw [update_of_ne hself] at hother
      exact hmoved node (fun third => hinv.held other third node hother) (hout other node hother)
          hthird
  nodes other third node hne hother hthird := by
    simp only [System.put] at hother hthird
    have hapart : ∀ other node, other ≠ tid → (system.threads other).node = some node →
        thread.node ≠ some node := by
      intro other node hother hold hthread
      rcases hnode node hthread with hown | ⟨-,hnew,-⟩
      · exact hinv.nodes other tid node hother hold hown
      · exact hdealt node hnew other hother hold
    by_cases hself : other = tid
    · rw [hself,update_self] at hother
      rw [update_of_ne (fun h => hne (hself.trans h.symm))] at hthird
      exact hapart third node (fun h => hne (hself.trans h.symm)) hthird hother
    · rw [update_of_ne hself] at hother
      by_cases hthis : third = tid
      · rw [hthis,update_self] at hthird
        exact hapart other node hself hother hthird
      · rw [update_of_ne hthis] at hthird
        exact hinv.nodes other third node hne hother hthird

def Follows (config : Spec n Value) (next : System n w Value)
    (events : List (Event (Fin n) (QueueOp Value) (QueueRes Value))) : Prop :=
  ∃ marks config' front back, fifo.LateRun config marks config' ∧ Inv next config' front back ∧
    marks.filterMap Late.event? = events

variable {next : System n w Value}

theorem Inv.stays (hinv : Inv next config front back) : Follows config next [] :=
  ⟨[],config,front,back,.nil config,hinv,rfl⟩

theorem Inv.follows {config' : Spec n Value} {mark : Late (Fin n) (QueueOp Value) (QueueRes Value)}
    (hs : fifo.LateStep config mark config') (hinv : Inv next config' front back) :
    Follows config next mark.event?.toList := by
  refine ⟨[mark],config',front,back,.cons hs (.nil _),hinv,?_⟩
  cases hevent : mark.event? <;> simp [hevent]

variable {pair : Pointer w}

theorem cas2_eq_some {cell old new : Pointer w} (h : cas2 cell old new = some pair) :
    cell = old ∧ pair = new := by
  unfold cas2 at h
  split at h
  · next heq => exact ⟨heq,(some.inj h).symm⟩
  · exact nomatch h

theorem Inv.quiet (hinv : Inv system config front back) {old : Local w Value}
    (hthread : system.threads tid = old) (hheap : queue.heap = system.queue.heap)
    (hhead : queue.head.ptr = system.queue.head.ptr) (htail : queue.tail.ptr =
        system.queue.tail.ptr)
    (hloc : LocalOk queue front back (config.progress tid) thread)
    (hheld : ∀ addr, thread.held = some addr → old.held = some addr ∨ addr ∈ front ++ back)
    (hnode : ∀ node, thread.node = some node → old.node = some node) :
    Follows config (system.put tid queue thread) [] := by
  subst hthread
  have hshape : Shape queue front back config.state :=
    hinv.shape.congr hhead htail fun addr _ => by rw [hheap]
  have hmove := hinv.move tid hshape (Change.refl hheap hhead htail) hloc hheld
    (fun node h => .inl (hnode node h)) nofun nofun
  rw [update_eq_self] at hmove
  exact hmove.stays

theorem Shape.tailOk (hshape : Shape queue front back values) : TailOk queue back queue.tail.ptr :=
    by
  obtain ⟨addr,haddr⟩ := ne_none_iff_exists'.mp hshape.tail
  exact ⟨addr,haddr,.inl haddr⟩

theorem Shape.headOk (hshape : Shape queue front back values) :
    HeadOk queue front back queue.head.ptr := by
  obtain ⟨addr,haddr⟩ := ne_none_iff_exists'.mp hshape.head_some
  exact ⟨addr,haddr,.inl haddr⟩

variable {tail : Pointer w}

variable {head : Pointer w} {seen : Option (QueueRes Value)}

section

variable (hinv : Inv system config front back)
include hinv

theorem Inv.advance {next : Option Addr} {old : Local w Value} (hthread : system.threads tid = old)
    (hcase : cas2 system.queue.tail tail ⟨next,tail.count+1⟩ = some pair)
    (htail : tail.ptr ≠ none) (hsome : next ≠ none) (hnext : NextOk system.queue tail.ptr next)
    (hloc : ∀ front' back', Change system.queue front back { system.queue with tail := pair }
      front' back' none none →
        LocalOk { system.queue with tail := pair } front' back' (config.progress tid) thread)
    (hheld : thread.held = none) (hnode : ∀ node, thread.node = some node → old.node = some node) :
    Follows config (system.put tid { system.queue with tail := pair } thread) [] := by
  subst hthread
  obtain ⟨hcell,rfl⟩ := cas2_eq_some hcase
  obtain ⟨last,hlast⟩ := ne_none_iff_exists'.mp htail
  obtain ⟨first,rfl⟩ := ne_none_iff_exists'.mp hsome
  have hq : system.queue.tail.ptr = some last := by
    rw [hcell]
    exact hlast
  have hpair : (⟨some first,tail.count+1⟩ : Pointer w).ptr = some first := rfl
  obtain ⟨front',back',hshape,hchange⟩ := Change.advance hinv.shape hq (hnext hsome last hlast)
      hpair
  have hmove := hinv.move tid hshape hchange (hloc front' back' hchange)
    (fun addr h => nomatch hheld.symm.trans h) (fun node h => .inl (hnode node h))
    nofun nofun
  rw [update_eq_self] at hmove
  exact hmove.stays

theorem Inv.link {node : Addr} {data : Value} {next : Pointer w} {last : Addr}
    (hthread : system.threads tid = .linkNode node tail next)
    (hprog : config.progress tid = .called (.enqueue data) none)
    (hpend : Pending system.queue front back node data) (htail : TailOk system.queue back tail.ptr)
    (hnone : next.ptr = none) (hlast : tail.ptr = some last)
    (hcase : cas2 (system.queue.heap last).next next ⟨some node,next.count+1⟩ = some pair) :
    Follows config (system.put tid (system.queue.setNext last pair) (.swingTail node tail)) [] := by
  obtain ⟨hcell,rfl⟩ := cas2_eq_some hcase
  have hend : system.queue.next last = none := by
    rw [Queue.next,hcell]
    exact hnone
  have hq : system.queue.tail.ptr = some last := by
    obtain ⟨addr,haddr,htail | ⟨-,hnext⟩⟩ := htail
    · rw [htail,← haddr,hlast]
    · cases hlast.symm.trans haddr
      exact absurd hend hnext
  have hpair : (⟨some node,next.count+1⟩ : Pointer w).ptr = some node := rfl
  obtain ⟨hshape,hchange⟩ := Change.link hinv.shape hq hend hpend.out hpend.live
    hpend.value hpend.next hpair
  have hown : (system.threads tid).node = some node := by
    rw [hthread]
    rfl
  have hloc : LocalOk (system.queue.setNext last ⟨some node,next.count+1⟩) front
      (back ++ [node]) (.done .stored) (.swingTail node tail) := by
    refine ⟨rfl,⟨last,hlast,.inl hq⟩,fun _ addr haddr => ?_⟩
    cases hlast.symm.trans haddr
    simp [Queue.next,Queue.setNext]
  have hmove := hinv.move tid hshape hchange hloc
    (fun addr haddr => .inl (by rw [hthread]; exact haddr)) (fun _ h => by cases h)
    (fun addr haddr other => by
      cases haddr
      exact hinv.held tid other node hown)
    (fun addr haddr other hother => by
      cases haddr
      exact hinv.nodes tid other node (Ne.symm hother) hown)
  exact hmove.follows (.lin hprog)

theorem Inv.enqueueStep
    (hs : enqueueStep system.queue (system.threads tid) = some (queue,thread)) :
    Follows config (system.put tid queue thread) [] := by
  have hloc := hinv.threads tid
  generalize hthread : system.threads tid = old at hloc hs
  cases old with
  | loadTail node =>
    cases hs
    obtain ⟨data,hprog,hpend⟩ := hloc
    refine hinv.quiet hthread rfl rfl rfl ⟨data,hprog,hpend,hinv.shape.tailOk⟩ ?_ ?_
    · exact fun addr haddr => .inr (List.mem_append_right _ (hinv.shape.tail_mem haddr))
    · exact fun _ h => h
  | loadTailCount node tail | reloadTailCount node tail next now =>
    cases hs
    exact hinv.quiet hthread rfl rfl rfl hloc (fun _ h => .inl h) (fun _ h => h)
  | loadNext node tail =>
    obtain ⟨data,hprog,hpend,htail⟩ := hloc
    obtain ⟨last,hlast,-⟩ := id htail
    simp only [MsQueue.enqueueStep,hlast] at hs
    cases hs
    refine hinv.quiet hthread rfl rfl rfl ⟨data,hprog,hpend,htail,?_⟩ (fun _ h => .inl h) (fun _
        h => h)
    intro _ addr haddr
    cases hlast.symm.trans haddr
    rfl
  | loadNextCount node tail next =>
    obtain ⟨data,hprog,hpend,htail,hnext⟩ := hloc
    obtain ⟨last,hlast,-⟩ := id htail
    simp only [MsQueue.enqueueStep,hlast] at hs
    cases hs
    exact hinv.quiet hthread rfl rfl rfl ⟨data,hprog,hpend,htail,hnext⟩ (fun _ h => .inl h) (fun _
        h => h)
  | reloadTail node tail next =>
    cases hs
    obtain ⟨data,hprog,hpend,htail,hnext⟩ := hloc
    exact hinv.quiet hthread rfl rfl rfl ⟨data,hprog,hpend,htail,hnext,id⟩
      (fun _ h => .inl h) (fun _ h => h)
  | checkTail node tail next now =>
    obtain ⟨data,hprog,hpend,htail,hnext,hnow⟩ := hloc
    simp only [MsQueue.enqueueStep] at hs
    split at hs
    · cases hs
      exact hinv.quiet hthread rfl rfl rfl ⟨data,hprog,hpend⟩ nofun (fun _ h => h)
    · next pair hcase =>
      obtain ⟨hcell,rfl⟩ := cas2_eq_some hcase
      have hsame : pair.ptr = system.queue.tail.ptr := by
        rw [hnow (by rw [hcell]),hcell]
      have hchange : Change system.queue front back { system.queue with tail := pair } front back
          none none := Change.refl rfl rfl hsame
      have htail' := htail.rely fun addr _ => hchange.rely addr nofun
      have hpending' : Pending { system.queue with tail := pair } front back node data :=
        hpend.untouched ⟨rfl,hpend.out⟩
      cases hs
      split
      · next hnone =>
        exact hinv.quiet hthread rfl rfl hsame ⟨data,hprog,hpending',htail',hnone⟩
          (fun _ h => .inl h) (fun _ h => h)
      · next hsome =>
        exact hinv.quiet hthread rfl rfl hsame
          ⟨data,hprog,hpending',htail',hsome,hnext⟩ (fun _ h => .inl h)
          (fun _ h => h)
  | linkNode node tail next =>
    obtain ⟨data,hprog,hpend,htail,hnone⟩ := hloc
    obtain ⟨last,hlast,-⟩ := id htail
    simp only [MsQueue.enqueueStep,hlast] at hs
    split at hs
    · cases hs
      exact hinv.quiet hthread rfl rfl rfl ⟨data,hprog,hpend⟩ nofun (fun _ h => h)
    · next pair hcase =>
      cases hs
      exact hinv.link hthread hprog hpend htail hnone hlast hcase
  | helpEnqueue node tail next =>
    obtain ⟨data,hprog,hpend,htail,hsome,hnext⟩ := hloc
    simp only [MsQueue.enqueueStep] at hs
    split at hs
    · cases hs
      exact hinv.quiet hthread rfl rfl rfl ⟨data,hprog,hpend⟩ nofun (fun _ h => h)
    · next pair hcase =>
      cases hs
      obtain ⟨last,hlast,-⟩ := htail
      refine hinv.advance hthread hcase (by rw [hlast]; exact fun h => nomatch h) hsome hnext ?_ rfl
        (fun _ h => h)
      exact fun front' back' hchange => ⟨data,hprog,
        hpend.untouched (hchange.untouched node hpend.out nofun)⟩
  | swingTail node tail =>
    obtain ⟨hprog,htail,hnext⟩ := hloc
    simp only [MsQueue.enqueueStep] at hs
    split at hs
    · cases hs
      exact hinv.quiet hthread rfl rfl rfl hprog nofun nofun
    · next pair hcase =>
      cases hs
      obtain ⟨last,hlast,-⟩ := htail
      exact hinv.advance hthread hcase (by rw [hlast]; exact fun h => nomatch h)
        nofun hnext (fun _ _ _ => hprog) rfl nofun
  | _ => exact nomatch hs

theorem Inv.look {dummy : Addr} (hthread : system.threads tid = .loadFirst head tail)
    (hprog : config.progress tid = .called .dequeue seen) (hdummy : head.ptr = some dummy)
    (hhead : HeadOk system.queue front back head.ptr)
    (hsplit : SplitOk system.queue back head.ptr tail.ptr) :
    Follows config (system.put tid system.queue
      (.loadFirstCount head tail (system.queue.heap dummy).next.ptr)) [] := by
  have hlink : NextOk system.queue head.ptr (system.queue.next dummy) := by
    intro _ addr haddr
    cases hdummy.symm.trans haddr
    rfl
  have hmore : system.queue.head.ptr = head.ptr → tail.ptr ≠ head.ptr →
      system.queue.next dummy ≠ none := fun heq hne =>
    hinv.shape.next_of_head (heq.trans hdummy) (hsplit heq hne dummy hdummy)
  by_cases hempty : system.queue.head.ptr = head.ptr ∧ system.queue.next dummy = none
  · have hvals : config.state = [] := hinv.shape.empty (hempty.1.trans hdummy) hempty.2
    have happly : fifo.apply config.state .dequeue = ([],.taken none) := by
      rw [hvals]
      rfl
    have hloc : LocalOk system.queue front back
        (.called .dequeue (some (fifo.apply config.state .dequeue).2))
        (.loadFirstCount head tail (system.queue.next dummy)) :=
      ⟨_,rfl,hhead,hsplit,hlink,fun heq => ⟨fun _ => by rw [happly],hmore heq⟩⟩
    have hmove := hinv.move tid hinv.shape (Change.refl rfl rfl rfl) hloc
      (fun addr haddr => .inl (by rw [hthread]; exact haddr)) nofun
      nofun nofun
    exact hmove.follows (.see hprog (by rw [happly,hvals]))
  · refine hinv.quiet hthread rfl rfl rfl
      ⟨seen,hprog,hhead,hsplit,hlink,fun heq => ⟨fun hnone => ?_,hmore heq⟩⟩
      (fun _ h => .inl h) nofun
    exact absurd ⟨heq,hnone⟩ hempty

theorem Inv.check {next now : Pointer w} (hthread : system.threads tid = .checkHead head tail next
    now)
    (hprog : config.progress tid = .called .dequeue seen)
    (hload : Loaded system.queue front back head.ptr tail.ptr next.ptr seen)
    (hnow : NowOk system.queue.head.ptr head.ptr now.ptr)
    (hcase : cas2 system.queue.head head now = some pair) :
    Follows config (system.put tid { system.queue with head := pair }
      (if head.ptr = tail.ptr then
        if next.ptr = none then .dequeued none else .helpDequeue tail next
      else .loadValue head next)) [] := by
  obtain ⟨hcell,rfl⟩ := cas2_eq_some hcase
  have hhead : system.queue.head.ptr = head.ptr := by rw [hcell]
  have hsame : pair.ptr = system.queue.head.ptr := (hnow hhead).trans hhead.symm
  have hchange : Change system.queue front back { system.queue with head := pair } front back
      none none := Change.refl rfl hsame rfl
  have hfound := hload.found hhead
  split
  · next hlast =>
    split
    · next hnone =>
      have hseen := hfound.1 hnone
      have hshape : Shape { system.queue with head := pair } front back config.state :=
        hinv.shape.congr hsame rfl fun _ _ => rfl
      have hloc : LocalOk { system.queue with head := pair } front back
          (.done (.taken none)) (.dequeued none) := rfl
      have hmove := hinv.move tid hshape hchange hloc nofun nofun nofun nofun
      rw [hseen] at hprog
      exact hmove.follows (.settle hprog)
    · next hsome =>
      obtain ⟨dummy,hdummy,-⟩ := hload.first
      have hlink := hload.link
      rw [hlast] at hlink hdummy
      refine hinv.quiet hthread rfl hsame rfl ⟨seen,hprog,?_,hsome,hlink⟩
        (fun addr haddr => .inl ?_) nofun
      · rw [hdummy]
        exact nofun
      · exact hlast.trans haddr
  · next hmore =>
    have hsplit : SplitOk { system.queue with head := pair } back head.ptr none :=
      fun _ _ => hload.split hhead (Ne.symm hmore)
    have hfirst := hload.first.rely fun addr _ => hchange.rely addr nofun
    exact hinv.quiet hthread rfl hsame rfl ⟨seen,hprog,hfirst,hsplit,
      hfound.2 (Ne.symm hmore),hload.link⟩ (fun _ h => .inl h) nofun

theorem Inv.retire {next : Pointer w} {data : Option Value}
    (hthread : system.threads tid = .swingHead head next data)
    (hprog : config.progress tid = .called .dequeue seen)
    (hhead : HeadOk system.queue front back head.ptr) (hsplit : SplitOk system.queue back head.ptr
        none)
    (hsome : next.ptr ≠ none) (hnext : NextOk system.queue head.ptr next.ptr)
    (hvalue : system.queue.head.ptr = head.ptr → ∀ first, next.ptr = some first →
      data = (system.queue.heap first).value)
    (hcase : cas2 system.queue.head head ⟨next.ptr,head.count+1⟩ = some pair) :
    Follows config (system.put tid { system.queue with head := pair } (.freeHead head data)) [] :=
        by
  obtain ⟨hcell,rfl⟩ := cas2_eq_some hcase
  obtain ⟨dummy,hdummy,-⟩ := hhead
  obtain ⟨first,hfirst⟩ := ne_none_iff_exists'.mp hsome
  have hsame : system.queue.head.ptr = head.ptr := by rw [hcell]
  have hback := hsplit hsame (by rw [hdummy]; exact fun h => nomatch h) dummy hdummy
  have hpair : (⟨next.ptr,head.count+1⟩ : Pointer w).ptr = some first := hfirst
  obtain ⟨front',value,rest,hvals,hfound,hgone,hshape,hchange⟩ := Change.retire hinv.shape
    (hsame.trans hdummy) hback ((hnext hsome dummy hdummy).trans hfirst) hpair
  have happly : fifo.apply config.state .dequeue = (rest,.taken data) := by
    rw [hvals,hvalue hsame first hfirst,hfound]
    rfl
  have hshape' : Shape { system.queue with head := ⟨next.ptr,head.count+1⟩ } front' back
      (fifo.apply config.state .dequeue).1 := by
    rw [happly]
    exact hshape
  have hloc : LocalOk { system.queue with head := ⟨next.ptr,head.count+1⟩ } front' back
      (.done (fifo.apply config.state .dequeue).2) (.freeHead head data) :=
    ⟨by rw [happly],dummy,hdummy,hgone⟩
  have hmove := hinv.move tid hshape' hchange hloc
    (fun addr haddr => .inl (by rw [hthread]; exact haddr)) nofun
    nofun nofun
  exact hmove.follows (.lin hprog)

theorem Inv.free {dummy : Addr} {data : Option Value}
    (hthread : system.threads tid = .freeHead head data)
    (hprog : config.progress tid = .done (.taken data)) (hdummy : head.ptr = some dummy)
    (hgone : dummy ∉ front ++ back) :
    Follows config (system.put tid { system.queue with
      heap := update system.queue.heap dummy
        { system.queue.heap dummy with live := false } } (.dequeued data)) [] := by
  obtain ⟨hshape,hchange⟩ := Change.free hinv.shape hgone
  have hloc : LocalOk { system.queue with
      heap := update system.queue.heap dummy
        { system.queue.heap dummy with live := false } } front back (config.progress tid)
      (.dequeued data) := hprog
  have hdealt : ∀ addr, some dummy = some addr → ∀ other, other ≠ tid →
      (system.threads other).node ≠ some addr := by
    intro addr haddr other _ hnode
    cases haddr
    exact hinv.held other tid dummy hnode (by rw [hthread]; exact hdummy)
  have hmove := hinv.move tid hshape hchange hloc nofun nofun nofun hdealt
  rw [update_eq_self] at hmove
  exact hmove.stays

theorem Inv.dequeueStep
    (hs : dequeueStep system.queue (system.threads tid) = some (queue,thread)) :
    Follows config (system.put tid queue thread) [] := by
  have hloc := hinv.threads tid
  generalize hthread : system.threads tid = old at hloc hs
  cases old with
  | loadHead =>
    cases hs
    obtain ⟨seen,hprog⟩ := hloc
    exact hinv.quiet hthread rfl rfl rfl ⟨seen,hprog,hinv.shape.headOk⟩
      (fun addr haddr => .inr (hinv.shape.head_mem haddr)) nofun
  | loadHeadCount head | loadLastCount head tail | reloadHeadCount head tail next now =>
    cases hs
    exact hinv.quiet hthread rfl rfl rfl hloc (fun _ h => .inl h) nofun
  | loadLast head =>
    cases hs
    obtain ⟨seen,hprog,hhead⟩ := hloc
    refine hinv.quiet hthread rfl rfl rfl ⟨seen,hprog,hhead,fun heq hne addr haddr => ?_⟩
      (fun _ h => .inl h) nofun
    exact hinv.shape.head_not_mem (heq.trans haddr) fun htail => hne (htail.trans haddr.symm)
  | loadFirst head tail =>
    obtain ⟨seen,hprog,hhead,hsplit⟩ := hloc
    obtain ⟨dummy,hdummy,-⟩ := id hhead
    simp only [MsQueue.dequeueStep,hdummy] at hs
    cases hs
    exact hinv.look hthread hprog hdummy hhead hsplit
  | loadFirstCount head tail next =>
    obtain ⟨seen,hprog,hload⟩ := hloc
    obtain ⟨dummy,hdummy,-⟩ := hload.first
    simp only [MsQueue.dequeueStep,hdummy] at hs
    cases hs
    exact hinv.quiet hthread rfl rfl rfl ⟨seen,hprog,hload⟩ (fun _ h => .inl h) nofun
  | reloadHead head tail next =>
    cases hs
    obtain ⟨seen,hprog,hload⟩ := hloc
    exact hinv.quiet hthread rfl rfl rfl ⟨seen,hprog,hload,id⟩ (fun _ h => .inl h) nofun
  | checkHead head tail next now =>
    obtain ⟨seen,hprog,hload,hnow⟩ := hloc
    simp only [MsQueue.dequeueStep] at hs
    split at hs
    · cases hs
      exact hinv.quiet hthread rfl rfl rfl ⟨seen,hprog⟩ nofun nofun
    · next pair hcase =>
      cases hs
      exact hinv.check hthread hprog hload hnow hcase
  | helpDequeue tail next =>
    obtain ⟨seen,hprog,htail,hsome,hnext⟩ := hloc
    simp only [MsQueue.dequeueStep] at hs
    split at hs
    · cases hs
      exact hinv.quiet hthread rfl rfl rfl ⟨seen,hprog⟩ nofun nofun
    · next pair hcase =>
      cases hs
      exact hinv.advance hthread hcase htail hsome hnext (fun _ _ _ => ⟨seen,hprog⟩) rfl nofun
  | loadValue head next =>
    obtain ⟨seen,hprog,hhead,hsplit,hsome,hnext⟩ := hloc
    obtain ⟨first,hfirst⟩ := ne_none_iff_exists'.mp hsome
    simp only [MsQueue.dequeueStep,hfirst] at hs
    cases hs
    refine hinv.quiet hthread rfl rfl rfl ⟨seen,hprog,hhead,hsplit,hsome,hnext,fun _ other hother =>
        ?_⟩
      (fun _ h => .inl h) nofun
    cases hfirst.symm.trans hother
    rfl
  | swingHead head next data =>
    obtain ⟨seen,hprog,hhead,hsplit,hsome,hnext,hvalue⟩ := hloc
    simp only [MsQueue.dequeueStep] at hs
    split at hs
    · cases hs
      exact hinv.quiet hthread rfl rfl rfl ⟨seen,hprog⟩ nofun nofun
    · next pair hcase =>
      cases hs
      exact hinv.retire hthread hprog hhead hsplit hsome hnext hvalue hcase
  | freeHead head data =>
    obtain ⟨hprog,dummy,hdummy,hgone⟩ := hloc
    simp only [MsQueue.dequeueStep,hdummy] at hs
    cases hs
    exact hinv.free hthread hprog hdummy hgone
  | _ => exact nomatch hs

theorem Inv.alloc {data : Value} {addr : Addr}
    {count : BitVec w} (hthread : system.threads tid = .newNode data) (hfree : system.Free addr) :
    Follows config (system.put tid { system.queue with
      heap := update system.queue.heap addr ⟨⟨none,count⟩,some data,true⟩ }
      (.loadTail addr)) [] := by
  obtain ⟨hdead,hheld⟩ := hfree
  have hout : addr ∉ front ++ back := by
    intro hmem
    rw [hinv.shape.live addr hmem] at hdead
    exact Bool.noConfusion hdead
  have hprog := hinv.threads tid
  rw [hthread] at hprog
  obtain ⟨hshape,hchange⟩ := Change.alloc hinv.shape hdead ⟨⟨none,count⟩,some data,true⟩
  have hloc : LocalOk { system.queue with
      heap := update system.queue.heap addr ⟨⟨none,count⟩,some data,true⟩ } front back
      (config.progress tid) (.loadTail addr) := by
    refine ⟨data,hprog,hout,?_,?_,?_⟩
    · simp
    · simp
    · simp [Queue.next]
  have hnode : ∀ node, (Local.loadTail addr : Local w Value).node = some node →
      (system.threads tid).node = some node ∨
        (some addr = some node ∧ some addr = some node ∧ node ∉ front ++ back) := by
    intro node hnode
    cases hnode
    exact .inr ⟨rfl,rfl,hout⟩
  have hdealt : ∀ other, some addr = some other → ∀ third, third ≠ tid →
      (system.threads third).node ≠ some other := by
    intro other hother third _ hthird
    cases hother
    obtain ⟨value,hpend⟩ := (hinv.threads third).pending hthird
    rw [hpend.live] at hdead
    exact Bool.noConfusion hdead
  have hmove := hinv.move tid hshape hchange hloc (fun _ h => by cases h) hnode
    (fun other hother third => by
      cases hother
      exact hheld third) hdealt
  rw [update_eq_self] at hmove
  exact hmove.stays

theorem Inv.external {event : Event (Fin n) (QueueOp Value) (QueueRes Value)}
    (hs : fifo.LateStep config (.event event) ⟨config.state,update config.progress tid progress⟩)
    (hloc : LocalOk system.queue front back progress thread) (hheld : thread.held = none)
    (hnode : thread.node = none) : Follows config (system.put tid system.queue thread) [event] := by
  have hmove := hinv.move tid hinv.shape (Change.refl rfl rfl rfl) hloc
    (fun _ h => nomatch hheld.symm.trans h) (fun _ h => nomatch hnode.symm.trans h)
    nofun nofun
  exact hmove.follows hs

theorem Inv.step {action : Action n w Value} (hs : step system action = some next) :
    Follows config next (MsQueue.event system action).toList := by
  cases action with
  | enqueue tid data =>
    simp only [MsQueue.step] at hs
    have hidle := hinv.threads tid
    split at hs
    · next hthread =>
      cases hs
      rw [hthread] at hidle
      have hloc : LocalOk system.queue front back (.called (.enqueue data) none)
          (.newNode data) := rfl
      exact hinv.external (.call hidle) hloc rfl rfl
    · exact nomatch hs
  | dequeue tid =>
    simp only [MsQueue.step] at hs
    have hidle := hinv.threads tid
    split at hs
    · next hthread =>
      cases hs
      rw [hthread] at hidle
      have hloc : LocalOk system.queue front back (.called .dequeue none) .loadHead := ⟨none,rfl⟩
      exact hinv.external (.call hidle) hloc rfl rfl
    · exact nomatch hs
  | alloc tid addr count =>
    simp only [MsQueue.step] at hs
    split at hs
    · next data hthread =>
      split at hs
      · next hfree =>
        cases hs
        exact hinv.alloc hthread hfree
      · exact nomatch hs
    · exact nomatch hs
  | access tid =>
    obtain ⟨out,hout,rfl⟩ := map_eq_some_iff.mp hs
    rcases or_eq_some_iff.mp hout with henqueue | ⟨-,hdequeue⟩
    · exact hinv.enqueueStep henqueue
    · exact hinv.dequeueStep hdequeue
  | ret tid =>
    obtain ⟨res,hres,rfl⟩ := map_eq_some_iff.mp hs
    have hdone : config.progress tid = .done res := by
      have hloc := hinv.threads tid
      generalize system.threads tid = thread at hloc hres
      cases thread with
      | enqueued | dequeued data =>
        cases hres
        exact hloc
      | _ => exact nomatch hres
    have hevent : MsQueue.event system (.ret tid) = some (.ret tid res) := by
      simp [MsQueue.event,hres]
    rw [hevent]
    have hloc : LocalOk system.queue front back .idle .idle := rfl
    exact hinv.external (.ret hdone) hloc rfl rfl

end

theorem Inv.create (garbage : Addr → Node w Value) (dummy : Addr) :
    Inv (create garbage dummy : System n w Value) fifo.lateStart [] [dummy] where
  shape := by
    constructor
    · rfl
    · exact ⟨rfl,by simp [MsQueue.create,Queue.next,Lib.Chain.Path]⟩
    · intro h
      cases h
    · simp
    · simp [MsQueue.create]
    · rfl
  threads _ := rfl
  held _ _ _ h := by cases h
  nodes _ _ _ _ h := by cases h

def Sane (system : System n w Value) : Prop := ∀ tid, system.threads tid ≠ .crashed

section

variable (hinv : Inv system config front back)
include hinv

theorem Inv.sane : Sane system := by
  intro tid hcrashed
  have hloc := hinv.threads tid
  rw [hcrashed] at hloc
  exact hloc

theorem Inv.run (actions : List (Action n w Value)) :
    ∃ marks config', fifo.LateRun config marks config' ∧
      marks.filterMap Late.event? = history system actions := by
  induction actions generalizing system config front back with
  | nil => exact ⟨[],config,.nil config,rfl⟩
  | cons action rest ih =>
    rw [history]
    cases hs : MsQueue.step system action with
    | none => exact ⟨[],config,.nil config,rfl⟩
    | some next =>
      obtain ⟨marks,middle,front,back,hmarks,hmid,hevent⟩ := hinv.step hs
      obtain ⟨more,last,hmore,hhistory⟩ := ih hmid
      refine ⟨marks ++ more,last,hmarks.append hmore,?_⟩
      rw [List.filterMap_append,hevent,hhistory]

theorem Inv.always (actions : List (Action n w Value)) :
    Always MsQueue.step Sane system actions := by
  induction actions generalizing system config front back with
  | nil => exact hinv.sane
  | cons action rest ih =>
    refine ⟨hinv.sane,fun next hs => ?_⟩
    obtain ⟨-,middle,front,back,-,hmid,-⟩ := hinv.step hs
    exact ih hmid

end

end Simulation

/-- In every run of any number of threads the calls and returns are linearizable to a queue, and no
thread follows a null pointer. -/
theorem history_linearizable {n : Nat} [DecidableEq Value] (garbage : Addr → Node w Value)
    (dummy : Addr) (actions : List (Action n w Value)) :
    (∃ marks config, Linearizes fifo (history (create garbage dummy) actions) marks config ∧
      enqueued config.order = dequeued config.order ++ config.state ∧
      ∀ front op back, config.order = front ++ (op, .taken none) :: back →
        enqueued front = dequeued front) ∧
    Always step Sane (create garbage dummy) actions := by
  have hinv : Inv (create garbage dummy : System n w Value) fifo.lateStart [] [dummy] :=
    Inv.create garbage dummy
  obtain ⟨marks,last,hrun,hhistory⟩ := hinv.run actions
  obtain ⟨config,-,hlinear⟩ := linearizes_of_late hrun
  rw [hhistory] at hlinear
  have horder := orderly_start.run hlinear.run
  exact ⟨⟨resolve marks,config,hlinear,horder.values,horder.empty⟩,hinv.always actions⟩

/-- One thread puts a value in, another takes it out. -/
example : history (create (fun _ => ⟨⟨none,0⟩,none,false⟩) 0 : System 2 64 Nat)
    ([.enqueue 0 5,.alloc 0 1 3] ++ List.replicate 9 (.access 0) ++ [.ret 0,.dequeue 1] ++
      List.replicate 12 (.access 1) ++ [.ret 1]) =
    [.call 0 (.enqueue 5),.ret 0 .stored,.call 1 .dequeue,.ret 1 (.taken (some 5))] := rfl

end Hqemu.Llvm.MsQueue
