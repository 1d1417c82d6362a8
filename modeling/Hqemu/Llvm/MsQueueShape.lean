import Hqemu.Lib.Chain
import Hqemu.Llvm.MsQueue

/-! The shape of the lock-free queue, and what a step can do to it. The nodes behind `head` hold the
values; `tail` is among them. -/
namespace Hqemu.Llvm.MsQueue

open Function List Lib.Chain

variable {w : Nat} {Value : Type}

section Shape

def Queue.next (queue : Queue w Value) (addr : Addr) : Option Addr := (queue.heap addr).next.ptr

structure Shape (queue : Queue w Value) (front back : List Addr) (values : List Value) : Prop where
  toTail : Path queue.next id queue.head.ptr front queue.tail.ptr
  toEnd : Path queue.next id queue.tail.ptr back none
  tail : queue.tail.ptr ≠ none
  nodup : (front ++ back).Nodup
  live : ∀ addr ∈ front ++ back, (queue.heap addr).live = true
  values : (front ++ back).tail.map (fun addr => (queue.heap addr).value) = values.map some

variable {queue : Queue w Value} {front back : List Addr} {values : List Value} {addr : Addr}

section

variable (hshape : Shape queue front back values)
include hshape

theorem Shape.back_eq (htail : queue.tail.ptr = some addr) :
    ∃ rest, back = addr :: rest ∧ Path queue.next id (queue.next addr) rest none := by
  have hback := hshape.toEnd
  rw [htail] at hback
  exact hback.eq_cons nofun

theorem Shape.tail_mem (htail : queue.tail.ptr = some addr) : addr ∈ back := by
  obtain ⟨rest,rfl,-⟩ := hshape.back_eq htail
  exact mem_cons_self

theorem Shape.head_mem (hhead : queue.head.ptr = some addr) : addr ∈ front ++ back := by
  have hfront := hshape.toTail
  cases front with
  | nil => exact hshape.tail_mem (hfront.symm.trans hhead)
  | cons first rest =>
    have hfirst : some addr = some first := hhead.symm.trans hfront.1
    cases hfirst
    exact mem_cons_self

theorem Shape.front_eq (hhead : queue.head.ptr = some addr) (hback : addr ∉ back) :
    ∃ rest, front = addr :: rest ∧ Path queue.next id (queue.next addr) rest queue.tail.ptr := by
  have hfront := hshape.toTail
  rw [hhead] at hfront
  exact hfront.eq_cons fun htail => hback (hshape.tail_mem htail)

theorem Shape.head_some : queue.head.ptr ≠ none := by
  intro hhead
  have hfront := hshape.toTail
  rw [hhead] at hfront
  cases hfront.eq_nil
  exact hshape.tail hfront.symm

theorem Shape.head_not_mem (hhead : queue.head.ptr = some addr)
    (htail : queue.tail.ptr ≠ some addr) : addr ∉ back := by
  have hfront := hshape.toTail
  rw [hhead] at hfront
  obtain ⟨rest,rfl,-⟩ := hfront.eq_cons htail
  intro hmem
  exact (nodup_append.mp hshape.nodup).2.2 addr mem_cons_self addr hmem rfl

theorem Shape.next_of_head (hhead : queue.head.ptr = some addr) (hback : addr ∉ back) :
    queue.next addr ≠ none := by
  intro hnext
  obtain ⟨rest,-,hpath⟩ := hshape.front_eq hhead hback
  rw [hnext] at hpath
  cases hpath.eq_nil
  exact hshape.tail hpath.symm

theorem Shape.empty (hhead : queue.head.ptr = some addr) (hnext : queue.next addr = none) :
    values = [] := by
  have hfront := hshape.toTail
  have hvals := hshape.values
  cases front with
  | nil =>
    obtain ⟨rest,rfl,hrest⟩ := hshape.back_eq (hfront.symm.trans hhead)
    rw [hnext] at hrest
    cases hrest.eq_nil
    exact map_eq_nil_iff.mp hvals.symm
  | cons first rest =>
    obtain ⟨hfirst,hrest⟩ := hfront
    cases hhead.symm.trans hfirst
    rw [id,hnext] at hrest
    cases hrest.eq_nil
    exact absurd hrest.symm hshape.tail

theorem Shape.congr {changed : Queue w Value}
    (hhead : changed.head.ptr = queue.head.ptr) (htail : changed.tail.ptr = queue.tail.ptr)
    (hheap : ∀ addr ∈ front ++ back, changed.heap addr = queue.heap addr) :
    Shape changed front back values where
  toTail := by
    rw [hhead,htail]
    refine hshape.toTail.congr fun addr haddr => ?_
    simp [Queue.next,hheap addr (mem_append_left _ haddr)]
  toEnd := by
    rw [htail]
    refine hshape.toEnd.congr fun addr haddr => ?_
    simp [Queue.next,hheap addr (mem_append_right _ haddr)]
  tail := by
    rw [htail]
    exact hshape.tail
  nodup := hshape.nodup
  live addr haddr := by
    rw [hheap addr haddr]
    exact hshape.live addr haddr
  values := by
    rw [← hshape.values]
    refine map_congr_left fun addr haddr => ?_
    rw [hheap addr (mem_of_mem_tail haddr)]

theorem Shape.next_mem {next : Addr} (hhead : queue.head.ptr = some addr)
    (hnext : queue.next addr = some next) : next ∈ front ++ back := by
  have hfront := hshape.toTail
  cases front with
  | nil =>
    obtain ⟨rest,rfl,hrest⟩ := hshape.back_eq (hfront.symm.trans hhead)
    rw [hnext] at hrest
    obtain ⟨more,rfl,-⟩ := hrest.eq_cons nofun
    simp
  | cons first rest =>
    obtain ⟨hfirst,hrest⟩ := hfront
    cases hhead.symm.trans hfirst
    rw [id,hnext] at hrest
    cases rest with
    | nil => exact mem_append_right _ (hshape.tail_mem hrest.symm)
    | cons second more =>
      cases hrest.1
      simp

end

end Shape

section Change

structure Rely (queue : Queue w Value) (front back : List Addr) (queue' : Queue w Value)
    (front' back' : List Addr) (addr : Addr) : Prop where
  next : queue.next addr ≠ none → queue'.next addr = queue.next addr
  left : addr ∉ back → addr ∉ back'
  gone : addr ∉ front ++ back → addr ∉ front' ++ back'
  tail : queue.tail.ptr = some addr → queue'.tail.ptr = some addr ∨
    (addr ∉ back' ∧ queue'.next addr ≠ none)
  head : queue.head.ptr = some addr → queue'.head.ptr = some addr ∨ addr ∉ front' ++ back'
  value : queue.head.ptr = some addr → ∀ next, queue.next addr = some next →
    (queue'.heap next).value = (queue.heap next).value

structure Change (queue : Queue w Value) (front back : List Addr) (queue' : Queue w Value)
    (front' back' : List Addr) (fresh dealt : Option Addr) : Prop where
  rely : ∀ addr, fresh ≠ some addr → Rely queue front back queue' front' back' addr
  untouched : ∀ addr ∉ front ++ back, dealt ≠ some addr →
    queue'.heap addr = queue.heap addr ∧ addr ∉ front' ++ back'

variable {queue : Queue w Value} {front back : List Addr} {values : List Value} {addr : Addr}

theorem Change.refl {queue' : Queue w Value} (hheap : queue'.heap = queue.heap)
    (hhead : queue'.head.ptr = queue.head.ptr) (htail : queue'.tail.ptr = queue.tail.ptr) :
    Change queue front back queue' front back none none where
  rely addr _ := by
    constructor
    · simp [Queue.next,hheap]
    · exact id
    · exact id
    · rw [htail]
      exact .inl
    · rw [hhead]
      exact .inl
    · simp [hheap]
  untouched addr haddr _ := ⟨by rw [hheap],haddr⟩

section

variable (hshape : Shape queue front back values)
include hshape

theorem Change.alloc (hdead : (queue.heap addr).live = false) (node : Node w Value) :
    Shape { queue with heap := update queue.heap addr node } front back values ∧
      Change queue front back { queue with heap := update queue.heap addr node }
        front back (some addr) (some addr) := by
  have hout : addr ∉ front ++ back := by
    intro hmem
    rw [hshape.live addr hmem] at hdead
    exact nomatch hdead
  have hsame : ∀ other, other ≠ addr → update queue.heap addr node other =
      queue.heap other := fun other hother => update_of_ne hother _ _
  constructor
  · refine hshape.congr rfl rfl fun other hother => hsame other ?_
    rintro rfl
    exact hout hother
  · constructor
    · intro other hother
      have hne : other ≠ addr := fun h => hother (by rw [h])
      constructor
      · simp [Queue.next,hsame other hne]
      · exact id
      · exact id
      · exact .inl
      · exact .inl
      · intro hhead next hnext
        have hmem := hshape.next_mem hhead hnext
        exact congrArg Node.value (hsame next fun h => hout (h ▸ hmem))
    · intro other hother hne
      exact ⟨hsame other fun h => hne (by rw [h]),hother⟩

theorem Change.free (hout : addr ∉ front ++ back) :
    Shape { queue with
      heap := update queue.heap addr { queue.heap addr with live := false } } front back values ∧
      Change queue front back { queue with
        heap := update queue.heap addr { queue.heap addr with live := false } }
          front back none (some addr) := by
  have hsame : ∀ other, other ≠ addr → update queue.heap addr
      { queue.heap addr with live := false } other = queue.heap other :=
    fun other hother => update_of_ne hother _ _
  have hvalue : ∀ other, (update queue.heap addr
      { queue.heap addr with live := false } other).value = (queue.heap other).value := by
    intro other
    by_cases hother : other = addr
    · simp [hother]
    · rw [hsame other hother]
  have hnext : ∀ other, (update queue.heap addr
      { queue.heap addr with live := false } other).next = (queue.heap other).next := by
    intro other
    by_cases hother : other = addr
    · simp [hother]
    · rw [hsame other hother]
  constructor
  · refine hshape.congr rfl rfl fun other hother => hsame other ?_
    rintro rfl
    exact hout hother
  · constructor
    · intro other _
      constructor
      · simp [Queue.next,hnext]
      · exact id
      · exact id
      · exact .inl
      · exact .inl
      · exact fun _ next _ => hvalue next
    · intro other hother hne
      exact ⟨hsame other fun h => hne (by rw [h]),hother⟩

theorem Change.advance {next : Addr} {pair : Pointer w} (htail : queue.tail.ptr = some addr)
    (hnext : queue.next addr = some next) (hpair : pair.ptr = some next) :
    ∃ front' back', Shape { queue with tail := pair } front' back' values ∧
      Change queue front back { queue with tail := pair } front' back' none none := by
  obtain ⟨rest,rfl,hrest⟩ := hshape.back_eq htail
  have hnodup := hshape.nodup
  have hchain : front ++ [addr] ++ rest = front ++ addr :: rest := by simp
  refine ⟨front ++ [addr],rest,?_,?_⟩
  · constructor
    · have hfront := hshape.toTail
      rw [htail] at hfront
      have hsnoc := hfront.snoc
      rw [id,hnext] at hsnoc
      simp only [hpair]
      exact hsnoc
    · rw [hnext] at hrest
      simp only [hpair]
      exact hrest
    · simp [hpair]
    · rw [hchain]
      exact hnodup
    · rw [hchain]
      exact hshape.live
    · rw [hchain]
      exact hshape.values
  · constructor
    · intro other _
      constructor
      · exact fun _ => rfl
      · exact fun hother hmem => hother (mem_cons_of_mem _ hmem)
      · rw [hchain]
        exact id
      · intro hother
        cases htail.symm.trans hother
        refine .inr ⟨?_,?_⟩
        · exact (nodup_cons.mp (nodup_append.mp hnodup).2.1).1
        · rw [show Queue.next { queue with tail := pair } addr = queue.next addr from rfl,hnext]
          exact nofun
      · exact .inl
      · exact fun _ _ _ => rfl
    · intro other hother _
      rw [hchain]
      exact ⟨rfl,hother⟩

theorem Change.link {node : Addr} {value : Value} {pair : Pointer w}
    (htail : queue.tail.ptr = some addr) (hlast : queue.next addr = none) (hout : node ∉ front ++
        back)
    (hlive : (queue.heap node).live = true) (hvalue : (queue.heap node).value = some value)
    (hend : queue.next node = none) (hpair : pair.ptr = some node) :
    Shape (queue.setNext addr pair) front (back ++ [node]) (values ++ [value]) ∧
      Change queue front back (queue.setNext addr pair) front (back ++ [node])
        (some node) (some node) := by
  obtain ⟨rest,rfl,hrest⟩ := hshape.back_eq htail
  rw [hlast] at hrest
  cases hrest.eq_nil
  have hnodup := hshape.nodup
  have hfront : addr ∉ front := fun hmem =>
    (nodup_append.mp hnodup).2.2 addr hmem addr (mem_singleton_self _) rfl
  have hne : node ≠ addr := by
    rintro rfl
    exact hout (mem_append_right _ (mem_singleton_self _))
  have hsame : ∀ other, other ≠ addr → (queue.setNext addr pair).heap other = queue.heap other :=
    fun other hother => update_of_ne hother _ _
  have hkeep : ∀ other, ((queue.setNext addr pair).heap other).value = (queue.heap other).value ∧
      ((queue.setNext addr pair).heap other).live = (queue.heap other).live := by
    intro other
    by_cases hother : other = addr
    · rw [hother]
      simp [Queue.setNext]
    · rw [hsame other hother]
      exact ⟨rfl,rfl⟩
  have hnext : (queue.setNext addr pair).next addr = some node := by
    simp [Queue.next,Queue.setNext,hpair]
  have hnode : (queue.setNext addr pair).next node = none := by
    rw [Queue.next,hsame node hne]
    exact hend
  constructor
  · constructor
    · refine hshape.toTail.congr fun other hother => ?_
      simp only [id,Queue.next]
      rw [hsame other fun h => hfront (h ▸ hother)]
    · exact ⟨htail,hnext,hnode⟩
    · exact hshape.tail
    · rw [← append_assoc]
      exact nodup_append.mpr ⟨hnodup,nodup_singleton _,fun other hother last hlast h =>
        hout (mem_singleton.mp hlast ▸ h ▸ hother)⟩
    · intro other hother
      rw [(hkeep other).2]
      rw [← append_assoc,mem_append] at hother
      rcases hother with hother | hother
      · exact hshape.live other hother
      · rw [mem_singleton.mp hother]
        exact hlive
    · rw [← append_assoc,tail_append_of_ne_nil (by simp),map_append,map_append,← hshape.values]
      simp [hkeep,hvalue]
  · constructor
    · intro other hother
      have hnot : other ≠ node := fun h => hother (by rw [h])
      constructor
      · intro hsome
        have hother : other ≠ addr := by
          rintro rfl
          exact hsome hlast
        rw [Queue.next,hsame other hother]
        rfl
      · simp [hnot]
      · simp only [mem_append,mem_singleton]
        tauto
      · exact .inl
      · exact .inl
      · exact fun _ next _ => (hkeep next).1
    · intro other hother hnot
      have hother' : other ≠ addr := by
        rintro rfl
        exact hother (mem_append_right _ (mem_singleton_self _))
      refine ⟨hsame other hother',?_⟩
      rw [← append_assoc,mem_append,mem_singleton]
      rintro (hmem | rfl)
      · exact hother hmem
      · exact hnot rfl

theorem Change.retire {next : Addr} {pair : Pointer w} (hhead : queue.head.ptr = some addr)
    (hback : addr ∉ back) (hnext : queue.next addr = some next) (hpair : pair.ptr = some next) :
    ∃ front' value rest, values = value :: rest ∧ (queue.heap next).value = some value ∧
      addr ∉ front' ++ back ∧ Shape { queue with head := pair } front' back rest ∧
      Change queue front back { queue with head := pair } front' back none none := by
  obtain ⟨front',rfl,hpath⟩ := hshape.front_eq hhead hback
  have hnodup := hshape.nodup
  rw [cons_append,nodup_cons] at hnodup
  have hmem : ∃ more, front' ++ back = next :: more := by
    rw [hnext] at hpath
    cases front' with
    | nil =>
      obtain ⟨more,rfl,-⟩ := hshape.back_eq hpath.symm
      exact ⟨more,rfl⟩
    | cons second more =>
      cases hpath.1
      exact ⟨more ++ back,rfl⟩
  obtain ⟨more,hmore⟩ := hmem
  have hvals := hshape.values
  rw [cons_append,tail_cons,hmore,map_cons] at hvals
  cases values with
  | nil => exact nomatch hvals
  | cons value rest =>
    rw [map_cons,List.cons.injEq] at hvals
    refine ⟨front',value,rest,rfl,hvals.1,hnodup.1,?_,?_⟩
    · constructor
      · simp only [hpair]
        rw [hnext] at hpath
        exact hpath
      · exact hshape.toEnd
      · exact hshape.tail
      · exact hnodup.2
      · exact fun other hother => hshape.live other (mem_cons_of_mem _ hother)
      · rw [hmore]
        exact hvals.2
    · constructor
      · intro other _
        constructor
        · exact fun _ => rfl
        · exact id
        · exact fun hother hmem => hother (mem_cons_of_mem _ hmem)
        · exact .inl
        · intro hother
          cases hhead.symm.trans hother
          exact .inr hnodup.1
        · exact fun _ _ _ => rfl
      · exact fun other hother _ => ⟨rfl,fun hmem => hother (mem_cons_of_mem _ hmem)⟩

end

end Change

end Hqemu.Llvm.MsQueue
