import Hqemu.Lib.Chain
import Hqemu.Lib.Run
import Mathlib.Algebra.Ring.Int.Defs
import Mathlib.Algebra.Ring.Nat

/-! The memory pool of the code generator (`tcg_malloc`), a chain of chunks. -/
namespace Hqemu.Tcg.Chunks

open List Option Lib.Chain Lib.Run

def poolChunkSize : Nat := 32768

inductive Cell where
  | first
  | next (chunk : Nat)
deriving DecidableEq, Repr

/-- Chunks are named by the order of their allocation. `cur` and `end_` are offsets into the current
chunk's data, both null when there is none. -/
structure Pool where
  links : Cell → Option Nat
  size : Nat → Nat
  count : Nat
  current : Option Nat
  cur : Int
  end_ : Int

def Pool.init : Pool := ⟨fun _ => none,fun _ => 0,0,none,0,0⟩

def Pool.tail (pool : Pool) : Cell := pool.current.elim .first .next

/-- A chunk of `bytes` bytes, stored after the current one, whose own `next` is given. -/
def Pool.newChunk (pool : Pool) (bytes : Nat) (next : Option Nat) : Pool :=
  { pool with
    links :=
      Function.update (Function.update pool.links pool.tail (some pool.count))
        (.next pool.count) next
    size := Function.update pool.size pool.count bytes
    count := pool.count+1 }

/-- The end of `tcg_malloc_internal`: the request is the first one in chunk `p`. -/
def Pool.enter (pool : Pool) (p : Nat) (size : Int) : Pool :=
  { pool with current := some p, cur := size, end_ := pool.size p }

def tcgMallocInternal (pool : Pool) (size : Int) : Pool :=
  if poolChunkSize < size then
    (pool.newChunk size.toNat pool.current).enter pool.count size
  else
    match pool.links pool.tail with
    | none => (pool.newChunk poolChunkSize none).enter pool.count size
    | some p => pool.enter p size

/-- The size rounded up to `sizeof(long)`, as the `int` it is stored in. -/
def rounded (size : Nat) : Int := Int.bmod ((size+7) / 8 * 8 : Nat) (2^32)

/-- `ptr_end > s->pool_end`, where any offset from the null pointer but 0 is above it. -/
def Pool.exceeds (pool : Pool) (size : Int) : Bool :=
  match pool.current with
  | none => size ≠ 0
  | some _ => pool.end_ < pool.cur+size

structure Area where
  chunk : Option Nat
  start : Int
  size : Nat
deriving DecidableEq, Repr

def tcgMalloc (pool : Pool) (size : Nat) : Pool × Area :=
  if pool.exceeds (rounded size) then
    let pool := tcgMallocInternal pool (rounded size)
    (pool,⟨pool.current,0,size⟩)
  else
    ({ pool with cur := pool.cur + rounded size },⟨pool.current,pool.cur,size⟩)

def tcgPoolReset (pool : Pool) : Pool := { pool with cur := 0, end_ := 0, current := none }

structure State where
  pool : Pool
  areas : List Area

def State.init : State := ⟨Pool.init,[]⟩

inductive Action where
  | malloc (size : Fin (2^31))
  | reset
deriving DecidableEq, Repr

def step (state : State) : Action → Option State
  | .malloc size =>
    let result := tcgMalloc state.pool size
    some ⟨result.1,result.2 :: state.areas⟩
  | .reset => some ⟨tcgPoolReset state.pool,[]⟩

def Area.Apart (a b : Area) : Prop :=
  a.size = 0 ∨ b.size = 0 ∨ a.chunk ≠ b.chunk ∨
    a.start+a.size ≤ b.start ∨ b.start+b.size ≤ a.start

def Area.Inside (area : Area) (pool : Pool) (chunk : Nat) : Prop :=
  area.chunk = some chunk ∧ 0 ≤ area.start ∧ area.start+area.size ≤ pool.size chunk

/-- The chain ends, so it has no cycle, and its chunks hold all areas, which are apart. -/
def Sound (state : State) : Prop :=
  (∃ chunks, Seg state.pool.links Cell.next .first chunks none ∧
    ∀ area ∈ state.areas, area.size = 0 ∨ ∃ chunk ∈ chunks, area.Inside state.pool chunk) ∧
  state.areas.Pairwise Area.Apart

/-- The rounded size fits an `int`, and a request for more than a chunk's size is either
served by the current chunk or made when there is none. -/
def Served (state : State) : Action → Prop
  | .malloc size =>
    (size : Nat) ≤ 2^31-8 ∧
      (state.pool.current = none ∨ rounded size ≤ poolChunkSize ∨
        state.pool.cur + rounded size ≤ state.pool.end_)
  | .reset => True

instance (state : State) (action : Action) : Decidable (Served state action) := by
  cases action <;> unfold Served <;> infer_instance

variable {size : Nat}

theorem rounded_eq (hsize : size ≤ 2^31-8) : rounded size = ((size+7) / 8 * 8 : Nat) := by
  unfold rounded
  rw [Int.bmod_eq_of_le] <;> omega

theorem rounded_bounds (hsize : size ≤ 2^31-8) : size ≤ rounded size ∧ rounded size ≤ 2^31-8 := by
  rw [rounded_eq hsize]
  omega

theorem rounded_neg (hlarge : ¬ size ≤ 2^31-8) (hint : size < 2^31) : rounded size ≤ 0 := by
  unfold rounded Int.bmod
  dsimp only
  split <;> omega

theorem tcgMalloc_size (pool : Pool) (size : Nat) : (tcgMalloc pool size).2.size = size := by
  unfold tcgMalloc
  split <;> rfl

structure Shape (state : State) (passed back : List Nat) : Prop where
  seg : Seg state.pool.links Cell.next .first (passed ++ back) none
  nodup : (passed ++ back).Nodup
  owned : ∀ chunk ∈ passed ++ back, chunk < state.pool.count ∧
    poolChunkSize ≤ state.pool.size chunk ∧ state.pool.size chunk ≤ 2^31-8
  current : state.pool.current = passed.getLast?
  cur : 0 ≤ state.pool.cur ∧ state.pool.cur ≤ state.pool.end_
  end_ : state.pool.end_ = state.pool.current.elim 0 state.pool.size
  areas : ∀ area ∈ state.areas, area.size = 0 ∨
    ∃ chunk ∈ passed, area.Inside state.pool chunk ∧
      (state.pool.current = some chunk → area.start+area.size ≤ state.pool.cur)
  apart : state.areas.Pairwise Area.Apart

variable {state : State} {passed back : List Nat}

theorem Shape.sound (h : Shape state passed back) : Sound state := by
  refine ⟨⟨passed ++ back,h.seg,fun area harea => ?_⟩,h.apart⟩
  apply (h.areas area harea).imp_right
  rintro ⟨chunk,hcheck,hins,-⟩
  exact ⟨chunk,mem_append_left back hcheck,hins⟩

theorem init_shape : Shape State.init [] [] where
  seg := rfl
  nodup := nodup_nil
  owned := by simp
  current := rfl
  cur := ⟨Int.le_refl 0,Int.le_refl 0⟩
  end_ := rfl
  areas := by simp [State.init]
  apart := List.Pairwise.nil

theorem endCell_next (start : Cell) (chunks : List Nat) :
    endCell Cell.next start chunks = chunks.getLast?.elim start Cell.next := by
  induction chunks generalizing start with
  | nil => rfl
  | cons chunk rest ih =>
    rw [endCell,ih]
    cases hrest : rest.getLast? with
    | none => simp [List.getLast?_eq_none_iff.mp hrest]
    | some last => simp [List.getLast?_cons,hrest]

section

variable (h : Shape state passed back)
include h

theorem Shape.tail_eq : state.pool.tail = endCell Cell.next .first passed := by
  rw [endCell_next,Pool.tail,h.current]

theorem Shape.reset :
    Shape ⟨tcgPoolReset state.pool,[]⟩ [] (passed ++ back) where
  seg := h.seg
  nodup := h.nodup
  owned := h.owned
  current := rfl
  cur := ⟨Int.le_refl 0,Int.le_refl 0⟩
  end_ := rfl
  areas := by simp
  apart := List.Pairwise.nil

theorem Shape.next_apart (chunk : Option Nat) (start : Int)
    (size : Nat) (hnew : chunk = state.pool.current ∧ state.pool.cur ≤ start ∨
      ∀ other ∈ passed, chunk ≠ some other) :
    (⟨chunk,start,size⟩ :: state.areas).Pairwise Area.Apart := by
  apply List.Pairwise.cons _ h.apart
  intro area harea
  rcases h.areas area harea with hz | ⟨other,hother,⟨hcheck,-,-⟩,hcur⟩
  · exact .inr (.inl hz)
  right; right
  by_cases hsame : chunk = area.chunk
  · right; right
    rcases hnew with ⟨hcurrent,hstart⟩ | hnew
    · have := hcur (by rw [← hcurrent,hsame,hcheck])
      dsimp only
      omega
    · exact absurd (hsame.trans hcheck) (hnew other hother)
  · exact .inl hsame

theorem exceeds_false (hsize : size ≤ 2^31-8) (hfit : state.pool.exceeds (rounded size) = false) :
    state.pool.cur + rounded size ≤ state.pool.end_ ∧
      (size = 0 ∨ ∃ chunk, state.pool.current = some chunk) := by
  have hround := rounded_bounds hsize
  cases hcurrent : state.pool.current with
  | none =>
    have hz : rounded size = 0 := by simpa [Pool.exceeds,hcurrent] using hfit
    have hcur := h.cur
    exact ⟨by omega,.inl (by omega)⟩
  | some chunk =>
    exact ⟨by simpa [Pool.exceeds,hcurrent] using hfit,.inr ⟨chunk,rfl⟩⟩

theorem Shape.fast (hsize : size ≤ 2^31-8) (hfit : state.pool.exceeds (rounded size) = false) :
    Shape ⟨{ state.pool with cur := state.pool.cur + rounded size },
      ⟨state.pool.current,state.pool.cur,size⟩ :: state.areas⟩ passed back := by
  obtain ⟨hroom,hserver⟩ := exceeds_false h hsize hfit
  have hround := rounded_bounds hsize
  have hcur := h.cur
  refine
    { seg := h.seg, nodup := h.nodup, owned := h.owned, current := h.current
      cur := ⟨by dsimp only; omega,hroom⟩
      end_ := h.end_
      areas := fun area harea => ?_
      apart := h.next_apart _ _ size (.inl ⟨rfl,Int.le_refl _⟩) }
  rcases mem_cons.mp harea with rfl | harea
  · apply hserver.imp_right
    rintro ⟨chunk,hcheck⟩
    have hend := h.end_
    rw [hcheck,elim_some] at hend
    refine ⟨chunk,mem_of_getLast? (h.current.symm.trans hcheck),
      ⟨hcheck,hcur.1,?_⟩,fun _ => ?_⟩ <;> dsimp only <;> omega
  · apply (h.areas area harea).imp_right
    rintro ⟨chunk,hcheck,hins,hlast⟩
    refine ⟨chunk,hcheck,hins,fun hcurrent => ?_⟩
    have := hlast hcurrent
    dsimp only
    omega

theorem Shape.enter {pool : Pool} {p : Nat} {rest : List Nat} (hsize : size ≤ 2^31-8)
    (hseg : Seg pool.links Cell.next .first (passed ++ p :: rest) none)
    (hnodup : (passed ++ p :: rest).Nodup) (hown : ∀ chunk ∈ passed ++ p :: rest, chunk < pool.count
        ∧
      poolChunkSize ≤ pool.size chunk ∧ pool.size chunk ≤ 2^31-8)
    (hkeep : ∀ chunk ∈ passed, pool.size chunk = state.pool.size chunk)
    (hroom : rounded size ≤ pool.size p) :
    Shape ⟨pool.enter p (rounded size),⟨some p,0,size⟩ :: state.areas⟩ (passed ++ [p]) rest := by
  have hround := rounded_bounds hsize
  have hfresh : p ∉ passed := fun hp => by
    simpa using (nodup_append.mp hnodup).2.2 p hp p (by simp)
  refine
    { seg := by simpa [Pool.enter] using hseg
      nodup := by simpa using hnodup
      owned := by simpa [Pool.enter] using hown
      current := by simp [Pool.enter]
      cur := by dsimp only [Pool.enter]; omega
      end_ := rfl
      areas := fun area harea => ?_
      apart := h.next_apart _ _ size (.inr fun other hother hp => ?_) }
  · rcases mem_cons.mp harea with rfl | harea
    · right
      refine ⟨p,by simp,⟨rfl,Int.le_refl 0,?_⟩,fun _ => ?_⟩ <;> dsimp only [Pool.enter] <;> omega
    · apply (h.areas area harea).imp_right
      rintro ⟨chunk,hcheck,⟨hin,hstart,hend⟩,-⟩
      refine ⟨chunk,mem_append_left _ hcheck,⟨hin,hstart,?_⟩,fun hsome => ?_⟩
      · dsimp only [Pool.enter]
        rwa [hkeep chunk hcheck]
      · cases hsome
        exact absurd hcheck hfresh
  · cases hp
    exact hfresh hother

theorem Shape.fresh : state.pool.count ∉ passed := by
  intro hp
  exact Nat.lt_irrefl _ (h.owned _ (mem_append_left back hp)).1

theorem Shape.newChunk_seg (bytes : Nat) (next : Option Nat) :
    Seg (state.pool.newChunk bytes next).links Cell.next .first
      (passed ++ [state.pool.count]) next := by
  have hcells : (Cell.first :: passed.map Cell.next).Nodup := by
    simpa [nodup_map_iff fun _ _ => Cell.next.inj] using h.nodup.of_append_left
  have hpassed := ((seg_append _ passed back none).mp h.seg).1.redirect hcells
    (some state.pool.count)
  rw [← h.tail_eq] at hpassed
  have hupdated : Seg (state.pool.newChunk bytes next).links Cell.next .first passed
      (some state.pool.count) :=
    hpassed.update (by simp) fun chunk hcheck hsame => h.fresh (Cell.next.inj hsame ▸ hcheck)
  have hnext : (state.pool.newChunk bytes next).links (.next state.pool.count) = next :=
    Function.update_self ..
  have hsnoc := hupdated.snoc
  rwa [hnext] at hsnoc

theorem Shape.newChunk {bytes : Nat} (hsize : size ≤ 2^31-8)
    (hbytes : poolChunkSize ≤ bytes) (hmax : bytes ≤ 2^31-8) (hroom : rounded size ≤ bytes) :
    Shape ⟨(state.pool.newChunk bytes none).enter state.pool.count (rounded size),
      ⟨some state.pool.count,0,size⟩ :: state.areas⟩ (passed ++ [state.pool.count]) [] := by
  have hkeep : ∀ chunk ∈ passed,
      (state.pool.newChunk bytes none).size chunk = state.pool.size chunk := by
    intro chunk hcheck
    apply Function.update_of_ne
    rintro rfl
    exact h.fresh hcheck
  apply h.enter hsize (h.newChunk_seg bytes none)
  · exact nodup_append.mpr ⟨h.nodup.of_append_left,nodup_singleton _,
      fun chunk hcheck other hother => by
        rintro rfl
        exact h.fresh (mem_singleton.mp hother ▸ hcheck)⟩
  · intro chunk hcheck
    rcases mem_append.mp hcheck with hcheck | hcheck
    · have hown := h.owned chunk (mem_append_left back hcheck)
      rw [hkeep chunk hcheck]
      exact ⟨Nat.lt_succ_of_lt hown.1,hown.2⟩
    · cases mem_singleton.mp hcheck
      simpa [Pool.newChunk] using ⟨hbytes,hmax⟩
  · exact hkeep
  · simpa [Pool.newChunk] using hroom

theorem Shape.back_eq {p : Nat}
    (hp : state.pool.links state.pool.tail = some p) : ∃ rest, back = p :: rest := by
  have hback := ((seg_append _ passed back none).mp h.seg).2
  rw [← h.tail_eq] at hback
  cases back with
  | nil => exact nomatch hp.symm.trans hback
  | cons first rest => exact ⟨rest,by rw [some.inj (hback.1.symm.trans hp)]⟩

theorem Shape.malloc (hsize : size ≤ 2^31-8)
    (hbig : state.pool.current = none ∨ rounded size ≤ poolChunkSize ∨
      state.pool.cur + rounded size ≤ state.pool.end_) :
    ∃ passed back, Shape ⟨(tcgMalloc state.pool size).1,
      (tcgMalloc state.pool size).2 :: state.areas⟩ passed back := by
  have hround := rounded_bounds hsize
  cases hexceeds : state.pool.exceeds (rounded size) with
  | false => exact ⟨passed,back,by simpa [tcgMalloc,hexceeds] using h.fast hsize hexceeds⟩
  | true =>
    simp only [tcgMalloc,hexceeds,↓reduceIte,tcgMallocInternal]
    split
    · have hnone : state.pool.current = none := by
        cases hcurrent : state.pool.current with
        | none => rfl
        | some c =>
          simp only [Pool.exceeds,hcurrent,decide_eq_true_eq] at hexceeds
          rw [hcurrent] at hbig
          rcases hbig with hnone | hsmall | hfit
          · exact nomatch hnone
          · omega
          · omega
      rw [hnone]
      exact ⟨_,_,h.newChunk hsize (by omega) (by omega) (by omega)⟩
    · rename_i hsmall
      cases hlink : state.pool.links state.pool.tail with
      | none =>
        exact ⟨_,_,h.newChunk hsize (Nat.le_refl _) (by decide) (Int.not_lt.mp hsmall)⟩
      | some p =>
        obtain ⟨rest,rfl⟩ := h.back_eq hlink
        have hown := h.owned p (by simp)
        exact ⟨_,_,h.enter hsize h.seg h.nodup h.owned (fun _ _ => rfl) (by omega)⟩

end

theorem step_shape {next : State} {action : Action} (h : ∃ passed back, Shape state passed back)
    (hserver : Served state action) (hs : step state action = some next) :
    ∃ passed back, Shape next passed back := by
  obtain ⟨passed,back,h⟩ := h
  cases action with
  | malloc size =>
    cases hs
    exact h.malloc hserver.1 hserver.2
  | reset =>
    cases hs
    exact ⟨[],passed ++ back,h.reset⟩

theorem Shape.serving_size (h : Shape state passed back) {chunk : Nat}
    (hsmall : rounded size ≤ poolChunkSize)
    (hcheck : (tcgMalloc state.pool size).2.chunk = some chunk) :
    (tcgMalloc state.pool size).1.size chunk ≤ 2^31-8 := by
  cases hexceeds : state.pool.exceeds (rounded size) with
  | false =>
    simp only [tcgMalloc,hexceeds,Bool.false_eq_true,↓reduceIte] at hcheck ⊢
    rw [h.current] at hcheck
    exact (h.owned chunk (mem_append_left back (mem_of_getLast? hcheck))).2.2
  | true =>
    simp only [tcgMalloc,hexceeds,↓reduceIte,tcgMallocInternal,Int.not_lt.mpr hsmall] at hcheck ⊢
    cases hlink : state.pool.links state.pool.tail with
    | none =>
      simp only [hlink,Pool.enter,some.injEq] at hcheck
      subst hcheck
      simp [Pool.enter,Pool.newChunk,poolChunkSize]
    | some p =>
      simp only [hlink,Pool.enter,some.injEq] at hcheck
      subst hcheck
      obtain ⟨rest,rfl⟩ := h.back_eq hlink
      exact (h.owned p (by simp)).2.2

theorem Shape.cycle (h : Shape state passed back) {c : Nat} (hcurrent : state.pool.current = some c)
    (bytes : Nat) (chunks : List Nat) :
    ¬ Seg (state.pool.newChunk bytes (some c)).links Cell.next .first chunks none := by
  intro hchunks
  obtain ⟨front,rfl⟩ := List.getLast?_eq_some_iff.mp (h.current.symm.trans hcurrent)
  have hseg := h.newChunk_seg bytes (some c)
  rw [append_assoc,seg_append] at hseg
  obtain ⟨hfront,hcycle⟩ := hseg
  have hc := hcycle.1
  rw [hc] at hfront
  obtain ⟨rest,hrest,-⟩ := hfront.tail hchunks
  rw [Seg,hc] at hcycle
  exact hcycle.not_of_cycle (by simp) rest hrest

theorem served_of_sound {next : State} {action : Action}
    (h : ∃ passed back, Shape state passed back) (hsound : Sound next)
    (hs : step state action = some next) : Served state action := by
  obtain ⟨passed,back,h⟩ := h
  cases action with
  | reset => trivial
  | malloc size =>
    obtain rfl : _ = next := some.inj hs
    obtain ⟨⟨chunks,hchunks,hareas⟩,-⟩ := hsound
    have hsize : size.val ≤ 2^31-8 := by
      by_contra hlarge
      have hneg := rounded_neg hlarge size.isLt
      have hheld := hareas _ mem_cons_self
      rw [tcgMalloc_size] at hheld
      rcases hheld with hz | ⟨chunk,-,hcheck,hstart,hend⟩
      · omega
      have hserving := h.serving_size (Int.le_trans hneg (by decide)) hcheck
      rw [tcgMalloc_size] at hend
      dsimp only at hend
      omega
    refine ⟨hsize,?_⟩
    by_contra hbig
    simp only [not_or,Int.not_le] at hbig
    obtain ⟨c,hcurrent⟩ := ne_none_iff_exists'.mp hbig.1
    have hexceeds : state.pool.exceeds (rounded size) = true := by
      simpa [Pool.exceeds,hcurrent] using hbig.2.2
    simp only [tcgMalloc,hexceeds,↓reduceIte,tcgMallocInternal,hbig.2.1,hcurrent] at hchunks
    exact h.cycle hcurrent (rounded size).toNat chunks hchunks

/-- The areas stay apart, inside the chunks, exactly when each request is one that is `Served`. -/
theorem sound_iff_served (actions : List Action) :
    Always step Sound State.init actions ↔ Meets step Served State.init actions :=
  always_iff_meets_of_inv (fun state => ∃ passed back, Shape state passed back)
    (fun _ _ _ => step_shape) (fun _ ⟨_,_,h⟩ => h.sound) (fun _ _ _ => served_of_sound)
    ⟨[],[],init_shape⟩

/-- A request for more than a chunk between two small ones: the third is served from the start of
the first chunk, where the first area is. -/
theorem big_request_returns_area_again :
    ∃ state, run step State.init [.malloc 8, .malloc 40000, .malloc 8] = some state ∧
      state.areas = [⟨some 0, 0, 8⟩, ⟨some 1, 0, 40000⟩, ⟨some 0, 0, 8⟩] ∧ ¬ Sound state := by
  refine ⟨_,rfl,by decide,fun hsound => ?_⟩
  have hlast : Area.Apart ⟨some 0,0,8⟩ ⟨some 0,0,8⟩ := rel_of_pairwise_cons hsound.2 (by decide)
  simp [Area.Apart] at hlast

end Hqemu.Tcg.Chunks
