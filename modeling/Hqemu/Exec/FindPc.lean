import Hqemu.Exec.CodeBuffer

/-! The array of translation blocks and the search for a block by an address of its code. -/
namespace Hqemu.Exec.FindPc
open List

structure Tb where
  tcPtr : Nat
  codeGenSize : Nat
deriving DecidableEq

structure Buffer where
  tbs : List Tb
  codeGenPtr : Nat
deriving DecidableEq

/-- `codeGenSize` is what `cpu_gen_code` returns, if it does. Where `tb_alloc` refuses a block, a
flush comes first. -/
inductive Action where
  | genCode (codeGenSize : Option Nat)
  | free (tb : Nat)
  | flush
deriving DecidableEq

def tbFree (b : Buffer) (tb : Nat) : Buffer :=
  match b.tbs.getLast? with
  | some last => if tb + 1 = b.tbs.length then ⟨b.tbs.dropLast,last.tcPtr⟩ else b
  | none => b

def step (b : Buffer) : Action → Buffer
  | .genCode none => ⟨b.tbs ++ [⟨b.codeGenPtr,0⟩],b.codeGenPtr⟩
  | .genCode (some size) => ⟨b.tbs ++ [⟨b.codeGenPtr,size⟩],alignUp (b.codeGenPtr+size)⟩
  | .free tb => tbFree b tb
  | .flush => ⟨[],0⟩

def tcPtr (b : Buffer) (i : Nat) : Nat := (b.tbs.getD i ⟨0,0⟩).tcPtr

/-- The loop of `tb_find_pc`; `stop` is `m_max + 1`, and `none` the block in front of the array. -/
def search (v : Nat → Nat) (tcPtr mMin stop : Nat) : Option Nat :=
  if mMin < stop then
    let m := (mMin+(stop-1)) >>> 1
    if v m = tcPtr then some m
    else if tcPtr < v m then search v tcPtr mMin m
    else search v tcPtr (m+1) stop
  else if stop = 0 then none else some (stop-1)
termination_by stop - mMin
decreasing_by all_goals simp only [Nat.shiftRight_one]; omega

def tbFindPc (b : Buffer) (pc : Nat) : Option Nat :=
  if b.tbs.length = 0 ∨ b.codeGenPtr ≤ pc then none else search (tcPtr b) pc 0 b.tbs.length

structure Sound (b : Buffer) : Prop where
  sorted : b.tbs.Pairwise fun x y => x.tcPtr < y.tcPtr
  before : ∀ pc i, tbFindPc b pc = some i → i < b.tbs.length ∧ tcPtr b i ≤ pc
  finds : ∀ i x, b.tbs[i]? = some x → ∀ pc, x.tcPtr ≤ pc → pc < x.tcPtr+x.codeGenSize →
    tbFindPc b pc = some i

/-- The translation of a block comes to its end and has code. -/
def Action.Emits : Action → Prop
  | .genCode codeGenSize => ∃ size ∈ codeGenSize, 0 < size
  | _ => True

structure Inv (b : Buffer) : Prop where
  sorted : b.tbs.Pairwise fun x y => x.tcPtr+x.codeGenSize ≤ y.tcPtr
  below : ∀ x ∈ b.tbs, x.tcPtr+x.codeGenSize ≤ b.codeGenPtr
  code : ∀ x ∈ b.tbs, 0 < x.codeGenSize

variable {b : Buffer}

theorem Inv.step {action : Action} (h : Inv b) (hemits : action.Emits) : Inv (step b action) := by
  cases action with
  | genCode codeGenSize =>
    obtain ⟨size,rfl,hpos⟩ := hemits
    have hle : b.codeGenPtr+size ≤ alignUp (b.codeGenPtr+size) := by
      unfold alignUp codeGenAlign
      omega
    refine ⟨pairwise_append.mpr ⟨h.sorted,pairwise_singleton ..,?_⟩,?_,?_⟩
    · simpa using h.below
    · rw [FindPc.step,forall_mem_append]
      exact ⟨fun x hx => (h.below x hx).trans (by dsimp only; omega),by simpa using hle⟩
    · rw [FindPc.step,forall_mem_append]
      exact ⟨h.code,by simpa using hpos⟩
  | free tb =>
    obtain ⟨tbs,codeGenPtr⟩ := b
    rcases eq_nil_or_concat' tbs with rfl | ⟨front,last,rfl⟩
    · exact h
    · obtain ⟨hfront,-,hlast⟩ := pairwise_append.mp h.sorted
      simp only [FindPc.step,tbFree,getLast?_concat,dropLast_concat]
      split
      · exact ⟨hfront,fun x hx => hlast x hx last mem_cons_self,
          fun x hx => h.code x (mem_append_left _ hx)⟩
      · exact h
  | flush => exact ⟨.nil,by simp [FindPc.step],by simp [FindPc.step]⟩

/-- What is below `mMin` starts at the address or in front of it, what is at `stop` or above it
behind it. -/
theorem search_spec {v : Nat → Nat} {n : Nat} (hv : ∀ i j, i < j → j < n → v i < v j)
    (pc mMin stop : Nat) (hstop : stop ≤ n) (hle : mMin ≤ stop) (hlow : ∀ i < mMin, v i ≤ pc)
    (hhi : ∀ i, stop ≤ i → i < n → pc < v i) :
    (∀ r ∈ search v pc mMin stop, r < n ∧ v r ≤ pc ∧ ∀ i, r < i → i < n → pc < v i) ∧
      (search v pc mMin stop = none → ∀ i < n, pc < v i) := by
  fun_induction search v pc mMin stop with
  | case1 mMin stop hlt m hm =>
    have hmn : m < n := by simp only [m,Nat.shiftRight_one]; omega
    refine ⟨?_,fun hnone => nomatch hnone⟩
    rintro _ ⟨⟩
    exact ⟨hmn,hm.le,fun i hri hi => hm ▸ hv m i hri hi⟩
  | case2 mMin stop hlt m hne hm ih =>
    have hms : mMin ≤ m ∧ m < stop := by simp only [m,Nat.shiftRight_one]; omega
    refine ih (by omega) hms.1 hlow fun i hmi hi => ?_
    rcases hmi.eq_or_lt with rfl | hlt
    · exact hm
    · exact hm.trans (hv m i hlt hi)
  | case3 mMin stop hlt m hne hm ih =>
    have hms : mMin ≤ m ∧ m < stop := by simp only [m,Nat.shiftRight_one]; omega
    refine ih hstop hms.2 (fun i hi => ?_) hhi
    rcases (Nat.lt_succ_iff.mp hi).eq_or_lt with rfl | hlt
    · exact not_lt.mp hm
    · exact (hv i m hlt (by omega)).le.trans (not_lt.mp hm)
  | case4 mMin => exact ⟨nofun,fun _ i => hhi i (Nat.zero_le i)⟩
  | case5 mMin stop hge hpos =>
    refine ⟨?_,fun hnone => nomatch hnone⟩
    rintro _ ⟨⟩
    exact ⟨by omega,hlow _ (by omega),fun i hi => hhi i (by omega)⟩

theorem Inv.sound (h : Inv b) : Sound b := by
  have hget : ∀ {i}, (hi : i < b.tbs.length) → tcPtr b i = b.tbs[i].tcPtr := by
    intro i hi
    rw [tcPtr,getD_eq_getElem _ _ hi]
  have hstrict : b.tbs.Pairwise fun x y => x.tcPtr < y.tcPtr := by
    refine h.sorted.imp_of_mem fun hx _ hxy => ?_
    have hpos := h.code _ hx
    omega
  have hv : ∀ i j, i < j → j < b.tbs.length → tcPtr b i < tcPtr b j := by
    intro i j hij hj
    rw [hget hj,hget (hij.trans hj)]
    exact pairwise_iff_getElem.mp hstrict i j _ hj hij
  have hsource := fun pc => search_spec hv pc 0 b.tbs.length le_rfl (Nat.zero_le _) (by simp)
    (by omega)
  refine ⟨hstrict,fun pc i hi => ?_,fun i x hx pc hlow hhi => ?_⟩
  · rw [tbFindPc,Option.ite_none_left_eq_some] at hi
    have hfound := (hsource pc).1 i hi.2
    exact ⟨hfound.1,hfound.2.1⟩
  · obtain ⟨hi,rfl⟩ := List.getElem?_eq_some_iff.mp hx
    have hptr := h.below _ (getElem_mem hi)
    rw [tbFindPc,if_neg (by omega)]
    cases hr : search (tcPtr b) pc 0 b.tbs.length with
    | none => exact absurd ((hsource pc).2 hr i hi) (by rw [hget hi]; omega)
    | some r =>
      obtain ⟨hrun,hrlow,hrhigh⟩ := (hsource pc).1 r hr
      rcases Nat.lt_trichotomy i r with hir | rfl | hri
      · have hend := pairwise_iff_getElem.mp h.sorted i r hi hrun hir
        rw [hget hrun] at hrlow
        omega
      · rfl
      · have hend := hrhigh i hri hi
        rw [hget hi] at hend
        omega

/-- The array is sorted and an address in the code of a block leads to it, if every translation
ends with code. -/
theorem sound_of_emits (actions : List Action) (hemits : ∀ action ∈ actions, action.Emits) :
    Sound (actions.foldl step ⟨[],0⟩) := by
  have hinv : Inv (actions.foldl step ⟨[],0⟩) :=
    foldlRecOn actions step ⟨.nil,nofun,nofun⟩ fun _ h action ha => h.step (hemits action ha)
  exact hinv.sound

theorem sound_of_emits_freed :
    tbFindPc ([.genCode (some 20),.genCode (some 8),.free 1].foldl step ⟨[],0⟩) 19 = some 0 :=
  (sound_of_emits [.genCode (some 20),.genCode (some 8),.free 1] (by simp [Action.Emits])).finds
    0 ⟨0,20⟩ (by decide) 19 (by decide) (by decide)

/-- The block of a translation that ended with an exception stays in the array, and the next one
starts at the same address. -/
theorem abandoned_found : ¬ Sound ([.genCode none,.genCode (some 16)].foldl step ⟨[],0⟩) := by
  intro h
  have hfinds := h.finds 1 ⟨0,16⟩ rfl 0 (by decide) (by decide)
  rw [tbFindPc,search] at hfinds
  exact absurd hfinds (by decide)

end Hqemu.Exec.FindPc
