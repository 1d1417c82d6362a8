import Mathlib.Data.List.TakeWhile
import Hqemu.Lib.Bits

/-! The flattened CPUState: the `StateType` map from the offset of each state to its size, and the
states an access falls into. -/
namespace Hqemu.Llvm.StateType

open List

/-- The map in the order of its keys. States do not overlap; padding may lie between them. -/
structure Layout where
  entries : List (Nat × Nat)
  sorted : entries.Pairwise fun a b => a.1+a.2 ≤ b.1
  pos : ∀ e ∈ entries, 0 < e.2

/-- The loop of `SplitState` over the states from `TI` on. If the access does not end with a state
there is no answer: the unsigned size would wrap around. -/
def splitState : List (Nat × Nat) → Nat → Nat → Option (List Nat)
  | [], _, size => if size = 0 then some [] else none
  | (start,len) :: rest, next, size =>
    if size = 0 then some []
    else if start + len ≤ next ∨ size < start+len - next then none
    else (splitState rest (start+len) (size-(start+len-next))).map (start :: ·)

/-- The states recorded for an access: `--upper_bound(off)`, and `SplitState` if the access
goes beyond that state. -/
def Layout.statesAt (L : Layout) (off size : Nat) : Option (List Nat) :=
  match (L.entries.takeWhile fun e => e.1 ≤ off).getLast? with
  | none => none
  | some (start,len) =>
    if off + size ≤ start + len then some [start]
    else splitState ((start,len) :: L.entries.dropWhile fun e => e.1 ≤ off) off size

def Layout.Overlaps (L : Layout) (off size s : Nat) : Prop :=
  ∃ len, (s,len) ∈ L.entries ∧ s < off+size ∧ off < s+len

theorem mem_splitState {l : List (Nat × Nat)} {next size : Nat} {r : List Nat}
    (hsort : l.Pairwise fun a b => a.1+a.2 ≤ b.1) (hnext : ∀ e ∈ l, next < e.1+e.2)
    (hpos : ∀ e ∈ l, 0 < e.2) (h : splitState l next size = some r) (s : Nat) :
    s ∈ r ↔ 0 < size ∧ ∃ len, (s,len) ∈ l ∧ s < next+size := by
  induction l generalizing next size r with
  | nil =>
    unfold splitState at h
    split at h <;> simp_all
  | cons e l ih =>
    obtain ⟨start,len⟩ := e
    rw [pairwise_cons] at hsort
    rw [forall_mem_cons] at hnext hpos
    unfold splitState at h
    split at h
    · simp_all
    · rename_i hsize
      split at h
      · cases h
      obtain ⟨r,hr,rfl⟩ := Option.map_eq_some_iff.mp h
      have hbehind : ∀ e ∈ l, start+len < e.1+e.2 := fun e he =>
        Nat.lt_of_le_of_lt (hsort.1 e he) (Nat.lt_add_of_pos_right (hpos.2 e he))
      rw [mem_cons,ih hsort.2 hbehind hpos.2 hr,
        show start + len + (size-(start+len-next)) = next + size by omega]
      constructor
      · rintro (rfl | ⟨-,len',hmem,hlt⟩)
        · exact ⟨by omega,len,mem_cons_self,by have := hpos.1; omega⟩
        · exact ⟨by omega,len',mem_cons_of_mem _ hmem,hlt⟩
      · rintro ⟨-,len',hmem,hlt⟩
        rcases mem_cons.mp hmem with heq | hmem
        · exact .inl (Prod.mk.inj heq).1
        · have hle := hsort.1 _ hmem
          exact .inr ⟨by dsimp only at hle; omega,len',hmem,hlt⟩

theorem lt_of_mem_dropWhile {l : List (Nat × Nat)} (hsort : l.Pairwise fun a b => a.1+a.2 ≤ b.1)
    {off : Nat} {e : Nat × Nat} (he : e ∈ l.dropWhile fun e => e.1 ≤ off) : off < e.1 := by
  induction l with
  | nil => simp at he
  | cons a l ih =>
    rw [pairwise_cons] at hsort
    by_cases ha : a.1 ≤ off
    · rw [dropWhile_cons_of_pos (by simpa using ha)] at he
      exact ih hsort.2 he
    · rw [dropWhile_cons_of_neg (by simpa using ha)] at he
      rcases mem_cons.mp he with rfl | hmem
      · omega
      · have hle := hsort.1 e hmem
        omega

/-- The states from `--upper_bound(off)` on are those that reach beyond `off`, and that state. -/
theorem Layout.found (L : Layout) {off start len : Nat}
    (h : (L.entries.takeWhile fun e => e.1 ≤ off).getLast? = some (start,len)) :
    let l := (start,len) :: L.entries.dropWhile fun e => e.1 ≤ off
    start ≤ off ∧ l.Pairwise (fun a b => a.1+a.2 ≤ b.1) ∧ (∀ e ∈ l, e ∈ L.entries) ∧
      ∀ e ∈ L.entries, off < e.1+e.2 → e ∈ l := by
  obtain ⟨before,hbefore⟩ := List.getLast?_eq_some_iff.mp h
  have hmem : (start,len) ∈ L.entries.takeWhile fun e => e.1 ≤ off := by simp [hbefore]
  have hstart : start ≤ off := by simpa using mem_takeWhile_imp hmem
  have hsplit := takeWhile_append_dropWhile (p := fun e : Nat × Nat => e.1 ≤ off) (l := L.entries)
  rw [hbefore,append_assoc] at hsplit
  obtain ⟨-,hsort,hle⟩ := pairwise_append.mp (hsplit ▸ L.sorted)
  refine ⟨hstart,hsort,fun e he => hsplit ▸ mem_append_right _ he,fun e he hoff => ?_⟩
  rw [← hsplit] at he
  rcases mem_append.mp he with hin | hin
  · have := hle e hin _ mem_cons_self
    omega
  · exact hin

theorem Layout.reaches (L : Layout) {off start len : Nat} (hoff : off < start+len) {e : Nat × Nat}
    (he : e ∈ (start,len) :: L.entries.dropWhile fun e => e.1 ≤ off) : off < e.1+e.2 := by
  rcases mem_cons.mp he with rfl | he
  · exact hoff
  · exact Nat.lt_add_right _ (lt_of_mem_dropWhile L.sorted he)

theorem Layout.mem_statesAt (L : Layout) {off size : Nat} {l : List Nat} (hsize : 0 < size)
    (h : L.statesAt off size = some l) (s : Nat) : s ∈ l ↔ L.Overlaps off size s := by
  unfold Layout.statesAt at h
  split at h
  · cases h
  rename_i start len hlast
  obtain ⟨hstart,hsort,hmem,hfound⟩ := L.found hlast
  split at h
  · rename_i hin
    have hself := hmem _ mem_cons_self
    rw [← Option.some.inj h,mem_singleton]
    constructor
    · rintro rfl
      exact ⟨len,hself,by omega,by omega⟩
    · rintro ⟨len',hs,hlt,hoff⟩
      rcases mem_cons.mp (hfound _ hs hoff) with heq | hs
      · exact (Prod.mk.inj heq).1
      · have := (pairwise_cons.mp hsort).1 _ hs
        omega
  · have hoff : off < start+len := by
      by_contra hge
      rw [splitState,if_neg hsize.ne',if_pos (.inl (Nat.not_lt.mp hge))] at h
      cases h
    rw [mem_splitState hsort (fun _ => L.reaches hoff) (fun e he => L.pos e (hmem e he)) h]
    constructor
    · rintro ⟨-,len',hs,hlt⟩
      exact ⟨len',hmem _ hs,hlt,L.reaches hoff hs⟩
    · rintro ⟨len',hs,hlt,hoff⟩
      exact ⟨hsize,len',hfound _ hs hoff,hlt⟩

open Lib Nat

def sub64 (a b : Nat) : Nat := (2^64+a-b) % 2^64

/-- The loop of `SplitState` with `size_t` arithmetic: `AccessOff` and `AccessSize`. There is no
answer where `TI` goes beyond the map. -/
def accesses (off : Nat) : List (Nat × Nat) → Nat → Nat → Option (List (Nat × Nat))
  | [], _, size => if size = 0 then some [] else none
  | (start,len) :: rest, next, size =>
    if size = 0 then some []
    else
      let remain := sub64 len (sub64 next start)
      (accesses off rest ((next+remain) % 2^64) (sub64 size remain)).map
        ((sub64 next off,remain) :: ·)

def Layout.accesses (L : Layout) (off size : Nat) : Option (List (Nat × Nat)) :=
  (L.entries.takeWhile fun e => e.1 ≤ off).getLast?.bind fun e =>
    StateType.accesses off (e :: L.entries.dropWhile fun e => e.1 ≤ off) off size

/-- CPUState is the number `env`, its first byte the lowest. -/
def loadSplit (env off size : Nat) (parts : List (Nat × Nat)) (v : Nat) : Nat :=
  parts.foldl (fun v part => v |||
    Bits.extract env (8*(off+part.1)) (8*part.2) <<< (8*part.1) % 2^(8*size)) v

def storeSplit (off v : Nat) (parts : List (Nat × Nat)) (env : Nat) : Nat :=
  parts.foldl (fun env part => Bits.insert env (8*(off+part.1)) (8*part.2)
    (v >>> (8*part.1) % 2^(8*part.2))) env

def Tiles : Nat → List (Nat × Nat) → Nat → Prop
  | low, [], high => low = high
  | low, part :: rest, high => part.1 = low ∧ 0 < part.2 ∧ Tiles (low+part.2) rest high

def Layout.Splits (L : Layout) (off size : Nat) : Prop :=
  ∃ parts, L.accesses off size = some parts ∧ Tiles 0 parts size ∧
    ∀ env v, loadSplit env off size parts 0 = Bits.extract env (8*off) (8*size) ∧
      storeSplit off v parts env = Bits.insert env (8*off) (8*size) v

variable {low high off size next stop : Nat} {parts l : List (Nat × Nat)}

theorem sub64_remain {start len : Nat} (hnext : next < start+len) (hend : start+len < 2^64) :
    sub64 len (sub64 next start) = start+len-next := by
  unfold sub64
  omega

/-- Where the sizes fit, the two forms of the loop meet the same states. -/
theorem accesses_of_splitState {states : List Nat} (hends : ∀ e ∈ l, e.1+e.2 < 2^64)
    (hnext : next < 2^64) (hsize : size < 2^64) (h : splitState l next size = some states) :
    ∃ parts, accesses off l next size = some parts ∧ parts.length = states.length := by
  induction l generalizing next size states with
  | nil =>
    simp only [splitState,Option.ite_none_right_eq_some] at h
    obtain ⟨rfl,hnil⟩ := h
    cases hnil
    exact ⟨[],rfl,rfl⟩
  | cons e rest ih =>
    obtain ⟨start,len⟩ := e
    have hfirst : start+len < 2^64 := hends _ mem_cons_self
    unfold splitState at h
    unfold accesses
    split at h
    · cases h
      exact ⟨[],if_pos ‹_›,rfl⟩
    rw [if_neg ‹_›]
    obtain ⟨hin,h⟩ := Option.ite_none_left_eq_some.mp h
    obtain ⟨later,hlater,rfl⟩ := Option.map_eq_some_iff.mp h
    have hremain := sub64_remain (show next < start+len by omega) hfirst
    have hadd : (next+(start+len-next)) % 2^64 = start+len := by omega
    have hsub : sub64 size (start+len-next) = size-(start+len-next) := by
      unfold sub64
      omega
    obtain ⟨parts,hparts,hlen⟩ :=
      ih (fun e he => hends e (mem_cons_of_mem _ he)) hfirst (by omega) hlater
    refine ⟨(sub64 next off,start+len-next) :: parts,?_,congrArg (·+1) hlen⟩
    simp only [hremain,hadd,hsub,hparts,Option.map_some]

theorem Tiles.le (h : Tiles low parts high) : low ≤ high := by
  induction parts generalizing low with
  | nil => exact h.le
  | cons part rest ih => exact (Nat.le_add_right _ _).trans (ih h.2.2)

theorem testBit_loadSplit (h : Tiles low parts high) (hsize : high ≤ size) (env v i : Nat) :
    (loadSplit env off size parts v).testBit i =
      (v.testBit i || decide (8*low ≤ i ∧ i < 8*high) && env.testBit (8*off+i)) := by
  unfold loadSplit
  induction parts generalizing low v with
  | nil =>
    cases h
    simp
  | cons part rest ih =>
    obtain ⟨rfl,hpos,hrest⟩ := h
    have hle := hrest.le
    rw [foldl_cons,ih hrest,testBit_or,testBit_mod_two_pow,testBit_shiftLeft,Bits.testBit_extract]
    by_cases hlow : 8*part.1 ≤ i
    · rw [show 8 * (off+part.1) + (i-8*part.1) = 8*off + i by omega]
      grind
    · grind

theorem testBit_storeSplit (h : Tiles low parts high) (env v i : Nat) :
    (storeSplit off v parts env).testBit i =
      if 8 * (off+low) ≤ i ∧ i < 8 * (off+high) then v.testBit (i-8*off)
      else env.testBit i := by
  unfold storeSplit
  induction parts generalizing low env with
  | nil =>
    cases h
    rw [if_neg (by omega)]
    rfl
  | cons part rest ih =>
    obtain ⟨rfl,hpos,hrest⟩ := h
    have hle := hrest.le
    rw [foldl_cons,ih hrest,Bits.insert_mod,Bits.testBit_insert,testBit_shiftRight]
    grind

theorem Tiles.splits (h : Tiles 0 parts size) (env v : Nat) :
    loadSplit env off size parts 0 = Bits.extract env (8*off) (8*size) ∧
      storeSplit off v parts env = Bits.insert env (8*off) (8*size) v := by
  constructor
  · apply eq_of_testBit_eq
    intro i
    rw [testBit_loadSplit h (le_refl _),Bits.testBit_extract]
    simp
  · apply eq_of_testBit_eq
    intro i
    rw [testBit_storeSplit h,Bits.testBit_insert]
    simp [Nat.mul_add]

theorem accesses_spec (hstop : off ≤ stop ∧ stop < 2^64) (hnext : off ≤ next ∧ next < 2^64)
    (hsort : l.Pairwise fun a b => a.1+a.2 < b.1+b.2)
    (hends : ∀ e ∈ l, next < e.1+e.2 ∧ e.1+e.2 < 2^64) :
    match accesses off l next (sub64 stop next) with
    | some parts => Tiles (next-off) parts (stop-off) ∧
      (next = stop ∨ ∃ e ∈ l, e.1+e.2 = stop)
    | none => next ≠ stop ∧ ∀ e ∈ l, e.1+e.2 ≠ stop := by
  induction l generalizing next with
  | nil =>
    unfold accesses
    by_cases heq : next = stop
    · rw [if_pos (by unfold sub64; omega)]
      exact ⟨heq ▸ rfl,.inl heq⟩
    · rw [if_neg (by unfold sub64; omega)]
      exact ⟨heq,forall_mem_nil _⟩
  | cons e rest ih =>
    obtain ⟨start,len⟩ := e
    have hfirst : next < start+len ∧ start+len < 2^64 := hends _ mem_cons_self
    rw [pairwise_cons] at hsort
    unfold accesses
    by_cases heq : next = stop
    · rw [if_pos (by unfold sub64; omega)]
      exact ⟨heq ▸ rfl,.inl heq⟩
    · have hremain := sub64_remain hfirst.1 hfirst.2
      have hadd : (next+(start+len-next)) % 2^64 = start+len := by omega
      have hsub : sub64 (sub64 stop next) (start+len-next) = sub64 stop (start+len) := by
        unfold sub64
        omega
      have hrest := ih ⟨by omega,hfirst.2⟩ hsort.2 fun e he =>
        ⟨hsort.1 e he,(hends e (mem_cons_of_mem _ he)).2⟩
      rw [if_neg (by unfold sub64; omega)]
      dsimp only
      rw [hremain,hadd,hsub]
      cases h : accesses off rest (start+len) (sub64 stop (start+len)) with
      | none =>
        rw [h] at hrest
        exact ⟨heq,forall_mem_cons.mpr hrest⟩
      | some parts =>
        rw [h] at hrest
        refine ⟨⟨?_,?_,?_⟩,.inr (by simpa using hrest.2)⟩
        · dsimp only [sub64]
          omega
        · dsimp only
          omega
        · rw [show next - off + (start+len-next) = start+len - off by omega]
          exact hrest.1

/-- An access is split right if it starts in a state and ends with one, and not otherwise: the size
wraps around, and the loop leaves the map. -/
theorem splits_iff (L : Layout) {off size : Nat} (hsize : 0 < size) (hstop : off + size < 2 ^ 64)
    (hends : ∀ e ∈ L.entries, e.1 + e.2 < 2 ^ 64) :
    L.Splits off size ↔ (∃ e ∈ L.entries, e.1 ≤ off ∧ off < e.1 + e.2) ∧
      ∃ e ∈ L.entries, e.1 + e.2 = off + size := by
  unfold Layout.Splits Layout.accesses
  cases hlast : (L.entries.takeWhile fun e => e.1 ≤ off).getLast? with
  | none =>
    refine ⟨fun ⟨_,hnone,_⟩ => (nomatch hnone),fun ⟨⟨e,he,hlow,_⟩,_⟩ => ?_⟩
    have hall := takeWhile_append_dropWhile (p := fun e : Nat × Nat => e.1 ≤ off) (l := L.entries)
    rw [getLast?_eq_none_iff.mp hlast,nil_append] at hall
    exact absurd (lt_of_mem_dropWhile L.sorted (by rwa [hall])) (Nat.not_lt.mpr hlow)
  | some e =>
    obtain ⟨start,len⟩ := e
    obtain ⟨hstart,hsort,hmem,hfound⟩ := L.found hlast
    rw [Option.bind_some]
    by_cases hin : off < start+len
    · have hspec := accesses_spec ⟨Nat.le_add_right off size,hstop⟩ ⟨le_refl off,by omega⟩
        (hsort.imp_of_mem fun {a b} _ hb hle =>
          Nat.lt_of_le_of_lt hle (Nat.lt_add_of_pos_right (L.pos b (hmem b hb))))
        (fun e he => ⟨L.reaches hin he,hends e (hmem e he)⟩)
      rw [show sub64 (off+size) off = size by unfold sub64; omega] at hspec
      cases h : StateType.accesses off ((start,len) :: L.entries.dropWhile fun e => e.1 ≤ off)
          off size with
      | none =>
        rw [h] at hspec
        exact ⟨fun ⟨_,hnone,_⟩ => (nomatch hnone),fun ⟨_,e,he,heq⟩ =>
          absurd heq (hspec.2 e (hfound e he (by omega)))⟩
      | some parts =>
        rw [h,Nat.sub_self,Nat.add_sub_cancel_left] at hspec
        obtain ⟨htiles,heq | ⟨e,he,heq⟩⟩ := hspec
        · omega
        · exact iff_of_true ⟨parts,rfl,htiles,htiles.splits⟩
            ⟨⟨_,hmem _ mem_cons_self,hstart,hin⟩,e,hmem e he,heq⟩
    · refine iff_of_false ?_ ?_
      · rintro ⟨parts,h,htiles,-⟩
        rw [StateType.accesses,if_neg hsize.ne',Option.map_eq_some_iff] at h
        obtain ⟨rest,-,rfl⟩ := h
        have hle := htiles.2.2.le
        have hpos := htiles.2.1
        dsimp only [sub64] at hle hpos
        omega
      · rintro ⟨⟨e,he,hlow,hhi⟩,-⟩
        rcases mem_cons.mp (hfound e he hhi) with rfl | he
        · exact hin hhi
        · exact Nat.not_lt.mpr hlow (lt_of_mem_dropWhile L.sorted he)

def twoStates : Layout := ⟨[(0,4),(4,8)],by decide,by decide⟩

theorem splits_iff_twoStates : twoStates.Splits 0 12 :=
  (splits_iff twoStates (by decide) (by decide) (by decide)).mpr (by decide)

/-- An access of 8 bytes to a state of 4 and the first half of one of 8. -/
theorem not_splits_half : ¬ twoStates.Splits 0 8 := by
  rintro ⟨parts,h,-⟩
  cases h

end Hqemu.Llvm.StateType
