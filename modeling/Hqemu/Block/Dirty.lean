import Hqemu.Lib.Run
import Mathlib.Data.Finset.Card
import Mathlib.Algebra.Ring.Int.Defs
import Mathlib.Algebra.Group.Nat.Defs

/-! Dirty tracking, after `block.c`: a bit for each chunk of a device, in words of the host,
and the number of bits that are set. -/
namespace Hqemu.Block

open Lib.Run

def sectorSize : Nat := 512

def sectorsPerDirtyChunk : Nat := 2048

structure Device where
  totalSectors : Nat
  fits : totalSectors*sectorSize < 2^63
  longBits : Nat
  host : longBits = 32 ∨ longBits = 64

/-- The offset of a sector in `int64_t`. -/
def byteOffset (sector : Nat) : Int := Int.bmod (sector*sectorSize) (2^64)

namespace Device

variable (dev : Device)

/-- The length in bytes is not cut to the `size_t` of a host with 32 bits. -/
def checkRequest (sectorNum nbSectors : Nat) : Bool :=
  0 ≤ byteOffset sectorNum && byteOffset sectorNum ≤ (dev.totalSectors*sectorSize : Nat) &&
    (nbSectors*sectorSize : Nat) ≤ (dev.totalSectors*sectorSize : Nat) - byteOffset sectorNum

def bitmapSize : Nat :=
  (dev.totalSectors+sectorsPerDirtyChunk*8-1) / (sectorsPerDirtyChunk*8)

abbrev Word : Type := BitVec dev.longBits

/-- `1 << bit` in `int`: the host's shift takes the count modulo 32, and the result is extended
with its sign. -/
def oneShl (bit : Nat) : dev.Word := BitVec.signExtend dev.longBits (1#32 <<< (bit%32))

/-- Memory in which only the bytes of the bitmap have been cleared. -/
def emptyBitmap (memory : Nat → dev.Word) : Nat → dev.Word :=
  fun idx => memory idx &&&
    (BitVec.allOnes dev.longBits <<< (8*dev.bitmapSize-idx*dev.longBits))

/-- One turn of the loop in `set_dirty_bitmap`. -/
def markChunk (dirty : Bool) (state : (Nat → dev.Word) × Int) (chunk : Nat) :
    (Nat → dev.Word) × Int :=
  let idx := chunk/dev.longBits
  let bit := chunk%dev.longBits
  let val := state.1 idx
  if dirty then
    if val &&& dev.oneShl bit = 0 then
      (Function.update state.1 idx (val ||| dev.oneShl bit),state.2+1)
    else state
  else
    if val &&& dev.oneShl bit ≠ 0 then
      (Function.update state.1 idx (val &&& ~~~dev.oneShl bit),state.2-1)
    else state

end Device

def chunksOf (sectorNum nbSectors : Nat) : List Nat :=
  let first := sectorNum/sectorsPerDirtyChunk
  let last := (sectorNum+nbSectors-1) / sectorsPerDirtyChunk
  List.range' first (last+1-first)

def Device.setDirtyBitmap (dev : Device) (bitmap : Nat → dev.Word) (count : Int)
    (sectorNum nbSectors : Nat) (dirty : Bool) : (Nat → dev.Word) × Int :=
  (chunksOf sectorNum nbSectors).foldl (dev.markChunk dirty) (bitmap,count)

/-- `written` has the sectors that were written since tracking started and since their chunk
was last reset; no function reads it. -/
structure Tracking (dev : Device) where
  dirtyBitmap : Option (Nat → dev.Word)
  dirtyCount : Int
  written : Nat → Bool

inductive Request (dev : Device) where
  | setDirtyTracking (enable : Bool) (memory : Nat → dev.Word)
  | write (sectorNum nbSectors : Nat)
  | resetDirty (sectorNum nbSectors : Nat)

def inSectors (sectorNum nbSectors sector : Nat) : Bool :=
  sectorNum ≤ sector && sector < sectorNum+nbSectors

def inChunks (sectorNum nbSectors chunk : Nat) : Bool :=
  0 < nbSectors && sectorNum/sectorsPerDirtyChunk ≤ chunk &&
    chunk ≤ (sectorNum+nbSectors-1) / sectorsPerDirtyChunk

namespace Tracking

variable {dev : Device}

def initial (dev : Device) : Tracking dev := ⟨none,0,fun _ => false⟩

def step (s : Tracking dev) : Request dev → Option (Tracking dev)
  | .setDirtyTracking true memory =>
    some { s with
      dirtyBitmap := some (s.dirtyBitmap.getD (dev.emptyBitmap memory))
      dirtyCount := 0 }
  | .setDirtyTracking false _ => some (initial dev)
  | .write sectorNum nbSectors =>
    match s.dirtyBitmap with
    | none => some s
    | some bitmap =>
      if dev.checkRequest sectorNum nbSectors then
        let (bitmap,count) :=
          dev.setDirtyBitmap bitmap s.dirtyCount sectorNum nbSectors true
        some ⟨some bitmap,count,fun x => inSectors sectorNum nbSectors x || s.written x⟩
      else some s
  | .resetDirty sectorNum nbSectors =>
    s.dirtyBitmap.map fun bitmap =>
      let (bitmap,count) := dev.setDirtyBitmap bitmap s.dirtyCount sectorNum nbSectors false
      ⟨some bitmap,count,fun x =>
        !inChunks sectorNum nbSectors (x/sectorsPerDirtyChunk) && s.written x⟩

/-- `bdrv_get_dirty`, whose result is an `int`. -/
def getDirty (s : Tracking dev) (sector : Nat) : BitVec 32 :=
  let chunk := sector/sectorsPerDirtyChunk
  match s.dirtyBitmap with
  | none => 0
  | some bitmap =>
    if byteOffset sector < (dev.totalSectors*sectorSize : Nat) then
      (bitmap (chunk/dev.longBits) &&& dev.oneShl (chunk%dev.longBits)).setWidth 32
    else 0

def DirtyChunk (s : Tracking dev) (chunk : Nat) : Prop :=
  ∃ x, x/sectorsPerDirtyChunk = chunk ∧ s.written x = true

structure Exact (s : Tracking dev) : Prop where
  reported : ∀ sector < dev.totalSectors,
    s.getDirty sector ≠ 0 ↔ s.DirtyChunk (sector/sectorsPerDirtyChunk)
  counted : ∃ chunks : Finset Nat, (∀ c, c ∈ chunks ↔ s.DirtyChunk c) ∧
    s.dirtyCount = chunks.card

end Tracking

namespace Device

variable {dev : Device} {bitmap : Nat → dev.Word} {count : Int} {chunks : Finset Nat} {c : Nat}

/-- A chunk of the device whose bit in its word is that of no other chunk, and can be set
without touching what is behind the bitmap. -/
structure Clear (dev : Device) (c : Nat) : Prop where
  inside : c*sectorsPerDirtyChunk < dev.totalSectors
  alone : ∀ other, other*sectorsPerDirtyChunk < dev.totalSectors →
    other/dev.longBits = c/dev.longBits → other%32 = c%32 → other = c
  whole : c%32 = 31 → (c/dev.longBits+1) * dev.longBits ≤ 8*dev.bitmapSize

theorem mod_longBits_mod (dev : Device) (c : Nat) : c%dev.longBits%32 = c%32 := by
  apply Nat.mod_mod_of_dvd
  rcases dev.host with hhost | hhost <;> omega

theorem le_longBits (dev : Device) : 32 ≤ dev.longBits := by
  rcases dev.host with hhost | hhost <;> omega

theorem lt_bitmapSize (h : c*sectorsPerDirtyChunk < dev.totalSectors) : c < 8*dev.bitmapSize := by
  unfold bitmapSize sectorsPerDirtyChunk at *
  omega

theorem mod_le (dev : Device) (c : Nat) : c/dev.longBits*dev.longBits+c%32 ≤ c := by
  have hdiv := Nat.div_add_mod' c dev.longBits
  have hmod := Nat.mod_le (c%dev.longBits) 32
  rw [mod_longBits_mod] at hmod
  omega

theorem getLsbD_shl {j k : Nat} (hj : j < 32) (hk : k < 32) :
    (1#32 <<< j).getLsbD k = decide (k = j) := by
  have hall : ∀ j k : Fin 32, (1#32 <<< j.val).getLsbD k.val = decide (k.val = j.val) := by
    decide +kernel
  exact hall ⟨j,hj⟩ ⟨k,hk⟩

theorem getLsbD_oneShl (dev : Device) (c k : Nat) :
    (dev.oneShl (c%dev.longBits)).getLsbD k =
      (decide (k < dev.longBits) &&
        if k < 32 then decide (k = c%32) else decide (c%32 = 31)) := by
  have hlt := Nat.mod_lt c (show 0 < 32 by decide)
  unfold oneShl
  rw [mod_longBits_mod,BitVec.getLsbD_signExtend]
  congr 1
  split
  · rename_i hk
    exact getLsbD_shl hlt hk
  · rw [BitVec.msb_eq_getLsbD_last,getLsbD_shl hlt (by decide)]
    exact decide_eq_decide.mpr eq_comm

structure Marks (dev : Device) (state : (Nat → dev.Word) × Int) (chunks : Finset Nat) : Prop where
  low : ∀ idx j, j < 32 → idx*dev.longBits+j < 8*dev.bitmapSize →
    ((state.1 idx).getLsbD j = true ↔ ∃ c ∈ chunks, c/dev.longBits = idx ∧ c%32 = j)
  high : ∀ idx k, 32 ≤ k → k < dev.longBits → idx*dev.longBits+k < 8*dev.bitmapSize →
    (state.1 idx).getLsbD k = (state.1 idx).getLsbD 31
  clear : ∀ c ∈ chunks, dev.Clear c
  count : state.2 = chunks.card

variable {state : (Nat → dev.Word) × Int}

theorem Marks.low_iff (h : dev.Marks state chunks) (hins : c*sectorsPerDirtyChunk <
    dev.totalSectors) : (state.1 (c/dev.longBits)).getLsbD (c%32) = true ↔ c ∈ chunks := by
  have hlt := Nat.mod_lt c (show 0 < 32 by decide)
  rw [h.low _ _ hlt ((dev.mod_le c).trans_lt (lt_bitmapSize hins))]
  constructor
  · rintro ⟨other,hother,hword,hbit⟩
    rwa [(h.clear other hother).alone c hins hword.symm hbit.symm]
  · exact fun hc => ⟨c,hc,rfl,rfl⟩

theorem setWidth_and_ne (val : dev.Word) (c : Nat) :
    (val &&& dev.oneShl (c%dev.longBits)).setWidth 32 ≠ 0 ↔ val.getLsbD (c%32) = true := by
  have hle := dev.le_longBits
  have hlt := Nat.mod_lt c (show 0 < 32 by decide)
  have hbit : ∀ k < 32, ((val &&& dev.oneShl (c%dev.longBits)).setWidth 32).getLsbD k =
      (val.getLsbD k && decide (k = c%32)) := by
    intro k hk
    rw [BitVec.getLsbD_setWidth,BitVec.getLsbD_and,getLsbD_oneShl,if_pos hk,decide_eq_true hk,
      decide_eq_true (show k < dev.longBits by omega),Bool.true_and,Bool.true_and]
  constructor
  · intro hne
    by_contra hclear
    refine hne (BitVec.eq_of_getLsbD_eq fun k hk => ?_)
    rw [hbit k hk]
    by_cases heq : k = c%32
    · rw [heq,Bool.eq_false_iff.mpr hclear]
      simp
    · simp [heq]
  · intro hset hz
    have hand := hbit (c%32) hlt
    rw [hz,hset] at hand
    simp at hand

section

variable (h : dev.Marks state chunks)
include h

theorem Marks.test_iff (hclear : dev.Clear c) :
    state.1 (c/dev.longBits) &&& dev.oneShl (c%dev.longBits) ≠ 0 ↔ c ∈ chunks := by
  have hle := dev.le_longBits
  have hlt := Nat.mod_lt c (show 0 < 32 by decide)
  rw [← h.low_iff hclear.inside]
  constructor
  · intro hne
    by_contra hbit
    refine hne (BitVec.eq_of_getLsbD_eq fun k hk => ?_)
    rw [BitVec.getLsbD_and,getLsbD_oneShl]
    by_cases hhalf : k < 32
    · rw [if_pos hhalf]
      by_cases heq : k = c%32
      · rw [heq,Bool.eq_false_iff.mpr hbit]
        simp
      · simp [heq]
    · rw [if_neg hhalf]
      by_cases hsign : c%32 = 31
      · have hin := hclear.whole hsign
        rw [Nat.add_mul,Nat.one_mul] at hin
        rw [hsign] at hbit
        rw [h.high _ k (Nat.le_of_not_lt hhalf) hk (by omega),Bool.eq_false_iff.mpr hbit]
        simp
      · simp [hsign]
  · intro hbit hz
    have hand := congrArg (BitVec.getLsbD · (c%32)) hz
    rw [BitVec.getLsbD_and,hbit,getLsbD_oneShl,if_pos hlt] at hand
    simp at hand
    omega

theorem Marks.update {marked : Finset Nat} {idx : Nat} {val : dev.Word}
    (hlow : ∀ j < 32, idx*dev.longBits+j < 8*dev.bitmapSize →
      (val.getLsbD j = true ↔ ∃ c ∈ marked, c/dev.longBits = idx ∧ c%32 = j))
    (hhi : ∀ k, 32 ≤ k → k < dev.longBits → idx*dev.longBits+k < 8*dev.bitmapSize →
      val.getLsbD k = val.getLsbD 31) (hother : ∀ c, c/dev.longBits ≠ idx → (c ∈ marked ↔ c ∈
          chunks))
    (hclear : ∀ c ∈ marked, dev.Clear c) (hcount : count = marked.card) :
    dev.Marks (Function.update state.1 idx val,count) marked := by
  refine ⟨fun i j hj hin => ?_,fun i k hk hlt hin => ?_,hclear,hcount⟩
  · dsimp only
    by_cases hindex : i = idx
    · subst hindex
      rw [Function.update_self]
      exact hlow j hj hin
    · rw [Function.update_of_ne hindex,h.low i j hj hin]
      refine exists_congr fun c => and_congr_left fun hword => (hother c fun heq => hindex ?_).symm
      exact hword.1.symm.trans heq
  · dsimp only
    by_cases hindex : i = idx
    · subst hindex
      rw [Function.update_self]
      exact hhi k hk hlt hin
    · rw [Function.update_of_ne hindex]
      exact h.high i k hk hlt hin

theorem Marks.insert (hclear : dev.Clear c) :
    dev.Marks (dev.markChunk true state c) (insert c chunks) := by
  have htest := h.test_iff hclear
  have hle := dev.le_longBits
  unfold markChunk
  rw [if_pos rfl]
  by_cases hmem : c ∈ chunks
  · rw [if_neg (htest.mpr hmem),Finset.insert_eq_of_mem hmem]
    exact h
  · rw [if_pos (not_not.mp fun hne => hmem (htest.mp hne))]
    apply h.update
    · intro j hj hin
      have hlong : j < dev.longBits := by omega
      rw [BitVec.getLsbD_or,Bool.or_eq_true,h.low _ j hj hin,getLsbD_oneShl,if_pos hj]
      simp only [Finset.mem_insert,exists_eq_or_imp,true_and,Bool.and_eq_true,
        decide_eq_true_eq,hlong]
      rw [or_comm,eq_comm]
    · intro k hk hlt hin
      have hlong : 31 < dev.longBits := by omega
      rw [BitVec.getLsbD_or,BitVec.getLsbD_or,h.high _ k hk hlt hin,getLsbD_oneShl,
        getLsbD_oneShl,if_neg (by omega),if_pos (by decide)]
      simp [hlt,hlong,eq_comm]
    · intro other hword
      exact (Finset.mem_insert.trans (or_iff_right fun heq => hword (congrArg (· / _) heq)))
    · intro other hother
      rcases Finset.mem_insert.mp hother with rfl | hother
      · exact hclear
      · exact h.clear other hother
    · rw [Finset.card_insert_of_notMem hmem,h.count]
      rfl

theorem Marks.erase (hclear : dev.Clear c) :
    dev.Marks (dev.markChunk false state c) (chunks.erase c) := by
  have htest := h.test_iff hclear
  have hle := dev.le_longBits
  unfold markChunk
  rw [if_neg (by decide)]
  by_cases hmem : c ∈ chunks
  · rw [if_pos (htest.mpr hmem)]
    apply h.update
    · intro j hj hin
      have hlong : j < dev.longBits := by omega
      rw [BitVec.getLsbD_and,BitVec.getLsbD_not,Bool.and_eq_true,h.low _ j hj hin,
        getLsbD_oneShl,if_pos hj]
      simp only [hlong,decide_true,Bool.true_and,Bool.not_eq_true',decide_eq_false_iff_not,
        Finset.mem_erase]
      constructor
      · rintro ⟨⟨other,hother,hword,hbit⟩,hne⟩
        exact ⟨other,⟨fun heq => hne (heq ▸ hbit.symm),hother⟩,hword,hbit⟩
      · rintro ⟨other,⟨hne,hother⟩,hword,hbit⟩
        refine ⟨⟨other,hother,hword,hbit⟩,fun heq => hne ?_⟩
        exact hclear.alone other (h.clear other hother).inside hword (hbit.trans heq)
    · intro k hk hlt hin
      have hlong : 31 < dev.longBits := by omega
      rw [BitVec.getLsbD_and,BitVec.getLsbD_and,BitVec.getLsbD_not,BitVec.getLsbD_not,
        h.high _ k hk hlt hin,getLsbD_oneShl,getLsbD_oneShl,if_neg (by omega),if_pos (by decide)]
      simp [hlt,hlong,eq_comm]
    · intro other hword
      exact Finset.mem_erase.trans (and_iff_right fun heq => hword (congrArg (· / _) heq))
    · exact fun other hother => h.clear other (Finset.mem_of_mem_erase hother)
    · have hpos := Finset.card_pos.mpr ⟨c,hmem⟩
      rw [Finset.card_erase_of_mem hmem,h.count]
      omega
  · rw [if_neg fun hne => hmem (htest.mp hne),Finset.erase_eq_of_notMem hmem]
    exact h

end

theorem Marks.foldl (dirty : Bool) {list : List Nat} (h : dev.Marks state chunks)
    (hclear : ∀ c ∈ list, dev.Clear c) :
    ∃ marked, dev.Marks (list.foldl (dev.markChunk dirty) state) marked ∧
      ∀ c, c ∈ marked ↔ if dirty then c ∈ list ∨ c ∈ chunks else c ∉ list ∧ c ∈ chunks := by
  induction list generalizing state chunks with
  | nil => exact ⟨chunks,h,fun c => by cases dirty <;> simp⟩
  | cons first rest ih =>
    have hfirst := hclear first (List.mem_cons_self ..)
    have hrest := fun c hc => hclear c (List.mem_cons_of_mem _ hc)
    cases dirty with
    | true =>
      obtain ⟨marked,hmarks,hmem⟩ := ih (h.insert hfirst) hrest
      refine ⟨marked,hmarks,fun c => ?_⟩
      rw [hmem]
      simp only [if_true,Finset.mem_insert,List.mem_cons]
      tauto
    | false =>
      obtain ⟨marked,hmarks,hmem⟩ := ih (h.erase hfirst) hrest
      refine ⟨marked,hmarks,fun c => ?_⟩
      rw [hmem]
      simp only [Bool.false_eq_true,if_false,Finset.mem_erase,List.mem_cons]
      tauto

theorem marks_emptyBitmap (memory : Nat → dev.Word) : dev.Marks (dev.emptyBitmap memory,0) ∅ := by
  have hz : ∀ idx k, k < dev.longBits → idx*dev.longBits+k < 8*dev.bitmapSize →
      (dev.emptyBitmap memory idx).getLsbD k = false := by
    intro idx k hk hin
    unfold emptyBitmap
    rw [BitVec.getLsbD_and,BitVec.getLsbD_shiftLeft,
      decide_eq_true (show k < 8*dev.bitmapSize-idx*dev.longBits by omega)]
    simp
  have hle := dev.le_longBits
  refine ⟨fun idx j hj hin => ?_,fun idx k hk hlt hin => ?_,?_,rfl⟩
  · rw [hz idx j (by omega) hin]
    simp
  · rw [hz idx k hlt hin,hz idx 31 (by omega) (by omega)]
  · simp

end Device

namespace Tracking

variable {dev : Device} {s next : Tracking dev}

/-- Tracking is not started twice, and the chunks of a range that is marked are clear. -/
def Apart (s : Tracking dev) : Request dev → Prop
  | .setDirtyTracking enable _ => enable = true → s.dirtyBitmap = none ∨ s.dirtyCount = 0
  | .write sectorNum nbSectors =>
    s.dirtyBitmap.isSome = true → dev.checkRequest sectorNum nbSectors = true →
      0 < nbSectors ∧ ∀ c ∈ chunksOf sectorNum nbSectors, dev.Clear c
  | .resetDirty sectorNum nbSectors =>
    0 < nbSectors ∧ ∀ c ∈ chunksOf sectorNum nbSectors, dev.Clear c

structure Inv (s : Tracking dev) : Prop where
  off : s.dirtyBitmap = none → s.dirtyCount = 0 ∧ ∀ x, s.written x = false
  on : ∀ bitmap, s.dirtyBitmap = some bitmap → ∃ chunks : Finset Nat,
    dev.Marks (bitmap,s.dirtyCount) chunks ∧ ∀ c, c ∈ chunks ↔ s.DirtyChunk c

theorem mem_chunksOf {sectorNum nbSectors c : Nat} (hpos : 0 < nbSectors) :
    c ∈ chunksOf sectorNum nbSectors ↔
      ∃ x, x/sectorsPerDirtyChunk = c ∧ inSectors sectorNum nbSectors x = true := by
  simp only [chunksOf,List.mem_range'_1,inSectors,Bool.and_eq_true,decide_eq_true_eq,
    sectorsPerDirtyChunk]
  constructor
  · rintro ⟨hlow,hhi⟩
    exact ⟨max sectorNum (c*2048),by omega,by omega⟩
  · rintro ⟨x,rfl,hx⟩
    omega

theorem mem_chunksOf_iff {sectorNum nbSectors c : Nat} (hpos : 0 < nbSectors) :
    c ∈ chunksOf sectorNum nbSectors ↔ inChunks sectorNum nbSectors c = true := by
  simp only [chunksOf,List.mem_range'_1,inChunks,Bool.and_eq_true,decide_eq_true_eq]
  omega

theorem inv_initial (dev : Device) : (initial dev).Inv := ⟨fun _ => ⟨rfl,fun _ => rfl⟩,nofun⟩

theorem Inv.exact (h : s.Inv) : s.Exact := by
  cases hbitmap : s.dirtyBitmap with
  | none =>
    obtain ⟨hcount,hwrite⟩ := h.off hbitmap
    have hclean : ∀ c, ¬ s.DirtyChunk c := by
      rintro c ⟨x,-,hx⟩
      rw [hwrite] at hx
      cases hx
    refine ⟨fun sector _ => iff_of_false (fun hne => hne ?_) (hclean _),∅,fun c => ?_,hcount⟩
    · unfold getDirty
      rw [hbitmap]
    · exact iff_of_false (Finset.notMem_empty c) (hclean c)
  | some bitmap =>
    obtain ⟨chunks,hmarks,hmem⟩ := h.on bitmap hbitmap
    refine ⟨fun sector hsector => ?_,chunks,hmem,hmarks.count⟩
    have hfit := dev.fits
    have hoff : byteOffset sector = (sector*sectorSize : Nat) := by
      unfold byteOffset sectorSize at *
      rw [Int.bmod_def]
      omega
    have hins : sector/sectorsPerDirtyChunk*sectorsPerDirtyChunk < dev.totalSectors :=
      (Nat.div_mul_le_self _ _).trans_lt hsector
    have hlt : byteOffset sector < (dev.totalSectors*sectorSize : Nat) := by
      rw [hoff]
      unfold sectorSize
      omega
    rw [← hmem,← hmarks.low_iff hins]
    unfold getDirty
    rw [hbitmap]
    dsimp only
    rw [if_pos hlt,← Device.setWidth_and_ne]

theorem Inv.mark {bitmap : Nat → dev.Word} {sectorNum nbSectors : Nat} {dirty : Bool}
    {written : Nat → Bool} (h : s.Inv) (hbitmap : s.dirtyBitmap = some bitmap)
    (hclear : ∀ c ∈ chunksOf sectorNum nbSectors, dev.Clear c)
    (hwrite : ∀ c, (∃ x, x/sectorsPerDirtyChunk = c ∧ written x = true) ↔
      if dirty then c ∈ chunksOf sectorNum nbSectors ∨ s.DirtyChunk c
      else c ∉ chunksOf sectorNum nbSectors ∧ s.DirtyChunk c) :
    Inv ⟨some (dev.setDirtyBitmap bitmap s.dirtyCount sectorNum nbSectors dirty).1,
      (dev.setDirtyBitmap bitmap s.dirtyCount sectorNum nbSectors dirty).2,written⟩ := by
  obtain ⟨chunks,hmarks,hmem⟩ := h.on bitmap hbitmap
  obtain ⟨marked,hmarked,hmem'⟩ := hmarks.foldl dirty hclear
  refine ⟨fun hnone => (nomatch hnone),fun other hother => ?_⟩
  cases hother
  refine ⟨marked,hmarked,fun c => ?_⟩
  rw [hmem',hmem]
  exact (hwrite c).symm

theorem Inv.step {request : Request dev} (h : s.Inv) (hapart : s.Apart request)
    (hs : s.step request = some next) : next.Inv := by
  cases request with
  | setDirtyTracking enable memory =>
    cases enable with
    | false =>
      cases hs
      exact inv_initial dev
    | true =>
      cases hs
      refine ⟨fun hnone => (nomatch hnone),fun other hother => ?_⟩
      cases hother
      cases hbitmap : s.dirtyBitmap with
      | none =>
        refine ⟨∅,Device.marks_emptyBitmap memory,fun c => ?_⟩
        refine iff_of_false (Finset.notMem_empty c) ?_
        rintro ⟨x,-,hx⟩
        exact absurd hx (Bool.eq_false_iff.mp ((h.off hbitmap).2 x))
      | some bitmap =>
        have hz := (hapart rfl).resolve_left (by rw [hbitmap]; exact fun h => nomatch h)
        have hon := h.on bitmap hbitmap
        rw [hz] at hon
        exact hon
  | write sectorNum nbSectors =>
    unfold Tracking.step at hs
    dsimp only at hs
    split at hs
    · cases hs
      exact h
    · rename_i bitmap hbitmap
      split at hs
      · rename_i hcheck
        cases hs
        obtain ⟨hpos,hclear⟩ := hapart (by rw [hbitmap]; rfl) hcheck
        refine h.mark hbitmap hclear fun c => ?_
        rw [if_pos rfl,mem_chunksOf hpos]
        simp only [Bool.or_eq_true,and_or_left,exists_or]
        exact Iff.rfl
      · cases hs
        exact h
  | resetDirty sectorNum nbSectors =>
    obtain ⟨bitmap,hbitmap,hnext⟩ := Option.map_eq_some_iff.mp hs
    cases hnext
    obtain ⟨hpos,hclear⟩ := hapart
    refine h.mark hbitmap hclear fun c => ?_
    rw [if_neg (by decide),mem_chunksOf_iff hpos]
    constructor
    · rintro ⟨x,rfl,hx⟩
      rw [Bool.and_eq_true,Bool.not_eq_true'] at hx
      exact ⟨Bool.eq_false_iff.mp hx.1,x,rfl,hx.2⟩
    · rintro ⟨hout,x,rfl,hx⟩
      refine ⟨x,rfl,?_⟩
      rw [Bool.and_eq_true,Bool.not_eq_true']
      exact ⟨Bool.eq_false_iff.mpr hout,hx⟩

/-- The tracking is exact in every run whose requests keep the chunks apart. -/
theorem exact_of_apart (dev : Device) (requests : List (Request dev))
    (h : Meets step Apart (initial dev) requests) : Always step Exact (initial dev) requests :=
  (always_of_meets (fun _ _ _ => Inv.step) (inv_initial dev) h).imp fun _ => Inv.exact

def smallDevice : Device := ⟨20*2048,by decide,64,.inr rfl⟩

theorem clear_smallDevice {c : Nat} (h : c < 20) : smallDevice.Clear c := by
  refine ⟨?_,fun other hother _ hbit => ?_,fun hlast => ?_⟩
  · simp only [smallDevice,sectorsPerDirtyChunk]
    omega
  · simp only [smallDevice,sectorsPerDirtyChunk] at hother
    omega
  · omega

theorem exact_of_apart_smallDevice :
    Always step Exact (initial smallDevice)
      [.setDirtyTracking true fun _ => 0, .write 2000 100, .resetDirty 0 2048] := by
  have hwrite : ∀ c ∈ chunksOf 2000 100, c < 20 := by decide
  have hreset : ∀ c ∈ chunksOf 0 2048, c < 20 := by decide
  apply exact_of_apart
  intro tracking _
  refine ⟨fun _ => .inl rfl,fun written _ => ⟨fun _ _ => ?_,fun reset _ => ⟨?_,trivial⟩⟩⟩
  · exact ⟨by decide,fun c hc => clear_smallDevice (hwrite c hc)⟩
  · exact ⟨by decide,fun c hc => clear_smallDevice (hreset c hc)⟩

def largeDevice : Device := ⟨40*2048,by decide,64,.inr rfl⟩

def marked : Tracking largeDevice where
  dirtyBitmap := some (largeDevice.setDirtyBitmap (largeDevice.emptyBitmap fun _ => 0) 0 0 1 true).1
  dirtyCount := 1
  written := fun x => inSectors 0 1 x || false

theorem run_marked :
    run step (initial largeDevice) [.setDirtyTracking true fun _ => 0,.write 0 1] =
      some marked := by
  have hcheck : largeDevice.checkRequest 0 1 = true := by decide +kernel
  unfold run run run step initial
  dsimp only [Option.bind_some,Option.getD_none]
  rw [if_pos hcheck]
  rfl

/-- Tracking that is started again counts from zero, and a write to the first chunk makes
another one dirty. -/
theorem tracking_not_exact :
    (∃ last, run step (initial largeDevice)
        [.setDirtyTracking true fun _ => 0, .write 0 1, .setDirtyTracking true fun _ => 0] =
          some last ∧ last.dirtyCount = 0 ∧ last.DirtyChunk 0 ∧ ¬ last.Exact) ∧
      ∃ last, run step (initial largeDevice) [.setDirtyTracking true fun _ => 0, .write 0 1] =
        some last ∧ last.getDirty (32 * 2048) ≠ 0 ∧ ¬ last.DirtyChunk 32 := by
  constructor
  · have hrun : run step (initial largeDevice)
        ([.setDirtyTracking true fun _ => 0,.write 0 1] ++ [.setDirtyTracking true fun _ => 0]) =
          some { marked with dirtyCount := 0 } := by
      rw [run_append,run_marked]
      rfl
    have hdirty : DirtyChunk { marked with dirtyCount := 0 } 0 := ⟨0,rfl,rfl⟩
    refine ⟨_,hrun,rfl,hdirty,fun hexact => ?_⟩
    obtain ⟨chunks,hmem,hcount⟩ := hexact.counted
    have hpos := Finset.card_pos.mpr ⟨0,(hmem 0).mpr hdirty⟩
    have hz : (0 : Int) = chunks.card := hcount
    omega
  · refine ⟨marked,run_marked,by decide +kernel,?_⟩
    rintro ⟨x,hx,hwrite⟩
    have hin : inSectors 0 1 x = true := (Bool.or_false _).symm.trans hwrite
    simp only [inSectors,Bool.and_eq_true,decide_eq_true_eq] at hin
    simp only [sectorsPerDirtyChunk] at hx
    omega

end Tracking

end Hqemu.Block
