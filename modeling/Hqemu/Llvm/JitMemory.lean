import Hqemu.Exec.CodeBuffer

/-! The memory manager of the region translator. -/
namespace Hqemu.Llvm.JitMemory
open Exec Lib.Run

/-- `emitting` is what `startFunctionBody` returned, while `CodeLock` is held; `bodies` are the
functions emitted since the last flush. -/
structure Manager where
  server : Bool
  codeBase : Nat
  codeSize : Int
  codeGenPtr : Nat
  codeRemain : Int
  globalBase : Nat
  globalRemain : Int
  emitting : Option Nat
  bodies : List (Nat × Nat)
deriving DecidableEq

def globalSize : Nat := 65536

def threshold : Nat := 4096

def create (server : Bool) (codeCache codeCacheSize stubSize : Nat) : Option Manager :=
  let remain := ((codeCacheSize : Int) - globalSize).bmod (2^32)
  let stubEnd := codeCache+globalSize+stubSize
  if remain ≤ stubSize ∨ remain-stubSize ≤ threshold then none
  else
    let base := alignUp stubEnd
    let size := remain-stubSize-(base-stubEnd)
    some ⟨server,base,size,base,size,codeCache,globalSize,none,[]⟩

def Manager.flush (m : Manager) : Manager :=
  { m with codeGenPtr := m.codeBase, codeRemain := m.codeSize, bodies := [] }

inductive Action where
  | startFunctionBody (actualSize : Nat)
  | endFunctionBody (genSize : Nat)
  | allocateGlobal (size alignment : Nat)
  | flush

def step (m : Manager) : Action → Option Manager
  | .startFunctionBody actualSize =>
    if m.emitting ≠ none ∨ 0 < actualSize ∨ m.codeRemain < threshold then none
    else some { m with emitting := some m.codeGenPtr }
  | .endFunctionBody genSize =>
    m.emitting.bind fun start =>
      if genSize = 0 ∨ m.codeRemain < genSize then none
      else
        let ptr := alignUp (m.codeGenPtr+genSize)
        let m := { m with emitting := none, bodies := (start,genSize) :: m.bodies }
        some (if m.server then m.flush
          else { m with codeGenPtr := ptr, codeRemain := m.codeRemain-(ptr-m.codeGenPtr) })
  | .allocateGlobal size alignment =>
    let misAligned : Nat := m.globalBase &&& ((alignment+2^32-1) % 2^32)
    let misAligned : Nat := if misAligned = 0 then 0 else (alignment+2^32-misAligned) % 2^32
    let remain := (m.globalRemain-(size+misAligned)).bmod (2^32)
    if remain < 0 then none
    else some { m with
      globalBase := (m.globalBase+misAligned+size) % 2^64, globalRemain := remain }
  | .flush => some m.flush

/-- No flush comes while a function is emitted, and aligning its end does not leave the cache. -/
def Fits (m : Manager) : Action → Prop
  | .endFunctionBody genSize =>
    m.server = true ∨ alignUp (m.codeGenPtr+genSize) ≤ m.codeBase+m.codeSize
  | .flush => m.emitting = none
  | _ => True

structure Sound (codeCache : Nat) (codeEnd : Int) (m : Manager) : Prop where
  apart : m.bodies.Pairwise fun a b => b.1+b.2 ≤ a.1
  inside : ∀ body ∈ m.bodies, codeGenAlign ∣ body.1 ∧ codeCache ≤ body.1 ∧ body.1+body.2 ≤ codeEnd
  conserved : m.codeGenPtr+m.codeRemain = codeEnd
  nonneg : 0 ≤ m.codeRemain

structure Inv (codeCache : Nat) (codeEnd : Int) (m : Manager) : Prop
    extends Sound codeCache codeEnd m where
  base : codeCache ≤ m.codeBase ∧ codeGenAlign ∣ m.codeBase
  size : 0 ≤ m.codeSize ∧ m.codeBase+m.codeSize = codeEnd
  ptr : m.codeBase ≤ m.codeGenPtr ∧ codeGenAlign ∣ m.codeGenPtr
  emitting : ∀ start, m.emitting = some start → start = m.codeGenPtr
  below : ∀ body ∈ m.bodies, body.1+body.2 ≤ m.codeGenPtr

variable {codeCache : Nat} {codeEnd : Int} {m next : Manager}

theorem le_alignUp (addr : Nat) : addr ≤ alignUp addr ∧ alignUp addr < addr+16 := by
  unfold alignUp codeGenAlign
  omega

theorem inv_flush (hbase : codeCache ≤ m.codeBase ∧ codeGenAlign ∣ m.codeBase)
    (hsize : 0 ≤ m.codeSize ∧ m.codeBase+m.codeSize = codeEnd) (hidle : m.emitting = none) :
    Inv codeCache codeEnd m.flush where
  apart := .nil
  inside := by simp [Manager.flush]
  conserved := hsize.2
  nonneg := hsize.1
  base := hbase
  size := hsize
  ptr := ⟨Nat.le_refl _,hbase.2⟩
  emitting := by simp [Manager.flush,hidle]
  below := by simp [Manager.flush]

theorem Inv.endFunctionBody {genSize : Nat} (h : Inv codeCache codeEnd m)
    (hfits : Fits m (.endFunctionBody genSize))
    (hnext : step m (.endFunctionBody genSize) = some next) : Inv codeCache codeEnd next := by
  obtain ⟨start,hstart,hend⟩ := Option.bind_eq_some_iff.mp hnext
  obtain rfl := h.emitting start hstart
  have hle := le_alignUp (m.codeGenPtr+genSize)
  obtain ⟨⟨hapart,hins,hconserved,-⟩,hbase,hsize,hptr,-,hbelow⟩ := h
  split at hend
  · cases hend
  rw [← Option.some.inj hend]
  split
  · exact inv_flush hbase hsize rfl
  rename_i hserver
  have hcache := hfits.resolve_left hserver
  refine {
    apart := List.pairwise_cons.mpr ⟨hbelow,hapart⟩
    inside := List.forall_mem_cons.mpr ⟨⟨hptr.2,?_,?_⟩,hins⟩
    conserved := ?_
    nonneg := ?_
    base := hbase
    size := hsize
    ptr := ⟨?_,Nat.dvd_mul_left _ _⟩
    emitting := fun _ hnone => nomatch hnone
    below := List.forall_mem_cons.mpr ⟨hle.1,fun body hbody => ?_⟩ }
  case refine_6 => exact (hbelow body hbody).trans (by dsimp only; omega)
  all_goals dsimp only; omega

theorem Inv.step {action : Action} (h : Inv codeCache codeEnd m) (hfits : Fits m action)
    (hnext : step m action = some next) : Inv codeCache codeEnd next := by
  cases action with
  | startFunctionBody actualSize =>
    simp only [JitMemory.step,Option.ite_none_left_eq_some,Option.some.injEq] at hnext
    exact hnext.2 ▸ { h with emitting := by simp [eq_comm] }
  | endFunctionBody genSize => exact h.endFunctionBody hfits hnext
  | allocateGlobal size alignment =>
    simp only [JitMemory.step,Option.ite_none_left_eq_some,Option.some.injEq] at hnext
    exact hnext.2 ▸ { h with }
  | flush => exact Option.some.inj hnext ▸ inv_flush h.base h.size hfits

theorem inv_create {server : Bool} {codeCacheSize stubSize : Nat}
    (h : create server codeCache codeCacheSize stubSize = some m) :
    m.codeBase+m.codeSize ≤ codeCache+codeCacheSize ∧ Inv codeCache (m.codeBase+m.codeSize) m := by
  simp only [create,Option.ite_none_left_eq_some,Option.some.injEq,not_or,Int.not_le] at h
  obtain ⟨⟨hstub,hroom⟩,rfl⟩ := h
  have hle := le_alignUp (codeCache+globalSize+stubSize)
  have hbmod := Int.bmod_def ((codeCacheSize : Int) - globalSize) (2^32)
  unfold threshold at hroom
  unfold globalSize at *
  refine ⟨?_,inv_flush (m := ⟨server,alignUp _,_,0,0,codeCache,65536,none,[]⟩)
    ⟨?_,Nat.dvd_of_mod_eq_zero (CodeBuffer.alignUp_mod _)⟩ ⟨?_,rfl⟩ rfl⟩
  all_goals
    dsimp only
    split at hbmod <;> omega

/-- The functions lie apart in the cache, if nothing is flushed while one is emitted and no aligned
end is behind the cache. -/
theorem sound_of_fits {server : Bool} {codeCache codeCacheSize stubSize : Nat} {m : Manager}
    (h : create server codeCache codeCacheSize stubSize = some m) (actions : List Action)
    (hfits : Meets step Fits m actions) : m.codeBase + m.codeSize ≤ codeCache + codeCacheSize ∧
      Always step (Sound codeCache (m.codeBase + m.codeSize)) m actions :=
  ⟨(inv_create h).1,(always_of_meets (fun _ _ _ hinv hcond hnext => hinv.step hcond hnext)
    (inv_create h).2 hfits).imp fun _ hinv => hinv.toSound⟩

def oddCache : Manager := ⟨false,65536,4097,65536,4097,0,65536,none,[]⟩

theorem sound_of_fits_oddCache : Always step (Sound 0 69633) oddCache
    [.startFunctionBody 0, .endFunctionBody 4000, .flush] := by
  refine (sound_of_fits (show create false 0 69633 0 = some oddCache by decide) _ ?_).2
  exact meets_cons rfl trivial (meets_cons rfl (.inr (by decide)) (meets_cons rfl rfl trivial))

/-- `LLVM_SIZE=69633`: a function fills the cache, and its aligned end is behind it. -/
theorem remain_negative : ¬ Always step (Sound 0 69633) oddCache
    [.startFunctionBody 0, .endFunctionBody 4097] :=
  fun h => absurd ((h.2 _ rfl).2 _ rfl).nonneg (by decide)

end Hqemu.Llvm.JitMemory
