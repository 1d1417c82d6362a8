import Hqemu.Exec.Calls

/-! The size of the code buffer: what the user asks for, what is reserved, and the bound
below which `tb_alloc` hands out blocks. -/
namespace Hqemu.Exec

open Nat Option Lib.Run World

def defaultCodeGenBufferSize : Nat := 32*1024*1024
def minCodeGenBufferSize : Nat := 1024*1024
def tcgMaxOpSize : Nat := 192
def opcBufSize : Nat := 640
def maxOpPerInstr : Nat := 96
def opcMaxSize : Nat := opcBufSize-maxOpPerInstr

def alarmThreshold : Nat := tcgMaxOpSize*opcMaxSize

def isSpace (c : Char) : Bool := c ∈ [' ','\t','\n','\x0b','\x0c','\r']

/-- `strtoul` in base 10: a value that is too large becomes the largest, and a sign is taken
modulo the range. -/
def strtoul (longBits : Nat) (s : List Char) : Nat :=
  let s := s.dropWhile isSpace
  let (negative,s) := match s with
    | '-' :: rest => (true,rest)
    | '+' :: rest => (false,rest)
    | _ => (false,s)
  let value := (s.takeWhile Char.isDigit).foldl (fun value c => value*10+(c.toNat-48)) 0
  if 2 ^ longBits ≤ value then 2 ^ longBits - 1
  else if negative then (2^longBits-value) % 2 ^ longBits else value

def sizeUnit (s : List Char) : Nat :=
  match s.dropWhile Char.isDigit with
  | c :: _ =>
    if c = 'K' ∨ c = 'k' then 1024
    else if c = 'M' ∨ c = 'm' then 1024 * 1024
    else if c = 'G' ∨ c = 'g' then 1024 * 1024 * 1024
    else 1
  | [] => 1

def parseCodeSize (longBits : Nat) : Option (List Char) → Nat
  | none => defaultCodeGenBufferSize
  | some s =>
    if s = [] then defaultCodeGenBufferSize
    else
      let size := strtoul longBits s * sizeUnit s % 2^longBits
      let minSize := 2^Nat.log2 (16*1024)
      if minSize ≤ size ∧ size ≤ defaultCodeGenBufferSize then size + alarmThreshold
      else defaultCodeGenBufferSize

inductive Host where
  | x86_64
  | sparcV9
  | arm
  | s390x
  | other
deriving DecidableEq, Repr

def Host.limit : Host → Option Nat
  | .x86_64 => some (800*1024*1024)
  | .sparcV9 => some (512*1024*1024)
  | .arm => some (16*1024*1024)
  | .s390x => some (3*1024*1024*1024)
  | .other => none

/-- User emulation has a static buffer, whose size is `LLVM_SIZE` with the region translator; system
emulation maps what `-tb-size` asks for. -/
inductive Build where
  | userOnly (longBits : Nat) (llvm : Bool) (llvmSize : Option (List Char))
  | system (host : Host) (ramSize tbSize : Nat)

namespace Build

def codeGenBufferSize : Build → Nat
  | .userOnly longBits llvm llvmSize =>
    if llvm then parseCodeSize longBits llvmSize else defaultCodeGenBufferSize
  | .system host ramSize tbSize =>
    let size := max (if tbSize = 0 then ramSize / 4 else tbSize) minCodeGenBufferSize
    match host.limit with
    | some limit => min size limit
    | none => size

def reserved : Build → Nat
  | .userOnly _ _ _ => defaultCodeGenBufferSize
  | build@(.system _ _ _) => build.codeGenBufferSize

def codeGenAvgBlockSize : Build → Nat
  | .userOnly _ _ _ => 64
  | .system _ _ _ => 128

/-- `code_gen_max_blocks` is an `int`; with a negative one no block is handed out. -/
def codeGenMaxBlocks (build : Build) : Nat :=
  let blocks := build.codeGenBufferSize/build.codeGenAvgBlockSize%2^32
  if blocks < 2 ^ 31 then blocks else 0

def config (build : Build) (cfg : Config) : Config :=
  { cfg with
    codeGenBufferSize := build.codeGenBufferSize
    codeGenBufferMaxSize := build.codeGenBufferSize-alarmThreshold
    codeGenMaxBlocks := build.codeGenMaxBlocks }

def lastStart (build : Build) : Nat :=
  (build.codeGenBufferSize-alarmThreshold-1) / codeGenAlign * codeGenAlign

def Fits (build : Build) (largest : Nat) : Prop := build.lastStart+largest ≤ build.reserved

instance (build : Build) (largest : Nat) : Decidable (build.Fits largest) := Nat.decLe _ _

end Build

def alignUp (addr : Nat) : Nat := (addr+codeGenAlign-1) / codeGenAlign * codeGenAlign

namespace World

variable {n : Nat} {cfg : Config} {w next : World n} {c : Fin n}

structure Room (cfg : Config) (reserved largest : Nat) (w : World n) : Prop where
  start : w.codeGenPtr ≤ alignUp reserved
  block : w.tbAllocRefused cfg = false → w.codeGenPtr+largest ≤ reserved

end World

def Call.gen {n : Nat} : Call n → Option GenCode
  | .findFast _ gen => gen
  | .genCode _ _ _ gen => gen
  | .leaveRegion _ _ gen => gen
  | _ => none

def Call.AtMost {n : Nat} (largest : Nat) (call : Call n) : Prop :=
  ∀ gen ∈ call.gen, gen.codeGenSize ≤ largest

instance {n : Nat} (largest : Nat) (call : Call n) : Decidable (call.AtMost largest) :=
  match h : call.gen with
  | none => isTrue (by simp [Call.AtMost,h])
  | some gen =>
    decidable_of_iff (gen.codeGenSize ≤ largest) (by simp [Call.AtMost,h])

namespace CodeBuffer

variable {n : Nat} {cfg : Config} {w next : World n} {c : Fin n}

def Moves (cfg : Config) (w next : World n) (gen : Option GenCode) : Prop :=
  next.codeGenPtr = w.codeGenPtr ∨ next.codeGenPtr = 0 ∨
    ∃ start size, (w.tbAllocRefused cfg = false ∧ start = w.codeGenPtr ∨ start = 0) ∧
      (∃ emitted ∈ gen, emitted.codeGenSize = size) ∧ next.codeGenPtr = alignUp (start+size)

theorem tbFlush_codeGenPtr (h : w.tbFlush cfg c = some next) : next.codeGenPtr = 0 := by
  unfold World.tbFlush at h
  split at h
  · cases h
  · cases h
    rfl

theorem tbAlloc_codeGenPtr {pc tb : Nat} (h : w.tbAlloc cfg pc = some (next,tb)) :
    next.codeGenPtr = w.codeGenPtr := by
  unfold World.tbAlloc at h
  split at h
  · cases h
  · cases h
    rfl

theorem tbAllocFlushing_codeGenPtr {pc tb : Nat} (h : w.tbAllocFlushing cfg c pc = some (next,tb)) :
    w.tbAllocRefused cfg = false ∧ next.codeGenPtr = w.codeGenPtr ∨ next.codeGenPtr = 0 := by
  unfold World.tbAllocFlushing at h
  cases halloc : w.tbAlloc cfg pc with
  | some result =>
    rw [halloc] at h
    cases h
    exact .inl ⟨(tbAlloc_some halloc).1,tbAlloc_codeGenPtr halloc⟩
  | none =>
    simp only [halloc,bind_eq_bind,bind_eq_some_iff,Prod.exists] at h
    obtain ⟨base,hflush,opened,tb',hagain,h⟩ := h
    cases h
    exact .inr ((tbAlloc_codeGenPtr hagain).trans (tbFlush_codeGenPtr hflush))

theorem moves_tbGenCode {state : TbCpuState} {cflags : Nat} {gen : Option GenCode}
    {found : Option TbId} (h : w.tbGenCode cfg c state cflags gen = some (next,found)) :
    Moves cfg w next gen := by
  simp only [World.tbGenCode,bind_eq_bind,bind_eq_some_iff,Prod.exists] at h
  obtain ⟨opened,tb,halloc,h⟩ := h
  have hptr := tbAllocFlushing_codeGenPtr halloc
  cases gen with
  | none =>
    cases h
    exact hptr.imp And.right Or.inl
  | some gen =>
    cases h
    refine .inr (.inr ⟨opened.codeGenPtr,gen.codeGenSize,?_,⟨gen,rfl,rfl⟩,rfl⟩)
    exact hptr

theorem moves_tbFindFast {gen : Option GenCode} {found : Option TbId}
    (h : w.tbFindFast cfg c gen = some (next,found)) : Moves cfg w next gen := by
  simp only [World.tbFindFast] at h
  split at h
  · cases h
    exact .inl (startProfileIfCold_same w _).2.2.2.2.2
  · simp only [World.tbFindSlow,bind_eq_bind,bind_eq_some_iff] at h
    obtain ⟨result,hsource,h⟩ := h
    cases result with
    | some tb =>
      cases h
      exact .inl (startProfileIfCold_same _ _).2.2.2.2.2
    | none =>
      simp only [bind_eq_some_iff,Prod.exists] at h
      obtain ⟨mid,found,hgen,h⟩ := h
      have hmoves := moves_tbGenCode hgen
      cases found with
      | none | some _ =>
        cases h
        exact hmoves

theorem moves_step {call : Call n} (h : w.step cfg call = some next) :
    Moves cfg w next call.gen := by
  cases call with
  | runGuest c state =>
    cases h
    exact .inl rfl
  | findFast c gen =>
    obtain ⟨found,h⟩ := exists_of_map_fst h
    exact moves_tbFindFast h
  | genCode c state cflags gen =>
    obtain ⟨found,h⟩ := exists_of_map_fst h
    exact moves_tbGenCode h
  | lookupIbtc c eip =>
    cases (ite_none_left_eq_some.mp h).2
    rcases helperLookupIbtc_world cfg w c eip with hsame | hmiss
    · exact .inl (congrArg World.codeGenPtr hsame)
    · exact .inl ((congrArg World.codeGenPtr hmiss).trans rfl)
  | updateIbtc c tb =>
    cases h
    refine .inl ((startProfileIfCold_same _ tb).2.2.2.2.2.trans ?_)
    split <;> rfl
  | physInvalidate tb pageAddr =>
    obtain ⟨ptb,links,-,-,rfl⟩ := tbPhysInvalidate_some h
    exact .inl rfl
  | flush c => exact .inr (.inl (tbFlush_codeGenPtr h))
  | requestFlush =>
    cases h
    exact .inl rfl
  | emitExit addr state =>
    cases (ite_none_right_eq_some.mp h).2
    exact .inl rfl
  | finishTrace entryTb code cacheVersion =>
    cases h
    exact .inl (finishTrace_same w entryTb code cacheVersion).2.2.2.2
  | leaveRegion c addr gen =>
    simp only [World.step,World.leaveRegion,bind_eq_bind,bind_eq_some_iff,Prod.exists] at h
    obtain ⟨exit,-,mid,found,hfind,h⟩ := h
    have hmoves := moves_tbFindFast hfind
    cases found with
    | none =>
      cases h
      exact hmoves
    | some tb =>
      unfold Moves at hmoves ⊢
      rw [(chainNext_some h).2.2.2.2.1]
      exact hmoves

structure Aligned (reserved : Nat) (w : World n) : Prop where
  align : w.codeGenPtr%codeGenAlign = 0
  start : w.codeGenPtr ≤ alignUp reserved

theorem alignUp_mod (addr : Nat) : alignUp addr % codeGenAlign = 0 := mul_mod_left _ _

theorem alignUp_mono {low high : Nat} (h : low ≤ high) : alignUp low ≤ alignUp high := by
  simp only [alignUp,codeGenAlign]
  omega

theorem alignUp_of_mod {addr : Nat} (h : addr%codeGenAlign = 0) : alignUp addr = addr := by
  simp only [alignUp,codeGenAlign] at *
  omega

section Bound

variable {build : Build} {largest : Nat}

theorem le_lastStart (halias : w.codeGenPtr%codeGenAlign = 0)
    (hgrant : w.tbAllocRefused (build.config cfg) = false) : w.codeGenPtr ≤ build.lastStart := by
  have hbelow : w.codeGenPtr < build.codeGenBufferSize-alarmThreshold := by
    simp only [tbAllocRefused,Bool.or_eq_false_iff] at hgrant
    exact not_le.mp (of_decide_eq_false hgrant.1.2)
  simp only [Build.lastStart,codeGenAlign] at *
  omega

theorem aligned_step (hfit : build.Fits largest) {call : Call n} (hmost : call.AtMost largest)
    (halign : Aligned build.reserved w) (h : w.step (build.config cfg) call = some next) :
    Aligned build.reserved next := by
  rcases moves_step h with hsame | hz | ⟨start,size,hstart,⟨gen,hgen,rfl⟩,hptr⟩
  · exact ⟨hsame ▸ halign.align,hsame ▸ halign.start⟩
  · exact ⟨by rw [hz,zero_mod],by rw [hz]; exact Nat.zero_le _⟩
  · have hle : start ≤ build.lastStart := by
      rcases hstart with ⟨hgrant,rfl⟩ | rfl
      · exact le_lastStart halign.align hgrant
      · exact Nat.zero_le _
    have hend : start+gen.codeGenSize ≤ build.reserved :=
      (Nat.add_le_add hle (hmost gen hgen)).trans hfit
    exact ⟨hptr ▸ alignUp_mod _,hptr ▸ alignUp_mono hend⟩

theorem Aligned.room (hfit : build.Fits largest) (h : Aligned build.reserved w) :
    Room (build.config cfg) build.reserved largest w where
  start := h.start
  block hgrant := (Nat.add_le_add_right (le_lastStart h.align hgrant) _).trans hfit

theorem room_of_fits (hfit : build.Fits largest) {calls : List (Call n)}
    (hmost : ∀ call ∈ calls, call.AtMost largest) :
    Always (World.step (build.config cfg)) (Room (build.config cfg) build.reserved largest)
      (emptyWorld n) calls := by
  have hmeets : ∀ (calls : List (Call n)) (w : World n), (∀ call ∈ calls, call.AtMost largest) →
      Meets (World.step (build.config cfg)) (fun _ call => call.AtMost largest) w calls := by
    intro calls
    induction calls with
    | nil => exact fun _ _ => trivial
    | cons call rest ih =>
      intro w hmost next _
      exact ⟨hmost call (List.mem_cons_self ..),
        ih next fun other hother => hmost other (List.mem_cons_of_mem _ hother)⟩
  have halign : Aligned build.reserved (emptyWorld n) := ⟨rfl,Nat.zero_le _⟩
  exact (always_of_meets (fun _ _ _ halign hmost hs => aligned_step hfit hmost halign hs)
    halign (hmeets calls _ hmost)).imp fun _ halign => halign.room hfit

end Bound

def block (size : Nat) : Call (n+1) :=
  .genCode 0 ⟨0,0,0⟩ 0 (some ⟨1,size,fun _ => none⟩)

def blocksTo (avg target : Nat) : List (Call (n+1)) :=
  block (target%avg) :: List.replicate (target/avg) (block avg)

theorem step_block {w : World (n+1)} {size : Nat} (hgrant : w.tbAllocRefused cfg = false) :
    ∃ next, w.step cfg (block size) = some next ∧
      next.codeGenPtr = alignUp (w.codeGenPtr+size) ∧ next.nbTbs = w.nbTbs+1 ∧
      next.llvm = w.llvm := by
  simp only [block,World.step,World.tbGenCode,World.tbAllocFlushing,World.tbAlloc,hgrant]
  exact ⟨_,rfl,rfl,rfl,rfl⟩

section Fill

variable {build : Build}

structure Filling (build : Build) (blocks ptr : Nat) (w : World n) : Prop where
  nbTbs : w.nbTbs = blocks
  ptr : w.codeGenPtr = ptr
  llvm : w.llvm = emptyLlvmEnv

theorem Filling.granted {blocks ptr : Nat} (h : Filling build blocks ptr w)
    (hblocks : blocks < build.codeGenMaxBlocks)
    (hptr : ptr < build.codeGenBufferSize-alarmThreshold) :
    w.tbAllocRefused (build.config cfg) = false := by
  simp only [tbAllocRefused,h.nbTbs,h.ptr,h.llvm,Bool.or_eq_false_iff]
  exact ⟨⟨decide_eq_false (not_le.mpr hblocks),decide_eq_false (not_le.mpr hptr)⟩,rfl⟩

theorem Filling.step {blocks ptr size : Nat} {w : World (n+1)} (h : Filling build blocks ptr w)
    (hgrant : w.tbAllocRefused (build.config cfg) = false) (halias : (ptr+size) % codeGenAlign = 0)
        :
    ∃ next, w.step (build.config cfg) (block size) = some next ∧
      Filling build (blocks+1) (ptr+size) next := by
  obtain ⟨next,hnext,hptr,hnbTbs,hllvm⟩ := step_block hgrant
  rw [h.ptr,alignUp_of_mod halias] at hptr
  exact ⟨next,hnext,hnbTbs.trans (by rw [h.nbTbs]),hptr,hllvm.trans h.llvm⟩

theorem Filling.run (cfg : Config) {count blocks ptr avg : Nat} {w : World (n+1)}
    (h : Filling build blocks ptr w) (hptr : ptr%codeGenAlign = 0)
    (havg : avg%codeGenAlign = 0) (hblocks : blocks+count ≤ build.codeGenMaxBlocks)
    (hroom : ptr+count*avg < build.codeGenBufferSize-alarmThreshold) :
    ∃ last, Lib.Run.run (World.step (build.config cfg)) w (List.replicate count (block avg)) =
      some last ∧ Filling build (blocks+count) (ptr+count*avg) last := by
  induction count generalizing blocks ptr w with
  | zero => exact ⟨w,rfl,by simpa using h⟩
  | succ count ih =>
    rw [Nat.succ_mul] at hroom
    have halias : (ptr+avg) % codeGenAlign = 0 := by rw [add_mod,hptr,havg]; rfl
    have hgrant : w.tbAllocRefused (build.config cfg) = false := h.granted (by omega) (by omega)
    obtain ⟨next,hnext,hfilling⟩ := h.step hgrant halias
    obtain ⟨last,hlast,hfield⟩ := ih hfilling halias (by omega) (by omega)
    have hblocksEq : blocks+1+count = blocks+(count+1) := by omega
    have hptrEq : ptr+avg+count*avg = ptr + (count+1) * avg := by
      rw [Nat.succ_mul]
      omega
    rw [hblocksEq,hptrEq] at hfield
    exact ⟨last,by simp only [List.replicate_succ,Lib.Run.run,hnext,bind_some,hlast],hfield⟩

theorem alarmThreshold_lt_codeGenBufferSize (build : Build) :
    alarmThreshold < build.codeGenBufferSize := by
  have hdefault : alarmThreshold < defaultCodeGenBufferSize := by decide
  have hparse : ∀ longBits llvmSize, alarmThreshold < parseCodeSize longBits llvmSize := by
    intro longBits llvmSize
    unfold parseCodeSize
    split
    · exact hdefault
    split
    · exact hdefault
    dsimp only
    split
    · rename_i hsize
      have hmin : 0 < 2 ^ log2 (16*1024) := Nat.two_pow_pos _
      omega
    · exact hdefault
  have hmin : alarmThreshold < minCodeGenBufferSize := by decide
  cases build with
  | userOnly longBits llvm llvmSize =>
    cases llvm with
    | false => exact hdefault
    | true => exact hparse longBits llvmSize
  | system host ramSize tbSize =>
    have hsize := Nat.le_max_right (if tbSize = 0 then ramSize / 4 else tbSize) minCodeGenBufferSize
    cases host with
    | other => exact hmin.trans_le hsize
    | x86_64 | sparcV9 | arm | s390x => exact lt_min (hmin.trans_le hsize) (by decide)

theorem codeGenAvgBlockSize_eq (build : Build) :
    build.codeGenAvgBlockSize = 64 ∨ build.codeGenAvgBlockSize = 128 := by
  cases build with
  | userOnly => exact .inl rfl
  | system => exact .inr rfl

theorem codeGenMaxBlocks_eq (h : build.codeGenBufferSize/build.codeGenAvgBlockSize < 2^31) :
    build.codeGenMaxBlocks = build.codeGenBufferSize/build.codeGenAvgBlockSize := by
  simp only [Build.codeGenMaxBlocks]
  rw [mod_eq_of_lt (by omega),if_pos h]

theorem lastStart_blocks_lt (h : build.codeGenBufferSize/build.codeGenAvgBlockSize < 2^31) :
    1+build.lastStart/build.codeGenAvgBlockSize < build.codeGenMaxBlocks := by
  rw [codeGenMaxBlocks_eq h]
  have hsize := alarmThreshold_lt_codeGenBufferSize build
  have halarm : alarmThreshold = 104448 := by decide
  simp only [Build.lastStart,codeGenAlign]
  rcases codeGenAvgBlockSize_eq build with havg | havg
  all_goals
    rw [havg]
    omega

theorem exists_lastStart (cfg : Config) (build : Build)
    (hblocks : build.codeGenBufferSize/build.codeGenAvgBlockSize < 2^31) :
    ∃ last, Lib.Run.run (World.step (build.config cfg)) (emptyWorld (n+1))
        (blocksTo build.codeGenAvgBlockSize build.lastStart) = some last ∧
      last.codeGenPtr = build.lastStart ∧ last.tbAllocRefused (build.config cfg) = false := by
  have hbelow : build.lastStart < build.codeGenBufferSize-alarmThreshold := by
    have hsize := alarmThreshold_lt_codeGenBufferSize build
    simp only [Build.lastStart,codeGenAlign]
    omega
  have hcount := lastStart_blocks_lt hblocks
  have hparts := mod_add_div' build.lastStart build.codeGenAvgBlockSize
  have havg : build.codeGenAvgBlockSize%codeGenAlign = 0 := by
    rcases codeGenAvgBlockSize_eq build with havg | havg
    all_goals rw [havg]; rfl
  have hfirst : (build.lastStart%build.codeGenAvgBlockSize) % codeGenAlign = 0 := by
    rw [mod_mod_of_dvd _ (dvd_of_mod_eq_zero havg)]
    exact mul_mod_left _ _
  have hempty : Filling build 0 0 (emptyWorld (n+1)) := ⟨rfl,rfl,rfl⟩
  have hgrant : (emptyWorld (n+1)).tbAllocRefused (build.config cfg) = false :=
    hempty.granted (zero_lt_of_lt hcount) (zero_lt_of_lt hbelow)
  obtain ⟨first,hs,hfilling⟩ := hempty.step hgrant (by rwa [Nat.zero_add])
  rw [Nat.zero_add,Nat.zero_add] at hfilling
  have hfill := hfilling.run cfg hfirst havg hcount.le (by rwa [hparts])
  rw [hparts] at hfill
  obtain ⟨last,hrun,hfield⟩ := hfill
  refine ⟨last,?_,hfield.ptr,hfield.granted hcount hbelow⟩
  rw [blocksTo,Lib.Run.run,hs,bind_some]
  exact hrun

theorem atMost_blocksTo {largest avg target : Nat} (hpos : 0 < avg) (havg : avg ≤ largest) :
    ∀ call ∈ (blocksTo avg target : List (Call (n+1))), call.AtMost largest := by
  have hsize : ∀ {size : Nat}, size ≤ largest → (block size : Call (n+1)).AtMost largest := by
    intro size hsize gen hgen
    cases hgen
    exact hsize
  intro call hcall
  rcases List.mem_cons.mp hcall with rfl | hrest
  · exact hsize ((mod_lt target hpos).le.trans havg)
  · rw [List.eq_of_mem_replicate hrest]
    exact hsize havg

end Fill

/-- Blocks of at most `largest` bytes always have room if the last one fits, and only then. -/
theorem room_iff_fits (cfg : Config) (build : Build) (largest : Nat) :
    (build.Fits largest → ∀ calls : List (Call (n + 1)),
      (∀ call ∈ calls, call.AtMost largest) →
      Always (World.step (build.config cfg)) (Room (build.config cfg) build.reserved largest)
        (emptyWorld (n + 1)) calls) ∧
    (build.codeGenBufferSize / build.codeGenAvgBlockSize < 2 ^ 31 →
      build.codeGenAvgBlockSize ≤ largest →
      (∀ calls : List (Call (n + 1)), (∀ call ∈ calls, call.AtMost largest) →
        Always (World.step (build.config cfg)) (Room (build.config cfg) build.reserved largest)
          (emptyWorld (n + 1)) calls) →
      build.Fits largest) := by
  refine ⟨fun hfit calls hmost => room_of_fits hfit hmost,fun hblocks havg hroom => ?_⟩
  have hpos : 0 < build.codeGenAvgBlockSize := by
    rcases codeGenAvgBlockSize_eq build with heq | heq
    all_goals rw [heq]; decide
  obtain ⟨last,hrun,hptr,hgrant⟩ := exists_lastStart cfg build hblocks
  have hlast := ((hroom _ (atMost_blocksTo hpos havg)).last hrun).block hgrant
  rwa [hptr] at hlast

def systemBuild : Build := .system .x86_64 (128*1024*1024) 0

theorem room_iff_fits_system :
    Always (World.step (systemBuild.config smallConfig))
      (Room (systemBuild.config smallConfig) systemBuild.reserved alarmThreshold)
      (emptyWorld 1) [block 100000, .flush 0, block 32] ∧
    systemBuild.Fits alarmThreshold := by
  have hroom := (room_iff_fits (n := 0) smallConfig systemBuild alarmThreshold).1 (by decide)
  exact ⟨hroom _ (by decide),
    (room_iff_fits smallConfig systemBuild alarmThreshold).2 (by decide) (by decide) hroom⟩

/-- `LLVM_SIZE=32M`: the threshold is added to a size that already is the whole buffer. -/
def largestBuild : Build := .userOnly 64 true (some ['3','2','M'])

theorem largest_size_overruns :
    (∀ call ∈ (blocksTo 64 33554416 : List (Call 1)), call.AtMost alarmThreshold) ∧
    ∃ w, run (World.step (largestBuild.config smallConfig)) (emptyWorld 1)
        (blocksTo 64 33554416) = some w ∧
      w.tbAllocRefused (largestBuild.config smallConfig) = false ∧
      largestBuild.reserved < w.codeGenPtr + alarmThreshold := by
  have hlast : largestBuild.lastStart = 33554416 := by decide
  obtain ⟨w,hrun,hptr,hgrant⟩ := exists_lastStart (n := 0) smallConfig largestBuild (by decide)
  refine ⟨atMost_blocksTo (by decide) (by decide),w,?_,hgrant,?_⟩
  · rw [← hlast]
    exact hrun
  · rw [hptr,hlast]
    decide

/-- The room kept free is for `OPC_MAX_SIZE` operations, and the buffer of operations holds
the ones of another instruction behind these. -/
example : ¬ (Build.userOnly 64 true none).Fits (tcgMaxOpSize * opcBufSize) := by decide

end CodeBuffer

end Hqemu.Exec
