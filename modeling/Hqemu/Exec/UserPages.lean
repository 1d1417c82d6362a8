import Hqemu.Exec.Mmap
import Hqemu.Exec.PageLists

/-! Guest memory in user-mode emulation, after `exec.c`: the flags of the target pages, and the
translated code that `page_set_flags` drops. -/
namespace Hqemu.Exec

open Links

/-- The block store and the guest's memory. `live` has the blocks linked and not invalidated, and
`made` the `epoch`s a block was translated at; no function reads them. -/
structure UserPages (n : Nat) where
  world : World n
  mem : Nat → Option UInt8
  live : Finset TbId
  epoch : Nat → Nat
  made : TbId → Nat → Nat

namespace UserPages

variable {n : Nat}

def initial (n : Nat) : UserPages n :=
  ⟨emptyWorld n,fun _ => none,∅,fun _ => 0,fun _ _ => 0⟩

def links (s : UserPages n) : Links := s.world.links

def setLinks (s : UserPages n) (links : Links) : UserPages n :=
  { s with world := { s.world with links := links } }

def setHostProt (s : UserPages n) (hostProt : Nat → Option Nat) : UserPages n :=
  s.setLinks { s.links with hostProt := hostProt }

def hostMem (s : UserPages n) : HostMem := ⟨s.links.hostProt,s.mem,s.epoch⟩

def setHost (s : UserPages n) (m : HostMem) : UserPages n :=
  { s.setHostProt m.prot with mem := m.mem, epoch := m.epoch }

def pageFlags (links : Links) (page : Nat) : Nat := (links.pageDesc page).flags

def setFlags (s : UserPages n) (page flags : Nat) : UserPages n :=
  s.setLinks { s.links with
    pageDesc := Function.update s.links.pageDesc page
      { s.links.pageDesc page with flags := flags } }

def physInvalidate (cfg : Config) (s : UserPages n) (tb : TbId) (pageAddr : Option Nat) :
    Option (UserPages n) :=
  (s.world.tbPhysInvalidate cfg tb pageAddr).map fun w =>
    { s with world := w, live := s.live.erase tb }

/-- The link of a node is read after its block is invalidated. -/
def invalidateList (cfg : Config) (page : Nat) :
    Nat → UserPages n → Option (TbId × Slot) → Option (UserPages n)
  | 0, _, _ => none
  | _+1, s, none => some s
  | limit+1, s, some node => do
      let s ← s.physInvalidate cfg node.1 (some (page*cfg.targetPageSize))
      invalidateList cfg page limit s (s.links.page (pageCell node))

def tbInvalidatePhysPage (cfg : Config) (s : UserPages n) (page : Nat) :
    Option (UserPages n) := do
  let s ← invalidateList cfg page cfg.walkLimit s (s.links.page (.firstTb page))
  return s.setLinks (s.links.setPage (.firstTb page) none)

/-- Code is dropped when a page becomes writable, and only then. -/
def setPageFlags (cfg : Config) (s : UserPages n) (page flags : Nat) : Option (UserPages n) :=
  let dropped := if pageFlags s.links page &&& pageWrite = 0 ∧ flags &&& pageWrite ≠ 0 ∧
      s.links.page (.firstTb page) ≠ none
    then s.tbInvalidatePhysPage cfg page
    else some s
  dropped.map (·.setFlags page flags)

def setPagesFlags (cfg : Config) (flags : Nat) : Nat → Nat → UserPages n → Option (UserPages n)
  | 0, _, s => some s
  | count+1, page, s => do
      let s ← s.setPageFlags cfg page flags
      setPagesFlags cfg flags count (page+1) s

/-- An empty range, or one past the end of the address space, fails an assertion. -/
def pageSetFlags (cfg : Config) (s : UserPages n) (start stop flags : Nat) :
    Option (UserPages n) :=
  if cfg.abi stop ≤ start then none
  else
    let first := start/cfg.targetPageSize
    let last := (stop+cfg.targetPageSize-1) / cfg.targetPageSize
    setPagesFlags cfg (storedFlags flags) (last-first) first s

def unprotectPages (cfg : Config) : Nat → Nat → UserPages n → Nat → Option (UserPages n × Nat)
  | 0, _, s, prot => some (s,prot)
  | count+1, page, s, prot => do
      let flags := pageFlags s.links page ||| pageWrite
      let s ← (s.setFlags page flags).tbInvalidatePhysPage cfg page
      unprotectPages cfg count (page+1) s (prot ||| flags)

/-- The target pages of a host page; none for the last one, whose end is 0. -/
def hostPages (cfg : Config) (hostStart : Nat) : Nat :=
  (cfg.abi (hostStart+cfg.hostPageSize) - hostStart) / cfg.targetPageSize

/-- A write fault. When the store modifies its own block, the loop is left after the page of that
block (`leave` pages are done), which is translated again. -/
def pageUnprotect (cfg : Config) (s : UserPages n) (address : Nat) (leave : Option Nat) :
    Option (UserPages n) :=
  let flags := pageFlags s.links (pageIndex cfg address)
  if flags &&& pageWriteOrg ≠ 0 ∧ flags &&& pageWrite = 0 then do
    let hostStart := address/cfg.hostPageSize*cfg.hostPageSize
    let first := hostStart/cfg.targetPageSize
    let count := hostPages cfg hostStart
    match leave with
    | some done =>
      let (s,_) ← unprotectPages cfg (min done count) first s 0
      return s
    | none =>
      let (s,prot) ← unprotectPages cfg count first s 0
      return s.setHostProt (mprotect cfg (fun _ => true) s.links.hostProt hostStart
        (hostStart+cfg.hostPageSize) (prot &&& pageBits))
  else some s

instance : Paging (UserPages n) where
  hostMem := hostMem
  setHost := setHost
  pageGetFlags s := pageFlags s.links
  pageSetFlags := pageSetFlags

def record (cfg : Config) (s : UserPages n) (w : World n) (found : Option TbId) : UserPages n :=
  let live := if s.world.tbAllocRefused cfg then ∅ else s.live
  match found with
  | none => { s with world := w, live := live }
  | some tb =>
    { s with world := w, live := insert tb live, made := Function.update s.made tb s.epoch }

def tbGenCode (cfg : Config) (s : UserPages n) (c : Fin n) (state : TbCpuState) (cflags : Nat)
    (gen : Option GenCode) : Option (UserPages n × Option TbId) :=
  (s.world.tbGenCode cfg c state cflags gen).map fun (w,found) => (s.record cfg w found,found)

def tbFindFast (cfg : Config) (s : UserPages n) (c : Fin n) (gen : Option GenCode) :
    Option (UserPages n × Option TbId) :=
  (s.world.tbFindFast cfg c gen).map fun (w,found) =>
    if s.world.findMisses cfg c then (s.record cfg w found,found)
    else ({ s with world := w },found)

inductive Action (n : Nat) where
  | runGuest (c : Fin n) (state : TbCpuState)
  | findFast (c : Fin n) (gen : Option GenCode)
  | genCode (c : Fin n) (state : TbCpuState) (cflags : Nat) (gen : Option GenCode)
  | physInvalidate (tb : TbId)
  | flush (c : Fin n)
  | writeFault (address : Nat) (leave : Option Nat)
  | mprotect (start len prot : Nat) (host : Kernel)
  | mmap (request : MmapRequest) (host : Kernel)
  | munmap (start len : Nat) (host : Kernel)
  | mremap (old oldSize newSize : Nat) (mode : MremapMode) (host : Kernel)

def step (cfg : Config) (s : UserPages n) : Action n → Option (UserPages n)
  | .runGuest c state => some { s with world := s.world.runGuest c state }
  | .findFast c gen => (s.tbFindFast cfg c gen).map Prod.fst
  | .genCode c state cflags gen => (s.tbGenCode cfg c state cflags gen).map Prod.fst
  | .physInvalidate tb => s.physInvalidate cfg tb none
  | .flush c => (s.world.tbFlush cfg c).map fun w => { s with world := w, live := ∅ }
  | .writeFault address leave => s.pageUnprotect cfg address leave
  | .mprotect start len prot host =>
    (targetMprotect cfg host s start len prot).map Prod.fst
  | .mmap request host => (targetMmap cfg host s request).map Prod.fst
  | .munmap start len host => (targetMunmap cfg host s start len).map Prod.fst
  | .mremap old oldSize newSize mode host =>
    (targetMremap cfg host s old oldSize newSize mode).map Prod.fst

end UserPages

end Hqemu.Exec
