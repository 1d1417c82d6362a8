import Hqemu.Exec.Links

/-! The mapping calls of `linux-user/mmap.c`, made of calls to the host on whole host pages and
`page_set_flags`. -/
namespace Hqemu.Exec

def pageValid : Nat := 0x0008
def pageWriteOrg : Nat := 0x0010

/-- The flags that `page_set_flags` stores: the right to write is remembered. -/
def storedFlags (flags : Nat) : Nat :=
  if flags &&& pageWrite = 0 then flags else flags ||| pageWriteOrg

def Config.abi (cfg : Config) (x : Nat) : Nat := x%2^cfg.targetLongBits

def hostLong (x : Nat) : Nat := x%2^64

def targetPageAlign (cfg : Config) (x : Nat) : Nat :=
  cfg.abi ((x+cfg.targetPageSize-1) / cfg.targetPageSize * cfg.targetPageSize)

def hostPageAlign (cfg : Config) (x : Nat) : Nat :=
  cfg.abi ((x+cfg.hostPageSize-1) / cfg.hostPageSize * cfg.hostPageSize)

def inHost (cfg : Config) (start stop hostPage : Nat) : Bool :=
  start/cfg.realHostPageSize ≤ hostPage && hostPage*cfg.realHostPageSize < stop

def allHost (cfg : Config) (start stop : Nat) (test : Nat → Bool) : Bool :=
  let first := start/cfg.realHostPageSize
  let last := (stop+cfg.realHostPageSize-1) / cfg.realHostPageSize
  (List.range (last-first)).all fun i => test (first+i)

def overlaps (cfg : Config) (hostPage page : Nat) : Bool :=
  hostPage*cfg.realHostPageSize < (page+1) * cfg.targetPageSize &&
    page*cfg.targetPageSize < (hostPage+1) * cfg.realHostPageSize

def touches (cfg : Config) (start stop page : Nat) : Bool :=
  let first := start/cfg.realHostPageSize
  let last := (stop+cfg.realHostPageSize-1) / cfg.realHostPageSize
  first < last && first*cfg.realHostPageSize < (page+1) * cfg.targetPageSize &&
    page*cfg.targetPageSize < last*cfg.realHostPageSize

/-- The guest's memory as the host has it. A byte of `mem` is absent where any access faults.
`epoch` counts how often a target page was replaced or removed; no function reads it. -/
structure HostMem where
  prot : Nat → Option Nat
  mem : Nat → Option UInt8
  epoch : Nat → Nat

/-- The host's part in a call: the host pages for which it fulfils requests, whether it can map the
file, and what is in the pages by which a mapping grows. -/
structure Kernel where
  granted : Nat → Bool
  mapsFile : Bool
  grown : Nat → Option UInt8

structure FileMap where
  data : List UInt8
  offset : Nat
deriving DecidableEq, Repr

/-- `checked` says whether the result is looked at. `giveUp` is an error return between two
calls. -/
inductive HostCall where
  | mmap (start stop prot : Nat) (file : Option FileMap) (checked : Bool)
  | mprotect (start stop prot : Nat) (checked : Bool)
  | munmap (start stop : Nat)
  | pread (start stop : Nat) (file : FileMap)
  | giveUp
deriving DecidableEq, Repr

def HostCall.succeeds (cfg : Config) (host : Kernel) (hostProt : Nat → Option Nat) :
    HostCall → Bool
  | .mmap start stop _ file _ =>
    start < stop && allHost cfg start stop host.granted && (file.isNone || host.mapsFile)
  | .mprotect start stop _ _ =>
    allHost cfg start stop fun page => host.granted page && (hostProt page).isSome
  | .munmap start stop => allHost cfg start stop host.granted
  | .pread start stop _ =>
    allHost cfg start stop fun page => host.granted page && (hostProt page).isSome
  | .giveUp => false

def HostCall.checked : HostCall → Bool
  | .mmap _ _ _ _ checked => checked
  | .mprotect _ _ _ checked => checked
  | _ => true

def setRange (cfg : Config) (hostProt : Nat → Option Nat) (start stop : Nat)
    (value : Option Nat) : Nat → Option Nat :=
  fun page => if inHost cfg start stop page then value else hostProt page

/-- A mapped file reads as zero up to the end of its last page, and cannot be read behind. -/
def fileByte (cfg : Config) (data : List UInt8) (i : Nat) : Option UInt8 :=
  if i < data.length then data[i]?
  else if i / cfg.realHostPageSize * cfg.realHostPageSize < data.length then some 0
  else none

def mappedByte (cfg : Config) (start : Nat) (file : Option FileMap) (addr : Nat) :
    Option UInt8 :=
  match file with
  | none => some 0
  | some file => fileByte cfg file.data (file.offset+(addr-start))

def setBytes (cfg : Config) (mem : Nat → Option UInt8) (start stop : Nat)
    (byte : Nat → Option UInt8) : Nat → Option UInt8 :=
  fun addr => if inHost cfg start stop (addr/cfg.realHostPageSize) then byte addr else mem addr

def readBytes (mem : Nat → Option UInt8) (start stop : Nat) (file : FileMap) :
    Nat → Option UInt8 :=
  fun addr =>
    if start ≤ addr ∧ addr < stop ∧ file.offset+(addr-start) < file.data.length then
      file.data[file.offset+(addr-start)]?
    else mem addr

def replace (epoch : Nat → Nat) (replaced : Nat → Bool) (page : Nat) : Nat :=
  if replaced page then epoch page + 1 else epoch page

def runCall (cfg : Config) (host : Kernel) (m : HostMem) (call : HostCall) : HostMem :=
  match call with
  | .mprotect start stop prot _ =>
    { m with prot := Links.mprotect cfg host.granted m.prot start stop prot }
  | .mmap start stop prot file _ =>
    if call.succeeds cfg host m.prot then
      { prot := setRange cfg m.prot start stop (some prot)
        mem := setBytes cfg m.mem start stop (mappedByte cfg start file)
        epoch := replace m.epoch (touches cfg start stop) }
    else m
  | .munmap start stop =>
    if call.succeeds cfg host m.prot then
      { prot := setRange cfg m.prot start stop none
        mem := setBytes cfg m.mem start stop fun _ => none
        epoch := replace m.epoch (touches cfg start stop) }
    else m
  | .pread start stop file =>
    if call.succeeds cfg host m.prot then
      { m with
        mem := readBytes m.mem start stop file
        epoch := replace m.epoch (touches cfg start stop) }
    else m
  | .giveUp => m

def runCalls (cfg : Config) (host : Kernel) : List HostCall → HostMem → HostMem × Bool
  | [], m => (m,true)
  | call :: rest, m =>
    let next := runCall cfg host m call
    if call.checked && !call.succeeds cfg host m.prot then (next,false)
    else runCalls cfg host rest next

def orFlags (flags : Nat → Nat) (pages : List Nat) : Nat :=
  pages.foldl (fun prot page => prot ||| flags page) 0

def pagesFrom (cfg : Config) (start stop : Nat) : List Nat :=
  (List.range ((stop-start+cfg.targetPageSize-1) / cfg.targetPageSize)).map
    fun i => (start+i*cfg.targetPageSize) / cfg.targetPageSize

def mprotectCalls (cfg : Config) (flagsOf : Nat → Nat) (start stop prot : Nat) : List HostCall :=
  let size := cfg.hostPageSize
  let hostStart := start/size*size
  let hostEnd := hostPageAlign cfg stop
  let inside := hostStart < start
  let single := inside ∧ hostEnd = hostLong (hostStart+size)
  let prot1 := prot ||| orFlags flagsOf (pagesFrom cfg hostStart start) |||
    if single then orFlags flagsOf (pagesFrom cfg stop hostEnd) else 0
  let head := if inside then [.mprotect hostStart (hostStart+size) (prot1 &&& pageBits) true]
    else []
  let stop := if single then hostEnd else stop
  let hostStart := if inside then cfg.abi (hostStart+size) else hostStart
  let prot2 := prot ||| orFlags flagsOf (pagesFrom cfg stop hostEnd)
  let tail := if stop < hostEnd then [.mprotect (hostEnd-size) hostEnd (prot2 &&& pageBits) true]
    else []
  let hostEnd := if stop < hostEnd then hostEnd - size else hostEnd
  head ++ tail ++ if hostStart < hostEnd then [.mprotect hostStart hostEnd prot true] else []

class Paging (σ : Type) where
  hostMem : σ → HostMem
  setHost : σ → HostMem → σ
  pageGetFlags : σ → Nat → Nat
  pageSetFlags : Config → σ → Nat → Nat → Nat → Option σ

open Paging

variable {σ : Type} [Paging σ]

def perform (cfg : Config) (host : Kernel) (s : σ) (calls : List HostCall)
    (start stop flags : Nat) : Option (σ × Bool) :=
  match runCalls cfg host calls (hostMem s) with
  | (m,false) => some (setHost s m,false)
  | (m,true) => (pageSetFlags cfg (setHost s m) start stop flags).map (·,true)

/-- The results of the guest's calls are success and failure, and the address of a mapping. -/
def targetMprotect (cfg : Config) (host : Kernel) (s : σ) (start len prot : Nat) :
    Option (σ × Bool) :=
  let len := targetPageAlign cfg len
  let stop := cfg.abi (start+len)
  let prot := prot &&& pageBits
  if start % cfg.targetPageSize ≠ 0 ∨ stop < start then some (s,false)
  else if len = 0 then some (s,true)
  else perform cfg host s (mprotectCalls cfg (pageGetFlags s) start stop prot) start (start+len)
    (prot ||| pageValid)

/-- `found` is the answer of `mmap_find_vma`, `data` the content of the file and `fstat`
whether its size can be asked for. -/
structure MmapRequest where
  start : Nat
  len : Nat
  prot : Nat
  fixed : Bool
  anonymous : Bool
  shared : Bool
  offset : Nat
  data : List UInt8
  fstat : Bool
  found : Option Nat
deriving DecidableEq, Repr

def MmapRequest.file (request : MmapRequest) (offset : Nat) : Option FileMap :=
  if request.anonymous then none else some ⟨request.data,offset⟩

def pagesOutside (cfg : Config) (realStart start stop : Nat) : List Nat :=
  let count := (cfg.abi (realStart+cfg.hostPageSize) - realStart) / cfg.targetPageSize
  ((List.range count).map (realStart/cfg.targetPageSize + ·)).filter fun page =>
    page*cfg.targetPageSize < start ∨ stop < (page+1) * cfg.targetPageSize

/-- A host page that is mapped in part is shared with what is there already: the file is
read into it. -/
def mmapFrag (cfg : Config) (flagsOf : Nat → Nat) (realStart start stop prot : Nat) (shared : Bool)
    (file : Option FileMap) : List HostCall :=
  let realEnd := realStart+cfg.hostPageSize
  let flags := orFlags flagsOf (pagesOutside cfg realStart start stop)
  let fresh := if flags = 0 then [.mmap realStart realEnd prot none true] else []
  let prot1 := (if flags = 0 then prot else flags) &&& pageBits
  let protNew := prot ||| prot1
  fresh ++
    match file with
    | none => if protNew ≠ prot1 then [.mprotect realStart realEnd protNew false] else []
    | some file =>
      if shared ∧ prot &&& pageWrite ≠ 0 then [.giveUp]
      else
        (if prot1 &&& pageWrite = 0
          then [.mprotect realStart realEnd (prot1 ||| pageWrite) false] else []) ++
        [.pread start stop file] ++
        if protNew ≠ prot1 ||| pageWrite then [.mprotect realStart realEnd protNew false]
        else []

/-- The fragment at the end is mapped as if it had no other pages. -/
def fixedCalls (cfg : Config) (flagsOf : Nat → Nat) (start stop prot : Nat) (shared : Bool)
    (file : Nat → Option FileMap) : List HostCall :=
  let size := cfg.hostPageSize
  let realStart := start/size*size
  let realEnd := hostPageAlign cfg stop
  if realStart < start ∧ realEnd = hostLong (realStart+size) then
    mmapFrag cfg flagsOf realStart start stop prot shared (file 0)
  else
    let head := if realStart < start then
        mmapFrag cfg flagsOf realStart start (realStart+size) prot shared (file 0)
      else []
    let realStart := if realStart < start then cfg.abi (realStart+size) else realStart
    let tail := if stop < realEnd then
        mmapFrag cfg flagsOf (realEnd-size) (realEnd-size) realEnd prot shared
          (file (realEnd-size-start))
      else []
    let realEnd := if stop < realEnd then realEnd - size else realEnd
    head ++ tail ++
      if realStart < realEnd then
        [.mmap realStart realEnd prot (file (realStart-start)) true]
      else []

/-- `MAP_FIXED` with an offset that the host can map; `file i` is the file from the byte that
goes to `start + i` on. -/
def mmapFixed (cfg : Config) (host : Kernel) (s : σ) (start len prot : Nat) (shared : Bool)
    (file : Nat → Option FileMap) : Option (σ × Option Nat) :=
  (perform cfg host s
    (fixedCalls cfg (pageGetFlags s) start (cfg.abi (start+len)) prot shared file)
    start (start+len) (prot ||| pageValid)).map fun (s,done) => (s,if done then some start else
        none)

def tooFar (cfg : Config) (start len : Nat) : Prop :=
  cfg.targetLongBits < 64 ∧ (2^cfg.targetLongBits < start+len ∨ start+len = 0)

instance (cfg : Config) (start len : Nat) : Decidable (tooFar cfg start len) :=
  inferInstanceAs (Decidable (_ ∧ _))

def mmapAnonymous (cfg : Config) (host : Kernel) (s : σ) (start len prot : Nat) :
    Option (σ × Option Nat) :=
  let len := targetPageAlign cfg len
  if len = 0 then some (s,some start)
  else if tooFar cfg start len then some (s,none)
  else mmapFixed cfg host s start len prot false fun _ => none

def readFile (cfg : Config) (host : Kernel) (s : σ) (start len prot : Nat) (file : FileMap) :
    Option (σ × Option Nat) :=
  match runCalls cfg host [.pread start (start+len) file] (hostMem s) with
  | (m,false) => some (setHost s m,none)
  | (m,true) =>
    if prot &&& pageWrite = 0 then
      (targetMprotect cfg host (setHost s m) start len prot).map fun (s,done) =>
        (s,if done then some start else none)
    else some (setHost s m,some start)

/-- The host cannot map the file at this offset, so the file is read into an anonymous
mapping. -/
def mmapRead (cfg : Config) (host : Kernel) (s : σ) (start len prot : Nat) (file : FileMap) :
    Option (σ × Option Nat) :=
  (mmapAnonymous cfg host s start len (prot ||| pageWrite)).bind fun (s,mapped) =>
    if mapped.isSome then readFile cfg host s start len prot file else some (s,none)

def anywhereCalls (cfg : Config) (found hostLen len prot : Nat) (file : Option FileMap) :
    List HostCall :=
  (if cfg.reservedVa then [] else [.mmap found (found+hostLen) 0 none false]) ++
    [.mmap found (found+hostLen) prot none true] ++
    match file with
    | none => []
    | some file => [.mmap found (found+len) prot (some file) false]

def mmapAnywhere (cfg : Config) (host : Kernel) (s : σ) (found len : Nat)
    (request : MmapRequest) : Option (σ × Option Nat) :=
  let hostOffset := request.offset/cfg.hostPageSize*cfg.hostPageSize
  let hostLen := hostPageAlign cfg (len+request.offset-hostOffset)
  let start := if request.anonymous then found else found + (request.offset-hostOffset)
  (perform cfg host s
    (anywhereCalls cfg found hostLen len request.prot (request.file hostOffset))
    start (start+len) (request.prot ||| pageValid)).map fun (s,done) =>
      (s,if done then some start else none)

/-- The length mapped: a file map is cut at the end of the file, in host pages, when those
are smaller than the target's. -/
def mmapLen (cfg : Config) (request : MmapRequest) : Option Nat :=
  let len := targetPageAlign cfg request.len
  if cfg.realHostPageSize < cfg.targetPageSize ∧ request.anonymous = false then
    if request.fstat then
      if request.data.length < cfg.abi (request.offset+len) then
        let rest := request.data.length+2^cfg.targetLongBits-cfg.abi request.offset
        some (cfg.abi
          ((rest+cfg.realHostPageSize-1) / cfg.realHostPageSize * cfg.realHostPageSize))
      else some len
    else none
  else some len

def targetMmap (cfg : Config) (host : Kernel) (s : σ) (request : MmapRequest) :
    Option (σ × Option Nat) :=
  let start := request.start
  let offset := request.offset
  if offset % cfg.targetPageSize ≠ 0 then some (s,none)
  else if targetPageAlign cfg request.len = 0 then some (s,some start)
  else
    match mmapLen cfg request with
    | none => some (s,none)
    | some len =>
      if request.fixed = false then
        match request.found with
        | none => some (s,none)
        | some found => mmapAnywhere cfg host s found len request
      else if start % cfg.targetPageSize ≠ 0 ∨ tooFar cfg start len then some (s,none)
      else if request.anonymous = false ∧ offset%cfg.hostPageSize ≠ start%cfg.hostPageSize
      then
        if request.shared ∧ request.prot &&& pageWrite ≠ 0 then some (s,none)
        else mmapRead cfg host s start len request.prot ⟨request.data,offset⟩
      else
        mmapFixed cfg host s start len request.prot request.shared fun i =>
          request.file (cfg.abi (offset+i))

def trimRange (cfg : Config) (flagsOf : Nat → Nat) (start stop : Nat) : Nat × Nat :=
  let size := cfg.hostPageSize
  let realStart := start/size*size
  let realEnd := hostPageAlign cfg stop
  let inside := realStart < start
  let single := inside ∧ realEnd = hostLong (realStart+size)
  let prot1 := (if inside then orFlags flagsOf (pagesFrom cfg realStart start) else 0) |||
    if single then orFlags flagsOf (pagesFrom cfg stop realEnd) else 0
  let stop := if single then realEnd else stop
  let prot2 := if stop < realEnd then orFlags flagsOf (pagesFrom cfg stop realEnd) else 0
  (if prot1 ≠ 0 then cfg.abi (realStart+size) else realStart,
    if prot2 ≠ 0 then realEnd - size else realEnd)

/-- `mmap_reserve`, whose length wraps around when the range is negative. -/
def reserveCalls (cfg : Config) (flagsOf : Nat → Nat) (start stop : Nat) : List HostCall :=
  let (realStart,realEnd) := trimRange cfg flagsOf start stop
  if realStart = realEnd then []
  else if realStart < realEnd then [.mmap realStart realEnd 0 none false]
  else if cfg.targetLongBits < 64 then [.mmap realStart (2^cfg.targetLongBits) 0 none false]
  else []

def munmapCalls (cfg : Config) (flagsOf : Nat → Nat) (start stop : Nat) : List HostCall :=
  let (realStart,realEnd) := trimRange cfg flagsOf start stop
  if realStart < realEnd then
    if cfg.reservedVa then reserveCalls cfg flagsOf realStart realEnd
    else [.munmap realStart realEnd]
  else []

def inRange (cfg : Config) (start stop page : Nat) : Bool :=
  start/cfg.targetPageSize ≤ page && page*cfg.targetPageSize < stop

def targetMunmap (cfg : Config) (host : Kernel) (s : σ) (start len : Nat) : Option (σ × Bool) :=
  let len := targetPageAlign cfg len
  if start % cfg.targetPageSize ≠ 0 ∨ len = 0 then some (s,false)
  else
    (perform cfg host s (munmapCalls cfg (pageGetFlags s) start (cfg.abi (start+len)))
      start (start+len) 0).map fun (s,done) =>
        if done then
          let m := hostMem s
          (setHost s { m with epoch := replace m.epoch (inRange cfg start (start+len)) },true)
        else (s,false)

/-- The host moves a mapping, whose pages have one protection, to a given place, or leaves
it where it is and changes its size. -/
def hostMremap (cfg : Config) (host : Kernel) (m : HostMem) (old oldSize : Nat)
    (place : Option Nat) (newSize : Nat) : HostMem × Bool :=
  let new := place.getD old
  let size := cfg.realHostPageSize
  let prot := m.prot (old/size)
  let oldStop := (old+oldSize+size-1) / size * size
  let newStop := (new+newSize+size-1) / size * size
  if old % size = 0 ∧ new%size = 0 ∧ 0 < oldSize ∧ 0 < newSize ∧ prot.isSome ∧
      allHost cfg old oldStop (fun page => m.prot page = prot) ∧
      allHost cfg new newStop host.granted ∧ (place = none ∨ oldStop ≤ new ∨ newStop ≤ old) then
    let replaced (page : Nat) : Bool :=
      if place = none then touches cfg (min oldStop newStop) (max oldStop newStop) page
      else touches cfg old oldStop page || touches cfg new newStop page
    let movedByte (addr : Nat) : Option UInt8 :=
      if old + (addr-new) < oldStop then m.mem (old+(addr-new)) else host.grown addr
    ({ prot := setRange cfg (setRange cfg m.prot old oldStop none) new newStop prot
       mem := setBytes cfg (setBytes cfg m.mem old oldStop fun _ => none) new newStop movedByte
       epoch := replace m.epoch replaced },true)
  else (m,false)

inductive MremapMode where
  | fixed (newAddr : Nat)
  | mayMove (found : Option Nat)
  | inPlace
deriving DecidableEq, Repr

def moveFlags (cfg : Config) (s : σ) (old oldSize new newSize : Nat) : Option (σ × Option Nat) :=
  let prot := pageGetFlags s (pageIndex cfg old)
  (pageSetFlags cfg s old (old+oldSize) 0).bind fun s =>
    (pageSetFlags cfg s new (new+newSize) (prot ||| pageValid)).map (·,some new)

def moveFixed (cfg : Config) (host : Kernel) (m : HostMem) (flagsOf : Nat → Nat)
    (old oldSize new newSize : Nat) : HostMem × Bool :=
  match hostMremap cfg host m old oldSize (some new) newSize with
  | (m,false) => (m,false)
  | (m,true) =>
    ((runCalls cfg host (if cfg.reservedVa then reserveCalls cfg flagsOf old (old+oldSize)
      else []) m).1,true)

/-- The area found is reserved, and the old area is given up even when nothing was moved. -/
def moveAnywhere (cfg : Config) (host : Kernel) (m : HostMem) (flagsOf : Nat → Nat)
    (old oldSize found newSize : Nat) : HostMem × Bool :=
  let reserved := (runCalls cfg host (if cfg.reservedVa then []
    else [.mmap found (found + hostPageAlign cfg newSize) 0 none false]) m).1
  let (m,moved) := hostMremap cfg host reserved old oldSize (some found) newSize
  ((runCalls cfg host (reserveCalls cfg flagsOf old (old+oldSize)) m).1,moved)

def resize (cfg : Config) (host : Kernel) (m : HostMem) (flagsOf : Nat → Nat)
    (old oldSize newSize : Nat) : HostMem × Bool :=
  let after := (List.range (newSize-oldSize)).map fun i => pageIndex cfg (old+oldSize+i)
  if cfg.reservedVa ∧ orFlags flagsOf after ≠ 0 then (m,false)
  else
    match hostMremap cfg host m old oldSize none newSize with
    | (m,false) => (m,false)
    | (m,true) =>
      let m := (runCalls cfg host (if cfg.reservedVa ∧ newSize < oldSize then
          reserveCalls cfg flagsOf (old+oldSize) (old+newSize) else []) m).1
      if 2 ^ cfg.targetLongBits ≤ (cfg.guestBase+old+newSize) % 2 ^ 64 then
        ((hostMremap cfg host m old newSize none oldSize).1,false)
      else (m,true)

def hostMove (cfg : Config) (host : Kernel) (m : HostMem) (flagsOf : Nat → Nat)
    (old oldSize newSize : Nat) : MremapMode → HostMem × Option Nat
  | .fixed new =>
    let (m,moved) := moveFixed cfg host m flagsOf old oldSize new newSize
    (m,if moved then some new else none)
  | .mayMove none => (m,none)
  | .mayMove (some found) =>
    let (m,moved) := moveAnywhere cfg host m flagsOf old oldSize found newSize
    (m,if moved then some found else none)
  | .inPlace =>
    let (m,moved) := resize cfg host m flagsOf old oldSize newSize
    (m,if moved then some old else none)

def targetMremap (cfg : Config) (host : Kernel) (s : σ) (old oldSize newSize : Nat)
    (mode : MremapMode) : Option (σ × Option Nat) :=
  match hostMove cfg host (hostMem s) (pageGetFlags s) old oldSize newSize mode with
  | (m,none) => some (setHost s m,none)
  | (m,some new) => moveFlags cfg (setHost s m) old oldSize new newSize

end Hqemu.Exec
