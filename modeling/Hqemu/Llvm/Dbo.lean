import Hqemu.Lib.OrderedMap
import Hqemu.Lib.Run
import Mathlib.Algebra.Ring.Int.Defs
import Mathlib.Algebra.Ring.Nat
import Mathlib.Data.List.Dedup
import Mathlib.Data.List.Sort

/-! The sampling side of the dynamic binary optimizer: regions, profiles, and what is merged. -/
namespace Hqemu.Llvm.Dbo

open Function Option Lib.OrderedMap Lib.Run

abbrev CodeId := Nat
abbrev ProfId := Nat

structure CodeInfo where
  guestPC : Nat
  hostPC : Nat
  hostSize : Nat
  guestICount : Nat
  isBlock : Bool
  icount_pos : 0 < guestICount

/-- A region with the id it was registered under. `epoch` is the number of resets before
that; no function reads it. -/
structure Registered extends CodeInfo where
  monitorID : Nat
  epoch : Nat

structure SmplProfile where
  region : CodeId
  lastCount : Nat
  totalCount : Nat

structure ThreadInfo where
  collectedProf : List (Nat × ProfId)
  window : List (List ProfId)
  currIdx : Nat

inductive UseKind where
  | committed
  | compared
  | selected
deriving DecidableEq, Repr

structure Use where
  kind : UseKind
  epoch : Nat
  region : CodeId
deriving DecidableEq, Repr

/-- The manager with all threads. Regions and profiles are numbered; `monitorStart` and `monitorEnd`
are for blocks at `true` and for traces at `false`. No function reads `epoch` and `log`. -/
structure Manager where
  monitorID : Nat
  codes : CodeId → Registered
  nextCode : Nat
  guestCodes : List (Nat × CodeId)
  hostCodes : List (Nat × CodeId)
  retiredMap : List (Nat × CodeId)
  monitorStart : Bool → Nat
  monitorEnd : Bool → Nat
  profs : ProfId → SmplProfile
  nextProf : Nat
  threadRegistry : List (Nat × ThreadInfo)
  epoch : Nat
  log : List Use

/-- What the optimizer uses of the C++ library and of floating-point arithmetic: `sort` orders ties
in any way, pointers are ordered by address, and `cover` multiplies by 0.9. -/
structure Stl where
  sort : (ProfId → ProfId → Bool) → List ProfId → List ProfId
  sort_perm : ∀ lt profs, (sort lt profs).Perm profs
  keys : List ProfId → List ProfId
  keys_perm : ∀ profs, (keys profs).Perm profs.dedup
  cover : Nat → Nat

namespace Manager

def getRegion (m : Manager) (prof : ProfId) : Registered := m.codes (m.profs prof).region

def registerThread (m : Manager) (size fd : Nat) : Manager :=
  { m with threadRegistry := set m.threadRegistry fd ⟨[],List.replicate size [],0⟩ }

def unregisterThread (m : Manager) (fd : Nat) : Manager :=
  { m with threadRegistry := m.threadRegistry.filter (·.1 != fd) }

def registerMonitoring (m : Manager) (code : CodeInfo) : Manager :=
  let start := code.hostPC
  let stop := start+code.hostSize
  let retiredMap := match m.guestCodes.lookup code.guestPC with
    | some retired => set m.retiredMap code.guestPC retired
    | none => m.retiredMap
  let id := m.nextCode
  { m with
    codes := Function.update m.codes id ⟨code,m.monitorID,m.epoch⟩
    nextCode := id+1
    monitorID := (m.monitorID+1) % 2^32
    guestCodes := set m.guestCodes code.guestPC id
    hostCodes := set m.hostCodes code.hostPC id
    retiredMap := retiredMap
    monitorStart := fun block =>
      if block = code.isBlock ∧ start < m.monitorStart block then start else m.monitorStart block
    monitorEnd := fun block =>
      if block = code.isBlock ∧ m.monitorEnd block < stop then stop else m.monitorEnd block }

def resetMonitoring (m : Manager) : Manager :=
  { m with
    monitorID := 0
    guestCodes := []
    hostCodes := []
    retiredMap := []
    monitorStart := fun _ => 2^64-1
    monitorEnd := fun _ => 0
    epoch := m.epoch+1 }

def setCount (m : Manager) (prof : ProfId) (count : Nat) : Manager :=
  { m with profs := Function.update m.profs prof { m.profs prof with totalCount := count } }

def takeRetired (m : Manager) (info : ThreadInfo) (guestPC : Nat) : Manager × Nat :=
  match m.retiredMap.lookup guestPC with
  | none => (m,0)
  | some retired =>
    match info.collectedProf.lookup (m.codes retired).monitorID with
    | none => (m,0)
    | some prof => (m.setCount prof 0,(m.profs prof).totalCount)

/-- Stepping back from the first entry is an error, hence `none`. -/
def lookupProfileWithIP (m : Manager) (info : ThreadInfo) (ip : Nat) :
    Option (Manager × ThreadInfo × ProfId) :=
  match floor m.hostCodes ip with
  | none => none
  | some (_,code) =>
    let id := (m.codes code).monitorID
    match info.collectedProf.lookup id with
    | some prof => some (m,info,prof)
    | none =>
      let (m,initCount) := m.takeRetired info (m.codes code).guestPC
      let prof := m.nextProf
      some ({ m with
          profs := Function.update m.profs prof ⟨code,0,initCount⟩
          nextProf := prof+1 },
        { info with collectedProf := set info.collectedProf id prof },prof)

def inRange (m : Manager) (ip : Nat) : Bool :=
  [true,false].any fun block => m.monitorStart block ≤ ip && ip < m.monitorEnd block

def lookupAll (m : Manager) (info : ThreadInfo) :
    List Nat → Option (Manager × ThreadInfo × List ProfId)
  | [] => some (m,info,[])
  | ip :: rest =>
    if m.inRange ip then do
      let (m,info,prof) ← m.lookupProfileWithIP info ip
      let (m,info,hits) ← m.lookupAll info rest
      return (m,info,prof :: hits)
    else m.lookupAll info rest

def addCount (m : Manager) (prof : ProfId) (count : Nat) : Manager :=
  let old := m.profs prof
  { m with
    profs := Function.update m.profs prof
      { old with lastCount := count, totalCount := (old.totalCount+count) % 2^64 } }

def commitProfile (stl : Stl) (m : Manager) (info : ThreadInfo) (ips : List Nat) :
    Option (Manager × ThreadInfo × List ProfId) := do
  let (m,info,hits) ← m.lookupAll info ips
  let profs := stl.keys hits
  return (profs.foldl (fun m prof => m.addCount prof (hits.count prof)) m,info,profs)

def normalizedCount (m : Manager) (prof : ProfId) : Nat :=
  (m.profs prof).totalCount / (m.getRegion prof).guestICount

def cmpTotal (m : Manager) (a b : ProfId) : Bool :=
  (m.profs b).totalCount * (m.getRegion a).guestICount % 2^64 <
    (m.profs a).totalCount * (m.getRegion b).guestICount % 2^64

def takeCover (m : Manager) (bound : Nat) : Nat → List ProfId → List ProfId
  | _, [] => []
  | total, prof :: rest =>
    let total := (total+m.normalizedCount prof) % 2^64
    if bound < total then [prof] else prof :: m.takeCover bound total rest

def getTopProfile (stl : Stl) (m : Manager) (profs : List ProfId) : List ProfId :=
  let sorted := stl.sort m.cmpTotal profs
  m.takeCover (stl.cover ((profs.map m.normalizedCount).sum % 2^64)) 0 sorted

def computeCandidateRegions (stl : Stl) (m : Manager) (info : ThreadInfo)
    (profs : List ProfId) : ThreadInfo × List ProfId × List CodeId :=
  let size := info.window.length
  let window := info.window.set info.currIdx profs
  let used := stl.keys window.flatten
  let sorted := stl.sort m.cmpTotal (used.filter fun prof => window.flatten.count prof == size)
  let hot := sorted.filter fun prof =>
    (m.getRegion prof).isBlock || (m.getRegion prof).hostSize ≤ (m.profs prof).totalCount
  ({ info with window := window, currIdx := (info.currIdx+1) % size },used,
    hot.map fun prof => (m.profs prof).region)

def note (m : Manager) (kind : UseKind) (regions : List CodeId) : Manager :=
  { m with log := m.log ++ regions.map fun region => ⟨kind,m.epoch,region⟩ }

/-- The handler of a full sample buffer. It does not come back for a thread that is not
registered, as it then returns with the lock held. -/
def processIPSmpl (stl : Stl) (m : Manager) (fd : Nat) (ips : List Nat) : Option Manager := do
  let info ← m.threadRegistry.lookup fd
  let (m,info,lastProf) ← m.commitProfile stl info ips
  let topProf := m.getTopProfile stl lastProf
  let (info,used,regions) := m.computeCandidateRegions stl info topProf
  let regionsOf (profs : List ProfId) : List CodeId := profs.map fun prof => (m.profs prof).region
  let m := { m with threadRegistry := set m.threadRegistry fd info }
  let m := m.note .committed (regionsOf lastProf)
  let m := m.note .compared (regionsOf (lastProf ++ used))
  return m.note .selected regions

end Manager

inductive Action where
  | registerThread (fd : Nat)
  | unregisterThread (fd : Nat)
  | registerMonitoring (code : CodeInfo)
  | resetMonitoring
  | sample (fd : Nat) (ips : List Nat)

def step (stl : Stl) (size : Nat) (m : Manager) : Action → Option Manager
  | .registerThread fd => some (m.registerThread size fd)
  | .unregisterThread fd => some (m.unregisterThread fd)
  | .registerMonitoring code => some (m.registerMonitoring code)
  | .resetMonitoring => some m.resetMonitoring
  | .sample fd ips => m.processIPSmpl stl fd ips

def initial : Manager where
  monitorID := 0
  codes _ := ⟨⟨0,0,0,1,false,Nat.one_pos⟩,0,0⟩
  nextCode := 0
  guestCodes := []
  hostCodes := []
  retiredMap := []
  monitorStart _ := 2^64-1
  monitorEnd _ := 0
  profs _ := ⟨0,0,0⟩
  nextProf := 0
  threadRegistry := []
  epoch := 0
  log := []

open List

variable {stl : Stl} {m next : Manager} {info info' : ThreadInfo} {ip : Nat} {prof : ProfId}

def Manager.Current (m : Manager) (prof : ProfId) : Prop :=
  prof < m.nextProf ∧ (m.profs prof).region < m.nextCode ∧ (m.getRegion prof).epoch = m.epoch

structure Clean (m : Manager) (info : ThreadInfo) : Prop where
  collected : ∀ entry ∈ info.collectedProf,
    m.Current entry.2 ∧ (m.getRegion entry.2).monitorID = entry.1
  window : ∀ profs ∈ info.window, ∀ prof ∈ profs, m.Current prof

structure Inv (m : Manager) : Prop where
  host : ∀ entry ∈ m.hostCodes, (m.codes entry.2).hostPC = entry.1 ∧
    (m.codes entry.2).epoch = m.epoch ∧ entry.2 < m.nextCode ∧ 0 < (m.codes entry.2).hostSize
  apart : ∀ entry ∈ m.hostCodes, ∀ other ∈ m.hostCodes, entry.2 ≠ other.2 →
    ¬(entry.1 ≤ other.1 ∧ other.1 < entry.1+(m.codes entry.2).hostSize)
  ids : ∀ entry ∈ m.hostCodes, ∀ other ∈ m.hostCodes,
    (m.codes entry.2).monitorID = (m.codes other.2).monitorID → entry.2 = other.2
  current : ∀ code < m.nextCode, (m.codes code).epoch = m.epoch →
    ((m.codes code).hostPC,code) ∈ m.hostCodes
  epochs : ∀ code < m.nextCode, (m.codes code).epoch ≤ m.epoch
  threads : ∀ entry ∈ m.threadRegistry, Clean m entry.2
  log : ∀ use ∈ m.log, use.region < m.nextCode ∧ (m.codes use.region).epoch = use.epoch

def Grows (m next : Manager) : Prop :=
  ∃ profs nextProf, next = { m with profs := profs, nextProf := nextProf } ∧
    m.nextProf ≤ nextProf ∧ ∀ prof < m.nextProf, (profs prof).region = (m.profs prof).region

theorem Grows.refl (m : Manager) : Grows m m := ⟨_,_,rfl,Nat.le_refl _,fun _ _ => rfl⟩

theorem Grows.trans {last : Manager} (h : Grows m next) (hlast : Grows next last) :
    Grows m last := by
  obtain ⟨profs,nextProf,rfl,hle,hreg⟩ := h
  obtain ⟨profs',nextProf',rfl,hle',hregion'⟩ := hlast
  refine ⟨profs',nextProf',rfl,Nat.le_trans hle hle',fun prof hprof => ?_⟩
  exact (hregion' prof (Nat.lt_of_lt_of_le hprof hle)).trans (hreg prof hprof)

theorem Grows.current (h : Grows m next) (hprof : m.Current prof) : next.Current prof := by
  obtain ⟨profs,nextProf,rfl,hle,hreg⟩ := h
  obtain ⟨hlt,hcode,hepoch⟩ := hprof
  refine ⟨Nat.lt_of_lt_of_le hlt hle,?_,?_⟩
  · dsimp only
    rw [hreg prof hlt]
    exact hcode
  · simp only [Manager.getRegion] at hepoch ⊢
    rw [hreg prof hlt]
    exact hepoch

theorem Grows.getRegion (h : Grows m next) (hprof : prof < m.nextProf) :
    next.getRegion prof = m.getRegion prof := by
  obtain ⟨profs,nextProf,rfl,hle,hreg⟩ := h
  simp only [Manager.getRegion]
  rw [hreg prof hprof]

theorem Clean.grows (h : Clean m info) (hgrows : Grows m next) : Clean next info where
  collected entry hentry := by
    obtain ⟨hcur,hid⟩ := h.collected entry hentry
    exact ⟨hgrows.current hcur,by rw [hgrows.getRegion hcur.1,hid]⟩
  window profs hprofs prof hprof := hgrows.current (h.window profs hprofs prof hprof)

theorem Inv.grows (h : Inv m) (hgrows : Grows m next) : Inv next := by
  have hthreads : ∀ entry ∈ m.threadRegistry, Clean next entry.2 :=
    fun entry hentry => (h.threads entry hentry).grows hgrows
  obtain ⟨profs,nextProf,rfl,-,-⟩ := hgrows
  exact ⟨h.host,h.apart,h.ids,h.current,h.epochs,hthreads,h.log⟩

theorem grows_update (m : Manager) {prof : ProfId} {new : SmplProfile}
    (hreg : new.region = (m.profs prof).region) :
    Grows m { m with profs := update m.profs prof new } := by
  refine ⟨_,_,rfl,Nat.le_refl _,fun other _ => ?_⟩
  rw [update_apply]
  split
  · rename_i heq
    rw [heq,hreg]
  · rfl

theorem grows_takeRetired (m : Manager) (info : ThreadInfo) (guestPC : Nat) :
    Grows m (m.takeRetired info guestPC).1 := by
  unfold Manager.takeRetired
  split
  · exact Grows.refl m
  split
  · exact Grows.refl m
  · exact grows_update m rfl

theorem lookupProfileWithIP_some (h : Inv m) (hinfo : Clean m info) {start : Nat} {code : CodeId}
    (hfloor : floor m.hostCodes ip = some (start,code)) :
    ∃ next info' prof, m.lookupProfileWithIP info ip = some (next,info',prof) ∧
      Grows m next ∧ Clean next info' ∧ next.Current prof ∧ (next.profs prof).region = code := by
  have hmem : (start,code) ∈ m.hostCodes := (floor_some hfloor).1
  obtain ⟨-,hepoch,hlt,-⟩ := h.host _ hmem
  unfold Manager.lookupProfileWithIP
  rw [hfloor]
  dsimp only
  cases hlook : info.collectedProf.lookup (m.codes code).monitorID with
  | some prof =>
    obtain ⟨hcur,hid⟩ := hinfo.collected _ (mem_of_lookup hlook)
    have hreg : ((m.getRegion prof).hostPC,(m.profs prof).region) ∈ m.hostCodes :=
      h.current _ hcur.2.1 hcur.2.2
    have hsame : (m.profs prof).region = code := h.ids _ hreg _ hmem hid
    exact ⟨m,info,prof,rfl,Grows.refl m,hinfo,hcur,hsame⟩
  | none =>
    obtain ⟨mid,initCount,hmid⟩ : ∃ mid initCount,
        m.takeRetired info (m.codes code).guestPC = (mid,initCount) := ⟨_,_,rfl⟩
    have hgrowsMid : Grows m mid := by
      have hgrows := grows_takeRetired m info (m.codes code).guestPC
      rwa [hmid] at hgrows
    have hgrows : Grows m { mid with
        profs := update mid.profs mid.nextProf ⟨code,0,initCount⟩
        nextProf := mid.nextProf+1 } := by
      refine hgrowsMid.trans ⟨_,_,rfl,Nat.le_succ _,fun other hother => ?_⟩
      rw [update_of_ne (Nat.ne_of_lt hother)]
    obtain ⟨profs,nextProf,rfl,-,-⟩ := hgrowsMid
    rw [hmid]
    have hnew : Manager.Current { m with
        profs := update profs nextProf ⟨code,0,initCount⟩
        nextProf := nextProf+1 } nextProf := by
      refine ⟨Nat.lt_succ_self _,?_,?_⟩
      · simpa using hlt
      · simpa [Manager.getRegion] using hepoch
    refine ⟨_,_,_,rfl,hgrows,⟨fun entry hentry => ?_,?_⟩,hnew,by simp⟩
    · rcases mem_set.mp hentry with rfl | ⟨hold,-⟩
      · exact ⟨hnew,by simp [Manager.getRegion]⟩
      · exact (hinfo.grows hgrows).collected entry hold
    · exact (hinfo.grows hgrows).window

theorem lookupAll_some {ips : List Nat} {hits : List ProfId} (h : Inv m) (hinfo : Clean m info)
    (hnext : m.lookupAll info ips = some (next,info',hits)) :
    Grows m next ∧ Clean next info' ∧ ∀ prof ∈ hits, next.Current prof := by
  induction ips generalizing m info hits with
  | nil =>
    cases hnext
    exact ⟨Grows.refl _,hinfo,nofun⟩
  | cons ip rest ih =>
    rw [Manager.lookupAll] at hnext
    split at hnext
    · simp only [bind_eq_bind,bind_eq_some_iff,Prod.exists] at hnext
      obtain ⟨mid,midInfo,prof,hlook,last,lastInfo,tail,htail,hnext⟩ := hnext
      cases hnext
      cases hfloor : floor m.hostCodes ip with
      | none => simp [Manager.lookupProfileWithIP,hfloor] at hlook
      | some best =>
        obtain ⟨_,_,_,hsome,hgrows,hclean,hcur,-⟩ := lookupProfileWithIP_some h hinfo hfloor
        rw [hsome] at hlook
        cases hlook
        obtain ⟨hgrows',hclean',hall⟩ := ih (h.grows hgrows) hclean htail
        refine ⟨hgrows.trans hgrows',hclean',forall_mem_cons.mpr ⟨?_,hall⟩⟩
        exact hgrows'.current hcur
    · exact ih h hinfo hnext

theorem grows_foldl_addCount (count : ProfId → Nat) (profs : List ProfId) (m : Manager) :
    Grows m (profs.foldl (fun m prof => m.addCount prof (count prof)) m) := by
  induction profs generalizing m with
  | nil => exact Grows.refl m
  | cons prof rest ih =>
    have hfirst : Grows m (m.addCount prof (count prof)) := grows_update m rfl
    exact hfirst.trans (ih _)

theorem mem_keys (stl : Stl) {profs : List ProfId} : prof ∈ stl.keys profs ↔ prof ∈ profs := by
  rw [(stl.keys_perm profs).mem_iff,mem_dedup]

theorem commitProfile_some {ips : List Nat} {profs : List ProfId} (h : Inv m)
    (hinfo : Clean m info) (hnext : m.commitProfile stl info ips = some (next,info',profs)) :
    Grows m next ∧ Clean next info' ∧ ∀ prof ∈ profs, next.Current prof := by
  simp only [Manager.commitProfile,bind_eq_bind,bind_eq_some_iff,Prod.exists] at hnext
  obtain ⟨mid,midInfo,hits,hlook,hnext⟩ := hnext
  cases hnext
  obtain ⟨hgrows,hclean,hall⟩ := lookupAll_some h hinfo hlook
  have hcounts := grows_foldl_addCount (hits.count ·) (stl.keys hits) mid
  refine ⟨hgrows.trans hcounts,hclean.grows hcounts,fun prof hprof => ?_⟩
  exact hcounts.current (hall prof ((mem_keys stl).mp hprof))

theorem takeCover_subset (m : Manager) (bound total : Nat) (profs : List ProfId) :
    m.takeCover bound total profs ⊆ profs := by
  induction profs generalizing total with
  | nil => exact List.Subset.refl _
  | cons prof rest ih =>
    rw [Manager.takeCover]
    split
    · exact cons_subset_cons _ (nil_subset _)
    · exact cons_subset_cons _ (ih _)

theorem getTopProfile_subset (stl : Stl) (m : Manager) (profs : List ProfId) :
    m.getTopProfile stl profs ⊆ profs :=
  List.Subset.trans (takeCover_subset _ _ _ _) (stl.sort_perm _ profs).subset

theorem computeCandidateRegions_spec {profs used : List ProfId} {regions : List CodeId}
    (hinfo : Clean m info) (hprofs : ∀ prof ∈ profs, m.Current prof)
    (heq : m.computeCandidateRegions stl info profs = (info',used,regions)) :
    Clean m info' ∧ (∀ prof ∈ used, m.Current prof) ∧
      ∀ region ∈ regions, region < m.nextCode ∧ (m.codes region).epoch = m.epoch := by
  unfold Manager.computeCandidateRegions at heq
  cases heq
  have hwindow : ∀ window ∈ info.window.set info.currIdx profs, ∀ prof ∈ window,
      m.Current prof := by
    intro window hmem prof hprof
    rcases mem_or_eq_of_mem_set hmem with hold | rfl
    · exact hinfo.window window hold prof hprof
    · exact hprofs prof hprof
  have hused : ∀ prof ∈ stl.keys (info.window.set info.currIdx profs).flatten, m.Current prof := by
    intro prof hprof
    obtain ⟨window,hmem,hin⟩ := mem_flatten.mp ((mem_keys stl).mp hprof)
    exact hwindow window hmem prof hin
  refine ⟨⟨hinfo.collected,hwindow⟩,hused,fun region hreg => ?_⟩
  obtain ⟨prof,hprof,rfl⟩ := mem_map.mp hreg
  have hsort := (stl.sort_perm _ _).subset (mem_filter.mp hprof).1
  exact (hused prof (mem_filter.mp hsort).1).2

theorem Inv.note (h : Inv m) {kind : UseKind} {regions : List CodeId}
    (hregions : ∀ region ∈ regions, region < m.nextCode ∧ (m.codes region).epoch = m.epoch) :
    Inv (m.note kind regions) where
  host := h.host
  apart := h.apart
  ids := h.ids
  current := h.current
  epochs := h.epochs
  threads entry hentry := ⟨(h.threads entry hentry).collected,(h.threads entry hentry).window⟩
  log use huse := by
    rcases mem_append.mp huse with hold | hnew
    · exact h.log use hold
    · obtain ⟨region,hreg,rfl⟩ := mem_map.mp hnew
      exact hregions region hreg

theorem Inv.setThread (h : Inv m) (fd : Nat) (hinfo : Clean m info) :
    Inv { m with threadRegistry := set m.threadRegistry fd info } where
  host := h.host
  apart := h.apart
  ids := h.ids
  current := h.current
  epochs := h.epochs
  threads entry hentry := by
    rcases mem_set.mp hentry with rfl | ⟨hold,-⟩
    · exact ⟨hinfo.collected,hinfo.window⟩
    · exact ⟨(h.threads entry hold).collected,(h.threads entry hold).window⟩
  log := h.log

theorem Inv.sample {fd : Nat} {ips : List Nat} (h : Inv m)
    (hnext : m.processIPSmpl stl fd ips = some next) : Inv next := by
  simp only [Manager.processIPSmpl,bind_eq_bind,bind_eq_some_iff,Prod.exists] at hnext
  obtain ⟨info,hfd,mid,midInfo,lastProf,hcommit,hnext⟩ := hnext
  cases hnext
  have hinfo : Clean m info := h.threads _ (mem_of_lookup hfd)
  obtain ⟨hgrows,hclean,hlast⟩ := commitProfile_some h hinfo hcommit
  have htop : ∀ prof ∈ mid.getTopProfile stl lastProf, mid.Current prof :=
    fun prof hprof => hlast prof (getTopProfile_subset stl mid lastProf hprof)
  obtain ⟨hclean',hused,hregions⟩ := computeCandidateRegions_spec hclean htop
    (Eq.refl (mid.computeCandidateRegions stl midInfo (mid.getTopProfile stl lastProf)))
  have hmid := (h.grows hgrows).setThread fd hclean'
  have hregionsOf : ∀ profs : List ProfId, (∀ prof ∈ profs, mid.Current prof) →
      ∀ region ∈ profs.map fun prof => (mid.profs prof).region,
        region < mid.nextCode ∧ (mid.codes region).epoch = mid.epoch := by
    intro profs hprofs region hreg
    obtain ⟨prof,hprof,rfl⟩ := mem_map.mp hreg
    exact (hprofs prof hprof).2
  apply Inv.note
  · apply Inv.note
    · apply Inv.note
      · exact hmid
      · exact hregionsOf lastProf hlast
    · apply hregionsOf
      intro prof hprof
      rcases mem_append.mp hprof with hleft | hright
      · exact hlast prof hleft
      · exact hused prof hright
  · exact hregions

def Fresh (m : Manager) (code : CodeInfo) : Prop :=
  0 < code.hostSize ∧ ∀ entry ∈ m.hostCodes,
    (code.hostPC+code.hostSize ≤ entry.1 ∨
      entry.1+(m.codes entry.2).hostSize ≤ code.hostPC) ∧
    (m.codes entry.2).monitorID ≠ m.monitorID

instance (m : Manager) (code : CodeInfo) : Decidable (Fresh m code) :=
  inferInstanceAs (Decidable (_ ∧ _))

def ThreadInfo.Empty (info : ThreadInfo) : Prop :=
  info.collectedProf = [] ∧ ∀ profs ∈ info.window, profs = []

instance (info : ThreadInfo) : Decidable info.Empty :=
  inferInstanceAs (Decidable (_ ∧ _))

/-- Regions are registered apart from each other, with fresh ids, and the monitoring is reset only
while no thread holds a profile. -/
def Orderly (m : Manager) : Action → Prop
  | .registerMonitoring code => Fresh m code
  | .resetMonitoring => ∀ entry ∈ m.threadRegistry, entry.2.Empty
  | _ => True

instance (m : Manager) : DecidablePred (Orderly m)
  | .registerThread _ => instDecidableTrue
  | .unregisterThread _ => instDecidableTrue
  | .registerMonitoring _ => inferInstanceAs (Decidable (Fresh _ _))
  | .resetMonitoring => List.decidableBAll _ _
  | .sample _ _ => instDecidableTrue

theorem Inv.registerMonitoring {code : CodeInfo} (h : Inv m) (hfresh : Fresh m code) :
    Inv (m.registerMonitoring code) := by
  obtain ⟨hsize,hfresh⟩ := hfresh
  have hself : (m.registerMonitoring code).codes m.nextCode = ⟨code,m.monitorID,m.epoch⟩ :=
    update_self _ _ _
  have hcodes : ∀ id < m.nextCode, (m.registerMonitoring code).codes id = m.codes id :=
    fun id hid => update_of_ne (Nat.ne_of_lt hid) _ _
  have hentry : ∀ entry, entry ∈ (m.registerMonitoring code).hostCodes ↔
      entry = (code.hostPC,m.nextCode) ∨ entry ∈ m.hostCodes ∧ entry.1 ≠ code.hostPC :=
    fun entry => mem_set
  have hold : ∀ entry ∈ m.hostCodes, (m.registerMonitoring code).codes entry.2 =
      m.codes entry.2 := fun entry hmem => hcodes _ (h.host entry hmem).2.2.1
  have hcur : ∀ prof, m.Current prof → (m.registerMonitoring code).Current prof ∧
      (m.registerMonitoring code).getRegion prof = m.getRegion prof := by
    rintro prof ⟨hlt,hcode,hepoch⟩
    have hreg := hcodes _ hcode
    refine ⟨⟨hlt,Nat.lt_succ_of_lt hcode,?_⟩,hreg⟩
    exact (congrArg Registered.epoch hreg).trans hepoch
  refine ⟨fun entry hmem => ?_,fun entry hmem other hother hne => ?_,
    fun entry hmem other hother hid => ?_,fun id hid hepoch => ?_,fun id hid => ?_,
    fun entry hmem => ⟨fun e he => ?_,fun profs hprofs prof hprof => ?_⟩,fun use huse => ?_⟩
  · rcases (hentry entry).mp hmem with rfl | ⟨hmem,-⟩
    · rw [hself]
      exact ⟨rfl,rfl,Nat.lt_succ_self _,hsize⟩
    · rw [hold entry hmem]
      obtain ⟨hpc,hepoch,hlt,hpos⟩ := h.host entry hmem
      exact ⟨hpc,hepoch,Nat.lt_succ_of_lt hlt,hpos⟩
  · rcases (hentry entry).mp hmem with rfl | ⟨hmem,-⟩
    · rcases (hentry other).mp hother with rfl | ⟨hother,-⟩
      · exact absurd rfl hne
      · rw [hself]
        have hapart := (hfresh other hother).1
        have hpos := (h.host other hother).2.2.2
        dsimp only
        omega
    · rw [hold entry hmem]
      rcases (hentry other).mp hother with rfl | ⟨hother,-⟩
      · have hapart := (hfresh entry hmem).1
        omega
      · exact h.apart entry hmem other hother hne
  · rcases (hentry entry).mp hmem with rfl | ⟨hmem,-⟩
    · rcases (hentry other).mp hother with rfl | ⟨hother,-⟩
      · rfl
      · rw [hself,hold other hother] at hid
        exact absurd hid.symm (hfresh other hother).2
    · rw [hold entry hmem] at hid
      rcases (hentry other).mp hother with rfl | ⟨hother,-⟩
      · rw [hself] at hid
        exact absurd hid (hfresh entry hmem).2
      · rw [hold other hother] at hid
        exact h.ids entry hmem other hother hid
  · rw [hentry]
    rcases Nat.lt_succ_iff_lt_or_eq.mp hid with hlt | rfl
    · rw [hcodes id hlt] at hepoch ⊢
      have hmem := h.current id hlt hepoch
      refine .inr ⟨hmem,fun heq => ?_⟩
      have hapart := (hfresh _ hmem).1
      have hpos := (h.host _ hmem).2.2.2
      omega
    · rw [hself]
      exact .inl rfl
  · rcases Nat.lt_succ_iff_lt_or_eq.mp hid with hlt | rfl
    · rw [hcodes id hlt]
      exact h.epochs id hlt
    · rw [hself]
      exact Nat.le_refl _
  · obtain ⟨hprof,hid⟩ := (h.threads entry hmem).collected e he
    obtain ⟨hnew,hreg⟩ := hcur _ hprof
    exact ⟨hnew,by rw [hreg,hid]⟩
  · exact (hcur _ ((h.threads entry hmem).window profs hprofs prof hprof)).1
  · obtain ⟨hlt,hepoch⟩ := h.log use huse
    refine ⟨Nat.lt_succ_of_lt hlt,?_⟩
    rw [hcodes _ hlt]
    exact hepoch

theorem Inv.resetMonitoring (h : Inv m)
    (hempty : ∀ entry ∈ m.threadRegistry, entry.2.Empty) : Inv m.resetMonitoring where
  host := nofun
  apart := nofun
  ids := nofun
  current code hcode hepoch := by
    have hle := h.epochs code hcode
    simp only [Manager.resetMonitoring] at hepoch
    omega
  epochs code hcode := Nat.le_succ_of_le (h.epochs code hcode)
  threads entry hentry := by
    obtain ⟨hcollected,hwindow⟩ := hempty entry hentry
    refine ⟨?_,fun profs hprofs prof hprof => ?_⟩
    · rw [hcollected]
      exact nofun
    · rw [hwindow profs hprofs] at hprof
      cases hprof
  log := h.log

theorem Inv.step {size : Nat} {action : Action} (h : Inv m) (horderly : Orderly m action)
    (hnext : step stl size m action = some next) : Inv next := by
  cases action with
  | registerThread fd =>
    cases hnext
    refine h.setThread fd ⟨nofun,fun profs hprofs prof hprof => ?_⟩
    rw [eq_of_mem_replicate hprofs] at hprof
    cases hprof
  | unregisterThread fd =>
    cases hnext
    refine ⟨h.host,h.apart,h.ids,h.current,h.epochs,fun entry hentry => ?_,h.log⟩
    have hclean := h.threads entry (mem_filter.mp hentry).1
    exact ⟨hclean.collected,hclean.window⟩
  | registerMonitoring code =>
    cases hnext
    exact h.registerMonitoring horderly
  | resetMonitoring =>
    cases hnext
    exact h.resetMonitoring horderly
  | sample fd ips => exact h.sample hnext

/-- The lookup of an address in a registered region returns its profile, and all regions committed,
compared or selected were registered after the last reset before that. -/
structure Good (m : Manager) : Prop where
  lookup : ∀ thread ∈ m.threadRegistry, ∀ code, ((m.codes code).hostPC,code) ∈ m.hostCodes →
    ∀ ip, (m.codes code).hostPC ≤ ip → ip < (m.codes code).hostPC + (m.codes code).hostSize →
      ∃ next info prof, m.lookupProfileWithIP thread.2 ip = some (next,info,prof) ∧
        (next.profs prof).region = code
  uses : ∀ use ∈ m.log, (m.codes use.region).epoch = use.epoch

theorem Inv.good (h : Inv m) : Good m where
  lookup thread hthread code hcode ip hlow hhi := by
    obtain ⟨best,hbest⟩ := floor_isSome hcode hlow
    obtain ⟨hmem,hle,hmax⟩ := floor_some hbest
    have hsame : code = best.2 := by
      by_contra hne
      apply h.apart _ hcode best hmem hne
      exact ⟨hmax _ hcode hlow,Nat.lt_of_le_of_lt hle hhi⟩
    obtain ⟨next,info,prof,hsome,-,-,-,hreg⟩ :=
      lookupProfileWithIP_some h (h.threads thread hthread) hbest
    exact ⟨next,info,prof,hsome,hreg.trans hsame.symm⟩
  uses use huse := (h.log use huse).2

theorem inv_initial : Inv initial := ⟨nofun,nofun,nofun,nofun,nofun,nofun,nofun⟩

/-- In every run that resets the monitoring only while no thread holds a profile. -/
theorem good_of_orderly (stl : Stl) (size : Nat) (actions : List Action)
    (horderly : Meets (step stl size) Orderly initial actions) :
    Always (step stl size) Good initial actions := by
  have halways := always_of_meets (fun state action next h horderly hnext =>
    Inv.step h horderly hnext) inv_initial horderly
  exact halways.imp fun _ h => h.good

def stableStl : Stl where
  sort lt := List.insertionSort fun a b => lt b a = false
  sort_perm _ profs := List.perm_insertionSort _ profs
  keys := List.dedup
  keys_perm _ := List.Perm.refl _
  cover count := count*9/10

def region (guestPC hostPC : Nat) : CodeInfo := ⟨guestPC,hostPC,0x40,4,true,by decide⟩

/-- A thread that has collected profiles is gone when the monitoring is reset, and another
one goes on. -/
theorem good_of_orderly_threads :
    Always (step stableStl 2) Good initial
      [.registerThread 3, .registerMonitoring (region 0x8000 0x1000),
        .registerMonitoring (region 0x9000 0x1040), .sample 3 [0x1010, 0x1050, 0x1060],
        .sample 3 [0x1010, 0x1050], .unregisterThread 3, .resetMonitoring, .registerThread 4,
        .registerMonitoring (region 0xa000 0x1000), .sample 4 [0x1010]] :=
  good_of_orderly stableStl 2 _ (by decide +kernel)

def resetWhileSampling : List Action :=
  [.registerThread 3,.registerMonitoring (region 0x8000 0x1000),.sample 3 [0x1010],
    .sample 3 [0x1010],.resetMonitoring,.registerMonitoring (region 0x9000 0x2000),
    .sample 3 [0x2010]]

/-- The sample in the new region is committed to the profile of the old one, which is
compared and selected for merging. -/
theorem stale_profile_selected :
    ∃ m, run (step stableStl 2) initial resetWhileSampling = some m ∧
      (∃ thread ∈ m.threadRegistry, ∃ next info prof,
        m.lookupProfileWithIP thread.2 0x2010 = some (next, info, prof) ∧
        (next.profs prof).region = 0 ∧ (m.codes 0).hostPC = 0x1000) ∧
      (∀ kind, ⟨kind, 1, 0⟩ ∈ m.log) ∧ (m.codes 0).epoch = 0 ∧ ¬ Good m := by
  have hfinal : (run (step stableStl 2) initial resetWhileSampling).map (fun m =>
      (m.threadRegistry.map fun thread => (m.lookupProfileWithIP thread.2 0x2010).map
        fun result => (result.1.profs result.2.2).region,
        (m.codes 0).hostPC,(m.codes 0).epoch,
        m.log.contains ⟨.committed,1,0⟩ && m.log.contains ⟨.compared,1,0⟩ &&
          m.log.contains ⟨.selected,1,0⟩)) = some ([some 0],0x1000,0,true) := by
    decide +kernel
  obtain ⟨m,hrun,hm⟩ := map_eq_some_iff.mp hfinal
  simp only [Prod.mk.injEq,Bool.and_eq_true,contains_iff_mem] at hm
  obtain ⟨hlook,hhost,hepoch,⟨hcommitted,hcompared⟩,hselected⟩ := hm
  obtain ⟨thread,rest,hthreads,hthread,-⟩ := map_eq_cons_iff.mp hlook
  obtain ⟨⟨next,info,prof⟩,hsome,hreg⟩ := map_eq_some_iff.mp hthread
  refine ⟨m,hrun,⟨thread,by simp [hthreads],next,info,prof,hsome,hreg,hhost⟩,?_,hepoch,fun hgood =>
      ?_⟩
  · intro kind
    cases kind with
    | committed => exact hcommitted
    | compared => exact hcompared
    | selected => exact hselected
  · have huse := hgood.uses _ hcommitted
    rw [hepoch] at huse
    cases huse

end Hqemu.Llvm.Dbo
