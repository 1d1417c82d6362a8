import Hqemu.Block.Vdi

/-! Requests one after the other on a VDI image. The buffer for new blocks is cleared only once. -/
namespace Hqemu.Block.Vdi

open List Option Lib.Patch Lib.Run

variable {Data : Type} [Zero Data]

/-- When the last block of the write is new and not written to its end, the data of `before`, the
new block in front of it, is zero beyond the end of the write. -/
def CleanTail (vdi : State) (sector count : Nat) (buf : Nat → Data) : Prop :=
  ∀ before last, sector/blockSectors ≤ before → before < last →
    vdi.bmap before = unallocated → vdi.bmap last = unallocated →
    (∀ block, before < block → block < last → vdi.bmap block ≠ unallocated) →
    last*blockSectors < sector+count →
    ∀ j < blockSectors, sector+count ≤ last*blockSectors+j →
      sector ≤ before*blockSectors+j → buf (before*blockSectors+j-sector) = 0

inductive Buffered (vdi : State) (sector next : Nat) (buf : Nat → Data) :
    Option (Nat → Data) → Prop
  | unused (hused : ∀ block, sector/blockSectors ≤ block → block < next →
      vdi.bmap block ≠ unallocated) : Buffered vdi sector next buf none
  | holds {before : Nat} {block : Nat → Data} (hlow : sector/blockSectors ≤ before)
      (hhigh : before < next) (hfree : vdi.bmap before = unallocated)
      (hused : ∀ other, before < other → other < next → vdi.bmap other ≠ unallocated)
      (hblock : ∀ j < blockSectors, block j =
        if sector ≤ before*blockSectors + j then buf (before*blockSectors+j-sector)
        else 0) :
      Buffered vdi sector next buf (some block)

inductive Recorded (start vdi : State) (acb : WriteAcb Data) : Prop
  | none (hfirst : acb.bmapFirst = none) (hheader : acb.headerModified = false)
      (hbuffer : acb.blockBuffer = none) (hsame : vdi = start)
  | some {first : Nat} (hfirst : acb.bmapFirst = some first) (hheader : acb.headerModified = true)
      (hbuffer : acb.blockBuffer.isSome) (hchanged : vdi.bmap first ≠ start.bmap first)
      (hmap : ∀ block, vdi.bmap block ≠ start.bmap block → first ≤ block ∧ block ≤ acb.bmapLast)

structure Progress (start : Image Data) (sector count : Nat) (buf : Nat → Data)
    (image : Image Data) (acb : WriteAcb Data) (done : Nat) : Prop where
  position : acb.sectorNum = sector+done
  left : acb.nbSectors+done = count
  data : acb.buf = fun i => buf (done+i)
  map : WellFormed image.vdi
  header : ∃ allocated,
    image.vdi.header = { start.vdi.header with blocksAllocated := allocated }
  shows : ∀ x, x/blockSectors < start.vdi.header.blocksInImage.toNat →
    content image.vdi image.file.data x =
      patch (content start.vdi start.file.data) sector done buf x
  edge : done = 0 ∨ (sector+done) % blockSectors = 0 ∨ done = count
  ahead : done < count → ∀ block, (sector+done) / blockSectors ≤ block →
    image.vdi.bmap block = start.vdi.bmap block
  file : image.file.header = start.file.header ∧ image.file.bmap = start.file.bmap
  buffer : done < count →
    Buffered start.vdi sector ((sector+done) / blockSectors) buf acb.blockBuffer
  recorded : Recorded start.vdi image.vdi acb

section Step

variable {start image : Image Data} {sector count done : Nat} {buf : Nat → Data}
  {acb : WriteAcb Data}

section

variable (h : Progress start sector count buf image acb done)
include h

theorem Progress.block_lt (hleft : done < count) (hin : sector+count ≤ image.vdi.totalSectors) :
    (sector+done) / blockSectors < image.vdi.header.blocksInImage.toNat := by
  have hdisk := h.map.disk
  rw [Nat.div_lt_iff_lt_mul (by decide)]
  omega

theorem Progress.blocks : image.vdi.header.blocksInImage = start.vdi.header.blocksInImage := by
  obtain ⟨allocated,heq⟩ := h.header
  rw [heq]

theorem Progress.totalSectors : image.vdi.totalSectors = start.vdi.totalSectors := by
  obtain ⟨allocated,heq⟩ := h.header
  rw [State.totalSectors,State.totalSectors,heq]

end

theorem edge_next (sector : Nat) (hleft : done < count) :
    let next := done + nextSectors (sector+done) (count-done)
    next < count → (sector+next) / blockSectors = (sector+done) / blockSectors + 1 ∧
      (sector+next) % blockSectors = 0 := by
  intro next hnext
  have hmin : next < count → nextSectors (sector+done) (count-done) =
      blockSectors - (sector+done) % blockSectors := by
    intro hlt
    simp only [next,nextSectors] at hlt ⊢
    omega
  have heq := hmin hnext
  simp only [next,heq,blockSectors]
  omega

theorem Buffered.extend {vdi : State} {next : Nat} {buffer : Option (Nat → Data)}
    (h : Buffered vdi sector next buf buffer) (hused : vdi.bmap next ≠ unallocated) :
    Buffered vdi sector (next+1) buf buffer := by
  cases h with
  | unused hall =>
    refine .unused fun block hlow hhi => ?_
    by_cases heq : block = next
    · rwa [heq]
    · exact hall block hlow (by omega)
  | holds hlow hhi hfree hall hblock =>
    refine .holds hlow (by omega) hfree (fun other habove hbelow => ?_) hblock
    by_cases heq : other = next
    · rwa [heq]
    · exact hall other habove (by omega)

theorem Progress.buffer_zero (h : Progress start sector count buf image acb done)
    (hleft : done < count) (hclean : CleanTail start.vdi sector count buf)
    (hfree : image.vdi.bmap ((sector+done) / blockSectors) = unallocated) (j : Nat)
    (hj : j < blockSectors)
    (hout : j < (sector+done) % blockSectors ∨ (sector+done) % blockSectors +
      nextSectors (sector+done) (count-done) ≤ j) : acb.blockBuffer.getD (fun _ => 0) j = 0 := by
  have hbuffer := h.buffer hleft
  generalize acb.blockBuffer = buffer at hbuffer
  cases hbuffer with
  | unused => rfl
  | @holds before block hlow hhi hfreeBefore hall hblock =>
    have hlast : start.vdi.bmap ((sector+done) / blockSectors) = unallocated := by
      rw [← h.ahead hleft _ (Nat.le_refl _)]
      exact hfree
    have hz : (sector+done) % blockSectors = 0 := by
      have hedge := h.edge
      simp only [blockSectors] at *
      omega
    have htail := hclean before _ hlow hhi hfreeBefore hlast hall
    have hstop : sector+count ≤ (sector+done) / blockSectors * blockSectors + j := by
      simp only [nextSectors,blockSectors] at *
      omega
    have hwithin : (sector+done) / blockSectors * blockSectors < sector+count := by
      simp only [blockSectors] at *
      omega
    change block j = 0
    rw [hblock j hj]
    split
    · exact htail hwithin j hj hstop ‹_›
    · rfl

theorem Progress.nbSectors (h : Progress start sector count buf image acb done) :
    acb.nbSectors = count-done := by
  have := h.left
  omega

section

variable (h : Progress start sector count buf image acb.advance done)
include h

theorem Progress.nSectors : acb.prepare.nSectors = nextSectors (sector+done) (count-done) := by
  change nextSectors acb.advance.sectorNum acb.advance.nbSectors = _
  rw [h.position,h.nbSectors]

theorem Progress.moved (hleft : done < count) (changed : WriteAcb Data)
    (hsector : changed.sectorNum = acb.prepare.sectorNum)
    (hnumber : changed.nbSectors = acb.prepare.nbSectors)
    (hn : changed.nSectors = acb.prepare.nSectors) (hbuf : changed.buf = acb.prepare.buf) :
    let next := done + nextSectors (sector+done) (count-done)
    changed.advance.sectorNum = sector+next ∧ changed.advance.nbSectors+next = count ∧
      changed.advance.buf = (fun i => buf (next+i)) ∧
      (next = 0 ∨ (sector+next) % blockSectors = 0 ∨ next = count) := by
  have hle := nextSectors_le (sector+done) (count-done)
  have hcount := h.nbSectors
  refine ⟨?_,?_,?_,?_⟩
  · change changed.sectorNum + changed.nSectors = _
    rw [hsector,hn,h.nSectors]
    change acb.advance.sectorNum + _ = _
    rw [h.position,Nat.add_assoc]
  · change changed.nbSectors - changed.nSectors + _ = count
    rw [hnumber,hn,h.nSectors]
    change acb.advance.nbSectors - _ + _ = count
    omega
  · change (fun i => changed.buf (changed.nSectors+i)) = _
    rw [hbuf,hn,h.nSectors]
    change (fun i => acb.advance.buf (_+i)) = _
    rw [h.data]
    funext i
    rw [Nat.add_assoc]
  · by_cases hlt : done + nextSectors (sector+done) (count-done) < count
    · exact .inr (.inl (edge_next sector hleft hlt).2)
    · omega

theorem Progress.step_direct (hleft : done < count) (hin : sector+count ≤ start.vdi.totalSectors)
    (hused : image.vdi.bmap ((sector+done) / blockSectors) ≠ unallocated) :
    Progress start sector count buf ⟨image.vdi,{ image.file with
        data := patch image.file.data
          ((image.vdi.bmap ((sector+done) / blockSectors)).toNat * blockSectors +
            (sector+done) % blockSectors)
          (nextSectors (sector+done) (count-done)) (fun i => buf (done+i)) }⟩
      acb.prepare.advance (done + nextSectors (sector+done) (count-done)) := by
  have hnext := edge_next sector hleft
  have hblock := h.block_lt hleft (h.totalSectors ▸ hin)
  obtain ⟨hsector,hcount,hbuf,hedge⟩ := h.moved hleft acb.prepare rfl rfl rfl rfl
  refine ⟨hsector,hcount,hbuf,h.map,h.header,?_,hedge,?_,h.file,?_,?_⟩
  · intro x hx
    have hxi : x/blockSectors < image.vdi.header.blocksInImage.toNat := by rwa [h.blocks]
    rw [content_direct h.map (nextSectors_block _ _) hblock hused hxi,patch_congr (h.shows x hx),
      patch_patch]
  · intro hlt block hge
    exact h.ahead hleft block (by omega)
  · intro hlt
    rw [(hnext hlt).1]
    exact (h.buffer hleft).extend (by rwa [← h.ahead hleft _ (Nat.le_refl _)])
  · cases h.recorded with
    | none hfirst hheader hbuffer hsame => exact .none hfirst hheader hbuffer hsame
    | some hfirst hheader hbuffer hchanged hmap =>
      exact .some hfirst hheader hbuffer hchanged hmap

end

theorem Progress.buffer_holds (h : Progress start sector count buf image acb done)
    (hleft : done < count) (hnext : done + nextSectors (sector+done) (count-done) < count)
    (j : Nat) (hj : j < blockSectors) :
    patch (acb.blockBuffer.getD fun _ => 0) ((sector+done) % blockSectors)
        (nextSectors (sector+done) (count-done)) (fun i => buf (done+i)) j =
      if sector ≤ (sector+done) / blockSectors * blockSectors + j then
        buf ((sector+done) / blockSectors * blockSectors + j - sector)
      else 0 := by
  have hfull : (sector+done) % blockSectors + nextSectors (sector+done) (count-done) =
      blockSectors := by
    simp only [nextSectors,blockSectors] at *
    omega
  by_cases hin : (sector+done) % blockSectors ≤ j
  · rw [patch_inside hin (by omega)]
    have hplace : (sector+done) / blockSectors * blockSectors + j - sector =
        done + (j - (sector+done) % blockSectors) := by
      simp only [blockSectors] at *
      omega
    rw [if_pos (by simp only [blockSectors] at *; omega),hplace]
  · have hedge := h.edge
    have hfirst : done = 0 := by omega
    subst hfirst
    rw [patch_outside (by omega),if_neg (by simp only [blockSectors] at *; omega)]
    have hbuffer := h.buffer hleft
    generalize acb.blockBuffer = buffer at hbuffer
    cases hbuffer with
    | unused => rfl
    | holds hlow hhi => exact absurd hhi (by rw [Nat.add_zero]; omega)

theorem Progress.step_allocate (h : Progress start sector count buf image acb.advance done)
    (hleft : done < count) (hin : sector+count ≤ start.vdi.totalSectors)
    (hclean : CleanTail start.vdi sector count buf)
    (hfree : image.vdi.bmap ((sector+done) / blockSectors) = unallocated) :
    let new := allocateBlock image.vdi acb.prepare
    Progress start sector count buf ⟨new.1,image.file.apply new.1 new.2.2⟩ new.2.1.advance
      (done + nextSectors (sector+done) (count-done)) := by
  intro new
  have hnext := edge_next sector hleft
  have hblock := h.block_lt hleft (h.totalSectors ▸ hin)
  have hne := h.map.allocated_ne hblock hfree
  have hstart : start.vdi.bmap ((sector+done) / blockSectors) = unallocated := by
    rw [← h.ahead hleft _ (Nat.le_refl _)]
    exact hfree
  have hposition : acb.prepare.sectorNum = sector+done := h.position
  have hdata : acb.prepare.buf = fun i => buf (done+i) := h.data
  have hmap : new.1 = image.vdi.allocate ((sector+done) / blockSectors) := by
    rw [← hposition]
    rfl
  have hsubmit : new.2.2 = .data (image.vdi.header.blocksAllocated.toNat*blockSectors) blockSectors
        (patch (acb.advance.blockBuffer.getD fun _ => 0) ((sector+done) % blockSectors)
          (nextSectors (sector+done) (count-done)) (fun i => buf (done+i))) := by
    rw [← h.nSectors,← hposition,← hdata]
    rfl
  have hnew : ∀ block, (image.vdi.allocate ((sector+done) / blockSectors)).bmap block ≠
      start.vdi.bmap block → block = (sector+done) / blockSectors ∨
        image.vdi.bmap block ≠ start.vdi.bmap block := by
    intro block hdiff
    by_cases heq : block = (sector+done) / blockSectors
    · exact .inl heq
    · exact .inr (by rwa [allocate_bmap_of_ne heq] at hdiff)
  have hbehind : ∀ block, image.vdi.bmap block ≠ start.vdi.bmap block →
      block < (sector+done) / blockSectors := by
    intro block hdiff
    by_contra hge
    exact hdiff (h.ahead hleft block (by omega))
  obtain ⟨hsector,hcount,hbuf,hedge⟩ := h.moved hleft new.2.1 rfl rfl rfl rfl
  rw [hmap,hsubmit]
  refine ⟨hsector,hcount,hbuf,h.map.allocate hblock hfree,?_,?_,hedge,?_,h.file,?_,?_⟩
  · obtain ⟨allocated,heq⟩ := h.header
    refine ⟨image.vdi.header.blocksAllocated+1,?_⟩
    change { image.vdi.header with blocksAllocated := image.vdi.header.blocksAllocated+1 } = _
    generalize image.vdi.header.blocksAllocated + 1 = next
    rw [heq]
  · intro x hx
    have hxi : x/blockSectors < image.vdi.header.blocksInImage.toNat := by rwa [h.blocks]
    have hz := h.buffer_zero hleft hclean hfree
    change content _ (patch image.file.data _ _ _) x = _
    rw [content_allocate h.map (nextSectors_block _ _) hblock hfree hz hxi,
      patch_congr (h.shows x hx),patch_patch]
  · intro hlt block hge
    have hdiff : block ≠ (sector+done) / blockSectors := by omega
    exact (allocate_bmap_of_ne hdiff).trans (h.ahead hleft block (by omega))
  · intro hlt
    rw [(hnext hlt).1]
    have hblockBuffer : new.2.1.advance.blockBuffer =
        some (patch (acb.advance.blockBuffer.getD fun _ => 0) ((sector+done) % blockSectors)
          (nextSectors (sector+done) (count-done)) (fun i => buf (done+i))) := by
      rw [← h.nSectors,← hposition,← hdata]
      rfl
    rw [hblockBuffer]
    exact .holds (Nat.div_le_div_right (Nat.le_add_right _ _)) (Nat.lt_succ_self _) hstart
      (fun other habove hbelow => by omega) (h.buffer_holds hleft hlt)
  · have hlast : new.2.1.advance.bmapLast = (sector+done) / blockSectors := by
      rw [← hposition]
      rfl
    have hself : (image.vdi.allocate ((sector+done) / blockSectors)).bmap
        ((sector+done) / blockSectors) ≠ start.vdi.bmap ((sector+done) / blockSectors) := by
      rw [allocate_bmap_self,hstart]
      exact hne
    cases h.recorded with
    | none hfirst hheader hbuffer hsame =>
      have hfirstNew : new.2.1.advance.bmapFirst = some ((sector+done) / blockSectors) := by
        change (if acb.advance.blockBuffer.isNone then some _ else _) = _
        rw [hbuffer,← hposition]
        rfl
      have hheaderNew : new.2.1.advance.headerModified = true := by
        change (acb.advance.blockBuffer.isNone || _) = true
        rw [hbuffer]
        rfl
      refine .some hfirstNew hheaderNew rfl hself fun block hdiff => ?_
      rcases hnew block hdiff with heq | hold
      · omega
      · exact absurd (by rw [hsame]) hold
    | @some first hfirst hheader hbuffer hchanged hrange =>
      have hnone : acb.advance.blockBuffer.isNone = false := by
        rw [isNone_eq_false_iff]
        exact hbuffer
      have hfirstNew : new.2.1.advance.bmapFirst = some first := by
        change (if acb.advance.blockBuffer.isNone then some _ else acb.advance.bmapFirst) = _
        rw [hnone,hfirst]
        rfl
      have hheaderNew : new.2.1.advance.headerModified = true := by
        change (acb.advance.blockBuffer.isNone || acb.advance.headerModified) = true
        rw [hheader,Bool.or_true]
      have hfirstLt := hbehind first hchanged
      refine .some hfirstNew hheaderNew rfl ?_ fun block hdiff => ?_
      · rw [allocate_bmap_of_ne (by omega)]
        exact hchanged
      · rw [hlast]
        rcases hnew block hdiff with heq | hold
        · omega
        have hlow := (hrange block hold).1
        have hhi := hbehind block hold
        omega

end Step

section Open

/-- The checks of `vdi_open`. -/
def Accepted (header : Header) : Prop :=
  header.version = 0x00010001#32 ∧ header.offsetBmap.toNat%sectorSize = 0 ∧
    header.offsetData.toNat%sectorSize = 0 ∧ header.headerSectorSize.toNat = sectorSize ∧
    header.blockSize.toNat = blockSectors*sectorSize ∧
    header.diskSize.toNat ≤ header.blocksInImage.toNat*header.blockSize.toNat ∧
    header.uuidLink = 0 ∧ header.uuidParent = 0

omit [Zero Data] in
theorem vdiOpen_eq_some {file : File Data} {vdi : State} :
    vdiOpen file = some vdi ↔
      Accepted (roundDiskSize file.header) ∧ vdi = ⟨roundDiskSize file.header,file.bmap⟩ := by
  simp [vdiOpen,Accepted,ite_none_left_eq_some,and_assoc,eq_comm (a := vdi)]

theorem roundDiskSize_mod (header : Header) :
    (roundDiskSize header).diskSize.toNat % sectorSize = 0 := by
  unfold roundDiskSize
  split
  · apply Nat.eq_of_testBit_eq
    intro i
    rw [show sectorSize = 2 ^ 9 from rfl,Nat.testBit_mod_two_pow,Nat.zero_testBit]
    by_cases hi : i < 9
    · have hall : ∀ k : Fin 9, (~~~ 511#64).getLsbD k = false := by decide
      have hlow := hall ⟨i,hi⟩
      rw [BitVec.testBit_toNat,BitVec.getLsbD_and,hlow,Bool.and_false,Bool.and_false]
    · simp [hi]
  · rename_i h
    exact not_not.mp h

theorem roundDiskSize_of_mod {header : Header} (h : header.diskSize.toNat%sectorSize = 0) :
    roundDiskSize header = header :=
  if_neg (not_not.mpr h)

omit [Zero Data] in
theorem vdiOpen_again {file changed : File Data} {vdi : State} {allocated : BitVec 32}
    (hopen : vdiOpen file = some vdi)
    (hheader : changed.header = { vdi.header with blocksAllocated := allocated }) :
    vdiOpen changed = some ⟨changed.header,changed.bmap⟩ := by
  obtain ⟨haccept,rfl⟩ := vdiOpen_eq_some.mp hopen
  have hround : roundDiskSize changed.header = changed.header := by
    apply roundDiskSize_of_mod
    rw [hheader]
    exact roundDiskSize_mod file.header
  rw [vdiOpen_eq_some,hround]
  refine ⟨?_,rfl⟩
  rw [hheader]
  exact haccept

omit [Zero Data] in
theorem totalSectors_le {file : File Data} {vdi : State} (hopen : vdiOpen file = some vdi) :
    vdi.totalSectors ≤ vdi.header.blocksInImage.toNat*blockSectors := by
  obtain ⟨⟨_,_,_,_,hblock,hdisk,_⟩,rfl⟩ := vdiOpen_eq_some.mp hopen
  rw [hblock] at hdisk
  simp only [State.totalSectors,sectorSize,blockSectors] at *
  omega

end Open

section Write

variable {start image : Image Data} {sector count done : Nat} {buf : Nat → Data}
  {acb : WriteAcb Data}

/-- The state of an image between requests: what is open is what the file says. -/
structure Closed (image : Image Data) : Prop where
  opens : vdiOpen image.file = some image.vdi
  map : WellFormed image.vdi

structure Wrote (start : Image Data) (sector count : Nat) (buf : Nat → Data)
    (image : Image Data) : Prop where
  closed : Closed image
  total : image.vdi.totalSectors = start.vdi.totalSectors
  shows : ∀ x < start.vdi.totalSectors, content image.vdi image.file.data x =
    patch (content start.vdi start.file.data) sector count buf x

omit [Zero Data] in
theorem patch_bmap {file vdi : Nat → BitVec 32} {first last : Nat}
    (h : ∀ block, vdi block ≠ file block → first ≤ block ∧ block ≤ last) :
    patch file (first/sectorEntries*sectorEntries)
      ((last/sectorEntries-first/sectorEntries+1) * sectorEntries)
      (fun i => vdi (first/sectorEntries*sectorEntries+i)) = vdi := by
  funext block
  unfold patch
  split
  · rename_i hin
    exact congrArg vdi (Nat.add_sub_cancel' hin.1)
  · rename_i hout
    by_contra hne
    have hrange := h block (Ne.symm hne)
    simp only [sectorEntries] at hout
    omega

theorem Progress.finish (hopen : vdiOpen start.file = some start.vdi)
    (h : Progress start sector count buf image acb.advance count) (fuel : Nat) :
    ∃ final, writeLoop (fuel+3) image acb = some final ∧ Wrote start sector count buf final := by
  have hshows : ∀ x < start.vdi.totalSectors, content image.vdi image.file.data x =
      patch (content start.vdi start.file.data) sector count buf x := by
    intro x hx
    apply h.shows
    rw [Nat.div_lt_iff_lt_mul (by decide)]
    exact Nat.lt_of_lt_of_le hx (totalSectors_le hopen)
  have hdone : acb.advance.nbSectors = 0 := by
    have := h.nbSectors
    omega
  have hbitmap : start.file.bmap = start.vdi.bmap := by
    rw [(vdiOpen_eq_some.mp hopen).2]
  cases h.recorded with
  | none hfirst hheader _ hsame =>
    have hloop : writeLoop (fuel+3) image acb = some image := by
      rw [writeLoop,vdiAioWriteCb_finish hdone,finishWrite]
      simp [hfirst,hheader]
    refine ⟨image,hloop,⟨?_,h.map⟩,h.totalSectors,hshows⟩
    rw [vdiOpen_eq_some,h.file.1,h.file.2,hsame]
    exact vdiOpen_eq_some.mp hopen
  | @some first hfirst hheader _ _ hmap =>
    have hloop : writeLoop (fuel+3) image acb = some ⟨image.vdi,
        ⟨image.vdi.header,image.vdi.bmap,image.file.data⟩⟩ := by
      have hrange : ∀ block, image.vdi.bmap block ≠ image.file.bmap block →
          first ≤ block ∧ block ≤ acb.advance.bmapLast := by
        rw [h.file.2,hbitmap]
        exact hmap
      rw [writeLoop,vdiAioWriteCb_finish hdone,finishWrite]
      simp only [hheader,if_true]
      rw [writeLoop,vdiAioWriteCb_finish (by simpa [WriteAcb.advance] using hdone),finishWrite]
      simp only [WriteAcb.advance] at hfirst
      simp only [WriteAcb.advance,hfirst,Bool.false_eq_true,if_false]
      rw [writeLoop,vdiAioWriteCb_finish (by simpa [WriteAcb.advance] using hdone),finishWrite]
      simp only [WriteAcb.advance,Bool.false_eq_true,if_false,File.apply]
      have hpatch := patch_bmap hrange
      simp only [WriteAcb.advance] at hpatch
      rw [hpatch]
    obtain ⟨allocated,hheaderEq⟩ := h.header
    refine ⟨_,hloop,⟨vdiOpen_again hopen hheaderEq,h.map⟩,h.totalSectors,hshows⟩

theorem Progress.loop (hopen : vdiOpen start.file = some start.vdi)
    (hin : sector+count ≤ start.vdi.totalSectors) (hclean : CleanTail start.vdi sector count buf)
    (h : Progress start sector count buf image acb.advance done) {fuel : Nat}
    (hfuel : count-done+3 ≤ fuel) :
    ∃ final, writeLoop fuel image acb = some final ∧ Wrote start sector count buf final := by
  induction hleft : count - done using Nat.strong_induction_on
    generalizing image acb done fuel with
  | _ left ih =>
    obtain ⟨fuel,rfl⟩ : ∃ less, fuel = less+3 := ⟨fuel-3,by omega⟩
    have hcount := h.left
    by_cases hend : done = count
    · subst hend
      exact h.finish hopen fuel
    · have hlt : done < count := by omega
      have hnumber : acb.advance.nbSectors ≠ 0 := by omega
      have hpos := nextSectors_pos (sector+done) (by omega : count-done ≠ 0)
      have hblock : acb.advance.sectorNum/blockSectors = (sector+done) / blockSectors := by
        rw [h.position]
      by_cases hfree : image.vdi.bmap ((sector+done) / blockSectors) = unallocated
      · have hnext := h.step_allocate hlt hin hclean hfree
        rw [writeLoop,vdiAioWriteCb_allocate hnumber (by rwa [hblock])]
        exact ih _ (by omega) hnext (by omega) rfl
      · have hnext := h.step_direct hlt hin hfree
        rw [writeLoop,vdiAioWriteCb_direct hnumber (by rwa [hblock]),h.position,h.nSectors,h.data]
        exact ih _ (by omega) hnext (by omega) rfl

theorem vdiAioWritev_wrote (himage : Closed image) (hin : sector+count ≤ image.vdi.totalSectors)
    (hclean : CleanTail image.vdi sector count buf) :
    ∃ final, vdiAioWritev image sector count buf = some final ∧
      Wrote image sector count buf final := by
  have hstart : Progress image sector count buf image (vdiAioSetup sector count buf).advance 0 := by
    refine ⟨rfl,rfl,?_,himage.map,⟨_,rfl⟩,?_,.inl rfl,fun _ _ _ => rfl,⟨rfl,rfl⟩,?_,
      .none rfl rfl rfl rfl⟩
    · rfl
    · intro x _
      rw [patch_outside (by omega)]
    · intro _
      exact .unused fun block hlow hhi => absurd hhi (by rw [Nat.add_zero]; omega)
  exact hstart.loop himage.opens hin hclean (by omega)

end Write

section Read

variable {image : Image Data}

theorem read_part (sectorNum nbSectors : Nat) :
    (if image.vdi.bmap (sectorNum/blockSectors) = unallocated then
        List.replicate (nextSectors sectorNum nbSectors) 0
      else (List.range (nextSectors sectorNum nbSectors)).map fun i => image.file.data
        ((image.vdi.bmap (sectorNum/blockSectors)).toNat * blockSectors +
          sectorNum%blockSectors+i)) =
      (List.range (nextSectors sectorNum nbSectors)).map fun i =>
        content image.vdi image.file.data (sectorNum+i) := by
  have hblock : ∀ i < nextSectors sectorNum nbSectors,
      (sectorNum+i) / blockSectors = sectorNum/blockSectors ∧
        (sectorNum+i) % blockSectors = sectorNum%blockSectors+i := by
    intro i hi
    simp only [nextSectors,blockSectors] at *
    omega
  split
  · rename_i hfree
    apply ext_getElem
    · simp
    intro i hi _
    rw [length_replicate] at hi
    have hz : content image.vdi image.file.data (sectorNum+i) = 0 :=
      content_of_unallocated (by rw [(hblock i hi).1,hfree])
    simp [hz]
  · rename_i hused
    apply map_congr_left
    intro i hi
    obtain ⟨hdiv,hmod⟩ := hblock i (mem_range.mp hi)
    rw [content_of_allocated (by rwa [hdiv]),hdiv,hmod,Nat.add_assoc]

theorem readLoop_eq {fuel sectorNum nbSectors : Nat} (hfuel : nbSectors < fuel) :
    readLoop fuel image sectorNum nbSectors =
      some ((List.range nbSectors).map fun i => content image.vdi image.file.data (sectorNum+i))
    := by
  induction fuel generalizing sectorNum nbSectors with
  | zero => omega
  | succ fuel ih =>
    by_cases hnone : nbSectors = 0
    · subst hnone
      rfl
    · have hpos := nextSectors_pos sectorNum hnone
      have hle := nextSectors_le sectorNum nbSectors
      rw [readLoop,if_neg hnone]
      dsimp only
      rw [ih (by omega),read_part,map_some]
      have hsplit : List.range nbSectors = List.range (nextSectors sectorNum nbSectors) ++
          (List.range (nbSectors - nextSectors sectorNum nbSectors)).map
            (nextSectors sectorNum nbSectors + ·) := by
        rw [← range_add,Nat.add_sub_cancel' hle]
      rw [hsplit,map_append,List.map_map]
      simp [Function.comp_def,Nat.add_assoc]

theorem vdiAioReadv_eq (sectorNum nbSectors : Nat) :
    vdiAioReadv image sectorNum nbSectors = some ((List.range nbSectors).map fun i =>
      content image.vdi image.file.data (sectorNum+i)) :=
  readLoop_eq (Nat.lt_succ_self _)

end Read

structure World (Data : Type) where
  image : Image Data
  expected : Nat → Data

inductive Op (Data : Type) where
  | write (sectorNum nbSectors : Nat) (buf : Nat → Data)
  | reopen

/-- Requests that reach beyond the end of the disk are refused above the driver. -/
def World.step (world : World Data) : Op Data → Option (World Data)
  | .write sectorNum nbSectors buf =>
    if sectorNum + nbSectors ≤ world.image.vdi.totalSectors then
      (vdiAioWritev world.image sectorNum nbSectors buf).map fun image =>
        ⟨image,patch world.expected sectorNum nbSectors buf⟩
    else none
  | .reopen => (vdiOpen world.image.file).map fun vdi => { world with image.vdi := vdi }

def World.opened (file : File Data) (vdi : State) : World Data :=
  ⟨⟨vdi,file⟩,content vdi file.data⟩

/-- Every read returns what its sectors should hold, and no request is lost. -/
structure World.Reads (world : World Data) : Prop where
  reads : ∀ sectorNum nbSectors, sectorNum+nbSectors ≤ world.image.vdi.totalSectors →
    vdiAioReadv world.image sectorNum nbSectors =
      some ((List.range nbSectors).map fun i => world.expected (sectorNum+i))
  completes : ∀ sectorNum nbSectors buf, sectorNum+nbSectors ≤ world.image.vdi.totalSectors →
    CleanTail world.image.vdi sectorNum nbSectors buf →
    (vdiAioWritev world.image sectorNum nbSectors buf).isSome
  opens : (vdiOpen world.image.file).isSome

def World.Clean (world : World Data) : Op Data → Prop
  | .write sectorNum nbSectors buf => CleanTail world.image.vdi sectorNum nbSectors buf
  | .reopen => True

structure World.Inv (world : World Data) : Prop where
  closed : Closed world.image
  shows : ∀ x < world.image.vdi.totalSectors,
    content world.image.vdi world.image.file.data x = world.expected x

theorem World.Inv.reads {world : World Data} (h : world.Inv) : world.Reads := by
  refine ⟨fun sectorNum nbSectors hin => ?_,fun sectorNum nbSectors buf hin hclean => ?_,
    by simp [h.closed.opens]⟩
  · rw [vdiAioReadv_eq,some_inj]
    apply map_congr_left
    intro i hi
    exact h.shows _ (by have := mem_range.mp hi; omega)
  · obtain ⟨final,hfinal,_⟩ := vdiAioWritev_wrote h.closed hin hclean
    rw [hfinal,isSome_some]

theorem World.Inv.step {world next : World Data} {op : Op Data} (h : world.Inv)
    (hclean : world.Clean op) (hs : world.step op = some next) : next.Inv := by
  cases op with
  | write sectorNum nbSectors buf =>
    rw [World.step,ite_none_right_eq_some] at hs
    obtain ⟨hin,hs⟩ := hs
    obtain ⟨final,hfinal,hwrote⟩ := vdiAioWritev_wrote h.closed hin hclean
    rw [hfinal,map_some,some_inj] at hs
    subst hs
    refine ⟨hwrote.closed,fun x hx => ?_⟩
    rw [hwrote.total] at hx
    exact (hwrote.shows x hx).trans (patch_congr (h.shows x hx))
  | reopen =>
    rw [World.step,h.closed.opens,map_some,some_inj] at hs
    subst hs
    exact h

/-- If writes leave no data of another block behind, every read returns the data written last. -/
theorem World.reads_of_clean (file : File Data) (vdi : State) (hopen : vdiOpen file = some vdi)
    (hmap : WellFormed vdi) (ops : List (Op Data))
    (hclean : Meets World.step World.Clean (World.opened file vdi) ops) :
    Always World.step World.Reads (World.opened file vdi) ops := by
  have hinv : (World.opened file vdi).Inv := ⟨⟨hopen,hmap⟩,fun _ _ => rfl⟩
  exact (always_of_meets (fun _ _ _ h hc hs => h.step hc hs) hinv hclean).imp fun _ h => h.reads

def smallHeader : Header :=
  ⟨0x00010001#32,512#32,1024#32,512#32,0x400000#64,0x100000#32,4#32,0#32,0#128,0#128⟩

def emptyFile : File Nat := ⟨smallHeader,fun _ => unallocated,fun _ => 0⟩

def emptyState : State := ⟨smallHeader,fun _ => unallocated⟩

theorem emptyState_wellFormed : WellFormed emptyState := by
  refine ⟨by decide,fun _ _ h => absurd rfl h,fun _ _ _ _ h => absurd rfl h,?_⟩
  exact Nat.le_trans (Nat.add_le_add_right (Finset.card_filter_le _ _) _)
    (Nat.le_of_eq (Finset.card_range _))

/-- A write of the end of one new block and all of the next, and one more after the image was
opened again. -/
theorem World.reads_of_clean_twoBlocks :
    vdiOpen emptyFile = some emptyState ∧
      Always World.step World.Reads (World.opened emptyFile emptyState)
        [.write 2047 2049 fun i => i + 1, .reopen, .write 4100 1 fun _ => 7] := by
  have hopen : vdiOpen emptyFile = some emptyState := rfl
  refine ⟨hopen,World.reads_of_clean emptyFile emptyState hopen emptyState_wellFormed _ ?_⟩
  refine fun _ _ => ⟨?_,fun _ _ => ⟨trivial,fun _ _ => ⟨?_,trivial⟩⟩⟩
  · intro before last _ _ _ _ _ hlast j hj hend
    simp only [blockSectors] at hlast hj hend
    omega
  · intro before last hlow hlt _ _ _ hlast
    simp only [blockSectors] at hlow hlast
    omega

/-- Two new blocks are written in part, and the second one ends with data of the first. -/
theorem write_leaves_old_data :
    vdiOpen emptyFile = some emptyState ∧ WellFormed emptyState ∧
      ¬ Always World.step World.Reads (World.opened emptyFile emptyState)
        [.write 2047 2 fun _ => 1] := by
  refine ⟨rfl,emptyState_wellFormed,fun halways => ?_⟩
  have hreads := (halways.2 _ rfl).reads 4095 1 (by decide)
  revert hreads
  decide

end Hqemu.Block.Vdi
