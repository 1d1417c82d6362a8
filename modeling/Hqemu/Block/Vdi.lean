import Hqemu.Lib.Patch
import Hqemu.Lib.Run
import Mathlib.Data.Finset.Card
import Mathlib.Algebra.Ring.Nat

/-! Images of the format of `block/vdi.c`. Sectors are the unit. -/
namespace Hqemu.Block.Vdi

open Function Lib.Patch

def sectorSize : Nat := 512

/-- `s->block_sectors`: `vdi_open` takes images with blocks of one MiB only. -/
def blockSectors : Nat := 2048

def unallocated : BitVec 32 := 0xffffffff#32

def sectorEntries : Nat := 128

structure Header where
  version : BitVec 32
  offsetBmap : BitVec 32
  offsetData : BitVec 32
  headerSectorSize : BitVec 32
  diskSize : BitVec 64
  blockSize : BitVec 32
  blocksInImage : BitVec 32
  blocksAllocated : BitVec 32
  uuidLink : BitVec 128
  uuidParent : BitVec 128
deriving DecidableEq, Repr

structure State where
  header : Header
  bmap : Nat → BitVec 32

/-- The image file. `data` starts at `offset_data`. -/
structure File (Data : Type) where
  header : Header
  bmap : Nat → BitVec 32
  data : Nat → Data

def roundDiskSize (header : Header) : Header :=
  if header.diskSize.toNat % sectorSize ≠ 0 then
    { header with diskSize := (header.diskSize+511#64) &&& ~~~ 511#64 }
  else header

def vdiOpen {Data : Type} (file : File Data) : Option State :=
  let header := roundDiskSize file.header
  if header.version ≠ 0x00010001#32 then none
  else if header.offsetBmap.toNat % sectorSize ≠ 0 then none
  else if header.offsetData.toNat % sectorSize ≠ 0 then none
  else if header.headerSectorSize.toNat ≠ sectorSize then none
  else if header.blockSize.toNat ≠ blockSectors * sectorSize then none
  else if header.diskSize.toNat > header.blocksInImage.toNat*header.blockSize.toNat then none
  else if header.uuidLink ≠ 0 then none
  else if header.uuidParent ≠ 0 then none
  else some ⟨header,file.bmap⟩

def State.totalSectors (vdi : State) : Nat := vdi.header.diskSize.toNat/sectorSize

/-- `VdiAIOCB` of a write. `buf` starts at the current position, and `VDI_UNALLOCATED` in
`bmap_first` is `none`. -/
structure WriteAcb (Data : Type) where
  sectorNum : Nat
  nbSectors : Nat
  nSectors : Nat
  buf : Nat → Data
  bmapFirst : Option Nat
  bmapLast : Nat
  blockBuffer : Option (Nat → Data)
  headerModified : Bool

inductive Submit (Data : Type) where
  | data (offset count : Nat) (content : Nat → Data)
  | header (header : Header)
  | bmap (first count : Nat)

variable {Data : Type}

def vdiAioSetup (sectorNum nbSectors : Nat) (buf : Nat → Data) : WriteAcb Data :=
  ⟨sectorNum,nbSectors,0,buf,none,0,none,false⟩

def WriteAcb.advance (acb : WriteAcb Data) : WriteAcb Data :=
  { acb with
    nbSectors := acb.nbSectors-acb.nSectors
    sectorNum := acb.sectorNum+acb.nSectors
    buf := fun i => acb.buf (acb.nSectors+i) }

/-- What is left to be done when all data is written: the header, then the changed part of the
block map. -/
def finishWrite (vdi : State) (acb : WriteAcb Data) : WriteAcb Data × Option (Submit Data) :=
  let acb := { acb with nSectors := 0 }
  if acb.headerModified then
    ({ acb with headerModified := false },some (.header vdi.header))
  else
    match acb.bmapFirst with
    | some bmapFirst =>
      let first := bmapFirst/sectorEntries
      let last := acb.bmapLast/sectorEntries
      ({ acb with blockBuffer := none, bmapFirst := none },some (.bmap first (last-first+1)))
    | none => (acb,none)

def nextSectors (sectorNum nbSectors : Nat) : Nat :=
  min (blockSectors-sectorNum%blockSectors) nbSectors

def State.allocate (vdi : State) (blockIndex : Nat) : State :=
  { header := { vdi.header with blocksAllocated := vdi.header.blocksAllocated+1 }
    bmap := Function.update vdi.bmap blockIndex vdi.header.blocksAllocated }

def allocateBlock [Zero Data] (vdi : State) (acb : WriteAcb Data) :
    State × WriteAcb Data × Submit Data :=
  let blockIndex := acb.sectorNum/blockSectors
  let bmapEntry := vdi.header.blocksAllocated
  let fresh := acb.blockBuffer.isNone
  let block := patch (acb.blockBuffer.getD fun _ => 0) (acb.sectorNum%blockSectors)
    acb.nSectors acb.buf
  let acb :=
    { acb with
      blockBuffer := some block
      bmapFirst := if fresh then some blockIndex else acb.bmapFirst
      headerModified := fresh || acb.headerModified
      bmapLast := blockIndex }
  (vdi.allocate blockIndex,acb,.data (bmapEntry.toNat*blockSectors) blockSectors block)

/-- `vdi_aio_write_cb` when the last write succeeded. Without a write to submit the request is
complete. -/
def vdiAioWriteCb [Zero Data] (vdi : State) (acb : WriteAcb Data) :
    State × WriteAcb Data × Option (Submit Data) :=
  let acb := acb.advance
  if acb.nbSectors = 0 then (vdi,finishWrite vdi acb)
  else
    let acb := { acb with nSectors := nextSectors acb.sectorNum acb.nbSectors }
    let bmapEntry := vdi.bmap (acb.sectorNum/blockSectors)
    if bmapEntry = unallocated then
      let (vdi,acb,submit) := allocateBlock vdi acb
      (vdi,acb,some submit)
    else
      (vdi,acb,some (.data (bmapEntry.toNat*blockSectors+acb.sectorNum%blockSectors)
        acb.nSectors acb.buf))

def File.apply (file : File Data) (vdi : State) : Submit Data → File Data
  | .data offset count content => { file with data := patch file.data offset count content }
  | .header header => { file with header := header }
  | .bmap first count =>
    { file with
      bmap := patch file.bmap (first*sectorEntries) (count*sectorEntries)
        (fun i => vdi.bmap (first*sectorEntries+i)) }

structure Image (Data : Type) where
  vdi : State
  file : File Data

def writeLoop [Zero Data] : Nat → Image Data → WriteAcb Data → Option (Image Data)
  | 0, _, _ => none
  | fuel+1, image, acb =>
    match vdiAioWriteCb image.vdi acb with
    | (vdi,_,none) => some { image with vdi := vdi }
    | (vdi,acb,some submit) => writeLoop fuel ⟨vdi,image.file.apply vdi submit⟩ acb

/-- `vdi_aio_writev`. Each round but three writes a sector at least. -/
def vdiAioWritev [Zero Data] (image : Image Data) (sectorNum nbSectors : Nat)
    (buf : Nat → Data) : Option (Image Data) :=
  writeLoop (nbSectors+3) image (vdiAioSetup sectorNum nbSectors buf)

/-- `vdi_aio_read_cb` until the request is complete: `nbSectors` sectors are left. A block
without a place reads as zeros. -/
def readLoop [Zero Data] : Nat → Image Data → Nat → Nat → Option (List Data)
  | 0, _, _, _ => none
  | fuel+1, image, sectorNum, nbSectors =>
    if nbSectors = 0 then some []
    else
      let nSectors := nextSectors sectorNum nbSectors
      let bmapEntry := image.vdi.bmap (sectorNum/blockSectors)
      let part :=
        if bmapEntry = unallocated then List.replicate nSectors 0
        else (List.range nSectors).map fun i =>
          image.file.data (bmapEntry.toNat*blockSectors+sectorNum%blockSectors+i)
      (readLoop fuel image (sectorNum+nSectors) (nbSectors-nSectors)).map (part ++ ·)

def vdiAioReadv [Zero Data] (image : Image Data) (sectorNum nbSectors : Nat) :
    Option (List Data) :=
  readLoop (nbSectors+1) image sectorNum nbSectors

/-- What the disk holds: the data of the blocks in the map, and zeros elsewhere. -/
def content [Zero Data] (vdi : State) (data : Nat → Data) (sector : Nat) : Data :=
  let bmapEntry := vdi.bmap (sector/blockSectors)
  if bmapEntry = unallocated then 0
  else data (bmapEntry.toNat*blockSectors+sector%blockSectors)

/-- The block map of an image: blocks have different places, all of them below
`blocks_allocated`, and that counts the blocks that have one. -/
structure WellFormed (vdi : State) : Prop where
  disk : vdi.totalSectors ≤ vdi.header.blocksInImage.toNat*blockSectors
  below : ∀ block < vdi.header.blocksInImage.toNat, vdi.bmap block ≠ unallocated →
    (vdi.bmap block).toNat < vdi.header.blocksAllocated.toNat
  apart : ∀ block < vdi.header.blocksInImage.toNat, ∀ other < vdi.header.blocksInImage.toNat,
    vdi.bmap block ≠ unallocated → vdi.bmap block = vdi.bmap other → block = other
  room : ((Finset.range vdi.header.blocksInImage.toNat).filter
      fun block => vdi.bmap block = unallocated).card + vdi.header.blocksAllocated.toNat ≤
    vdi.header.blocksInImage.toNat

section Map

variable {vdi : State} {block : Nat}

section

variable (hvdi : WellFormed vdi) (hblock : block < vdi.header.blocksInImage.toNat)
  (hfree : vdi.bmap block = unallocated)
include hvdi hblock hfree

theorem WellFormed.allocated_lt :
    vdi.header.blocksAllocated.toNat < vdi.header.blocksInImage.toNat := by
  have hcard : 0 < ((Finset.range vdi.header.blocksInImage.toNat).filter
      fun block => vdi.bmap block = unallocated).card :=
    Finset.card_pos.mpr ⟨block,Finset.mem_filter.mpr ⟨Finset.mem_range.mpr hblock,hfree⟩⟩
  have hroom := hvdi.room
  omega

theorem WellFormed.allocated_ne : vdi.header.blocksAllocated ≠ unallocated := by
  intro heq
  have hlt := hvdi.allocated_lt hblock hfree
  rw [heq] at hlt
  have hmax : unallocated.toNat = 2^32-1 := by decide
  omega

theorem WellFormed.allocated_succ :
    (vdi.header.blocksAllocated+1).toNat = vdi.header.blocksAllocated.toNat+1 := by
  have hlt := hvdi.allocated_lt hblock hfree
  have hone : (1 : BitVec 32).toNat = 1 := rfl
  rw [BitVec.toNat_add,hone,Nat.mod_eq_of_lt (by omega)]

end

@[simp] theorem allocate_bmap_self : (vdi.allocate block).bmap block = vdi.header.blocksAllocated :=
  update_self _ _ _

theorem allocate_bmap_of_ne {other : Nat} (h : other ≠ block) :
    (vdi.allocate block).bmap other = vdi.bmap other :=
  update_of_ne h _ _

theorem WellFormed.allocate (hvdi : WellFormed vdi) (hblock : block <
    vdi.header.blocksInImage.toNat)
    (hfree : vdi.bmap block = unallocated) : WellFormed (vdi.allocate block) := by
  have hne := hvdi.allocated_ne hblock hfree
  have hsucc := hvdi.allocated_succ hblock hfree
  have hother : ∀ other < vdi.header.blocksInImage.toNat, other ≠ block →
      vdi.bmap other ≠ vdi.header.blocksAllocated := by
    intro other hlt _ heq
    have hbelow := hvdi.below other hlt (heq ▸ hne)
    rw [heq] at hbelow
    omega
  refine ⟨hvdi.disk,?_,?_,?_⟩
  · intro other hlt hused
    simp only [State.allocate,update_apply] at hused ⊢
    split
    · omega
    rename_i hdiff
    rw [if_neg hdiff] at hused
    have := hvdi.below other hlt hused
    omega
  · intro first hfirst second hsound hused heq
    simp only [State.allocate,update_apply] at hused heq
    by_cases hone : first = block
    · by_cases htwo : second = block
      · rw [hone,htwo]
      · rw [if_pos hone,if_neg htwo] at heq
        exact absurd heq.symm (hother second hsound htwo)
    · rw [if_neg hone] at hused heq
      by_cases htwo : second = block
      · rw [if_pos htwo] at heq
        exact absurd heq (hother first hfirst hone)
      · rw [if_neg htwo] at heq
        exact hvdi.apart first hfirst second hsound hused heq
  · have hfilter : ((Finset.range vdi.header.blocksInImage.toNat).filter
        fun other => (vdi.allocate block).bmap other = unallocated) =
        ((Finset.range vdi.header.blocksInImage.toNat).filter
          fun other => vdi.bmap other = unallocated).erase block := by
      ext other
      simp only [State.allocate,update_apply,Finset.mem_filter,Finset.mem_erase]
      by_cases heq : other = block
      · simp [heq,hne]
      · simp [heq]
    have hmem : block ∈ (Finset.range vdi.header.blocksInImage.toNat).filter
        fun other => vdi.bmap other = unallocated :=
      Finset.mem_filter.mpr ⟨Finset.mem_range.mpr hblock,hfree⟩
    have hroom := hvdi.room
    have hpos := Finset.card_pos.mpr ⟨block,hmem⟩
    change (((Finset.range vdi.header.blocksInImage.toNat).filter
        fun other => (vdi.allocate block).bmap other = unallocated)).card +
      (vdi.header.blocksAllocated+1).toNat ≤ vdi.header.blocksInImage.toNat
    rw [hfilter,Finset.card_erase_of_mem hmem,hsucc]
    omega

end Map

section Content

variable [Zero Data] {vdi : State} {data : Nat → Data} {sector count : Nat} {buf : Nat → Data}

theorem content_of_unallocated (h : vdi.bmap (sector/blockSectors) = unallocated) :
    content vdi data sector = 0 :=
  if_pos h

theorem content_of_allocated (h : vdi.bmap (sector/blockSectors) ≠ unallocated) :
    content vdi data sector =
      data ((vdi.bmap (sector/blockSectors)).toNat * blockSectors + sector%blockSectors) :=
  if_neg h

theorem ne_toNat {first second : BitVec 32} (h : first ≠ second) : first.toNat ≠ second.toNat :=
  fun heq => h (BitVec.eq_of_toNat_eq heq)

section

variable (hvdi : WellFormed vdi) (hcount : sector % blockSectors + count ≤ blockSectors)
  (hblock : sector / blockSectors < vdi.header.blocksInImage.toNat)
include hvdi hcount hblock

theorem content_direct (hused : vdi.bmap (sector/blockSectors) ≠ unallocated) {x : Nat}
    (hx : x/blockSectors < vdi.header.blocksInImage.toNat) :
    content vdi (patch data ((vdi.bmap (sector/blockSectors)).toNat * blockSectors +
      sector%blockSectors) count buf) x = patch (content vdi data) sector count buf x := by
  by_cases hsame : x/blockSectors = sector/blockSectors
  · rw [content_of_allocated (hsame ▸ hused),hsame,patch_shift sector x (by
      simp only [blockSectors] at *
      omega)]
    exact patch_congr (hsame ▸ (content_of_allocated (hsame ▸ hused)).symm)
  · have hout : x < sector ∨ sector+count ≤ x := by
      simp only [blockSectors] at *
      omega
    rw [patch_outside hout]
    by_cases hfree : vdi.bmap (x/blockSectors) = unallocated
    · rw [content_of_unallocated hfree,content_of_unallocated hfree]
    have hplace := ne_toNat fun heq => hsame (hvdi.apart _ hx _ hblock hfree heq)
    rw [content_of_allocated hfree,content_of_allocated hfree,patch_outside]
    simp only [blockSectors] at *
    omega

theorem content_allocate (hfree : vdi.bmap (sector/blockSectors) = unallocated)
    {before : Nat → Data} (hz : ∀ j < blockSectors,
      j < sector%blockSectors ∨ sector%blockSectors+count ≤ j → before j = 0) {x : Nat}
    (hx : x/blockSectors < vdi.header.blocksInImage.toNat) :
    content (vdi.allocate (sector/blockSectors))
      (patch data (vdi.header.blocksAllocated.toNat*blockSectors) blockSectors
        (patch before (sector%blockSectors) count buf)) x =
      patch (content vdi data) sector count buf x := by
  have hne := hvdi.allocated_ne hblock hfree
  by_cases hsame : x/blockSectors = sector/blockSectors
  · have hmap : (vdi.allocate (sector/blockSectors)).bmap (x/blockSectors) =
        vdi.header.blocksAllocated := by
      rw [hsame,allocate_bmap_self]
    rw [content_of_allocated (hmap ▸ hne),hmap,patch_inside (Nat.le_add_right _ _) (by
      simp only [blockSectors]
      omega),Nat.add_sub_cancel_left]
    by_cases hin : sector ≤ x ∧ x < sector+count
    · rw [patch_shift sector x (by
        simp only [blockSectors] at *
        omega),patch_inside hin.1 hin.2,patch_inside hin.1 hin.2]
    · have hout : x%blockSectors < sector%blockSectors ∨
          sector%blockSectors+count ≤ x%blockSectors := by
        simp only [blockSectors] at *
        omega
      rw [patch_outside hout,patch_outside (by omega),content_of_unallocated (hsame ▸ hfree)]
      exact hz _ (Nat.mod_lt _ (by decide)) hout
  · have hmap : (vdi.allocate (sector/blockSectors)).bmap (x/blockSectors) =
        vdi.bmap (x/blockSectors) :=
      allocate_bmap_of_ne hsame
    have hout : x < sector ∨ sector+count ≤ x := by
      simp only [blockSectors] at *
      omega
    rw [patch_outside hout]
    by_cases hunused : vdi.bmap (x/blockSectors) = unallocated
    · rw [content_of_unallocated (hmap.trans hunused),content_of_unallocated hunused]
    have hplace := hvdi.below _ hx hunused
    rw [content_of_allocated (by rwa [hmap]),content_of_allocated hunused,hmap,patch_outside]
    simp only [blockSectors] at *
    omega

end

end Content

section Callback

variable [Zero Data] {vdi : State} {acb : WriteAcb Data}

def WriteAcb.prepare (acb : WriteAcb Data) : WriteAcb Data :=
  { acb.advance with nSectors := nextSectors acb.advance.sectorNum acb.advance.nbSectors }

theorem vdiAioWriteCb_finish (h : acb.advance.nbSectors = 0) :
    vdiAioWriteCb vdi acb = (vdi,finishWrite vdi acb.advance) :=
  if_pos h

theorem vdiAioWriteCb_direct (hleft : acb.advance.nbSectors ≠ 0)
    (hused : vdi.bmap (acb.advance.sectorNum/blockSectors) ≠ unallocated) :
    vdiAioWriteCb vdi acb = (vdi,acb.prepare,
      some (.data ((vdi.bmap (acb.advance.sectorNum/blockSectors)).toNat * blockSectors +
        acb.advance.sectorNum%blockSectors) acb.prepare.nSectors acb.advance.buf)) := by
  unfold vdiAioWriteCb
  rw [if_neg hleft]
  exact if_neg hused

theorem vdiAioWriteCb_allocate (hleft : acb.advance.nbSectors ≠ 0)
    (hfree : vdi.bmap (acb.advance.sectorNum/blockSectors) = unallocated) :
    vdiAioWriteCb vdi acb = ((allocateBlock vdi acb.prepare).1,
      (allocateBlock vdi acb.prepare).2.1,some (allocateBlock vdi acb.prepare).2.2) := by
  unfold vdiAioWriteCb
  rw [if_neg hleft]
  exact if_pos hfree

theorem nextSectors_pos (sectorNum : Nat) {nbSectors : Nat} (h : nbSectors ≠ 0) :
    0 < nextSectors sectorNum nbSectors := by
  simp only [nextSectors,blockSectors]
  omega

theorem nextSectors_block (sectorNum nbSectors : Nat) :
    sectorNum%blockSectors + nextSectors sectorNum nbSectors ≤ blockSectors := by
  simp only [nextSectors,blockSectors]
  omega

theorem nextSectors_le (sectorNum nbSectors : Nat) : nextSectors sectorNum nbSectors ≤ nbSectors :=
  Nat.min_le_right _ _

end Callback

end Hqemu.Block.Vdi
