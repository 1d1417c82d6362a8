import Mathlib.Algebra.Ring.Int.Defs
import Mathlib.Data.List.Induction
import Mathlib.Data.Nat.Bitwise

/-! The refcount check of `qcow2-refcount.c`, on metadata that can be read. -/
namespace Hqemu.Block.Refcounts
open List Function

structure Table where
  offset : Nat
  size : Nat

/-- `be64` and `be16` are read from the file at an offset. The size of `snapshotTable` is in bytes,
that of the others in entries. `before` is in memory in front of the refcount table. -/
structure Image where
  clusterBits : Nat
  length : Nat
  be64 : Nat → BitVec 64
  be16 : Nat → BitVec 16
  before : Nat → BitVec 64
  l1Table : Table
  snapshots : List Table
  snapshotTable : Table
  refcountTable : Table

/-- `BdrvCheckResult`, with the table that is counted in. -/
structure Check where
  corruptions : Nat
  leaks : Nat
  checkErrors : Nat
  table : Nat → BitVec 16

/-- For a reference and for an entry found wrong. -/
inductive Op where
  | inc (cluster : Nat)
  | corrupt
deriving DecidableEq

def Op.counted : Op → List Nat
  | .inc cluster => [cluster]
  | .corrupt => []

def toInt (n : Nat) : Int := (n : Int).bmod 0x100000000

namespace Image

variable (img : Image)

def clusterSize : Nat := 2^img.clusterBits

def nbClusters : Int := toInt ((img.length+(img.clusterSize-1))/img.clusterSize)

def table (offset size : Nat) : List Nat := (range size).map fun i => (img.be64 (offset+8*i)).toNat

/-- Those that are not zero. -/
def entries (offset size : Nat) : List Nat := (img.table offset size).filter (· ≠ 0)

/-- The index of the block is an int. -/
def getRefcount (cluster : Nat) : Nat :=
  let perBlock := 2^(img.clusterBits-1)
  let index := toInt (cluster/perBlock)
  let offset := (if index < 0 then img.before index.natAbs
    else img.be64 (img.refcountTable.offset+8*index.toNat)).toNat
  if img.refcountTable.size ≤ index ∨ offset = 0 then 0
  else (img.be16 (offset+2*(cluster%perBlock))).toNat

def clusters (offset size : Nat) : List Nat :=
  if size = 0 then []
  else
    let first := offset/img.clusterSize
    range' first ((offset+size-1)/img.clusterSize+1-first)

def incRefcounts (offset size : Nat) : List Op := (img.clusters offset size).map .inc

/-- An entry without `QCOW_OFLAG_COPIED`, which is bit 63. -/
def offset (entry : Nat) : Nat := entry%2^63

def flagOk (entry : Nat) : Bool :=
  (img.getRefcount (offset entry/img.clusterSize) = 1) = entry.testBit 63

/-- For an entry of both kinds of tables. -/
def checkEntry (checkCopied : Bool) (entry : Nat) : List Op :=
  (if checkCopied ∧ ¬img.flagOk entry then [.corrupt] else []) ++
    img.incRefcounts (offset entry) img.clusterSize ++
    if offset entry%img.clusterSize = 0 then [] else [.corrupt]

/-- Offset and size of the sectors. -/
def compressed (entry : Nat) : Nat × Nat :=
  let csizeShift := 62-(img.clusterBits-8)
  (entry%2^csizeShift/512*512,(entry/2^csizeShift%2^(img.clusterBits-8)+1)*512)

def checkL2Entry (checkCopied : Bool) (entry : Nat) : List Op :=
  if entry.testBit 62 then
    (if entry.testBit 63 then [.corrupt] else []) ++
      img.incRefcounts (img.compressed entry).1 (img.compressed entry).2
  else img.checkEntry checkCopied entry

def l2Table (entry : Nat) : List Nat := img.entries (offset entry) (img.clusterSize/8)

def checkRefcountsL1 (checkCopied : Bool) (l1 : Table) : List Op :=
  img.incRefcounts l1.offset (l1.size*8) ++ (img.entries l1.offset l1.size).flatMap fun entry =>
    img.checkEntry checkCopied entry ++ (img.l2Table entry).flatMap (img.checkL2Entry checkCopied)

def ops : List Op :=
  img.incRefcounts 0 img.clusterSize ++ img.checkRefcountsL1 true img.l1Table ++
    img.snapshots.flatMap (img.checkRefcountsL1 false) ++
    img.incRefcounts img.snapshotTable.offset img.snapshotTable.size ++
    img.incRefcounts img.refcountTable.offset (img.refcountTable.size*8)

def corrupt (res : Check) : Check := { res with corruptions := res.corruptions+1 }

def inc (res : Check) (cluster : Nat) : Check :=
  let k := toInt cluster
  let new := res.table k.toNat+1
  if k < 0 then corrupt res
  else if img.nbClusters ≤ k then { res with checkErrors := res.checkErrors+1 }
  else { res with
    table := update res.table k.toNat new
    corruptions := if new = 0 then res.corruptions+1 else res.corruptions }

def run (res : Check) : Op → Check
  | .inc cluster => img.inc res cluster
  | .corrupt => corrupt res

/-- For an entry of the refcount table. -/
def checkBlock (res : Check) (entry : Nat) : Check :=
  let cluster := entry/img.clusterSize
  if entry%img.clusterSize ≠ 0 ∨ img.nbClusters%2^64 ≤ cluster then corrupt res
  else if entry = 0 then res
  else
    let res := img.inc res cluster
    if res.table cluster = 1 then res else corrupt res

def compare (res : Check) (cluster : Nat) : Check :=
  let refcount1 := img.getRefcount cluster
  let refcount2 := (res.table cluster).toNat
  if refcount1 < refcount2 then corrupt res
  else if refcount2 < refcount1 then { res with leaks := res.leaks+1 }
  else res

def checkRefcounts : Check :=
  (range img.nbClusters.toNat).foldl img.compare
    ((img.table img.refcountTable.offset img.refcountTable.size).foldl img.checkBlock
      (img.ops.foldl img.run ⟨0,0,0,fun _ => 0⟩))

def data (entry : Nat) : List Nat :=
  if entry.testBit 62 then img.clusters (img.compressed entry).1 (img.compressed entry).2
  else img.clusters (offset entry) img.clusterSize

/-- The clusters a table of the first level refers to, with its own. -/
def tree (l1 : Table) : List Nat :=
  img.clusters l1.offset (l1.size*8) ++ (img.entries l1.offset l1.size).flatMap fun entry =>
    img.clusters (offset entry) img.clusterSize ++ (img.l2Table entry).flatMap img.data

/-- The references that `inc_refcounts` is called for, but those to refcount blocks. -/
def marked : List Nat :=
  img.clusters 0 img.clusterSize ++ img.tree img.l1Table ++ img.snapshots.flatMap img.tree ++
    img.clusters img.snapshotTable.offset img.snapshotTable.size ++
    img.clusters img.refcountTable.offset (img.refcountTable.size*8)

def blocks : List Nat :=
  (img.entries img.refcountTable.offset img.refcountTable.size).map (·/img.clusterSize)

/-- All references to clusters, each as often as it is made. -/
def references : List Nat := img.marked ++ img.blocks

def l2Entries (l1 : Table) : List Nat :=
  (img.entries l1.offset l1.size).flatMap img.l2Table

/-- The entries of a tree that can have the copied flag. -/
def flagged (l1 : Table) : List Nat :=
  img.entries l1.offset l1.size ++ (img.l2Entries l1).filter (!·.testBit 62)

/-- The counts of all clusters of the file are right, and all active flags. -/
structure Consistent : Prop where
  counts : ∀ cluster : Nat, cluster < img.nbClusters →
    img.getRefcount cluster = img.references.count cluster
  flags : ∀ entry ∈ img.flagged img.l1Table, img.flagOk entry

/-- Entries are aligned, compressed ones without the flag, and refcount blocks are in the file with
nothing else that refers to them. -/
structure WellPlaced : Prop where
  plain : ∀ l1 ∈ img.l1Table :: img.snapshots,
    (∀ entry ∈ img.flagged l1, offset entry%img.clusterSize = 0) ∧
      ∀ entry ∈ img.l2Entries l1, entry.testBit 62 → ¬entry.testBit 63
  aligned : ∀ entry ∈ img.entries img.refcountTable.offset img.refcountTable.size,
    entry%img.clusterSize = 0
  blocks : ∀ cluster ∈ img.blocks, cluster < img.nbClusters ∧ img.references.count cluster = 1

/-- The numbers of the clusters fit the int variables, and the file has a header. -/
structure Indexed : Prop where
  file : 0 < img.length ∧ (img.length+(img.clusterSize-1))/img.clusterSize < 0x80000000
  references : ∀ cluster ∈ img.references, cluster < 0x80000000

variable {img} {res : Check}

theorem toInt_eq {n : Nat} (h : n < 0x80000000) : toInt n = n := Int.bmod_eq_of_le (by omega) (by
    omega)

theorem Indexed.nbClusters (h : img.Indexed) : 0 < img.nbClusters ∧ img.nbClusters < 0x80000000 :=
    by
  obtain ⟨hpos,hlt⟩ := h.file
  have hsize : 0 < img.clusterSize := Nat.two_pow_pos _
  have hone : 0 < (img.length+(img.clusterSize-1))/img.clusterSize :=
    Nat.div_pos (by omega) hsize
  rw [Image.nbClusters,toInt_eq hlt]
  omega

/-- The table has the numbers of references seen to the clusters of the file. -/
structure Tally (img : Image) (seen : List Nat) (res : Check) : Prop where
  table : ∀ k : Nat, k < img.nbClusters → res.table k = .ofNat 16 (seen.count k)
  overflow : res.corruptions = 0 → ∀ k : Nat, k < img.nbClusters → seen.count k < 0x10000
  leaks : res.leaks = 0
  errors : res.checkErrors = 0 ↔ ∀ k ∈ seen, (k : Int) < img.nbClusters

variable {seen : List Nat} {k : Nat}

theorem Tally.corrupt (h : Tally img seen res) : Tally img seen (corrupt res) :=
  ⟨h.table,nofun,h.leaks,h.errors⟩

theorem Tally.inc (h : Tally img seen res) (hk : k < 0x80000000) :
    Tally img (seen ++ [k]) (img.inc res k) ∧ ((img.inc res k).corruptions = 0 ↔
      res.corruptions = 0 ∧ (k < img.nbClusters → (seen ++ [k]).count k < 0x10000)) := by
  unfold Image.inc
  simp only [toInt_eq hk,Int.toNat_natCast,if_neg (show ¬(k : Int) < 0 by omega)]
  by_cases hin : (k : Int) < img.nbClusters
  · rw [if_neg (by omega)]
    have hnew : res.table k+1 = .ofNat 16 ((seen ++ [k]).count k) := by
      simp [h.table k hin,BitVec.ofNat_add]
    have hzero : res.corruptions = 0 →
        (res.table k+1 = 0 ↔ ¬(seen ++ [k]).count k < 0x10000) := by
      intro hclean
      have hlt := h.overflow hclean k hin
      rw [hnew,count_append,count_singleton_self,← BitVec.toNat_inj]
      simp
      omega
    refine ⟨⟨fun j hj => ?_,fun hclean j hj => ?_,h.leaks,?_⟩,?_⟩
    · by_cases heq : j = k
      · rw [heq,← hnew]
        exact update_self ..
      · simp [update_of_ne heq,h.table j hj,Ne.symm heq]
    · have hbefore : res.corruptions = 0 := by grind
      by_cases heq : j = k
      · grind
      · simpa [Ne.symm heq] using h.overflow hbefore j hj
    · grind [h.errors]
    · grind
  · rw [if_pos (by omega)]
    refine ⟨⟨fun j hj => ?_,fun hclean j hj => ?_,h.leaks,?_⟩,?_⟩
    · have heq : k ≠ j := by grind
      simp [h.table j hj,heq]
    · have heq : k ≠ j := by grind
      simpa [heq] using h.overflow hclean j hj
    · simp
      omega
    · simp [hin]

theorem tally_run (ops : List Op) (hops : ∀ k ∈ ops.flatMap Op.counted, k < 0x80000000) :
    let last := ops.foldl img.run ⟨0,0,0,fun _ => 0⟩
    Tally img (ops.flatMap Op.counted) last ∧ (last.corruptions = 0 ↔ .corrupt ∉ ops ∧
      ∀ k : Nat, k < img.nbClusters → (ops.flatMap Op.counted).count k < 0x10000) := by
  induction ops using reverseRecOn with
  | nil => exact ⟨⟨fun _ _ => rfl,fun _ _ _ => by simp,rfl,by simp⟩,by simp⟩
  | append_singleton ops op ih =>
    rw [flatMap_append] at hops
    obtain ⟨htally,hclean⟩ := ih fun k hk => hops k (mem_append_left _ hk)
    rw [foldl_append,foldl_cons,foldl_nil,flatMap_append]
    cases op with
    | inc k =>
      obtain ⟨hnext,hcorrupt⟩ := htally.inc (hops k (by simp [Op.counted]))
      refine ⟨by simpa [Op.counted,run] using hnext,?_⟩
      rw [run,hcorrupt,hclean]
      simp only [flatMap_cons,flatMap_nil,Op.counted,append_nil]
      grind
    | corrupt => exact ⟨by simpa [Op.counted,run] using htally.corrupt,by simp [run,corrupt]⟩

theorem Tally.block (h : Tally img seen res) (hin : k < img.nbClusters)
    (hcount : img.nbClusters < 0x80000000) :
    let next := img.inc res k
    let last := if next.table k = 1 then next else Image.corrupt next
    Tally img (seen ++ [k]) last ∧
      (last.corruptions = 0 ↔ res.corruptions = 0 ∧ (seen ++ [k]).count k = 1) := by
  obtain ⟨hnext,hcorrupt⟩ := h.inc (show k < 0x80000000 by omega)
  have htest := hnext.table k hin
  generalize img.inc res k = next at *
  generalize (seen ++ [k]).count k = n at *
  have hvalue : next.table k = 1 ↔ n%65536 = 1 := by
    rw [htest,← BitVec.toNat_inj]
    simp
  intro _ last
  refine ⟨by unfold last; split; exacts [hnext,hnext.corrupt],?_⟩
  unfold last
  split
  · next hone =>
    have hmod := hvalue.mp hone
    rw [hcorrupt]
    omega
  · next hone =>
    simp only [Image.corrupt,Nat.add_eq_zero_iff,Nat.one_ne_zero,and_false,false_iff]
    intro hboth
    exact hone (hvalue.mpr (by rw [hboth.2]))

/-- The clusters of the blocks that are counted. -/
def placed (img : Image) (table : List Nat) : List Nat :=
  ((table.filter (· ≠ 0)).filter fun entry => entry%img.clusterSize = 0 ∧
    (entry/img.clusterSize : Nat) < img.nbClusters).map (·/img.clusterSize)

theorem count_once {placed : List Nat} :
    (∀ j ∈ placed, (seen ++ placed).count j = 1) ∧ (seen ++ placed ++ [k]).count k = 1 ↔
      ∀ j ∈ placed ++ [k], (seen ++ placed ++ [k]).count j = 1 := by
  simp only [forall_mem_append,forall_mem_singleton]
  refine and_congr_left fun hone => forall₂_congr fun j hj => ?_
  have hne : k ≠ j := by
    rintro rfl
    have hpos := count_pos_iff.mpr hj
    simp at hone
    omega
  simp [hne]

theorem tally_blocks (hcount : 0 < img.nbClusters ∧ img.nbClusters < 0x80000000)
    (h : Tally img seen res) (table : List Nat) :
    let last := table.foldl img.checkBlock res
    Tally img (seen ++ placed img table) last ∧ (last.corruptions = 0 ↔ res.corruptions = 0 ∧
      (∀ entry ∈ table, entry%img.clusterSize = 0 ∧
        (entry/img.clusterSize : Nat) < img.nbClusters) ∧
      ∀ k ∈ placed img table, (seen ++ placed img table).count k = 1) := by
  induction table using reverseRecOn with
  | nil => simpa [placed] using h
  | append_singleton table entry ih =>
    obtain ⟨htally,hclean⟩ := ih
    have hplaced : placed img (table ++ [entry]) = placed img table ++ placed img [entry] := by
      simp [placed]
    rw [foldl_append,foldl_cons,foldl_nil,hplaced]
    generalize table.foldl img.checkBlock res = mid at htally hclean
    unfold checkBlock
    dsimp only
    split
    · next hbad =>
      have hnone : placed img [entry] = [] := by
        simp only [placed]
        grind
      rw [hnone,append_nil]
      refine ⟨htally.corrupt,⟨nofun,fun hall => ?_⟩⟩
      have hgood := hall.2.1 entry (by simp)
      omega
    · next hgood =>
      split
      · next hzero =>
        subst hzero
        have hnone : placed img [0] = [] := by simp [placed]
        rw [hnone,append_nil]
        have hfirst : (0/img.clusterSize : Nat) < img.nbClusters := by simpa using hcount.1
        refine ⟨htally,hclean.trans ?_⟩
        simp only [forall_mem_append,forall_mem_singleton,hfirst,Nat.zero_mod,and_self,and_true]
      · next hne =>
        have hone : placed img [entry] = [entry/img.clusterSize] := by
          simp only [placed]
          grind
        have hin : (entry/img.clusterSize : Nat) < img.nbClusters := by omega
        have haligned : entry%img.clusterSize = 0 := by omega
        obtain ⟨hnext,hcorrupt⟩ := htally.block hin hcount.2
        rw [hone,← append_assoc,← count_once,hcorrupt,hclean]
        simp only [forall_mem_append,forall_mem_singleton,haligned,hin,and_self,and_true,and_assoc]
        exact hnext

theorem compare_eq (k : Nat) : img.compare res k = { res with
    corruptions := res.corruptions+if img.getRefcount k < (res.table k).toNat then 1 else 0
    leaks := res.leaks+if (res.table k).toNat < img.getRefcount k then 1 else 0 } := by
  unfold compare
  generalize img.getRefcount k = stored
  generalize (res.table k).toNat = counted
  rcases Nat.lt_trichotomy stored counted with h | h | h
  · simp [corrupt,h,Nat.le_of_lt h]
  · simp [h]
  · simp [h,Nat.not_lt_of_lt h]

theorem foldl_compare (ks : List Nat) : ks.foldl img.compare res = { res with
    corruptions := res.corruptions+ks.countP fun k => img.getRefcount k < (res.table k).toNat
    leaks := res.leaks+ks.countP fun k => (res.table k).toNat < img.getRefcount k } := by
  induction ks generalizing res with
  | nil => rfl
  | cons k ks ih =>
    rw [foldl_cons,ih,countP_cons,countP_cons,compare_eq]
    simp only [decide_eq_true_eq,Nat.add_assoc,Nat.add_comm]

theorem counted_incRefcounts (offset size : Nat) :
    (img.incRefcounts offset size).flatMap Op.counted = img.clusters offset size := by
  simp [incRefcounts,flatMap_map,Op.counted]

theorem counted_checkEntry (checkCopied : Bool) (entry : Nat) :
    (img.checkEntry checkCopied entry).flatMap Op.counted =
      img.clusters (offset entry) img.clusterSize := by
  unfold checkEntry
  rw [flatMap_append,flatMap_append,counted_incRefcounts]
  split <;> split <;> simp [Op.counted]

theorem counted_checkL2Entry (checkCopied : Bool) (entry : Nat) :
    (img.checkL2Entry checkCopied entry).flatMap Op.counted = img.data entry := by
  unfold checkL2Entry data
  split
  · rw [flatMap_append,counted_incRefcounts]
    split <;> simp [Op.counted]
  · exact counted_checkEntry ..

theorem counted_checkRefcountsL1 (checkCopied : Bool) (l1 : Table) :
    (img.checkRefcountsL1 checkCopied l1).flatMap Op.counted = img.tree l1 := by
  simp only [checkRefcountsL1,tree,flatMap_append,flatMap_assoc,counted_incRefcounts,
    counted_checkEntry,counted_checkL2Entry]

theorem corrupt_mem_checkEntry {checkCopied : Bool} {entry : Nat} :
    .corrupt ∈ img.checkEntry checkCopied entry ↔
      (checkCopied ∧ ¬img.flagOk entry) ∨ offset entry%img.clusterSize ≠ 0 := by
  unfold checkEntry incRefcounts
  grind

theorem corrupt_mem_checkL2Entry {checkCopied : Bool} {entry : Nat} :
    .corrupt ∈ img.checkL2Entry checkCopied entry ↔ entry.testBit 62 ∧ entry.testBit 63 ∨
      ¬entry.testBit 62 ∧ .corrupt ∈ img.checkEntry checkCopied entry := by
  unfold checkL2Entry incRefcounts
  grind

theorem corrupt_mem_checkRefcountsL1 {checkCopied : Bool} {l1 : Table} :
    .corrupt ∈ img.checkRefcountsL1 checkCopied l1 ↔
      (checkCopied ∧ ∃ entry ∈ img.flagged l1, ¬img.flagOk entry) ∨
        (∃ entry ∈ img.flagged l1, offset entry%img.clusterSize ≠ 0) ∨
          ∃ entry ∈ img.l2Entries l1, entry.testBit 62 ∧ entry.testBit 63 := by
  have hinc : .corrupt ∉ img.incRefcounts l1.offset (l1.size*8) := by simp [incRefcounts]
  simp only [checkRefcountsL1,flagged,l2Entries,mem_append,mem_filter,mem_flatMap,hinc,false_or,
    corrupt_mem_checkEntry,corrupt_mem_checkL2Entry]
  grind

theorem corrupt_notMem_ops : .corrupt ∉ img.ops ↔
    (∀ entry ∈ img.flagged img.l1Table, img.flagOk entry) ∧
      ∀ l1 ∈ img.l1Table :: img.snapshots,
        (∀ entry ∈ img.flagged l1, offset entry%img.clusterSize = 0) ∧
          ∀ entry ∈ img.l2Entries l1, entry.testBit 62 → ¬entry.testBit 63 := by
  have hinc (offset size) : .corrupt ∉ img.incRefcounts offset size := by simp [incRefcounts]
  simp only [ops,mem_append,mem_flatMap,hinc,false_or,or_false,corrupt_mem_checkRefcountsL1]
  grind

theorem counted_ops : img.ops.flatMap Op.counted = img.marked := by
  simp only [ops,marked,flatMap_append,flatMap_assoc,counted_incRefcounts,counted_checkRefcountsL1]

theorem getRefcount_lt (cluster : Nat) : img.getRefcount cluster < 0x10000 := by
  unfold getRefcount
  dsimp only
  repeat' split
  all_goals first | exact Nat.succ_pos _ | exact (img.be16 _).isLt

theorem placed_sublist :
    placed img (img.table img.refcountTable.offset img.refcountTable.size) <+ img.blocks :=
  filter_sublist.map _

theorem placed_eq (h : ∀ entry ∈ img.entries img.refcountTable.offset img.refcountTable.size,
      entry%img.clusterSize = 0 ∧ (entry/img.clusterSize : Nat) < img.nbClusters) :
    placed img (img.table img.refcountTable.offset img.refcountTable.size) = img.blocks := by
  rw [placed,← entries,filter_eq_self.mpr fun entry hentry => decide_eq_true (h entry hentry),
      blocks]

/-- After all references have been counted. -/
def counted (img : Image) : Check :=
  (img.table img.refcountTable.offset img.refcountTable.size).foldl img.checkBlock
    (img.ops.foldl img.run ⟨0,0,0,fun _ => 0⟩)

theorem counted_clean_iff (h : img.Indexed) : img.counted.corruptions = 0 ↔
    (∀ entry ∈ img.flagged img.l1Table, img.flagOk entry) ∧ img.WellPlaced ∧
      ∀ k : Nat, k < img.nbClusters → img.references.count k < 0x10000 := by
  obtain ⟨htally,hclean⟩ := @tally_run img img.ops fun k hk =>
    h.references k (mem_append_left _ (counted_ops ▸ hk))
  obtain ⟨-,hblocks⟩ := tally_blocks h.nbClusters htally
    (img.table img.refcountTable.offset img.refcountTable.size)
  rw [counted_ops] at hclean hblocks
  rw [counted,hblocks,hclean,corrupt_notMem_ops]
  have hzero : (0/img.clusterSize : Nat) < img.nbClusters := by simpa using h.nbClusters.1
  have hentries : (∀ entry ∈ img.table img.refcountTable.offset img.refcountTable.size,
      entry%img.clusterSize = 0 ∧ (entry/img.clusterSize : Nat) < img.nbClusters) ↔
        ∀ entry ∈ img.entries img.refcountTable.offset img.refcountTable.size,
          entry%img.clusterSize = 0 ∧ (entry/img.clusterSize : Nat) < img.nbClusters := by
    refine ⟨fun hall entry hentry => hall entry (mem_filter.mp hentry).1,
      fun hall entry hentry => ?_⟩
    by_cases hne : entry = 0
    · rw [hne]
      exact ⟨Nat.zero_mod _,hzero⟩
    · exact hall entry (mem_filter.mpr ⟨hentry,by simpa using hne⟩)
  rw [hentries]
  constructor
  · rintro ⟨⟨⟨hflags,hplain⟩,hfew⟩,hplaced,hone⟩
    rw [placed_eq hplaced] at hone
    refine ⟨hflags,⟨hplain,fun entry hentry => (hplaced entry hentry).1,fun k hk => ?_⟩,
      fun k hk => ?_⟩
    · obtain ⟨entry,hentry,rfl⟩ := mem_map.mp hk
      exact ⟨(hplaced entry hentry).2,hone _ hk⟩
    · by_cases hmem : k ∈ img.blocks
      · rw [references,hone k hmem]
        decide
      · rw [references,count_append,count_eq_zero.mpr hmem]
        exact hfew k hk
  · rintro ⟨hflags,⟨hplain,haligned,hblock⟩,hfew⟩
    have hplaced (entry) (hentry : entry ∈ img.entries _ _) :=
      And.intro (haligned entry hentry) (hblock _ (mem_map_of_mem hentry)).1
    rw [placed_eq hplaced]
    refine ⟨⟨⟨hflags,hplain⟩,fun k hk => ?_⟩,hplaced,fun k hk => (hblock k hk).2⟩
    exact Nat.lt_of_le_of_lt ((sublist_append_left _ _).count_le k) (hfew k hk)

theorem tally_counted (h : img.Indexed) : Tally img (img.marked ++
    placed img (img.table img.refcountTable.offset img.refcountTable.size)) img.counted := by
  rw [← counted_ops]
  exact (tally_blocks h.nbClusters (tally_run img.ops fun k hk =>
    h.references k (mem_append_left _ (counted_ops ▸ hk))).1 _).1

theorem table_counted (h : img.Indexed) (hclean : img.counted.corruptions = 0)
    (hin : k < img.nbClusters) : (img.counted.table k).toNat = img.references.count k := by
  obtain ⟨-,hplaced,hfew⟩ := (counted_clean_iff h).mp hclean
  have htable := (tally_counted h).table k hin
  rw [placed_eq fun entry hentry => ⟨hplaced.aligned entry hentry,
    (hplaced.blocks _ (mem_map_of_mem hentry)).1⟩,← references] at htable
  rw [htable,BitVec.toNat_ofNat]
  exact Nat.mod_eq_of_lt (hfew k hin)

/-- A header, one table of each kind, one refcount block, and one entry for a data cluster. -/
def tiny (clusters : Nat) (entry : BitVec 64) : Image where
  clusterBits := 9
  length := clusters*512
  be64 a := if a = 512 then 0x8000000000000800 else if a = 1024 then 1536
    else if a = 2048 then entry else 0
  be16 _ := 1
  before _ := 0
  l1Table := ⟨512,1⟩
  snapshots := []
  snapshotTable := ⟨0,0⟩
  refcountTable := ⟨1024,1⟩

end Image
end Hqemu.Block.Refcounts
