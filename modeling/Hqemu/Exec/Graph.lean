import Hqemu.Exec.Jumps

/-! The graph of linked blocks under arbitrary sequences of the functions that link,
chain, unchain and invalidate blocks. -/
namespace Hqemu.Exec.Graph

open Finset Lib.Chain Lib.Run Links

structure Linkage (n : Nat) where
  world : World n
  linked : Finset TbId
  live : Finset TbId

/-- `linkPage` is `tb_link_page` on a block translated from `pc` with the direct jumps
`nextOffset`. -/
inductive Op (n : Nat) where
  | linkPage (tb : TbId) (pc : Nat) (nextOffset : Slot → Option Nat) (physPc : Nat)
      (physPage2 : Option Nat)
  | addJump (tb : TbId) (m : Slot) (tbNext : TbId)
  | physInvalidate (tb : TbId) (pageAddr : Option Nat)
  | resetJumpRecursive (tb : TbId)
  | flush (c : Fin n)

namespace Linkage

variable {n : Nat}

def initial (n : Nat) : Linkage n := ⟨emptyWorld n,∅,∅⟩

def linkPage (cfg : Config) (w : World n) (tb : TbId) (pc : Nat)
    (nextOffset : Slot → Option Nat) (physPc : Nat) (physPage2 : Option Nat) : World n :=
  { w.updateDesc tb fun desc => { desc with pc := pc, nextOffset := nextOffset } with
    links := w.links.tbLinkPage cfg tb nextOffset physPc physPage2 }

def step (cfg : Config) (g : Linkage n) : Op n → Option (Linkage n)
  | .linkPage tb pc nextOffset physPc physPage2 =>
    some ⟨linkPage cfg g.world tb pc nextOffset physPc physPage2,insert tb g.linked,
      insert tb g.live⟩
  | .addJump tb m tbNext =>
    some { g with world := { g.world with links := g.world.links.tbAddJump tb m tbNext } }
  | .physInvalidate tb pageAddr =>
    (g.world.tbPhysInvalidate cfg tb pageAddr).map fun w => ⟨w,g.linked,g.live.erase tb⟩
  | .resetJumpRecursive tb =>
    (g.world.links.tbResetJumpRecursive cfg cfg.walkLimit tb).map fun links =>
      { g with world := { g.world with links := links } }
  | .flush c => (g.world.tbFlush cfg c).map fun w => ⟨w,∅,∅⟩

/-- A block is linked once between two flushes, under its own page offset. Only existing jumps of
linked blocks are chained, and a block is invalidated once. -/
def Allowed (cfg : Config) (g : Linkage n) : Op n → Prop
  | .linkPage tb pc _ physPc _ => tb ∉ g.linked ∧ pageOffset cfg physPc = pageOffset cfg pc
  | .addJump tb m tbNext =>
    tb ∈ g.linked ∧ tbNext ∈ g.linked ∧ ((g.world.desc tb).nextOffset m).isSome
  | .physInvalidate tb _ => tb ∈ g.live
  | .resetJumpRecursive tb => tb ∈ g.linked
  | .flush _ => True

/-- The two pages of a block are not one physical page. -/
def Apart (cfg : Config) : Op n → Prop
  | .linkPage _ _ _ physPc physPage2 =>
    physPage2.map (pageIndex cfg) ≠ some (pageIndex cfg physPc)
  | _ => True

instance (cfg : Config) : DecidablePred (Apart cfg (n := n))
  | .linkPage _ _ _ _ _ => inferInstanceAs (Decidable (_ ≠ _))
  | .addJump _ _ _ | .physInvalidate _ _ | .resetJumpRecursive _ | .flush _ => instDecidableTrue

instance (cfg : Config) (g : Linkage n) : DecidablePred (Allowed cfg g)
  | .linkPage _ _ _ _ _ => inferInstanceAs (Decidable (_ ∧ _))
  | .addJump _ _ _ => inferInstanceAs (Decidable (_ ∧ _ ∧ _))
  | .physInvalidate _ _ => inferInstanceAs (Decidable (_ ∈ _))
  | .resetJumpRecursive _ => inferInstanceAs (Decidable (_ ∈ _))
  | .flush _ => instDecidableTrue

def blockHash (cfg : Config) (w : World n) (tb : TbId) : Nat :=
  tbPhysHashFunc ((w.links.pageAddr (tb,0)).getD 0 + pageOffset cfg (w.desc tb).pc)

def Wired (g : Linkage n) (x : TbId × Slot) : Prop :=
  x.1 ∈ g.live ∧ ((g.world.desc x.1).nextOffset x.2).isSome

def Chained (g : Linkage n) (b : TbId) (m : Slot) (t : TbId) : Prop :=
  b ∈ g.linked ∧ g.world.links.jmp (.next b m) ≠ none ∧
    g.world.links.jmpTarget (b,m) = .block t

structure Shaped (cfg : Config) (g : Linkage n) : Prop where
  codeGenPtr : g.world.codeGenPtr = 0
  live : g.live ⊆ g.linked
  hash : ∃ bucket, HashInv g.world.links (blockHash cfg g.world) g.live bucket
  page : ∃ page, PageInv cfg g.world.links g.linked g.live page
  jmp : ∃ chain, JmpInv g.world.links g.linked g.Wired chain

variable {cfg : Config} {g : Linkage n}

theorem shaped_empty {w : World n} (hptr : w.codeGenPtr = 0)
    (hhash : ∀ h, w.links.hash (.bucket h) = none)
    (hpage : ∀ p, w.links.page (.firstTb p) = none) : Shaped cfg ⟨w,∅,∅⟩ where
  codeGenPtr := hptr
  live := Finset.Subset.refl _
  hash := ⟨fun _ => [],⟨fun h _ => hhash h,fun _ _ => List.nodup_nil,nofun,nofun⟩,by simp⟩
  page := ⟨fun _ => [],⟨⟨fun p _ => hpage p,fun _ _ => List.nodup_nil,nofun,nofun⟩,nofun⟩,
    nofun,nofun,nofun,nofun⟩
  jmp := ⟨fun _ => [],⟨nofun,nofun,nofun,nofun⟩,nofun,nofun,nofun⟩

theorem shaped_initial : Shaped cfg (initial n) := shaped_empty rfl (fun _ => rfl) fun _ => rfl

theorem pageAlign_add_pageOffset (cfg : Config) (addr : Nat) :
    pageAlign cfg addr + pageOffset cfg addr = addr :=
  Nat.div_add_mod' addr cfg.targetPageSize

section

variable (h : Shaped cfg g)
include h

theorem Shaped.linkPage {tb pc physPc : Nat} {nextOffset : Slot → Option Nat}
    {physPage2 : Option Nat}
    (hallowed : Allowed cfg g (.linkPage tb pc nextOffset physPc physPage2))
    (hapart : Apart cfg (.linkPage (n := n) tb pc nextOffset physPc physPage2)) :
    Shaped cfg ⟨Linkage.linkPage cfg g.world tb pc nextOffset physPc physPage2,insert tb g.linked,
      insert tb g.live⟩ := by
  obtain ⟨hnew,hoff⟩ := hallowed
  obtain ⟨bucket,hhash⟩ := h.hash
  obtain ⟨page,hpage⟩ := h.page
  obtain ⟨chain,hjmp⟩ := h.jmp
  have hlive : tb ∉ g.live := fun htb => hnew (h.live htb)
  refine ⟨h.codeGenPtr,insert_subset_insert tb h.live,
    ⟨Function.update bucket (tbPhysHashFunc physPc) (tb :: bucket (tbPhysHashFunc physPc)),?_⟩,?_,
    ⟨Function.update chain tb [],?_⟩⟩
  · apply hhash.link hlive (tbLinkPage_hash _ _ _ _ _)
    · simp only [blockHash,Linkage.linkPage,tbLinkPage_pageAddr]
      simp [← hoff,pageAlign_add_pageOffset]
    · intro x hx
      have hne : x ≠ tb := fun heq => hlive (heq ▸ hx)
      simp [blockHash,Linkage.linkPage,tbLinkPage_pageAddr,hne]
  · apply hpage.link h.live hnew
    intro page2 hpage2 heq
    exact hapart (by simp [hpage2,heq])
  · apply hjmp.link hnew
    · intro m hx
      simpa [Linkage.linkPage] using hx.2
    · intro b m hne hx
      have hmem := (mem_insert.mp hx.1).resolve_left hne
      exact ⟨hmem,by simpa [Linkage.linkPage,hne] using hx.2⟩

theorem Shaped.of_jumps {links : Links} (honly : OnlyJumps g.world.links links)
    (hjmp : ∃ chain, JmpInv links g.linked g.Wired chain) :
    Shaped cfg { g with world := { g.world with links := links } } := by
  obtain ⟨bucket,hhash⟩ := h.hash
  obtain ⟨page,hpage⟩ := h.page
  obtain ⟨jmp,jmpTarget,rfl⟩ := honly
  exact ⟨h.codeGenPtr,h.live,⟨bucket,hhash.lists,hhash.mem⟩,⟨page,hpage.congr rfl rfl⟩,hjmp⟩

theorem Shaped.addJump {tb tbNext : TbId} {m : Slot}
    (hallowed : Allowed cfg g (.addJump tb m tbNext)) :
    Shaped cfg { g with
      world := { g.world with links := g.world.links.tbAddJump tb m tbNext } } := by
  obtain ⟨chain,hjmp⟩ := h.jmp
  apply h.of_jumps
  · unfold tbAddJump
    split
    · exact ⟨_,_,rfl⟩
    · exact ⟨_,_,rfl⟩
  · exact hjmp.addJump hallowed.1 hallowed.2.1

theorem Shaped.reset {tb : TbId} (htb : tb ∈ g.linked) (hlimit : 2*g.linked.card < cfg.walkLimit) :
    ∃ next, step cfg g (.resetJumpRecursive tb) = some next ∧ Shaped cfg next ∧
      next.linked = g.linked := by
  obtain ⟨chain,hjmp⟩ := h.jmp
  have hdepth : edges g.world.links g.linked < cfg.walkLimit :=
    Nat.lt_of_le_of_lt (edges_le _ _) hlimit
  obtain ⟨links,hreset,hresets⟩ := hjmp.reset htb hdepth hlimit
  exact ⟨_,by simp only [step,hreset]; rfl,h.of_jumps hresets.only hresets.inv,rfl⟩

theorem Shaped.flush {c : Fin n} :
    ∃ next, step cfg g (.flush c) = some next ∧ Shaped cfg next ∧ next.linked = ∅ := by
  have hbuf : ¬ cfg.codeGenBufferSize < g.world.codeGenPtr := by
    rw [h.codeGenPtr]
    exact Nat.not_lt_zero _
  refine ⟨_,by simp only [step,World.tbFlush,if_neg hbuf]; rfl,?_,rfl⟩
  exact shaped_empty rfl (fun _ => rfl) fun _ => rfl

end

theorem leavePages {links : Links} {linked live : Finset TbId} {page : Nat → List (TbId × Slot)}
    {tb page0 : Nat} (h : PageInv cfg links linked live page) (htb : tb ∈ live)
    (haddr : links.pageAddr (tb,0) = some page0) (hlimit : 2*linked.card ≤ cfg.walkLimit)
    (skip : Option Nat) :
    ∃ left0 left1 page', links.leavePage cfg tb (some page0) skip = some left0 ∧
      left0.leavePage cfg tb (links.pageAddr (tb,1)) skip = some left1 ∧
      OnlyPages links left1 ∧ PageInv cfg left1 linked (live.erase tb) page' := by
  have hdead : tb ∉ live.erase tb := notMem_erase tb live
  have hmem : ∀ m addr, links.pageAddr (tb,m) = some addr → (tb,m) ∈ page (pageIndex cfg addr) :=
    fun m addr hm => h.covers _ _ htb (by simp [nodePage,hm])
  have hpage := h.of_live (Finset.erase_subset tb live)
  obtain ⟨left0,page0',hleft0,⟨pages,pageDesc,rfl⟩,hpage0,hkeep⟩ :=
    hpage.leavePage hdead (hmem 0 page0 haddr) hlimit skip
  cases haddr1 : links.pageAddr (tb,1) with
  | none => exact ⟨_,_,page0',hleft0,rfl,⟨_,_,rfl⟩,hpage0⟩
  | some page1 =>
    have hmem1 : (tb,1) ∈ page0' (pageIndex cfg page1) := hkeep _ _ (by simp) (hmem 1 page1 haddr1)
    obtain ⟨left1,page1',hleft1,⟨pages',pageDesc',rfl⟩,hpage1,-⟩ :=
      hpage0.leavePage hdead hmem1 hlimit skip
    exact ⟨_,_,page1',hleft0,hleft1,⟨_,_,rfl⟩,hpage1⟩

theorem tbPhysInvalidate_eq {w : World n} {tb page0 : Nat} {pageAddr : Option Nat}
    {removed left0 left1 jmp0 jmp1 suppressed : Links}
    (haddr : w.links.pageAddr (tb,0) = some page0)
    (hremove : w.links.tbRemove cfg (tbPhysHashFunc (page0 + pageOffset cfg (w.desc tb).pc)) tb =
      some removed) (hleft0 : removed.leavePage cfg tb (some page0) pageAddr = some left0)
    (hleft1 : left0.leavePage cfg tb (w.links.pageAddr (tb,1)) pageAddr = some left1)
    (hjmp0 : left1.tbJmpRemove cfg tb 0 = some jmp0) (hjmp1 : jmp0.tbJmpRemove cfg tb 1 = some jmp1)
    (hsuppress : suppressJumps cfg.walkLimit jmp1 (jmp1.jmp (.first tb)) = some suppressed) :
    ∃ next, w.tbPhysInvalidate cfg tb pageAddr = some next ∧
      next.links = suppressed.setJmp (.first tb) (some (.first tb)) ∧ next.desc = w.desc ∧
      next.codeGenPtr = w.codeGenPtr := by
  cases hnext : w.tbPhysInvalidate cfg tb pageAddr with
  | none =>
    simp [World.tbPhysInvalidate,haddr,hremove,hleft0,hleft1,hjmp0,hjmp1,hsuppress] at hnext
  | some next =>
    simp only [World.tbPhysInvalidate,haddr,hremove,hleft0,hleft1,hjmp0,hjmp1,hsuppress,
      Option.bind_eq_bind,Option.bind_some] at hnext
    cases hnext
    exact ⟨_,rfl,rfl,rfl,rfl⟩

theorem Shaped.physInvalidate {tb : TbId} {pageAddr : Option Nat} (h : Shaped cfg g)
    (htb : tb ∈ g.live) (hlimit : 2*g.linked.card < cfg.walkLimit) :
    ∃ next, step cfg g (.physInvalidate tb pageAddr) = some next ∧ Shaped cfg next ∧
      next.linked = g.linked := by
  obtain ⟨bucket,hhash⟩ := h.hash
  obtain ⟨page,hpage⟩ := h.page
  obtain ⟨chain,hjmp⟩ := h.jmp
  have hlink : tb ∈ g.linked := h.live htb
  obtain ⟨page0,haddr⟩ : ∃ page0, g.world.links.pageAddr (tb,0) = some page0 := by
    have hfirst := hpage.first tb hlink
    rw [nodePage,Ne,Option.map_eq_none_iff] at hfirst
    exact Option.ne_none_iff_exists'.mp hfirst
  have hhashOf : blockHash cfg g.world tb =
      tbPhysHashFunc (page0 + pageOffset cfg (g.world.desc tb).pc) := by
    simp [blockHash,haddr]
  have hcard : g.live.card ≤ g.linked.card := card_le_card h.live
  have hlive : g.live.card ≤ cfg.walkLimit := by omega
  obtain ⟨ptb,bucket',hremove,hhash'⟩ := hhash.tbRemove htb hlive
  rw [hhashOf] at hremove
  have hpage' : PageInv cfg (g.world.links.setHash ptb (g.world.links.hash (.next tb))) g.linked
      g.live page := hpage.congr rfl rfl
  obtain ⟨left0,left1,page',hleft0,hleft1,⟨pages,pageDesc,hleft⟩,hpages⟩ :=
    leavePages hpage' htb haddr (Nat.le_of_lt hlimit) pageAddr
  have hjmp' : JmpInv left1 g.linked (fun x => g.Wired x ∧ x.1 ≠ tb) chain :=
    (hjmp.of_wired fun x hx => hx.1).congr (by rw [hleft]; rfl) (by rw [hleft]; rfl)
  obtain ⟨jmp0,jmp1,suppressed,chain',hjmp0,hjmp1,hsuppress,⟨jmp,jmpTarget,rfl⟩,hjmps⟩ :=
    hjmp'.invalidate hlink (fun m hx => hx.2 rfl) hlimit
  obtain ⟨next,hnext,hlinks,hdesc,hptr⟩ :=
    tbPhysInvalidate_eq haddr hremove hleft0 hleft1 hjmp0 hjmp1 hsuppress
  subst hleft
  have hhashLinks : next.links.hash =
      (g.world.links.setHash ptb (g.world.links.hash (.next tb))).hash := by
    rw [hlinks]
    rfl
  have haddrLinks : next.links.pageAddr = g.world.links.pageAddr := by
    rw [hlinks]
    rfl
  have hblockHash : blockHash cfg next = blockHash cfg g.world := by
    funext x
    unfold blockHash
    rw [haddrLinks,hdesc]
  refine ⟨⟨next,g.linked,g.live.erase tb⟩,by simp only [step,hnext]; rfl,
    ⟨hptr.trans h.codeGenPtr,(Finset.erase_subset tb g.live).trans h.live,⟨bucket',?_⟩,
      ⟨page',?_⟩,⟨chain',?_⟩⟩,rfl⟩
  · dsimp only
    rw [hblockHash]
    exact hhash'.congr hhashLinks
  · exact hpages.congr (by rw [hlinks]; rfl) (by rw [hlinks]; rfl)
  · dsimp only
    rw [hlinks]
    apply hjmps.of_wired
    rintro x ⟨hx,hjump⟩
    have hmem := Finset.mem_erase.mp hx
    refine ⟨⟨hmem.2,?_⟩,hmem.1⟩
    rwa [hdesc] at hjump

/-- The jump list of a live block leads through the jumps chained to it and back, and its jumps to
the blocks they are chained to. Buckets and page lists hold the live blocks that belong there, each
once. -/
structure TbGraph (cfg : Config) (g : Linkage n) : Prop where
  jumps : ∀ t ∈ g.live, ∃ nodes : List JmpLoc, nodes.Nodup ∧
    Seg g.world.links.jmp id (.first t) nodes (some (.first t)) ∧
    ∀ loc, loc ∈ nodes ↔ ∃ b m, loc = .next b m ∧ g.Chained b m t
  targets : ∀ b ∈ g.live, ∀ m, ((g.world.desc b).nextOffset m).isSome → ∀ t,
    g.world.links.jmpTarget (b,m) = .block t ↔ g.Chained b m t
  buckets : ∀ h, ∃ nodes : List TbId, nodes.Nodup ∧
    Seg g.world.links.hash HashLoc.next (.bucket h) nodes none ∧
    ∀ tb, tb ∈ nodes ↔ tb ∈ g.live ∧ blockHash cfg g.world tb = h
  pages : ∀ p, ∃ nodes : List (TbId × Slot), (nodes.map Prod.fst).Nodup ∧
    Seg g.world.links.page pageCell (.firstTb p) nodes none ∧
    ∀ tb ∈ g.live, ∀ m, (tb,m) ∈ nodes ↔ nodePage cfg g.world.links (tb,m) = some p

theorem Shaped.tbGraph (h : Shaped cfg g) : TbGraph cfg g := by
  obtain ⟨bucket,hhash⟩ := h.hash
  obtain ⟨page,hpage⟩ := h.page
  obtain ⟨chain,hjmp⟩ := h.jmp
  refine ⟨fun t ht => ?_,fun b hb m hjump t => ?_,fun value => ?_,fun p => ?_⟩
  · have hlink := h.live ht
    refine ⟨chain t,hjmp.lists.nodup t hlink,hjmp.lists.seg t hlink,fun loc => ?_⟩
    constructor
    · intro hloc
      obtain ⟨b,m,rfl,-,-⟩ := hjmp.mem t hlink loc hloc
      exact ⟨b,m,rfl,(hjmp.mem_iff hlink).mp hloc⟩
    · rintro ⟨b,m,rfl,hchain⟩
      exact (hjmp.mem_iff hlink).mpr hchain
  · refine ⟨fun htarget => ⟨h.live hb,fun hnone => ?_,htarget⟩,fun hchain => hchain.2.2⟩
    have hstub := hjmp.unchained b m ⟨hb,hjump⟩ hnone
    rw [hstub] at htarget
    cases htarget
  · exact ⟨bucket value,hhash.lists.nodup value (Set.mem_univ _),
      hhash.lists.seg value (Set.mem_univ _),hhash.mem value⟩
  · refine ⟨page p,?_,hpage.lists.seg p (Set.mem_univ _),fun tb htb m => ?_⟩
    · apply (hpage.lists.nodup p (Set.mem_univ _)).map_on
      rintro ⟨tb,m⟩ hm ⟨other,m'⟩ hm' heq
      cases heq
      rw [hpage.node_eq hm' hm]
    · exact ⟨hpage.addr p (tb,m),hpage.covers p (tb,m) htb⟩

theorem Shaped.step {op : Op n} (h : Shaped cfg g) (hallowed : Allowed cfg g op)
    (hapart : Apart cfg op) (hlimit : 2*g.linked.card < cfg.walkLimit) :
    ∃ next, step cfg g op = some next ∧ Shaped cfg next ∧ next.linked.card ≤ g.linked.card+1 := by
  cases op with
  | linkPage tb pc nextOffset physPc physPage2 =>
    exact ⟨_,rfl,h.linkPage hallowed hapart,card_insert_le tb g.linked⟩
  | addJump tb m tbNext => exact ⟨_,rfl,h.addJump hallowed,Nat.le_succ _⟩
  | physInvalidate tb pageAddr =>
    obtain ⟨next,hnext,hshaped,hlink⟩ := h.physInvalidate hallowed hlimit
    exact ⟨next,hnext,hshaped,hlink ▸ Nat.le_succ _⟩
  | resetJumpRecursive tb =>
    obtain ⟨next,hnext,hshaped,hlink⟩ := h.reset hallowed hlimit
    exact ⟨next,hnext,hshaped,hlink ▸ Nat.le_succ _⟩
  | flush c =>
    obtain ⟨next,hnext,hshaped,hlink⟩ := h.flush (c := c)
    exact ⟨next,hnext,hshaped,by simp [hlink]⟩

end Linkage

open Linkage

def threeBlocks : List (Op 1) :=
  [.linkPage 0 0x1000 (fun _ => some 16) 0x1000 none,
    .linkPage 1 0x1ffe (fun _ => some 16) 0x1ffe (some 0x2000),
    .linkPage 2 0x3000 (fun _ => some 16) 0x3000 none,
    .addJump 0 0 1,.addJump 1 0 1,.addJump 1 1 2,.addJump 2 0 0,.addJump 2 1 1,
    .physInvalidate 1 none,.addJump 0 0 2,.resetJumpRecursive 0,.flush 0]

end Hqemu.Exec.Graph
