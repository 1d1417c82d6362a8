import Hqemu.Exec.Calls
import Hqemu.Lib.Lists
import Mathlib.Data.Finset.Prod
import Mathlib.Data.Fintype.Card

/-! The hash table and the page lists of the linked blocks. -/
namespace Hqemu.Exec.Graph

open Finset Function Lib.Chain Links

variable {cfg : Config} {links : Links} {linked live : Finset TbId}

structure HashInv (links : Links) (hashOf : TbId → Nat) (live : Finset TbId)
    (bucket : Nat → List TbId) : Prop where
  lists : Lists links.hash HashLoc.next HashLoc.bucket (fun _ => none) Set.univ bucket
  mem : ∀ h tb, tb ∈ bucket h ↔ tb ∈ live ∧ hashOf tb = h

open Links

theorem next_injective : Function.Injective HashLoc.next := fun _ _ => HashLoc.next.inj

theorem bucket_injective : Function.Injective HashLoc.bucket := fun _ _ => HashLoc.bucket.inj

variable {hashOf : TbId → Nat} {bucket : Nat → List TbId}

variable {changed : Links}

variable {tb : TbId}

section

variable (h : HashInv links hashOf live bucket)
include h

theorem HashInv.congr (hhash : changed.hash = links.hash) : HashInv changed hashOf live bucket :=
  ⟨hhash ▸ h.lists,h.mem⟩

theorem HashInv.link {hashOf' : TbId → Nat} {hash : Nat} (htb : tb ∉ live)
    (hhash : changed.hash = update
      (update links.hash (.next tb) (links.hash (.bucket hash))) (.bucket hash) (some tb))
    (hnew : hashOf' tb = hash) (hold : ∀ x ∈ live, hashOf' x = hashOf x) :
    HashInv changed hashOf' (insert tb live) (update bucket hash (tb :: bucket hash)) := by
  refine ⟨?_,fun value x => ?_⟩
  · rw [hhash]
    apply h.lists.push next_injective bucket_injective (Set.mem_univ hash)
    · intro value _ hmem
      exact htb ((h.mem value tb).mp hmem).1
    · simp
  · rw [mem_push,h.mem,mem_insert]
    constructor
    · rintro (⟨rfl,rfl⟩ | ⟨hlive,hval⟩)
      · exact ⟨.inl rfl,hnew⟩
      · exact ⟨.inr hlive,(hold x hlive).trans hval⟩
    · rintro ⟨rfl | hlive,hval⟩
      · exact .inl ⟨rfl,hval.symm.trans hnew⟩
      · exact .inr ⟨hlive,(hold x hlive).symm.trans hval⟩

theorem HashInv.of_tbRemove {value : Nat} (hremove : links.tbRemove cfg value tb = some changed) :
    tb ∈ live ∧ ∃ bucket', HashInv changed hashOf (live.erase tb) bucket' := by
  simp only [Links.tbRemove,Option.bind_eq_bind,Option.bind_eq_some_iff] at hremove
  obtain ⟨ptb,hfind,hremove⟩ := hremove
  cases hremove
  obtain ⟨front,node,back,hsplit,hhit,rfl⟩ :=
    findLink_split (h.lists.seg value (Set.mem_univ _)) hfind
  rw [beq_iff_eq] at hhit
  subst hhit
  have hlive := ((h.mem value node).mp (by simp [hsplit])).1
  refine ⟨hlive,_,h.lists.remove next_injective bucket_injective (Set.mem_univ _) hsplit,
    fun other x => ?_⟩
  rw [h.lists.mem_remove (Set.mem_univ _) (Set.mem_univ _) hsplit,h.mem,Finset.mem_erase,and_assoc]

theorem HashInv.tbRemove (htb : tb ∈ live) (hlim : live.card ≤ cfg.walkLimit) :
    ∃ ptb bucket', links.tbRemove cfg (hashOf tb) tb =
        some (links.setHash ptb (links.hash (.next tb))) ∧
      HashInv (links.setHash ptb (links.hash (.next tb))) hashOf (live.erase tb) bucket' := by
  have hnodup := h.lists.nodup (hashOf tb) (Set.mem_univ _)
  have hlen : (bucket (hashOf tb)).length ≤ live.card :=
    length_le_card hnodup live fun x hx => ((h.mem _ x).mp hx).1
  obtain ⟨front,back,-,hwalk⟩ := h.lists.find (· == tb) (Set.mem_univ _)
    ((h.mem _ tb).mpr ⟨htb,rfl⟩) (fun other _ => beq_iff_eq) (hlen.trans hlim)
  have hremove : links.tbRemove cfg (hashOf tb) tb = some (links.setHash
      (endCell HashLoc.next (.bucket (hashOf tb)) front) (links.hash (.next tb))) := by
    simp only [Links.tbRemove,hwalk,Option.bind_eq_bind,Option.bind_some]
    rfl
  obtain ⟨-,bucket',hinv⟩ := h.of_tbRemove hremove
  exact ⟨_,bucket',hremove,hinv⟩

end

def nodePage (cfg : Config) (links : Links) (node : TbId × Slot) : Option Nat :=
  (links.pageAddr node).map (pageIndex cfg)

structure PageLists (cfg : Config) (links : Links) (page : Nat → List (TbId × Slot)) : Prop where
  lists : Lists links.page Links.pageCell PageLoc.firstTb (fun _ => none) Set.univ page
  addr : ∀ p node, node ∈ page p → nodePage cfg links node = some p

structure PageInv (cfg : Config) (links : Links) (linked live : Finset TbId)
    (page : Nat → List (TbId × Slot)) : Prop extends PageLists cfg links page where
  mem : ∀ p node, node ∈ page p → node.1 ∈ linked
  covers : ∀ p node, node.1 ∈ live → nodePage cfg links node = some p → node ∈ page p
  first : ∀ tb ∈ linked, nodePage cfg links (tb,0) ≠ none
  differ : ∀ tb ∈ linked, nodePage cfg links (tb,0) ≠ nodePage cfg links (tb,1)

theorem pageCell_injective : Function.Injective pageCell := by
  rintro ⟨tb,n⟩ ⟨other,m⟩ heq
  cases heq
  rfl

theorem firstTb_injective : Function.Injective PageLoc.firstTb := fun _ _ => PageLoc.firstTb.inj

variable {page : Nat → List (TbId × Slot)}

theorem PageInv.congr (h : PageInv cfg links linked live page) (hpage : changed.page = links.page)
    (haddr : changed.pageAddr = links.pageAddr) : PageInv cfg changed linked live page := by
  have hnode : nodePage cfg changed = nodePage cfg links := by
    unfold nodePage
    rw [haddr]
  exact ⟨⟨hpage ▸ h.lists,hnode ▸ h.addr⟩,h.mem,hnode ▸ h.covers,hnode ▸ h.first,hnode ▸ h.differ⟩

theorem PageInv.of_live {live' : Finset TbId} (h : PageInv cfg links linked live page)
    (hlive : live' ⊆ live) : PageInv cfg links linked live' page :=
  ⟨h.toPageLists,h.mem,fun p node hnode => h.covers p node (hlive hnode),h.first,h.differ⟩

theorem PageLists.allocPage (h : PageLists cfg links page) (tb : TbId) (n : Slot) (addr : Nat)
    (hnew : ∀ p, (tb,n) ∉ page p) :
    PageLists cfg (links.tbAllocPage cfg tb n addr)
      (update page (pageIndex cfg addr) ((tb,n) :: page (pageIndex cfg addr))) := by
  obtain ⟨-,-,-,haddr,hpage⟩ := tbAllocPage_links cfg links tb n addr
  refine ⟨?_,fun p node hnode => ?_⟩
  · rw [hpage]
    exact h.lists.push pageCell_injective firstTb_injective (Set.mem_univ _)
      (fun p _ => hnew p) (by simp [pageCell])
  · unfold nodePage
    rw [haddr]
    rcases (mem_push p node).mp hnode with ⟨rfl,rfl⟩ | hold
    · simp
    have hne : node ≠ (tb,n) := by
      rintro rfl
      exact hnew p hold
    rw [update_of_ne hne]
    exact h.addr p node hold

theorem tbLinkPage_pageAddr (links : Links) (tb : TbId) (nextOffset : Slot → Option Nat)
    (physPc : Nat) (physPage2 : Option Nat) :
    (links.tbLinkPage cfg tb nextOffset physPc physPage2).pageAddr =
      update (update links.pageAddr (tb,0) (some (pageAlign cfg physPc))) (tb,1) physPage2 := by
  unfold tbLinkPage
  dsimp only
  split <;> split <;> cases physPage2 <;> simp [Links.tbResetJump,tbSetJmpTarget,setJmp,setHash,
      tbAllocPage_links]

theorem tbLinkPage_page (links : Links) (tb : TbId) (nextOffset : Slot → Option Nat)
    (physPc : Nat) (physPage2 : Option Nat) :
    (links.tbLinkPage cfg tb nextOffset physPc physPage2).page =
      (match physPage2 with
        | some page2 =>
          (links.tbAllocPage cfg tb 0 (pageAlign cfg physPc)).tbAllocPage cfg tb 1 page2
        | none => links.tbAllocPage cfg tb 0 (pageAlign cfg physPc)).page := by
  unfold tbLinkPage
  dsimp only
  split <;> split <;> cases physPage2 <;>
    simp [Links.tbResetJump,tbSetJmpTarget,setJmp,setHash,tbAllocPage_links]

theorem pageIndex_pageAlign (cfg : Config) (addr : Nat) :
    pageIndex cfg (pageAlign cfg addr) = pageIndex cfg addr :=
  Nat.mul_div_cancel _ (targetPageSize_pos cfg)

theorem tbLinkPage_nodePage (links : Links) (tb : TbId) (nextOffset : Slot → Option Nat)
    (physPc : Nat) (physPage2 : Option Nat) (node : TbId × Slot) :
    nodePage cfg (links.tbLinkPage cfg tb nextOffset physPc physPage2) node =
      if node = (tb,1) then physPage2.map (pageIndex cfg)
      else if node = (tb,0) then some (pageIndex cfg physPc)
      else nodePage cfg links node := by
  unfold nodePage
  rw [tbLinkPage_pageAddr,update_apply,update_apply]
  split
  · rfl
  split
  · simp [pageIndex_pageAlign]
  · rfl

theorem tbLinkPage_nodePage_of_ne {nextOffset : Slot → Option Nat} {physPc : Nat}
    {physPage2 : Option Nat} {x : TbId} (hx : x ≠ tb) (m : Slot) :
    nodePage cfg (links.tbLinkPage cfg tb nextOffset physPc physPage2) (x,m) =
      nodePage cfg links (x,m) := by
  rw [tbLinkPage_nodePage,if_neg (by simp [hx]),if_neg (by simp [hx])]

theorem PageLists.link (h : PageLists cfg links page) (nextOffset : Slot → Option Nat)
    (physPc : Nat) (physPage2 : Option Nat) (hnew : ∀ n p, (tb,n) ∉ page p) :
    ∃ page', Lists (links.tbLinkPage cfg tb nextOffset physPc physPage2).page pageCell
        PageLoc.firstTb (fun _ => none) Set.univ page' ∧
      ∀ p node, node ∈ page' p ↔ node ∈ page p ∨ node.1 = tb ∧
        nodePage cfg (links.tbLinkPage cfg tb nextOffset physPc physPage2) node = some p := by
  have hfirst := h.allocPage tb 0 (pageAlign cfg physPc) (hnew 0)
  rw [tbLinkPage_page]
  cases physPage2 with
  | none =>
    refine ⟨_,hfirst.lists,fun p node => ?_⟩
    rw [mem_push,tbLinkPage_nodePage,pageIndex_pageAlign]
    obtain ⟨b,m⟩ := node
    by_cases hb : b = tb
    · subst hb
      rcases slot_cases m with rfl | rfl <;> simp [eq_comm,or_comm]
    · simp [hb]
  | some page2 =>
    have hother : ∀ p, (tb,(1 : Slot)) ∉ update page (pageIndex cfg (pageAlign cfg physPc))
        ((tb,0) :: page (pageIndex cfg (pageAlign cfg physPc))) p := by
      intro p hmem
      rcases (mem_push p _).mp hmem with ⟨heq,-⟩ | hold
      · simp at heq
      · exact hnew 1 p hold
    have hsound := hfirst.allocPage tb 1 page2 hother
    refine ⟨_,hsound.lists,fun p node => ?_⟩
    rw [mem_push,mem_push,tbLinkPage_nodePage,pageIndex_pageAlign]
    obtain ⟨b,m⟩ := node
    by_cases hb : b = tb
    · subst hb
      rcases slot_cases m with rfl | rfl <;> simp [eq_comm,or_comm]
    · simp [hb]

theorem PageInv.link {nextOffset : Slot → Option Nat} {physPc : Nat} {physPage2 : Option Nat}
    (h : PageInv cfg links linked live page) (hsub : live ⊆ linked) (htb : tb ∉ linked)
    (hpages : ∀ page2, physPage2 = some page2 → pageIndex cfg page2 ≠ pageIndex cfg physPc) :
    ∃ page', PageInv cfg (links.tbLinkPage cfg tb nextOffset physPc physPage2)
      (insert tb linked) (insert tb live) page' := by
  have hnew : ∀ n p, (tb,n) ∉ page p := fun n p hmem => htb (h.mem p _ hmem)
  obtain ⟨page',hlists,hmem⟩ := h.toPageLists.link nextOffset physPc physPage2 hnew
  have hold : ∀ other ∈ linked, ∀ n,
      nodePage cfg (links.tbLinkPage cfg tb nextOffset physPc physPage2) (other,n) =
        nodePage cfg links (other,n) := fun other hother n =>
    tbLinkPage_nodePage_of_ne (ne_of_mem_of_not_mem hother htb) n
  refine ⟨page',⟨hlists,fun p node hnode => ?_⟩,fun p node hnode => ?_,
    fun p node hlive haddr => ?_,fun other hother => ?_,fun other hother => ?_⟩
  · rcases (hmem p node).mp hnode with hin | ⟨-,haddr⟩
    · rw [hold _ (h.mem p node hin)]
      exact h.addr p node hin
    · exact haddr
  · rcases (hmem p node).mp hnode with hin | ⟨heq,-⟩
    · exact Finset.mem_insert_of_mem (h.mem p node hin)
    · exact heq ▸ Finset.mem_insert_self _ _
  · rw [hmem]
    rcases mem_insert.mp hlive with heq | hlive
    · exact .inr ⟨heq,haddr⟩
    · rw [hold _ (hsub hlive)] at haddr
      exact .inl (h.covers p node hlive haddr)
  · rcases mem_insert.mp hother with rfl | hother
    · simp [tbLinkPage_nodePage]
    · rw [hold _ hother]
      exact h.first other hother
  · rcases mem_insert.mp hother with rfl | hother
    · rw [tbLinkPage_nodePage,tbLinkPage_nodePage,if_neg (by simp),if_pos rfl,if_pos rfl]
      cases physPage2 with
      | none => simp
      | some page2 => simpa using (hpages page2 rfl).symm
    · rw [hold _ hother,hold _ hother]
      exact h.differ other hother

def OnlyPages (links changed : Links) : Prop :=
  ∃ page pageDesc, changed = { links with page := page, pageDesc := pageDesc }

theorem card_nodes (linked : Finset TbId) :
    (linked ×ˢ (Finset.univ : Finset Slot)).card = 2*linked.card := by
  rw [card_product,Finset.card_univ,Fintype.card_fin,Nat.mul_comm]

theorem leavePage_some {addr : Nat} {skip : Option Nat}
    (hlists : Lists links.page pageCell PageLoc.firstTb (fun _ => none) Set.univ page)
    (h : links.leavePage cfg tb (some addr) skip = some changed) (hskip : some addr ≠ skip) :
    ∃ m page', (tb,m) ∈ page (pageIndex cfg addr) ∧
      Lists changed.page pageCell PageLoc.firstTb (fun _ => none) Set.univ page' ∧
      (∀ p node, node ∈ page' p ↔ node ≠ (tb,m) ∧ node ∈ page p) ∧
      ∀ p, pageIndex cfg addr ≠ p → page' p = page p := by
  simp only [Links.leavePage,if_neg hskip,tbPageRemove,Option.bind_eq_bind,
    Option.bind_eq_some_iff] at h
  obtain ⟨removed,⟨ptb,hfind,node,hnode,hremoved⟩,h⟩ := h
  cases hremoved
  cases h
  have hseg := hlists.seg (pageIndex cfg addr) (Set.mem_univ _)
  obtain ⟨front,found,back,hsplit,hhit,rfl⟩ := findLink_split hseg hfind
  rw [hsplit] at hseg
  rw [seg_endCell hseg] at hnode
  cases hnode
  obtain ⟨b,m⟩ := node
  rw [beq_iff_eq] at hhit
  cases hhit
  exact ⟨m,update page (pageIndex cfg addr) (front ++ back),by simp [hsplit],
    hlists.remove pageCell_injective firstTb_injective (Set.mem_univ _) hsplit,
    fun p => hlists.mem_remove (Set.mem_univ _) (Set.mem_univ _) hsplit,
    fun p hp => update_of_ne hp.symm _ _⟩

section

variable (h : PageInv cfg links linked live page)
include h

theorem PageInv.length_le (p : Nat) : (page p).length ≤ 2*linked.card := by
  rw [← card_nodes]
  apply length_le_card (h.lists.nodup p (Set.mem_univ _))
  intro node hnode
  exact mem_product.mpr ⟨h.mem p node hnode,mem_univ _⟩

theorem PageInv.node_eq {n m : Slot} {p : Nat} (hn : (tb,n) ∈ page p) (hm : (tb,m) ∈ page p) :
    m = n := by
  have hsame : nodePage cfg links (tb,n) = nodePage cfg links (tb,m) :=
    (h.addr p _ hn).trans (h.addr p _ hm).symm
  have hdiffer := h.differ tb (h.mem p _ hn)
  rcases slot_cases n with rfl | rfl <;> rcases slot_cases m with rfl | rfl
  · rfl
  · exact absurd hsame hdiffer
  · exact absurd hsame.symm hdiffer
  · rfl

theorem PageInv.leavePage {n : Slot} {addr : Nat} (hdead : tb ∉ live)
    (hmem : (tb,n) ∈ page (pageIndex cfg addr))
    (hlim : 2*linked.card ≤ cfg.walkLimit) (skip : Option Nat) :
    ∃ changed page', links.leavePage cfg tb (some addr) skip = some changed ∧
      OnlyPages links changed ∧ PageInv cfg changed linked live page' ∧
      ∀ p node, node ≠ (tb,n) → node ∈ page p → node ∈ page' p := by
  by_cases hskip : some addr = skip
  · exact ⟨links,page,if_pos hskip,⟨_,_,rfl⟩,h,fun _ _ _ hnode => hnode⟩
  have honly : ∀ node ∈ page (pageIndex cfg addr), (node.1 == tb) = true ↔ node = (tb,n) := by
    rintro ⟨b,m⟩ hnode
    rw [beq_iff_eq]
    constructor
    · rintro rfl
      rw [h.node_eq hmem hnode]
    · intro heq
      exact congrArg Prod.fst heq
  obtain ⟨front,back,hsplit,hwalk⟩ := h.lists.find (·.1 == tb) (Set.mem_univ _) hmem honly
    ((h.length_le _).trans hlim)
  have hseg := h.lists.seg (pageIndex cfg addr) (Set.mem_univ _)
  rw [hsplit] at hseg
  have hleave : links.leavePage cfg tb (some addr) skip = some ((links.setPage
      (endCell pageCell (.firstTb (pageIndex cfg addr)) front)
      (links.page (pageCell (tb,n)))).invalidatePageBitmap (pageIndex cfg addr)) := by
    simp only [Links.leavePage,if_neg hskip,tbPageRemove,hwalk,seg_endCell hseg,
      Option.bind_eq_bind,Option.bind_some]
    rfl
  obtain ⟨m,page',hm,hlists,hpage,-⟩ := leavePage_some h.lists hleave hskip
  obtain rfl := h.node_eq hmem hm
  refine ⟨_,page',hleave,⟨_,_,rfl⟩, ⟨⟨hlists,fun p node hnode => h.addr p node ((hpage p node).mp
      hnode).2⟩,
      fun p node hnode => h.mem p node ((hpage p node).mp hnode).2,
      fun p node hlive haddr => (hpage p node).mpr ⟨?_,h.covers p node hlive haddr⟩,
      h.first,h.differ⟩,fun p node hne hnode => (hpage p node).mpr ⟨hne,hnode⟩⟩
  rintro rfl
  exact hdead hlive

end

end Hqemu.Exec.Graph
