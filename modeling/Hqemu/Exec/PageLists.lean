import Hqemu.Exec.Graph

/-! The page lists under invalidation, also when both pages of a block are one physical page. The
lists of the pages in `dom` are exact. -/
namespace Hqemu.Exec.Graph

open Option Lib.Chain Links

variable {n : Nat} {cfg : Config} {links changed : Links} {w next : World n} {tb : TbId}
  {dom : Set Nat} {live : Finset TbId} {page : Nat → List (TbId × Slot)}

structure OnPages (cfg : Config) (links : Links) (dom : Set Nat) (live : Finset TbId)
    (page : Nat → List (TbId × Slot)) : Prop where
  lists : Lists links.page pageCell PageLoc.firstTb (fun _ => none) Set.univ page
  mem : ∀ p ∈ dom, ∀ node, node ∈ page p ↔ node.1 ∈ live ∧ nodePage cfg links node = some p

structure KeepsPages (links changed : Links) : Prop where
  pageAddr : changed.pageAddr = links.pageAddr
  hostProt : changed.hostProt = links.hostProt
  flags : ∀ p, (changed.pageDesc p).flags = (links.pageDesc p).flags
  bitmap : ∀ p tab, (changed.pageDesc p).codeBitmap = some tab →
    (links.pageDesc p).codeBitmap = some tab

theorem KeepsPages.refl (links : Links) : KeepsPages links links :=
  ⟨rfl,rfl,fun _ => rfl,fun _ _ h => h⟩

theorem KeepsPages.trans {last : Links} (h : KeepsPages links changed)
    (hlast : KeepsPages changed last) : KeepsPages links last where
  pageAddr := hlast.pageAddr.trans h.pageAddr
  hostProt := hlast.hostProt.trans h.hostProt
  flags p := (hlast.flags p).trans (h.flags p)
  bitmap p tab htable := h.bitmap p tab (hlast.bitmap p tab htable)

theorem KeepsPages.nodePage (h : KeepsPages links changed) :
    nodePage cfg changed = nodePage cfg links := by
  unfold Graph.nodePage
  rw [h.pageAddr]

theorem keepsPages_invalidatePageBitmap (links : Links) (p : Nat) :
    KeepsPages links (links.invalidatePageBitmap p) := by
  refine ⟨rfl,rfl,fun q => ?_,fun q tab htable => ?_⟩
  · by_cases hq : q = p
    · subst hq
      simp [invalidatePageBitmap]
    · simp [invalidatePageBitmap,hq]
  · by_cases hq : q = p
    · subst hq
      simp [invalidatePageBitmap] at htable
    · simpa [invalidatePageBitmap,hq] using htable

theorem keepsPages_setPage (links : Links) (loc : PageLoc) (value : Option (TbId × Slot)) :
    KeepsPages links (links.setPage loc value) :=
  ⟨rfl,rfl,fun _ => rfl,fun _ _ h => h⟩

theorem OnlyJumps.keepsPages (h : OnlyJumps links changed) : KeepsPages links changed := by
  obtain ⟨jmp,jmpTarget,rfl⟩ := h
  exact ⟨rfl,rfl,fun _ => rfl,fun _ _ h => h⟩

theorem OnlyJumps.page_eq (h : OnlyJumps links changed) : changed.page = links.page := by
  obtain ⟨jmp,jmpTarget,rfl⟩ := h
  rfl

theorem tbJmpRemove_onlyJumps {m : Slot} (h : links.tbJmpRemove cfg tb m = some changed) :
    OnlyJumps links changed := by
  unfold tbJmpRemove at h
  split at h
  · cases h
    exact ⟨_,_,rfl⟩
  · simp only [bind_eq_bind,bind_eq_some_iff] at h
    obtain ⟨ptb,-,h⟩ := h
    cases h
    exact ⟨_,_,rfl⟩

theorem suppressJumps_onlyJumps {limit : Nat} {ptr : Option JmpLoc}
    (h : suppressJumps limit links ptr = some changed) : OnlyJumps links changed := by
  induction limit generalizing links ptr with
  | zero => simp [suppressJumps] at h
  | succ limit ih =>
    cases ptr with
    | none => simp [suppressJumps] at h
    | some loc =>
      cases loc with
      | first tb1 =>
        cases h
        exact ⟨_,_,rfl⟩
      | next tb1 n1 =>
        have hreset : OnlyJumps links
            ((links.tbResetJump tb1 n1).setJmp (.next tb1 n1) none) := ⟨_,_,rfl⟩
        exact hreset.trans (ih h)

variable {skip : Option Nat}

theorem keepsPages_leavePage {addr : Option Nat}
    (h : links.leavePage cfg tb addr skip = some changed) : KeepsPages links changed := by
  cases addr with
  | none =>
    cases h
    exact KeepsPages.refl _
  | some addr =>
    simp only [leavePage,tbPageRemove,bind_eq_bind] at h
    split at h
    · cases h
      exact KeepsPages.refl _
    · simp only [bind_eq_some_iff] at h
      obtain ⟨removed,⟨ptb,-,node,-,hremoved⟩,h⟩ := h
      cases hremoved
      cases h
      exact (keepsPages_setPage links _ _).trans (keepsPages_invalidatePageBitmap _ _)

theorem keepsPages_tbPhysInvalidate (h : w.tbPhysInvalidate cfg tb skip = some next) :
    KeepsPages w.links next.links := by
  simp only [World.tbPhysInvalidate,bind_eq_bind,bind_eq_some_iff] at h
  obtain ⟨page0,-,removed,hremoved,left0,hleft0,left1,hleft1,jmp0,hjmp0,jmp1,hjmp1,
    suppressed,hsupply,h⟩ := h
  cases h
  obtain ⟨ptb,-,rfl⟩ := tbRemove_some hremoved
  have hjumps : OnlyJumps left1 (suppressed.setJmp (.first tb) (some (.first tb))) :=
    (((tbJmpRemove_onlyJumps hjmp0).trans (tbJmpRemove_onlyJumps hjmp1)).trans
      (suppressJumps_onlyJumps hsupply)).trans ⟨_,_,rfl⟩
  have hhash : KeepsPages w.links (w.links.setHash ptb (w.links.hash (.next tb))) :=
    ⟨rfl,rfl,fun _ => rfl,fun _ _ h => h⟩
  exact ((hhash.trans (keepsPages_leavePage hleft0)).trans (keepsPages_leavePage hleft1)).trans
    hjumps.keepsPages

theorem OnPages.leavePages {page0 : Nat} {left0 left1 : Links} (h : OnPages cfg links dom live page)
    (hskip : ∀ addr, skip = some addr → pageIndex cfg addr ∉ dom)
    (haddr : links.pageAddr (tb,0) = some page0)
    (hleft0 : links.leavePage cfg tb (some page0) skip = some left0)
    (hleft1 : left0.leavePage cfg tb (links.pageAddr (tb,1)) skip = some left1) :
    ∃ page', OnPages cfg left1 dom (live.erase tb) page' ∧
      (∀ p node, node ∈ page' p → node ∈ page p) ∧
      ∀ p, (∀ m addr, links.pageAddr (tb,m) = some addr → some addr ≠ skip →
        pageIndex cfg addr ≠ p) → page' p = page p := by
  have hs : ∀ {links changed : Links} {page : Nat → List (TbId × Slot)} {addr : Option Nat},
      Lists links.page pageCell PageLoc.firstTb (fun _ => none) Set.univ page →
      links.leavePage cfg tb addr skip = some changed →
      ∃ page', Lists changed.page pageCell PageLoc.firstTb (fun _ => none) Set.univ page' ∧
        (∀ p node, node ∈ page' p → node ∈ page p) ∧
        (∀ p node, node ∈ page p → node.1 ≠ tb → node ∈ page' p) ∧
        (∀ a, addr = some a → pageIndex cfg a ∈ dom →
          ∃ m, (tb,m) ∈ page (pageIndex cfg a) ∧ ∀ p, (tb,m) ∉ page' p) ∧
        ∀ p, (∀ a, addr = some a → some a ≠ skip → pageIndex cfg a ≠ p) → page' p = page p := by
    intro links changed page addr hlists hleave
    by_cases hsame : addr = none ∨ addr = skip
    · have hchanged : changed = links := by
        cases addr with
        | none =>
          cases hleave
          rfl
        | some a =>
          have heq : some a = skip := hsame.resolve_left nofun
          simp only [leavePage,if_pos heq] at hleave
          exact (some.inj hleave).symm
      rw [hchanged]
      refine ⟨page,hlists,fun _ _ h => h,fun _ _ h _ => h,?_,fun _ _ => rfl⟩
      intro a ha hdom
      rcases hsame with hnone | heq
      · rw [ha] at hnone
        cases hnone
      · exact absurd hdom (hskip a (heq ▸ ha))
    · rw [not_or] at hsame
      obtain ⟨a,rfl⟩ := ne_none_iff_exists'.mp hsame.1
      obtain ⟨m,page',hm,hlists',hmem,hother⟩ := leavePage_some hlists hleave hsame.2
      refine ⟨page',hlists',fun p node hnode => ((hmem p node).mp hnode).2,
        fun p node hnode hne => (hmem p node).mpr ⟨fun heq => hne (by rw [heq]),hnode⟩,?_,
        fun p hp => hother p (hp a rfl hsame.2)⟩
      intro b hb _
      cases hb
      exact ⟨m,hm,fun p hp => ((hmem p _).mp hp).1 rfl⟩
  obtain ⟨page1,hlists1,hsub1,hkept1,hgone1,hother1⟩ := hs h.lists hleft0
  obtain ⟨page2,hlists2,hsub2,hkept2,hgone2,hother2⟩ := hs hlists1 hleft1
  have hkeeps := (keepsPages_leavePage hleft0).trans (keepsPages_leavePage hleft1)
  refine ⟨page2,⟨hlists2,fun p hp node => ?_⟩,
    fun p node hnode => hsub1 p node (hsub2 p node hnode),fun p hp => ?_⟩
  rotate_left
  · rw [hother2 p fun a ha => hp 1 a ha,hother1 p fun a ha => hp 0 a (ha ▸ haddr)]
  rw [hkeeps.nodePage,Finset.mem_erase,and_assoc,← h.mem p hp]
  constructor
  · intro hnode
    have hold : node ∈ page p := hsub1 p node (hsub2 p node hnode)
    refine ⟨fun heq => ?_,hold⟩
    obtain ⟨b,j⟩ := node
    have hb : tb = b := heq.symm
    subst hb
    have hpage : ∀ i, (tb,i) ∈ page p → ∃ a, links.pageAddr (tb,i) = some a ∧
        pageIndex cfg a = p := by
      intro i hi
      have hnodePage := ((h.mem p hp _).mp hi).2
      rw [Graph.nodePage,map_eq_some_iff] at hnodePage
      exact hnodePage
    have hz : (tb,(0 : Slot)) ∈ page p → ∃ m, (tb,m) ∈ page p ∧ ∀ q, (tb,m) ∉ page1 q := by
      intro hin
      obtain ⟨a,ha,rfl⟩ := hpage 0 hin
      cases haddr.symm.trans ha
      exact hgone1 page0 rfl hp
    have hone : (tb,(1 : Slot)) ∈ page p → ∃ m, (tb,m) ∈ page1 p ∧ ∀ q, (tb,m) ∉ page2 q := by
      intro hin
      obtain ⟨a,ha,rfl⟩ := hpage 1 hin
      exact hgone2 a ha hp
    rcases slot_cases j with rfl | rfl
    · obtain ⟨m,hm,hgone⟩ := hz hold
      rcases slot_cases m with rfl | rfl
      · exact hgone _ (hsub2 _ _ hnode)
      · obtain ⟨m,hm,hgone'⟩ := hone hm
        rcases slot_cases m with rfl | rfl
        · exact hgone' _ hnode
        · exact hgone _ hm
    · obtain ⟨m,hm,hgone⟩ := hone hold
      rcases slot_cases m with rfl | rfl
      · obtain ⟨m,-,hgone'⟩ := hz (hsub1 _ _ hm)
        rcases slot_cases m with rfl | rfl
        · exact hgone' _ hm
        · exact hgone' _ (hsub2 _ _ hnode)
      · exact hgone _ hnode
  · rintro ⟨hne,hnode⟩
    exact hkept2 p node (hkept1 p node hnode hne) hne

theorem OnPages.physInvalidate (h : OnPages cfg w.links dom live page)
    (hskip : ∀ addr, skip = some addr → pageIndex cfg addr ∉ dom)
    (hnext : w.tbPhysInvalidate cfg tb skip = some next) :
    next.desc = w.desc ∧ next.nbTbs = w.nbTbs ∧
      ∃ page', OnPages cfg next.links dom (live.erase tb) page' ∧
        (∀ p node, node ∈ page' p → node ∈ page p) ∧
        ∀ p, (∀ m addr, w.links.pageAddr (tb,m) = some addr → some addr ≠ skip →
          pageIndex cfg addr ≠ p) → page' p = page p := by
  simp only [World.tbPhysInvalidate,bind_eq_bind,bind_eq_some_iff] at hnext
  obtain ⟨page0,haddr,removed,hremoved,left0,hleft0,left1,hleft1,jmp0,hjmp0,jmp1,hjmp1,
    suppressed,hsupply,hnext⟩ := hnext
  cases hnext
  obtain ⟨ptb,-,rfl⟩ := tbRemove_some hremoved
  have hremovedPages : OnPages cfg (w.links.setHash ptb (w.links.hash (.next tb))) dom live page :=
    ⟨h.lists,h.mem⟩
  obtain ⟨page',hpages,hsub,hother⟩ := hremovedPages.leavePages hskip haddr hleft0 hleft1
  have hjumps : OnlyJumps left1 (suppressed.setJmp (.first tb) (some (.first tb))) :=
    (((tbJmpRemove_onlyJumps hjmp0).trans (tbJmpRemove_onlyJumps hjmp1)).trans
      (suppressJumps_onlyJumps hsupply)).trans ⟨_,_,rfl⟩
  refine ⟨rfl,rfl,page',⟨?_,?_⟩,hsub,hother⟩
  · dsimp only
    rw [hjumps.page_eq]
    exact hpages.lists
  · dsimp only
    rw [hjumps.keepsPages.nodePage]
    exact hpages.mem

variable {nextOffset : Slot → Option Nat} {physPc : Nat} {physPage2 : Option Nat}

theorem OnPages.link (h : OnPages cfg links Set.univ live page) (htb : tb ∉ live) :
    ∃ page', OnPages cfg (links.tbLinkPage cfg tb nextOffset physPc physPage2) Set.univ
        (insert tb live) page' ∧
      ∀ p node, node ∈ page' p → node.1 ≠ tb → node ∈ page p := by
  have hold : PageLists cfg links page :=
    ⟨h.lists,fun p node hnode => ((h.mem p (Set.mem_univ _) node).mp hnode).2⟩
  have hnew : ∀ m p, (tb,m) ∉ page p := fun m p hmem =>
    htb ((h.mem p (Set.mem_univ _) _).mp hmem).1
  obtain ⟨page',hlists,hmem⟩ := hold.link nextOffset physPc physPage2 hnew
  refine ⟨page',⟨hlists,fun p _ node => ?_⟩,fun p node hnode hne => ?_⟩
  · rw [hmem,h.mem p (Set.mem_univ _),Finset.mem_insert]
    obtain ⟨x,m⟩ := node
    by_cases hx : x = tb
    · subst hx
      simp [htb]
    · simp [hx,tbLinkPage_nodePage_of_ne hx]
  · exact ((hmem p node).mp hnode).resolve_right fun hright => hne hright.1

theorem tbLinkPage_nodePage_self {p : Nat} {m : Slot}
    (h : nodePage cfg (links.tbLinkPage cfg tb nextOffset physPc physPage2) (tb,m) = some p) :
    pageIndex cfg physPc = p ∨ physPage2.map (pageIndex cfg) = some p := by
  rw [tbLinkPage_nodePage] at h
  rcases slot_cases m with rfl | rfl
  · rw [if_neg (by simp),if_pos rfl] at h
    exact .inl (some.inj h)
  · exact .inr (by simpa using h)

end Hqemu.Exec.Graph
