import Hqemu.Exec.Tables

/-! The circular jump lists: from `jmp_first` of a block through the `jmp_next` cells of the jumps
chained to it and back. -/
namespace Hqemu.Exec.Graph

open Function List Lib.Chain Links

variable {cfg : Config} {links : Links} {linked : Finset TbId} {wired : TbId × Slot → Prop}
  {chain : TbId → List JmpLoc}

structure JmpInv (links : Links) (linked : Finset TbId) (wired : TbId × Slot → Prop)
    (chain : TbId → List JmpLoc) : Prop where
  lists : Lists links.jmp id JmpLoc.first (fun t => some (.first t)) {t | t ∈ linked} chain
  mem : ∀ t ∈ linked, ∀ loc ∈ chain t, ∃ b n, loc = .next b n ∧ b ∈ linked ∧
    links.jmpTarget (b,n) = .block t
  complete : ∀ b ∈ linked, ∀ n, links.jmp (.next b n) ≠ none → ∃ t ∈ linked, .next b n ∈ chain t
  unchained : ∀ b n, wired (b,n) → links.jmp (.next b n) = none →
    links.jmpTarget (b,n) = .stub b n

theorem first_injective : Function.Injective JmpLoc.first := fun _ _ => JmpLoc.first.inj

variable {t : TbId}
variable {n : Slot}

section

variable (h : JmpInv links linked wired chain)
include h

theorem JmpInv.congr {changed : Links} (hjmp : changed.jmp = links.jmp)
    (htarget : changed.jmpTarget = links.jmpTarget) : JmpInv changed linked wired chain := by
  refine ⟨hjmp ▸ h.lists,htarget ▸ h.mem,hjmp ▸ h.complete,?_⟩
  rw [hjmp,htarget]
  exact h.unchained

theorem JmpInv.of_wired {wired' : TbId × Slot → Prop} (hwired : ∀ x, wired' x → wired x) :
    JmpInv links linked wired' chain :=
  ⟨h.lists,h.mem,h.complete,fun b n hx => h.unchained b n (hwired _ hx)⟩

theorem JmpInv.jmp_ne_none {loc : JmpLoc} (ht : t ∈ linked)
    (hloc : loc ∈ chain t) : links.jmp loc ≠ none :=
  seg_cell (h.lists.seg t ht) (by simp) hloc

theorem JmpInv.mem_iff {b : TbId} (ht : t ∈ linked) :
    .next b n ∈ chain t ↔
      b ∈ linked ∧ links.jmp (.next b n) ≠ none ∧ links.jmpTarget (b,n) = .block t := by
  constructor
  · intro hmem
    obtain ⟨b',n',heq,hb,htarget⟩ := h.mem t ht _ hmem
    cases heq
    exact ⟨hb,h.jmp_ne_none ht hmem,htarget⟩
  · rintro ⟨hb,hjmp,htarget⟩
    obtain ⟨t',ht',hmem⟩ := h.complete b hb n hjmp
    obtain ⟨b',n',heq,-,htarget'⟩ := h.mem t' ht' _ hmem
    cases heq
    have heq : t' = t := JmpTarget.block.inj (htarget'.symm.trans htarget)
    exact heq ▸ hmem

theorem JmpInv.length_le (ht : t ∈ linked) : (chain t).length ≤ 2*linked.card := by
  rw [← card_nodes,← Finset.card_image_of_injOn (f := fun x : TbId × Slot => JmpLoc.next x.1 x.2)
    (fun x _ y _ heq => by cases x; cases y; cases heq; rfl)]
  apply length_le_card (h.lists.nodup t ht)
  intro loc hloc
  obtain ⟨b,n,rfl,hb,-⟩ := h.mem t ht loc hloc
  exact Finset.mem_image.mpr ⟨(b,n),Finset.mem_product.mpr ⟨hb,Finset.mem_univ _⟩,rfl⟩

end

theorem tbLinkPage_jmp (links : Links) (tb : TbId) (nextOffset : Slot → Option Nat)
    (physPc : Nat) (physPage2 : Option Nat) (loc : JmpLoc) :
    (links.tbLinkPage cfg tb nextOffset physPc physPage2).jmp loc =
      match loc with
      | .first b => if b = tb then some (.first tb) else links.jmp loc
      | .next b _ => if b = tb then none else links.jmp loc := by
  unfold tbLinkPage
  dsimp only
  cases loc with
  | first b =>
    split <;> split <;> cases physPage2 <;>
      simp [tbResetJump,tbSetJmpTarget,setJmp,setHash,tbAllocPage_links,update_apply]
  | next b n =>
    rcases slot_cases n with rfl | rfl <;> split <;> split <;> cases physPage2 <;>
      simp [tbResetJump,tbSetJmpTarget,setJmp,setHash,tbAllocPage_links,update_apply]

variable {tb : TbId}

theorem JmpInv.link {nextOffset : Slot → Option Nat} {physPc : Nat} {physPage2 : Option Nat}
    {wired' : TbId × Slot → Prop} (h : JmpInv links linked wired chain) (htb : tb ∉ linked)
    (hnew : ∀ n, wired' (tb,n) → (nextOffset n).isSome)
    (hold : ∀ b n, b ≠ tb → wired' (b,n) → wired (b,n)) :
    JmpInv (links.tbLinkPage cfg tb nextOffset physPc physPage2) (insert tb linked) wired'
      (update chain tb []) := by
  have hne : ∀ b ∈ linked, b ≠ tb := by
    rintro b hb rfl
    exact htb hb
  have hkeep : ∀ b ∈ linked, ∀ n,
      (links.tbLinkPage cfg tb nextOffset physPc physPage2).jmp (.next b n) =
        links.jmp (.next b n) := by
    intro b hb n
    rw [tbLinkPage_jmp]
    exact if_neg (hne b hb)
  refine ⟨?_,fun t ht loc hloc => ?_,fun b hb n hjmp => ?_,fun b n hx hjmp => ?_⟩
  · have hframe : Lists (links.tbLinkPage cfg tb nextOffset physPc physPage2).jmp id JmpLoc.first
        (fun t => some (.first t)) {t | t ∈ linked} chain := by
      apply h.lists.congr
      · intro t ht
        rw [tbLinkPage_jmp]
        exact if_neg (hne t ht)
      · intro t ht loc hloc
        obtain ⟨b,n,rfl,hb,-⟩ := h.mem t ht loc hloc
        exact hkeep b hb n
    have hself : (links.tbLinkPage cfg tb nextOffset physPc physPage2).jmp (.first tb) =
        some (.first tb) := by
      rw [tbLinkPage_jmp]
      exact if_pos rfl
    have hinsert := hframe.insert_nil hself (fun t ht loc hloc => by
      obtain ⟨b,n,rfl,-,-⟩ := h.mem t ht loc hloc
      simp)
    exact hinsert.mono fun t ht => Finset.mem_insert.mp ht
  · rcases Finset.mem_insert.mp ht with rfl | ht
    · simp at hloc
    · rw [update_of_ne (hne t ht)] at hloc
      obtain ⟨b,n,rfl,hb,htarget⟩ := h.mem t ht loc hloc
      refine ⟨b,n,rfl,Finset.mem_insert_of_mem hb,?_⟩
      rw [tbLinkPage_jmpTarget,if_neg fun hx => hne b hb hx.1]
      exact htarget
  · rcases Finset.mem_insert.mp hb with rfl | hb
    · rw [tbLinkPage_jmp] at hjmp
      exact absurd (if_pos rfl) hjmp
    · rw [hkeep b hb n] at hjmp
      obtain ⟨t,ht,hmem⟩ := h.complete b hb n hjmp
      refine ⟨t,Finset.mem_insert_of_mem ht,?_⟩
      rwa [update_of_ne (hne t ht)]
  · rw [tbLinkPage_jmpTarget]
    by_cases hb : b = tb
    · subst hb
      rw [if_pos ⟨rfl,hnew n hx⟩]
    · rw [if_neg fun hx => hb hx.1]
      rw [tbLinkPage_jmp] at hjmp
      exact h.unchained b n (hold b n hb hx) ((if_neg hb).symm.trans hjmp)

theorem JmpInv.addJump {tbNext : TbId} (h : JmpInv links linked wired chain) (htb : tb ∈ linked)
    (hnext : tbNext ∈ linked) :
    ∃ chain', JmpInv (links.tbAddJump tb n tbNext) linked wired chain' := by
  unfold tbAddJump
  split
  · exact ⟨chain,h⟩
  rename_i hfree
  have hnew : ∀ t ∈ linked, .next tb n ∉ chain t := fun t ht hmem =>
    h.jmp_ne_none ht hmem hfree
  have hloc : ∀ b m, (b,m) ≠ (tb,n) → JmpLoc.next b m ≠ .next tb n := by
    rintro b m hne ⟨⟩
    exact hne rfl
  refine ⟨update chain tbNext (.next tb n :: chain tbNext),?_,fun t ht loc hloc => ?_,
    fun b hb m hjmp => ?_,fun b m hx hjmp => ?_⟩
  · exact h.lists.push injective_id first_injective hnext hnew (by simp)
  · rcases (mem_push t loc).mp hloc with ⟨rfl,rfl⟩ | hold
    · exact ⟨tb,n,rfl,htb,by simp [setJmp,tbSetJmpTarget]⟩
    · obtain ⟨b,m,rfl,hb,htarget⟩ := h.mem t ht loc hold
      refine ⟨b,m,rfl,hb,?_⟩
      have hne : (b,m) ≠ (tb,n) := by
        rintro ⟨⟩
        exact hnew t ht hold
      simpa [setJmp,tbSetJmpTarget,hne] using htarget
  · by_cases hx : (b,m) = (tb,n)
    · cases hx
      exact ⟨tbNext,hnext,by simp⟩
    · have hold : links.jmp (.next b m) ≠ none := by
        simpa [setJmp,tbSetJmpTarget,hloc b m hx] using hjmp
      obtain ⟨t,ht,hmem⟩ := h.complete b hb m hold
      exact ⟨t,ht,(mem_push t _).mpr (.inr hmem)⟩
  · by_cases hslot : (b,m) = (tb,n)
    · cases hslot
      have hfirst : links.jmp (.first tbNext) ≠ none := seg_start (h.lists.seg tbNext hnext) (by
          simp)
      simp [setJmp,tbSetJmpTarget,hfirst] at hjmp
    · have hold : links.jmp (.next b m) = none := by
        simpa [setJmp,tbSetJmpTarget,hloc b m hslot] using hjmp
      simpa [setJmp,tbSetJmpTarget,hslot] using h.unchained b m hx hold

def dropJump (links : Links) (t : TbId) (front : List JmpLoc) (tb : TbId) (n : Slot) : Links :=
  (links.setJmp (endCell id (.first t) front) (links.jmp (.next tb n))).setJmp (.next tb n) none

section Unlink

variable {t tb : TbId} {n : Slot} {front back : List JmpLoc}

section

variable (h : JmpInv links linked wired chain) (ht : t ∈ linked)
  (hsplit : chain t = front ++ .next tb n :: back)
include h ht hsplit

theorem JmpInv.jmp_front : links.jmp (endCell id (.first t) front) = some (.next tb n) := by
  have hseg := h.lists.seg t ht
  rw [hsplit] at hseg
  exact seg_endCell hseg

theorem JmpInv.unlink_jmp (b : TbId) (m : Slot) :
    (dropJump links t front tb n).jmp (.next b m) = none ↔
      (b,m) = (tb,n) ∨ links.jmp (.next b m) = none := by
  have hfront := h.jmp_front ht hsplit
  have hmem : JmpLoc.next tb n ∈ chain t := by simp [hsplit]
  by_cases hx : JmpLoc.next b m = .next tb n
  · cases hx
    simp [dropJump,setJmp]
  · have hpair : ¬ (b = tb ∧ m = n) := by
      rintro ⟨rfl,rfl⟩
      exact hx rfl
    by_cases hcell : JmpLoc.next b m = endCell id (.first t) front
    · rw [← hcell] at hfront
      simp [dropJump,setJmp,hpair,← hcell,hfront,h.jmp_ne_none ht hmem]
    · simp [dropJump,setJmp,hpair,hcell]

theorem JmpInv.unlink :
    JmpInv (dropJump links t front tb n) linked (fun x => wired x ∧ x ≠ (tb,n))
      (update chain t (front ++ back)) := by
  have hmem : ∀ t' ∈ linked, ∀ loc, loc ∈ update chain t (front ++ back) t' ↔
      loc ≠ .next tb n ∧ loc ∈ chain t' := fun t' ht' => h.lists.mem_remove ht ht' hsplit
  refine ⟨?_,fun t' ht' loc hloc => ?_,fun b hb m hjmp => ?_,fun b m hx hjmp => ?_⟩
  · have hremove := h.lists.remove injective_id first_injective ht hsplit
    apply hremove.congr
    · intro t' ht'
      have hne : JmpLoc.first t' ≠ .next tb n := nofun
      exact update_of_ne hne none _
    · intro t' ht' loc hloc
      have hne : loc ≠ .next tb n := ((hmem t' ht' loc).mp hloc).1
      simp [dropJump,setJmp,hne]
  · exact h.mem t' ht' loc ((hmem t' ht' loc).mp hloc).2
  · rw [Ne,h.unlink_jmp ht hsplit,not_or] at hjmp
    obtain ⟨t',ht',hloc⟩ := h.complete b hb m hjmp.2
    refine ⟨t',ht',(hmem t' ht' _).mpr ⟨?_,hloc⟩⟩
    rintro ⟨⟩
    exact hjmp.1 rfl
  · rw [h.unlink_jmp ht hsplit] at hjmp
    exact h.unchained b m hx.1 (hjmp.resolve_left hx.2)

theorem JmpInv.find_around (hlim : 2*linked.card < cfg.walkLimit) :
    findLink links.jmp id (· == .next tb n) cfg.walkLimit (.next tb n) =
      some (endCell id (.first t) front) := by
  have hseg := h.lists.seg t ht
  have hnodup := h.lists.nodup t ht
  have hlen := h.length_le ht
  rw [hsplit] at hseg hnodup hlen
  have haround := seg_rotate hseg
  rw [show back ++ JmpLoc.first t :: (front ++ [.next tb n]) =
    (back ++ .first t :: front) ++ [.next tb n] by simp] at haround
  have hend : endCell id (.next tb n) (back ++ .first t :: front) =
      endCell id (.first t) front := by
    rw [endCell_append]
    rfl
  rw [← hend]
  apply findLink_of_seg haround
  · intro loc hloc
    rw [beq_eq_false_iff_ne]
    have hcases : loc ∈ front ++ back ∨ loc = .first t := by
      simp only [mem_append,mem_cons] at hloc ⊢
      tauto
    rcases hcases with hloc | rfl
    · exact ((mem_without hnodup loc).mp hloc).1
    · simp
  · simp
  · simp only [length_append,length_cons] at hlen ⊢
    omega

end

end Unlink

def OnlyJumps (links changed : Links) : Prop :=
  ∃ jmp jmpTarget, changed = { links with jmp := jmp, jmpTarget := jmpTarget }

theorem OnlyJumps.trans {changed last : Links} (h : OnlyJumps links changed)
    (hlast : OnlyJumps changed last) : OnlyJumps links last := by
  obtain ⟨jmp,jmpTarget,rfl⟩ := h
  obtain ⟨jmp',jmpTarget',rfl⟩ := hlast
  exact ⟨jmp',jmpTarget',rfl⟩

theorem JmpInv.tbJmpRemove (h : JmpInv links linked wired chain) (htb : tb ∈ linked)
    (hwired : ¬ wired (tb,n)) (hlim : 2*linked.card < cfg.walkLimit) :
    ∃ changed chain', links.tbJmpRemove cfg tb n = some changed ∧ OnlyJumps links changed ∧
      JmpInv changed linked wired chain' := by
  cases hjmp : links.jmp (.next tb n) with
  | none =>
    refine ⟨links,chain,?_,⟨_,_,rfl⟩,h⟩
    simp [Links.tbJmpRemove,hjmp]
  | some loc =>
    obtain ⟨t,ht,hmem⟩ := h.complete tb htb n (by simp [hjmp])
    obtain ⟨front,back,hsplit⟩ := append_of_mem hmem
    have hwalk := h.find_around ht hsplit hlim
    have hunlinked := h.unlink ht hsplit
    refine ⟨dropJump links t front tb n,_,?_,⟨_,_,rfl⟩,hunlinked.of_wired fun x hx => ⟨hx,?_⟩⟩
    · simp [Links.tbJmpRemove,hjmp,hwalk,dropJump]
    · rintro rfl
      exact hwired hx

def cutJumps (links : Links) (nodes : List JmpLoc) : Links :=
  { links with
    jmp := fun loc => if loc ∈ nodes then none else links.jmp loc
    jmpTarget := fun x => if .next x.1 x.2 ∈ nodes then .stub x.1 x.2 else links.jmpTarget x }

theorem cutJumps_cons (links : Links) (tb : TbId) (n : Slot) (rest : List JmpLoc) :
    cutJumps ((links.tbResetJump tb n).setJmp (.next tb n) none) rest =
      cutJumps links (.next tb n :: rest) := by
  unfold cutJumps tbResetJump tbSetJmpTarget setJmp
  congr 1
  · funext loc
    by_cases hloc : loc = .next tb n <;> simp [hloc]
  · funext x
    obtain ⟨b,m⟩ := x
    by_cases hx : b = tb ∧ m = n
    · obtain ⟨rfl,rfl⟩ := hx
      simp
    · have hpair : (b,m) ≠ (tb,n) := by simpa using hx
      simp [hx,hpair]

theorem suppressJumps_path {ptr : Option JmpLoc} {nodes : List JmpLoc} {limit : Nat}
    (hpath : Path links.jmp id ptr nodes (some (.first t))) (hnodup : nodes.Nodup)
    (hnext : ∀ loc ∈ nodes, ∃ b n, loc = .next b n) (hlim : nodes.length < limit) :
    suppressJumps limit links ptr = some (cutJumps links nodes) := by
  induction nodes generalizing links ptr limit with
  | nil =>
    have hptr : ptr = some (.first t) := hpath
    cases limit with
    | zero => simp at hlim
    | succ limit => simp [hptr,suppressJumps,cutJumps]
  | cons loc rest ih =>
    obtain ⟨b,n,rfl⟩ := hnext loc (by simp)
    have hptr : ptr = some (.next b n) := hpath.1
    have hrest := nodup_cons.mp hnodup
    cases limit with
    | zero => simp at hlim
    | succ limit =>
      rw [hptr,suppressJumps,← cutJumps_cons]
      apply ih
      · apply Path.congr hpath.2
        intro other hother
        have hne : other ≠ .next b n := by
          rintro rfl
          exact hrest.1 hother
        simp [tbResetJump,tbSetJmpTarget,setJmp,hne]
      · exact hrest.2
      · exact fun other hother => hnext other (mem_cons_of_mem _ hother)
      · simpa using hlim

theorem JmpInv.suppress (h : JmpInv links linked wired chain) (ht : t ∈ linked)
    (hlim : 2*linked.card < cfg.walkLimit) :
    suppressJumps cfg.walkLimit links (links.jmp (.first t)) = some (cutJumps links (chain t)) ∧
      JmpInv ((cutJumps links (chain t)).setJmp (.first t) (some (.first t))) linked wired
        (update chain t []) := by
  have hnext : ∀ loc ∈ chain t, ∃ b n, loc = .next b n := by
    intro loc hloc
    obtain ⟨b,n,heq,-,-⟩ := h.mem t ht loc hloc
    exact ⟨b,n,heq⟩
  have hother : ∀ t' ∈ linked, t' ≠ t → ∀ loc ∈ chain t', loc ∉ chain t :=
    fun t' ht' hne loc hloc hmem => hne (h.lists.disjoint t' ht' t ht loc hloc hmem)
  have hjmp : ∀ b n, ((cutJumps links (chain t)).setJmp (.first t) (some (.first t))).jmp
      (.next b n) = if .next b n ∈ chain t then none else links.jmp (.next b n) := by
    intro b n
    simp [cutJumps,setJmp]
  refine ⟨suppressJumps_path (h.lists.seg t ht) (h.lists.nodup t ht) hnext
    (Nat.lt_of_le_of_lt (h.length_le ht) hlim),?_,fun t' ht' loc hloc => ?_,
    fun b hb n hnone => ?_,fun b n hx hnone => ?_⟩
  · have hothers : Lists ((cutJumps links (chain t)).setJmp (.first t) (some (.first t))).jmp id
        JmpLoc.first (fun t => some (.first t)) {t' | t' ∈ linked ∧ t' ≠ t} chain := by
      apply (h.lists.mono fun t' ht' => ht'.1).congr
      · intro t' ht'
        have hfirst : JmpLoc.first t' ∉ chain t := by
          intro hmem
          obtain ⟨b,n,heq⟩ := hnext _ hmem
          cases heq
        have hne : t' ≠ t := ht'.2
        simp [cutJumps,setJmp,hne,hfirst]
      · intro t' ht' loc hloc
        obtain ⟨b,n,rfl,-,-⟩ := h.mem t' ht'.1 loc hloc
        simp [cutJumps,setJmp,hother t' ht'.1 ht'.2 _ hloc]
    have hself := hothers.insert_nil (i := t) (by simp [setJmp]) (fun t' ht' loc hloc => by
      obtain ⟨b,n,rfl,-,-⟩ := h.mem t' ht'.1 loc hloc
      simp)
    apply hself.mono
    intro t' ht'
    by_cases heq : t' = t
    · exact .inl heq
    · exact .inr ⟨ht',heq⟩
  · by_cases heq : t' = t
    · subst heq
      simp at hloc
    · rw [update_of_ne heq] at hloc
      obtain ⟨b,n,rfl,hb,htarget⟩ := h.mem t' ht' loc hloc
      refine ⟨b,n,rfl,hb,?_⟩
      simpa [cutJumps,setJmp,hother t' ht' heq _ hloc] using htarget
  · rw [hjmp] at hnone
    split at hnone
    · exact absurd rfl hnone
    rename_i hnot
    obtain ⟨t',ht',hmem⟩ := h.complete b hb n hnone
    refine ⟨t',ht',?_⟩
    rwa [update_of_ne]
    rintro rfl
    exact hnot hmem
  · rw [hjmp] at hnone
    by_cases hmem : JmpLoc.next b n ∈ chain t
    · simp [cutJumps,setJmp,hmem]
    · rw [if_neg hmem] at hnone
      simpa [cutJumps,setJmp,hmem] using h.unchained b n hx hnone

theorem JmpInv.invalidate (h : JmpInv links linked wired chain) (htb : tb ∈ linked)
    (hwired : ∀ n, ¬ wired (tb,n)) (hlim : 2*linked.card < cfg.walkLimit) :
    ∃ jmp0 jmp1 suppressed chain', links.tbJmpRemove cfg tb 0 = some jmp0 ∧
      jmp0.tbJmpRemove cfg tb 1 = some jmp1 ∧
      suppressJumps cfg.walkLimit jmp1 (jmp1.jmp (.first tb)) = some suppressed ∧
      OnlyJumps links suppressed ∧
      JmpInv (suppressed.setJmp (.first tb) (some (.first tb))) linked wired chain' := by
  obtain ⟨jmp0,chain0,hjmp0,honly0,hinv0⟩ := h.tbJmpRemove htb (hwired 0) hlim
  obtain ⟨jmp1,chain1,hjmp1,honly1,hinv1⟩ := hinv0.tbJmpRemove htb (hwired 1) hlim
  obtain ⟨hsuppress,hinv⟩ := hinv1.suppress htb hlim
  exact ⟨jmp0,jmp1,_,_,hjmp0,hjmp1,hsuppress,(honly0.trans honly1).trans ⟨_,_,rfl⟩,hinv⟩

def edges (links : Links) (linked : Finset TbId) : Nat :=
  ((linked ×ˢ Finset.univ).filter fun x => (links.jmp (.next x.1 x.2)).isSome).card

theorem edges_le (links : Links) (linked : Finset TbId) : edges links linked ≤ 2*linked.card := by
  rw [← card_nodes]
  exact Finset.card_filter_le _ _

theorem JmpInv.edges_dropJump {front back : List JmpLoc} (h : JmpInv links linked wired chain)
    (ht : t ∈ linked) (hsplit : chain t = front ++ .next tb n :: back) :
    edges (dropJump links t front tb n) linked < edges links linked := by
  have hmem : JmpLoc.next tb n ∈ chain t := by simp [hsplit]
  have hjump := (h.mem_iff ht).mp hmem
  apply Finset.card_lt_card
  refine ⟨fun x hx => ?_,fun hsub => ?_⟩
  · simp only [Finset.mem_filter,Option.isSome_iff_ne_none,Ne,h.unlink_jmp ht hsplit,not_or] at hx ⊢
    exact ⟨hx.1,hx.2.2⟩
  · have hold : (tb,n) ∈ (linked ×ˢ Finset.univ).filter
        fun x => (links.jmp (.next x.1 x.2)).isSome := by
      simp [hjump.1,Option.isSome_iff_ne_none,hjump.2.1]
    have hnew := (Finset.mem_filter.mp (hsub hold)).2
    simp [dropJump,setJmp] at hnew

theorem JmpInv.tbResetJump (h : JmpInv links linked (fun x => wired x ∧ x ≠ (tb,n)) chain)
    (hfree : links.jmp (.next tb n) = none) :
    JmpInv (links.tbResetJump tb n) linked wired chain := by
  refine ⟨h.lists,fun t ht loc hloc => ?_,h.complete,fun b m hx hjmp => ?_⟩
  · obtain ⟨b,m,rfl,hb,htarget⟩ := h.mem t ht loc hloc
    refine ⟨b,m,rfl,hb,?_⟩
    rw [tbResetJump_jmpTarget,if_neg]
    · exact htarget
    · rintro ⟨⟩
      exact h.jmp_ne_none ht hloc hfree
  · rw [tbResetJump_jmpTarget]
    by_cases heq : (b,m) = (tb,n)
    · cases heq
      exact if_pos rfl
    · rw [if_neg heq]
      exact h.unchained b m ⟨hx,heq⟩ hjmp

structure Resets (linked : Finset TbId) (wired : TbId × Slot → Prop)
    (links changed : Links) : Prop where
  only : OnlyJumps links changed
  inv : ∃ chain, JmpInv changed linked wired chain
  edges : edges changed linked ≤ edges links linked

/-- The two walks of `tb_reset_jump_recursive2`: to the block jumped to, and from it
to the jump. -/
theorem JmpInv.reset_walks (h : JmpInv links linked wired chain) (ht : t ∈ linked)
    (hmem : .next tb n ∈ chain t) (hlim : 2*linked.card < cfg.walkLimit) :
    ∃ front back last, chain t = front ++ .next tb n :: back ∧
      findLink links.jmp id isFirst cfg.walkLimit (.next tb n) = some last ∧
      links.jmp last = some (.first t) ∧
      findLink links.jmp id (· == .next tb n) cfg.walkLimit (.first t) =
        some (endCell id (.first t) front) := by
  have hlen := h.length_le ht
  obtain ⟨front,back,hsplit,hwalk⟩ := h.lists.find (· == .next tb n) ht hmem
    (fun other _ => beq_iff_eq) (hlen.trans (Nat.le_of_lt hlim))
  have hseg := h.lists.seg t ht
  rw [hsplit] at hseg hlen
  have haround := seg_rotate hseg
  refine ⟨front,back,endCell id (.next tb n) back,hsplit,?_,seg_endCell haround,hwalk⟩
  apply findLink_of_seg haround
  · intro loc hloc
    obtain ⟨b,m,rfl,-,-⟩ := h.mem t ht loc (by simp [hsplit,hloc])
    rfl
  · rfl
  · simp only [length_append,length_cons] at hlen
    omega

theorem JmpInv.reset2 {recurse : Links → TbId → Option Links} {depth : Nat}
    (hrecord : ∀ links chain t, JmpInv links linked wired chain → t ∈ linked →
      edges links linked < depth → ∃ changed, recurse links t = some changed ∧
        Resets linked wired links changed) (h : JmpInv links linked wired chain) (htb : tb ∈ linked)
    (hedges : edges links linked ≤ depth) (hlim : 2*linked.card < cfg.walkLimit) :
    ∃ changed, tbResetJumpRecursive2 cfg recurse links tb n = some changed ∧
      Resets linked wired links changed := by
  cases hjmp : links.jmp (.next tb n) with
  | none =>
    refine ⟨links,?_,⟨_,_,rfl⟩,⟨chain,h⟩,Nat.le_refl _⟩
    simp [tbResetJumpRecursive2,hjmp]
  | some loc =>
    obtain ⟨t,ht,hmem⟩ := h.complete tb htb n (by simp [hjmp])
    obtain ⟨front,back,last,hsplit,hwalk,hlast,hwalk'⟩ := h.reset_walks ht hmem hlim
    have hdrop := h.edges_dropJump ht hsplit
    have hinv := (h.unlink ht hsplit).tbResetJump ((h.unlink_jmp ht hsplit tb n).mpr (.inl rfl))
    obtain ⟨changed,hrecurse,hresets⟩ := hrecord _ _ t hinv ht (Nat.lt_of_lt_of_le hdrop hedges)
    refine ⟨changed,?_,?_,hresets.inv,Nat.le_trans hresets.edges (Nat.le_of_lt hdrop)⟩
    · simp only [tbResetJumpRecursive2,hjmp,hwalk,hlast,Option.bind_eq_bind,
        Option.bind_some,JmpLoc.tb,hwalk']
      rw [← hjmp]
      exact hrecurse
    · have hfirst : OnlyJumps links ((dropJump links t front tb n).tbResetJump tb n) := ⟨_,_,rfl⟩
      exact hfirst.trans hresets.only

/-- The recursion ends, whatever cycles the jumps form: every call takes one of them
back. -/
theorem JmpInv.reset {depth : Nat} (h : JmpInv links linked wired chain) (htb : tb ∈ linked)
    (hdepth : edges links linked < depth) (hlim : 2*linked.card < cfg.walkLimit) :
    ∃ changed, tbResetJumpRecursive cfg depth links tb = some changed ∧
      Resets linked wired links changed := by
  induction depth generalizing links chain tb with
  | zero => simp at hdepth
  | succ depth ih =>
    have hrecord : ∀ links chain t, JmpInv links linked wired chain → t ∈ linked →
        edges links linked < depth → ∃ changed,
          tbResetJumpRecursive cfg depth links t = some changed ∧
            Resets linked wired links changed :=
      fun links chain t hinv ht hlt => ih hinv ht hlt
    have hedges : edges links linked ≤ depth := Nat.le_of_lt_succ hdepth
    obtain ⟨first,hfirst,hresets⟩ := h.reset2 (n := 0) hrecord htb hedges hlim
    obtain ⟨chain',hinv⟩ := hresets.inv
    obtain ⟨changed,hsound,hresets'⟩ := hinv.reset2 (n := 1) hrecord htb
      (Nat.le_trans hresets.edges hedges) hlim
    refine ⟨changed,?_,hresets.only.trans hresets'.only,hresets'.inv,
      Nat.le_trans hresets'.edges hresets.edges⟩
    simp [tbResetJumpRecursive,hfirst,hsound]

end Hqemu.Exec.Graph
