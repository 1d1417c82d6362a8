import Mathlib.Data.List.Nodup

/-! Singly linked chains threaded through link cells, which hold a pointer or null. -/
namespace Hqemu.Lib.Chain

open Function List Option

variable {Loc Ptr : Type}

/-- Following `ptr` and then each node's own cell visits `nodes` in order and
ends with the pointer `stop`. -/
def Path (links : Loc → Option Ptr) (cell : Ptr → Loc) :
    Option Ptr → List Ptr → Option Ptr → Prop
  | ptr, [], stop => ptr = stop
  | ptr, node :: rest, stop =>
    ptr = some node ∧ Path links cell (links (cell node)) rest stop

def Seg (links : Loc → Option Ptr) (cell : Ptr → Loc) (start : Loc) (nodes : List Ptr)
    (stop : Option Ptr) : Prop :=
  Path links cell (links start) nodes stop

def endCell (cell : Ptr → Loc) : Loc → List Ptr → Loc
  | start, [] => start
  | _, node :: rest => endCell cell (cell node) rest

/-- Advances a pointer to a cell until the cell's content is the wanted one. A null pointer gives
`none`, as does a walk longer than `limit`. -/
def findLink (links : Loc → Option Ptr) (cell : Ptr → Loc) (hit : Ptr → Bool) :
    Nat → Loc → Option Loc
  | 0, _ => none
  | limit+1, start => do
      let node ← links start
      if hit node then some start else findLink links cell hit limit (cell node)

def search (links : Loc → Option Ptr) (cell : Ptr → Loc) (hit : Ptr → Bool) :
    Nat → Loc → Option (Option Ptr)
  | 0, _ => none
  | limit+1, start =>
    match links start with
    | none => some none
    | some node =>
      if hit node then some (some node) else search links cell hit limit (cell node)

def collect (links : Loc → Option Ptr) (cell : Ptr → Loc) : Nat → Loc → Option (List Ptr)
  | 0, _ => none
  | limit+1, start =>
    match links start with
    | none => some []
    | some node => (collect links cell limit (cell node)).map (node :: ·)

variable {links : Loc → Option Ptr} {cell : Ptr → Loc}

theorem seg_nil (start : Loc) (stop : Option Ptr) :
    Seg links cell start [] stop ↔ links start = stop :=
  Iff.rfl

theorem seg_cons (start : Loc) (node : Ptr) (rest : List Ptr) (stop : Option Ptr) :
    Seg links cell start (node :: rest) stop ↔
      links start = some node ∧ Seg links cell (cell node) rest stop :=
  Iff.rfl

theorem seg_append (start : Loc) (front back : List Ptr) (stop : Option Ptr) :
    Seg links cell start (front ++ back) stop ↔
      Seg links cell start front (links (endCell cell start front)) ∧
        Seg links cell (endCell cell start front) back stop := by
  induction front generalizing start with
  | nil => simp [seg_nil,endCell]
  | cons node rest ih =>
    simp only [cons_append,seg_cons,endCell,ih]
    tauto

variable {hit : Ptr → Bool} {start : Loc} {front : List Ptr} {node : Ptr} {stop : Option Ptr}
  {limit : Nat}

theorem findLink_of_seg {back : List Ptr} (hseg : Seg links cell start (front ++ node :: back) stop)
    (hfront : ∀ other ∈ front, hit other = false) (hnode : hit node = true)
    (hlim : front.length < limit) :
    findLink links cell hit limit start = some (endCell cell start front) := by
  obtain ⟨limit,rfl⟩ := Nat.exists_eq_add_one_of_ne_zero (Nat.ne_of_gt (Nat.zero_lt_of_lt hlim))
  induction front generalizing start limit with
  | nil =>
    rw [findLink,hseg.1]
    simp [hnode,endCell]
  | cons other rest ih =>
    rw [findLink,hseg.1]
    have hother : hit other = false := hfront other (by simp)
    simp only [bind_eq_bind,bind_some,hother,Bool.false_eq_true,↓reduceIte,endCell]
    have hlt : rest.length < limit := by simpa using hlim
    obtain ⟨smaller,rfl⟩ := Nat.exists_eq_add_one_of_ne_zero (Nat.ne_of_gt (Nat.zero_lt_of_lt hlt))
    exact ih hseg.2 (fun x hx => hfront x (by simp [hx])) smaller hlt

variable {loc : Loc}

theorem findLink_some (h : findLink links cell hit limit start = some loc) :
    ∃ node, links loc = some node ∧ hit node = true := by
  induction limit generalizing start with
  | zero => simp [findLink] at h
  | succ limit ih =>
    rw [findLink] at h
    cases hnode : links start with
    | none => simp [hnode] at h
    | some node =>
      simp only [hnode,bind_eq_bind,bind_some] at h
      split at h
      · rename_i hhit
        cases h
        exact ⟨node,hnode,hhit⟩
      · exact ih h

variable {nodes : List Ptr}

theorem findLink_split (hseg : Seg links cell start nodes none)
    (h : findLink links cell hit limit start = some loc) :
    ∃ front node back, nodes = front ++ node :: back ∧ hit node = true ∧
      loc = endCell cell start front := by
  induction nodes generalizing start limit with
  | nil =>
    cases limit with
    | zero => simp [findLink] at h
    | succ limit => simp [findLink,(seg_nil start none).mp hseg] at h
  | cons first rest ih =>
    cases limit with
    | zero => simp [findLink] at h
    | succ limit =>
      rw [findLink,hseg.1] at h
      simp only [bind_eq_bind,bind_some] at h
      split at h
      · rename_i hhit
        cases h
        exact ⟨[],first,rest,rfl,hhit,rfl⟩
      · obtain ⟨front,node,back,rfl,hhit,hloc⟩ := ih hseg.2 h
        exact ⟨first :: front,node,back,rfl,hhit,hloc⟩

theorem collect_seg {collected : List Ptr} (hseg : Seg links cell start nodes none)
    (h : collect links cell limit start = some collected) : collected = nodes := by
  induction nodes generalizing start limit collected with
  | nil =>
    cases limit with
    | zero => simp [collect] at h
    | succ limit => simpa [collect,(seg_nil start none).mp hseg,eq_comm] using h
  | cons first rest ih =>
    cases limit with
    | zero => simp [collect] at h
    | succ limit =>
      simp only [collect,hseg.1,map_eq_some_iff] at h
      obtain ⟨tail,htail,rfl⟩ := h
      rw [ih hseg.2 htail]

theorem search_some (inside : Ptr → Prop) (hstart : ∀ first, links start = some first → inside
    first)
    (hclosed : ∀ other, inside other → ∀ next, links (cell other) = some next → inside next)
    (h : search links cell hit limit start = some (some node)) : inside node ∧ hit node = true := by
  induction limit generalizing start with
  | zero => simp [search] at h
  | succ limit ih =>
    rw [search] at h
    cases hfirst : links start with
    | none => simp [hfirst] at h
    | some first =>
      simp only [hfirst] at h
      split at h
      · rename_i hhit
        cases h
        exact ⟨hstart node hfirst,hhit⟩
      · exact ih (hclosed first (hstart first hfirst)) h

variable {ptr : Option Ptr}

theorem Path.congr {changed : Loc → Option Ptr} (hpath : Path links cell ptr nodes stop)
    (hnodes : ∀ node ∈ nodes, changed (cell node) = links (cell node)) :
    Path changed cell ptr nodes stop := by
  induction nodes generalizing ptr with
  | nil => exact hpath
  | cons node rest ih =>
    refine ⟨hpath.1,?_⟩
    rw [hnodes node (by simp)]
    exact ih hpath.2 (fun other hother => hnodes other (by simp [hother]))

theorem Path.snoc (hpath : Path links cell ptr nodes (some node)) :
    Path links cell ptr (nodes ++ [node]) (links (cell node)) := by
  induction nodes generalizing ptr with
  | nil => exact ⟨hpath,rfl⟩
  | cons first rest ih => exact ⟨hpath.1,ih hpath.2⟩

theorem Path.eq_cons (hpath : Path links cell (some node) nodes stop) (hstop : stop ≠ some node) :
    ∃ rest, nodes = node :: rest ∧ Path links cell (links (cell node)) rest stop := by
  cases nodes with
  | nil => exact absurd hpath.symm hstop
  | cons first rest =>
    obtain ⟨hfirst,hrest⟩ := hpath
    cases hfirst
    exact ⟨rest,rfl,hrest⟩

theorem Path.eq_nil (hpath : Path links cell none nodes stop) : nodes = [] := by
  cases nodes with
  | nil => rfl
  | cons first rest => exact nomatch hpath.1

theorem Path.tail {mid : Option Ptr} (hfront : Path links cell ptr front mid)
    (hnodes : Path links cell ptr nodes none) :
    ∃ rest, Path links cell mid rest none ∧ nodes = front ++ rest := by
  induction front generalizing ptr nodes with
  | nil =>
    cases hfront
    exact ⟨nodes,hnodes,rfl⟩
  | cons node front ih =>
    obtain ⟨rfl,hfront⟩ := hfront
    obtain ⟨tail,rfl,htail⟩ := hnodes.eq_cons (by simp)
    obtain ⟨rest,hrest,rfl⟩ := ih hfront htail
    exact ⟨rest,hrest,rfl⟩

theorem Path.not_of_cycle {cycle : List Ptr} (hcycle : Path links cell (some node) cycle (some
    node))
    (hne : cycle ≠ []) (nodes : List Ptr) : ¬ Path links cell (some node) nodes none := by
  induction hlen : nodes.length using Nat.strongRecOn generalizing nodes with
  | _ length ih =>
    intro hnodes
    obtain ⟨rest,hrest,rfl⟩ := hcycle.tail hnodes
    have hpos := length_pos_of_ne_nil hne
    rw [length_append] at hlen
    exact ih rest.length (by omega) rest rfl hrest

theorem Seg.congr {changed : Loc → Option Ptr} (hseg : Seg links cell start nodes stop)
    (hstart : changed start = links start)
    (hnodes : ∀ node ∈ nodes, changed (cell node) = links (cell node)) :
    Seg changed cell start nodes stop := by
  unfold Seg
  rw [hstart]
  exact Path.congr hseg hnodes

theorem endCell_append (start : Loc) (front back : List Ptr) :
    endCell cell start (front ++ back) = endCell cell (endCell cell start front) back := by
  induction front generalizing start with
  | nil => rfl
  | cons node rest ih => exact ih (cell node)

theorem endCell_eq (cell : Ptr → Loc) (start : Loc) (nodes : List Ptr) :
    endCell cell start nodes = start ∨ ∃ node ∈ nodes, endCell cell start nodes = cell node := by
  induction nodes generalizing start with
  | nil => exact .inl rfl
  | cons node rest ih =>
    right
    rcases ih (cell node) with hcell | ⟨other,hother,hcell⟩
    · exact ⟨node,by simp,hcell⟩
    · exact ⟨other,by simp [hother],hcell⟩

theorem ne_endCell (h : loc ∉ start :: nodes.map cell) : loc ≠ endCell cell start nodes := by
  intro hloc
  apply h
  rcases endCell_eq cell start nodes with hcell | ⟨node,hnode,hcell⟩
  · rw [hloc,hcell]
    exact mem_cons_self
  · rw [hloc,hcell]
    exact mem_cons_of_mem _ (List.mem_map_of_mem hnode)

variable [DecidableEq Loc]

theorem Seg.update {value : Option Ptr} (hseg : Seg links cell start nodes stop)
    (hstart : start ≠ loc) (hnodes : ∀ node ∈ nodes, cell node ≠ loc) :
    Seg (Function.update links loc value) cell start nodes stop := by
  apply hseg.congr
  · exact update_of_ne hstart _ _
  · intro node hnode
    exact update_of_ne (hnodes node hnode) _ _

theorem Seg.push {head : Loc} (hseg : Seg links cell head nodes stop) (hhead : cell node ≠ head)
    (hnodes : ∀ other ∈ nodes, cell other ≠ cell node ∧ cell other ≠ head) :
    Seg (Function.update (Function.update links (cell node) (links head)) head (some node))
      cell head (node :: nodes) stop := by
  refine ⟨by simp,?_⟩
  rw [update_of_ne hhead,update_self]
  apply Path.congr hseg
  intro other hother
  rw [update_of_ne (hnodes other hother).2,update_of_ne (hnodes other hother).1]

theorem Seg.redirect (hseg : Seg links cell start nodes stop)
    (hcells : (start :: nodes.map cell).Nodup) (value : Option Ptr) :
    Seg (Function.update links (endCell cell start nodes) value) cell start nodes value := by
  induction nodes generalizing start with
  | nil => exact update_self ..
  | cons first rest ih =>
    rw [map_cons,nodup_cons] at hcells
    have hend : start ≠ endCell cell (cell first) rest := ne_endCell hcells.1
    exact ⟨(update_of_ne hend _ _).trans hseg.1,ih hseg.2 hcells.2⟩

/-- The node's own link goes into the cell in front of it. The cells on the way are distinct, so the
rest of the chain is not disturbed. -/
theorem Seg.unlink {back : List Ptr} (hseg : Seg links cell start (front ++ node :: back) stop)
    (hcells : (start :: (front ++ node :: back).map cell).Nodup) :
    Seg (Function.update links (endCell cell start front) (links (cell node)))
      cell start (front ++ back) stop := by
  induction front generalizing start with
  | nil =>
    simp only [nil_append,endCell,map_cons,nodup_cons,mem_cons,
      not_or,List.mem_map,not_exists,not_and] at hseg hcells ⊢
    unfold Seg
    rw [update_self]
    apply Path.congr hseg.2
    intro other hother
    exact update_of_ne (hcells.1.2 other hother) _ _
  | cons first rest ih =>
    simp only [cons_append,endCell,map_cons,nodup_cons] at hseg hcells ⊢
    have htail : (cell first :: (rest ++ node :: back).map cell).Nodup := by
      simpa using hcells.2
    have hend : start ≠ endCell cell (cell first) rest := by
      apply ne_endCell
      intro hstart
      apply hcells.1
      simp only [map_append,mem_cons,mem_append] at hstart ⊢
      tauto
    exact ⟨(update_of_ne hend _ _).trans hseg.1,ih hseg.2 htail⟩

end Hqemu.Lib.Chain
