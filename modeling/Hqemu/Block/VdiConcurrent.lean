import Hqemu.Block.VdiSequential

/-! Several writes to a VDI image at once. A new block is in the block map before its first write
has taken effect. -/
namespace Hqemu.Block.Vdi

open Function Lib.Patch Lib.Run

variable {Data : Type} {n : Nat}

structure Request (Data : Type) where
  sectorNum : Nat
  nbSectors : Nat
  data : Nat → Data

inductive Phase (Data : Type) where
  | waiting
  | busy (acb : WriteAcb Data)
  | finished (success : Bool)

/-- `flight` is the write a request has submitted that has not taken effect yet. -/
structure System (n : Nat) (Data : Type) where
  vdi : State
  file : File Data
  phase : Fin n → Phase Data
  flight : Fin n → Option (Submit Data)

inductive Action (n : Nat) where
  | start (i : Fin n) (refused : Bool)
  | effect (i : Fin n)
  | complete (i : Fin n) (refused : Bool)
  | fail (i : Fin n)

/-- The callback of request `i`. Where the layer below refuses the next write, the request ends with
the result of the last one. -/
def System.callback [Zero Data] (sys : System n Data) (i : Fin n) (acb : WriteAcb Data)
    (refused : Bool) : System n Data :=
  match vdiAioWriteCb sys.vdi acb with
  | (vdi,_,none) =>
    { sys with vdi := vdi, phase := Function.update sys.phase i (.finished true) }
  | (vdi,acb,some submit) =>
    if refused then
      { sys with vdi := vdi, phase := Function.update sys.phase i (.finished true) }
    else
      { sys with
        vdi := vdi
        phase := Function.update sys.phase i (.busy acb)
        flight := Function.update sys.flight i (some submit) }

/-- A step of the system that serves `requests`. A failed write may have taken effect or
not. -/
def System.step [Zero Data] (requests : Fin n → Request Data) (sys : System n Data) :
    Action n → Option (System n Data)
  | .start i refused =>
    match sys.phase i with
    | .waiting =>
      let request := requests i
      some (sys.callback i (vdiAioSetup request.sectorNum request.nbSectors request.data)
        refused)
    | _ => none
  | .effect i =>
    (sys.flight i).map fun submit =>
      { sys with
        file := sys.file.apply sys.vdi submit
        flight := Function.update sys.flight i none }
  | .complete i refused =>
    match sys.phase i, sys.flight i with
    | .busy acb, none => some (sys.callback i acb refused)
    | _, _ => none
  | .fail i =>
    match sys.phase i with
    | .busy _ =>
      some { sys with
        phase := Function.update sys.phase i (.finished false)
        flight := Function.update sys.flight i none }
    | _ => none

structure DisjointRanges (requests : Fin n → Request Data) (totalSectors : Nat) : Prop where
  within : ∀ i, (requests i).sectorNum + (requests i).nbSectors ≤ totalSectors
  apart : ∀ i j, i ≠ j →
    (requests i).sectorNum + (requests i).nbSectors ≤ (requests j).sectorNum ∨
      (requests j).sectorNum + (requests j).nbSectors ≤ (requests i).sectorNum

/-- Once all requests are completed successfully, each range holds its data and every other
sector holds what `before` says. -/
def System.Stored [Zero Data] (requests : Fin n → Request Data) (before : Nat → Data)
    (sys : System n Data) : Prop :=
  (∀ i, sys.phase i = .finished true) →
    (∀ i, ∀ k < (requests i).nbSectors,
      content sys.vdi sys.file.data ((requests i).sectorNum + k) = (requests i).data k) ∧
    ∀ x < sys.vdi.totalSectors, (∀ i, x < (requests i).sectorNum ∨
      (requests i).sectorNum + (requests i).nbSectors ≤ x) →
      content sys.vdi sys.file.data x = before x

def System.initial (vdi : State) (file : File Data) : System n Data :=
  ⟨vdi,file,fun _ => .waiting,fun _ => none⟩

/-- A callback writes `count` sectors of block `block` from `offset` on: when the block is new, the
rest of the buffer is zero; when not, no write of the whole block is in flight. -/
def System.BlockClear [Zero Data] (sys : System n Data) (block offset count : Nat)
    (buffer : Option (Nat → Data)) : Prop :=
  if sys.vdi.bmap block = unallocated then
    ∀ j < blockSectors, j < offset ∨ offset+count ≤ j → buffer.getD (fun _ => 0) j = 0
  else
    ∀ k content, sys.flight k ≠
      some (.data ((sys.vdi.bmap block).toNat * blockSectors) blockSectors content)

def System.CallbackClear [Zero Data] (sys : System n Data) (acb : WriteAcb Data)
    (refused : Bool) : Prop :=
  refused = false ∧ (acb.advance.nbSectors ≠ 0 →
    sys.BlockClear (acb.advance.sectorNum/blockSectors)
      (acb.advance.sectorNum%blockSectors) acb.prepare.nSectors acb.advance.blockBuffer)

def System.Clear [Zero Data] (requests : Fin n → Request Data) (sys : System n Data) :
    Action n → Prop
  | .start i refused => sys.CallbackClear
      (vdiAioSetup (requests i).sectorNum (requests i).nbSectors (requests i).data) refused
  | .complete i refused => ∀ acb, sys.phase i = .busy acb → sys.CallbackClear acb refused
  | .effect _ => True
  | .fail _ => True

inductive Placed (vdi : State) (request : Request Data) (offset count : Nat) : Prop
  | direct {sector : Nat} (hblock : sector/blockSectors < vdi.header.blocksInImage.toNat)
      (hused : vdi.bmap (sector/blockSectors) ≠ unallocated)
      (hoffset : offset = (vdi.bmap (sector/blockSectors)).toNat * blockSectors +
        sector%blockSectors)
      (hcount : sector%blockSectors+count ≤ blockSectors)
      (hlow : request.sectorNum ≤ sector)
      (hhigh : sector+count ≤ request.sectorNum+request.nbSectors)
  | whole {block : Nat} (hblock : block < vdi.header.blocksInImage.toNat)
      (hused : vdi.bmap block ≠ unallocated)
      (hoffset : offset = (vdi.bmap block).toNat * blockSectors) (hcount : count = blockSectors)

inductive Stands (request : Request Data) : Nat → Phase Data → Prop
  | waiting : Stands request 0 .waiting
  | busy {done : Nat} {acb : WriteAcb Data}
      (hsector : acb.advance.sectorNum = request.sectorNum+done)
      (hleft : acb.advance.nbSectors+done = request.nbSectors)
      (hbuf : acb.advance.buf = fun k => request.data (done+k)) :
      Stands request done (.busy acb)
  | finished : Stands request request.nbSectors (.finished true)

structure Holds [Zero Data] (requests : Fin n → Request Data) (total : Nat)
    (before : Nat → Data) (sys : System n Data) (later : Nat → Data) (done : Fin n → Nat) :
    Prop where
  map : WellFormed sys.vdi
  disk : sys.vdi.totalSectors = total
  stands : ∀ i, Stands (requests i) (done i) (sys.phase i)
  grounded : ∀ i, (∀ acb, sys.phase i ≠ .busy acb) → sys.flight i = none
  agree : ∀ i offset count content, sys.flight i = some (.data offset count content) →
    ∀ k < count, later (offset+k) = content k
  rest : ∀ y, (∀ i offset count content, sys.flight i = some (.data offset count content) →
    y < offset ∨ offset+count ≤ y) → later y = sys.file.data y
  placed : ∀ i offset count content, sys.flight i = some (.data offset count content) →
    Placed sys.vdi (requests i) offset count
  issued : ∀ i, ∀ k < done i,
    content sys.vdi later ((requests i).sectorNum + k) = (requests i).data k
  untouched : ∀ x < total, (∀ i, x < (requests i).sectorNum ∨
    (requests i).sectorNum + done i ≤ x) → content sys.vdi later x = before x

section Places

variable {vdi : State} {request : Request Data} {offset count : Nat}

theorem Placed.allocate {block : Nat} (hfree : vdi.bmap block = unallocated)
    (h : Placed vdi request offset count) : Placed (vdi.allocate block) request offset count := by
  have hsame : ∀ other, vdi.bmap other ≠ unallocated →
      (vdi.allocate block).bmap other = vdi.bmap other := by
    intro other hused
    apply allocate_bmap_of_ne
    rintro rfl
    exact hused hfree
  cases h with
  | direct hblock hused hoff hcount hlow hhi =>
    have hmap := hsame _ hused
    exact .direct hblock (by rwa [hmap]) (by rw [hmap,hoff]) hcount hlow hhi
  | whole hblock hused hoff hcount =>
    have hmap := hsame _ hused
    exact .whole hblock (by rwa [hmap]) (by rw [hmap,hoff]) hcount

theorem Placed.below (hvdi : WellFormed vdi) (h : Placed vdi request offset count) :
    offset+count ≤ vdi.header.blocksAllocated.toNat*blockSectors := by
  cases h with
  | direct hblock hused | whole hblock hused =>
    have hbelow := hvdi.below _ hblock hused
    simp only [blockSectors] at *
    omega

theorem Placed.apart (hvdi : WellFormed vdi) (h : Placed vdi request offset count)
    {sector part : Nat} (hblock : sector/blockSectors < vdi.header.blocksInImage.toNat)
    (hpart : sector%blockSectors+part ≤ blockSectors)
    (hrange : sector+part ≤ request.sectorNum ∨ request.sectorNum+request.nbSectors ≤ sector)
    (hwhole : ¬ (offset = (vdi.bmap (sector/blockSectors)).toNat * blockSectors ∧
      count = blockSectors)) :
    let mine := (vdi.bmap (sector/blockSectors)).toNat * blockSectors + sector%blockSectors
    offset+count ≤ mine ∨ mine+part ≤ offset := by
  intro mine
  cases h with
  | @direct other hother huse hoff hcount hlow hhi =>
    by_cases hsame : other/blockSectors = sector/blockSectors
    · rw [hsame] at hoff
      simp only [mine,blockSectors] at *
      omega
    · have hplace := ne_toNat fun heq => hsame (hvdi.apart _ hother _ hblock huse heq)
      simp only [mine,blockSectors] at *
      omega
  | @whole block hother huse hoff hcount =>
    by_cases hsame : block = sector/blockSectors
    · rw [hsame] at hoff
      exact absurd ⟨hoff,hcount⟩ hwhole
    · have hplace := ne_toNat fun heq => hsame (hvdi.apart _ hother _ hblock huse heq)
      simp only [mine,blockSectors] at *
      omega

end Places

section Steps

variable [Zero Data] {requests : Fin n → Request Data} {total : Nat} {before later : Nat → Data}
  {sys : System n Data} {done : Fin n → Nat}

omit [Zero Data] in
variable {count : Nat} {acb : WriteAcb Data}

theorem Stands.of_busy {request : Request Data} (h : Stands request count (.busy acb)) :
    acb.advance.sectorNum = request.sectorNum+count ∧
      acb.advance.nbSectors+count = request.nbSectors ∧
      acb.advance.buf = fun k => request.data (count+k) := by
  cases h with
  | busy hsector hleft hbuf => exact ⟨hsector,hleft,hbuf⟩

omit [Zero Data] in
theorem Stands.le {request : Request Data} {phase : Phase Data} (h : Stands request count phase) :
    count ≤ request.nbSectors := by
  cases h with
  | waiting => exact Nat.zero_le _
  | busy _ hleft _ => omega
  | finished => exact Nat.le_refl _

variable {i : Fin n}

theorem Holds.effect (h : Holds requests total before sys later done) {submit : Submit Data}
    (hflight : sys.flight i = some submit) :
    Holds requests total before
      { sys with
        file := sys.file.apply sys.vdi submit
        flight := update sys.flight i none } later done := by
  have hother : ∀ j offset count content,
      update sys.flight i none j = some (.data offset count content) →
        sys.flight j = some (.data offset count content) := by
    intro j offset count content hj
    by_cases heq : j = i
    · rw [heq,update_self] at hj
      cases hj
    · rwa [update_of_ne heq] at hj
  refine ⟨h.map,h.disk,h.stands,?_,?_,?_,?_,h.issued,h.untouched⟩
  · intro j hj
    by_cases heq : j = i
    · rw [heq]
      exact update_self _ _ _
    · exact (update_of_ne heq _ _).trans (h.grounded j hj)
  · intro j offset count content hj
    exact h.agree j offset count content (hother j offset count content hj)
  · intro y hy
    dsimp only at hy
    have hrest : ∀ j, j ≠ i → ∀ offset count content,
        sys.flight j = some (.data offset count content) → y < offset ∨ offset+count ≤ y := by
      intro j hji offset count content hj
      exact hy j offset count content (by rwa [update_of_ne hji])
    cases submit with
    | data offset count content =>
      by_cases hin : offset ≤ y ∧ y < offset+count
      · have hagree := h.agree i offset count content hflight (y-offset) (by omega)
        rw [Nat.add_sub_cancel' hin.1] at hagree
        exact hagree.trans (patch_inside hin.1 hin.2).symm
      · refine (h.rest y fun j start length content' hj => ?_).trans (patch_outside (by omega)).symm
        by_cases heq : j = i
        · rw [heq,hflight] at hj
          cases hj
          omega
        · exact hrest j heq start length content' hj
    | header | bmap =>
      refine h.rest y fun j start length content' hj => ?_
      by_cases heq : j = i
      · rw [heq,hflight] at hj
        cases hj
      · exact hrest j heq start length content' hj
  · intro j offset count content hj
    exact h.placed j offset count content (hother j offset count content hj)

theorem Holds.issue (hdisjoint : DisjointRanges requests total)
    (h : Holds requests total before sys later done) {vdi : State} {offset part : Nat}
    {block : Nat → Data} (hfree : sys.flight i = none) (hmap : WellFormed vdi)
    (hdisk : vdi.totalSectors = total) (hpart : done i + part ≤ (requests i).nbSectors)
    (hstands : Stands (requests i) (done i + part) (.busy acb))
    (hcontent : ∀ x < total, content vdi (patch later offset count block) x =
      patch (content sys.vdi later) ((requests i).sectorNum + done i) part
        (fun k => (requests i).data (done i + k)) x)
    (hplaces : ∀ j, ∀ start length, Placed sys.vdi (requests j) start length →
      Placed vdi (requests j) start length) (hplace : Placed vdi (requests i) offset count)
    (hapart : ∀ j start length content, j ≠ i →
      sys.flight j = some (.data start length content) →
      start+length ≤ offset ∨ offset+count ≤ start) :
    Holds requests total before
      { sys with
        vdi := vdi
        phase := update sys.phase i (.busy acb)
        flight := update sys.flight i (some (.data offset count block)) }
      (patch later offset count block) (update done i (done i + part)) := by
  have hflight : ∀ {j start length content},
      update sys.flight i (some (.data offset count block)) j = some (.data start length content) →
      (j = i ∧ start = offset ∧ length = count ∧ content = block) ∨
        (j ≠ i ∧ sys.flight j = some (.data start length content)) := by
    intro j start length content hj
    rw [update_apply,ite_eq_iff] at hj
    refine hj.imp_left fun hnew => ⟨hnew.1,?_⟩
    cases hnew.2
    exact ⟨rfl,rfl,rfl⟩
  have hle : ∀ j, done j ≤ (requests j).nbSectors := fun j => (h.stands j).le
  refine ⟨hmap,hdisk,?_,?_,?_,?_,?_,?_,?_⟩
  · intro j
    dsimp only
    by_cases heq : j = i
    · subst heq
      rw [update_self,update_self]
      exact hstands
    · rw [update_of_ne heq,update_of_ne heq]
      exact h.stands j
  · intro j hj
    dsimp only at hj ⊢
    by_cases heq : j = i
    · subst heq
      exact absurd (update_self _ _ _) (hj acb)
    · rw [update_of_ne heq]
      exact h.grounded j fun acb' => by
        have := hj acb'
        rwa [update_of_ne heq] at this
  · intro j start length content hj k hk
    rcases hflight hj with ⟨-,rfl,rfl,rfl⟩ | ⟨hji,hold⟩
    · rw [patch_inside (Nat.le_add_right _ _) (by omega),Nat.add_sub_cancel_left]
    have hout := hapart j start length content hji hold
    rw [patch_outside (by omega)]
    exact h.agree j start length content hold k hk
  · intro y hy
    dsimp only at hy ⊢
    have hmine := hy i offset count block (update_self _ _ _)
    rw [patch_outside hmine]
    refine h.rest y fun j start length content hj => ?_
    by_cases heq : j = i
    · rw [heq,hfree] at hj
      cases hj
    · exact hy j start length content (by rwa [update_of_ne heq])
  · intro j start length content hj
    rcases hflight hj with ⟨rfl,rfl,rfl,-⟩ | ⟨-,hold⟩
    · exact hplace
    · exact hplaces j start length (h.placed j start length content hold)
  · intro j k hk
    have hwithin := hdisjoint.within j
    by_cases heq : j = i
    · subst heq
      rw [update_self] at hk
      rw [hcontent _ (by omega)]
      by_cases hold : k < done j
      · rw [patch_outside (by omega)]
        exact h.issued j k hold
      · rw [patch_inside (by omega) (by omega)]
        exact congrArg (requests j).data (by omega)
    · rw [update_of_ne heq] at hk
      have hrange := hdisjoint.apart j i heq
      have hj := hle j
      rw [hcontent _ (by omega),patch_outside (by omega)]
      exact h.issued j k hk
  · intro x hx hout
    have hmine := hout i
    rw [update_self] at hmine
    rw [hcontent x hx,patch_outside (by omega)]
    refine h.untouched x hx fun j => ?_
    by_cases heq : j = i
    · rw [heq]
      omega
    · have := hout j
      rwa [update_of_ne heq] at this

theorem Holds.quiet (h : Holds requests total before sys later done) {phase : Phase Data}
    {flight : Option (Submit Data)} (hfree : sys.flight i = none)
    (hstands : Stands (requests i) (done i) phase)
    (hdata : ∀ offset count content, flight ≠ some (.data offset count content))
    (hbusy : (∀ acb, phase ≠ .busy acb) → flight = none) :
    Holds requests total before
      { sys with
        phase := update sys.phase i phase
        flight := update sys.flight i flight } later done := by
  have hflight : ∀ j offset count content,
      update sys.flight i flight j = some (.data offset count content) ↔
        sys.flight j = some (.data offset count content) := by
    intro j offset count content
    by_cases heq : j = i
    · subst heq
      simp [hfree,hdata]
    · rw [update_of_ne heq]
  refine ⟨h.map,h.disk,?_,?_,?_,?_,?_,h.issued,h.untouched⟩
  · exact (forall_update_iff _ fun j phase => Stands (requests j) (done j) phase).mpr
      ⟨hstands,fun j _ => h.stands j⟩
  · intro j hj
    dsimp only at hj ⊢
    by_cases heq : j = i
    · subst heq
      rw [update_self] at hj ⊢
      exact hbusy hj
    · rw [update_of_ne heq] at hj ⊢
      exact h.grounded j hj
  · intro j offset count content hj
    exact h.agree j offset count content ((hflight j offset count content).mp hj)
  · intro y hy
    exact h.rest y fun j offset count content hj =>
      hy j offset count content ((hflight j offset count content).mpr hj)
  · intro j offset count content hj
    exact h.placed j offset count content ((hflight j offset count content).mp hj)

omit [Zero Data] in
theorem finishWrite_spec (vdi : State) (acb : WriteAcb Data) :
    (finishWrite vdi acb).1.nSectors = 0 ∧ (finishWrite vdi acb).1.nbSectors = acb.nbSectors ∧
      (finishWrite vdi acb).1.sectorNum = acb.sectorNum ∧ (finishWrite vdi acb).1.buf = acb.buf ∧
      ∀ offset count content, (finishWrite vdi acb).2 ≠ some (.data offset count content) := by
  unfold finishWrite
  dsimp only
  split
  · simp
  · split <;> simp

theorem Holds.callback_finish (h : Holds requests total before sys later done)
    (hfree : sys.flight i = none) (hsector : acb.advance.sectorNum = (requests i).sectorNum + done
        i)
    (hleft : acb.advance.nbSectors + done i = (requests i).nbSectors)
    (hbuf : acb.advance.buf = fun k => (requests i).data (done i + k))
    (hend : acb.advance.nbSectors = 0) :
    Holds requests total before (sys.callback i acb false) later done := by
  obtain ⟨hn,hcount,hnum,hdata,hsubmit⟩ := finishWrite_spec sys.vdi acb.advance
  unfold System.callback
  rw [vdiAioWriteCb_finish hend]
  generalize finishWrite sys.vdi acb.advance = result at hn hcount hnum hdata hsubmit
  obtain ⟨next,submit⟩ := result
  dsimp only at hn hcount hnum hdata hsubmit
  cases submit with
  | none =>
    have hdone : done i = (requests i).nbSectors := by omega
    have hstands : Stands (requests i) (done i) (.finished true) := hdone ▸ .finished
    have hqueue := h.quiet hfree hstands hsubmit fun _ => rfl
    rw [← hfree,update_eq_self] at hqueue
    exact hqueue
  | some submit =>
    have hstands : Stands (requests i) (done i) (.busy next) := by
      refine .busy ?_ ?_ ?_
      · change next.sectorNum + next.nSectors = _
        rw [hn,hnum,Nat.add_zero,hsector]
      · change next.nbSectors - next.nSectors + _ = _
        rw [hn,hcount,Nat.sub_zero,hleft]
      · change (fun k => next.buf (next.nSectors+k)) = _
        rw [hn,hdata,hbuf]
        simp
    exact h.quiet hfree hstands hsubmit fun hidle => absurd rfl (hidle next)

theorem Holds.callback_data (hdisjoint : DisjointRanges requests total)
    (h : Holds requests total before sys later done) (hfree : sys.flight i = none)
    (hsector : acb.advance.sectorNum = (requests i).sectorNum + done i)
    (hleft : acb.advance.nbSectors + done i = (requests i).nbSectors)
    (hbuf : acb.advance.buf = fun k => (requests i).data (done i + k))
    (hmore : acb.advance.nbSectors ≠ 0)
    (hclear : sys.BlockClear (acb.advance.sectorNum/blockSectors)
      (acb.advance.sectorNum%blockSectors) acb.prepare.nSectors acb.advance.blockBuffer) :
    ∃ later' done', Holds requests total before (sys.callback i acb false) later' done' := by
  have hcount := nextSectors_le acb.advance.sectorNum acb.advance.nbSectors
  have hpart := nextSectors_block acb.advance.sectorNum acb.advance.nbSectors
  change acb.prepare.nSectors ≤ _ at hcount
  change _ + acb.prepare.nSectors ≤ _ at hpart
  have hwithin := hdisjoint.within i
  have hdisk := h.map.disk
  have hstands : ∀ next : WriteAcb Data, next.sectorNum = acb.advance.sectorNum →
      next.nbSectors = acb.advance.nbSectors → next.nSectors = acb.prepare.nSectors →
      next.buf = acb.advance.buf →
      Stands (requests i) (done i + acb.prepare.nSectors) (.busy next) := by
    intro next hnum hnumber hn hnext
    refine .busy ?_ ?_ ?_
    · change next.sectorNum + next.nSectors = _
      rw [hnum,hn,hsector,Nat.add_assoc]
    · change next.nbSectors - next.nSectors + _ = _
      rw [hn,hnumber]
      omega
    · change (fun k => next.buf (next.nSectors+k)) = _
      rw [hn,hnext,hbuf]
      funext k
      rw [Nat.add_assoc]
  have hblock : ∀ x < total, x/blockSectors < sys.vdi.header.blocksInImage.toNat := by
    intro x hx
    rw [Nat.div_lt_iff_lt_mul (by decide),← h.disk] at *
    omega
  have hmine : acb.advance.sectorNum/blockSectors < sys.vdi.header.blocksInImage.toNat :=
    hblock _ (by omega)
  have hrange : ∀ j, j ≠ i → acb.advance.sectorNum+acb.prepare.nSectors ≤ (requests j).sectorNum ∨
        (requests j).sectorNum + (requests j).nbSectors ≤ acb.advance.sectorNum := by
    intro j hji
    have := hdisjoint.apart j i hji
    omega
  unfold System.callback
  unfold System.BlockClear at hclear
  by_cases hnew : sys.vdi.bmap (acb.advance.sectorNum/blockSectors) = unallocated
  · rw [if_pos hnew] at hclear
    rw [vdiAioWriteCb_allocate hmore hnew]
    refine ⟨_,_,h.issue hdisjoint hfree (h.map.allocate hmine hnew) h.disk (by omega)
      (hstands _ rfl rfl rfl rfl) ?_ ?_ ?_ ?_⟩
    · intro x hx
      change content (sys.vdi.allocate (acb.advance.sectorNum/blockSectors))
        (patch later _ _ (patch (acb.advance.blockBuffer.getD fun _ => 0) _ acb.prepare.nSectors
          acb.advance.buf)) x = _
      rw [← hsector,← hbuf]
      exact content_allocate h.map hpart hmine hnew hclear (hblock x hx)
    · exact fun _ _ _ hplace => hplace.allocate hnew
    · have hself : (sys.vdi.allocate (acb.advance.sectorNum/blockSectors)).bmap
          (acb.advance.sectorNum/blockSectors) = sys.vdi.header.blocksAllocated :=
        allocate_bmap_self
      exact .whole hmine (hself.trans_ne (h.map.allocated_ne hmine hnew))
        (congrArg (fun entry : BitVec 32 => entry.toNat*blockSectors) hself.symm) rfl
    · intro j start length content _ hj
      exact .inl ((h.placed j start length content hj).below h.map)
  · rw [if_neg hnew] at hclear
    rw [vdiAioWriteCb_direct hmore hnew]
    refine ⟨_,_,h.issue hdisjoint hfree h.map h.disk (by omega)
      (hstands _ rfl rfl rfl rfl) ?_ ?_ ?_ ?_⟩
    · intro x hx
      rw [← hsector,← hbuf]
      exact content_direct h.map hpart hmine hnew (hblock x hx)
    · exact fun _ _ _ hplace => hplace
    · exact .direct hmine hnew rfl hpart (by omega) (by omega)
    · intro j start length content hji hj
      refine (h.placed j start length content hj).apart h.map hmine hpart (hrange j hji) ?_
      rintro ⟨rfl,rfl⟩
      exact hclear j content hj

theorem Holds.callback (hdisjoint : DisjointRanges requests total)
    (h : Holds requests total before sys later done) {refused : Bool} (hfree : sys.flight i = none)
    (hstands : Stands (requests i) (done i) (.busy acb)) (hclear : sys.CallbackClear acb refused) :
    ∃ later' done', Holds requests total before (sys.callback i acb refused) later' done' := by
  obtain ⟨rfl,hblock⟩ := hclear
  obtain ⟨hsector,hleft,hbuf⟩ := hstands.of_busy
  by_cases hend : acb.advance.nbSectors = 0
  · exact ⟨later,done,h.callback_finish hfree hsector hleft hbuf hend⟩
  · exact h.callback_data hdisjoint hfree hsector hleft hbuf hend (hblock hend)

def System.Inv (requests : Fin n → Request Data) (total : Nat) (before : Nat → Data)
    (sys : System n Data) : Prop :=
  (∃ i, sys.phase i = .finished false) ∨
    ∃ later done, Holds requests total before sys later done

theorem phase_failed {requests : Fin n → Request Data} {next : System n Data} {action : Action n}
    (hfail : sys.phase i = .finished false) (hs : sys.step requests action = some next) :
    next.phase i = .finished false := by
  have hkeep : ∀ (j : Fin n) (phase : Phase Data), sys.phase j ≠ .finished false →
      update sys.phase j phase i = .finished false := by
    intro j phase hj
    rw [update_of_ne]
    · exact hfail
    · rintro rfl
      exact hj hfail
  have hcb : ∀ j acb refused, sys.phase j ≠ .finished false →
      (sys.callback j acb refused).phase i = .finished false := by
    intro j acb refused hj
    unfold System.callback
    split
    · exact hkeep j _ hj
    split
    · exact hkeep j _ hj
    · exact hkeep j _ hj
  unfold System.step at hs
  cases action with
  | start j refused =>
    dsimp only at hs
    split at hs
    · rename_i hphase
      cases hs
      exact hcb j _ _ (by simp [hphase])
    · cases hs
  | effect j =>
    obtain ⟨submit,_,rfl⟩ := Option.map_eq_some_iff.mp hs
    exact hfail
  | complete j refused =>
    dsimp only at hs
    split at hs
    · rename_i hphase _
      cases hs
      exact hcb j _ _ (by simp [hphase])
    · cases hs
  | fail j =>
    dsimp only at hs
    split at hs
    · rename_i hphase
      cases hs
      exact hkeep j _ (by simp [hphase])
    · cases hs

theorem System.Inv.step (hdisjoint : DisjointRanges requests total) {next : System n Data}
    {action : Action n} (h : sys.Inv requests total before) (hclear : sys.Clear requests action)
    (hs : sys.step requests action = some next) : next.Inv requests total before := by
  rcases h with ⟨i,hfail⟩ | ⟨later,done,h⟩
  · exact .inl ⟨i,phase_failed hfail hs⟩
  cases action with
  | start i refused =>
    simp only [System.step] at hs
    split at hs
    · rename_i hphase
      cases hs
      have hstands := h.stands i
      rw [hphase] at hstands
      have hz : done i = 0 := by
        generalize done i = count at hstands
        cases hstands
        rfl
      have hfree := h.grounded i fun acb => by simp [hphase]
      refine .inr (h.callback hdisjoint hfree ?_ hclear)
      rw [hz]
      exact .busy rfl rfl rfl
    · cases hs
  | effect i =>
    obtain ⟨submit,hflight,rfl⟩ := Option.map_eq_some_iff.mp hs
    exact .inr ⟨later,done,h.effect hflight⟩
  | complete i refused =>
    simp only [System.step] at hs
    split at hs
    · rename_i acb hphase hfree
      cases hs
      have hstands := h.stands i
      rw [hphase] at hstands
      exact .inr (h.callback hdisjoint hfree hstands (hclear acb hphase))
    · cases hs
  | fail i =>
    simp only [System.step] at hs
    split at hs
    · cases hs
      exact .inl ⟨i,update_self _ _ _⟩
    · cases hs

theorem System.Inv.stored (h : sys.Inv requests total before) : sys.Stored requests before := by
  intro hall
  rcases h with ⟨i,hfail⟩ | ⟨later,done,h⟩
  · have hsuccess := hall i
    rw [hfail] at hsuccess
    cases hsuccess
  · have hdone : ∀ i, done i = (requests i).nbSectors := by
      intro i
      have hstands := h.stands i
      rw [hall i] at hstands
      generalize done i = count at hstands
      cases hstands
      rfl
    have hnone : ∀ i, sys.flight i = none := by
      intro i
      apply h.grounded i
      intro acb
      simp [hall i]
    have hlater : later = sys.file.data := by
      funext y
      apply h.rest
      intro i offset count content hi
      rw [hnone i] at hi
      cases hi
    subst hlater
    refine ⟨fun i k hk => h.issued i k (by rwa [hdone i]),fun x hx hout => ?_⟩
    apply h.untouched x (by rwa [← h.disk])
    intro i
    rw [hdone i]
    exact hout i

end Steps

def Within (total : Nat) (acb : WriteAcb Data) : Prop :=
  acb.nSectors ≤ acb.nbSectors ∧ acb.sectorNum+acb.nbSectors ≤ total

def System.Mapped (total : Nat) (sys : System n Data) : Prop :=
  WellFormed sys.vdi ∧ sys.vdi.totalSectors = total ∧
    ∀ i acb, sys.phase i = .busy acb → Within total acb

variable [Zero Data]

/-- Writes to different sectors, in flight together, have stored their data and nothing else when
all have succeeded. -/
theorem System.stored_of_clear (file : File Data) (vdi : State) (hmap : WellFormed vdi)
    (requests : Fin n → Request Data)
    (hdisjoint : DisjointRanges requests vdi.totalSectors) (actions : List (Action n))
    (hclear : Meets (System.step requests) (System.Clear requests) (System.initial vdi file)
      actions) :
    Always (System.step requests) (System.Stored requests (content vdi file.data))
      (System.initial vdi file) actions := by
  have hinv : (System.initial vdi file : System n Data).Inv requests vdi.totalSectors
      (content vdi file.data) := by
    refine .inr ⟨file.data,fun _ => 0,hmap,rfl,fun _ => .waiting,fun _ _ => rfl,?_,
      fun _ _ => rfl,?_,?_,fun _ _ _ => rfl⟩
    · intro i offset count content hi
      cases hi
    · intro i offset count content hi
      cases hi
    · intro i k hk
      cases hk
  exact (always_of_meets (fun _ _ _ h hc hs => h.step hdisjoint hc hs) hinv hclear).imp
    fun _ h => h.stored

theorem vdiAioWriteCb_within {vdi : State} {acb : WriteAcb Data} (hvdi : WellFormed vdi)
    (hacb : Within vdi.totalSectors acb) :
    let result := vdiAioWriteCb vdi acb
    WellFormed result.1 ∧ result.1.totalSectors = vdi.totalSectors ∧
      Within vdi.totalSectors result.2.1 := by
  have hin : acb.advance.sectorNum+acb.advance.nbSectors ≤ vdi.totalSectors := by
    obtain ⟨hle,hin⟩ := hacb
    dsimp only [WriteAcb.advance]
    omega
  by_cases hend : acb.advance.nbSectors = 0
  · obtain ⟨hn,hcount,hnum,-,-⟩ := finishWrite_spec vdi acb.advance
    rw [vdiAioWriteCb_finish hend]
    refine ⟨hvdi,rfl,?_⟩
    dsimp only [Within]
    omega
  have hle := nextSectors_le acb.advance.sectorNum acb.advance.nbSectors
  by_cases hfree : vdi.bmap (acb.advance.sectorNum/blockSectors) = unallocated
  · rw [vdiAioWriteCb_allocate hend hfree]
    refine ⟨hvdi.allocate (Nat.div_lt_of_lt_mul ?_) hfree,rfl,hle,hin⟩
    rw [Nat.mul_comm]
    have := hvdi.disk
    dsimp only [WriteAcb.prepare]
    omega
  · rw [vdiAioWriteCb_direct hend hfree]
    exact ⟨hvdi,rfl,hle,hin⟩

theorem System.Mapped.callback {sys : System n Data} {total : Nat} {acb : WriteAcb Data}
    (h : sys.Mapped total) (hacb : Within total acb) (i : Fin n) (refused : Bool) :
    (sys.callback i acb refused).Mapped total := by
  obtain ⟨hvdi,rfl,hbusy⟩ := h
  obtain ⟨hnext,htotal,hacb'⟩ := vdiAioWriteCb_within hvdi hacb
  unfold System.callback
  split <;> rename_i heq <;> rw [heq] at hnext htotal hacb'
  · exact ⟨hnext,htotal,by grind [update_apply]⟩
  · split <;> exact ⟨hnext,htotal,by grind [update_apply]⟩

/-- No two blocks get the same place in the image, whatever overlaps, fails or is refused. -/
theorem System.wellFormed_always (file : File Data) (vdi : State) (hmap : WellFormed vdi)
    (requests : Fin n → Request Data)
    (hin : ∀ i, (requests i).sectorNum + (requests i).nbSectors ≤ vdi.totalSectors)
    (actions : List (Action n)) :
    Always (System.step requests) (fun sys => WellFormed sys.vdi) (System.initial vdi file)
      actions := by
  suffices h : Always (System.step requests) (System.Mapped vdi.totalSectors)
      (System.initial vdi file) actions from h.imp fun _ h => h.1
  refine always_of_inv (fun sys action next h hs => ?_) ⟨hmap,rfl,nofun⟩ actions
  cases action with
  | start i refused =>
    simp only [System.step] at hs
    split at hs <;> cases hs
    exact h.callback ⟨Nat.zero_le _,hin i⟩ i refused
  | effect i =>
    obtain ⟨submit,-,rfl⟩ := Option.map_eq_some_iff.mp hs
    exact h
  | complete i refused =>
    simp only [System.step] at hs
    split at hs <;> cases hs
    exact h.callback (h.2.2 i _ (by assumption)) i refused
  | fail i =>
    simp only [System.step] at hs
    split at hs <;> cases hs
    have hbusy := h.2.2
    exact ⟨h.1,h.2.1,by grind [update_apply]⟩

def neighbours (i : Fin 2) : Request Nat := ⟨i,1,fun _ => i+1⟩

theorem neighbours_disjoint : DisjointRanges neighbours emptyState.totalSectors :=
  ⟨by decide,by decide⟩

theorem System.wellFormed_always_failing :
    Always (System.step neighbours) (fun sys => WellFormed sys.vdi)
      (System.initial emptyState emptyFile) [.start 0 false,.fail 0,.start 1 true] :=
  System.wellFormed_always emptyFile emptyState emptyState_wellFormed neighbours (by decide) _

def oneByOne : List (Action 2) :=
  [.start 0 false,.effect 0,.start 1 false,.effect 1,.complete 1 false,.complete 0 false,
    .effect 0,.complete 0 false,.effect 0,.complete 0 false]

theorem System.stored_of_clear_neighbours :
    Always (System.step neighbours) (System.Stored neighbours (content emptyState emptyFile.data))
      (System.initial emptyState emptyFile) oneByOne := by
  apply System.stored_of_clear emptyFile emptyState emptyState_wellFormed neighbours
    neighbours_disjoint
  have hfinish : ∀ (sys : System 2 Nat) (i : Fin 2),
      (∀ acb, sys.phase i = .busy acb → acb.advance.nbSectors = 0) →
        sys.Clear neighbours (.complete i false) :=
    fun sys i h acb hacb => ⟨rfl,fun hmore => absurd (h acb hacb) hmore⟩
  refine meets_cons rfl ⟨rfl,fun _ _ _ _ => rfl⟩ (meets_cons rfl trivial
    (meets_cons rfl ⟨rfl,fun _ => ?_⟩ (meets_cons rfl trivial
      (meets_cons rfl (hfinish _ _ ?_) (meets_cons rfl (hfinish _ _ ?_) (meets_cons rfl trivial
        (meets_cons rfl (hfinish _ _ ?_) (meets_cons rfl trivial
          (meets_cons rfl (hfinish _ _ ?_) trivial)))))))))
  · exact Fin.forall_fin_two.mpr ⟨fun _ => Option.some_ne_none _ ∘ Eq.symm,
      fun _ => Option.some_ne_none _ ∘ Eq.symm⟩
  all_goals
    intro acb hacb
    cases hacb
    rfl

/-- The second request starts at once, and its write takes effect before the first one's, which
then overwrites it. -/
theorem neighbour_overwritten :
    WellFormed emptyState ∧ DisjointRanges neighbours emptyState.totalSectors ∧
      ¬ Always (System.step neighbours)
        (System.Stored neighbours (content emptyState emptyFile.data))
        (System.initial emptyState emptyFile)
        [.start 0 false, .start 1 false, .effect 1, .effect 0, .complete 1 false,
          .complete 0 false, .effect 0, .complete 0 false, .effect 0, .complete 0 false] := by
  refine ⟨emptyState_wellFormed,neighbours_disjoint,fun halways => ?_⟩
  have hall := halways.last rfl (Fin.forall_fin_two.mpr ⟨rfl,rfl⟩)
  have hsector := hall.1 1 0 (by decide)
  revert hsector
  decide

end Hqemu.Block.Vdi
