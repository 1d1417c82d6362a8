import Hqemu.Exec.GuestFrame

/-! The search for a free range in the part of the address space that is reserved for the guest. -/
namespace Hqemu.Exec.FindVma

structure Area (cfg : Config) where
  reservedVa : Nat
  flags : Nat → Nat
  mmapNextStart : Nat
  next_dvd : cfg.hostPageSize ∣ mmapNextStart
  next_lt : mmapNextStart < 2^cfg.targetLongBits

variable {cfg : Config} (area : Area cfg)

def pageGetFlags (addr : Nat) : Nat := area.flags (addr/cfg.targetPageSize)

/-- The loop of `mmap_find_vma_reserved`; the outer `none` is a run that is not at its end. -/
def search (size : Nat) : Nat → Nat → Nat → Bool → Option (Option Nat)
  | 0, _, _, _ => none
  | fuel+1, addr, lastAddr, looped =>
    let stop := cfg.abi (lastAddr+size)
    if stop = addr then some (some lastAddr)
    else if area.reservedVa ≤ stop ∨ stop < lastAddr then
      if looped then some none else search size fuel cfg.hostPageSize cfg.hostPageSize true
    else
      let next := cfg.abi (addr+cfg.hostPageSize)
      search size fuel next (if pageGetFlags area addr ≠ 0 then next else lastAddr) looped

def searchStart (start : Nat) : Nat :=
  if start = 0 then area.mmapNextStart else hostStart cfg start

def mmapFindVma (fuel start size : Nat) : Option (Option Nat) :=
  let start := searchStart area start
  let size := hostPageAlign cfg size
  if area.reservedVa < size then some none else search area size fuel start start false

def Free (start size : Nat) : Prop :=
  start+size ≤ area.reservedVa ∧
    ∀ addr, start ≤ addr → addr < start+size → pageGetFlags area addr = 0

/-- A range of host pages inside the area, each with its first target page not in use. -/
structure Fits (size start : Nat) : Prop where
  dvd : cfg.hostPageSize ∣ start
  inside : start+size < area.reservedVa
  bound : start+size < 2^cfg.targetLongBits
  open_ : ∀ addr, cfg.hostPageSize ∣ addr → start ≤ addr → addr < start+size →
    pageGetFlags area addr = 0

def FirstFrom (size base start : Nat) : Prop :=
  base ≤ start ∧ Fits area size start ∧ ∀ other, base ≤ other → other < start → ¬Fits area size
      other

/-- The first such range from the base on or, if there is none, from the second host page on. -/
def First (size base start : Nat) : Prop :=
  FirstFrom area size base start ∨
    (∀ other, base ≤ other → ¬Fits area size other) ∧ FirstFrom area size cfg.hostPageSize start

/-- No host page of the first range is in use only from a later target page on. A size that is
rounded to 0 is not searched for. -/
def Sound (start size : Nat) : Prop :=
  if hostPageAlign cfg size = 0 then Free area (searchStart area start) size
  else ∀ found, First area (hostPageAlign cfg size) (searchStart area start) found →
    ∀ addr, found ≤ addr → addr < found+size → pageGetFlags area addr ≠ 0 →
      pageGetFlags area (hostStart cfg addr) ≠ 0

/-- From the base on nothing before `lastAddr` fits, and the host pages up to `addr` are open. -/
structure Inv (size base addr lastAddr : Nat) : Prop where
  addr_dvd : cfg.hostPageSize ∣ addr
  last_dvd : cfg.hostPageSize ∣ lastAddr
  order : base ≤ lastAddr ∧ lastAddr ≤ addr ∧ addr ≤ lastAddr+size
  bound : lastAddr < 2^cfg.targetLongBits
  fits : lastAddr < addr → lastAddr+size < area.reservedVa
  open_ : ∀ x, cfg.hostPageSize ∣ x → lastAddr ≤ x → x < addr → pageGetFlags area x = 0
  passed : ∀ other, base ≤ other → other < lastAddr → ¬Fits area size other

variable {area} {size : Nat}

theorem First.fits {base start : Nat} (h : First area size base start) : Fits area size start :=
  h.elim (fun hfirst => hfirst.2.1) fun hfirst => hfirst.2.2.1

theorem FirstFrom.unique {base start other : Nat} (h : FirstFrom area size base start)
    (hother : FirstFrom area size base other) : other = start := by
  rcases Nat.lt_trichotomy other start with hlt | heq | hlt
  · exact absurd hother.2.1 (h.2.2 other hother.1 hlt)
  · exact heq
  · exact absurd h.2.1 (hother.2.2 start h.1 hlt)

theorem Inv.start {base : Nat} (hdvd : cfg.hostPageSize ∣ base)
    (hbound : base < 2^cfg.targetLongBits) : Inv area size base base base :=
  ⟨hdvd,hdvd,by omega,hbound,by omega,by omega,by omega⟩

theorem Inv.next {base addr lastAddr : Nat} (h : Inv area size base addr lastAddr)
    (hhost : 0 < cfg.hostPageSize) (hdvd : cfg.hostPageSize ∣ size)
    (harea : lastAddr+size < area.reservedVa)
    (hne : lastAddr+size ≠ addr) (hbound : lastAddr+size < 2^cfg.targetLongBits) :
    addr+cfg.hostPageSize < 2^cfg.targetLongBits ∧
      Inv area size base (addr+cfg.hostPageSize)
        (if pageGetFlags area addr ≠ 0 then addr+cfg.hostPageSize else lastAddr) := by
  have horder := h.order
  have hle := add_le_of_lt h.addr_dvd (Nat.dvd_add h.last_dvd hdvd) (by omega)
  have hnext := Nat.dvd_add h.addr_dvd (Nat.dvd_refl cfg.hostPageSize)
  refine ⟨by omega,?_⟩
  split
  · rename_i hused
    refine ⟨hnext,hnext,by omega,by omega,by omega,by omega,fun other hbase hlt hfits => ?_⟩
    rcases Nat.lt_or_ge other lastAddr with hbefore | hafter
    · exact h.passed other hbase hbefore hfits
    · have hother : other ≤ addr := by
        by_contra hgt
        have := add_le_of_lt h.addr_dvd hfits.dvd (Nat.not_le.mp hgt)
        omega
      exact hused (hfits.open_ addr h.addr_dvd hother (by omega))
  · rename_i hopen
    refine ⟨hnext,h.last_dvd,by omega,h.bound,fun _ => harea,fun x hx hlow hhigh => ?_,h.passed⟩
    rcases Nat.lt_trichotomy x addr with hlt | rfl | hgt
    · exact h.open_ x hx hlow hlt
    · exact not_not.mp hopen
    · have := add_le_of_lt h.addr_dvd hx hgt
      omega

theorem search_first (hhost : 0 < cfg.hostPageSize)
    (hsmall : cfg.hostPageSize < 2^cfg.targetLongBits) (hdvd : cfg.hostPageSize ∣ size)
    (hpos : 0 < size) (hsize : size < 2^cfg.targetLongBits) (start fuel : Nat) (looped : Bool)
    {addr lastAddr : Nat}
    (h : Inv area size (if looped then cfg.hostPageSize else start) addr lastAddr)
    (hlooped : looped = true → ∀ other, start ≤ other → ¬Fits area size other)
    (haddr : addr < 2^cfg.targetLongBits)
    (hfuel : (if looped then 0 else 2^cfg.targetLongBits) + (2^cfg.targetLongBits-addr) < fuel) :
    ∃ result, search area size fuel addr lastAddr looped = some result ∧
      ∀ found, result = some found ↔ First area size start found := by
  induction fuel generalizing addr lastAddr looped with
  | zero => omega
  | succ fuel ih =>
    rw [search]
    have horder := h.order
    have hwrap : cfg.abi (lastAddr+size) = lastAddr+size ∧ lastAddr+size < 2^cfg.targetLongBits ∨
        cfg.abi (lastAddr+size) < lastAddr ∧ 2^cfg.targetLongBits ≤ lastAddr+size := by
      rcases Nat.lt_or_ge (lastAddr+size) (2^cfg.targetLongBits) with hlt | hge
      · exact .inl ⟨Nat.mod_eq_of_lt hlt,hlt⟩
      · refine .inr ⟨?_,hge⟩
        rw [Config.abi,Nat.mod_eq_sub_mod hge,Nat.mod_eq_of_lt (by omega)]
        omega
    split
    · obtain ⟨hwrap,hlt⟩ | hwrap := hwrap
      · have hfirst : FirstFrom area size (if looped then cfg.hostPageSize else start) lastAddr :=
          ⟨horder.1,⟨h.last_dvd,h.fits (by omega),hlt,fun x hx hlow hhigh =>
            h.open_ x hx hlow (by omega)⟩,h.passed⟩
        refine ⟨_,rfl,fun found => ?_⟩
        cases looped with
        | false =>
          refine ⟨?_,?_⟩
          · rintro ⟨⟩
            exact .inl hfirst
          · rintro (hfound | hfound)
            · rw [hfound.unique hfirst]
            · exact absurd hfirst.2.1 (hfound.1 lastAddr hfirst.1)
        | true =>
          refine ⟨?_,?_⟩
          · rintro ⟨⟩
            exact .inr ⟨hlooped rfl,hfirst⟩
          · rintro (hfound | hfound)
            · exact absurd hfound.2.1 (hlooped rfl found hfound.1)
            · rw [hfound.2.unique hfirst]
      · omega
    split
    · rename_i hstop
      have hnone : ∀ other, (if looped then cfg.hostPageSize else start) ≤ other →
          ¬Fits area size other := by
        intro other hbase hfits
        rcases Nat.lt_or_ge other lastAddr with hbefore | hafter
        · exact h.passed other hbase hbefore hfits
        · have := hfits.inside
          have := hfits.bound
          omega
      cases looped with
      | true =>
        refine ⟨none,rfl,fun found => ⟨fun hfound => absurd hfound.symm (Option.some_ne_none found),?_⟩⟩
        rintro (hfound | hfound)
        · exact absurd hfound.2.1 (hlooped rfl found hfound.1)
        · exact absurd hfound.2.2.1 (hnone found hfound.2.1)
      | false =>
        exact ih true (.start (Nat.dvd_refl _) hsmall) (fun _ => hnone) hsmall
          (by simp at hfuel ⊢; omega)
    · obtain ⟨heq,hlt⟩ | hwrap := hwrap
      · obtain ⟨hnextlt,hnext⟩ := h.next hhost hdvd (by omega) (by omega) hlt
        rw [show cfg.abi (addr+cfg.hostPageSize) = _ from Nat.mod_eq_of_lt hnextlt]
        exact ih looped hnext hlooped hnextlt (by omega)
      · omega

theorem Fits.free_iff {start rounded : Nat} (h : Fits area rounded start) (hle : size ≤ rounded) :
    Free area start size ↔ ∀ addr, start ≤ addr → addr < start+size →
      pageGetFlags area addr ≠ 0 → pageGetFlags area (hostStart cfg addr) ≠ 0 := by
  have hinside := h.inside
  refine ⟨fun hfree addr hlow hhigh hused => absurd (hfree.2 addr hlow hhigh) hused,
    fun huniform => ⟨by omega,fun addr hlow hhigh => ?_⟩⟩
  by_contra hused
  refine huniform addr hlow hhigh hused (h.open_ _ (hostStart_dvd cfg addr) ?_ ?_)
  · exact (Nat.div_mul_cancel h.dvd).symm.le.trans (Nat.mul_le_mul_right _ (Nat.div_le_div_right
        hlow))
  · exact (hostStart_le cfg addr).trans_lt (by omega)

/-- The search ends, and what it finds is free exactly if the first range that fits is. -/
theorem mmapFindVma_free_iff (hspace : cfg.hostPageSize ∣ 2 ^ cfg.targetLongBits)
    (hsmall : cfg.hostPageSize < 2 ^ cfg.targetLongBits) {fuel start size : Nat}
    (hfuel : 2 * 2 ^ cfg.targetLongBits < fuel) (hstart : start < 2 ^ cfg.targetLongBits)
    (hsize : size < 2 ^ cfg.targetLongBits) :
    ∃ result, mmapFindVma area fuel start size = some result ∧
      ((∀ addr ∈ result, Free area addr size) ↔ Sound area start size) := by
  have hhost := Nat.pos_of_dvd_of_pos hspace (Nat.two_pow_pos _)
  obtain ⟨hround,halign⟩ := hostPageAlign_spec hspace hsize
  have hbase : cfg.hostPageSize ∣ searchStart area start ∧
      searchStart area start < 2^cfg.targetLongBits := by
    unfold searchStart
    split
    · exact ⟨area.next_dvd,area.next_lt⟩
    · exact ⟨hostStart_dvd cfg start,(hostStart_le cfg start).trans_lt hstart⟩
  unfold mmapFindVma Sound
  dsimp only
  by_cases hzero : hostPageAlign cfg size = 0
  · obtain ⟨fuel,rfl⟩ := Nat.exists_eq_succ_of_ne_zero (show fuel ≠ 0 by omega)
    refine ⟨some (searchStart area start),?_,by simp [hzero]⟩
    rw [hzero,if_neg (Nat.not_lt_zero _),search,if_pos]
    exact Nat.mod_eq_of_lt hbase.2
  rw [if_neg hzero]
  split
  · rename_i hlarge
    refine ⟨none,rfl,⟨fun _ found hfound => ?_,nofun⟩⟩
    have := hfound.fits.inside
    omega
  · obtain ⟨result,hresult,hfirst⟩ := search_first hhost hsmall hround (Nat.pos_of_ne_zero hzero)
      (hostPageAlign_lt cfg size) (searchStart area start) fuel false (.start hbase.1 hbase.2)
      nofun hbase.2 (by rw [if_neg Bool.false_ne_true]; omega)
    refine ⟨result,hresult,?_⟩
    have hfree (found) (hfound : First area _ (searchStart area start) found) :=
      hfound.fits.free_iff (show size ≤ hostPageAlign cfg size by omega)
    exact ⟨fun hall found hfound => (hfree found hfound).mp (hall found ((hfirst found).mpr
        hfound)),
      fun hsound found hfound => (hfree found ((hfirst found).mp hfound)).mpr
        (hsound found ((hfirst found).mp hfound))⟩

def onePage (page : Nat) : Area UserPages.Rights.doubleConfig where
  reservedVa := 0x80000000
  flags p := if p = page then 1 else 0
  mmapNextStart := 0x40000000
  next_dvd := by decide
  next_lt := by decide

theorem mmapFindVma_free_iff_onePage :
    ∃ result, mmapFindVma (onePage 5) (2 ^ 34) 0x10000 0x2000 = some result ∧
      ((∀ addr ∈ result, Free (onePage 5) addr 0x2000) ↔ Sound (onePage 5) 0x10000 0x2000) :=
  mmapFindVma_free_iff (by decide) (by decide) (by decide) (by decide) (by decide)

/-- Only the first target page of a host page is looked at. -/
theorem mmapFindVma_used : mmapFindVma (onePage 5) 4 0x4000 0x2000 = some (some 0x4000) ∧
    ¬ Free (onePage 5) 0x4000 0x2000 :=
  ⟨by decide,fun h => absurd (h.2 0x5000 (by decide) (by decide)) (by decide)⟩

end Hqemu.Exec.FindVma
