import Hqemu.Exec.CpuExec
import Mathlib.Data.List.Induction

/-! The regions that the trace prediction asks for. -/
namespace Hqemu.Exec.NetTrace
open World
open List hiding getElem?_eq_some_iff

variable {n : Nat}

def predict (c : Fin n) (x : World n × List TraceCall) : Option TbId → World n × List TraceCall
  | none => (x.1.stopPrediction c,x.2)
  | some tb => ((x.1.helperTracePredict c tb).1,x.2 ++ (x.1.helperTracePredict c tb).2)

def setSuccessor (successor : Nat → List Nat) (pred node : Nat) : Nat → List Nat :=
  Function.update successor pred (successor pred ++ [node])

/-- `ComposeNETTrace`; node `i` is the one of `TBs[i]`. -/
def composeNETTrace (call : TraceCall) : Nat → List Nat :=
  let count := call.tbs.length
  let path := (range count).foldl
    (fun successor i => if i = 0 then successor else setSuccessor successor (i-1) i) fun _ => []
  match call.loopIdx with
  | none => path
  | some i => setSuccessor path (count-1) i

/-- Distinct blocks: a path of maximal length, or a back edge from the last one to one of them. -/
def Region (call : TraceCall) : Prop :=
  call.tbs.Nodup ∧ match call.loopIdx with
    | none => call.tbs.length = predictThreshold
    | some i => i < call.tbs.length

theorem composeNETTrace_eq (call : TraceCall) {j : Nat} (hj : j < call.tbs.length) :
    composeNETTrace call j = if j + 1 < call.tbs.length then [j+1] else call.loopIdx.toList := by
  have hpath (count : Nat) : ((range count).foldl (fun successor i =>
      if i = 0 then successor else setSuccessor successor (i-1) i) fun _ => []) =
        fun j => if j + 1 < count then [j+1] else [] := by
    induction count with
    | zero => rfl
    | succ count ih =>
      rw [range_succ,foldl_append,ih]
      funext j
      by_cases hlast : j+1 = count
      · simp [setSuccessor,← hlast]
      have hlt : j+1 < count ↔ j < count := by omega
      by_cases hz : count = 0
      · simp [hz]
      · simp [setSuccessor,hz,show j ≠ count - 1 by omega,hlt]
  unfold composeNETTrace
  rw [hpath]
  cases call.loopIdx with
  | none => rfl
  | some i =>
    by_cases hlast : j+1 < call.tbs.length
    · simp [setSuccessor,hlast,show j ≠ call.tbs.length - 1 by omega]
    · simp [setSuccessor,hlast,show call.tbs.length - 1 = j by omega]

theorem loopIndex_spec (predictedTb : List TbId) (tb : TbId) :
    match loopIndex predictedTb tb with
    | none => tb ∉ predictedTb
    | some i => predictedTb[i]? = some tb := by
  split
  · rename_i hnone
    intro hmem
    obtain ⟨i,hi⟩ := mem_iff_getElem?.mp hmem
    have hlt := (getElem?_eq_some_iff.mp hi).1
    simpa [hi] using find?_eq_none.mp hnone i (by simpa using hlt)
  · rename_i i hsome
    simpa using find?_some hsome

theorem loopIndex_of_nodup {predictedTb : List TbId} {tb : TbId} {i : Nat} (h : predictedTb.Nodup)
    (hi : predictedTb[i]? = some tb) : loopIndex predictedTb tb = some i := by
  have hspec := loopIndex_spec predictedTb tb
  split at hspec
  · exact absurd (mem_of_getElem? hi) hspec
  · rename_i j hj
    rw [hj,(getElem?_inj (getElem?_eq_some_iff.mp hspec).1 h).mp (hspec.trans hi.symm)]

structure Inv (c : Fin n) (x : World n × List TraceCall) : Prop where
  nodup : (x.1.cpus c).predictedTb.Nodup
  room : (x.1.cpus c).predictedTb.length < predictThreshold
  region : ∀ call ∈ x.2, Region call

theorem region_loopCalls {predictedTb : List TbId} {i : Nat} (h : predictedTb.Nodup)
    (hi : i < predictedTb.length) : ∀ call ∈ loopCalls predictedTb i, Region call := by
  intro call hcall
  unfold loopCalls at hcall
  split at hcall
  · rw [mem_singleton.mp hcall]
    exact ⟨h,Nat.zero_lt_of_lt hi⟩
  · rcases mem_pair.mp hcall with rfl | rfl
    · exact ⟨h.sublist (drop_sublist i predictedTb),by
        simpa using Nat.sub_pos_of_lt hi⟩
    · exact ⟨h,hi⟩

theorem Inv.predict {c : Fin n} {x : World n × List TraceCall} (h : Inv c x) (event : Option TbId) :
    Inv c (predict c x event) := by
  have hstop (calls : List TraceCall) (hclass : ∀ call ∈ calls, Region call) :
      Inv c (x.1.stopPrediction c,x.2 ++ calls) :=
    ⟨by simp [stopPrediction],by simp [stopPrediction,predictThreshold],
      fun call hcall => (mem_append.mp hcall).elim (h.region call) (hclass call)⟩
  cases event with
  | none =>
    have hnone := hstop [] (by simp)
    rwa [append_nil] at hnone
  | some tb =>
    have hspec := loopIndex_spec (x.1.cpus c).predictedTb tb
    simp only [NetTrace.predict,helperTracePredict]
    split
    · rename_i i hi
      rw [hi] at hspec
      exact hstop _ (region_loopCalls h.nodup (getElem?_eq_some_iff.mp hspec).1)
    · rename_i hnone
      rw [hnone] at hspec
      have hnodup : ((x.1.cpus c).predictedTb ++ [tb]).Nodup := by
        simpa using h.nodup.concat hspec
      split
      · rename_i hlen
        exact hstop _ (by simpa using show Region ⟨_,none⟩ from ⟨hnodup,hlen⟩)
      · rename_i hlen
        have hroom := Nat.lt_of_le_of_ne (by simpa using Nat.succ_le_of_lt h.room) hlen
        exact ⟨by simpa using hnodup,by simpa using hroom,by simpa using h.region⟩

/-- What a call asks for, by where the block is among those seen. -/
structure Asks (path : List TbId) (tb : TbId) (next : List TbId) (calls : List TraceCall) :
    Prop where
  head : path[0]? = some tb → next = [] ∧ calls = [⟨path,some 0⟩]
  middle : ∀ i, path[i+1]? = some tb →
    next = [] ∧ calls = [⟨path.drop (i+1),some 0⟩,⟨path,some (i+1)⟩]
  full : tb ∉ path → path.length+1 = predictThreshold → next = [] ∧ calls = [⟨path ++ [tb],none⟩]
  more : tb ∉ path → path.length+1 < predictThreshold → next = path ++ [tb] ∧ calls = []

theorem Inv.asks {c : Fin n} {x : World n × List TraceCall} (h : Inv c x) (tb : TbId) :
    Asks (x.1.cpus c).predictedTb tb ((x.1.helperTracePredict c tb).1.cpus c).predictedTb
      (x.1.helperTracePredict c tb).2 := by
  have hspec := loopIndex_spec (x.1.cpus c).predictedTb tb
  have hloop {i : Nat} (hi : (x.1.cpus c).predictedTb[i]? = some tb) :=
    loopIndex_of_nodup h.nodup hi
  refine ⟨fun hi => ?_,fun i hi => ?_,fun hnew hlength => ?_,fun hnew hlength => ?_⟩
  · simp [helperTracePredict,hloop hi,loopCalls,stopPrediction]
  · simp [helperTracePredict,hloop hi,loopCalls,stopPrediction]
  all_goals
    have hnone : loopIndex (x.1.cpus c).predictedTb tb = none := by
      split at hspec
      · assumption
      · exact absurd (mem_of_getElem? hspec) hnew
  · simp [helperTracePredict,hnone,hlength,stopPrediction]
  · simp [helperTracePredict,hnone,hlength.ne]

theorem predict_path (c : Fin n) (x : World n × List TraceCall) (event : Option TbId) :
    ((predict c x event).1.cpus c).predictedTb = [] ∨ ∃ tb, event = some tb ∧
      ((predict c x event).1.cpus c).predictedTb = (x.1.cpus c).predictedTb ++ [tb] := by
  have hstop : ((x.1.stopPrediction c).cpus c).predictedTb = [] := by simp [stopPrediction]
  cases event with
  | none => exact .inl hstop
  | some tb =>
    simp only [predict,helperTracePredict]
    split
    · exact .inl hstop
    · split
      · exact .inl hstop
      · exact .inr ⟨tb,rfl,by simp⟩

/-- The blocks of the buffer are the last ones that were executed. -/
theorem executed (c : Fin n) (start : World n × List TraceCall)
    (hstart : (start.1.cpus c).predictedTb = []) (events : List (Option TbId)) :
    ∃ earlier, events = earlier ++
        ((events.foldl (predict c) start).1.cpus c).predictedTb.map some ∧
      ((earlier.foldl (predict c) start).1.cpus c).predictedTb = [] := by
  induction events using reverseRecOn with
  | nil => exact ⟨[],by simp [hstart],hstart⟩
  | append_singleton events event ih =>
    obtain ⟨earlier,hevents,hearlier⟩ := ih
    obtain hempty | ⟨tb,rfl,hnext⟩ := predict_path c (events.foldl (predict c) start) event
    · exact ⟨events ++ [event],by simp [hempty],by simpa using hempty⟩
    · refine ⟨earlier,?_,hearlier⟩
      rw [foldl_append,foldl_cons,foldl_nil,hnext,map_append,← append_assoc,← hevents]
      rfl

/-- The prediction begins with `trace_formation_init`, which leaves what an abort leaves. -/
theorem regions_of_predictions (c : Fin n) (w : World n) (events : List (Option TbId)) :
    let start := (w.stopPrediction c,[])
    let last := events.foldl (predict c) start
    let path := (last.1.cpus c).predictedTb
    path.Nodup ∧ path.length < predictThreshold ∧
      (∃ earlier, events = earlier ++ path.map some ∧
        ((earlier.foldl (predict c) start).1.cpus c).predictedTb = []) ∧
      (∀ call ∈ last.2, Region call ∧ ∀ j < call.tbs.length, composeNETTrace call j =
        if j + 1 < call.tbs.length then [j+1] else call.loopIdx.toList) ∧
      ∀ tb, ∃ calls, (predict c last (some tb)).2 = last.2 ++ calls ∧
        Asks path tb ((predict c last (some tb)).1.cpus c).predictedTb calls := by
  have hrun (x : World n × List TraceCall) (hx : Inv c x) : Inv c (events.foldl (predict c) x) := by
    induction events generalizing x with
    | nil => exact hx
    | cons event events ih => exact ih _ (hx.predict event)
  have h := hrun (w.stopPrediction c,[])
    ⟨by simp [stopPrediction],by simp [stopPrediction,predictThreshold],by simp⟩
  exact ⟨h.nodup,h.room,executed c _ (by simp [stopPrediction]) events,
    fun call hcall => ⟨h.region call hcall,fun j => composeNETTrace_eq call⟩,
    fun tb => ⟨_,rfl,h.asks tb⟩⟩

example : (([1,2,3,2].map some).foldl (predict 0) (emptyWorld 1,[])).2 =
    [⟨[2,3],some 0⟩,⟨[1,2,3],some 1⟩] := by decide

end Hqemu.Exec.NetTrace
