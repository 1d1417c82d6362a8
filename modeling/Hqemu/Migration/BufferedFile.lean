import Hqemu.Lib.Run

/-! The buffered file a migration is written through (`buffered_file.c`). What the backend does not
take at once is kept in a buffer. -/
namespace Hqemu.Migration

open List Lib.Run

variable {Byte : Type}

/-- An answer of the backend's `put_buffer`: it takes some bytes (`accepted` counts all but one), is
not ready (`-EAGAIN`), or fails. -/
inductive Response where
  | accepted (more : Nat)
  | again
  | error
deriving DecidableEq, Repr

def taken (more size : Nat) : Nat := min (more+1) size

/-- `QEMUFileBuffered`. `sent` is what the backend has accepted and `put` what was put; `open_` is
false once the file is closed. -/
structure BufferedFile (Byte : Type) where
  hasError : Bool
  freezeOutput : Bool
  bytesXfer : Nat
  xferLimit : Nat
  buffer : List Byte
  sent : List Byte
  put : List Byte
  open_ : Bool

inductive Outcome where
  | done
  | again
  | error
deriving DecidableEq, Repr

structure Passed (Byte : Type) where
  sent : List Byte
  left : List Byte
  outcome : Outcome
  later : List Response

/-- The loop of `buffered_flush`. A backend without further answers is not ready. -/
def flushLoop : List Byte → List Response → Passed Byte
  | [], responses => ⟨[],[],.done,responses⟩
  | buffer, [] => ⟨[],buffer,.again,[]⟩
  | buffer, .again :: later => ⟨[],buffer,.again,later⟩
  | buffer, .error :: later => ⟨[],buffer,.error,later⟩
  | buffer, .accepted more :: later =>
    let ret := taken more buffer.length
    let rest := flushLoop (buffer.drop ret) later
    { rest with sent := buffer.take ret ++ rest.sent }

def BufferedFile.flush (file : BufferedFile Byte) (responses : List Response) :
    BufferedFile Byte × List Response :=
  if file.hasError then (file,responses)
  else
    let passed := flushLoop file.buffer responses
    ({ file with
        buffer := passed.left
        sent := file.sent ++ passed.sent
        freezeOutput := file.freezeOutput || passed.outcome = .again
        hasError := passed.outcome = .error },passed.later)

def putLoop (xferLimit : Nat) : Nat → List Byte → List Response → Passed Byte × Nat
  | bytesXfer, [], responses => (⟨[],[],.done,responses⟩,bytesXfer)
  | bytesXfer, data, [] =>
    (⟨[],data,if xferLimit < bytesXfer then .done else .again,[]⟩,bytesXfer)
  | bytesXfer, data, response :: later =>
    if xferLimit < bytesXfer then (⟨[],data,.done,response :: later⟩,bytesXfer)
    else
      match response with
      | .again => (⟨[],data,.again,later⟩,bytesXfer)
      | .error => (⟨[],data,.error,later⟩,bytesXfer)
      | .accepted more =>
        let ret := taken more data.length
        let rest := putLoop xferLimit (bytesXfer+ret) (data.drop ret) later
        ({ rest.1 with sent := data.take ret ++ rest.1.sent },rest.2)

def BufferedFile.putRest (file : BufferedFile Byte) (data : List Byte)
    (responses : List Response) : BufferedFile Byte :=
  if file.freezeOutput then { file with buffer := file.buffer ++ data }
  else
    let (passed,bytesXfer) := putLoop file.xferLimit file.bytesXfer data responses
    { file with
      sent := file.sent ++ passed.sent
      bytesXfer := bytesXfer
      freezeOutput := passed.outcome = .again
      hasError := file.hasError || passed.outcome = .error
      buffer := if passed.outcome = .error then file.buffer else file.buffer ++ passed.left }

def BufferedFile.putBuffer (file : BufferedFile Byte) (data : List Byte)
    (responses : List Response) : BufferedFile Byte :=
  if file.hasError then { file with put := file.put ++ data }
  else
    let (file,later) :=
      BufferedFile.flush { file with put := file.put ++ data, freezeOutput := false } responses
    file.putRest data later

/-- The loop of `buffered_close`: it ends with an error, with an empty buffer, or when there
are no more answers. -/
def closeLoop : Nat → BufferedFile Byte → List Response → BufferedFile Byte
  | 0, file, _ => file
  | fuel+1, file, responses =>
    if file.hasError || file.buffer.isEmpty then file
    else
      let (file,later) := file.flush responses
      closeLoop fuel file later

def BufferedFile.close (file : BufferedFile Byte) (responses : List Response) :
    BufferedFile Byte :=
  { closeLoop (responses.length+1) file responses with open_ := false }

def BufferedFile.rateTick (file : BufferedFile Byte) (responses : List Response) :
    BufferedFile Byte :=
  if file.hasError then file.close responses
  else if file.freezeOutput then file
  else (BufferedFile.flush { file with bytesXfer := 0 } responses).1

def BufferedFile.setRateLimit (file : BufferedFile Byte) (newRate : Nat) : BufferedFile Byte :=
  if file.hasError then file else { file with xferLimit := newRate/10 }

inductive FileAction (Byte : Type) where
  | put (data : List Byte) (responses : List Response)
  | tick (responses : List Response)
  | close (responses : List Response)
  | setRateLimit (newRate : Nat)

/-- Each call comes with the answers the backend gives during it. -/
def BufferedFile.step (file : BufferedFile Byte) :
    FileAction Byte → Option (BufferedFile Byte)
  | action =>
    if file.open_ then
      match action with
      | .put data responses => some (file.putBuffer data responses)
      | .tick responses => some (file.rateTick responses)
      | .close responses => some (file.close responses)
      | .setRateLimit newRate => some (file.setRateLimit newRate)
    else none

def BufferedFile.fopen (bytesPerSec : Nat) : BufferedFile Byte :=
  ⟨false,false,0,bytesPerSec/10,[],[],[],true⟩

def BufferedFile.InOrder (file : BufferedFile Byte) : Prop := file.sent <+: file.put

def failsAfter : Nat → List Response → Option (List Response)
  | 0, _ => none
  | _+1, [] => none
  | _+1, .again :: _ => none
  | _+1, .error :: later => some later
  | size+1, .accepted more :: later => failsAfter (size+1 - taken more (size+1)) later

/-- When the backend fails on buffered data during a put, it accepts none of the new data: there is
none, the limit is exceeded, or the next answer accepts nothing. -/
def BufferedFile.Careful (file : BufferedFile Byte) : FileAction Byte → Prop
  | .put data responses =>
    file.hasError = false → ∀ later, failsAfter file.buffer.length responses = some later →
      data = [] ∨ file.xferLimit < file.bytesXfer ∨ ∀ more rest, later ≠ .accepted more :: rest
  | _ => True

section Loops

theorem flushLoop_append (buffer : List Byte) (responses : List Response) :
    (flushLoop buffer responses).sent ++ (flushLoop buffer responses).left = buffer := by
  fun_induction flushLoop buffer responses with
  | case5 buffer more later _ ret rest ih =>
    rw [append_assoc,ih,take_append_drop]
  | _ => simp

theorem flushLoop_done {buffer : List Byte} {responses : List Response}
    (h : (flushLoop buffer responses).outcome = .done) :
    (flushLoop buffer responses).left = [] := by
  fun_induction flushLoop buffer responses with
  | case5 _ _ _ _ _ _ ih => exact ih h
  | case1 => rfl
  | _ => cases h

theorem flushLoop_error {buffer : List Byte} {responses : List Response}
    (h : (flushLoop buffer responses).outcome = .error) :
    failsAfter buffer.length responses = some (flushLoop buffer responses).later := by
  fun_induction flushLoop buffer responses with
  | case4 buffer later hne =>
    obtain ⟨size,hsize⟩ := Nat.exists_eq_succ_of_ne_zero
      (fun hlen => hne (eq_nil_of_length_eq_zero hlen))
    rw [hsize]
    rfl
  | case5 buffer more later hne ret rest ih =>
    obtain ⟨size,hsize⟩ := Nat.exists_eq_succ_of_ne_zero
      (fun hlen => hne (eq_nil_of_length_eq_zero hlen))
    have hrest := ih h
    rw [length_drop] at hrest
    rw [hsize,Nat.succ_eq_add_one,failsAfter,← Nat.succ_eq_add_one,← hsize]
    exact hrest
  | _ => cases h

theorem putLoop_append (xferLimit bytesXfer : Nat) (data : List Byte) (responses : List Response) :
    (putLoop xferLimit bytesXfer data responses).1.sent ++
      (putLoop xferLimit bytesXfer data responses).1.left = data := by
  fun_induction putLoop xferLimit bytesXfer data responses with
  | case6 bytesXfer data more later _ _ ret rest ih =>
    rw [append_assoc,ih,take_append_drop]
  | _ => simp

end Loops

def BufferedFile.Kept (file : BufferedFile Byte) : Prop :=
  file.sent ++ file.buffer = file.put

structure BufferedFile.Inv (file : BufferedFile Byte) : Prop where
  kept : file.hasError = false → file.Kept
  order : file.InOrder

section Steps

variable {file : BufferedFile Byte} {data : List Byte} {responses : List Response}

theorem BufferedFile.Kept.inOrder (h : file.Kept) : file.InOrder := ⟨file.buffer,h⟩

theorem BufferedFile.Kept.flush (h : file.Kept) (responses : List Response) :
    (file.flush responses).1.Kept := by
  unfold BufferedFile.flush
  split
  · exact h
  change file.sent ++ _ ++ _ = file.put
  rw [append_assoc,flushLoop_append]
  exact h

theorem flush_of_error (h : file.hasError = true) : file.flush responses = (file,responses) :=
  if_pos h

theorem BufferedFile.Inv.flush (h : file.Inv) : (file.flush responses).1.Inv := by
  by_cases herr : file.hasError = true
  · rwa [flush_of_error herr]
  · have hkeep := (h.kept (Bool.eq_false_iff.mpr herr)).flush responses
    exact ⟨fun _ => hkeep,hkeep.inOrder⟩

theorem BufferedFile.Inv.closeLoop (h : file.Inv) (fuel : Nat) (responses : List Response) :
    (Migration.closeLoop fuel file responses).Inv := by
  induction fuel generalizing file responses with
  | zero => exact h
  | succ fuel ih =>
    rw [Migration.closeLoop]
    split
    · exact h
    · exact ih h.flush _

theorem BufferedFile.Inv.close (h : file.Inv) : (file.close responses).Inv := by
  have hloop := h.closeLoop (responses.length+1) responses
  exact ⟨hloop.kept,hloop.order⟩

theorem flush_empties (herr : file.hasError = false) (hfreeze : file.freezeOutput = false)
    (hnext : (file.flush responses).1.hasError = false)
    (hfrozen : (file.flush responses).1.freezeOutput = false) :
    (file.flush responses).1.buffer = [] := by
  unfold BufferedFile.flush at *
  rw [if_neg (by simp [herr])] at hnext hfrozen ⊢
  apply flushLoop_done
  simp only [hfreeze,Bool.false_or,decide_eq_false_iff_not] at hnext hfrozen
  cases houtcome : (flushLoop file.buffer responses).outcome with
  | done => rfl
  | again => exact absurd houtcome hfrozen
  | error => exact absurd houtcome hnext

theorem flush_error (herr : file.hasError = false)
    (hnext : (file.flush responses).1.hasError = true) :
    failsAfter file.buffer.length responses = some (file.flush responses).2 := by
  unfold BufferedFile.flush at *
  rw [if_neg (by simp [herr])] at hnext ⊢
  exact flushLoop_error (by simpa using hnext)

theorem putLoop_nothing {xferLimit bytesXfer : Nat} {later : List Response}
    (h : data = [] ∨ xferLimit < bytesXfer ∨ ∀ more rest, later ≠ .accepted more :: rest) :
    (putLoop xferLimit bytesXfer data later).1.sent = [] := by
  cases data with
  | nil => cases later <;> rfl
  | cons byte data =>
    cases later with
    | nil => rfl
    | cons response later =>
      rw [putLoop.eq_def]
      dsimp only
      by_cases hlim : xferLimit < bytesXfer
      · rw [if_pos hlim]
      rw [if_neg hlim]
      cases response with
      | again => rfl
      | error => rfl
      | accepted more =>
        rcases h with hempty | hover | hother
        · cases hempty
        · exact absurd hover hlim
        · exact absurd rfl (hother more later)

theorem BufferedFile.Inv.putRest (herr : file.hasError = false)
    (hkeep : file.sent ++ file.buffer ++ data = file.put)
    (hbuf : file.freezeOutput = false → file.buffer = []) : (file.putRest data responses).Inv := by
  unfold BufferedFile.putRest
  split
  · have : BufferedFile.Kept { file with buffer := file.buffer ++ data } := by
      change file.sent ++ (file.buffer ++ data) = file.put
      rw [← append_assoc,hkeep]
    exact ⟨fun _ => this,this.inOrder⟩
  · rename_i hfreeze
    have hempty := hbuf (by simpa using hfreeze)
    rw [hempty,append_nil] at hkeep
    have hall := putLoop_append file.xferLimit file.bytesXfer data responses
    generalize putLoop file.xferLimit file.bytesXfer data responses = result at hall
    have horder : file.sent ++ result.1.sent ++ result.1.left = file.put := by
      rw [append_assoc,hall,hkeep]
    refine ⟨fun hnext => ?_,⟨_,horder⟩⟩
    have houtcome : result.1.outcome ≠ .error := by
      simpa [herr] using hnext
    change _ ++ (if result.1.outcome = .error then _ else _) = _
    rw [if_neg houtcome,hempty,nil_append]
    exact horder

theorem BufferedFile.Inv.putRest_error (herr : file.hasError = true)
    (hfreeze : file.freezeOutput = false) (horder : file.InOrder)
    (h : data = [] ∨ file.xferLimit < file.bytesXfer ∨
      ∀ more rest, responses ≠ .accepted more :: rest) : (file.putRest data responses).Inv := by
  unfold BufferedFile.putRest
  rw [if_neg (by simp [hfreeze])]
  refine ⟨fun hnext => ?_,?_⟩
  · simp [herr] at hnext
  · change file.sent ++ _ <+: file.put
    rw [putLoop_nothing h,append_nil]
    exact horder

theorem flush_unfrozen (herr : file.hasError = false) (hfreeze : file.freezeOutput = false)
    (hnext : (file.flush responses).1.hasError = true) :
    (file.flush responses).1.freezeOutput = false := by
  unfold BufferedFile.flush at *
  rw [if_neg (by simp [herr])] at hnext ⊢
  have houtcome : (flushLoop file.buffer responses).outcome = .error := by simpa using hnext
  simp [hfreeze,houtcome]

theorem flush_limits (file : BufferedFile Byte) (responses : List Response) :
    (file.flush responses).1.xferLimit = file.xferLimit ∧
    (file.flush responses).1.bytesXfer = file.bytesXfer ∧
    (file.flush responses).1.put = file.put := by
  unfold BufferedFile.flush
  split <;> exact ⟨rfl,rfl,rfl⟩

theorem flush_append (responses : List Response) (h : file.sent ++ file.buffer ++ data = file.put) :
    (file.flush responses).1.sent ++ (file.flush responses).1.buffer ++ data =
      (file.flush responses).1.put := by
  unfold BufferedFile.flush
  split
  · exact h
  · change file.sent ++ _ ++ _ ++ data = file.put
    rw [append_assoc file.sent,flushLoop_append,h]

theorem BufferedFile.Inv.putBuffer (h : file.Inv) (hcareful : file.Careful (.put data responses)) :
    (file.putBuffer data responses).Inv := by
  unfold BufferedFile.putBuffer
  split
  · rename_i herr
    exact ⟨fun hfalse => absurd (hfalse.symm.trans herr) Bool.false_ne_true,
      h.order.trans (prefix_append _ _)⟩
  rename_i herr
  have hfalse : file.hasError = false := by simpa using herr
  have hall : file.sent ++ file.buffer ++ data = file.put ++ data := by
    rw [h.kept hfalse]
  generalize hstart :
    ({ file with put := file.put ++ data, freezeOutput := false } : BufferedFile Byte) = start
  have hclean : start.hasError = false ∧ start.freezeOutput = false := by
    rw [← hstart]
    exact ⟨hfalse,rfl⟩
  have hstartAll : start.sent ++ start.buffer ++ data = start.put := by
    rw [← hstart]
    exact hall
  have hflushed := flush_append responses hstartAll
  dsimp only
  cases hnext : (start.flush responses).1.hasError with
  | false =>
    exact .putRest hnext hflushed (flush_empties hclean.1 hclean.2 hnext)
  | true =>
    have hfail := flush_error hclean.1 hnext
    have hlimits := flush_limits start responses
    refine .putRest_error hnext (flush_unfrozen hclean.1 hclean.2 hnext) ?_ ?_
    · exact ⟨_,(append_assoc _ _ _).symm.trans hflushed⟩
    rw [hlimits.1,hlimits.2.1]
    rw [← hstart] at hfail ⊢
    exact hcareful hfalse _ hfail

theorem BufferedFile.Inv.step {next : BufferedFile Byte} {action : FileAction Byte} (h : file.Inv)
    (hcareful : file.Careful action) (hs : file.step action = some next) : next.Inv := by
  unfold BufferedFile.step at hs
  rw [Option.ite_none_right_eq_some] at hs
  obtain ⟨_,hs⟩ := hs
  cases action with
  | put data responses =>
    cases hs
    exact h.putBuffer hcareful
  | tick responses =>
    cases hs
    unfold BufferedFile.rateTick
    split
    · exact h.close
    split
    · exact h
    · have hz : BufferedFile.Inv { file with bytesXfer := 0 } := ⟨h.kept,h.order⟩
      exact hz.flush
  | close responses =>
    cases hs
    exact h.close
  | setRateLimit newRate =>
    cases hs
    unfold BufferedFile.setRateLimit
    split
    · exact h
    · exact ⟨h.kept,h.order⟩

theorem flushLoop_fails {buffer : List Byte} {later : List Response}
    (h : failsAfter buffer.length responses = some later) :
    (flushLoop buffer responses).outcome = .error := by
  fun_induction flushLoop buffer responses with
  | case4 => rfl
  | case5 buffer more later hne ret rest ih =>
    apply ih
    rw [length_drop]
    unfold failsAfter at h
    split at h <;> grind
  | _ => unfold failsAfter at h; split at h <;> grind

theorem step_error {next : BufferedFile Byte} {action : FileAction Byte}
    (herr : file.hasError = true) (hs : file.step action = some next) : next.hasError = true := by
  unfold BufferedFile.step at hs
  obtain ⟨-,hs⟩ := Option.ite_none_right_eq_some.mp hs
  cases action <;> cases hs <;>
    simp [BufferedFile.putBuffer,BufferedFile.rateTick,BufferedFile.close,closeLoop,
      BufferedFile.setRateLimit,herr]

end Steps

/-- Nothing is lost, doubled or out of order before an error is flagged, whatever the backend
does. -/
theorem BufferedFile.kept_always (bytesPerSec : Nat) (actions : List (FileAction Byte)) :
    Always BufferedFile.step (fun file => file.hasError = false → file.Kept)
      (BufferedFile.fopen bytesPerSec) actions := by
  refine always_of_inv (fun file action next h hs herr => ?_) (fun _ => rfl) actions
  have hfile : file.hasError ≠ true := fun h => by simp [step_error h hs] at herr
  have hkept : file.Kept := h (Bool.eq_false_iff.mpr hfile)
  refine (BufferedFile.Inv.step ⟨fun _ => hkept,hkept.inOrder⟩ ?_ hs).kept herr
  cases action with
  | put data responses =>
    intro _ later hfails
    obtain ⟨-,hs⟩ := Option.ite_none_right_eq_some.mp hs
    cases hs
    simp [BufferedFile.putBuffer,hfile,BufferedFile.flush,flushLoop_fails hfails,
      BufferedFile.putRest] at herr
  | _ => trivial

/-- If the backend accepts no new data right after it failed on buffered data, it has accepted a
beginning of what was put. -/
theorem BufferedFile.inOrder_of_careful (bytesPerSec : Nat) (actions : List (FileAction Byte))
    (hcareful : Meets BufferedFile.step BufferedFile.Careful (BufferedFile.fopen bytesPerSec)
      actions) :
    Always BufferedFile.step BufferedFile.InOrder (BufferedFile.fopen bytesPerSec) actions := by
  have hinv : (BufferedFile.fopen bytesPerSec : BufferedFile Byte).Inv :=
    ⟨fun _ => rfl,prefix_refl _⟩
  exact (always_of_meets (fun _ _ _ h hc hs => h.step hc hs) hinv hcareful).imp fun _ h => h.order

/-- Two bytes are kept because the backend is not ready, the next put flushes them, and the
backend fails after that. -/
theorem BufferedFile.inOrder_of_careful_flushed :
    Always BufferedFile.step BufferedFile.InOrder (BufferedFile.fopen 1000)
      [.put [1, 2] [.again], .put [3] [.accepted 0, .accepted 0, .error], .tick []] := by
  apply BufferedFile.inOrder_of_careful
  refine meets_cons rfl ?_ (meets_cons rfl ?_ (meets_cons rfl trivial trivial))
  · intro _ later hfail
    cases hfail
  · intro _ later hfail
    cases hfail

/-- One byte is kept because the backend is not ready. The next put fails to flush it and goes
on: the backend accepts the byte behind it. -/
theorem gap_after_error :
    ¬ Always BufferedFile.step BufferedFile.InOrder (BufferedFile.fopen 1000)
      [.put [1] [.again], .put [2] [.error, .accepted 0]] := by
  intro halways
  have hprefix : ([2] : List Nat) <+: [1,2] := halways.last rfl
  revert hprefix
  decide

end Hqemu.Migration
