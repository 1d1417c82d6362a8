import Mathlib.Data.Nat.Bitwise

/-! String literals: the two families of states of `json-lexer.c` and the unescaping of
`json-parser.c`. -/
namespace Hqemu.Json.Strings
open List

local instance fourDigits : NeZero 4 := ⟨Nat.succ_ne_zero 3⟩

/-- The states in which a literal is read; `dq` is set in the family for double quotes. -/
inductive State where
  | error | start | jsonString | other
  | string (dq : Bool)
  | escape (dq : Bool)
  | ucode (dq : Bool) (digit : Fin 4)
deriving DecidableEq

def quote (dq : Bool) : Char := if dq then '"' else '\''

/-- `qemu_isxdigit` and `hex2decimal`. -/
def hex2decimal (ch : Char) : Option Nat :=
  if '0'.toNat ≤ ch.toNat ∧ ch.toNat ≤ '9'.toNat then some (ch.toNat - '0'.toNat)
  else if 'a'.toNat ≤ ch.toNat ∧ ch.toNat ≤ 'f'.toNat then some (10+(ch.toNat - 'a'.toNat))
  else if 'A'.toNat ≤ ch.toNat ∧ ch.toNat ≤ 'F'.toNat then some (10+(ch.toNat - 'A'.toNat))
  else none

/-- The rows of the table for these states. Both families leave `\/` and `\\` for
`IN_DQ_STRING`. -/
def jsonLexer : State → Char → State
  | .start,ch => if ch = '"' then .string true else if ch = '\'' then .string false else .other
  | .string dq,ch =>
    if ch = '\x00' then .error
    else if ch = '\\' then .escape dq
    else if ch = quote dq then .jsonString
    else .string dq
  | .escape dq,ch =>
    if ch ∈ ['b','f','n','r','t','\'','"'] then .string dq
    else if ch ∈ ['/','\\'] then .string true
    else if ch = 'u' then .ucode dq 0
    else .error
  | .ucode dq digit,ch =>
    if (hex2decimal ch).isNone then .error
    else if digit = 3 then .string dq
    else .ucode dq (digit+1)
  | _,_ => .error

structure JSONLexer where
  state : State
  token : List Char
  emitted : List (List Char)
deriving DecidableEq

/-- In these states no transition but that to `ERROR` needs lookahead. -/
def feedChar (lexer : JSONLexer) (ch : Char) : Option JSONLexer :=
  match jsonLexer lexer.state ch with
  | .error => none
  | .jsonString => some ⟨.start,[],lexer.emitted ++ [lexer.token ++ [ch]]⟩
  | new => some ⟨new,lexer.token ++ [ch],lexer.emitted⟩

def feed (lexer : JSONLexer) (buffer : List Char) : Option JSONLexer := buffer.foldlM feedChar lexer

/-- The string that is left in the buffer, empty for `\u0000`. -/
def wcharToUtf8 (wchar : Nat) : List Char :=
  let buffer :=
    if wchar ≤ 0x7F then [wchar &&& 0x7F]
    else if wchar ≤ 0x7FF then [0xC0 ||| (wchar >>> 6 &&& 0x1F),0x80 ||| (wchar &&& 0x3F)]
    else [0xE0 ||| (wchar >>> 12 &&& 0x0F),0x80 ||| (wchar >>> 6 &&& 0x3F),0x80 ||| (wchar &&&
        0x3F)]
  (buffer.takeWhile (· ≠ 0)).map Char.ofNat

def unescaped (ch : Char) : Option Char :=
  if ch ∈ ['"','\'','\\','/'] then some ch
  else if ch = 'b' then some '\x08'
  else if ch = 'f' then some '\x0c'
  else if ch = 'n' then some '\n'
  else if ch = 'r' then some '\r'
  else if ch = 't' then some '\t'
  else none

/-- The loop of `qstring_from_escaped_str`. -/
def unescape (dq : Bool) : List Char → Option (List Char)
  | [] => some []
  | ch :: ptr =>
    if ch = quote dq then some []
    else if ch ≠ '\\' then (unescape dq ptr).map (ch :: ·)
    else match ptr with
      | [] => none
      | ch :: ptr =>
        if ch ≠ 'u' then (unescaped ch).bind fun ch => (unescape dq ptr).map (ch :: ·)
        else match ptr with
          | a :: b :: c :: d :: ptr => do
            let wchar := (← hex2decimal a) <<< 12 ||| (← hex2decimal b) <<< 8 |||
              (← hex2decimal c) <<< 4 ||| (← hex2decimal d)
            (unescape dq ptr).map (wcharToUtf8 wchar ++ ·)
          | _ => none

def qstringFromEscapedStr : List Char → Option (List Char)
  | [] => some []
  | first :: ptr => unescape (first = '"') ptr

inductive Piece where
  | plain (ch : Char)
  | escape (ch : Char)
  | unicode (a b c d : Char)
deriving DecidableEq

def Piece.written : Piece → List Char
  | .plain ch => [ch]
  | .escape ch => ['\\',ch]
  | .unicode a b c d => ['\\','u',a,b,c,d]

def literal (dq : Bool) (pieces : List Piece) : List Char :=
  quote dq :: pieces.flatMap Piece.written ++ [quote dq]

def utf8 (codepoint : Nat) : List Char :=
  (if codepoint < 0x80 then [codepoint]
  else if codepoint < 0x800 then [0xC0+codepoint/64,0x80+codepoint%64]
  else [0xE0+codepoint/4096,0x80+codepoint/64%64,0x80+codepoint%64]).map Char.ofNat

def documented : List (Char × Char) :=
  [('"','"'),('\'','\''),('\\','\\'),('/','/'),('b','\x08'),('f','\x0c'),('n','\n'),('r','\r'),
    ('t','\t')]

/-- What a piece stands for in a literal with these quotes. -/
inductive Stands (dq : Bool) : Piece → List Char → Prop where
  | plain {ch : Char} (h : ch ≠ '\x00' ∧ ch ≠ '\\' ∧ ch ≠ quote dq) : Stands dq (.plain ch) [ch]
  | escape {e : Char × Char} (h : e ∈ documented) : Stands dq (.escape e.1) [e.2]
  | unicode {a b c d : Char} {w x y z : Nat} (ha : hex2decimal a = some w)
      (hb : hex2decimal b = some x) (hc : hex2decimal c = some y) (hd : hex2decimal d = some z)
      (hpos : 0 < w*4096+x*256+y*16+z) :
      Stands dq (.unicode a b c d) (utf8 (w*4096+x*256+y*16+z))

variable {dq : Bool} {piece : Piece} {part : List Char}

theorem hex2decimal_lt {ch : Char} {n : Nat} (h : hex2decimal ch = some n) : n < 16 := by
  unfold hex2decimal at h
  simp only [Char.reduceToNat] at h
  grind

theorem wcharToUtf8_eq {wchar : Nat} (hpos : 0 < wchar) (hlt : wchar < 65536) :
    wcharToUtf8 wchar = utf8 wchar := by
  have hlow (x : Nat) : 0x80 ||| (x &&& 0x3F) = 0x80+x%64 := by
    rw [show 0x3F = 2^6-1 from rfl,Nat.and_two_pow_sub_one_eq_mod]
    exact (show ∀ y < 64, 0x80 ||| y = 0x80+y by decide) _ (Nat.mod_lt _ (by decide))
  unfold wcharToUtf8 utf8
  simp only [hlow,Nat.shiftRight_eq_div_pow,← Nat.lt_succ_iff]
  split
  · rw [show 0x7F = 2^7-1 from rfl,Nat.and_two_pow_sub_one_eq_mod,Nat.mod_eq_of_lt (by omega)]
    simp [takeWhile,Nat.ne_of_gt hpos]
  · split
    · rw [show 0x1F = 2^5-1 from rfl,Nat.and_two_pow_sub_one_eq_mod,Nat.mod_eq_of_lt (by omega),
        (show ∀ y < 32, 0xC0 ||| y = 0xC0+y by decide) _ (by omega)]
      simp [takeWhile]
    · rw [show 0x0F = 2^4-1 from rfl,Nat.and_two_pow_sub_one_eq_mod,Nat.mod_eq_of_lt (by omega),
        (show ∀ y < 16, 0xE0 ||| y = 0xE0+y by decide) _ (by omega)]
      simp [takeWhile]

theorem jsonLexer_escape : ∀ dq, ∀ e ∈ documented, (dq = false → e.1 ≠ '/' ∧ e.1 ≠ '\\') →
    jsonLexer (.escape dq) e.1 = .string dq := by decide

theorem unescaped_documented : ∀ e ∈ documented, e.1 ≠ 'u' ∧ unescaped e.1 = some e.2 := by decide

theorem feed_piece (h : Stands dq piece part)
    (hsafe : dq = false → piece ≠ .escape '/' ∧ piece ≠ .escape '\\') (token : List Char)
    (emitted : List (List Char)) : feed ⟨.string dq,token,emitted⟩ piece.written =
      some ⟨.string dq,token ++ piece.written,emitted⟩ := by
  cases h with
  | plain h => simp [feed,feedChar,jsonLexer,Piece.written,h]
  | escape h =>
    have hstate := jsonLexer_escape dq _ h (by simpa using hsafe)
    have hstart : jsonLexer (.string dq) '\\' = .escape dq := rfl
    simp [feed,feedChar,Piece.written,hstart,hstate]
  | unicode ha hb hc hd =>
    simp [feed,feedChar,jsonLexer,Piece.written,ha,hb,hc,hd]

theorem hexDigits_or {w x y z : Nat} (hx : x < 16) (hy : y < 16) (hz : z < 16) :
    w <<< 12 ||| x <<< 8 ||| y <<< 4 ||| z = w*4096+x*256+y*16+z := by
  rw [Nat.or_assoc,Nat.or_assoc,← Nat.shiftLeft_add_eq_or_of_lt (show z < 2^4 from hz) y,
    ← Nat.shiftLeft_add_eq_or_of_lt (show y <<< 4+z < 2^8 by omega) x,
    ← Nat.shiftLeft_add_eq_or_of_lt (by omega)]
  omega

theorem unescape_piece (h : Stands dq piece part) (ptr : List Char) :
    unescape dq (piece.written ++ ptr) = (unescape dq ptr).map (part ++ ·) := by
  have hquote : '\\' ≠ quote dq := by cases dq <;> decide
  cases h with
  | plain h =>
    rw [Piece.written,unescape.eq_def]
    simp [h]
  | escape h =>
    rw [Piece.written,unescape.eq_def]
    simp [hquote,unescaped_documented _ h]
  | unicode ha hb hc hd hpos =>
    have hw := hex2decimal_lt ha
    have hx := hex2decimal_lt hb
    have hy := hex2decimal_lt hc
    have hz := hex2decimal_lt hd
    rw [← wcharToUtf8_eq hpos (by omega),← hexDigits_or hx hy hz,Piece.written,unescape.eq_def]
    simp [hquote,ha,hb,hc,hd]

variable {pieces : List Piece} {parts : List (List Char)}

theorem feed_pieces (h : Forall₂ (Stands dq) pieces parts)
    (hsafe : ∀ piece ∈ pieces, dq = false → piece ≠ .escape '/' ∧ piece ≠ .escape '\\') (token :
        List Char)
    (emitted : List (List Char)) : feed ⟨.string dq,token,emitted⟩ (pieces.flatMap Piece.written) =
      some ⟨.string dq,token ++ pieces.flatMap Piece.written,emitted⟩ := by
  induction h generalizing token with
  | nil => simp [feed]
  | cons hpiece _ ih =>
    obtain ⟨hfirst,hrest⟩ := forall_mem_cons.mp hsafe
    rw [flatMap_cons,feed,foldlM_append,← feed,feed_piece hpiece hfirst]
    exact (ih hrest _).trans (by rw [append_assoc])

theorem unescape_pieces (h : Forall₂ (Stands dq) pieces parts) :
    unescape dq (pieces.flatMap Piece.written ++ [quote dq]) = some parts.flatten := by
  induction h with
  | nil => simp [unescape]
  | cons hpiece _ ih =>
    rw [flatMap_cons,append_assoc,unescape_piece hpiece,ih]
    rfl

def State.double : State → Bool
  | .string dq | .escape dq | .ucode dq _ => dq
  | _ => false

theorem jsonLexer_double {state : State} (h : state.double = true) (ch : Char) :
    jsonLexer state ch = .error ∨ (jsonLexer state ch = .jsonString ∧ ch = '"') ∨
      (jsonLexer state ch).double = true := by
  cases state with
  | string dq | escape dq | ucode dq digit =>
    cases h
    unfold jsonLexer
    grind [State.double,quote]
  | _ => cases h

/-- The first token ends at a double quote, or will. -/
def Spoiled (lexer : JSONLexer) : Prop :=
  (lexer.emitted = [] ∧ lexer.state.double = true) ∨
    ∃ token rest, lexer.emitted = (token ++ ['"']) :: rest

theorem Spoiled.feedChar {lexer next : JSONLexer} {ch : Char} (h : Spoiled lexer)
    (hfeed : feedChar lexer ch = some next) : Spoiled next := by
  obtain ⟨state,token,emitted⟩ := lexer
  unfold Strings.feedChar at hfeed
  obtain ⟨rfl,hdouble⟩ | ⟨first,rest,rfl⟩ := h
  · obtain herror | ⟨hstring,rfl⟩ | hnext := jsonLexer_double hdouble ch
    · rw [herror] at hfeed
      cases hfeed
    · rw [hstring] at hfeed
      cases hfeed
      exact .inr ⟨token,[],rfl⟩
    · split at hfeed <;> cases hfeed
      · simp_all [State.double]
      · exact .inl ⟨rfl,hnext⟩
  · split at hfeed <;> cases hfeed
    · exact .inr ⟨first,_,rfl⟩
    · exact .inr ⟨first,rest,rfl⟩

theorem Spoiled.feed {lexer next : JSONLexer} {buffer : List Char} (h : Spoiled lexer)
    (hfeed : feed lexer buffer = some next) : Spoiled next := by
  induction buffer generalizing lexer with
  | nil =>
    cases hfeed
    exact h
  | cons ch buffer ih =>
    obtain ⟨mid,hmid,hrest⟩ := Option.bind_eq_some_iff.mp hfeed
    exact ih (h.feedChar hmid) hrest

theorem spoiled_of_slash (h : Forall₂ (Stands false) pieces parts)
    (hslash : ¬∀ piece ∈ pieces, piece ≠ .escape '/' ∧ piece ≠ .escape '\\') {token : List Char}
    {next : JSONLexer}
    (hfeed : feed ⟨.string false,token,[]⟩ (pieces.flatMap Piece.written) = some next) :
    Spoiled next := by
  induction h generalizing token with
  | nil => exact absurd nofun hslash
  | @cons piece _ pieces _ hpiece _ ih =>
    rw [flatMap_cons,feed,foldlM_append] at hfeed
    obtain ⟨mid,hmid,hrest⟩ := Option.bind_eq_some_iff.mp hfeed
    by_cases hsafe : piece ≠ .escape '/' ∧ piece ≠ .escape '\\'
    · rw [← feed,feed_piece hpiece fun _ => hsafe] at hmid
      cases hmid
      exact ih (fun hall => hslash (forall_mem_cons.mpr ⟨hsafe,hall⟩)) hrest
    · have hmid : Spoiled mid := by
        obtain rfl | rfl : piece = .escape '/' ∨ piece = .escape '\\' := by tauto
        all_goals
          cases hmid
          exact .inl ⟨rfl,rfl⟩
      exact hmid.feed hrest

/-- A literal is one token that ends at its own quote and decodes to what its pieces stand for
exactly if it is not a single-quoted one that escapes a slash or a backslash. -/
theorem literal_decodes_iff (h : Forall₂ (Stands dq) pieces parts) :
    (feed ⟨.start, [], []⟩ (literal dq pieces) = some ⟨.start, [], [literal dq pieces]⟩ ∧
      qstringFromEscapedStr (literal dq pieces) = some parts.flatten) ↔
        ∀ piece ∈ pieces, dq = false → piece ≠ .escape '/' ∧ piece ≠ .escape '\\' := by
  have hopen : feedChar ⟨.start,[],[]⟩ (quote dq) = some ⟨.string dq,[quote dq],[]⟩ := by
    cases dq <;> rfl
  have hclose (token : List Char) :
      feedChar ⟨.string dq,token,[]⟩ (quote dq) = some ⟨.start,[],[token ++ [quote dq]]⟩ := by
    cases dq <;> rfl
  refine ⟨fun hdecodes piece hpiece => ?_,fun hsafe => ⟨?_,?_⟩⟩
  · rintro rfl
    by_contra hslash
    have hfeed := hdecodes.1
    rw [feed,literal,foldlM_append,foldlM_cons,hopen] at hfeed
    obtain ⟨mid,hmid,hend⟩ := Option.bind_eq_some_iff.mp hfeed
    have hspoiled := (spoiled_of_slash h (fun hall => hslash (hall piece hpiece)) hmid).feed hend
    obtain ⟨hnone,-⟩ | ⟨token,rest,htoken⟩ := hspoiled
    · cases hnone
    · have hlast := (append_inj' (cons.inj htoken).1 rfl).2
      exact absurd hlast (by decide)
  · rw [feed,literal,foldlM_append,foldlM_cons,hopen]
    have hbody := feed_pieces h hsafe [quote dq] []
    rw [feed] at hbody
    simp [hbody,hclose]
  · have hdq : decide (quote dq = '"') = dq := by cases dq <;> rfl
    exact (congrArg (unescape · _) hdq).trans (unescape_pieces h)

theorem literal_decodes_iff_accent : feed ⟨.start, [], []⟩ (literal false [.unicode '0' '0' 'e'
    '9']) =
      some ⟨.start, [], [literal false [.unicode '0' '0' 'e' '9']]⟩ ∧
    qstringFromEscapedStr (literal false [.unicode '0' '0' 'e' '9']) = some ['\xc3', '\xa9'] :=
  (@literal_decodes_iff false [.unicode '0' '0' 'e' '9'] [utf8 233]
    (.cons (@Stands.unicode _ _ _ _ _ 0 0 14 9 rfl rfl rfl rfl (by decide)) .nil)).mpr (by decide)

/-- After `'\\'` the lexer is in a double-quoted string, and nothing is emitted. -/
theorem backslash_unterminated :
    Forall₂ (Stands false) [.escape '\\'] [['\\']] ∧ feed ⟨.start, [], []⟩
      (literal false [.escape '\\']) = some ⟨.string true, literal false [.escape '\\'], []⟩ :=
  ⟨.cons (@Stands.escape _ ('\\','\\') (by decide)) .nil,rfl⟩

end Hqemu.Json.Strings
