import Wired.Http3.FieldSection
import Wired.Http3.RequestFrames

/-!
# Field lines of a request

`headercase.c`, `pseudoheader.c`, `connect.c`, `request_drive_take.c` and `request_drive_rd.c`:
what is made of one field line of a request. A pseudo-header goes to its own field of the request;
of the regular lines the first 32 are kept in a table, from which they are looked up by name. A
line whose bytes do not fit in what is left of the decoder's scratch is not kept.

The table holds the lines that were kept, in the order of the section (`KeepsLines`), so that a
lookup finds the first kept line of its name (`rdHdrsFind_eq`).
-/

namespace Wired.Http3

open Lib Qpack List

/-! ## Well-formed lines -/

def upper (c : UInt8) : Bool := c ≥ 0x41 && c ≤ 0x5a

def h3HeaderNameOk (name : List UInt8) : Bool := name.all fun c => !upper c

/-- RFC 9110 5.6.2 tchar: bit `c % 32` of word `c / 32`. -/
def hcTcharSet : List Nat := [0x00000000, 0x03ff6cfa, 0xc7fffffe, 0x57ffffff]

def hcTchar (c : UInt8) : Bool :=
  c < 128 && ((hcTcharSet[(c >>> 5).toNat]?).getD 0).testBit (c &&& 31).toNat

def h3HeaderTokenOk (name : List UInt8) : Bool := name.all hcTchar && name ≠ []

def hcValueOctet (c : UInt8) : Bool := (c ≥ 0x20 && c ≠ 0x7f) || c = 0x09

def h3HeaderValueOk (value : List UInt8) : Bool := value.all hcValueOctet

def forbiddenNames : List (List UInt8) :=
  [cstr "transfer-encoding", cstr "connection", cstr "keep-alive", cstr "proxy-connection",
    cstr "upgrade"]

def h3HeaderNameForbidden (name : List UInt8) : Bool := name ∈ forbiddenNames

def h3HeaderTeOk (value : List UInt8) : Bool := value = cstr "trailers"

inductive PhKind where
  | none
  | method
  | scheme
  | authority
  | path
  | protocol
  | status
  | unknown
deriving DecidableEq, Repr

def knownPseudo : List (List UInt8 × PhKind) :=
  [(cstr ":method", .method), (cstr ":scheme", .scheme), (cstr ":authority", .authority),
    (cstr ":path", .path), (cstr ":protocol", .protocol), (cstr ":status", .status)]

def h3PhClassify (name : List UInt8) : PhKind :=
  if name.head? ≠ some 0x3a then .none else (knownPseudo.lookup name).getD .unknown

def lineNameOk (name : List UInt8) : Bool :=
  h3PhClassify name ≠ .none || (h3HeaderTokenOk name && h3HeaderNameOk name)

def lineCharsOk (l : Field) : Bool := lineNameOk l.name && h3HeaderValueOk l.value

def lineSmugglingOk (l : Field) : Bool :=
  if h3HeaderNameForbidden l.name then false
  else if l.name ≠ cstr "te" then true
  else h3HeaderTeOk l.value

def h3reqdriveLineOk (l : Field) : Bool := lineCharsOk l && lineSmugglingOk l

/-! ## Pseudo-headers -/

/-- `h3_ph_set`; `seen` has the kinds whose bit is set. -/
structure PhSet where
  seen : List PhKind
  sawRegular : Bool
  ok : Bool
deriving DecidableEq, Repr

def h3PhInit : PhSet := { seen := [], sawRegular := false, ok := true }

def onPseudo (p : PhSet) (k : PhKind) : PhSet :=
  { p with ok := p.ok && !(p.sawRegular || k ∈ p.seen), seen := k :: p.seen }

def h3PhField (p : PhSet) (name : List UInt8) : PhSet :=
  match h3PhClassify name with
  | .none => { p with sawRegular := true }
  | .unknown => { p with ok := false }
  | k => onPseudo p k

def h3PhRequestOk (p : PhSet) : Bool :=
  p.ok && PhKind.method ∈ p.seen && PhKind.scheme ∈ p.seen && PhKind.path ∈ p.seen

/-! ## The request -/

/-- A request. A pseudo-header not received is `none`; empty dedicated fields are absent. -/
structure H3Req where
  method : Option (List UInt8) := none
  scheme : Option (List UInt8) := none
  authority : Option (List UInt8) := none
  path : Option (List UInt8) := none
  protocol : Option (List UInt8) := none
  body : Option (List UInt8) := none
  origin : List UInt8 := []
  wtAvail : List UInt8 := []
  cookie : List UInt8 := []
  hdrs : List Field := []
  qpackRic : Nat := 0
  qpackTrailerRic : Nat := 0
  contentLength : Option Nat := none
  dataLen : Nat := 0
deriving DecidableEq, Repr

def takeOrigin (l : Field) (r : H3Req) : H3Req :=
  if l.name ≠ cstr "origin" then r else { r with origin := l.value }

def takeWtAvail (l : Field) (r : H3Req) : H3Req :=
  if l.name ≠ cstr "wt-available-protocols" then r
  else if l.value.length > 256 then r
  else { r with wtAvail := l.value }

def cookieSep (r : H3Req) : List UInt8 := if r.cookie = [] then [] else cstr "; "

def takeCookie (l : Field) (r : H3Req) : H3Req :=
  if l.name ≠ cstr "cookie" then r
  else if (cookieSep r).length + l.value.length > 512 - r.cookie.length then r
  else { r with cookie := r.cookie ++ cookieSep r ++ l.value }

def classifyRegular (l : Field) (r : H3Req) : H3Req := takeCookie l (takeWtAvail l (takeOrigin l r))

def h3reqdriveClassifyLine (l : Field) (r : H3Req) : H3Req :=
  match h3PhClassify l.name with
  | .method => { r with method := some l.value }
  | .scheme => { r with scheme := some l.value }
  | .authority => { r with authority := some l.value }
  | .path => { r with path := some l.value }
  | .protocol => { r with protocol := some l.value }
  | .none | .status | .unknown => classifyRegular l r

/-! ## The table of regular lines -/

def maxHdrs : Nat := 32

def rdDedicated : List (List UInt8) :=
  [cstr "cookie", cstr "origin", cstr "wt-available-protocols"]

def rdKeeps (l : Field) (r : H3Req) : Bool :=
  r.hdrs.length < maxHdrs && h3PhClassify l.name = .none && l.name ∉ rdDedicated

/-- Copies `n` octets behind the used part of a scratch: where, and how much is used then. -/
def rdCopy (scr used n : Nat) : Option (Nat × Nat) :=
  if n > scr - used then none else some (used, used + n)

/-- The position of octets in the scratch; `view` is where they are already, if they are. -/
def rdPos (scr used : Nat) (view : Option Nat) (n : Nat) : Option (Nat × Nat) :=
  match view with
  | some pos => if pos < scr then some (pos, used) else rdCopy scr used n
  | none => rdCopy scr used n

/-- Whether the octets have a 16-bit position, and how much of the scratch is used then. -/
def rdPlace (scr used : Nat) (view : Option Nat) (n : Nat) : Bool × Nat :=
  match rdPos scr used view n with
  | none => (false, used)
  | some (pos, used') => (pos < 0x10000 && n < 0x10000 - pos, used')

def rdOws (c : UInt8) : Bool := c = 0x20 || c = 0x09

def trimmed (value : List UInt8) : List UInt8 :=
  ((value.dropWhile rdOws).reverse.dropWhile rdOws).reverse

/-- Where the decoder has put the name of a line: only a literal takes scratch of its own. -/
def nameView (base : Nat) (l : RLine) : Option Nat :=
  if l.value.length < l.scratchUsed then some base else none

/-- The same for the value, behind the name and the whitespace that was cut off. -/
def valueView (base : Nat) (l : RLine) : Option Nat :=
  if l.value.length ≤ l.scratchUsed then
    some (base + (l.scratchUsed - l.value.length) + (l.value.takeWhile rdOws).length)
  else none

def rdPlaceLine (scr base used : Nat) (l : RLine) : Bool × Nat :=
  let name := rdPlace scr used (nameView base l) l.name.length
  if !name.1 then name
  else rdPlace scr name.2 (valueView base l) (trimmed l.value).length

/-- The cursor; `lines`, which the source lacks, lists the lines and says which were kept. -/
structure RdCursor where
  used : Nat
  ph : PhSet
  lines : List (Field × Bool)
deriving DecidableEq, Repr

def rdRecord (scr base : Nat) (l : RLine) (field : Field) (cur : RdCursor) (r : H3Req) :
    RdCursor × H3Req :=
  if !rdKeeps field r then ({ cur with lines := cur.lines ++ [(field, false)] }, r)
  else
    let place := rdPlaceLine scr base cur.used l
    ({ cur with used := place.2, lines := cur.lines ++ [(field, place.1)] },
      if place.1 then { r with hdrs := r.hdrs ++ [field] } else r)

/-! ## The walk over a section -/

/-- Why a request is not accepted: the error of a frame, an incomplete stream, `qpack_failed` for a
prefix, or for a line that refers to no live entry, status 431, or a malformed message. -/
inductive ReqError where
  | frame (reject : FrameReject)
  | incomplete
  | qpackPrefix
  | line (qpackFailed : Bool)
  | tooLarge
  | malformed
deriving DecidableEq, Repr

/-- Why a line was not decoded: if it fits in the whole scratch, the section is too large. -/
def h3reqdriveLineFail (scr : Nat) (s : QdynSrc) (rest : List UInt8) (refBad : Bool) : ReqError :=
  if (h3reqdriveDecodeLine rest scr s).line.isSome then .tooLarge else .line refBad

def trimLine (l : RLine) : Field where
  name := l.name
  value := trimmed l.value

def h3reqdriveStepLine (scr : Nat) (s : QdynSrc) (rest : List UInt8) (cur : RdCursor) (r : H3Req) :
    Except ReqError ((RdCursor × H3Req) × Nat) :=
  let out := h3reqdriveDecodeLine rest (scr - cur.used) s
  match out.line with
  | none => .error (h3reqdriveLineFail scr s rest out.refBad)
  | some (l, c) =>
    let field := trimLine l
    if !h3reqdriveLineOk field then .error .malformed
    else
      let cur' := { cur with ph := h3PhField cur.ph field.name, used := cur.used + l.scratchUsed }
      .ok (rdRecord scr cur.used l field cur' (h3reqdriveClassifyLine field r), c)

def scanLinesFrom (scr : Nat) (s : QdynSrc) :
    Nat → List UInt8 → RdCursor → H3Req → Except ReqError (RdCursor × H3Req)
  | 0, _, cur, r => .ok (cur, r)
  | fuel + 1, rest, cur, r =>
    if rest = [] then .ok (cur, r)
    else
      match h3reqdriveStepLine scr s rest cur r with
      | .error e => .error e
      | .ok (next, c) => scanLinesFrom scr s fuel (rest.drop c) next.1 next.2

def h3reqdriveScanLines (scr : Nat) (s : QdynSrc) (rest : List UInt8) (cur : RdCursor)
    (r : H3Req) : Except ReqError (RdCursor × H3Req) :=
  scanLinesFrom scr s rest.length rest cur r

/-! ## Lookups -/

/-- The first kept line of a name. -/
def rdHdrsFind (r : H3Req) (name : List UInt8) : Option (List UInt8) :=
  (r.hdrs.find? fun h => h.name = name).map Field.value

def rdDedicatedField (r : H3Req) (name : List UInt8) : Option (List UInt8) :=
  if name = cstr "cookie" then some r.cookie
  else if name = cstr "origin" then some r.origin
  else if name = cstr "wt-available-protocols" then some r.wtAvail
  else none

def wiredHttpReqHeader (r : H3Req) (name : List UInt8) : Option (List UInt8) :=
  match rdDedicatedField r name with
  | some v => if v = [] then none else some v
  | none => rdHdrsFind r name

/-! ## What the table holds -/

def KeepsLines (cur : RdCursor) (r : H3Req) : Prop :=
  r.hdrs = (cur.lines.filter Prod.snd).map Prod.fst

/-- What the walk leaves of the request. -/
structure Scanned (r₀ : H3Req) (cur : RdCursor) (r : H3Req) : Prop where
  keeps : KeepsLines cur r
  contentLength : r.contentLength = r₀.contentLength
  dataLen : r.dataLen = r₀.dataLen

theorem classifyRegular_rest (l : Field) (r : H3Req) :
    (classifyRegular l r).hdrs = r.hdrs ∧
      (classifyRegular l r).contentLength = r.contentLength ∧
      (classifyRegular l r).dataLen = r.dataLen := by
  unfold classifyRegular takeCookie takeWtAvail takeOrigin
  repeat' split
  all_goals exact ⟨rfl, rfl, rfl⟩

theorem h3reqdriveClassifyLine_rest (l : Field) (r : H3Req) :
    (h3reqdriveClassifyLine l r).hdrs = r.hdrs ∧
      (h3reqdriveClassifyLine l r).contentLength = r.contentLength ∧
      (h3reqdriveClassifyLine l r).dataLen = r.dataLen := by
  unfold h3reqdriveClassifyLine
  split
  all_goals first
    | exact ⟨rfl, rfl, rfl⟩
    | exact classifyRegular_rest l r

variable {rest : List UInt8} {next : RdCursor × H3Req} {r : H3Req} {cur : RdCursor}

section

variable {scr : Nat} {s : QdynSrc} {r₀ r : H3Req} {cur : RdCursor}

theorem rdRecord_scanned {base : Nat} {l : RLine} {field : Field} (h : Scanned r₀ cur r) :
    Scanned r₀ (rdRecord scr base l field cur r).1 (rdRecord scr base l field cur r).2 := by
  have hkeeps := h.keeps
  unfold KeepsLines at hkeeps
  unfold rdRecord
  split
  · exact ⟨by simp [KeepsLines, hkeeps], h.contentLength, h.dataLen⟩
  · dsimp only
    split
    all_goals
      rename_i hplace
      exact ⟨by simp [KeepsLines, hplace, hkeeps], h.contentLength, h.dataLen⟩

theorem h3reqdriveStepLine_scanned {c : Nat}
    (h : Scanned r₀ cur r) (hstep : h3reqdriveStepLine scr s rest cur r = .ok (next, c)) :
    Scanned r₀ next.1 next.2 := by
  unfold h3reqdriveStepLine at hstep
  dsimp only at hstep
  split at hstep
  · cases hstep
  rename_i l c' _
  split at hstep
  · cases hstep
  cases hstep
  obtain ⟨hhdrs, hlength, hdata⟩ := h3reqdriveClassifyLine_rest (trimLine l) r
  apply rdRecord_scanned
  exact ⟨hhdrs.trans h.keeps, hlength.trans h.contentLength, hdata.trans h.dataLen⟩

theorem scanLinesFrom_scanned {fuel : Nat}
    (h : Scanned r₀ cur r) (hscan : scanLinesFrom scr s fuel rest cur r = .ok next) :
    Scanned r₀ next.1 next.2 := by
  induction fuel generalizing rest cur r with
  | zero =>
    cases hscan
    exact h
  | succ fuel ih =>
    unfold scanLinesFrom at hscan
    split at hscan
    · cases hscan
      exact h
    · cases hstep : h3reqdriveStepLine scr s rest cur r with
      | error e => simp [hstep] at hscan
      | ok out =>
        simp only [hstep] at hscan
        exact ih (h3reqdriveStepLine_scanned h hstep) hscan

end

/-! ## Lines of one name -/

def linesOf (name : List UInt8) (lines : List (Field × Bool)) : List (Field × Bool) :=
  lines.filter fun l => l.1.name = name

def valuesOf (name : List UInt8) (lines : List (Field × Bool)) : List (List UInt8) :=
  (linesOf name lines).map fun l => l.1.value

/-- The values of the lines that a lookup of the name does not see: all but the first kept one. -/
def unseenValues (name : List UInt8) (lines : List (Field × Bool)) : List (List UInt8) :=
  ((linesOf name lines).eraseP Prod.snd).map fun l => l.1.value

theorem mem_iff_find?_or_eraseP {α : Type*} (p : α → Bool) (l : List α) (a : α) :
    a ∈ l ↔ l.find? p = some a ∨ a ∈ l.eraseP p := by
  induction l with
  | nil => simp
  | cons b l ih =>
    by_cases hb : p b = true
    · simp [hb, eq_comm]
    · rw [find?_cons_of_neg hb, eraseP_cons_of_neg hb, mem_cons, mem_cons, ih]
      tauto

theorem rdHdrsFind_eq (h : KeepsLines cur r) (name : List UInt8) :
    rdHdrsFind r name = ((linesOf name cur.lines).find? Prod.snd).map fun l => l.1.value := by
  have htest : (fun l : Field × Bool => decide (l.2 = true ∧ decide (l.1.name = name) = true)) =
      fun l => decide (decide (l.1.name = name) = true ∧ l.2 = true) := by
    funext l
    exact decide_eq_decide.mpr and_comm
  rw [rdHdrsFind, h, find?_map, find?_filter, linesOf, find?_filter, Option.map_map, ← htest]
  rfl

/-- A value is that of a line of the name exactly when a lookup finds it or does not see it. -/
theorem mem_valuesOf_iff (h : KeepsLines cur r) {name x : List UInt8} :
    x ∈ valuesOf name cur.lines ↔ rdHdrsFind r name = some x ∨ x ∈ unseenValues name cur.lines := by
  rw [rdHdrsFind_eq h, valuesOf, unseenValues, mem_map, mem_map, Option.map_eq_some_iff,
    ← exists_or]
  apply exists_congr
  intro l
  rw [mem_iff_find?_or_eraseP Prod.snd, or_and_right]

end Wired.Http3
