import Wired.Moqt.ControlMessage
import Wired.Moqt.Location
import Wired.Lib.Word

/-!
# The fetch stream

`moqfetch_obj.c`, `moqfetch_take.c`, `moqfetch_eor.c` and their encoding sides `moqfetch_put.c`,
`moqfetch_put_eor.c`: the Objects of a FETCH response. Serialization Flags say which fields follow;
what is left out is taken from the Object before, and what is there is mostly a distance from it.
Encoder and decoder both carry the prior Object (`FetchSeq`).

`Agrees` says when flags and prior Object allow an Object to be written, and `moqfetchObjPut_take`
that it is then read back, with the same prior Object on both sides.
-/

namespace Wired.Moqt

open Lib Transport List

/-- The prior Object, and what the response and the draft settle. -/
structure FetchSeq where
  descending : Bool := false
  eorTimedOut : Bool := false
  d23 : Bool := false
  haveLoc : Bool := false
  haveSubgroup : Bool := false
  havePriority : Bool := false
  group : UInt64 := 0
  object : UInt64 := 0
  subgroup : UInt64 := 0
  priority : UInt64 := 0
deriving DecidableEq, Repr

/-- An Object, or a marker, of the stream. -/
structure FetchObj where
  flags : UInt64 := 0
  group : UInt64 := 0
  object : UInt64 := 0
  hasSubgroup : Bool := false
  subgroup : UInt64 := 0
  priority : UInt64 := 0
  hasProps : Bool := false
  props : List UInt8 := []
  payload : List UInt8 := []
deriving DecidableEq, Repr

/-- What decoding can fail with: `MOQCTL_INSUFFICIENT`, `MOQCTL_R_OBJ`, `MOQCTL_R_DELTA`. -/
inductive FetchErr where
  | insufficient
  | obj
  | delta
deriving DecidableEq, Repr

def fSubgroupMask : UInt64 := 0x03
def fObject : UInt64 := 0x04
def fGroup : UInt64 := 0x08
def fPriority : UInt64 := 0x10
def fProps : UInt64 := 0x20
def fDatagram : UInt64 := 0x40
def eorNonexistent : UInt64 := 0x8C
def eorUnknown : UInt64 := 0x10C
def eorTimedOut : UInt64 := 0x20C
def eorGone : UInt64 := 0x40C
def endOfGroup : UInt64 := 0x80
def endOfTrack : UInt64 := 0x81

/-- An Object, the end of a range, or the end of the stream. -/
inductive FetchKind where
  | obj
  | eor
  | end_
deriving DecidableEq, Repr

/-- The values from 128 on, and whether the stream's draft has them. -/
def moqfetchMarks (s : FetchSeq) : List (UInt64 × FetchKind × Bool) :=
  [(eorNonexistent, .eor, true), (eorUnknown, .eor, true), (eorTimedOut, .eor, s.eorTimedOut),
    (eorGone, .eor, s.d23), (endOfGroup, .end_, s.d23), (endOfTrack, .end_, s.d23)]

def moqfetchMarkerKind (flags : UInt64) (s : FetchSeq) : Option FetchKind :=
  ((moqfetchMarks s).find? fun m => m.1 = flags).bind fun m =>
    if m.2.2 then some m.2.1 else none

def moqfetchKind (flags : UInt64) (s : FetchSeq) : Option FetchKind :=
  if flags < 0x80 then some .obj else moqfetchMarkerKind flags s

/-! ## The prior Object -/

def moqfetchNoteEor (s : FetchSeq) (o : FetchObj) : FetchSeq :=
  { s with haveLoc := true, group := o.group, object := o.object }

def moqfetchNoteObj (s : FetchSeq) (o : FetchObj) : FetchSeq :=
  { moqfetchNoteEor s o with
    haveSubgroup := o.hasSubgroup
    subgroup := o.subgroup
    havePriority := true
    priority := o.priority }

def moqfetchNoteEnd (s : FetchSeq) : FetchSeq := { s with object := ~~~0 }

def moqfetchNote : FetchKind → FetchSeq → FetchObj → FetchSeq
  | .obj, s, o => moqfetchNoteObj s o
  | .eor, s, o => moqfetchNoteEor s o
  | .end_, s, _ => moqfetchNoteEnd s

def moqfetchObjectAbsolute (s : FetchSeq) (o : FetchObj) : Bool :=
  o.flags &&& fGroup ≠ 0 || !s.haveLoc

def moqfetchEorRel (s : FetchSeq) : Bool := s.d23 && s.haveLoc

/-! ## Decoding -/

/-- A step reads at the head of what is left and sets fields of the Object. -/
abbrev TakeStep : Type := FetchSeq → FetchObj → List UInt8 → Except FetchErr (FetchObj × List UInt8)

def takeVi (b : List UInt8) : Except FetchErr (UInt64 × List UInt8) :=
  match moqviTake b with
  | none => .error .insufficient
  | some (v, n) => .ok (UInt64.ofNat v, b.drop n)

def moqctlParamTakeUint8 : List UInt8 → Except FetchErr (UInt64 × List UInt8)
  | [] => .error .insufficient
  | x :: rest => .ok (x.toUInt64, rest)

def moqctlNameTake (b : List UInt8) : Except FetchErr (List UInt8 × List UInt8) := do
  let (len, b) ← takeVi b
  if b.length < len.toNat then .error .insufficient
  else .ok (b.take len.toNat, b.drop len.toNat)

def moqfetchAdd (a b : UInt64) : Except FetchErr UInt64 :=
  if ~~~0 - a < b then .error .delta else .ok (a + b)

def moqfetchGroupUp (prior d : UInt64) : Except FetchErr UInt64 := do
  let step ← moqfetchAdd d 1
  moqfetchAdd prior step

def moqfetchGroupDown (prior d : UInt64) : Except FetchErr UInt64 :=
  if prior ≤ d then .error .delta else .ok (prior - d - 1)

def moqfetchGroupResolve (s : FetchSeq) (d : UInt64) : Except FetchErr UInt64 :=
  if !s.haveLoc then .ok d
  else if s.descending then moqfetchGroupDown s.group d
  else moqfetchGroupUp s.group d

def moqfetchFirstOk : TakeStep := fun s o b =>
  if s.haveLoc then .ok (o, b)
  else if o.flags &&& (fGroup ||| fObject) = fGroup ||| fObject then .ok (o, b)
  else .error .obj

def moqfetchTakeGroup : TakeStep := fun s o b =>
  if o.flags &&& fGroup = 0 then .ok ({ o with group := s.group }, b)
  else do
    let (d, b) ← takeVi b
    let g ← moqfetchGroupResolve s d
    .ok ({ o with group := g }, b)

/-- `MOQFETCH_SG_TAKE`: the Subgroup is zero, the prior one, the one after it, or a field. -/
def moqfetchSgTake (mode : UInt64) (s : FetchSeq) (b : List UInt8) :
    Except FetchErr (UInt64 × List UInt8) :=
  if mode = 0 then .ok (0, b)
  else if mode = 1 then
    if s.haveSubgroup then .ok (s.subgroup, b) else .error .obj
  else if mode = 2 then
    if s.haveSubgroup then do
      let g ← moqfetchAdd s.subgroup 1
      .ok (g, b)
    else .error .obj
  else takeVi b

def moqfetchTakeSubgroup : TakeStep := fun s o b =>
  if o.flags &&& fDatagram ≠ 0 then .ok ({ o with subgroup := 0, hasSubgroup := false }, b)
  else do
    let (g, b) ← moqfetchSgTake (o.flags &&& fSubgroupMask) s b
    .ok ({ o with subgroup := g, hasSubgroup := true }, b)

/-- Draft 23: prior + Delta + 2. -/
def moqfetchSkip2 (prior d : UInt64) : Except FetchErr UInt64 := do
  let t ← moqfetchGroupUp prior d
  moqfetchAdd t 1

def moqfetchObjectResolve (s : FetchSeq) (o : FetchObj) (d : UInt64) : Except FetchErr UInt64 :=
  if moqfetchObjectAbsolute s o then .ok d
  else if !s.d23 then moqfetchAdd s.object d
  else moqfetchSkip2 s.object d

def moqfetchTakeObject : TakeStep := fun s o b =>
  if o.flags &&& fObject = 0 then do
    let i ← moqfetchAdd s.object 1
    .ok ({ o with object := i }, b)
  else do
    let (d, b) ← takeVi b
    let i ← moqfetchObjectResolve s o d
    .ok ({ o with object := i }, b)

def moqfetchTakePriority : TakeStep := fun s o b =>
  if o.flags &&& fPriority ≠ 0 then do
    let (p, b) ← moqctlParamTakeUint8 b
    .ok ({ o with priority := p }, b)
  else if s.havePriority then .ok ({ o with priority := s.priority }, b)
  else .error .obj

def moqfetchTakeProps : TakeStep := fun _ o b =>
  if o.flags &&& fProps = 0 then .ok ({ o with hasProps := false, props := [] }, b)
  else do
    let (p, b) ← moqctlNameTake b
    .ok ({ o with hasProps := true, props := p }, b)

def moqfetchTakePayload : TakeStep := fun _ o b => do
  let (p, b) ← moqctlNameTake b
  .ok ({ o with payload := p }, b)

def moqfetchEorGroup (s : FetchSeq) (gd : UInt64) : Except FetchErr UInt64 :=
  if !s.descending then moqfetchAdd s.group gd
  else if s.group < gd then .error .delta
  else .ok (s.group - gd)

def moqfetchEorObject (s : FetchSeq) (gd od : UInt64) : Except FetchErr UInt64 :=
  if gd ≠ 0 then .ok od else moqfetchGroupUp s.object od

def moqfetchEorResolve (s : FetchSeq) (gd od : UInt64) : Except FetchErr (UInt64 × UInt64) :=
  if !moqfetchEorRel s then .ok (gd, od)
  else do
    let g ← moqfetchEorGroup s gd
    let i ← moqfetchEorObject s gd od
    .ok (g, i)

def moqfetchTakeEor : TakeStep := fun s o b => do
  let (gd, b) ← takeVi b
  let (od, b) ← takeVi b
  let (g, i) ← moqfetchEorResolve s gd od
  .ok ({ o with group := g, object := i }, b)

def moqfetchTakeEnd : TakeStep := fun s o b =>
  if !s.haveLoc then .error .obj
  else .ok ({ o with group := s.group, object := ~~~0 }, b)

def moqfetchKindSteps : FetchKind → List TakeStep
  | .obj =>
    [moqfetchFirstOk, moqfetchTakeGroup, moqfetchTakeSubgroup, moqfetchTakeObject,
      moqfetchTakePriority, moqfetchTakeProps, moqfetchTakePayload]
  | .eor => [moqfetchTakeEor]
  | .end_ => [moqfetchTakeEnd]

def moqfetchSteps (s : FetchSeq) :
    List TakeStep → FetchObj → List UInt8 → Except FetchErr (FetchObj × List UInt8)
  | [], o, b => .ok (o, b)
  | step :: steps, o, b => do
    let (o, b) ← step s o b
    moqfetchSteps s steps o b

abbrev Taken : Type := Except FetchErr ((FetchObj × FetchSeq) × List UInt8)

def moqfetchRun (kind : FetchKind) (s : FetchSeq) (o : FetchObj) (b : List UInt8) : Taken := do
  let (o, b) ← moqfetchSteps s (moqfetchKindSteps kind) o b
  .ok ((o, moqfetchNote kind s o), b)

def moqfetchObjTake (s : FetchSeq) (b : List UInt8) : Taken := do
  let (flags, b) ← takeVi b
  match moqfetchKind flags s with
  | none => .error .obj
  | some kind => moqfetchRun kind s { flags := flags } b

/-! ## Encoding -/

/-- A step appends to what a buffer of so many bytes holds, and says whether there was room. -/
abbrev Put : Type := Nat → List UInt8 → List UInt8 × Bool

def putVi (v : UInt64) : Put := fun cap out =>
  match moqviPut cap out v.toNat with
  | some out => (out, true)
  | none => (out, false)

def moqctlParamPutUint8 (v : UInt64) : Put := fun cap out =>
  if out.length + 1 > cap then (out, false) else (out ++ [v.toUInt8], true)

def bytesPut (src : List UInt8) : Put := fun cap out =>
  if out.length + src.length > cap then (out, false) else (out ++ src, true)

def putNone : Put := fun _ out => (out, true)

def Put.andThen (p q : Put) : Put := fun cap out =>
  if (p cap out).2 then q cap (p cap out).1 else ((p cap out).1, false)

def moqctlNamePut (name : List UInt8) : Put :=
  (putVi (UInt64.ofNat name.length)).andThen (bytesPut name)

def moqfetchGroupDelta (s : FetchSeq) (g : UInt64) : UInt64 :=
  if !s.haveLoc then g else if s.descending then s.group - g - 1 else g - s.group - 1

abbrev PutStep : Type := FetchSeq → FetchObj → Put

def moqfetchPutFlags : PutStep := fun _ o => putVi o.flags

def moqfetchPutGroup : PutStep := fun s o =>
  if o.flags &&& fGroup = 0 then putNone else putVi (moqfetchGroupDelta s o.group)

def moqfetchHasSgField (flags : UInt64) : Bool :=
  flags &&& fDatagram = 0 && flags &&& fSubgroupMask = fSubgroupMask

def moqfetchPutSubgroup : PutStep := fun _ o =>
  if !moqfetchHasSgField o.flags then putNone else putVi o.subgroup

def moqfetchPutPriority : PutStep := fun _ o =>
  if o.flags &&& fPriority = 0 then putNone else moqctlParamPutUint8 o.priority

def moqfetchPutProps : PutStep := fun _ o =>
  if o.flags &&& fProps = 0 then putNone else moqctlNamePut o.props

def moqfetchPutPayload : PutStep := fun _ o => moqctlNamePut o.payload

/-- Draft 23 writes the distance less 2, and has no shorter one. -/
def moqfetchPutOdelta (s : FetchSeq) (d : UInt64) : Put :=
  if !s.d23 then putVi d
  else if 2 ≤ d then putVi (d - 2)
  else fun _ out => (out, false)

def moqfetchPutObject : PutStep := fun s o =>
  if o.flags &&& fObject = 0 then putNone
  else if moqfetchObjectAbsolute s o then putVi o.object
  else moqfetchPutOdelta s (o.object - s.object)

def moqfetchEorGdelta (s : FetchSeq) (g : UInt64) : UInt64 :=
  if s.descending then s.group - g else g - s.group

def moqfetchEorDeltas (s : FetchSeq) (o : FetchObj) : UInt64 × UInt64 :=
  if !moqfetchEorRel s then (o.group, o.object)
  else (moqfetchEorGdelta s o.group,
    if moqfetchEorGdelta s o.group ≠ 0 then o.object else o.object - s.object - 1)

def moqfetchPutEor : PutStep := fun s o =>
  (putVi (moqfetchEorDeltas s o).1).andThen (putVi (moqfetchEorDeltas s o).2)

def moqfetchPutEnd : PutStep := fun s _ _ out => (out, s.haveLoc)

def moqfetchPutByKind : FetchKind → List PutStep
  | .obj =>
    [moqfetchPutFlags, moqfetchPutGroup, moqfetchPutSubgroup, moqfetchPutObject,
      moqfetchPutPriority, moqfetchPutProps, moqfetchPutPayload]
  | .eor => [moqfetchPutFlags, moqfetchPutEor]
  | .end_ => [moqfetchPutEnd, moqfetchPutFlags]

def moqfetchPutAll (s : FetchSeq) (o : FetchObj) : List PutStep → Put
  | [] => putNone
  | step :: steps => (step s o).andThen (moqfetchPutAll s o steps)

/-- What the buffer holds then, and the sequence behind the Object if it was written. -/
def moqfetchObjPut (cap : Nat) (out : List UInt8) (s : FetchSeq) (o : FetchObj) :
    List UInt8 × Option FetchSeq :=
  match moqfetchKind o.flags s with
  | none => (out, none)
  | some kind =>
    let r := moqfetchPutAll s o (moqfetchPutByKind kind) cap out
    (r.1, if r.2 then some (moqfetchNote kind s o) else none)

def moqfetchSameGroup (s : FetchSeq) (g : UInt64) : Bool := s.haveLoc && s.group = g

def moqfetchNextOf (s : FetchSeq) (g obj : UInt64) : Bool :=
  moqfetchSameGroup s g && obj = s.object + 1

def moqfetchObjectFlag (s : FetchSeq) (group object : UInt64) : UInt64 :=
  if s.d23 && moqfetchNextOf s group object then 0 else fObject

/-! ## Writing and reading one behind the other -/

theorem except_ok_bind {ε α β : Type} (a : α) (f : α → Except ε β) :
    (Except.ok a >>= f) = f a := rfl

/-- With room for `e`, the step appends `e`. -/
def Puts (p : Put) (e : List UInt8) : Prop :=
  ∀ cap out, out.length + e.length ≤ cap → p cap out = (out ++ e, true)

/-- One side writes what the other reads as `a`, in at most `n` bytes. -/
def Mirrors {α : Type} (p : Put) (t : List UInt8 → Except FetchErr (α × List UInt8)) (a : α)
    (n : Nat) : Prop :=
  ∃ e : List UInt8, e.length ≤ n ∧ Puts p e ∧ ∀ rest, t (e ++ rest) = .ok (a, rest)

section

variable {α β : Type} {p q : Put} {t : List UInt8 → Except FetchErr (α × List UInt8)}
  {u : List UInt8 → Except FetchErr (β × List UInt8)} {a : α} {c : β} {n m : Nat}

theorem Mirrors.none (h : ∀ b, t b = .ok (a, b)) : Mirrors putNone t a n :=
  ⟨[], Nat.zero_le n, fun _ out _ => by rw [append_nil]; rfl, h⟩

theorem Mirrors.mono (h : Mirrors p t a n) (hle : n ≤ m) : Mirrors p t a m := by
  obtain ⟨e, hlen, hput, htake⟩ := h
  exact ⟨e, Nat.le_trans hlen hle, hput, htake⟩

theorem Mirrors.map (h : Mirrors p t a n) (hu : ∀ b b', t b = .ok (a, b') → u b = .ok (c, b')) :
    Mirrors p u c n := by
  obtain ⟨e, hlen, hput, htake⟩ := h
  exact ⟨e, hlen, hput, fun rest => hu _ _ (htake rest)⟩

theorem Mirrors.andThen {v : List UInt8 → Except FetchErr (β × List UInt8)} (h : Mirrors p t a n)
    (hq : Mirrors q u c m) (hv : ∀ b b', t b = .ok (a, b') → v b = u b') :
    Mirrors (p.andThen q) v c (n + m) := by
  obtain ⟨e, hlen, hput, htake⟩ := h
  obtain ⟨e', hlen', hput', htake'⟩ := hq
  refine ⟨e ++ e', ?_, ?_, ?_⟩
  · rw [length_append]
    omega
  · intro cap out hroom
    rw [length_append] at hroom
    rw [Put.andThen, hput cap out (by omega), if_pos rfl,
      hput' cap (out ++ e) (by rw [length_append]; omega), append_assoc]
  · intro rest
    rw [append_assoc, hv _ _ (htake _), htake' rest]

end

theorem mirrors_vi (v : UInt64) : Mirrors (putVi v) takeVi v 9 := by
  obtain ⟨hcodes, hlen⟩ := moqviEncode_codes v.toNat_lt
  refine ⟨moqviEncode v.toNat, ?_, ?_, ?_⟩
  · rw [hlen]
    exact (moqviLen_spec _).2.1
  · intro cap out hroom
    rw [putVi, moqviPut, if_neg (by omega)]
  · intro rest
    have hdrop : (moqviEncode v.toNat ++ rest).drop (moqviEncode v.toNat).length = rest := drop_left
    rw [takeVi, moqviTake, hcodes rest]
    simp only [hdrop, UInt64.ofNat_toNat]

theorem mirrors_uint8 {v : UInt64} (hv : v < 256) :
    Mirrors (moqctlParamPutUint8 v) moqctlParamTakeUint8 v 1 := by
  refine ⟨[v.toUInt8], le_rfl, ?_, ?_⟩
  · intro cap out hroom
    rw [length_singleton] at hroom
    rw [moqctlParamPutUint8, if_neg (Nat.not_lt.mpr hroom)]
  · intro rest
    have hback : v.toUInt8.toUInt64 = v := by
      rw [← UInt64.toNat_inj, UInt8.toNat_toUInt64, UInt64.toNat_toUInt8]
      exact Nat.mod_eq_of_lt (UInt64.lt_iff_toNat_lt.mp hv)
    rw [singleton_append, moqctlParamTakeUint8, hback]

theorem mirrors_name {name : List UInt8} (h : name.length < 2 ^ 64) :
    Mirrors (moqctlNamePut name) moqctlNameTake name (9 + name.length) := by
  have hlen : (UInt64.ofNat name.length).toNat = name.length := by
    rw [UInt64.toNat_ofNat']
    exact Nat.mod_eq_of_lt h
  have hbytes : Mirrors (bytesPut name)
      (fun b => if b.length < name.length then .error FetchErr.insufficient
        else .ok (b.take name.length, b.drop name.length)) name name.length := by
    refine ⟨name, le_rfl, ?_, ?_⟩
    · intro cap out hroom
      rw [bytesPut, if_neg (Nat.not_lt.mpr hroom)]
    · intro rest
      dsimp only
      rw [if_neg (by rw [length_append]; omega), take_left, drop_left]
  apply (mirrors_vi _).andThen hbytes
  intro b b' hb
  rw [moqctlNameTake, hb, except_ok_bind]
  simp only [hlen]

section

variable {s : FetchSeq} {o w w' : FetchObj} {n m : Nat}

theorem mirrors_nil : Mirrors (moqfetchPutAll s o []) (moqfetchSteps s [] w) w 0 :=
  Mirrors.none fun _ => rfl

theorem Mirrors.cons {w'' : FetchObj} {put : PutStep} {take : TakeStep} {puts : List PutStep}
    {takes : List TakeStep} (h : Mirrors (put s o) (take s w) w' n)
    (hrest : Mirrors (moqfetchPutAll s o puts) (moqfetchSteps s takes w') w'' m) :
    Mirrors (moqfetchPutAll s o (put :: puts)) (moqfetchSteps s (take :: takes) w) w'' (n + m) := by
  apply Mirrors.andThen h hrest
  intro b b' hb
  rw [moqfetchSteps, hb, except_ok_bind]

end

/-! ## Distances -/

theorem toNat_two : (2 : UInt64).toNat = 2 := rfl

section

variable {a b c : UInt64}

theorem moqfetchAdd_ok (h : a.toNat + b.toNat = c.toNat) : moqfetchAdd a b = .ok c := by
  have hc := c.toNat_lt
  rw [moqfetchAdd, if_neg (by rw [compl_zero_sub_lt]; omega)]
  congr 1
  rw [← UInt64.toNat_inj, UInt64.toNat_add, Nat.mod_eq_of_lt (by omega), h]

theorem toNat_add_one (h : a < b) : (a + 1).toNat = a.toNat + 1 := by
  have hlt := UInt64.lt_iff_toNat_lt.mp h
  have hb := b.toNat_lt
  rw [UInt64.toNat_add, UInt64.toNat_one, Nat.mod_eq_of_lt (by omega)]

theorem moqfetchGroupUp_ok (h : a.toNat + (b.toNat + 1) = c.toNat) :
    moqfetchGroupUp a b = .ok c := by
  have hc := c.toNat_lt
  have hstep : (b + 1).toNat = b.toNat + 1 := by
    rw [UInt64.toNat_add, UInt64.toNat_one, Nat.mod_eq_of_lt (by omega)]
  rw [moqfetchGroupUp, moqfetchAdd_ok (b := 1) hstep.symm, except_ok_bind]
  exact moqfetchAdd_ok (by rw [hstep, h])

theorem toNat_distance (h : a < b) : (b - a - 1).toNat + 1 = b.toNat - a.toNat := by
  have hlt := UInt64.lt_iff_toNat_lt.mp h
  have hsub := toNat_sub_eq hlt.le
  rw [toNat_sub_eq (by rw [UInt64.toNat_one]; omega), UInt64.toNat_one]
  omega

theorem moqfetchGroupUp_distance (h : a < b) : moqfetchGroupUp a (b - a - 1) = .ok b := by
  have hdist := toNat_distance h
  have hlt := UInt64.lt_iff_toNat_lt.mp h
  exact moqfetchGroupUp_ok (by omega)

theorem moqfetchGroupDown_distance (h : b < a) : moqfetchGroupDown a (a - b - 1) = .ok b := by
  have hdist := toNat_distance h
  have hlt := UInt64.lt_iff_toNat_lt.mp h
  have hback := toNat_sub_eq (a := a) (b := a - b - 1) (by omega)
  rw [moqfetchGroupDown, if_neg (by rw [UInt64.le_iff_toNat_le]; omega)]
  congr 1
  rw [← UInt64.toNat_inj, toNat_sub_eq (by rw [UInt64.toNat_one]; omega), UInt64.toNat_one]
  omega

theorem moqfetchAdd_distance (h : a ≤ b) : moqfetchAdd a (b - a) = .ok b := by
  have hle := UInt64.le_iff_toNat_le.mp h
  exact moqfetchAdd_ok (by rw [toNat_sub_eq hle]; omega)

theorem moqfetchSkip2_distance (h : a.toNat + 2 ≤ b.toNat) :
    moqfetchSkip2 a (b - a - 2) = .ok b := by
  have hsub := toNat_sub_eq (a := b) (b := a) (by omega)
  have htwo : (b - a - 2).toNat = b.toNat - a.toNat - 2 := by
    rw [toNat_sub_eq (by rw [toNat_two]; omega), hsub, toNat_two]
  have hone : (b - 1).toNat = b.toNat - 1 := toNat_sub_eq (by rw [UInt64.toNat_one]; omega)
  rw [moqfetchSkip2, moqfetchGroupUp_ok (by omega : _ = (b - 1).toNat), except_ok_bind]
  exact moqfetchAdd_ok (by rw [hone, UInt64.toNat_one]; omega)

end

def GroupAfter (s : FetchSeq) (g : UInt64) : Prop :=
  if s.descending then g < s.group else s.group < g

variable {g : UInt64} {s : FetchSeq} {o : FetchObj}

theorem moqfetchGroupResolve_delta (h : s.haveLoc = true → GroupAfter s g) :
    moqfetchGroupResolve s (moqfetchGroupDelta s g) = .ok g := by
  rw [moqfetchGroupResolve, moqfetchGroupDelta]
  cases hloc : s.haveLoc with
  | false => rfl
  | true =>
    have hafter := h hloc
    rw [GroupAfter] at hafter
    cases hdesc : s.descending <;> rw [hdesc] at hafter
    · exact moqfetchGroupUp_distance hafter
    · exact moqfetchGroupDown_distance hafter

/-! ## The fields -/

/-- The Subgroup is the one that the flags and the prior Object give, unless it is a field. -/
structure SubgroupAgrees (s : FetchSeq) (o : FetchObj) : Prop where
  datagram : o.flags &&& fDatagram ≠ 0 → o.hasSubgroup = false ∧ o.subgroup = 0
  present : o.flags &&& fDatagram = 0 → o.hasSubgroup = true
  zero : o.flags &&& fDatagram = 0 → o.flags &&& fSubgroupMask = 0 → o.subgroup = 0
  prior : o.flags &&& fDatagram = 0 → o.flags &&& fSubgroupMask = 1 →
    s.haveSubgroup = true ∧ o.subgroup = s.subgroup
  next : o.flags &&& fDatagram = 0 → o.flags &&& fSubgroupMask = 2 →
    s.haveSubgroup = true ∧ s.subgroup.toNat + 1 = o.subgroup.toNat

/-- What the flags leave out is what the prior Object implies; what is there can be reached from it.
-/
structure ObjAgrees (s : FetchSeq) (o : FetchObj) : Prop where
  flags : o.flags < 0x80
  first : s.haveLoc = false → o.flags &&& (fGroup ||| fObject) = fGroup ||| fObject
  sameGroup : o.flags &&& fGroup = 0 → o.group = s.group
  otherGroup : o.flags &&& fGroup ≠ 0 → s.haveLoc = true → GroupAfter s o.group
  subgroup : SubgroupAgrees s o
  nextObject : o.flags &&& fObject = 0 → s.object.toNat + 1 = o.object.toNat
  laterObject : o.flags &&& fObject ≠ 0 → moqfetchObjectAbsolute s o = false →
    s.object.toNat + (if s.d23 then 2 else 0) ≤ o.object.toNat
  samePriority : o.flags &&& fPriority = 0 → s.havePriority = true ∧ o.priority = s.priority
  priority : o.flags &&& fPriority ≠ 0 → o.priority < 256
  hasProps : o.hasProps = decide (o.flags &&& fProps ≠ 0)
  noProps : o.flags &&& fProps = 0 → o.props = []
  props : o.props.length < 2 ^ 64
  payload : o.payload.length < 2 ^ 64

section

variable {s : FetchSeq} {o w : FetchObj}

theorem mirrors_subgroup (h : SubgroupAgrees s o) (hw : w.flags = o.flags) :
    Mirrors (moqfetchPutSubgroup s o) (moqfetchTakeSubgroup s w)
      { w with subgroup := o.subgroup, hasSubgroup := o.hasSubgroup } 9 := by
  by_cases hdata : o.flags &&& fDatagram = 0
  · have hpresent := h.present hdata
    by_cases hfield : o.flags &&& fSubgroupMask = fSubgroupMask
    · have hput : moqfetchPutSubgroup s o = putVi o.subgroup := by
        rw [moqfetchPutSubgroup, moqfetchHasSgField, hdata, hfield]
        rfl
      rw [hput]
      apply (mirrors_vi _).map
      intro b b' hb
      rw [moqfetchTakeSubgroup, hw, if_neg (not_not.mpr hdata), hfield, moqfetchSgTake,
        if_neg (by decide), if_neg (by decide), if_neg (by decide), hb, except_ok_bind, hpresent]
    · have hput : moqfetchPutSubgroup s o = putNone := by
        rw [moqfetchPutSubgroup, moqfetchHasSgField, decide_eq_false hfield, Bool.and_false]
        rfl
      rw [hput]
      refine Mirrors.none fun b => ?_
      rw [moqfetchTakeSubgroup, hw, if_neg (not_not.mpr hdata), hpresent]
      -- the two low bits are not both set
      have hmode : o.flags &&& fSubgroupMask = 0 ∨ o.flags &&& fSubgroupMask = 1 ∨
          o.flags &&& fSubgroupMask = 2 := by
        have hle : (o.flags &&& fSubgroupMask).toNat ≤ 3 := by
          rw [UInt64.toNat_and]
          exact Nat.and_le_right
        have hthree : (o.flags &&& fSubgroupMask).toNat ≠ (3 : UInt64).toNat :=
          fun h => hfield (UInt64.toNat_inj.mp h)
        simp only [← UInt64.toNat_inj, UInt64.reduceToNat] at hthree ⊢
        omega
      obtain hmode | hmode | hmode := hmode
      · rw [hmode, h.zero hdata hmode, moqfetchSgTake, if_pos rfl, except_ok_bind]
      · obtain ⟨hhave, hprior⟩ := h.prior hdata hmode
        rw [hmode, moqfetchSgTake, if_neg (by decide), if_pos rfl, if_pos hhave, hprior,
          except_ok_bind]
      · obtain ⟨hhave, hnext⟩ := h.next hdata hmode
        rw [hmode, moqfetchSgTake, if_neg (by decide), if_neg (by decide), if_pos rfl,
          if_pos hhave, moqfetchAdd_ok hnext, except_ok_bind, except_ok_bind]
  · have hput : moqfetchPutSubgroup s o = putNone := by
      rw [moqfetchPutSubgroup, moqfetchHasSgField, decide_eq_false hdata, Bool.false_and]
      rfl
    obtain ⟨hnone, hzero⟩ := h.datagram hdata
    rw [hput]
    refine Mirrors.none fun b => ?_
    rw [moqfetchTakeSubgroup, hw, if_pos hdata, hnone, hzero]

theorem mirrors_payload (h : o.payload.length < 2 ^ 64) :
    Mirrors (moqfetchPutPayload s o) (moqfetchTakePayload s w)
      { w with payload := o.payload } (9 + o.payload.length) := by
  apply (mirrors_name h).map
  intro b b' hb
  rw [moqfetchTakePayload, hb, except_ok_bind]

section

variable (h : ObjAgrees s o)
include h

section

variable (hw : w.flags = o.flags)
include hw

theorem mirrors_group :
    Mirrors (moqfetchPutGroup s o) (moqfetchTakeGroup s w) { w with group := o.group } 9 := by
  by_cases hflag : o.flags &&& fGroup = 0
  · rw [moqfetchPutGroup, if_pos hflag]
    refine Mirrors.none fun b => ?_
    rw [moqfetchTakeGroup, hw, if_pos hflag, h.sameGroup hflag]
  · rw [moqfetchPutGroup, if_neg hflag]
    apply (mirrors_vi _).map
    intro b b' hb
    rw [moqfetchTakeGroup, hw, if_neg hflag, hb, except_ok_bind]
    dsimp only
    rw [moqfetchGroupResolve_delta (h.otherGroup hflag), except_ok_bind]

theorem mirrors_object :
    Mirrors (moqfetchPutObject s o) (moqfetchTakeObject s w) { w with object := o.object } 9 := by
  by_cases hflag : o.flags &&& fObject = 0
  · rw [moqfetchPutObject, if_pos hflag]
    refine Mirrors.none fun b => ?_
    rw [moqfetchTakeObject, hw, if_pos hflag, moqfetchAdd_ok (h.nextObject hflag), except_ok_bind]
  · have habs : moqfetchObjectAbsolute s w = moqfetchObjectAbsolute s o := by
      rw [moqfetchObjectAbsolute, moqfetchObjectAbsolute, hw]
    suffices hresolve : ∃ d, moqfetchPutObject s o = putVi d ∧
        moqfetchObjectResolve s w d = .ok o.object by
      obtain ⟨d, hput, hresolve⟩ := hresolve
      rw [hput]
      apply (mirrors_vi _).map
      intro b b' hb
      rw [moqfetchTakeObject, hw, if_neg hflag, hb, except_ok_bind]
      dsimp only
      rw [hresolve, except_ok_bind]
    by_cases hrel : moqfetchObjectAbsolute s o = true
    · refine ⟨o.object, ?_, ?_⟩
      · rw [moqfetchPutObject, if_neg hflag, if_pos hrel]
      · rw [moqfetchObjectResolve, habs, if_pos hrel]
    · have hlater := h.laterObject hflag (Bool.eq_false_iff.mpr hrel)
      rw [moqfetchPutObject, if_neg hflag, if_neg hrel, moqfetchPutOdelta]
      simp only [moqfetchObjectResolve, habs, if_neg hrel]
      cases hd : s.d23 with
      | false =>
        rw [hd, if_neg Bool.false_ne_true] at hlater
        refine ⟨o.object - s.object, if_pos rfl, ?_⟩
        rw [if_pos (Bool.not_false ▸ rfl)]
        exact moqfetchAdd_distance (UInt64.le_iff_toNat_le.mpr hlater)
      | true =>
        rw [hd, if_pos rfl] at hlater
        have htwo : 2 ≤ o.object - s.object := by
          rw [UInt64.le_iff_toNat_le, toNat_sub_eq (by omega), toNat_two]
          omega
        refine ⟨o.object - s.object - 2, ?_, ?_⟩
        · rw [if_neg (by decide), if_pos htwo]
        · rw [if_neg (by decide), moqfetchSkip2_distance hlater]

theorem mirrors_priority :
    Mirrors (moqfetchPutPriority s o) (moqfetchTakePriority s w)
      { w with priority := o.priority } 1 := by
  by_cases hflag : o.flags &&& fPriority = 0
  · obtain ⟨hhave, hsame⟩ := h.samePriority hflag
    rw [moqfetchPutPriority, if_pos hflag]
    refine Mirrors.none fun b => ?_
    rw [moqfetchTakePriority, hw, if_neg (not_not.mpr hflag), if_pos hhave, hsame]
  · rw [moqfetchPutPriority, if_neg hflag]
    apply (mirrors_uint8 (h.priority hflag)).map
    intro b b' hb
    rw [moqfetchTakePriority, hw, if_pos hflag, hb, except_ok_bind]

theorem mirrors_props :
    Mirrors (moqfetchPutProps s o) (moqfetchTakeProps s w)
      { w with hasProps := o.hasProps, props := o.props } (9 + o.props.length) := by
  have hhas := h.hasProps
  by_cases hflag : o.flags &&& fProps = 0
  · rw [moqfetchPutProps, if_pos hflag]
    refine Mirrors.none fun b => ?_
    rw [decide_eq_false (not_not.mpr hflag)] at hhas
    rw [moqfetchTakeProps, hw, if_pos hflag, hhas, h.noProps hflag]
  · rw [moqfetchPutProps, if_neg hflag]
    apply (mirrors_name h.props).map
    intro b b' hb
    rw [decide_eq_true hflag] at hhas
    rw [moqfetchTakeProps, hw, if_neg hflag, hb, hhas, except_ok_bind]

end

theorem mirrors_obj :
    Mirrors (moqfetchPutAll s o (moqfetchPutByKind .obj).tail)
      (moqfetchSteps s (moqfetchKindSteps .obj) { flags := o.flags }) o
      (46 + (o.props.length + o.payload.length)) := by
  have hfields : Mirrors (moqfetchPutAll s o (moqfetchPutByKind .obj).tail)
      (moqfetchSteps s (moqfetchKindSteps .obj).tail { flags := o.flags }) o _ :=
    Mirrors.cons (mirrors_group h rfl) <| Mirrors.cons (mirrors_subgroup h.subgroup rfl) <|
      Mirrors.cons (mirrors_object h rfl) <| Mirrors.cons (mirrors_priority h rfl) <|
      Mirrors.cons (mirrors_props h rfl) <| Mirrors.cons (mirrors_payload h.payload) mirrors_nil
  refine Mirrors.map (hfields.mono (by omega)) fun b b' hb => ?_
  have hfirst : moqfetchFirstOk s { flags := o.flags } b = .ok ({ flags := o.flags }, b) := by
    rw [moqfetchFirstOk]
    split
    · rfl
    · rename_i hloc
      rw [if_pos (h.first (Bool.eq_false_iff.mpr hloc))]
  rw [moqfetchKindSteps, moqfetchSteps, hfirst, except_ok_bind]
  exact hb

end

end

/-! ## Markers -/

theorem moqfetchEorGroup_delta (h : if s.descending then g ≤ s.group else s.group ≤ g) :
    moqfetchEorGroup s (moqfetchEorGdelta s g) = .ok g := by
  rw [moqfetchEorGroup, moqfetchEorGdelta]
  cases hdesc : s.descending with
  | false =>
    rw [hdesc, if_neg Bool.false_ne_true] at h
    rw [if_pos (by decide), if_neg Bool.false_ne_true]
    exact moqfetchAdd_distance h
  | true =>
    rw [hdesc, if_pos rfl] at h
    have hsub := UInt64.toNat_sub_of_le _ _ h
    have hnat := UInt64.le_iff_toNat_le.mp h
    rw [if_neg (by decide), if_pos rfl, if_neg (by rw [UInt64.lt_iff_toNat_lt]; omega)]
    congr 1
    rw [← UInt64.toNat_inj, toNat_sub_eq (by omega)]
    omega

theorem moqfetchEorGdelta_eq_zero : moqfetchEorGdelta s g = 0 ↔ g = s.group := by
  rw [moqfetchEorGdelta]
  split
  · rw [UInt64.sub_eq_iff_eq_add, UInt64.zero_add, eq_comm]
  · rw [UInt64.sub_eq_iff_eq_add, UInt64.zero_add]

def LocAfter (s : FetchSeq) (l : Loc) : Prop :=
  GroupAfter s l.group ∨ (l.group = s.group ∧ s.object < l.object)

theorem LocAfter.group_le {l : Loc} (h : LocAfter s l) :
    if s.descending then l.group ≤ s.group else s.group ≤ l.group := by
  obtain hafter | ⟨hsame, -⟩ := h
  · rw [GroupAfter] at hafter
    split at hafter
    · rw [if_pos ‹_›]
      exact UInt64.le_of_lt hafter
    · rw [if_neg ‹_›]
      exact UInt64.le_of_lt hafter
  · rw [hsame, ite_self]
    exact UInt64.le_refl _

theorem GroupAfter.ne (h : GroupAfter s g) : g ≠ s.group := by
  rw [GroupAfter] at h
  split at h
  · exact UInt64.ne_of_lt h
  · exact (UInt64.ne_of_lt h).symm

/-- The end of a range lies behind the prior Location, if draft 23 and not first on the stream. -/
structure EorAgrees (s : FetchSeq) (o : FetchObj) : Prop where
  kind : moqfetchKind o.flags s = some .eor
  fields : o = { flags := o.flags, group := o.group, object := o.object }
  after : moqfetchEorRel s = true → LocAfter s ⟨o.group, o.object⟩

/-- The end marker has no fields of its own. -/
structure EndAgrees (s : FetchSeq) (o : FetchObj) : Prop where
  kind : moqfetchKind o.flags s = some .end_
  prior : s.haveLoc = true
  fields : o = { flags := o.flags, group := s.group, object := ~~~0 }

theorem moqfetchEorResolve_deltas (h : EorAgrees s o) :
    moqfetchEorResolve s (moqfetchEorDeltas s o).1 (moqfetchEorDeltas s o).2 =
      .ok (o.group, o.object) := by
  rw [moqfetchEorResolve, moqfetchEorDeltas]
  cases hrel : moqfetchEorRel s with
  | false => rfl
  | true =>
    have hafter := h.after hrel
    rw [if_neg (by decide), if_neg (by decide), moqfetchEorGroup_delta hafter.group_le,
      except_ok_bind, moqfetchEorObject]
    obtain hgroup | ⟨hsame, hobject⟩ := hafter
    · -- another Group: its distance is not zero, and the Object ID is written as it is
      have hne : moqfetchEorGdelta s o.group ≠ 0 := fun hzero =>
        hgroup.ne (moqfetchEorGdelta_eq_zero.mp hzero)
      rw [if_pos hne, if_pos hne, except_ok_bind]
    · have hzero := not_not.mpr (moqfetchEorGdelta_eq_zero.mpr hsame)
      rw [if_neg hzero, if_neg hzero, moqfetchGroupUp_distance hobject, except_ok_bind]

theorem mirrors_eor (h : EorAgrees s o) :
    Mirrors (moqfetchPutAll s o (moqfetchPutByKind .eor).tail)
      (moqfetchSteps s (moqfetchKindSteps .eor) { flags := o.flags }) o 18 := by
  have hpair : Mirrors (moqfetchPutEor s o) (moqfetchTakeEor s { flags := o.flags }) o (9 + 9) := by
    have hsecond : Mirrors (putVi (moqfetchEorDeltas s o).2) (fun b => do
        let (od, b) ← takeVi b
        let (g, i) ← moqfetchEorResolve s (moqfetchEorDeltas s o).1 od
        .ok (({ flags := o.flags, group := g, object := i } : FetchObj), b)) o 9 := by
      apply (mirrors_vi _).map
      intro b b' hb
      dsimp only
      rw [hb, except_ok_bind]
      dsimp only
      rw [moqfetchEorResolve_deltas h, except_ok_bind]
      exact congrArg (fun o => Except.ok (o, b')) h.fields.symm
    apply (mirrors_vi _).andThen hsecond
    intro b b' hb
    rw [moqfetchTakeEor, hb, except_ok_bind]
  exact hpair.cons mirrors_nil

/-! ## Objects -/

/-- Flags and prior Object allow this to be written. -/
inductive Agrees (s : FetchSeq) (o : FetchObj) : FetchKind → Prop
  | obj (h : ObjAgrees s o) : Agrees s o .obj
  | eor (h : EorAgrees s o) : Agrees s o .eor
  | end_ (h : EndAgrees s o) : Agrees s o .end_

section

variable {s : FetchSeq} {o : FetchObj} {kind : FetchKind}

theorem Agrees.kind_eq (h : Agrees s o kind) : moqfetchKind o.flags s = some kind := by
  cases h with
  | obj h => rw [moqfetchKind, if_pos h.flags]
  | eor h => exact h.kind
  | end_ h => exact h.kind

theorem moqfetchObjTake_of_flags {b b' : List UInt8} (hkind : moqfetchKind o.flags s = some kind)
    (hb : takeVi b = .ok (o.flags, b')) :
    moqfetchObjTake s b = moqfetchRun kind s { flags := o.flags } b' := by
  rw [moqfetchObjTake, hb, except_ok_bind]
  dsimp only
  rw [hkind]

theorem Mirrors.noted {p : Put} {w : FetchObj} {n : Nat}
    (h : Mirrors p (moqfetchSteps s (moqfetchKindSteps kind) w) o n) :
    Mirrors p (moqfetchRun kind s w) (o, moqfetchNote kind s o) n := by
  apply h.map
  intro b b' hb
  rw [moqfetchRun, hb, except_ok_bind]

theorem mirrors_end (h : EndAgrees s o) :
    Mirrors (moqfetchPutAll s o (moqfetchPutByKind .end_)) (moqfetchObjTake s)
      (o, moqfetchNote .end_ s o) 9 := by
  have hnone : Mirrors (moqfetchPutEnd s o) (fun b => .ok ((), b)) () 0 := by
    have hprior : moqfetchPutEnd s o = putNone := by
      funext cap out
      rw [moqfetchPutEnd, h.prior, putNone]
    rw [hprior]
    exact Mirrors.none fun _ => rfl
  have hsteps : Mirrors (moqfetchPutAll s o [])
      (moqfetchSteps s (moqfetchKindSteps .end_) { flags := o.flags }) o 0 := by
    apply Mirrors.none
    intro b
    rw [moqfetchKindSteps, moqfetchSteps, moqfetchTakeEnd, h.prior, if_neg (by decide),
      except_ok_bind]
    exact congrArg (fun o => Except.ok (o, b)) h.fields.symm
  have hflags : Mirrors (moqfetchPutAll s o [moqfetchPutFlags]) (moqfetchObjTake s)
      (o, moqfetchNote .end_ s o) (9 + 0) :=
    (mirrors_vi o.flags).andThen hsteps.noted fun _ _ => moqfetchObjTake_of_flags h.kind
  apply (hnone.andThen hflags ?_).mono le_rfl
  intro b b' hb
  cases hb
  rfl

theorem Agrees.mirrors (h : Agrees s o kind) :
    Mirrors (moqfetchPutAll s o (moqfetchPutByKind kind)) (moqfetchObjTake s)
      (o, moqfetchNote kind s o) (55 + (o.props.length + o.payload.length)) := by
  have hkind := h.kind_eq
  cases h with
  | obj h =>
    apply ((mirrors_vi o.flags).andThen (mirrors_obj h).noted ?_).mono (by omega)
    exact fun _ _ => moqfetchObjTake_of_flags hkind
  | eor h =>
    apply ((mirrors_vi o.flags).andThen (mirrors_eor h).noted ?_).mono (by omega)
    exact fun _ _ => moqfetchObjTake_of_flags hkind
  | end_ h => exact (mirrors_end h).mono (by omega)

/-- An Object that agrees with the prior one is written if there is room, with at most 55 bytes
beside its Properties and its payload. It is read back as it was, whatever follows, and the prior
Object is then the same on both sides. -/
theorem moqfetchObjPut_take (h : Agrees s o kind) :
    ∃ e : List UInt8, e.length ≤ 55 + (o.props.length + o.payload.length) ∧
      (∀ cap out, out.length + e.length ≤ cap →
        moqfetchObjPut cap out s o = (out ++ e, some (moqfetchNote kind s o))) ∧
      ∀ rest, moqfetchObjTake s (e ++ rest) = .ok ((o, moqfetchNote kind s o), rest) := by
  obtain ⟨e, hlen, hput, htake⟩ := h.mirrors
  refine ⟨e, hlen, ?_, htake⟩
  intro cap out hroom
  rw [moqfetchObjPut, h.kind_eq]
  dsimp only
  rw [hput cap out hroom, if_pos rfl]

end

end Wired.Moqt
