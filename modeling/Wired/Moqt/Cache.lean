import Wired.Moqt.Location
import Mathlib.Algebra.GroupWithZero.Nat
import Mathlib.Algebra.BigOperators.Group.List.Basic

/-!
# The object cache

`moqcache*.c`: the Objects of all tracks in one arena, packed in the order in which they arrived. A
Group that was given up is a tombstone, a record without a payload that stands for all of its
Locations. Room is made by dropping Groups from the front; a Group that can still grow becomes a
tombstone instead, as does one that expires, and tombstones go to the end of the arena.

An offset into the arena is the number of records before it; `used` is the end of the list.
-/

namespace Wired.Moqt

/-- `moqcache_rec` and its payload; a tombstone (`MOQCACHE_DEAD`) has none. -/
structure CacheRec where
  tag : UInt64
  group : UInt64
  object : UInt64
  payload : Option (List UInt8)
  exp : UInt64
deriving DecidableEq, Repr

/-- The arena, the resume point of the last lookup, and the clock. -/
structure Moqcache where
  recs : List CacheRec
  cap : Nat
  hintOff : Nat
  hintTag : UInt64
  hintCur : Loc
  now : UInt64
  nextExp : UInt64
deriving DecidableEq, Repr

def moqcacheHdr : Nat := 40

def moqcacheInit (cap : Nat) : Moqcache :=
  { recs := [], cap := cap, hintOff := 0, hintTag := 0, hintCur := ⟨0, 0⟩, now := 0,
    nextExp := ~~~0 }

def moqcacheDead (r : CacheRec) : Bool := r.payload.isNone

def moqcacheRecSize (r : CacheRec) : Nat := moqcacheHdr + (r.payload.getD []).length

def Moqcache.used (c : Moqcache) : Nat := (c.recs.map moqcacheRecSize).sum

/-- The record is of the tag's Group, or of any Group of the tag. -/
def moqcacheHit (tag group : UInt64) (any : Bool) (r : CacheRec) : Bool :=
  r.tag = tag && (any || r.group = group)

def moqcacheDrop (c : Moqcache) (tag group : UInt64) (any : Bool) : Moqcache :=
  { c with recs := c.recs.filter fun r => !moqcacheHit tag group any r, hintOff := 0 }

def moqcacheRelease (c : Moqcache) (tag : UInt64) : Moqcache := moqcacheDrop c tag 0 true

def moqcacheWrite (c : Moqcache) (r : CacheRec) : Moqcache := { c with recs := c.recs ++ [r] }

def moqcacheTomb (tag group : UInt64) : CacheRec :=
  { tag := tag, group := group, object := 0, payload := none, exp := ~~~0 }

def moqcacheEntomb (c : Moqcache) (tag group : UInt64) : Moqcache :=
  moqcacheWrite (moqcacheDrop c tag group false) (moqcacheTomb tag group)

/-! ## Making room -/

def moqcacheLater (r v : CacheRec) : Bool := r.tag = v.tag && v.group < r.group

/-- The newest Group of its track that is held: more of it may arrive. -/
def moqcacheOpen (c : Moqcache) (v : CacheRec) : Bool := c.recs.all fun r => !moqcacheLater r v

def moqcacheStaysOpen (c : Moqcache) (v : CacheRec) (tag group : UInt64) : Bool :=
  !(v.tag = tag && v.group < group) && moqcacheOpen c v

def moqcacheVictim (c : Moqcache) (tag group : UInt64) (r : CacheRec) : Bool :=
  !moqcacheHit tag group false r && !(moqcacheDead r && moqcacheStaysOpen c r tag group)

def moqcacheFirstVictim (c : Moqcache) (tag group : UInt64) : Option CacheRec :=
  c.recs.find? (moqcacheVictim c tag group)

def moqcacheEvictOne (c : Moqcache) (tag group : UInt64) : Option Moqcache :=
  (moqcacheFirstVictim c tag group).map fun r =>
    if moqcacheStaysOpen c r tag group then moqcacheEntomb c r.tag r.group
    else moqcacheDrop c r.tag r.group false

def moqcacheMakeRoomFuel (tag group : UInt64) (need : Nat) : Nat → Moqcache → Moqcache
  | 0, c => c
  | fuel + 1, c =>
    if c.used + need > c.cap then
      match moqcacheEvictOne c tag group with
      | none => c
      | some c => moqcacheMakeRoomFuel tag group need fuel c
    else c

/-- Each round takes a record away, or a payload. -/
def moqcacheMakeRoom (c : Moqcache) (r : CacheRec) (need : Nat) : Moqcache :=
  moqcacheMakeRoomFuel r.tag r.group need (2 * c.recs.length) c

/-- The cache then, and whether the record was written. -/
def moqcachePut (c : Moqcache) (r : CacheRec) : Moqcache × Bool :=
  let need := moqcacheRecSize r
  if need > c.cap then (c, false)
  else
    let c := moqcacheMakeRoom c r need
    if c.used + need > c.cap then (c, false) else (moqcacheWrite c r, true)

def moqcacheGroupBytes (c : Moqcache) (tag group : UInt64) : Nat × Bool :=
  let held := c.recs.filter (moqcacheHit tag group false)
  ((held.map moqcacheRecSize).sum, held.any moqcacheDead)

def moqcacheKill (c : Moqcache) (tag group : UInt64) : Moqcache :=
  (moqcachePut (moqcacheDrop c tag group false) (moqcacheTomb tag group)).1

def moqcacheTooBig (groupBytes n cap : Nat) : Bool :=
  n > moqcacheObjMax || groupBytes + moqcacheHdr + n > cap

def moqcacheStore (c : Moqcache) (r : CacheRec) (payload : List UInt8) (held : Nat) :
    Moqcache × Bool :=
  if moqcacheTooBig held payload.length c.cap then (c, false) else moqcachePut c r

def u64Min (a b : UInt64) : UInt64 := if a < b then a else b

def moqcacheAppendExp (c : Moqcache) (tag : UInt64) (loc : Loc) (payload : List UInt8)
    (exp : UInt64) : Moqcache :=
  let held := moqcacheGroupBytes c tag loc.group
  let r : CacheRec :=
    { tag := tag, group := loc.group, object := loc.object, payload := some payload, exp := exp }
  if held.2 then c
  else
    let stored := moqcacheStore c r payload held.1
    if stored.2 then { stored.1 with nextExp := u64Min stored.1.nextExp exp }
    else moqcacheKill stored.1 tag loc.group

/-! ## Expiry -/

def moqcacheExpired (now : UInt64) (r : CacheRec) : Bool := !moqcacheDead r && r.exp ≤ now

def moqcacheMinExp (c : Moqcache) : UInt64 := c.recs.foldl (fun m r => u64Min m r.exp) (~~~0)

/-- The loop of `moqcache_expire`. Each round takes a record away that has expired. -/
def moqcacheExpireFuel : Nat → Moqcache → Moqcache
  | 0, c => c
  | fuel + 1, c =>
    match c.recs.find? (moqcacheExpired c.now) with
    | none => c
    | some r => moqcacheExpireFuel fuel (moqcacheEntomb c r.tag r.group)

/-- Expired Groups become tombstones, once something has expired. -/
def moqcacheExpire (c : Moqcache) : Moqcache :=
  if c.now < c.nextExp then c
  else
    let c := moqcacheExpireFuel c.recs.length c
    { c with nextExp := moqcacheMinExp c }

/-! ## Lookups -/

def moqcacheRecFirst (r : CacheRec) : Loc := ⟨r.group, if moqcacheDead r then 0 else r.object⟩

def moqcacheRecLast (r : CacheRec) : Loc :=
  ⟨r.group, if moqcacheDead r then moqcacheObjIdMax else r.object⟩

def moqcacheAtOrAfter (tag : UInt64) (cur : Loc) (r : CacheRec) : Bool :=
  r.tag = tag && !moqctlLocLess (moqcacheRecLast r) cur

/-- The first record from `off` on that reaches `cur`, else the end. -/
def moqcacheScan (c : Moqcache) (off : Nat) (tag : UInt64) (cur : Loc) : Nat :=
  off + (c.recs.drop off).findIdx (moqcacheAtOrAfter tag cur)

def moqcacheResumes (c : Moqcache) (tag : UInt64) (cur : Loc) : Bool :=
  c.hintTag = tag && !moqctlLocLess cur c.hintCur

def moqcacheFind (c : Moqcache) (tag : UInt64) (cur : Loc) : Moqcache × Nat :=
  let c := moqcacheExpire c
  let off := moqcacheScan c (if moqcacheResumes c tag cur then c.hintOff else 0) tag cur
  ({ c with hintOff := off, hintTag := tag, hintCur := cur }, off)

def moqcacheCovered (c : Moqcache) (tag : UInt64) (cur : Loc) : Bool :=
  match c.recs[moqcacheScan c 0 tag ⟨0, 0⟩]? with
  | none => false
  | some r => r.group ≤ cur.group

def moqcacheHolds (c : Moqcache) (off : Nat) (cur : Loc) : Bool :=
  match c.recs[off]? with
  | none => false
  | some r => !moqctlLocLess cur (moqcacheRecFirst r)

def moqcacheGapEnd (c : Moqcache) (off : Nat) (end_ : Loc) : Loc :=
  match c.recs[off]? with
  | none => end_
  | some r => moqctlLocMin (moqcacheRecFirst r) end_

def moqcacheSkip (c : Moqcache) (tag : UInt64) (cur end_ : Loc) : Moqcache × Loc :=
  let (c, off) := moqcacheFind c tag cur
  (c, if moqcacheHolds c off cur || !moqcacheCovered c tag cur then cur
    else moqcacheGapEnd c off end_)

def moqcacheIsObj (r : CacheRec) (cur : Loc) : Bool :=
  !moqcacheDead r && r.group = cur.group && r.object = cur.object

def moqcacheUnknownStop (c : Moqcache) (off : Nat) (cur end_ : Loc) : Loc :=
  let stop :=
    match c.recs[off]? with
    | none => end_
    | some r => ⟨r.group + if moqcacheDead r then 1 else 0, 0⟩
  let stop := if !moqctlLocLess cur stop then ⟨cur.group, cur.object + 1⟩ else stop
  moqctlLocMin stop end_

def moqcacheUnknown (c : Moqcache) (off : Nat) (cur end_ : Loc) : MoqcacheItem :=
  let next := moqcacheUnknownStop c off cur end_
  { unknown := true, loc := moqctlLocPrev next, payload := [], next := next }

def moqcacheItemAt (c : Moqcache) (tag : UInt64) (cur end_ : Loc) : Moqcache × MoqcacheItem :=
  let (c, off) := moqcacheFind c tag cur
  (c,
    match c.recs[off]? with
    | none => moqcacheUnknown c off cur end_
    | some r =>
      if moqcacheIsObj r cur then
        { unknown := false, loc := cur, payload := r.payload.getD [],
          next := ⟨cur.group, cur.object + 1⟩ }
      else moqcacheUnknown c off cur end_)

/-- The loop over a range, as in `moqtrun_upf_gap`: where each item was asked for, and the item. -/
def moqcacheWalkFuel (tag : UInt64) (end_ : Loc) : Nat → Moqcache → Loc → List (Loc × MoqcacheItem)
  | 0, _, _ => []
  | fuel + 1, c, start =>
    let (c, cur) := moqcacheSkip c tag start end_
    if !moqctlLocLess cur end_ then []
    else
      let (c, it) := moqcacheItemAt c tag cur end_
      (cur, it) :: moqcacheWalkFuel tag end_ fuel c it.next

/-- Each round gets at least one Location further. -/
def moqcacheWalk (c : Moqcache) (tag : UInt64) (start end_ : Loc) : List (Loc × MoqcacheItem) :=
  moqcacheWalkFuel tag end_ (end_.pos - start.pos) c start

end Wired.Moqt
