import CThread.Hash.Flags
import Mathlib.Algebra.Group.Nat.Defs

/-!
The hash table of `khash.h`, as `KHASH_INIT` makes it for a map.

The table has open addressing: a search starts at the bucket of the hash and takes growing
steps, and `kh_resize` rehashes in place, where an element that is in the way is kicked out and
moved next. `khint_t` has 32 bits. Allocations succeed, as `xmalloc` aborts otherwise, so
that nothing here returns -1; an access beyond what is allocated is a fault, and so is a loop
that runs out of fuel. What freshly allocated memory holds is left open.
-/
namespace CThread.Hash
open Faults

/-- `kh_##name##_t`. `cap` is the number of keys and values that are allocated. -/
structure Khash (κ υ : Type) where
  nBuckets : Nat
  size : Nat
  nOccupied : Nat
  upperBound : Nat
  flags : KhFlags
  keys : Nat → κ
  vals : Nat → υ
  cap : Nat

/-- `--x`, the shifts, and `++x`. -/
def kroundup32 (x : BitVec 32) : BitVec 32 :=
  let x := x - 1
  let x := x ||| x >>> 1
  let x := x ||| x >>> 2
  let x := x ||| x >>> 4
  let x := x ||| x >>> 8
  let x := x ||| x >>> 16
  x + 1

/-- The number of buckets that a request is rounded up to. -/
def roundedBuckets (newNBuckets : Nat) : Nat :=
  let n := (kroundup32 (.ofNat 32 newNBuckets)).toNat
  if n < 4 then 4 else n

/-- `__ac_HASH_UPPER`: the `double` nearest to 0.77 is this many times `2 ^ -53`. -/
def acHashUpper : Nat := 6935543426150564

/-- `(khint_t)(n * __ac_HASH_UPPER + 0.5)`. For a power of two below `2 ^ 32` the product and
the sum are exact. -/
def acUpperBound (n : Nat) : Nat := (n * acHashUpper + 2 ^ 52) / 2 ^ 53

/-- `(i + step) & mask`. -/
def nextBucket (mask i step : Nat) : Nat := (i + step) % 2 ^ 32 &&& mask

/-- The first bucket from `i` on that the new flags have empty. -/
def emptyFrom (flags : KhFlags) (mask : Nat) : Nat → Nat → Nat → Except KhFault Nat
  | 0, _, _ => .error .diverges
  | fuel + 1, i, step => do
      if ← acIsempty flags i then return i
      else emptyFrom flags mask fuel (nextBucket mask i (step + 1)) (step + 1)

variable {κ υ : Type}

namespace Khash

/-- `kh_init`. -/
def init (keys : Nat → κ) (vals : Nat → υ) : Khash κ υ :=
  ⟨0, 0, 0, 0, ⟨fun _ => 0, 0⟩, keys, vals, 0⟩

def readKey (h : Khash κ υ) (i : Nat) : Except KhFault κ :=
  if i < h.cap then .ok (h.keys i) else .error .outOfBounds

/-- `kh_val`. -/
def khVal (h : Khash κ υ) (i : Nat) : Except KhFault υ :=
  if i < h.cap then .ok (h.vals i) else .error .outOfBounds

def writeKey (h : Khash κ υ) (i : Nat) (k : κ) : Except KhFault (Khash κ υ) :=
  if i < h.cap then .ok { h with keys := Function.update h.keys i k }
  else .error .outOfBounds

/-- `kh_val(h, i) = v`. -/
def writeVal (h : Khash κ υ) (i : Nat) (v : υ) : Except KhFault (Khash κ υ) :=
  if i < h.cap then .ok { h with vals := Function.update h.vals i v }
  else .error .outOfBounds

/-- `kh_exist`. -/
def khExist (h : Khash κ υ) (i : Nat) : Except KhFault Bool := do
  let either ← acIseither h.flags i
  return !either

def khEnd (h : Khash κ υ) : Nat := h.nBuckets

/-- `kh_clear`. Without buckets there are no flags yet. -/
def khClear (h : Khash κ υ) : Except KhFault (Khash κ υ) :=
  if h.flags.len = 0 then .ok h
  else do
    let flags ← h.flags.fill (acFsize h.nBuckets)
    return { h with flags := flags, size := 0, nOccupied := 0 }

def khDel (h : Khash κ υ) (x : Nat) : Except KhFault (Khash κ υ) :=
  if x = h.nBuckets then .ok h
  else do
    let either ← acIseither h.flags x
    if either then return h
    else do
      let flags ← acSetIsdelTrue h.flags x
      return { h with flags := flags, size := h.size - 1 }

/-- The loop of `kh_foreach`, of which `rest` buckets are left from `i` on. -/
def foreachFrom (h : Khash κ υ) : Nat → Nat → Except KhFault (List (κ × υ))
  | 0, _ => .ok []
  | rest + 1, i => do
      if ← h.khExist i then
        let key ← h.readKey i
        let val ← h.khVal i
        let later ← foreachFrom h rest (i + 1)
        return (key, val) :: later
      else foreachFrom h rest (i + 1)

/-- What `kh_foreach` runs its block for. -/
def khForeach (h : Khash κ υ) : Except KhFault (List (κ × υ)) :=
  h.foreachFrom h.nBuckets 0

variable [DecidableEq κ] (hash : κ → BitVec 32)

/-- The condition under which a search goes on: the bucket is not empty, and it is deleted or
has another key. -/
def passes (h : Khash κ υ) (key : κ) (i : Nat) : Except KhFault Bool := do
  let empty ← acIsempty h.flags i
  if empty then return false
  else do
    let del ← acIsdel h.flags i
    if del then return true
    else do
      let k ← h.readKey i
      return k ≠ key

/-- The loop of `kh_get`. -/
def khGetLoop (h : Khash κ υ) (key : κ) (last : Nat) :
    Nat → Nat → Nat → Except KhFault Nat
  | 0, _, _ => .error .diverges
  | fuel + 1, i, step => do
      if ← h.passes key i then
        let step := step + 1
        let i := nextBucket (h.nBuckets - 1) i step
        if i = last then return h.nBuckets
        else khGetLoop h key last fuel i step
      else do
        let either ← acIseither h.flags i
        return if either then h.nBuckets else i

def khGet (h : Khash κ υ) (key : κ) : Except KhFault Nat :=
  if h.nBuckets = 0 then .ok 0
  else
    let i := (hash key).toNat &&& h.nBuckets - 1
    h.khGetLoop key i (2 * h.nBuckets) i 0

/-- Whether a bucket of the new table has an element of the old one that is still to be
moved. -/
def inTheWay (h : Khash κ υ) (i : Nat) : Except KhFault Bool :=
  if i < h.nBuckets then h.khExist i else .ok false

/-- The kick-out process for one element. -/
def kickOut (newNBuckets : Nat) : Nat → Khash κ υ → KhFlags → κ → υ →
    Except KhFault (Khash κ υ × KhFlags)
  | 0, _, _, _, _ => .error .diverges
  | fuel + 1, h, newFlags, key, val => do
      let mask := newNBuckets - 1
      let i ← emptyFrom newFlags mask (2 * newNBuckets) ((hash key).toNat &&& mask) 0
      let newFlags ← acSetIsemptyFalse newFlags i
      if ← h.inTheWay i then
        let key' ← h.readKey i
        let h ← h.writeKey i key
        let val' ← h.khVal i
        let h ← h.writeVal i val
        let flags ← acSetIsdelTrue h.flags i
        kickOut newNBuckets fuel { h with flags := flags } newFlags key' val'
      else do
        let h ← h.writeKey i key
        let h ← h.writeVal i val
        return (h, newFlags)

/-- The loop over the old buckets, of which `rest` are left from `j` on. -/
def rehashFrom (newNBuckets : Nat) : Nat → Nat → Khash κ υ → KhFlags →
    Except KhFault (Khash κ υ × KhFlags)
  | 0, _, h, newFlags => .ok (h, newFlags)
  | rest + 1, j, h, newFlags => do
      if ← h.khExist j then
        let key ← h.readKey j
        let val ← h.khVal j
        let flags ← acSetIsdelTrue h.flags j
        let (h, newFlags) ← kickOut hash newNBuckets (h.nBuckets + 1)
          { h with flags := flags } newFlags key val
        rehashFrom newNBuckets rest (j + 1) h newFlags
      else rehashFrom newNBuckets rest (j + 1) h newFlags

/-- `krealloc` of the keys and the values to `n` elements keeps those that fit. -/
def reallocated (h : Khash κ υ) (n : Nat) : Khash κ υ := { h with cap := n }

def khResize (h : Khash κ υ) (newNBuckets : Nat) : Except KhFault (Khash κ υ) :=
  let n := roundedBuckets newNBuckets
  if h.size ≥ acUpperBound n then .ok h
  else do
    let h := if h.nBuckets < n then h.reallocated n else h
    let (h, newFlags) ← rehashFrom hash n h.nBuckets 0 h (.filled (acFsize n))
    let h := if h.nBuckets > n then h.reallocated n else h
    return { h with
      flags := newFlags, nBuckets := n, nOccupied := h.size, upperBound := acUpperBound n }

/-- The resizing at the start of `kh_put`. `h->size << 1` loses the bit at 2^32. -/
def khReserve (h : Khash κ υ) : Except KhFault (Khash κ υ) :=
  if h.nOccupied ≥ h.upperBound then
    if h.nBuckets > (h.size <<< 1) % 2 ^ 32 then h.khResize hash (h.nBuckets - 1)
    else h.khResize hash (h.nBuckets + 1)
  else .ok h

/-- The search of `kh_put`. `site` is the deleted bucket that was passed last. -/
def khPutLoop (h : Khash κ υ) (key : κ) (last : Nat) :
    Nat → Nat → Nat → Nat → Except KhFault Nat
  | 0, _, _, _ => .error .diverges
  | fuel + 1, i, step, site => do
      if ← h.passes key i then
        let del ← acIsdel h.flags i
        let site := if del then i else site
        let step := step + 1
        let i := nextBucket (h.nBuckets - 1) i step
        if i = last then
          -- The loop has come full circle: `x` is `site`, and the last bucket if there is none.
          return if site = h.nBuckets then i else site
        else khPutLoop h key last fuel i step site
      else do
        let empty ← acIsempty h.flags i
        return if empty ∧ site ≠ h.nBuckets then site else i

/-- The bucket for a key. -/
def khSite (h : Khash κ υ) (key : κ) : Except KhFault Nat := do
  let i := (hash key).toNat &&& h.nBuckets - 1
  if ← acIsempty h.flags i then return i
  else h.khPutLoop key i (2 * h.nBuckets) i 0 h.nBuckets

/-- What `kh_put` does at the bucket it has found. The second part of the result is `*ret`. -/
def khOccupy (h : Khash κ υ) (key : κ) (x : Nat) : Except KhFault (Khash κ υ × Nat) := do
  if ← acIsempty h.flags x then
    let h ← h.writeKey x key
    let flags ← acSetIsbothFalse h.flags x
    return ({ h with flags := flags, size := h.size + 1, nOccupied := h.nOccupied + 1 }, 1)
  else if ← acIsdel h.flags x then
    let h ← h.writeKey x key
    let flags ← acSetIsbothFalse h.flags x
    return ({ h with flags := flags, size := h.size + 1 }, 2)
  else return (h, 0)

/-- The table, the bucket and `*ret`. -/
def khPut (h : Khash κ υ) (key : κ) : Except KhFault (Khash κ υ × Nat × Nat) := do
  let h ← h.khReserve hash
  let x ← h.khSite hash key
  let (h, ret) ← h.khOccupy key x
  return (h, x, ret)

end Khash

end CThread.Hash
