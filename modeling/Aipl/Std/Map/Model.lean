import Aipl.Std.Alloc
import Mathlib.Data.Quot

/-! # The hash map of `std/map`, as its source computes it

Open addressing with linear probing and tombstones; the table grows at three quarters full.  A
state word per slot says 0 empty, 1 used, 2 deleted.  Each function below is the source's own,
with what it stores in the map returned as the map after it.

`grow` reinserts with `set`, which may itself have to `grow`: the recursion is bounded by a depth,
and a claim that would have to grow deeper than its depth runs out of fuel.  A probe makes at most
one round for each slot before it runs out.
-/

namespace Aipl.StdMap

open Aipl.Lib Aipl.Lib.Outcome Aipl.Std

/-- An implementation of `(cmp.Hash K)` that keeps its interface's promise: `same` is an
equivalence, and keys that are equal hash alike. -/
structure Hash (K : Type) where
  hash : K → BitVec 32
  same : K → K → Bool
  same_refl : ∀ a, same a a = true
  same_symm : ∀ a b, same a b = true → same b a = true
  same_trans : ∀ a b c, same a b = true → same b c = true → same a c = true
  hash_eq : ∀ a b, same a b = true → hash a = hash b

/-- What the generic functions take: the key's hash, the two element types, the allocator's
functions, and the size of a `Map` object. -/
structure Params (K V σ : Type) where
  key : Hash K
  keyType : ElemType K
  valType : ElemType V
  allocator : Allocator σ
  mapSize : BitVec 32

/-- `Map`: the three arrays, the entries, the slots ever used since the last rehash, and the
allocator. -/
structure Map (K V σ : Type) where
  keys : List K
  vals : List V
  states : List (BitVec 32)
  count : BitVec 32
  used : BitVec 32
  allocator : σ
deriving DecidableEq, Repr

variable {K V σ : Type} (P : Params K V σ)

def allocSlots (m : Map K V σ) (cap : BitVec 32) : Outcome (Map K V σ) := do
  let (keys, a) ← array P.allocator P.keyType m.allocator cap
  let (vals, a) ← array P.allocator P.valType a cap
  let (states, a) ← array P.allocator i32 a cap
  pure { keys := keys, vals := vals, states := states, count := 0#32, used := 0#32,
         allocator := a }

/-- `make`'s loop: `(while (lt cap capacity) (set! cap (* cap 2)))`. -/
def makeCap (capacity : BitVec 32) : Nat → BitVec 32 → Outcome (BitVec 32)
  | 0, _ => outOfFuel
  | fuel + 1, cap => if cap.slt capacity then makeCap capacity fuel (cap * 2#32) else done cap

def make (fuel : Nat) (a : σ) (capacity : BitVec 32) : Outcome (Map K V σ) := do
  let cap ← makeCap capacity fuel 8#32
  let a ← create P.allocator a P.mapSize
  allocSlots P { keys := [], vals := [], states := [], count := 0#32, used := 0#32,
                 allocator := a } cap

def freeSlots (a : σ) (keys : List K) (vals : List V) (states : List (BitVec 32)) :
    Outcome σ := do
  let a ← freeArray P.allocator P.keyType a keys
  let a ← freeArray P.allocator P.valType a vals
  freeArray P.allocator i32 a states

def capacity (m : Map K V σ) : BitVec 32 := arrLen m.keys

def count (m : Map K V σ) : BitVec 32 := m.count

/-- `slot_for`'s loop, from slot `i` and the first tombstone so far (-1 for none). -/
def slotForLoop (m : Map K V σ) (k : K) (mask : BitVec 32) :
    Nat → BitVec 32 → BitVec 32 → Outcome (BitVec 32)
  | 0, _, _ => outOfFuel
  | fuel + 1, i, tomb => do
    let st ← arrGet m.states i
    if st = 0#32 then
      pure (if tomb ≠ -1#32 then tomb else i)
    else if st = 1#32 then
      let key ← arrGet m.keys i
      if P.key.same key k then pure i
      else slotForLoop m k mask fuel ((i + 1#32) &&& mask) tomb
    else if tomb = -1#32 then
      slotForLoop m k mask fuel ((i + 1#32) &&& mask) i
    else
      slotForLoop m k mask fuel ((i + 1#32) &&& mask) tomb

def slotFor (m : Map K V σ) (k : K) : Outcome (BitVec 32) :=
  let mask := capacity m - 1#32
  slotForLoop P m k mask m.states.length (P.key.hash k &&& mask) (-1#32)

/-- `grow`, which reinserts every entry with `set`. -/
def grow (set : Map K V σ → K → V → Outcome (Map K V σ)) (m : Map K V σ) :
    Outcome (Map K V σ) := do
  let oldKeys := m.keys
  let oldVals := m.vals
  let oldStates := m.states
  let oldCap := arrLen oldKeys
  let m ← allocSlots P m (if oldCap.slt (2#32 * m.count) then 2#32 * oldCap else oldCap)
  let m ← forLoop (oldKeys.length + 1) 0#32 oldCap (fun i m => do
    let st ← arrGet oldStates i
    if st = 1#32 then
      let k ← arrGet oldKeys i
      let v ← arrGet oldVals i
      set m k v
    else pure m) m
  let a ← freeSlots P m.allocator oldKeys oldVals oldStates
  pure { m with allocator := a }

/-- The rest of `claim`, once the table has room. -/
def claimSlot (m : Map K V σ) (k : K) (fresh : V) : Outcome (Map K V σ × BitVec 32) := do
  let i ← slotFor P m k
  let st ← arrGet m.states i
  if st ≠ 1#32 then
    let used := if st = 0#32 then m.used + 1#32 else m.used
    let states ← arrSet m.states i 1#32
    let keys ← arrSet m.keys i k
    let vals ← arrSet m.vals i fresh
    pure ({ m with states := states, keys := keys, vals := vals, used := used,
                   count := m.count + 1#32 }, i)
  else
    pure (m, i)

/-- `claim`, given the `grow` it calls. -/
def claimWith (grow : Map K V σ → Outcome (Map K V σ)) (m : Map K V σ) (k : K) (fresh : V) :
    Outcome (Map K V σ × BitVec 32) := do
  let m ← if (3#32 * capacity m).sle (4#32 * (m.used + 1#32)) then grow m else pure m
  claimSlot P m k fresh

/-- `set`, given the `claim` it calls. -/
def setWith (claim : Map K V σ → K → V → Outcome (Map K V σ × BitVec 32)) (m : Map K V σ) (k : K)
    (v : V) : Outcome (Map K V σ) := do
  let (m, i) ← claim m k v
  let vals ← arrSet m.vals i v
  pure { m with vals := vals }

/-- `claim`, with at most `depth` calls of `grow` under way at once. -/
def claimAt : Nat → Map K V σ → K → V → Outcome (Map K V σ × BitVec 32)
  | 0 => claimWith P fun _ => outOfFuel
  | depth + 1 => claimWith P (grow P (setWith (claimAt depth)))

/-- `claim` with one `grow` under way at most, so that a reinsertion may not grow again. -/
def claim : Map K V σ → K → V → Outcome (Map K V σ × BitVec 32) := claimAt P 1

def set (m : Map K V σ) (k : K) (v : V) : Outcome (Map K V σ) := setWith (claim P) m k v

def add (P : Params K (BitVec 32) σ) (m : Map K (BitVec 32) σ) (k : K) (d : BitVec 32) :
    Outcome (Map K (BitVec 32) σ × BitVec 32) := do
  let (m, i) ← claim P m k 0#32
  let old ← arrGet m.vals i
  let v := old + d
  let vals ← arrSet m.vals i v
  pure ({ m with vals := vals }, v)

def getOr (m : Map K V σ) (k : K) (default : V) : Outcome V := do
  let i ← slotFor P m k
  let st ← arrGet m.states i
  if st = 1#32 then arrGet m.vals i else pure default

def find (m : Map K V σ) (k : K) : Outcome (Option V) := do
  let i ← slotFor P m k
  let st ← arrGet m.states i
  if st = 1#32 then
    let v ← arrGet m.vals i
    pure (some v)
  else pure none

def has (m : Map K V σ) (k : K) : Outcome Bool := do
  let i ← slotFor P m k
  let st ← arrGet m.states i
  pure (decide (st = 1#32))

def remove (m : Map K V σ) (k : K) : Outcome (Map K V σ × Bool) := do
  let i ← slotFor P m k
  let st ← arrGet m.states i
  if st ≠ 1#32 then pure (m, false)
  else
    let states ← arrSet m.states i 2#32
    pure ({ m with states := states, count := m.count - 1#32 }, true)

end Aipl.StdMap
