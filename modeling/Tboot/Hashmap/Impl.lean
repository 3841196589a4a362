import Tboot.Util.Buckets
import Tboot.Util.CString
import Tboot.Util.Word

/-!
This module contains `hashmap.c`: a table of chains that doubles when it is three quarters full. The tables of
tboot's configuration and of the commands that plugins register are such maps.
-/

/--
The functions that a map is created with. A key is a pointer; `content` is what the two functions see of it.
-/
structure Hashmap.Keys (κ χ : Type) where
  hash : κ → UInt32
  equals : κ → κ → Bool
  content : κ → χ
  equals_iff : ∀ a b, equals a b = true ↔ content a = content b
  hash_eq : ∀ a b, content a = content b → hash a = hash b

/-- An entry; its `next` is the rest of the chain. The value is a pointer, which may be null. -/
structure Hashmap.Entry (κ ν : Type) where
  key : κ
  hash : UInt32
  value : Option ν
  deriving DecidableEq, Repr

/-- The lock is left out: nothing in tboot takes it. -/
structure Hashmap {κ χ : Type} (keys : Hashmap.Keys κ χ) (ν : Type) where
  buckets : List (List (Hashmap.Entry κ ν))
  size : Nat

namespace Hashmap

def hashmapHash (key : Bytes) : UInt32 :=
  -- `char` is signed.
  key.foldl (fun h c => h * 31 + (if c < 128 then c.toUInt32 else c.toUInt32 - 256)) (UInt32.ofNat key.length)

def strhash (key : Bytes) : UInt32 :=
  hashmapHash (cstr key)

def strcompare (keyA keyB : Bytes) : Bool :=
  cstr keyA = cstr keyB

def strKeys : Keys Bytes Bytes where
  hash := strhash
  equals := strcompare
  content := cstr
  equals_iff := fun _ _ => decide_eq_true_iff
  hash_eq := fun _ _ h => congrArg hashmapHash h

/-- What the allocations of one call come to: the `malloc` of an entry, and the `calloc` of new buckets -/
structure Memory where
  malloc : Bool
  calloc : Bool
  deriving DecidableEq, Repr

/-- `calloc` of `n` pointers, which fails when they do not fit into the address space -/
def callocPointers (n : Nat) (mem : Memory) : Bool :=
  mem.calloc && n * 4 < 2 ^ 32

def calculateIndex (bucketCount : Nat) (hash : UInt32) : Nat :=
  hash.toNat &&& (bucketCount - 1)

variable {κ χ ν σ : Type} [DecidableEq κ] {keys : Keys κ χ}

def Entry.slot (bucketCount : Nat) (entry : Entry κ ν) : Nat :=
  calculateIndex bucketCount entry.hash

def bucketCount (map : Hashmap keys ν) : Nat :=
  map.buckets.length

def entries (map : Hashmap keys ν) : List (Entry κ ν) :=
  map.buckets.flatten

namespace hashmapCreate

/-- The loop that doubles the number of buckets; `minimum` is less than `2 ^ 31`, so it ends within 32 turns. -/
def go (minimum : Nat) : (turns : Nat) → (bucketCount : Nat) → Nat
  | 0, bucketCount => bucketCount
  | turns + 1, bucketCount =>
    if bucketCount ≤ minimum then go minimum turns (u32 (bucketCount * 2)) else bucketCount

end hashmapCreate

def hashmapCreate (keys : Keys κ χ) (ν : Type) (initialCapacity : Nat) (mem : Memory)
    : Option (Hashmap keys ν) :=
  if !mem.malloc then
    none
  else
    let minimumBucketCount := u32 (initialCapacity * 4) / 3
    let bucketCount := hashmapCreate.go minimumBucketCount 32 1
    if !callocPointers bucketCount mem then
      none
    else
      some ⟨List.replicate bucketCount [], 0⟩

def hashKey (keys : Keys κ χ) (key : κ) : UInt32 :=
  let h := keys.hash key
  let h := h + ~~~(h <<< 9)
  let h := h ^^^ (h >>> 14)
  let h := h + (h <<< 4)
  h ^^^ (h >>> 10)

def hashmapSize (map : Hashmap keys ν) : Nat :=
  map.size

def hashmapCurrentCapacity (map : Hashmap keys ν) : Nat :=
  u32 (map.bucketCount * 3) / 4

def moveOver (map : Hashmap keys ν) (newBucketCount : Nat) : Hashmap keys ν :=
  let push := Buckets.push (Entry.slot newBucketCount)
  let newBuckets := List.replicate newBucketCount []
  { map with buckets := map.buckets.foldl (fun newBuckets chain => chain.foldl push newBuckets) newBuckets }

def expandIfNecessary (map : Hashmap keys ν) (mem : Memory) : Hashmap keys ν :=
  if map.size > u32 (map.bucketCount * 3) / 4 then
    let newBucketCount := u32 (map.bucketCount * 2)
    if !callocPointers newBucketCount mem then
      map
    else
      map.moveOver newBucketCount
  else
    map

def equalKeys (keys : Keys κ χ) (keyA : κ) (hashA : UInt32) (keyB : κ) (hashB : UInt32) : Bool :=
  if keyA = keyB then
    true
  else if hashA ≠ hashB then
    false
  else
    keys.equals keyA keyB

def isEntry (keys : Keys κ χ) (key : κ) (entry : Entry κ ν) : Bool :=
  equalKeys keys entry.key entry.hash key (hashKey keys key)

def indexOf (map : Hashmap keys ν) (key : κ) : Nat :=
  calculateIndex map.bucketCount (hashKey keys key)

def chain (map : Hashmap keys ν) (key : κ) : List (Entry κ ν) :=
  map.buckets.getD (map.indexOf key) []

def find (map : Hashmap keys ν) (key : κ) : Option (Entry κ ν) :=
  (map.chain key).find? (isEntry keys key)

def walk (map : Hashmap keys ν) (key : κ) (found : Entry κ ν → List (Entry κ ν)) (missing : List (Entry κ ν))
    : Hashmap keys ν :=
  { map with
    buckets := map.buckets.set (map.indexOf key)
      (Buckets.walk (isEntry keys key) found missing (map.chain key)) }

def addEntry (map : Hashmap keys ν) (key : κ) (value : Option ν) (mem : Memory) : Hashmap keys ν :=
  let map := map.walk key (fun entry => [entry]) [⟨key, hashKey keys key, value⟩]
  expandIfNecessary { map with size := map.size + 1 } mem

def hashmapPut (map : Hashmap keys ν) (key : κ) (value : Option ν) (mem : Memory)
    : Hashmap keys ν × Option ν :=
  match map.find key with
  | none => if !mem.malloc then (map, none) else (map.addEntry key value mem, none)
  | some current => (map.walk key (fun entry => [{ entry with value }]) [], current.value)

def hashmapGet (map : Hashmap keys ν) (key : κ) : Option ν :=
  match map.find key with
  | none => none
  | some entry => entry.value

def hashmapContainsKey (map : Hashmap keys ν) (key : κ) : Bool :=
  (map.find key).isSome

/-- `initialValue` does not use the map. -/
def hashmapMemoize (map : Hashmap keys ν) (key : κ) (initialValue : κ → Option ν) (mem : Memory)
    : Hashmap keys ν × Option ν :=
  match map.find key with
  | none =>
    if !mem.malloc then (map, none) else (map.addEntry key (initialValue key) mem, initialValue key)
  | some current => (map, current.value)

def hashmapRemove (map : Hashmap keys ν) (key : κ) : Hashmap keys ν × Option ν :=
  match map.find key with
  | none => (map, none)
  | some current =>
    let map := map.walk key (fun _ => []) []
    ({ map with size := map.size - 1 }, current.value)

namespace hashmapForEach

def goChain (callback : κ → Option ν → σ → Bool × σ) : List (Entry κ ν) → σ → Bool × σ
  | [], context => (true, context)
  | entry :: next, context =>
    match callback entry.key entry.value context with
    | (false, context) => (false, context)
    | (true, context) => goChain callback next context

def go (callback : κ → Option ν → σ → Bool × σ) : List (List (Entry κ ν)) → σ → σ
  | [], context => context
  | chain :: chains, context =>
    match goChain callback chain context with
    | (false, context) => context
    | (true, context) => go callback chains context

end hashmapForEach

def hashmapForEach (map : Hashmap keys ν) (callback : κ → Option ν → σ → Bool × σ) (context : σ) : σ :=
  hashmapForEach.go callback map.buckets context

inductive Call (κ ν : Type) where
  | put (key : κ) (value : Option ν) (mem : Memory)
  | get (key : κ)
  | containsKey (key : κ)
  | memoize (key : κ) (initialValue : κ → Option ν) (mem : Memory)
  | remove (key : κ)
  | size

inductive Answer (ν : Type) where
  | pointer (value : Option ν)
  | bool (b : Bool)
  | number (n : Nat)
  deriving DecidableEq, Repr

def call (map : Hashmap keys ν) : Call κ ν → Hashmap keys ν × Answer ν
  | .put key value mem => (hashmapPut map key value mem).map id .pointer
  | .get key => (map, .pointer (hashmapGet map key))
  | .containsKey key => (map, .bool (hashmapContainsKey map key))
  | .memoize key initialValue mem => (hashmapMemoize map key initialValue mem).map id .pointer
  | .remove key => (hashmapRemove map key).map id .pointer
  | .size => (map, .number (hashmapSize map))

def calls (map : Hashmap keys ν) : List (Call κ ν) → Hashmap keys ν × List (Answer ν)
  | [] => (map, [])
  | c :: cs =>
    let (map, answer) := map.call c
    let (map, answers) := map.calls cs
    (map, answer :: answers)

end Hashmap
