import Mathlib.Algebra.BigOperators.Group.List.Lemmas
import Sfcc.Lib.Single
import Sfcc.Memory

-- The hash tables that come with the library.
namespace Sfcc

open Single

structure KeyValuePair (K V : Type) where
  key   : K
  value : V
  deriving DecidableEq

-- Pointers are the same if their addresses are.
class Located (α : Type) where
  addr : α → UInt64

open Located (addr)

-- What the deallocators are called with.
inductive Dealloc
  | key (addr : UInt64)
  | value (addr : UInt64)
  deriving DecidableEq

-- What no operation changes. A comparison says whether its function is zero, and there is a flag for
-- each deallocator that is not `NULL`.
structure HashTable.Setup (K V : Type) where
  idealRatio           : ℚ := 3
  lowerRehashThreshold : ℚ := 0
  upperRehashThreshold : ℚ := 15
  keycmp               : K → K → Bool
  valuecmp             : V → V → Bool
  hashFunction         : K → UInt64
  keyDeallocator       : Bool := false
  valueDeallocator     : Bool := false

-- `numOfBuckets` is the length of `bucketArray`. The calls of the deallocators are recorded in
-- `released`.
structure HashTable (K V : Type) extends HashTable.Setup K V where
  bucketArray   : List (List (KeyValuePair K V))
  numOfElements : ℕ := 0
  released      : List Dealloc := []

namespace HashTable

-- The numbers that `isProbablePrime` goes through.
def divisors : List ℕ :=
  (List.range 24).map (2 * · + 3)

def isProbablePrime (oddNumber : ℕ) : Bool :=
  go divisors
where
  go : List ℕ → Bool
    | []      => true
    | i :: is => if oddNumber = i then true else if oddNumber % i = 0 then false else go is

theorem isProbablePrime_go {n : ℕ} {is : List ℕ} (h : ∀ i ∈ is, n % i ≠ 0) : isProbablePrime.go n is = true := by
  induction is with
  | nil          => rfl
  | cons i is hi =>
    have ⟨h, his⟩ := List.forall_mem_cons.mp h
    rw [isProbablePrime.go, if_neg h, hi his, ite_self]

-- One more than a multiple of all that are tried has none of them as a divisor.
theorem isProbablePrime_succ (n : ℕ) : isProbablePrime (n * divisors.prod + 1) := by
  refine isProbablePrime_go fun i hi => ?_
  have ⟨m, hm⟩ := List.dvd_prod hi
  have hl : 1 < i := (by decide : ∀ i ∈ divisors, 1 < i) i hi
  rw [hm, Nat.mul_left_comm, Nat.mul_add_mod, Nat.mod_eq_of_lt hl]
  exact one_ne_zero

theorem exists_isProbablePrime (n : ℕ) : ∃ k, isProbablePrime (n + 2 * k) := by
  have hp : divisors.prod % 2 = 1 := by decide
  have ⟨p, hp⟩ : ∃ p, divisors.prod = 2 * p + 1 := ⟨divisors.prod / 2, by omega⟩
  refine ⟨p * (n + 1) + 1, ?_⟩
  have he : n + 2 * (p * (n + 1) + 1) = (n + 1) * divisors.prod + 1 := by
    rw [hp]
    ring
  exact he ▸ isProbablePrime_succ (n + 1)

-- The loop of `calculateIdealNumOfBuckets`.
def nextProbablePrime (n : ℕ) : ℕ :=
  if isProbablePrime n then n else nextProbablePrime (n + 2)
termination_by Nat.find (exists_isProbablePrime n)
decreasing_by
  rename_i hn
  have h := Nat.find_spec (exists_isProbablePrime n)
  generalize Nat.find (exists_isProbablePrime n) = k at h
  cases k with
  | zero   => exact absurd h hn
  | succ k =>
    have he : n + 2 * (k + 1) = n + 2 + 2 * k := by omega
    exact Nat.lt_succ_of_le (Nat.find_min' _ (he ▸ h))

variable {K V : Type}

-- `HashTableCreate`, with the functions that are set afterwards.
def create (s : Setup K V) (numOfBuckets : ℕ) : HashTable K V :=
  { s with bucketArray := .replicate numOfBuckets [] }

section

variable (t : HashTable K V)

def numOfBuckets : ℕ :=
  t.bucketArray.length

def pairs : List (KeyValuePair K V) :=
  t.bucketArray.flatten

def calculateIdealNumOfBuckets : ℕ :=
  let idealNumOfBuckets := ⌊single (single t.numOfElements / t.idealRatio)⌋.toNat
  nextProbablePrime (if idealNumOfBuckets < 5 then 5 else idealNumOfBuckets ||| 1)

def elementToBucketRatio : ℚ :=
  single (single t.numOfElements / single t.numOfBuckets)

def hashValue (key : K) (numOfBuckets : ℕ) : ℕ :=
  (t.hashFunction key).toNat % numOfBuckets

-- The pairs from the first to the last, each one in front of what its new bucket has.
def rehashed (numOfBuckets : ℕ) : List (List (KeyValuePair K V)) :=
  t.bucketArray.foldl
    (fun new bucket =>
      bucket.foldl (fun new p => new.modify (t.hashValue p.key numOfBuckets) (p :: ·)) new)
    (.replicate numOfBuckets [])

-- `malloc` says whether the new array could be allocated.
def rehash (numOfBuckets : ℕ) (malloc : Bool) : HashTable K V :=
  let numOfBuckets := if numOfBuckets = 0 then t.calculateIdealNumOfBuckets else numOfBuckets
  if numOfBuckets = t.numOfBuckets then t
  else if malloc then { t with bucketArray := t.rehashed numOfBuckets }
  else t

def bucket (key : K) : List (KeyValuePair K V) :=
  t.bucketArray.getD (t.hashValue key t.numOfBuckets) []

def get (key : K) : Option V :=
  ((t.bucket key).find? fun p => t.keycmp key p.key).map (·.value)

def containsKey (key : K) : Bool :=
  (t.get key).isSome

def containsValue (value : V) : Bool :=
  t.bucketArray.any (·.any fun p => t.valuecmp value p.value)

def isEmpty : Bool :=
  t.numOfElements = 0

-- The `long` is returned as an `int`.
def size : ℤ :=
  int t.numOfElements

end

section

variable [Located K] [Located V] (t : HashTable K V)

def releaseKey (key : K) : HashTable K V :=
  if t.keyDeallocator then { t with released := t.released ++ [.key (addr key)] } else t

def releaseValue (value : V) : HashTable K V :=
  if t.valueDeallocator then { t with released := t.released ++ [.value (addr value)] } else t

def release (p : KeyValuePair K V) : HashTable K V :=
  (t.releaseKey p.key).releaseValue p.value

-- What `put` releases of a pair that it finds.
def supersede (p : KeyValuePair K V) (key : K) (value : V) : HashTable K V :=
  let t := if addr p.key ≠ addr key then t.releaseKey p.key else t
  if addr p.value ≠ addr value then t.releaseValue p.value else t

-- The first flag says whether a new pair could be allocated, the second one is for the array of a
-- rehash. The first component is zero if the call succeeds.
def put (key : K) (value : V) (pairMalloc malloc : Bool) : ℤ × HashTable K V :=
  let hashValue := t.hashValue key t.numOfBuckets
  match (t.bucket key).findIdx? fun p => t.keycmp key p.key with
  | some i =>
    let t := (t.bucket key)[i]?.elim t fun p => t.supersede p key value
    (0, { t with bucketArray := t.bucketArray.modify hashValue (·.modify i fun _ => ⟨key, value⟩) })
  | none   =>
    if pairMalloc then
      let t := { t with
        bucketArray   := t.bucketArray.modify hashValue (⟨key, value⟩ :: ·)
        numOfElements := t.numOfElements + 1 }
      if t.upperRehashThreshold > t.idealRatio ∧ t.elementToBucketRatio > t.upperRehashThreshold then
        (0, t.rehash 0 malloc)
      else (0, t)
    else (-1, t)

def remove (key : K) (malloc : Bool) : HashTable K V :=
  match (t.bucket key).findIdx? fun p => t.keycmp key p.key with
  | none   => t
  | some i =>
    let hashValue := t.hashValue key t.numOfBuckets
    let t := (t.bucket key)[i]?.elim t t.release
    let t := { t with
      bucketArray   := t.bucketArray.modify hashValue (·.eraseIdx i)
      numOfElements := t.numOfElements - 1 }
    if t.lowerRehashThreshold > 0 ∧ t.elementToBucketRatio < t.lowerRehashThreshold then t.rehash 0 malloc
    else t

-- The loops of `HashTableRemoveAll` and `HashTableDestroy`.
def releaseAll : HashTable K V :=
  t.bucketArray.foldl (fun t bucket => bucket.foldl release t) t

def removeAll (malloc : Bool) : HashTable K V :=
  let t := t.releaseAll
  { t with
    bucketArray   := t.bucketArray.map fun _ => []
    numOfElements := 0 : HashTable K V }.rehash 5 malloc

-- The pointers that were given to the deallocators in the end.
def destroy : List Dealloc :=
  t.releaseAll.released

end

-- `pair` is where it points to, with what follows in the bucket.
structure Iterator (K V : Type) where
  bucket : ℕ
  pair   : KeyValuePair K V
  next   : List (KeyValuePair K V)

section

variable (t : HashTable K V)

-- The first pair in the buckets from `bucket` on.
def firstFrom (bucket : ℕ) : List (List (KeyValuePair K V)) → Option (Iterator K V)
  | []              => none
  | [] :: bs        => firstFrom (bucket + 1) bs
  | (p :: ps) :: _  => some { bucket := bucket, pair := p, next := ps }

def getFirst : Option (Iterator K V) :=
  firstFrom 0 t.bucketArray

def getNext (iter : Iterator K V) : Option (Iterator K V) :=
  match iter.next with
  | p :: ps => some { iter with pair := p, next := ps }
  | []      => firstFrom (iter.bucket + 1) (t.bucketArray.drop (iter.bucket + 1))

end

end HashTable

-- A pointer, and the text it points to when it is given to the table: of a `CMPI_String`, the one that its
-- `hdl` points to.
structure Pointer where
  addr : UInt64
  text : Text

instance : Located Pointer where
  addr := Pointer.addr

def charHashFunction (key : Pointer) : UInt64 :=
  key.text.foldl (fun hashValue b => hashValue * 37 + b.toUInt64) 0

def toupper (b : UInt8) : UInt8 :=
  if 97 ≤ b ∧ b ≤ 122 then b - 32 else b

def charIcHashFunction (key : Pointer) : UInt64 :=
  key.text.foldl (fun hashValue b => hashValue * 37 + (toupper b).toUInt64) 0

def pointerHashFunction (pointer : Pointer) : UInt64 :=
  pointer.addr >>> 4

def charCmpFunction (pointer1 pointer2 : Pointer) : Bool :=
  pointer1.text = pointer2.text

def charIcCmpFunction (pointer1 pointer2 : Pointer) : Bool :=
  sameIgnoringCase pointer1.text pointer2.text

def ptrCmpFunction (pointer1 pointer2 : Pointer) : Bool :=
  pointer1.addr = pointer2.addr

def UtilHashTable_charKey : UInt64 := 1
def UtilHashTable_CMPIStringKey : UInt64 := 2
def UtilHashTable_ignoreKeyCase : UInt64 := 4
def UtilHashTable_managedKey : UInt64 := 8
def UtilHashTable_charValue : UInt64 := 16
def UtilHashTable_CMPIStyleValue : UInt64 := 32
def UtilHashTable_ignoreValueCase : UInt64 := 64
def UtilHashTable_managedValue : UInt64 := 128

-- The functions for a `CMPI_String` do what those for a `char *` do with its text.
def newHashTable (buckets : ℕ) (opt : UInt64) : HashTable Pointer Pointer :=
  let set flag := opt &&& flag ≠ 0
  let textKey := set UtilHashTable_charKey ∨ set UtilHashTable_CMPIStringKey
  .create {
    keycmp           :=
      if textKey then if set UtilHashTable_ignoreKeyCase then charIcCmpFunction else charCmpFunction
      else ptrCmpFunction
    hashFunction     :=
      if textKey then if set UtilHashTable_ignoreKeyCase then charIcHashFunction else charHashFunction
      else pointerHashFunction
    valuecmp         :=
      if set UtilHashTable_charValue then
        if set UtilHashTable_ignoreValueCase then charIcCmpFunction else charCmpFunction
      else ptrCmpFunction
    keyDeallocator   := set UtilHashTable_managedKey ∧ ¬ set UtilHashTable_CMPIStringKey
    valueDeallocator := set UtilHashTable_managedValue ∧ ¬ set UtilHashTable_CMPIStyleValue } buckets

def newHashTableDefault (buckets : ℕ) : HashTable Pointer Pointer :=
  .create {
    keycmp           := charCmpFunction
    hashFunction     := charHashFunction
    valuecmp         := ptrCmpFunction
    keyDeallocator   := true
    valueDeallocator := true } buckets

end Sfcc
