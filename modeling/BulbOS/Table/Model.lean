import BulbOS.Lib.Bytes
import Mathlib.Logic.Function.Iterate

/-!
# Hash tables (`utils/hashtable.c`)

Open addressing with linear probing. A table of the code has 64-bit keys, or strings when its flag
has `HT_PTRKEY`; here the two kinds are two instances of `HashKey`. A value is a pointer, `none`
being `NULL`. Every probe loop gets `capacity + 1` steps; `none` is a call that does not return,
because it probes for ever or because `ht_find_prime` aborts.
-/

namespace BulbOS.Table

open KLib

/-- `hash_state_t`. -/
inductive HashState
  | empty
  | valid
  | tombstone
  deriving DecidableEq, Repr

/-- `hash_entry_t`. -/
structure HashEntry (κ ν : Type) where
  key : κ
  value : Option ν
  state : HashState
  deriving DecidableEq, Repr

/-- `prime_numbers`. -/
def primeNumbers : List ℕ :=
  [2, 3, 5, 7, 11, 13, 17, 19, 23, 29, 31, 37, 41, 43,
    47, 53, 59, 61, 67, 71, 73, 79, 83, 89, 97, 101, 103,
    107, 109, 113, 127, 131, 137, 139, 149, 151, 157, 163,
    167, 173, 179, 181, 191, 193, 197, 199, 211, 223, 227,
    229, 233, 239, 241, 251, 257, 263, 269, 271, 277, 281,
    283, 293, 307, 311]

/-- A number of entries that `ht_find_prime` can return: at most the last prime of the list. -/
abbrev Capacity := { n : ℕ // 0 < n ∧ n ≤ 311 }

/-- The one for 50 entries at a load of 75. -/
def demoCapacity : Capacity := ⟨67, by decide⟩

theorem primeNumbers_bounds : ∀ p ∈ primeNumbers, 0 < p ∧ p ≤ 311 := by decide

def htFindPrime (n : ℕ) : Option Capacity :=
  match h : primeNumbers.find? (n < ·) with
  | some p => some ⟨p, primeNumbers_bounds p (List.mem_of_find?_eq_some h)⟩
  | none => none

/-- `hash_table_t`; `resize` is the flag `HT_RESIZE`. -/
structure HashTable (κ ν : Type) where
  entries : ℕ → HashEntry κ ν
  capacity : Capacity
  size : ℕ
  maxLoad : ℕ
  resize : Bool

/-! ## Keys -/

/-- `HASH_OFFSET`. -/
def hashOffset : UInt64 := 14695981039346656037

/-- `HASH_PRIME`. -/
def hashPrime : UInt64 := 1099511628211

/-- The key mixed in whole, once for each of its eight bytes. -/
def htKey64 (key : UInt64) : UInt64 := (fun hash => (hash ^^^ key) * hashPrime)^[8] hashOffset

/-- `*key` is a signed `char`, sign-extended to 64 bits. -/
def htKey32 (key : List UInt8) : UInt64 :=
  key.foldl (fun hash c => (hash ^^^ c.toInt8.toInt64.toUInt64) * hashPrime) hashOffset

/-- A kind of keys: `ht_key`, and the key `(hash_key_t){0}`. `ht_compare` is equality. -/
class HashKey (κ : Type) where
  htKey : κ → UInt64
  zero : κ

instance : HashKey UInt64 := ⟨htKey64, 0⟩

instance : HashKey (List UInt8) := ⟨htKey32, []⟩

section Operations

variable {κ ν : Type} [DecidableEq κ] [HashKey κ]

def htCreate (maxSize maxLoad : ℕ) (resize : Bool) : Option (HashTable κ ν) := do
  if maxLoad = 0 then none
  else
    let capacity ← htFindPrime (u32 (maxSize * 100) / maxLoad)
    return ⟨fun _ => ⟨HashKey.zero, none, .empty⟩, capacity, 0, maxLoad, resize⟩

/-- `ht_key(table, key) % table->capacity`. -/
def HashTable.home (t : HashTable κ ν) (key : κ) : ℕ := (HashKey.htKey key).toNat % t.capacity

/-- `table->entries[index % table->capacity]`. -/
def HashTable.entry (t : HashTable κ ν) (index : ℕ) : HashEntry κ ν := t.entries (index % t.capacity)

def HashTable.setEntry (t : HashTable κ ν) (index : ℕ) (e : HashEntry κ ν) : HashTable κ ν :=
  { t with entries := Function.update t.entries (index % t.capacity) e }

/-- A probe loop: the first index, going up, whose entry meets `stop`. -/
def htProbe (t : HashTable κ ν) (stop : HashEntry κ ν → Bool) : ℕ → ℕ → Option ℕ
  | 0, _ => none
  | fuel + 1, index =>
    if stop (t.entry index) then some index else htProbe t stop fuel (u32 (index + 1))

/-- `ht_get` and `ht_remove` leave their loop at an empty entry, or at the key. -/
def stopFind (key : κ) (e : HashEntry κ ν) : Bool :=
  e.state = .empty || (e.state = .valid && e.key = key)

/-- `ht_set` leaves its loop at an entry that is not valid, or at the key. -/
def stopSlot (key : κ) (e : HashEntry κ ν) : Bool := e.state ≠ .valid || e.key = key

def htGet (t : HashTable κ ν) (key : κ) : Option (Option ν) := do
  let index ← htProbe t (stopFind key) (t.capacity + 1) (t.home key)
  return if (t.entry index).state = .empty then none else (t.entry index).value

/-- `ht_set` after its load check. -/
def htPut (t : HashTable κ ν) (key : κ) (value : Option ν) : Option (HashTable κ ν) := do
  let index ← htProbe t (stopSlot key) (t.capacity + 1) (t.home key)
  return match (t.entry index).state with
    | .valid => t.setEntry index { t.entry index with value := value }
    | .empty => { t.setEntry index ⟨key, value, .valid⟩ with size := u32 (t.size + 1) }
    | .tombstone => t.setEntry index ⟨key, value, .valid⟩

/-- The entries are moved with `set`, into an array that holds `fresh`, whatever `kmalloc` returns. -/
def htResize (set : HashTable κ ν → κ → Option ν → Option (Int × HashTable κ ν))
    (fresh : ℕ → HashEntry κ ν) (t : HashTable κ ν) : Option (HashTable κ ν) := do
  let capacity ← htFindPrime (u32 (t.capacity * 2))
  (List.range t.capacity).foldlM
    (fun t' i =>
      if (t.entries i).state = .valid then
        (set t' (t.entries i).key (t.entries i).value).map Prod.snd
      else some t')
    { t with entries := fresh, capacity := capacity, size := 0 }

/-- The load check of `ht_set`. -/
def HashTable.Overloaded (t : HashTable κ ν) : Prop :=
  u32 (t.size * 100) > u32 (t.capacity * t.maxLoad)

instance (t : HashTable κ ν) : Decidable t.Overloaded := inferInstanceAs (Decidable (_ > _))

/-- `ht_set` with at most `depth` resizes inside one another. -/
def htSetDepth (fresh : ℕ → ℕ → HashEntry κ ν) :
    ℕ → HashTable κ ν → κ → Option ν → Option (Int × HashTable κ ν)
  | 0, _, _, _ => none
  | depth + 1, t, key, value =>
    if t.Overloaded then
      if t.resize then do
        let t' ← htResize (htSetDepth fresh depth) (fresh depth) t
        let t'' ← htPut t' key value
        return (0, t'')
      else some (-1, t)
    else do
      let t' ← htPut t key value
      return (0, t')

/-- A resize more than doubles the capacity, so the eighth one inside another aborts. -/
def htSet (fresh : ℕ → ℕ → HashEntry κ ν) (t : HashTable κ ν) (key : κ) (value : Option ν) :
    Option (Int × HashTable κ ν) :=
  htSetDepth fresh 10 t key value

def htRemove (t : HashTable κ ν) (key : κ) : Option (Int × HashTable κ ν) := do
  let index ← htProbe t (stopFind key) (t.capacity + 1) (t.home key)
  let entry := t.entry index
  if entry.state = .empty then return (-1, t)
  else if (t.entry (u32 (index + 1))).state = .empty then
    return (0, { t.setEntry index { entry with key := HashKey.zero, state := .empty } with
      size := sub32 t.size 1 })
  else return (0, t.setEntry index { entry with key := HashKey.zero, state := .tombstone })

end Operations

end BulbOS.Table
