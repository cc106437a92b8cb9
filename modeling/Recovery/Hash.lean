import Recovery.Memory
import Recovery.Probing
import Mathlib.Data.Finmap

/-!
minzip's hash table.
-/
namespace Recovery.Hash
open Memory Probing

/-! ## The table -/

def LOAD_NUMER : Nat := 5
def LOAD_DENOM : Nat := 8

/-- What `abort` and a failed assertion do. -/
def abort {α : Type} : Ret α := .err 6
def assert (holds : Bool) : Ret Unit := if holds then .ok () else abort

def mzHashSize (size : Nat) : Nat := size * LOAD_DENOM / LOAD_NUMER + 1

def roundUpPower2 (val : Nat) : Nat :=
  let val := unsigned 32 ((val : Int) - 1)
  let val := val ||| val >>> 1
  let val := val ||| val >>> 2
  let val := val ||| val >>> 4
  let val := val ||| val >>> 8
  let val := val ||| val >>> 16
  unsigned 32 (val + 1 : Nat)

/-- The items are pointers, so that equality of items is identity. -/
structure HashTable (α : Type) where
  tableSize : Int
  numEntries : Int
  numDeadEntries : Int
  pEntries : List (Slot α)
  freeFunc : Bool
  deriving DecidableEq, Repr

section
variable {α β : Type}

/-- `calloc` tells whether there is room for a number of slots. -/
def mzHashTableCreate (calloc : Nat → Bool) (initialSize : Nat) (freeFunc : Bool) : Option (HashTable α) :=
  let tableSize := roundUpPower2 (unsigned 32 initialSize)
  if calloc tableSize then some ⟨tableSize, 0, 0, List.replicate tableSize .empty, freeFunc⟩ else none

/-- The items that are given to the free function, and the table after it. -/
def mzHashTableClear (t : HashTable α) : List α × HashTable α :=
  (if t.freeFunc then items t.pEntries else [],
    { t with pEntries := t.pEntries.map fun _ => .empty, numEntries := 0, numDeadEntries := 0 })

def resizeHash (calloc : Nat → Bool) (t : HashTable α) (newSize : Int) : Ret (Bool × HashTable α) := do
  assert ((tombstones t.pEntries : Int) = t.numDeadEntries)
  if ¬ calloc (unsigned 64 newSize) then pure (false, t)
  else do
    let mask := unsigned 32 (newSize - 1)
    let pNewEntries ← Ret.need (rehash (fun newIdx => (newIdx + 1) &&& mask) (fun hashValue => hashValue &&& mask)
      t.pEntries (List.replicate (unsigned 64 newSize) .empty))
    assert (tombstones pNewEntries = 0)
    pure (true, { t with pEntries := pNewEntries, tableSize := newSize, numDeadEntries := 0 })

/-- The step of the probe loops. Alone in the table, the last slot is followed by the end
    of the array, where the loop stops. -/
def advance (tableSize : Int) (i : Nat) : Nat :=
  if ((i + 1 : Nat) : Int) = tableSize then (if tableSize = 1 then i + 1 else 0) else i + 1

/-- What `mzHashTableLookup` does once an item is in its slot. -/
def settle (calloc : Nat → Bool) (t : HashTable α) : Ret (HashTable α) := do
  let t ← if wrap 32 (wrap 32 (t.numEntries + t.numDeadEntries) * LOAD_DENOM) > wrap 32 (t.tableSize * LOAD_NUMER) then do
      let (ok, t) ← resizeHash calloc t (wrap 32 (t.tableSize * 2))
      if ¬ ok then abort else pure t
    else pure t
  assert (t.numEntries < t.tableSize)
  pure t

/-- With `doAdd` comes the item as the table keeps it. -/
def mzHashTableLookup (calloc : Nat → Bool) (t : HashTable α) (itemHash : Nat) (item : β) (cmpFunc : α → β → Int)
    (doAdd : Option α) : Ret (Option α × HashTable α) := do
  assert (0 < t.tableSize)
  let i ← Ret.need (probe (advance t.tableSize) (Slot.isItem itemHash fun data => cmpFunc data item = 0) t.pEntries
    t.pEntries.length (itemHash &&& unsigned 32 (t.tableSize - 1)))
  match slotAt t.pEntries i, doAdd with
  | .live _ data, _ => pure (some data, t)
  | .tombstone, _ => .stuck
  | .empty, none => pure (none, t)
  | .empty, some item => do
    let t ← settle calloc
      { t with pEntries := t.pEntries.set i (.live itemHash item), numEntries := wrap 32 (t.numEntries + 1) }
    pure (some item, t)

def mzHashTableRemove [DecidableEq α] (t : HashTable α) (itemHash : Nat) (item : α) : Ret (Bool × HashTable α) := do
  assert (0 < t.tableSize)
  let i ← Ret.need (probe (advance t.tableSize) (fun s => s.item? = some item) t.pEntries t.pEntries.length
    (itemHash &&& unsigned 32 (t.tableSize - 1)))
  if slotAt t.pEntries i = .empty then pure (false, t)
  else pure (true, { t with
    pEntries := t.pEntries.set i .tombstone
    numEntries := wrap 32 (t.numEntries - 1)
    numDeadEntries := wrap 32 (t.numDeadEntries + 1) })

end

/-! ## Calls -/

inductive Call (α : Type) where
  | lookup (item : α) (doAdd : Bool)
  | remove (item : α)
  | clear
inductive Answer (α : Type) where
  | found (data : Option α)
  | removed (was : Bool)
  | cleared
  deriving DecidableEq, Repr

section
variable {α : Type} [DecidableEq α]

def HashTable.call (calloc : Nat → Bool) (hash : α → Nat) (cmpFunc : α → α → Int) (t : HashTable α) :
    Call α → Ret (Answer α × HashTable α)
  | .lookup item doAdd => do
    let (data, t) ← mzHashTableLookup calloc t (hash item) item cmpFunc (if doAdd then some item else none)
    pure (.found data, t)
  | .remove item => do
    let (was, t) ← mzHashTableRemove t (hash item) item
    pure (.removed was, t)
  | .clear => pure (.cleared, (mzHashTableClear t).2)
def HashTable.calls (calloc : Nat → Bool) (hash : α → Nat) (cmpFunc : α → α → Int) (t : HashTable α) :
    List (Call α) → Ret (List (Answer α) × HashTable α)
  | [] => pure ([], t)
  | c :: rest => do
    let (answer, t) ← t.call calloc hash cmpFunc c
    let (answers, t) ← t.calls calloc hash cmpFunc rest
    pure (answer :: answers, t)

/-! ## The map -/

variable {K : Type} [DecidableEq K]

/-- The finite map from keys to items that the calls mean. -/
def mapCall (key : α → K) (m : Finmap fun _ : K => α) : Call α → Answer α × Finmap fun _ : K => α
  | .lookup item doAdd =>
    match m.lookup (key item) with
    | some data => (.found (some data), m)
    | none => if doAdd then (.found (some item), m.insert (key item) item) else (.found none, m)
  | .remove item => if m.lookup (key item) = some item then (.removed true, m.erase (key item)) else (.removed false, m)
  | .clear => (.cleared, ∅)
def mapCalls (key : α → K) (m : Finmap fun _ : K => α) : List (Call α) → List (Answer α) × Finmap fun _ : K => α
  | [] => ([], m)
  | c :: rest =>
    let (answer, m) := mapCall key m c
    let (answers, m) := mapCalls key m rest
    (answer :: answers, m)

end

end Recovery.Hash
