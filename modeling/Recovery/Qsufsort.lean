import Recovery.Memory

/-!
The suffix sort of `bsdiff.c`. `I` lists the suffixes in their order so far and `V`
has the group of each; a sorted run in `I` is replaced by its length, negated. An
access outside an array has no result.
-/
namespace Recovery.Qsufsort
open Memory

abbrev Words := List Int

def peek (l : Words) (i : Int) : Option Int := if 0 ≤ i then l[i.toNat]? else none
def poke (l : Words) (i x : Int) : Option Words := if 0 ≤ i ∧ i < l.length then some (l.set i.toNat x) else none
def swap (l : Words) (i j : Int) : Option Words := do
  let tmp ← peek l i
  let l ← poke l i (← peek l j)
  poke l j tmp

/-- `V[I[i]+h]`, by which a group is split. -/
def keyAt (I V : Words) (h i : Int) : Option Int := do peek V ((← peek I i) + h)
/-- The loop that gives the `count` suffixes from an index on their group. -/
def setGroup (I : Words) (group : Int) : Nat → Int → Words → Option Words
  | 0, _, V => some V
  | count + 1, i, V => do
    let V ← poke V (← peek I i) group
    setGroup I group count (i + 1) V
def markSingle (single : Bool) (I : Words) (i : Int) : Option Words := if single then poke I i (-1) else some I

/-! ## `split` -/

/-- The inner loop for a short group: the suffixes with the smallest key so far come
    first, `j` of them. -/
def selectLoop (V : Words) (h k stop : Int) : Nat → Int → Int → Int → Words → Option (Words × Int)
  | 0, _, _, _, _ => none
  | fuel + 1, i, x, j, I =>
    if k + i < stop then do
      let v ← keyAt I V h (k + i)
      let (x, j) := if v < x then (v, 0) else (x, j)
      if v = x then do
        let I ← swap I (k + j) (k + i)
        selectLoop V h k stop fuel (i + 1) x (j + 1) I
      else selectLoop V h k stop fuel (i + 1) x j I
    else some (I, j)
def shortLoop (h stop : Int) : Nat → Int → Words → Words → Option (Words × Words)
  | 0, _, _, _ => none
  | fuel + 1, k, I, V =>
    if k < stop then do
      let x ← keyAt I V h k
      let (I, j) ← selectLoop V h k stop ((stop - k).toNat + 1) 1 x 1 I
      let V ← setGroup I (k + j - 1) j.toNat k V
      let I ← markSingle (j = 1) I k
      shortLoop h stop fuel (k + j) I V
    else some (I, V)

/-- The loop that counts the keys below and equal to `x`. -/
def countLoop (I V : Words) (h x stop : Int) : Nat → Int → Int → Int → Option (Int × Int)
  | 0, _, _, _ => none
  | fuel + 1, i, jj, kk =>
    if i < stop then do
      let v ← keyAt I V h i
      countLoop I V h x stop fuel (i + 1) (if v < x then jj + 1 else jj) (if v = x then kk + 1 else kk)
    else some (jj, kk)
/-- The loop that moves the keys below `x` to the front. -/
def lessLoop (V : Words) (h x jj kk : Int) : Nat → Int → Int → Int → Words → Option (Words × Int × Int)
  | 0, _, _, _, _ => none
  | fuel + 1, i, j, k, I =>
    if i < jj then do
      let v ← keyAt I V h i
      if v < x then lessLoop V h x jj kk fuel (i + 1) j k I
      else if v = x then do
        let I ← swap I i (jj + j)
        lessLoop V h x jj kk fuel i (j + 1) k I
      else do
        let I ← swap I i (kk + k)
        lessLoop V h x jj kk fuel i j (k + 1) I
    else some (I, j, k)
/-- The loop that moves the keys equal to `x` before the others. -/
def equalLoop (V : Words) (h x jj kk : Int) : Nat → Int → Int → Words → Option Words
  | 0, _, _, _ => none
  | fuel + 1, j, k, I =>
    if jj + j < kk then do
      let v ← keyAt I V h (jj + j)
      if v = x then equalLoop V h x jj kk fuel (j + 1) k I
      else do
        let I ← swap I (jj + j) (kk + k)
        equalLoop V h x jj kk fuel j (k + 1) I
    else some I

/-- `split`, for a recursion no deeper than the fuel. -/
def split (h : Int) : Nat → Int → Int → Words → Words → Option (Words × Words)
  | 0, _, _, _, _ => none
  | fuel + 1, start, len, I, V =>
    if len < 16 then shortLoop h (start + len) (len.toNat + 1) start I V
    else do
      let x ← keyAt I V h (start + len / 2)
      let (jj, kk) ← countLoop I V h x (start + len) (len.toNat + 1) start 0 0
      let jj := jj + start
      let kk := kk + jj
      let (I, j, k) ← lessLoop V h x jj kk (len.toNat + 1) start 0 0 I
      let I ← equalLoop V h x jj kk (len.toNat + 1) j k I
      let (I, V) ← (if jj > start then split h fuel start (jj - start) I V else some (I, V))
      let V ← setGroup I (kk - 1) (kk - jj).toNat jj V
      let I ← markSingle (jj = kk - 1) I jj
      if start + len > kk then split h fuel kk (start + len - kk) I V else some (I, V)

/-! ## `qsufsort` -/

/-- Replaces the first entry of a sorted run by its length. -/
def markRun (I : Words) (i len : Int) : Option Words := if len ≠ 0 then poke I (i - len) (-len) else some I
/-- The loop over the groups, with the length of the sorted run so far. -/
def groupLoop (oldsize h : Int) : Nat → Int → Int → Words → Words → Option (Words × Words)
  | 0, _, _, _, _ => none
  | fuel + 1, i, len, I, V =>
    if i < oldsize + 1 then do
      let s ← peek I i
      if s < 0 then groupLoop oldsize h fuel (i - s) (len - s) I V
      else do
        let I ← markRun I i len
        let len := (← peek V (← peek I i)) + 1 - i
        let (I, V) ← split h (len.toNat + 1) i len I V
        groupLoop oldsize h fuel (i + len) 0 I V
    else do
      let I ← markRun I i len
      some (I, V)
/-- The loop that doubles `h` until everything is one sorted run. -/
def sortLoop (oldsize : Int) : Nat → Int → Words → Words → Option (Words × Words)
  | 0, _, _, _ => none
  | fuel + 1, h, I, V => do
    if (← peek I 0) ≠ -(oldsize + 1) then do
      let (I, V) ← groupLoop oldsize h (oldsize.toNat + 2) 0 0 I V
      sortLoop oldsize fuel (h + h) I V
    else some (I, V)

/-- The bucket of a byte in an array with one for each. -/
def bucketOf (buckets : Words) (c : UInt8) : Int := buckets.getD c.toNat 0
/-- The loops before the insertion: how many bytes are smaller than each byte. -/
def fillBuckets (old : Bytes) : Words :=
  let buckets := old.foldl (fun b c => b.set c.toNat (bucketOf b c + 1)) (List.replicate 256 0)
  let buckets := (List.range' 1 255).foldl (fun b i => b.set i (b.getD i 0 + b.getD (i - 1) 0)) buckets
  let buckets := (List.range' 1 255).reverse.foldl (fun b i => b.set i (b.getD (i - 1) 0)) buckets
  buckets.set 0 0
/-- The loop that inserts each suffix at the end of its bucket. -/
def insertLoop : Bytes → Int → Words → Words → Option (Words × Words)
  | [], _, buckets, I => some (buckets, I)
  | c :: rest, i, buckets, I => do
    let buckets := buckets.set c.toNat (bucketOf buckets c + 1)
    let I ← poke I (bucketOf buckets c) i
    insertLoop rest (i + 1) buckets I
/-- The loop that marks buckets of one suffix; it leaves out that of byte 0. -/
def singleLoop (buckets : Words) : List Nat → Words → Option Words
  | [], I => some I
  | c :: rest, I => do
    let I ← markSingle (buckets.getD c 0 = buckets.getD (c - 1) 0 + 1) I (buckets.getD c 0)
    singleLoop buckets rest I
/-- The last loop: `I` from `V`. -/
def invertLoop : Words → Int → Words → Option Words
  | [], _, I => some I
  | v :: rest, i, I => do
    let I ← poke I v i
    invertLoop rest (i + 1) I

/-- `qsufsort`, from the arrays as they were allocated. -/
def qsufsort (I V : Words) (old : Bytes) : Option Words := do
  let oldsize : Int := old.length
  let (buckets, I) ← insertLoop old 0 (fillBuckets old) I
  let I ← poke I 0 oldsize
  let V := old.map (bucketOf buckets) ++ V.drop old.length
  let V ← poke V oldsize 0
  let I ← singleLoop buckets (List.range' 1 255) I
  let I ← poke I 0 (-1)
  let (I, V) ← sortLoop oldsize (old.length + 3) 1 I V
  invertLoop V 0 I

end Recovery.Qsufsort
