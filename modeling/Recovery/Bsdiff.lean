import Recovery.Libs
import Recovery.Numbers
import Recovery.Qsufsort

/-!
`bsdiff.c`: a scan over the new data that looks up each place in the sorted suffixes
of the old data, and writes a control triple whenever the matches stop following on
from each other. `off_t` is wide enough for every sum here; an access outside the data
has no result.
-/
namespace Recovery.Bsdiff
open Memory Numbers Qsufsort

def readByte (b : Bytes) (i : Int) : Option UInt8 := if 0 ≤ i then b[i.toNat]? else none
def tail (b : Bytes) (i : Int) : Option Bytes := if 0 ≤ i ∧ i ≤ b.length then some (b.drop i.toNat) else none

/-! ## `search` -/

/-- `matchlen`: how far two strings are the same. -/
def matchlen : Bytes → Bytes → Int
  | a :: old, b :: new => if a = b then matchlen old new + 1 else 0
  | _, _ => 0
/-- Whether `memcmp` of the common length is negative. -/
def precedes : Bytes → Bytes → Bool
  | a :: old, b :: new => if a = b then precedes old new else a < b
  | _, _ => false

/-- `search`: the length of a match and where it is in the old data. -/
def search (I : Words) (old new : Bytes) : Nat → Int → Int → Option (Int × Int)
  | 0, _, _ => none
  | fuel + 1, st, en =>
    if en - st < 2 then do
      let first ← peek I st
      let last ← peek I en
      let x := matchlen (← tail old first) new
      let y := matchlen (← tail old last) new
      if x > y then some (x, first) else some (y, last)
    else do
      let x := st + (en - st) / 2
      if precedes (← tail old (← peek I x)) new then search I old new fuel x en
      else search I old new fuel st x

/-! ## The scan -/

/-- `i + offset < oldsize && old[i + offset] == new[i]` -/
def agrees (old new : Bytes) (offset i : Int) : Option Bool :=
  if i + offset < old.length then do some ((← readByte old (i + offset)) == (← readByte new i)) else some false

def scoreLoop (old new : Bytes) (lastoffset stop : Int) : Nat → Int → Int → Option (Int × Int)
  | 0, _, _ => none
  | fuel + 1, scsc, oldscore =>
    if scsc < stop then do
      let same ← agrees old new lastoffset scsc
      scoreLoop old new lastoffset stop fuel (scsc + 1) (if same then oldscore + 1 else oldscore)
    else some (scsc, oldscore)

/-- Where the scan is: the place, the last match and its score. -/
structure Place where
  scan : Int
  len : Int
  pos : Int
  oldscore : Int
  deriving DecidableEq, Repr

def scanLoop (I : Words) (old new : Bytes) (lastoffset : Int) : Nat → Int → Place → Option Place
  | 0, _, _ => none
  | fuel + 1, scsc, at_ =>
    if at_.scan < new.length then do
      let (len, pos) ← search I old (← tail new at_.scan) (old.length + 1) 0 old.length
      let (scsc, oldscore) ← scoreLoop old new lastoffset (at_.scan + len) (new.length + 1) scsc at_.oldscore
      if (len = oldscore ∧ len ≠ 0) ∨ len > oldscore + 8 then some ⟨at_.scan, len, pos, oldscore⟩
      else do
        let same ← agrees old new lastoffset at_.scan
        scanLoop I old new lastoffset fuel scsc ⟨at_.scan + 1, len, pos, if same then oldscore - 1 else oldscore⟩
    else some at_

/-! ## A control triple -/

def forwardLoop (old new : Bytes) (scan lastscan lastpos : Int) : Nat → Int → Int → Int → Int → Option Int
  | 0, _, _, _, _ => none
  | fuel + 1, i, s, Sf, lenf =>
    if lastscan + i < scan ∧ lastpos + i < old.length then do
      let s := if (← readByte old (lastpos + i)) = (← readByte new (lastscan + i)) then s + 1 else s
      let i := i + 1
      if s * 2 - i > Sf * 2 - lenf then forwardLoop old new scan lastscan lastpos fuel i s s i
      else forwardLoop old new scan lastscan lastpos fuel i s Sf lenf
    else some lenf
def backwardLoop (old new : Bytes) (scan pos lastscan : Int) : Nat → Int → Int → Int → Int → Option Int
  | 0, _, _, _, _ => none
  | fuel + 1, i, s, Sb, lenb =>
    if scan ≥ lastscan + i ∧ pos ≥ i then do
      let s := if (← readByte old (pos - i)) = (← readByte new (scan - i)) then s + 1 else s
      if s * 2 - i > Sb * 2 - lenb then backwardLoop old new scan pos lastscan fuel (i + 1) s s i
      else backwardLoop old new scan pos lastscan fuel (i + 1) s Sb lenb
    else some lenb
def overlapLoop (old new : Bytes) (newF oldF newB oldB overlap : Int) : Nat → Int → Int → Int → Int → Option Int
  | 0, _, _, _, _ => none
  | fuel + 1, i, s, Ss, lens =>
    if i < overlap then do
      let s := if (← readByte new (newF + i)) = (← readByte old (oldF + i)) then s + 1 else s
      let s := if (← readByte new (newB + i)) = (← readByte old (oldB + i)) then s - 1 else s
      if s > Ss then overlapLoop old new newF oldF newB oldB overlap fuel (i + 1) s s (i + 1)
      else overlapLoop old new newF oldF newB oldB overlap fuel (i + 1) s Ss lens
    else some lens

def diffBytes (old new : Bytes) : Nat → Int → Int → Option Bytes
  | 0, _, _ => some []
  | count + 1, lastscan, lastpos => do
    let d := (← readByte new lastscan) - (← readByte old lastpos)
    let rest ← diffBytes old new count (lastscan + 1) (lastpos + 1)
    some (d :: rest)

/-- What `bsdiff` has at the head of its outer loop: the scan, where the last triple
    ended, and the blocks so far. -/
structure State where
  scan : Int
  len : Int
  pos : Int
  lastscan : Int
  lastpos : Int
  lastoffset : Int
  ctrl : Bytes
  db : Bytes
  eb : Bytes
  deriving DecidableEq, Repr

def extents (old new : Bytes) (s : State) : Option (Int × Int) := do
  let lenf ← forwardLoop old new s.scan s.lastscan s.lastpos (new.length + 1) 0 0 0 0
  let lenb ← (if s.scan < new.length then backwardLoop old new s.scan s.pos s.lastscan (new.length + 1) 1 0 0 0 else some 0)
  if s.lastscan + lenf > s.scan - lenb then do
    let overlap := (s.lastscan + lenf) - (s.scan - lenb)
    let lens ← overlapLoop old new (s.lastscan + lenf - overlap) (s.lastpos + lenf - overlap) (s.scan - lenb)
      (s.pos - lenb) overlap (new.length + 1) 0 0 0 0
    some (lenf + (lens - overlap), lenb - lens)
  else some (lenf, lenb)

def emit (old new : Bytes) (s : State) : Option State := do
  let (lenf, lenb) ← extents old new s
  let extra := (s.scan - lenb) - (s.lastscan + lenf)
  let db ← diffBytes old new lenf.toNat s.lastscan s.lastpos
  let eb ← slice new (s.lastscan + lenf) extra.toNat
  some { s with
    lastscan := s.scan - lenb
    lastpos := s.pos - lenb
    lastoffset := s.pos - s.scan
    ctrl := s.ctrl ++ (offtout lenf ++ offtout extra ++ offtout ((s.pos - lenb) - (s.lastpos + lenf)))
    db := s.db ++ db
    eb := s.eb ++ eb }

def outerLoop (I : Words) (old new : Bytes) : Nat → State → Option State
  | 0, _ => none
  | fuel + 1, s =>
    if s.scan < new.length then do
      let scan := s.scan + s.len
      let found ← scanLoop I old new s.lastoffset (new.length + 1) scan ⟨scan, s.len, s.pos, 0⟩
      let s := { s with scan := found.scan, len := found.len, pos := found.pos }
      if found.len ≠ found.oldscore ∨ found.scan = new.length then do
        outerLoop I old new fuel (← emit old new s)
      else outerLoop I old new fuel s
    else some s

/-! ## `bsdiff` -/

/-- The control, difference and extra blocks; `pos` is what the variable happens to
    hold at first. -/
def blocks (I : Words) (pos : Int) (old new : Bytes) : Option (Bytes × Bytes × Bytes) := do
  let s ← outerLoop I old new (new.length + 2) ⟨0, 0, pos, 0, 0, 0, [], [], []⟩
  some (s.ctrl, s.db, s.eb)

/-- Memory as `bsdiff` finds it: the arrays it allocates for the suffix sort, and `pos`. -/
structure Found (old : Bytes) where
  I : Words
  V : Words
  pos : Int
  sizeI : I.length = old.length + 1
  sizeV : V.length = old.length + 1

variable (L : Libs)

/-- The sorted suffixes: those of an earlier call, or new ones. -/
def suffixes {old : Bytes} (found : Found old) : Option Words → Ret Words
  | some I => .ok I
  | none => Ret.need (qsufsort found.I found.V old)

/-- `bsdiff`: the patch file it writes, and the suffixes that it leaves to the next call
    with the same old data. -/
def bsdiff (old : Bytes) (found : Found old) (IP : Option Words) (new : Bytes) : Ret (Bytes × Words) := do
  let I ← suffixes found IP
  if L.room (new.length + 1) then do
    let (ctrl, db, eb) ← Ret.need (blocks I found.pos old new)
    let ctrl := L.bzEncode ctrl
    let diff := L.bzEncode db
    let header := ascii "BSDIFF40" ++ offtout ctrl.length ++ offtout diff.length ++ offtout new.length
    .ok (header ++ ctrl ++ diff ++ L.bzEncode eb, I)
  else .err 1

end Recovery.Bsdiff
