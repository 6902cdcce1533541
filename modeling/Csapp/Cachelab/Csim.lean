import Mathlib
import Csapp.Lib.ForLoop
import Csapp.Lib.Lines

/-!
# The cache simulator

`cache.c`, `params.c` and `csim.c`. Options are taken as parsed: `-s`, `-E` and
`-b` are the numbers in `Params`, and the trace file has been opened with
`errno` still zero. Memory from `malloc` has arbitrary contents; `junk` is what
the time stamps hold before they are written. What `-v` prints is left out.

A run is undefined, `none`, where a counter overflows, an index is out of its
array or a variable of `run` is used that no `sscanf` has written.
-/

namespace Csapp.Cachelab

/-- An address of the trace. -/
abbrev Addr := BitVec 64

/-! ## Geometry -/

/-- `-s`, `-E` and `-b`. -/
structure Params where
  s : Nat
  lines : Nat
  b : Nat

/-- `1 << params.s` is an `int`. -/
def Params.setsz (p : Params) : BitVec 64 := ((1 : BitVec 32) <<< p.s).signExtend 64

/-- `setmsk`. -/
def Params.setmsk (p : Params) : BitVec 64 := (p.setsz - 1) <<< p.b

/-- `tagmsk`. -/
def Params.tagmsk (p : Params) : BitVec 64 :=
  BitVec.allOnes 64 &&& ~~~p.setmsk &&& (BitVec.allOnes 64 <<< p.b)

/-! ## The cache -/

/-- A line: its tag, or `-1`, and the time stamp. -/
structure CacheLine where
  tag : Int
  ts : BitVec 64

/-- The sets and the clock. -/
structure Cache where
  sets : Nat → List CacheLine
  tick : BitVec 64

/-- `init_cache`. -/
def initCache (p : Params) (junk : Nat → Nat → BitVec 64) : Cache where
  sets := fun i => (List.range p.lines).map fun j => ⟨-1, junk i j⟩
  tick := 0

/-- The flags of `CacheOpResult`. -/
abbrev OpResult := BitVec 32

/-- `kHit`. -/
def kHit : OpResult := 1

/-- `kMiss`. -/
def kMiss : OpResult := 2

/-- `kEvict`. -/
def kEvict : OpResult := 4

/-- How the loop over the lines ends. -/
inductive Scan
  | hit (i : Nat)
  | miss (argmin : Nat) (minTs : BitVec 64)

/-- The loop of `access_cache` over the lines of a set. -/
def scan (tag : Int) : List CacheLine → Nat → BitVec 64 → Nat → Scan
  | [], _, minTs, argmin => .miss argmin minTs
  | l :: ls, i, minTs, argmin =>
    if l.tag = tag then .hit i
    else if l.tag < 0 then .miss i 0
    else if l.ts < minTs then scan tag ls (i + 1) l.ts i
    else scan tag ls (i + 1) minTs argmin

/-- `access_cache`. -/
def accessCache (p : Params) (addr : Addr) (c : Cache) : Option (OpResult × Cache) :=
  let tag := ((p.tagmsk &&& addr) >>> 1).toInt
  let setid := ((p.setmsk &&& addr) >>> p.b).toInt
  if setid < 0 ∨ p.setsz.toNat ≤ setid then none
  else
    let lines := c.sets setid.toNat
    let tick := c.tick + 1
    match scan tag lines 0 (BitVec.allOnes 64) 0 with
    | .hit i =>
      let lines := lines.modify i fun l => { l with ts := tick }
      some (kHit, ⟨fun k => if k = setid.toNat then lines else c.sets k, tick⟩)
    | .miss argmin minTs =>
      if lines.length ≤ argmin then none
      else
        let lines := lines.modify argmin fun _ => ⟨tag, tick⟩
        some (if minTs ≠ 0 then kMiss ||| kEvict else kMiss,
          ⟨fun k => if k = setid.toNat then lines else c.sets k, tick⟩)

/-! ## The trace -/

/-- `counts` of `run`: hits, misses, evictions. -/
abbrev Counts := Fin 3 → Nat

/-- `++counts[i]`, of an `int`. -/
def bump (counts : Counts) (i : Fin 3) : Option Counts := do
  let v ← int (counts i + 1)
  return fun k => if k = i then v else counts k

/-- A count goes up if the result has the flag. -/
def countOp (mask : OpResult) (i : Fin 3) (result : OpResult) (counts : Counts) : Option Counts :=
  if mask &&& result ≠ 0 then bump counts i else some counts

/-- `handle_entry`. -/
def handleEntry (p : Params) (addr : Addr) (c : Cache) (counts : Counts) :
    Option (Cache × Counts) := do
  let (result, c) ← accessCache p addr c
  let counts ← countOp kHit 0 result counts
  let counts ← countOp kMiss 1 result counts
  let counts ← countOp kEvict 2 result counts
  return (c, counts)

/-- `isspace`. -/
def isSpace (c : Char) : Bool :=
  c = ' ' || c = '\t' || c = '\n' || c.toNat = 11 || c.toNat = 12 || c = '\r'

/-- The digits of 16 that are letters. -/
def isHexLetter (c : Char) : Bool := ('a' ≤ c && c ≤ 'f') || ('A' ≤ c && c ≤ 'F')

/-- The digits of a base, 10 or 16. -/
def isDigitOf (base : Nat) (c : Char) : Bool := c.isDigit || (base = 16 && isHexLetter c)

/-- The value of a digit. -/
def digitVal (c : Char) : Nat :=
  if c.isDigit then c.toNat - '0'.toNat
  else if 'a' ≤ c then c.toNat - 'a'.toNat + 10
  else c.toNat - 'A'.toNat + 10

/-- The value of a string of digits. -/
def numVal (base : Nat) (ds : List Char) : Nat :=
  ds.foldl (fun v c => v * base + digitVal c) 0

/-- The digits of a number and what follows, with the `0x` of a hexadecimal
one skipped; `none` if there is no number. -/
def scanDigits (base : Nat) (l : List Char) : Option (Nat × List Char) :=
  let plain :=
    let ds := l.takeWhile (isDigitOf base)
    if ds = [] then none else some (numVal base ds, l.dropWhile (isDigitOf base))
  match l with
  | '0' :: x :: l' =>
    if base = 16 ∧ (x = 'x' ∨ x = 'X') then
      some (numVal base (l'.takeWhile (isDigitOf base)), l'.dropWhile (isDigitOf base))
    else plain
  | _ => plain

/-- The conversions `%lx` and `%lu`, by way of `strtoul`. -/
def scanNum (base : Nat) (l : List Char) : Option (BitVec 64 × List Char) :=
  let l := l.dropWhile isSpace
  let (neg, l) :=
    match l with
    | '-' :: l => (true, l)
    | '+' :: l => (false, l)
    | l => (false, l)
  match scanDigits base l with
  | none => none
  | some (v, l) =>
    some (if 2 ^ 64 ≤ v then BitVec.allOnes 64
      else if neg then -BitVec.ofNat 64 v else BitVec.ofNat 64 v, l)

/-- The variables that `sscanf` writes. -/
structure Vars where
  type : Option Char
  addr : Option Addr
  size : Option (BitVec 64)

/-- `sscanf(buf, " %c %lx,%lu", &type, &addr, &size)`: what is written before
the first conversion that fails stays written. -/
def scanEntry (buf : List Char) (v : Vars) : Vars :=
  match (buf.takeWhile fun c => c.toNat ≠ 0).dropWhile isSpace with
  | [] => v
  | c :: l =>
    let v := { v with type := some c }
    match scanNum 16 l with
    | none => v
    | some (addr, l) =>
      let v := { v with addr := some addr }
      match l with
      | ',' :: l =>
        match scanNum 10 l with
        | none => v
        | some (size, _) => { v with size := some size }
      | _ => v

/-- The variables of `run` from one turn of its loop to the next. -/
structure RunState where
  vars : Vars
  cache : Cache
  counts : Counts

/-- A turn of the loop of `run`. -/
def runLine (p : Params) (buf : List Char) (r : RunState) : Option RunState :=
  if buf.head? ≠ some ' ' then some r
  else do
    let v := scanEntry buf r.vars
    let type ← v.type
    let addr ← v.addr
    let _size ← v.size
    let (c, counts) ← handleEntry p addr r.cache r.counts
    if type = 'M' then
      let (c, counts) ← handleEntry p addr c counts
      return ⟨v, c, counts⟩
    else
      return ⟨v, c, counts⟩

/-- `main` after the options: what `printSummary` is called with. -/
def run (p : Params) (junk : Nat → Nat → BitVec 64) (trace : List Char) : Option Counts := do
  let r ← (getlines '\n' trace).foldlM (fun r buf => runLine p buf r)
    ⟨⟨none, none, none⟩, initCache p junk, fun _ => 0⟩
  return r.counts

end Csapp.Cachelab
