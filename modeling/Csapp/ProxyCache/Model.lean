import Mathlib

/-!
# The proxy's object cache

`cache.c`: a circular doubly linked list through `cache.head`, changed by the
four assignments of an insertion, a promotion or an eviction. A pointer is a
number, the head is pointer 0; the heap gives each field of each node and says
which nodes are allocated. The read-write lock makes each call one step.

Sizes are `size_t` and wrap. A `patience` is a `ssize_t`: the atomic decrement of
`cache_get` wraps, and the increments are never made on a value near the bound
(they follow a test for `<= 0`, or the result is overwritten at once). Strings
are the bytes before the terminating zero, which is what `strcmp` compares.
-/

namespace Csapp.ProxyCache

/-- The address of an entry. -/
abbrev Ptr := Nat

/-- Bytes, without the terminator of a string. -/
abbrev Str := List UInt8

/-- `&cache.head`. -/
def head : Ptr := 0

/-- The fields of `struct cache_entry`, each as a function of the pointer, and the
allocated pointers. -/
structure Cache where
  freesz : Nat
  next : Ptr → Ptr
  prev : Ptr → Ptr
  patience : Ptr → Int
  uri : Ptr → Str
  data : Ptr → Str
  size : Ptr → Nat
  live : Ptr → Bool

namespace Cache

variable (c : Cache)

/-- `p->next = v`. -/
def setNext (p v : Ptr) : Cache := { c with next := Function.update c.next p v }

/-- `p->prev = v`. -/
def setPrev (p v : Ptr) : Cache := { c with prev := Function.update c.prev p v }

/-- `p->patience = v`. -/
def setPatience (p : Ptr) (v : Int) : Cache :=
  { c with patience := Function.update c.patience p v }

/-- `cache.freesz += n` -/
def addFree (n : Nat) : Cache := { c with freesz := (c.freesz + n) % 18446744073709551616 }

/-- `cache.freesz -= n` -/
def subFree (n : Nat) : Cache :=
  { c with freesz := (c.freesz + 18446744073709551616 - n) % 18446744073709551616 }

/-- `free`, of an entry. -/
def free (p : Ptr) : Cache := { c with live := Function.update c.live p false }

end Cache

/-- `uri_gen` -/
def uriGen (host loc : Str) : Str := host ++ 47 :: loc

/-- `DEFAULT_PATIENCE` -/
def defaultPatience : Int := 3

/-- `cache_init` -/
def cacheInit (maxsize : Nat) : Cache where
  freesz := maxsize
  next _ := head
  prev _ := head
  patience _ := 0
  uri _ := []
  data _ := []
  size _ := 0
  live p := p = head

/-! ## Edits -/

/-- `cache_insert`: in front. -/
def cacheInsert (c : Cache) (node : Ptr) : Cache :=
  let c := c.setNext node (c.next head)
  let c := c.setPrev (c.next head) node
  let c := c.setPrev node head
  c.setNext head node

/-- `cache_promote`: to the front, with more patience. -/
def cachePromote (c : Cache) (node : Ptr) : Cache :=
  let c := c.setPatience node (c.patience node + defaultPatience)
  let c := c.setPrev (c.next node) (c.prev node)
  let c := c.setNext (c.prev node) (c.next node)
  let c := c.setNext node (c.next head)
  let c := c.setPrev node head
  let c := c.setPrev (c.next head) node
  c.setNext head node

/-- `cache.freesz += cache_evict(node)` -/
def cacheEvict (c : Cache) (node : Ptr) : Cache :=
  let c := c.setNext (c.prev node) (c.next node)
  let c := c.setPrev (c.next node) (c.prev node)
  (c.free node).addFree (c.size node)

/-! ## The calls -/

/-- The first loop of `cache_bookkeeping`, standing at `node`; the entry it finds,
if any. `none` when the fuel is used up. -/
def walk (pending : Ptr) : Nat → Cache → Ptr → Option (Cache × Option Ptr)
  | 0, _, _ => none
  | fuel + 1, c, node =>
    if node = head then some (c, none)
    else if c.uri node = c.uri pending then
      some ((cachePromote c node).setPatience node defaultPatience, some node)
    else
      let node := c.prev node
      let last := c.next node
      if c.patience last ≤ 0 then walk pending fuel (cachePromote c last) node
      else if c.freesz < c.size pending then walk pending fuel (cacheEvict c last) node
      else walk pending fuel c node

/-- The inner loop of the second loop. -/
def drain : Nat → Cache → Ptr → Option Cache
  | 0, _, _ => none
  | fuel + 1, c, node =>
    if node = head then some c
    else
      let node := c.prev node
      let last := c.next node
      if c.patience last ≤ 0 then drain fuel (cachePromote c last) node
      else drain fuel (cacheEvict c last) node

/-- The second loop. -/
def drainWhile (pending : Ptr) : Nat → Cache → Option Cache
  | 0, _ => none
  | fuel + 1, c =>
    if c.freesz < c.size pending then
      match drain fuel c (c.prev head) with
      | none => none
      | some c => drainWhile pending fuel c
    else some c

/-- `cache_bookkeeping`: the entry with the URI of `pending`, or room for it. -/
def cacheBookkeeping (fuel : Nat) (c : Cache) (pending : Ptr) : Option (Cache × Option Ptr) :=
  match walk pending fuel c (c.prev head) with
  | none => none
  | some (c, some found) => some (c, some found)
  | some (c, none) =>
    match drainWhile pending fuel c with
    | none => none
    | some c => some (c, none)

/-- `entry_create`; `p` is the address that `malloc` returns. -/
def entryCreate (c : Cache) (p : Ptr) (host loc buf : Str) : Cache :=
  { c with
    patience := Function.update c.patience p defaultPatience
    uri := Function.update c.uri p (uriGen host loc)
    data := Function.update c.data p buf
    size := Function.update c.size p buf.length
    live := Function.update c.live p true }

/-- `cache_put`, with the address that `malloc` gives. -/
def cachePut (fuel : Nat) (c : Cache) (p : Ptr) (host loc buf : Str) : Option Cache :=
  let c := entryCreate c p host loc buf
  match cacheBookkeeping fuel c p with
  | none => none
  | some (c, some _) => some (c.free p)
  | some (c, none) => some (cacheInsert (c.subFree buf.length) p)

/-- The loop of `cache_get`. -/
def lookup (uri : Str) : Nat → Cache → Ptr → Option Ptr
  | 0, _, _ => none
  | fuel + 1, c, node =>
    if node = head then some head
    else if c.uri node = uri then some node
    else lookup uri fuel c (c.next node)

/-- `memcpy(dst, src, n)`; the memory at a pointer is a list of bytes, as long as the
allocation. -/
def memcpy (dst src : Str) (n : Nat) : Str := src.take n ++ dst.drop n

/-- `cache_get`, with `*buf` and `*bufsz` before and after; the flag is the result. -/
def cacheGet (fuel : Nat) (c : Cache) (host loc buf : Str) (bufsz : Nat) :
    Option (Cache × Bool × Str × Nat) :=
  match lookup (uriGen host loc) fuel c (c.next head) with
  | none => none
  | some node =>
    if node ≠ head then
      let buf := if bufsz < c.size node then List.replicate (c.size node) 0 else buf
      let bufsz := c.size node
      some (c.setPatience node ((c.patience node - 1).bmod 18446744073709551616), true,
        memcpy buf (c.data node) bufsz, bufsz)
    else some (c, false, buf, bufsz)

end Csapp.ProxyCache
