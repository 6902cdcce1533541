import Mathlib
import Csapp.Lib.Linearizable
import Csapp.ProxyCache.Invariant

/-!
# The object cache and its threads

The proxy serves each connection on a thread of its own, and all of them call
the same cache. Here the calls are taken apart: a step is one iteration of a loop,
one copy, one taking or giving back of the lock, and the steps of different
threads come in any order. The loops need no fuel, for a step does not loop.

A read-write lock is a rule on who may take it: a reader when no thread
holds it for writing, a writer when no thread holds it at all. Who holds it can be
read off where the threads stand.
-/

namespace Csapp.ProxyCache

/-- The calls. -/
inductive Op
  | get (host loc buf : Str) (bufsz : Nat)
  | put (host loc buf : Str)

/-- Their results. -/
inductive Res
  | got (hit : Bool) (buf : Str) (bufsz : Nat)
  | put

/-- Where a thread stands, with its local variables: before it takes the lock, in a
loop and the node it has come to, before it gives the lock back. -/
inductive Pc
  | idle
  | getRdlock (uri buf : Str) (bufsz : Nat)
  | getFirst (uri buf : Str) (bufsz : Nat)
  | getLoop (uri buf : Str) (bufsz : Nat) (node : Ptr)
  | getCopy (buf : Str) (bufsz : Nat) (node : Ptr)
  | getPatience (buf : Str) (bufsz : Nat) (node : Ptr)
  | getUnlock (hit : Bool) (buf : Str) (bufsz : Nat)
  | putCreate (host loc buf : Str)
  | putWrlock (node : Ptr) (bufsz : Nat)
  | putFirst (node : Ptr) (bufsz : Nat)
  | putWalk (pending : Ptr) (bufsz : Nat) (node : Ptr)
  | putWhile (pending : Ptr) (bufsz : Nat)
  | putDrain (pending : Ptr) (bufsz : Nat) (node : Ptr)
  | putInsert (node : Ptr) (bufsz : Nat)
  | putUnlock (node : Ptr) (found : Option Ptr)
  | putDestroy (node : Ptr)
  | ret (r : Res)

namespace Pc

/-- Between `pthread_rwlock_rdlock` and the unlock. -/
def reading : Pc → Bool
  | getFirst .. | getLoop .. | getCopy .. | getPatience .. | getUnlock .. => true
  | _ => false

/-- Between `pthread_rwlock_wrlock` and the unlock. -/
def writing : Pc → Bool
  | putFirst .. | putWalk .. | putWhile .. | putDrain .. | putInsert .. | putUnlock .. => true
  | _ => false

/-- The thread holds the lock. -/
def holding (pc : Pc) : Bool := pc.reading || pc.writing

/-- The entry a thread has created and neither listed nor destroyed. -/
def hand : Pc → Option Ptr
  | putWrlock p _ | putFirst p _ | putWalk p _ _ | putWhile p _ | putDrain p _ _ | putInsert p _
  | putUnlock p (some _) | putDestroy p => some p
  | _ => none

end Pc

/-- The first statement of a call. -/
def enter : Op → Pc
  | .get host loc buf bufsz => .getRdlock (uriGen host loc) buf bufsz
  | .put host loc buf => .putCreate host loc buf

/-- The steps that wait for nothing. -/
def advance (c : Cache) : Pc → Option (Cache × Pc)
  | .getFirst uri buf bufsz => some (c, .getLoop uri buf bufsz (c.next head))
  | .getLoop uri buf bufsz node =>
    if node = head then some (c, .getUnlock false buf bufsz)
    else if c.uri node = uri then some (c, .getCopy buf bufsz node)
    else some (c, .getLoop uri buf bufsz (c.next node))
  | .getCopy buf bufsz node =>
    let buf := if bufsz < c.size node then List.replicate (c.size node) 0 else buf
    let bufsz := c.size node
    some (c, .getPatience (memcpy buf (c.data node) bufsz) bufsz node)
  | .getPatience buf bufsz node =>
    some (c.setPatience node ((c.patience node - 1).bmod 18446744073709551616),
      .getUnlock true buf bufsz)
  | .getUnlock hit buf bufsz => some (c, .ret (.got hit buf bufsz))
  | .putFirst p bufsz => some (c, .putWalk p bufsz (c.prev head))
  | .putWalk p bufsz node =>
    if node = head then some (c, .putWhile p bufsz)
    else if c.uri node = c.uri p then
      some ((cachePromote c node).setPatience node defaultPatience, .putUnlock p (some node))
    else
      let node := c.prev node
      let last := c.next node
      if c.patience last ≤ 0 then some (cachePromote c last, .putWalk p bufsz node)
      else if c.freesz < c.size p then some (cacheEvict c last, .putWalk p bufsz node)
      else some (c, .putWalk p bufsz node)
  | .putWhile p bufsz =>
    if c.freesz < c.size p then some (c, .putDrain p bufsz (c.prev head))
    else some (c, .putInsert p bufsz)
  | .putDrain p bufsz node =>
    if node = head then some (c, .putWhile p bufsz)
    else
      let node := c.prev node
      let last := c.next node
      if c.patience last ≤ 0 then some (cachePromote c last, .putDrain p bufsz node)
      else some (cacheEvict c last, .putDrain p bufsz node)
  | .putInsert p bufsz => some (cacheInsert (c.subFree bufsz) p, .putUnlock p none)
  | .putUnlock p (some _) => some (c, .putDestroy p)
  | .putUnlock _ none => some (c, .ret .put)
  | .putDestroy p => some (c.free p, .ret .put)
  | .idle | .getRdlock .. | .putCreate .. | .putWrlock .. | .ret _ => none

/-- The cache, and where each thread stands. -/
structure Threads (ι : Type) where
  cache : Cache
  pc : ι → Pc

/-- Callers put only what can fit. -/
def fits (maxsize : Nat) : Op → Prop
  | .get .. => True
  | .put _ _ buf => buf.length ≤ maxsize

variable {ι : Type} [DecidableEq ι]

/-- Before the first call. -/
def Threads.init (ι : Type) (maxsize : Nat) : Threads ι := ⟨cacheInit maxsize, fun _ => .idle⟩

/-- Thread `i` stands at `pc`, and the cache is `c`. -/
def Threads.goto (s : Threads ι) (i : ι) (c : Cache) (pc : Pc) : Threads ι :=
  ⟨c, Function.update s.pc i pc⟩

/-- A step of thread `i`. -/
inductive StepBy (maxsize : Nat) (i : ι) :
    Threads ι → Option (CallEvent ι Op Res) → Threads ι → Prop
  | call {s : Threads ι} {op : Op} : s.pc i = .idle → fits maxsize op →
      StepBy maxsize i s (some (.call i op)) (s.goto i s.cache (enter op))
  /-- `entry_create`; `malloc` returns an address that is not in use. -/
  | create {s : Threads ι} {host loc buf : Str} {p : Ptr} : s.pc i = .putCreate host loc buf →
      s.cache.live p = false →
      StepBy maxsize i s none
        (s.goto i (entryCreate s.cache p host loc buf) (.putWrlock p buf.length))
  | rdlock {s : Threads ι} {uri buf : Str} {bufsz : Nat} : s.pc i = .getRdlock uri buf bufsz →
      (∀ j, (s.pc j).writing = false) →
      StepBy maxsize i s none (s.goto i s.cache (.getFirst uri buf bufsz))
  | wrlock {s : Threads ι} {p : Ptr} {bufsz : Nat} : s.pc i = .putWrlock p bufsz →
      (∀ j, (s.pc j).holding = false) →
      StepBy maxsize i s none (s.goto i s.cache (.putFirst p bufsz))
  | run {s : Threads ι} {c : Cache} {pc : Pc} : advance s.cache (s.pc i) = some (c, pc) →
      StepBy maxsize i s none (s.goto i c pc)
  | ret {s : Threads ι} {r : Res} : s.pc i = .ret r →
      StepBy maxsize i s (some (.ret i r)) (s.goto i s.cache .idle)

/-- A step of some thread. -/
def Step (maxsize : Nat) (s : Threads ι) (a : Option (CallEvent ι Op Res)) (t : Threads ι) : Prop :=
  ∃ i, StepBy maxsize i s a t

/-- The calls as `cacheGet` and `cachePut` have them. -/
inductive CacheAct : Cache → Op → Cache → Res → Prop
  | get {c c' : Cache} {host loc buf buf' : Str} {fuel bufsz bufsz' : Nat} {hit : Bool} :
      cacheGet fuel c host loc buf bufsz = some (c', hit, buf', bufsz') →
      CacheAct c (.get host loc buf bufsz) c' (.got hit buf' bufsz')
  | put {c c' : Cache} {p : Ptr} {host loc buf : Str} {fuel : Nat} : c.live p = false →
      cachePut fuel c p host loc buf = some c' → CacheAct c (.put host loc buf) c' .put

/-- The invariant of the calls is the one of `Reach`. -/
theorem CacheAct.reach {maxsize : Nat} {c c' : Cache} {op : Op} {r : Res}
    (h : Reach maxsize c) (hf : fits maxsize op) (ha : CacheAct c op c' r) : Reach maxsize c' := by
  cases ha with
  | get hc => exact h.get hc
  | put hp hc => exact h.put hp hf hc

/-! ## More than one entry in hand -/

section

variable {c : Cache} {hand l : List Ptr} {p : Ptr}

theorem Listed.fresh (h : Listed c hand l) (hp : c.live p = false) : p ∉ head :: (hand ++ l) := by
  intro hm
  rw [(h.live p).mpr hm] at hp
  cases hp

theorem Listed.setPatience (h : Listed c hand l) (q : Ptr) (v : Int) :
    Listed (c.setPatience q v) hand l := ⟨h.ring, h.nodup, h.live⟩

/-- An entry in hand is neither the head nor listed. -/
theorem Listed.off_list (h : Listed c hand l) (hp : p ∈ hand) : p ∉ head :: l := by
  have hnd := h.nodup
  rw [List.nodup_cons, List.nodup_append] at hnd
  intro hm
  cases hm with
  | head => exact hnd.1 (List.mem_append_left l hp)
  | tail _ hm => exact hnd.2.2.2 p hp p hm rfl

theorem Listed.perm {hand' : List Ptr} (h : Listed c hand l) (hh : hand.Perm hand') :
    Listed c hand' l where
  ring := h.ring
  nodup := ((hh.append_right l).cons head).nodup_iff.mp h.nodup
  live q := (h.live q).trans ((hh.append_right l).cons head).mem_iff

theorem Listed.create (h : Listed c hand l) (hp : c.live p = false) (host loc buf : Str) :
    Listed (entryCreate c p host loc buf) (p :: hand) l where
  ring := h.ring
  nodup := by
    have hf := h.fresh hp
    rw [List.mem_cons, not_or] at hf
    have hnd := h.nodup
    rw [List.nodup_cons] at hnd
    rw [List.cons_append, List.nodup_cons, List.mem_cons, not_or, List.nodup_cons]
    exact ⟨⟨Ne.symm hf.1, hnd.1⟩, hf.2, hnd.2⟩
  live q := by
    change Function.update c.live p true q = true ↔ _
    by_cases hq : q = p
    · simp [hq]
    · rw [Function.update_of_ne hq, h.live q]
      simp [hq]

/-- The hand is empty of `p`, whichever way it went. -/
theorem Listed.hand_perm (hp : p ∈ hand) : hand.Perm (p :: hand.erase p) :=
  List.perm_cons_erase hp

theorem Listed.insert_hand (h : Listed c hand l) (hp : p ∈ hand) :
    Listed (cacheInsert c p) (hand.erase p) (p :: l) where
  ring := cacheInsert_ring h.ring h.nodup_ring (h.off_list hp)
  nodup := by
    have hnd := (h.perm (Listed.hand_perm hp)).nodup
    refine (List.Perm.nodup_iff (List.Perm.cons head ?_)).mp hnd
    exact List.perm_middle.symm
  live q := by
    refine ((h.perm (Listed.hand_perm hp)).live q).trans ?_
    simp only [List.mem_cons, List.mem_append]
    tauto

theorem Listed.destroy (h : Listed c hand l) (hp : p ∈ hand) :
    Listed (c.free p) (hand.erase p) l := by
  have h' := h.perm (Listed.hand_perm hp)
  have hnd := h'.nodup
  rw [List.cons_append, List.nodup_cons, List.nodup_cons, List.mem_cons, not_or] at hnd
  refine ⟨h.ring, List.nodup_cons.mpr ⟨hnd.1.2, hnd.2.2⟩, ?_⟩
  intro q
  have hl := h'.live q
  change Function.update c.live p false q = true ↔ _
  by_cases hq : q = p
  · have hph : p ∉ head :: (hand.erase p ++ l) :=
      List.not_mem_cons_of_ne_of_not_mem (Ne.symm hnd.1.1) hnd.2.1
    rw [hq, Function.update_self]
    simp [hph]
  · rw [Function.update_of_ne hq, hl]
    simp [hq]

end

end Csapp.ProxyCache
