import Mathlib
import Csapp.Malloc.Extent
import Csapp.Malloc.Invariant

/-!
# The debug build

With `MM_DEBUG`, `mm_init`, `mm_malloc`, `mm_free` and `mm_realloc` end with a
call of `mm_check`, which walks the class lists and then the blocks, and a
failed check turns the answer into an error. Here is the checker, and the proof
that it finds nothing on any heap of any run: so the debug build answers what
the plain one answers, and prints no error line.

What `mm_log` and `mm_dlog` print on the way is left out.
-/

namespace Csapp.Malloc

/-! ## `mm_check` -/

/-- `printbool`. -/
def printbool (b : Bool) : String := if b then "true" else "false"

/-- What `mm_error` is given. -/
structure Fault where
  reason : String
  ptr : Nat
  size : Nat
  alloc : Bool

/-- The line, for the way `%p` prints a pointer. -/
def Fault.msg (showPtr : Nat → String) (f : Fault) : String :=
  f.reason ++ " (addr: " ++ showPtr f.ptr ++ ", size: " ++ toString f.size ++ ", allocated: " ++
    printbool f.alloc ++ ")\n"

/-- `goto fail` with `ptr` and `reason`. -/
def fail (m : Mem) (reason : String) (ptr : Nat) : Option (Option Fault) :=
  some (some ⟨reason, ptr, size m (hdrp ptr), aloc m (hdrp ptr) ≠ 0⟩)

/-- The inner `free_for`, at `node`. -/
def checkList (m : Mem) (head cls : Nat) : Nat → Nat → Option (Option Fault)
  | 0, _ => none
  | fuel + 1, node =>
      if node = head then some none
      else if aloc m (hdrp node) ≠ 0 then fail m "free node is marked allocated" node
      else
        let size := size m (hdrp node)
        if size < cls ∨ (u32 (2 * cls) ≤ size ∧ cls ≠ chunkSize) then
          fail m "free node size is inconsistent with class" node
        else checkList m head cls fuel (next m node)

/-- The `class_for`, and where it leaves `curr`. -/
def checkClasses (m : Mem) (walk beginHeap : Nat) :
    Nat → Nat → Nat → Option (Except Fault Nat)
  | 0, _, _ => none
  | fuel + 1, i, cls =>
      if cls ≤ chunkSize then
        let head := classHead beginHeap i
        match checkList m head cls walk (next m head) with
        | none => none
        | some (some f) => some (.error f)
        | some none => checkClasses m walk beginHeap fuel (i + 1) (u32 (2 * cls))
      else some (.ok i)

/-- The loop over the blocks, at `ptr`. -/
def checkBlocks (m : Mem) (endHeap : Nat) : Nat → Nat → Option (Option Fault)
  | 0, _ => none
  | fuel + 1, ptr =>
      if ptr < endHeap then
        if get m (hdrp ptr) ≠ get m (ftrp m ptr) then
          fail m "inconsistent header and footer" ptr
        else if aloc m (hdrp ptr) ≠ 0 then checkBlocks m endHeap fuel (nextblk m ptr)
        else if prev m (next m ptr) ≠ ptr ∨ next m (prev m ptr) ≠ ptr then
          fail m "malformed free list" ptr
        else checkBlocks m endHeap fuel (nextblk m ptr)
      else some none

/-- `mm_check` with `MM_DEBUG`: the fault it prints before it returns 0, if any. -/
def mmCheck (h : Heap) : Option (Option Fault) :=
  let walk := h.brk - h.startBrk
  match checkClasses h.mem walk h.beginHeap 32 0 minAlloc with
  | none => none
  | some (.error f) => some (some f)
  | some (.ok i) =>
      checkBlocks h.mem h.endHeap walk (u32 (classHead h.beginHeap i + dsize))

/-! ## The calls with the check -/

namespace Debug

/-- `if (!mm_check()) return bad; return r;` -/
def checked {α : Type} (h : Heap) (r bad : α) : Option ((Heap × α) × Option Fault) := do
  let fault ← mmCheck h
  return ((h, if fault.isSome then bad else r), fault)

/-- `mm_init` of the debug build. -/
def mmInit (h : Heap) : Option ((Heap × Int) × Option Fault) := do
  let r ← Malloc.mmInit h
  if r.2 = -1 then return (r, none) else checked r.1 r.2 (-1)

/-- `mm_malloc` of the debug build. -/
def mmMalloc (h : Heap) (size : Nat) : Option ((Heap × Nat) × Option Fault) :=
  if size = 0 then some ((h, 0), none)
  else do
    let r ← allocateBlock h (allocSize size)
    if r.2 = 0 then return (r, none) else checked r.1 r.2 0

/-- `mm_free_nonnull` of the debug build. -/
def mmFreeNonnull (h : Heap) (ptr : Nat) : Option (Heap × Option Fault) := do
  let h ← Malloc.mmFreeNonnull h ptr
  let fault ← mmCheck h
  return (h, fault)

/-- `mm_free` of the debug build. -/
def mmFree (h : Heap) (ptr : Nat) : Option (Heap × Option Fault) :=
  if ptr = 0 then some (h, none) else mmFreeNonnull h ptr

/-- Both successful ends of `mm_realloc` are checked, the failed one is not. -/
def mmRealloc (h : Heap) (ptr size : Nat) : Option ((Heap × Nat) × Option Fault) :=
  if ptr = 0 then mmMalloc h size
  else if size = 0 then do
    let r ← mmFreeNonnull h ptr
    return ((r.1, 0), r.2)
  else do
    let r ← Malloc.mmRealloc h ptr size
    if r.2 = 0 then return (r, none) else checked r.1 r.2 0

end Debug

/-! ## A heap at rest passes -/

/-- The sizes in a class. -/
theorem classIdx_bounds {n c : Nat} (hn : 16 ≤ n) (hc : classIdx n = c) :
    16 * 2 ^ c ≤ n ∧ (n < 2 * (16 * 2 ^ c) ∨ c = 8) := by
  have hlog : 4 ≤ Nat.log 2 n := Nat.le_log_of_pow_le (by decide) hn
  have hpow : 2 ^ Nat.log 2 n ≤ n := Nat.pow_log_le_self 2 (by omega)
  have hlt : n < 2 ^ (Nat.log 2 n + 1) := Nat.lt_pow_succ_log_self (by decide) n
  rw [classIdx] at hc
  have hle : 2 ^ (c + 4) ≤ 2 ^ Nat.log 2 n := Nat.pow_le_pow_right (by decide) (by omega)
  rw [Nat.pow_add] at hle
  refine ⟨by omega, ?_⟩
  rcases Nat.lt_or_ge c 8 with h8 | h8
  · left
    rw [show Nat.log 2 n + 1 = c + 5 by omega, Nat.pow_add] at hlt
    omega
  · exact .inr (by omega)

/-- What `mm_check` asks of a node of class `c`. -/
def NodeOk (m : Mem) (c x : Nat) : Prop :=
  aloc m (hdrp x) = 0 ∧ 16 * 2 ^ c ≤ size m (hdrp x) ∧
    (size m (hdrp x) < 2 * (16 * 2 ^ c) ∨ c = 8)

theorem checkList_ok {m : Mem} {pv : Nat → Nat} {head c : Nat} {l : List Nat} (hc : c < 9) :
    ∀ {x fuel : Nat}, Seg (next m) pv x l head → head ∉ l → (∀ y ∈ l, NodeOk m c y) →
      l.length < fuel → checkList m head (16 * 2 ^ c) fuel (next m x) = some none := by
  have hp : 2 ^ c ≤ 2 ^ 8 := Nat.pow_le_pow_right (by decide) (by omega)
  have hu : u32 (2 * (16 * 2 ^ c)) = 2 * (16 * 2 ^ c) := u32_of_lt (by omega)
  induction l with
  | nil =>
      intro x fuel hs _ _ hf
      obtain ⟨k, rfl⟩ := Nat.exists_eq_add_of_lt hf
      rw [hs.1, checkList, if_pos rfl]
  | cons y l ih =>
      intro x fuel hs hn hok hf
      obtain ⟨k, rfl⟩ : ∃ k, fuel = k + 1 := ⟨fuel - 1, by omega⟩
      obtain ⟨hx, -, hs⟩ := hs
      obtain ⟨ha, hlo, hhi⟩ := hok y List.mem_cons_self
      have hne : y ≠ head := fun he => hn (he ▸ List.mem_cons_self)
      have hcls : ¬(size m (hdrp y) < 16 * 2 ^ c ∨
          (2 * (16 * 2 ^ c) ≤ size m (hdrp y) ∧ 16 * 2 ^ c ≠ chunkSize)) := by
        rintro (hlt | ⟨hge, hch⟩)
        · omega
        · rcases hhi with hhi | rfl
          · omega
          · exact hch rfl
      rw [hx, checkList, if_neg hne, if_neg (not_not.mpr ha), hu]
      dsimp only
      rw [if_neg hcls]
      exact ih hs (fun hm => hn (List.mem_cons_of_mem _ hm))
        (fun z hz => hok z (List.mem_cons_of_mem _ hz)) (by rw [List.length_cons] at hf; omega)

section
variable {h : Heap} {bs : List Blk} {fl : Nat → List Nat}

/-- The nodes of a class list are in their class. -/
theorem Rest.nodeOk (o : Rest h bs fl) {c x : Nat} (hc : c < 9) (hx : x ∈ fl c) :
    NodeOk h.mem c x := by
  obtain ⟨b, hb, rfl, hbf, hcl, -⟩ := o.free_block hc hx
  obtain ⟨-, hsize, haloc, -⟩ := o.macros hb
  rw [NodeOk, hsize, haloc, hbf]
  exact ⟨rfl, classIdx_bounds (o.mem (List.mem_append_left _ hb)).2.2.1 hcl⟩

/-- The class lists from `i` on pass, and `curr` is left behind the last. -/
theorem Rest.checkClasses_ok (o : Rest h bs fl) :
    ∀ {fuel i : Nat}, i ≤ 9 → 9 < i + fuel →
      checkClasses h.mem (h.brk - h.startBrk) h.beginHeap fuel i (16 * 2 ^ i) = some (.ok 9) := by
  have hb := o.begin_le
  have hlt := o.vars.lt
  have hch : chunkSize = 4096 := rfl
  intro fuel
  induction fuel with
  | zero =>
      intro i h9 hf
      omega
  | succ fuel ih =>
      intro i h9 hf
      rw [checkClasses, hch]
      rcases Nat.lt_or_ge i 9 with hi | hi
      · have hp : 2 ^ i ≤ 2 ^ 8 := Nat.pow_le_pow_right (by omega) (by omega)
        have hlist := checkList_ok hi (o.rings.ring i hi) (o.rings.fresh i i hi hi)
          (fun y hy => o.nodeOk hi hy) (o.length_lt hi)
        rw [if_pos (by omega), classHead_eq (by omega)]
        dsimp only
        rw [hlist]
        dsimp only
        rw [u32_of_lt (by omega), show 2 * (16 * 2 ^ i) = 16 * 2 ^ (i + 1) by
          rw [Nat.pow_succ]; omega]
        exact ih (by omega) (by omega)
      · obtain rfl : i = 9 := by omega
        rw [if_neg (by omega)]

/-- A free block is linked both ways. -/
theorem Rest.linked (o : Rest h bs fl) {b : Blk} (hb : b ∈ bs) (hf : b.alloc = false) :
    prev h.mem (next h.mem b.addr) = b.addr ∧ next h.mem (prev h.mem b.addr) = b.addr := by
  have hm : b.addr ∈ fl (classIdx b.size) := (o.listed _ (classIdx_lt _) _).mpr
    ⟨b, List.mem_append_left _ hb, rfl, hf, rfl⟩
  have hring := o.rings.ring _ (classIdx_lt b.size)
  exact ⟨(hring.next (List.mem_cons_of_mem _ hm)).2, (hring.prev (List.mem_cons_of_mem _ hm)).2⟩

/-- The walk over the blocks `l`, up to the end of the heap. -/
theorem Rest.checkBlocks_ok (o : Rest h bs fl) {l : List Blk} :
    ∀ {p fuel : Nat}, (∀ b ∈ l, b ∈ bs) → Tiles p l h.endHeap → l.length < fuel →
      checkBlocks h.mem h.endHeap fuel p = some none := by
  induction l with
  | nil =>
      intro p fuel _ ht hf
      obtain ⟨k, rfl⟩ : ∃ k, fuel = k + 1 := ⟨fuel - 1, by omega⟩
      obtain rfl : p = h.endHeap := ht
      rw [checkBlocks, if_neg (Nat.lt_irrefl _)]
  | cons b l ih =>
      intro p fuel hsub ht hf
      obtain ⟨k, rfl⟩ : ∃ k, fuel = k + 1 := ⟨fuel - 1, by omega⟩
      obtain ⟨rfl, -, -, ht⟩ := ht
      have hb := hsub b List.mem_cons_self
      obtain ⟨hget, -, haloc, hftr, hnext⟩ := o.macros hb
      have hbm := o.mem (List.mem_append_left _ hb)
      have hrest : checkBlocks h.mem h.endHeap k (b.addr + b.size) = some none :=
        ih (fun c hc => hsub c (List.mem_cons_of_mem _ hc)) ht
          (by rw [List.length_cons] at hf; omega)
      rw [checkBlocks, if_pos (by omega), hget, hftr, haloc, hnext, if_neg (not_not.mpr rfl)]
      cases ha : b.alloc with
      | true => exact hrest
      | false =>
          have hlink := o.linked hb ha
          rw [if_neg (by decide), hlink.1, hlink.2, if_neg (by simp)]
          exact hrest

theorem Tiles.length_le {a e : Nat} {l : List Blk} (ht : Tiles a l e) : a + l.length ≤ e := by
  induction l generalizing a with
  | nil => exact Nat.le_of_eq ht
  | cons b l ih =>
      obtain ⟨rfl, h16, -, ht⟩ := ht
      have := ih ht
      rw [List.length_cons]
      omega

theorem Rest.mmCheck_ok (o : Rest h bs fl) : mmCheck h = some none := by
  obtain ⟨l, rfl⟩ := o.pro
  have hb := o.begin_le
  have hlt := o.vars.lt
  have h1 := o.vars.top
  have h2 := o.vars.start
  have ht := o.tilesL.2.2.2
  have hcls : checkClasses h.mem (h.brk - h.startBrk) h.beginHeap 32 0 (16 * 2 ^ 0) =
      some (.ok 9) := o.checkClasses_ok (by omega) (by omega)
  have hlen := Tiles.length_le ht
  have hsize : (prologue h.beginHeap).size = 80 := rfl
  rw [mmCheck, show minAlloc = 16 * 2 ^ 0 from rfl, hcls]
  dsimp only
  rw [classHead_eq (by omega), u32_of_lt (by rw [dsize]; omega)]
  exact o.checkBlocks_ok (fun b hb => List.mem_cons_of_mem _ hb) ht (by omega)

end

/-! ## Every run -/

theorem Run.check {h₀ : Heap} {s : State} (hf : Fresh h₀) (hr : Run h₀ s) :
    mmCheck s.heap = some none := by
  obtain ⟨bs, fl, hi⟩ := (hr.reachable hf).inv
  exact hi.rest.mmCheck_ok

namespace Debug

/-- The answer of the plain build, with no fault. -/
def plain {α : Type} (r : Option α) : Option (α × Option Fault) := r.map (·, none)

theorem checked_ok {α : Type} {h : Heap} {r bad : α} (hc : mmCheck h = some none) :
    checked h r bad = some ((h, r), none) := by
  rw [checked, hc]
  rfl

section
variable {h₀ h : Heap} {live : List (Nat × Nat)}

theorem mmInit_plain (hf : Fresh h₀) : mmInit h₀ = plain (Malloc.mmInit h₀) := by
  rw [mmInit]
  by_cases hroom : h₀.brk + 4096 ≤ h₀.maxAddr
  · obtain ⟨h, fl, hm, -⟩ := mmInit_spec hf hroom
    rw [hm, Option.bind_eq_bind, Option.bind_some, if_neg (by dsimp only; decide)]
    exact checked_ok (Run.check hf (.init hm))
  · by_cases hr : SbrkInRange h₀ 4096
    · rw [mmInit_refused hr (by omega)]
      rfl
    · rw [mmInit_undefined hf hr]
      rfl

theorem mmMalloc_plain (hf : Fresh h₀) (hr : Run h₀ ⟨h, live⟩) {size : Nat}
    (hs : size ≤ maxRequest) : mmMalloc h size = plain (Malloc.mmMalloc h size) := by
  rw [mmMalloc]
  by_cases h0 : size = 0
  · rw [if_pos h0, Malloc.mmMalloc, if_pos h0]
    rfl
  · have hplain : Malloc.mmMalloc h size = allocateBlock h (allocSize size) := by
      rw [Malloc.mmMalloc, if_neg h0]
    rw [if_neg h0, ← hplain]
    cases hm : Malloc.mmMalloc h size with
    | none => rfl
    | some r =>
        obtain ⟨h', p⟩ := r
        rw [Option.bind_eq_bind, Option.bind_some]
        by_cases hp : p = 0
        · rw [if_pos hp]
          rfl
        · rw [if_neg hp]
          exact checked_ok (Run.check hf (hr.step (.malloc hs hm)))

theorem mmFreeNonnull_plain (hf : Fresh h₀) (hr : Run h₀ ⟨h, live⟩) {p n : Nat}
    (hp : (p, n) ∈ live) (h0 : p ≠ 0) : mmFreeNonnull h p = plain (Malloc.mmFreeNonnull h p) := by
  rw [mmFreeNonnull]
  cases hm : Malloc.mmFreeNonnull h p with
  | none => rfl
  | some h' =>
      have hfree : Malloc.mmFree h p = some h' := by rw [Malloc.mmFree, if_neg h0, hm]
      rw [Option.bind_eq_bind, Option.bind_some, Run.check hf (hr.step (.free hp hfree))]
      rfl

theorem mmFree_plain (hf : Fresh h₀) (hr : Run h₀ ⟨h, live⟩) {p n : Nat}
    (hp : (p, n) ∈ live ∨ p = 0) : mmFree h p = plain (Malloc.mmFree h p) := by
  rw [mmFree, Malloc.mmFree]
  by_cases h0 : p = 0
  · rw [if_pos h0, if_pos h0]
    rfl
  · rw [if_neg h0, if_neg h0]
    exact mmFreeNonnull_plain hf hr (hp.resolve_right h0) h0

theorem mmRealloc_plain (hf : Fresh h₀) (hr : Run h₀ ⟨h, live⟩) {p n size : Nat}
    (hp : (p, n) ∈ live ∨ p = 0) (hs : size ≤ maxRequest) :
    mmRealloc h p size = plain (Malloc.mmRealloc h p size) := by
  rw [mmRealloc]
  by_cases h0 : p = 0
  · rw [if_pos h0, Malloc.mmRealloc, if_pos h0]
    exact mmMalloc_plain hf hr hs
  have hp := hp.resolve_right h0
  rw [if_neg h0]
  by_cases hs0 : size = 0
  · rw [if_pos hs0, mmFreeNonnull_plain hf hr hp h0, Malloc.mmRealloc, if_neg h0, if_pos hs0]
    cases Malloc.mmFreeNonnull h p with
    | none => rfl
    | some h' => rfl
  · rw [if_neg hs0]
    cases hm : Malloc.mmRealloc h p size with
    | none => rfl
    | some r =>
        obtain ⟨h', q⟩ := r
        rw [Option.bind_eq_bind, Option.bind_some]
        by_cases hq : q = 0
        · rw [if_pos hq]
          rfl
        · rw [if_neg hq]
          exact checked_ok (Run.check hf (hr.step (.realloc hp hs0 hs hm hq)))

end

/-- On every heap of every run, `mm_check` returns 1, and so every call of the debug
build has the answer and the heap of the plain build. -/
theorem debug_build {h₀ : Heap} (hf : Fresh h₀) : mmInit h₀ = plain (Malloc.mmInit h₀) ∧
    ∀ s, Run h₀ s → mmCheck s.heap = some none ∧
      (∀ size, size ≤ maxRequest → mmMalloc s.heap size = plain (Malloc.mmMalloc s.heap size)) ∧
      ∀ p n, (p, n) ∈ s.live ∨ p = 0 → mmFree s.heap p = plain (Malloc.mmFree s.heap p) ∧
        ∀ size, size ≤ maxRequest →
          mmRealloc s.heap p size = plain (Malloc.mmRealloc s.heap p size) :=
  ⟨mmInit_plain hf, fun _ hr => ⟨hr.check hf, fun _ hs => mmMalloc_plain hf hr hs,
    fun _ _ hp => ⟨mmFree_plain hf hr hp, fun _ hs => mmRealloc_plain hf hr hp hs⟩⟩⟩

theorem debug_build_malloc : ∃ h h' p, Run emptyHeap ⟨h, []⟩ ∧
    mmMalloc h 100 = some ((h', p), none) := by
  obtain ⟨h, fl, hm, -, -, -, hmax, -⟩ := mmInit_spec emptyHeap_fresh (by decide)
  have hmx : h.maxAddr = 69632 := hmax
  have hr : Run emptyHeap ⟨h, []⟩ := .init hm
  obtain ⟨bs, fl, hi⟩ := (hr.reachable emptyHeap_fresh).inv
  have hin := (hi.inRange_of_le (by dsimp only; omega) 0 100).1
  obtain ⟨⟨h', p⟩, heq⟩ := hi.returns.1 100 (by decide) hin
  refine ⟨h, h', p, hr, ?_⟩
  have hall := ((debug_build emptyHeap_fresh).2 _ hr).2.1 100 (by decide)
  dsimp only at hall heq
  rw [hall, heq]
  rfl

end Debug

end Csapp.Malloc
