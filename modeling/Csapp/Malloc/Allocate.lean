import Mathlib
import Csapp.Malloc.Search

/-!
# Extending the heap and allocating

`extend_heap` moves the break, writes the new epilogue and merges the fresh
bytes with a free block before them; `allocate_block` takes a free block that
fits, or else extends, and splits. To its callers `allocate_block` is one
relation between block lists, `Carve`: somewhere an allocated block has been
cut from a free run, and every other block is where it was.
-/

namespace Csapp.Malloc

/-! ## Growing -/

/-- The size of the free block before the epilogue, `0` if that is allocated. -/
def tailSize (h : Heap) : Nat :=
  if aloc h.mem (pftrp h.endHeap) = 0 then get h.mem (pftrp h.endHeap) else 0

theorem extendSize_eq {h : Heap} {n : Nat} (he : h.endHeap ≠ 0) (hn : n < 4294967296)
    (ht : tailSize h ≤ n) :
    extendSize h.mem n h.endHeap =
      u32 (max 4096 (n - tailSize h) + 4095) - u32 (max 4096 (n - tailSize h) + 4095) % 4096 := by
  unfold extendSize tailSize at *
  rw [show chunkSize = 4096 from rfl]
  by_cases ha : aloc h.mem (pftrp h.endHeap) = 0
  · rw [if_pos ha] at ht
    rw [if_pos ⟨he, ha⟩, if_pos ha, sub32_of_le ht hn]
  · rw [if_neg ha] at ht
    rw [if_neg fun hc => ha hc.2, if_neg ha, Nat.sub_zero]

section

variable {h : Heap} {l r bs : List Blk} {a e : Nat} {fl : Nat → List Nat}

/-- The break has moved: the new bytes are the open region. -/
theorem Rest.grow (o : Rest h bs fl) {n : Nat} {m' : Mem} (hn : n % 8 = 0)
    (h16 : 16 ≤ n) (hmax : h.brk + n ≤ h.maxAddr)
    (hag : AgreeOff (h.endHeap - 4) (h.endHeap + n) h.mem m')
    (hepi : get m' (h.endHeap + n - 4) = 5) :
    Open { h with mem := m', brk := h.brk + n, endHeap := h.endHeap + n } bs h.endHeap
      (h.endHeap + n) [] fl := by
  have h8 := o.vars.begin8
  have hb := o.begin_le
  have hm := o.modR
  have htop := o.vars.top
  refine ⟨⟨h8, o.vars.beginMod, o.vars.start, by show h.endHeap + n = h.brk + n; omega,
    hmax, o.vars.maxLt⟩, o.pro, o.tilesL, by omega, rfl, by omega, hepi,
    fun b hbm => ?_, o.rings.congr fun y hy => ?_, o.listed⟩
  · obtain ⟨ht1, ht2⟩ := o.tags b hbm
    have hbb := o.mem hbm
    show get m' _ = _ ∧ get m' _ = _
    rw [hag.get (by omega), hag.get (by omega)]
    exact ⟨ht1, ht2⟩
  · have := o.node_region hy
    have hlt := (o.node_avoids hy).2.1
    exact ⟨hag.get (by omega), hag.get (by omega)⟩

/-- The new epilogue and the tags of the fresh bytes are in place. -/
theorem Rest.grow_put (o : Rest h bs fl) {n : Nat} (hn : n % 8 = 0) (h16 : 16 ≤ n)
    (hmax : h.brk + n ≤ h.maxAddr) :
    let m' := metaPut (put h.mem (h.endHeap + n - 4) 5) h.endHeap n
    Open { h with mem := m', brk := h.brk + n, endHeap := h.endHeap + n } bs h.endHeap
        (h.endHeap + n) [] fl ∧
      TagOk m' ⟨h.endHeap, n, false⟩ ∧ AgreeOff (h.endHeap - 4) (h.endHeap + n) h.mem m' := by
  have h8 := o.vars.begin8
  have hb := o.begin_le
  have htop := o.vars.top
  have hmx := o.vars.maxLt
  obtain ⟨htag, hout⟩ := metaPut_spec
    (m := put h.mem (h.endHeap + n - 4) 5) (b := ⟨h.endHeap, n, false⟩)
    (v := n) rfl (by show 8 ≤ h.endHeap; omega) (by show 16 ≤ n; omega) hn
    (by show h.endHeap + n < _; omega)
  simp only at hout
  have hag : AgreeOff (h.endHeap - 4) (h.endHeap + n) h.mem
      (metaPut (put h.mem (h.endHeap + n - 4) 5) h.endHeap n) := fun z hz => by
    rw [hout z (by omega) (by omega), put_of_ne (by omega)]
  have hepi : get (metaPut (put h.mem (h.endHeap + n - 4) 5) h.endHeap n)
      (h.endHeap + n - 4) = 5 := by
    rw [get_congr fun z h1 h2 => hout z (by omega) (by omega)]
    exact get_put_of_lt (by omega)
  exact ⟨o.grow hn h16 hmax hag hepi, htag, hag⟩

theorem Rest.end_pos (o : Rest h bs fl) : h.endHeap ≠ 0 := by
  have h8 := o.vars.begin8
  have hb := o.begin_le
  omega

theorem Rest.user_lt (o : Rest h bs fl) {z : Nat} (hz : UserByte bs h.beginHeap z) :
    z + 8 < h.endHeap := by
  obtain ⟨c, hc, -, -, h1, h2⟩ := hz
  have := (o.mem (List.mem_append_left _ hc)).2.1
  omega

theorem Rest.tail_eq {p : Blk} (o : Rest h (bs ++ [p]) fl) :
    tailSize h = if p.alloc then 0 else p.size := by
  have hp : p ∈ (bs ++ [p]) ++ [] := by simp
  have hpm := (o.mem hp).2.2.2.1
  have hlast := o.last_addr
  have hlt := o.vars.lt
  have hps := (o.mem hp).2.2.1
  have ht := (o.tags p hp).2
  rw [hlast, ← pftrp_eq (by omega) hlt] at ht
  unfold tailSize
  rw [aloc_of_tag hpm ht, ht]
  unfold Blk.tag
  cases p.alloc with
  | false => rfl
  | true => rfl

/-- The heap has no free block larger than the one the tail is part of. -/
theorem Rest.tail_lt (o : Rest h bs fl) {n : Nat} (hn : 0 < n)
    (hall : ∀ b ∈ bs, b.alloc = false → b.size < n) : tailSize h < n := by
  obtain ⟨l, p, rfl⟩ := o.last_exists
  rw [o.tail_eq]
  cases hp : p.alloc with
  | false => exact hall p (by simp) hp
  | true => exact hn

/-- The sum that `mem_sbrk` compares with its limit stays in the address space. -/
def SbrkInRange (h : Heap) (incr : Nat) : Prop :=
  incr < 2147483648 → h.brk + incr < 4294967296

/-- If `allocate_block` has to extend the heap, it can do so, or is refused, without
passing the end of the address space. -/
def AllocInRange (h : Heap) (size : Nat) : Prop :=
  findNode h size = some 0 → SbrkInRange h (extendSize h.mem size h.endHeap)

theorem memSbrk_refused {h : Heap} {incr : Nat} (hr : SbrkInRange h incr)
    (hs : 2147483648 ≤ incr ∨ h.maxAddr < h.brk + incr) : memSbrk h incr = none := by
  unfold memSbrk
  refine if_pos ?_
  rcases Nat.lt_or_ge incr 2147483648 with hlt | hge
  · rw [u32_of_lt (hr hlt)]
    exact hs
  · exact Or.inl hge

theorem memSbrk_granted {h : Heap} {n : Nat} (hi : n < 2147483648)
    (hm : h.brk + n ≤ h.maxAddr) (hlt : h.maxAddr < 4294967296) :
    memSbrk h n = some (h.brk, { h with brk := h.brk + n }) := by
  unfold memSbrk
  rw [u32_of_lt (by omega)]
  exact if_neg (by omega)

/-- A sum that wraps is below the break, and is granted. -/
theorem memSbrk_wraps {h : Heap} {incr : Nat} (hr : ¬ SbrkInRange h incr)
    (hb : h.brk ≤ h.maxAddr) (hlt : h.maxAddr < 4294967296) :
    u32 (h.brk + incr) < h.brk ∧
      memSbrk h incr = some (h.brk, { h with brk := u32 (h.brk + incr) }) := by
  obtain ⟨hi, hw⟩ := Classical.not_imp.mp hr
  have hlow : u32 (h.brk + incr) < h.brk := by
    unfold u32
    omega
  refine ⟨hlow, ?_⟩
  unfold memSbrk
  exact if_neg (by omega)

/-- The break moves by whole chunks. -/
theorem extendSize_mod (m : Mem) (n oldend : Nat) : extendSize m n oldend % 4096 = 0 := by
  unfold extendSize chunkSize
  dsimp only
  omega

/-- What `extend_heap` leaves behind: the blocks `l`, and behind them up to the
new break one free run that starts at `a` and has `n` bytes at least. -/
structure Extended (h h' : Heap) (bs : List Blk) (n : Nat) (l : List Blk) (a : Nat)
    (fl' : Nat → List Nat) : Prop where
  inv : Open h' l a h'.endHeap [] fl'
  trim : TrimLeft bs h.endHeap l a
  hdr : size h'.mem (a - 4) = h'.endHeap - a
  room : a + n ≤ h'.endHeap
  beginEq : h'.beginHeap = h.beginHeap
  startEq : h'.startBrk = h.startBrk
  maxEq : h'.maxAddr = h.maxAddr
  grown : h'.brk = h.brk + extendSize h.mem n h.endHeap
  user : ∀ z, UserByte bs h.beginHeap z → h'.mem z = h.mem z

/-- Past the end of the address space there is nothing to extend the heap with. -/
theorem Rest.extendHeap_undefined (o : Rest h bs fl) {n : Nat}
    (hr : ¬ SbrkInRange h (extendSize h.mem n h.endHeap)) :
    extendHeap h n h.endHeap = none := by
  obtain ⟨hlow, hsb⟩ := memSbrk_wraps hr o.vars.brkMax o.vars.maxLt
  unfold extendHeap
  dsimp only
  rw [hsb]
  exact if_pos hlow

theorem extendHeap_spec (o : Rest h bs fl) {n : Nat} (hn : n < 4294967296)
    (ht : tailSize h ≤ n) (hw : n ≤ 4294963200 + tailSize h)
    (hr : SbrkInRange h (extendSize h.mem n h.endHeap)) :
    (memSbrk h (extendSize h.mem n h.endHeap) = none ∧
        extendHeap h n h.endHeap = some (h, 0)) ∨
      ∃ h' l a fl', extendHeap h n h.endHeap = some (h', a) ∧
        Extended h h' bs n l a fl' := by
  have h8 := o.vars.begin8
  have hb := o.begin_le
  have hm := o.modR
  have htop := o.vars.top
  have hmx := o.vars.maxLt
  have hreq := extendSize_eq o.end_pos hn ht
  unfold u32 at hreq
  obtain ⟨req, hreq'⟩ : ∃ req, req = extendSize h.mem n h.endHeap := ⟨_, rfl⟩
  rw [← hreq'] at hreq hr
  have hge : n - tailSize h ≤ req ∧ 4096 ≤ req ∧ req % 8 = 0 := by omega
  unfold extendHeap
  rw [← hreq']
  by_cases hs : 2147483648 ≤ req ∨ h.maxAddr < h.brk + req
  · left
    have hsb := memSbrk_refused hr hs
    simp only [hsb]
    exact ⟨trivial, trivial⟩
  · right
    have hsb := memSbrk_granted (h := h) (n := req) (by omega) (by omega) hmx
    have hend : u32 (h.brk + req) = h.endHeap + req := by
      rw [u32_of_lt (by omega), htop]
    have h5 : pack wsize 1 = 5 := rfl
    simp only [hsb, hend]
    rw [if_neg (by omega), if_pos o.end_pos, hdrp_eq (by omega) (by omega), h5]
    obtain ⟨og, htag, hag⟩ := o.grow_put hge.2.2 (by omega) (by omega)
    obtain ⟨m', l', a', r', e', fl', hco, o', htl, htr, htg, hu, -, -⟩ :=
      coalesceWillFree_spec og (by omega) (by
        rw [size_of_tag (b := ⟨h.endHeap, req, false⟩) hge.2.2 htag.1]
        show req = h.endHeap + req - h.endHeap
        omega)
    obtain ⟨rfl, rfl⟩ : r' = [] ∧ e' = h.endHeap + req := by
      rcases htr with ⟨h1, h2, -⟩ | ⟨q, hq, -⟩
      · exact ⟨h1, h2⟩
      · cases hq
    simp only at hco hu
    rw [hco]
    refine ⟨_, l', a', fl', rfl, ⟨o', htl, ?_, ?_, rfl, rfl, rfl, by rw [hreq'],
      fun z hz => ?_⟩⟩
    · have ha' : a' % 8 = 0 := o'.modL
      exact size_of_tag (b := ⟨a', h.endHeap + req - a', false⟩)
        (by show (h.endHeap + req - a') % 8 = 0; omega) htg.1
    · show a' + n ≤ h.endHeap + req
      obtain ⟨l₀, p, rfl⟩ := o.last_exists
      rw [o.tail_eq] at hge
      rcases htl with ⟨-, rfl, hpa⟩ | ⟨q, hq, hqf, rfl, hqe⟩
      · rw [hpa p (by simp), if_pos rfl] at hge
        omega
      · obtain ⟨-, rfl⟩ := List.append_inj' hq rfl |>.imp_right List.singleton_inj.mp
        rw [hqf, if_neg Bool.false_ne_true] at hge
        omega
    · show m' z = h.mem z
      rw [hu z (by rwa [List.append_nil])]
      have := o.user_lt hz
      exact hag z (by omega)

end

/-! ## Carving -/

/-- No two neighbours are free, by the status function `st`. -/
def NoAdj (st : Blk → Bool) (bs : List Blk) : Prop :=
  bs.IsChain fun b c => st b = true ∨ st c = true

/-- `bs'` is `bs` with the allocated block `n`, and perhaps a free block behind
it, in the place of a free run, or at the end. -/
inductive Carve (n : Blk) : List Blk → List Blk → Prop
  | mk (pre old tail post : List Blk) (halloc : n.alloc = true)
      (hold : ∀ b ∈ old, b.alloc = false) (htail : ∀ b ∈ tail, b.alloc = false)
      (hlen : tail.length ≤ 1) (hend : old = [] → post = []) :
      Carve n (pre ++ (old ++ post)) (pre ++ n :: (tail ++ post))

theorem Carve.alloc {n : Blk} {bs bs' : List Blk} (hc : Carve n bs bs') :
    n.alloc = true ∧ n ∈ bs' := by
  cases hc with
  | mk pre old tail post halloc => exact ⟨halloc, by simp⟩

theorem Carve.mem_iff {n b : Blk} {bs bs' : List Blk} (hc : Carve n bs bs')
    (hb : b.alloc = true) : b ∈ bs' ↔ b ∈ bs ∨ b = n := by
  cases hc with
  | mk pre old tail post halloc hold htail hlen hend =>
      have ho : b ∉ old := fun hm => Bool.noConfusion ((hold b hm).symm.trans hb)
      have ht : b ∉ tail := fun hm => Bool.noConfusion ((htail b hm).symm.trans hb)
      simp only [List.mem_append, List.mem_cons, ho, ht, false_or]
      constructor
      · rintro (h | h | h)
        · exact Or.inl (Or.inl h)
        · exact Or.inr h
        · exact Or.inl (Or.inr h)
      · rintro ((h | h) | h)
        · exact Or.inl h
        · exact Or.inr (Or.inr h)
        · exact Or.inr (Or.inl h)

/-- Carving keeps free blocks apart. The status may be another than the
blocks' own, as long as it calls no free block allocated. -/
theorem Carve.noAdj {n : Blk} {bs bs' : List Blk} {st : Blk → Bool}
    (hc : Carve n bs bs') (hn : st n = true)
    (hst : ∀ b, b.alloc = false → st b = false) (hbs : NoAdj st bs) : NoAdj st bs' := by
  cases hc with
  | mk pre old tail post halloc hold htail hlen hend =>
      obtain ⟨h1, h2, -⟩ := List.isChain_append.mp hbs
      obtain ⟨-, h3, h4⟩ := List.isChain_append.mp h2
      have hpost : ∀ c ∈ post.head?, tail ≠ [] → st c = true := by
        intro c hcm _
        have hne : old ≠ [] := fun he => by
          rw [hend he] at hcm
          cases hcm
        have hl := h4 _ (List.getLast?_eq_some_getLast hne) c hcm
        rw [hst _ (hold _ (List.getLast_mem hne))] at hl
        exact hl.resolve_left Bool.false_ne_true
      have htl : NoAdj st tail := by
        cases tail with
        | nil => exact List.IsChain.nil
        | cons t ts =>
            cases ts with
            | nil => exact List.isChain_singleton t
            | cons u us => simp at hlen
      refine List.isChain_append.mpr ⟨h1, List.isChain_cons.mpr ⟨fun _ _ => Or.inl hn,
        List.isChain_append.mpr ⟨htl, h3, fun x hx y hy => Or.inr (hpost y hy ?_)⟩⟩,
        fun x _ y hy => Or.inr ?_⟩
      · rintro rfl
        cases hx
      · rw [List.head?_cons, Option.mem_some_iff] at hy
        rw [← hy, hn]

section

variable {h : Heap} {l r bs : List Blk} {a e : Nat} {fl : Nat → List Nat}

/-- A successful allocation: block `⟨p, s, true⟩` carved out of the heap. -/
structure Allocated (h h' : Heap) (bs : List Blk) (n p : Nat) (bs' : List Blk)
    (fl' : Nat → List Nat) (s : Nat) : Prop where
  inv : Rest h' bs' fl'
  carve : Carve ⟨p, s, true⟩ bs bs'
  room : n ≤ s
  ge : h.beginHeap + 80 ≤ p
  beginEq : h'.beginHeap = h.beginHeap
  startEq : h'.startBrk = h.startBrk
  maxEq : h'.maxAddr = h.maxAddr
  brkMod : h'.brk % 4096 = h.brk % 4096
  user : ∀ z, UserByte bs h.beginHeap z → h'.mem z = h.mem z

theorem Rest.pro_ne {b : Blk} (o : Rest h (l ++ b :: r) fl) (hb : b ≠ prologue h.beginHeap) :
    l ≠ [] := by
  rintro rfl
  obtain ⟨l', hl'⟩ := o.pro
  exact hb (List.cons.inj hl').1

/-- `resv_node` opens the heap at a free block. -/
theorem Rest.reserve {b : Blk} (o : Rest h (l ++ b :: r) fl) (hbf : b.alloc = false) :
    ∃ fl', Open { h with mem := resvNode h.mem b.addr } l b.addr (b.addr + b.size) r fl' ∧
      size (resvNode h.mem b.addr) (b.addr - 4) = b.addr + b.size - b.addr ∧
      ∀ z, UserByte (l ++ b :: r) h.beginHeap z → resvNode h.mem b.addr z = h.mem z := by
  have hpro : b ≠ prologue h.beginHeap := by
    rintro rfl
    exact Bool.noConfusion hbf
  obtain ⟨a, op⟩ := o.split (o.pro_ne hpro)
  obtain ⟨fl', o', hba, hag⟩ := op.takeRight hbf
  obtain rfl : a = b.addr := hba.symm
  have hm : b ∈ (l ++ b :: r) ++ [] := by simp
  have hbm := o.mem hm
  have h8 := o.vars.begin8
  have hlt := o.vars.lt
  refine ⟨fl', o', ?_, fun z hz => hag z fun y hy => op.user_node hy (by simpa using hz)⟩
  have hg := op.free_header (by simp) hbf hag
  rw [hdrp_eq (by omega) (by omega)] at hg
  unfold size
  rw [hg]
  unfold sizeMask alignment
  omega

/-! ## `allocate_block`

Its three ways through, one equation each. -/

theorem allocateBlock_found {n node : Nat} {m' : Mem} (hf : findNode h n = some node)
    (hnz : node ≠ 0)
    (hm : freeTailWasResvd (resvNode h.mem node) h.beginHeap node n = some m') :
    allocateBlock h n = some ({ h with mem := m' }, node) := by
  unfold allocateBlock
  rw [hf, Option.bind_eq_bind, Option.bind_some, if_pos hnz, hm, Option.bind_eq_bind,
    Option.bind_some]
  rfl

theorem allocateBlock_extend {h' : Heap} {n p : Nat} {m' : Mem}
    (hf : findNode h n = some 0) (he : extendHeap h n h.endHeap = some (h', p)) (hp : p ≠ 0)
    (hm : freeTailWasResvd h'.mem h'.beginHeap p n = some m') :
    allocateBlock h n = some ({ h' with mem := m' }, p) := by
  unfold allocateBlock
  rw [hf, Option.bind_eq_bind, Option.bind_some, if_neg (by omega), he, Option.bind_eq_bind,
    Option.bind_some]
  dsimp only
  rw [if_neg hp, hm, Option.bind_eq_bind, Option.bind_some]
  rfl

theorem allocateBlock_refused {n : Nat} (hf : findNode h n = some 0)
    (he : extendHeap h n h.endHeap = some (h, 0)) : allocateBlock h n = some (h, 0) := by
  unfold allocateBlock
  rw [hf, Option.bind_eq_bind, Option.bind_some, if_neg (by omega), he]
  rfl

/-- `allocate_block` is undefined when it has to pass the end of the address space. -/
theorem Rest.allocateBlock_undefined (o : Rest h bs fl) {n : Nat} (hr : ¬ AllocInRange h n) :
    allocateBlock h n = none := by
  obtain ⟨hf, hs⟩ := Classical.not_imp.mp hr
  unfold allocateBlock
  rw [hf, Option.bind_eq_bind, Option.bind_some, if_neg (by omega),
    o.extendHeap_undefined hs]
  rfl

theorem Rest.allocInRange (o : Rest h bs fl) {n : Nat} {x : Heap × Nat}
    (hal : allocateBlock h n = some x) : AllocInRange h n := by
  by_contra hr
  rw [o.allocateBlock_undefined hr] at hal
  cases hal

/-- So it is not on a heap that ends far enough below the end of the address space. -/
theorem Rest.allocInRange_of_le (o : Rest h bs fl) (hm : h.maxAddr ≤ 2147483648) (n : Nat) :
    AllocInRange h n := fun _ hi => by
  have := o.vars.brkMax
  omega

/-- `allocate_block` carves out a block of at least `n` bytes; it needs the
break only if no free block has that many. -/
theorem allocateBlock_spec (o : Rest h bs fl) {n : Nat} (hn : n < 4294967296)
    (h16 : 16 ≤ n) (hmod : n % 8 = 0) (hw : n ≤ 4294963200 + tailSize h)
    (hr : AllocInRange h n) :
    (allocateBlock h n = some (h, 0) ∧ (∀ b ∈ bs, b.alloc = false → b.size < n) ∧
        memSbrk h (extendSize h.mem n h.endHeap) = none) ∨
      ∃ h' p bs' fl' s, allocateBlock h n = some (h', p) ∧ Allocated h h' bs n p bs' fl' s ∧
        ((h'.brk = h.brk ∧ ∃ b ∈ bs, b.alloc = false ∧ n ≤ b.size) ∨
          (h'.brk = h.brk + extendSize h.mem n h.endHeap ∧
            ∀ b ∈ bs, b.alloc = false → b.size < n)) := by
  obtain ⟨node, hf, hcase⟩ := findNode_spec o h16
  rcases hcase with ⟨rfl, hall⟩ | ⟨hnz, b, hb, rfl, hbf, hbs⟩
  · have ht := o.tail_lt (by omega) hall
    rcases extendHeap_spec o hn (by omega) hw (hr hf) with ⟨hsb, he⟩ | ⟨h', l, a, fl₁, he, hx⟩
    · exact Or.inl ⟨allocateBlock_refused hf he, hall, hsb⟩
    · right
      have hba := hx.inv.begin_le
      rw [hx.beginEq] at hba
      obtain ⟨m', s, tail, fl', hm', o', hs, hlen, htf, hu, -⟩ :=
        freeTail_spec hx.inv hx.hdr h16 hmod hx.room
      have heq := allocateBlock_extend hf he (by omega) hm'
      have hcarve : Carve ⟨a, s, true⟩ bs (l ++ ⟨a, s, true⟩ :: (tail ++ [])) := by
        obtain ⟨old, rfl, hold⟩ : ∃ old, bs = l ++ (old ++ []) ∧
            ∀ c ∈ old, c.alloc = false := by
          rcases hx.trim with ⟨rfl, -, -⟩ | ⟨q, rfl, hqf, -, -⟩
          · exact ⟨[], by simp, by simp⟩
          · exact ⟨[q], by simp, by simpa using hqf⟩
        exact Carve.mk l old tail [] rfl hold htf hlen fun _ => rfl
      have hbrk := extendSize_mod h.mem n h.endHeap
      have hgr := hx.grown
      refine ⟨_, a, _, fl', s, heq, ⟨?_, hcarve, hs, hba, hx.beginEq, hx.startEq,
        hx.maxEq, by show h'.brk % 4096 = _; omega, fun z hz => ?_⟩,
        Or.inr ⟨hx.grown, hall⟩⟩
      · rw [List.append_nil]
        have := o'.rest
        rwa [List.append_nil] at this
      · refine (hu z ?_).trans (hx.user z hz)
        rw [hx.beginEq]
        obtain ⟨c, hc, hca, hrest⟩ := hz
        exact ⟨c, List.mem_append_left _ (hx.trim.alloc hc hca), hca, hrest⟩
  · right
    obtain ⟨pre, post, rfl⟩ := List.append_of_mem hb
    obtain ⟨fl₁, o₁, hh, hk⟩ := o.reserve hbf
    have hge := o₁.begin_le
    obtain ⟨m', s, tail, fl', hm', o', hs, hlen, htf, hu, -⟩ :=
      freeTail_spec o₁ hh h16 hmod (by omega)
    simp only at hm' o' hu hge
    refine ⟨_, _, _, fl', s, allocateBlock_found hf hnz hm', ⟨?_,
      Carve.mk pre [b] tail post rfl ?_ htf hlen (by simp), hs, hge, rfl, rfl, rfl, rfl,
      fun z hz => ?_⟩, Or.inl ⟨rfl, b, hb, hbf, hbs⟩⟩
    · have := o'.rest
      rwa [List.append_assoc] at this
    · simpa using hbf
    · show m' z = h.mem z
      rw [hu z ?_]
      · exact hk z hz
      · obtain ⟨c, hc, hca, hrest⟩ := hz
        refine ⟨c, ?_, hca, hrest⟩
        simp only [List.mem_append, List.mem_cons] at hc ⊢
        rcases hc with hc | rfl | hc
        · exact Or.inl hc
        · exact absurd (hca.symm.trans hbf) (by simp)
        · exact Or.inr hc

end

end Csapp.Malloc
