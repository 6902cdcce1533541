import Mathlib
import Csapp.Malloc.Allocate

/-!
# The calls

`mm_malloc`, `mm_free` and a realloc that does not fail, on a heap at rest in
which no two free blocks are neighbours. Each call is described by the new
block list, which is what the runs need, and by the bytes it keeps.
-/

namespace Csapp.Malloc

/-! ## Merging and neighbours -/

theorem mem_middle {l r : List Blk} {b c : Blk} :
    c ∈ l ++ b :: r ↔ c ∈ l ++ r ∨ c = b := by
  simp only [List.mem_append, List.mem_cons]
  tauto

/-- Whatever stands for the merged run, its neighbours are allocated. -/
theorem NoAdj.merge {l l' r r' : List Blk} {a a' e e' : Nat} {b : Blk}
    (h : NoAdj Blk.alloc (l ++ b :: r)) (hl : TrimLeft l a l' a')
    (hr : TrimRight r e r' e') {st : Blk → Bool}
    (hst : ∀ c ∈ l' ++ r', st c = c.alloc) (n : Blk) : NoAdj st (l' ++ n :: r') := by
  obtain ⟨h1, h2, h3⟩ := List.isChain_append.mp h
  obtain ⟨h4, h5⟩ := List.isChain_cons.mp h2
  have hstl : ∀ c ∈ l', st c = c.alloc := fun c hc => hst c (List.mem_append_left _ hc)
  have hstr : ∀ c ∈ r', st c = c.alloc := fun c hc => hst c (List.mem_append_right _ hc)
  have hl' : l'.IsChain (fun b c => st b = true ∨ st c = true) ∧
      ∀ c ∈ l'.getLast?, st c = true := by
    have hcl : NoAdj Blk.alloc l' ∧ ∀ c ∈ l'.getLast?, c.alloc = true := by
      rcases hl with ⟨rfl, -, hla⟩ | ⟨p, rfl, hp, -, -⟩
      · exact ⟨h1, hla⟩
      · obtain ⟨i1, -, i3⟩ := List.isChain_append.mp h1
        refine ⟨i1, fun c hc => ?_⟩
        have := i3 c hc p rfl
        rw [hp] at this
        exact this.resolve_right Bool.false_ne_true
    refine ⟨hcl.1.imp_of_mem_imp fun b c hb hc hbc => ?_, fun c hc => ?_⟩
    · rwa [hstl b hb, hstl c hc]
    · rw [hstl c (List.mem_of_mem_getLast? hc)]
      exact hcl.2 c hc
  have hr' : r'.IsChain (fun b c => st b = true ∨ st c = true) ∧
      ∀ c ∈ r'.head?, st c = true := by
    have hcr : NoAdj Blk.alloc r' ∧ ∀ c ∈ r'.head?, c.alloc = true := by
      rcases hr with ⟨rfl, -, hra⟩ | ⟨p, rfl, hp, -, -⟩
      · exact ⟨h5, hra⟩
      · obtain ⟨i1, i2⟩ := List.isChain_cons.mp h5
        refine ⟨i2, fun c hc => ?_⟩
        have := i1 c hc
        rw [hp] at this
        exact this.resolve_left Bool.false_ne_true
    refine ⟨hcr.1.imp_of_mem_imp fun b c hb hc hbc => ?_, fun c hc => ?_⟩
    · rwa [hstr b hb, hstr c hc]
    · rw [hstr c (List.mem_of_mem_head? hc)]
      exact hcr.2 c hc
  refine List.isChain_append.mpr ⟨hl'.1, List.isChain_cons.mpr
    ⟨fun y hy => Or.inr (hr'.2 y hy), hr'.1⟩, fun x hx y hy => Or.inl (hl'.2 x hx)⟩

/-- A free block and one that only `st` calls free are alike to `NoAdj`. -/
theorem NoAdj.replace {st : Blk → Bool} {l r : List Blk} {b : Blk}
    (h : NoAdj st (l ++ b :: r)) (hb : st b = false)
    (hst : ∀ c, st c = true → c.alloc = true) (n : Blk) :
    NoAdj Blk.alloc (l ++ n :: r) := by
  have himp : ∀ bs : List Blk, NoAdj st bs → NoAdj Blk.alloc bs := fun bs hbs =>
    hbs.imp fun _ _ hor => hor.imp (hst _) (hst _)
  obtain ⟨h1, h2, h3⟩ := List.isChain_append.mp h
  obtain ⟨h4, h5⟩ := List.isChain_cons.mp h2
  refine List.isChain_append.mpr ⟨himp l h1, List.isChain_cons.mpr
    ⟨fun y hy => Or.inr ?_, himp r h5⟩, fun x hx y _ => Or.inl ?_⟩
  · have := h4 y hy
    rw [hb] at this
    exact hst y (this.resolve_left Bool.false_ne_true)
  · have := h3 x hx b rfl
    rw [hb] at this
    exact hst x (this.resolve_right Bool.false_ne_true)

section

variable {h : Heap} {l r : List Blk} {fl : Nat → List Nat} {b : Blk}

theorem Rest.notMem (o : Rest h (l ++ b :: r) fl) (hb : b ≠ prologue h.beginHeap) :
    b ∉ l ∧ b ∉ r := by
  obtain ⟨a, op⟩ := o.split (o.pro_ne hb)
  obtain ⟨hba, hbs, -, hR⟩ := op.tilesR
  refine ⟨fun hm => ?_, fun hm => ?_⟩
  · have := (op.tilesL.mem hm).2.1
    omega
  · have := (hR.mem hm).1
    omega

/-- Merging around `b` leaves the other allocated blocks. -/
theorem Rest.merge_iff (o : Rest h (l ++ b :: r) fl) (hb : b ≠ prologue h.beginHeap)
    {l' r' : List Blk} {a a' e e' : Nat} (hl : TrimLeft l a l' a')
    (hr : TrimRight r e r' e') {c : Blk} (hc : c.alloc = true) :
    c ∈ l' ++ r' ↔ c ∈ l ++ b :: r ∧ c ≠ b := by
  obtain ⟨hbl, hbr⟩ := o.notMem hb
  have hl' : c ∈ l' ↔ c ∈ l := ⟨hl.mem, fun hm => hl.alloc hm hc⟩
  have hr' : c ∈ r' ↔ c ∈ r := ⟨hr.mem, fun hm => hr.alloc hm hc⟩
  simp only [List.mem_append, List.mem_cons, hl', hr']
  constructor
  · rintro (h | h)
    · exact ⟨Or.inl h, fun he => hbl (he ▸ h)⟩
    · exact ⟨Or.inr (Or.inr h), fun he => hbr (he ▸ h)⟩
  · rintro ⟨h | h | h, hne⟩
    · exact Or.inl h
    · exact absurd h hne
    · exact Or.inr h

/-- An allocated block of a heap at rest, opened. -/
theorem Rest.openAt (o : Rest h (l ++ b :: r) fl) (ha : b.alloc = true)
    (hb : b ≠ prologue h.beginHeap) : Open h l b.addr (b.addr + b.size) r fl := by
  obtain ⟨a, op⟩ := o.split (o.pro_ne hb)
  obtain rfl : a = b.addr := op.tilesR.1.symm
  obtain ⟨os, hl⟩ := Open.shift.mp op
  exact os.forgetLeft ha hl

/-- `coalesce_will_free` on a live block of a heap at rest. -/
theorem coalesceWillFree_live (o : Rest h (l ++ b :: r) fl) (ha : b.alloc = true)
    (hb : b ≠ prologue h.beginHeap) :
    ∃ m' l' a' r' e' fl', coalesceWillFree h.mem b.addr = (m', a') ∧
      Open { h with mem := m' } l' a' e' r' fl' ∧
      TrimLeft l b.addr l' a' ∧ TrimRight r (b.addr + b.size) r' e' ∧
      TagOk m' ⟨a', e' - a', false⟩ ∧
      (∀ z, UserByte (l ++ r) h.beginHeap z → m' z = h.mem z) ∧
      (∀ z, b.addr ≤ z → z + 8 < b.addr + b.size → m' z = h.mem z) ∧
      (a' < b.addr → ∀ z, b.addr ≤ z + 8 → z < b.addr → m' z = h.mem z) := by
  have hm : b ∈ (l ++ b :: r) ++ [] := by simp
  refine coalesceWillFree_spec (o.openAt ha hb) ?_ ?_
  · have := (o.mem hm).2.2.1
    omega
  · rw [size_of_tag (o.mem hm).2.2.2.1 (o.tags b hm).1]
    omega

/-! ## `mm_free` -/

theorem mmFreeNonnull_eq {p a : Nat} {m m' : Mem} (hc : coalesceWillFree h.mem p = (m, a))
    (hf : freeNode m h.beginHeap a = some m') :
    mmFreeNonnull h p = some { h with mem := m' } := by
  unfold mmFreeNonnull
  rw [hc]
  dsimp only
  rw [hf, Option.bind_eq_bind, Option.bind_some]
  rfl

theorem mmFreeNonnull_spec (o : Rest h (l ++ b :: r) fl) (ha : b.alloc = true)
    (hb : b ≠ prologue h.beginHeap) :
    ∃ m' l' a' r' e' fl', mmFreeNonnull h b.addr = some { h with mem := m' } ∧
      Rest { h with mem := m' } (l' ++ ⟨a', e' - a', false⟩ :: r') fl' ∧
      TrimLeft l b.addr l' a' ∧ TrimRight r (b.addr + b.size) r' e' ∧
      ∀ z, UserByte (l ++ r) h.beginHeap z → m' z = h.mem z := by
  obtain ⟨m₁, l', a', r', e', fl₁, hc, o₁, hl, hr, ht, hu, -, -⟩ :=
    coalesceWillFree_live o ha hb
  have hle := o₁.le
  have hmL := o₁.modL
  have hmR := o₁.modR
  have h16 := (o.mem (b := b) (by simp)).2.2.1
  have hla := hl.le
  have hre := hr.le
  obtain ⟨m', fl', hf, o₂, hu₂, -⟩ := freeNode_spec o₁ (b := ⟨a', e' - a', false⟩) rfl
    (by show 16 ≤ e' - a'; omega) (by show (e' - a') % 8 = 0; omega)
    (by show a' + (e' - a') ≤ e'; omega) rfl ht
  simp only at hf o₂ hu₂
  rw [show a' + (e' - a') = e' by omega] at o₂
  refine ⟨m', l', a', r', e', fl', mmFreeNonnull_eq hc hf, ?_, hl, hr, fun z hz => ?_⟩
  · have := o₂.rest
    rwa [List.append_assoc] at this
  · exact (hu₂ z (hz.trim hl hr)).trans (hu z hz)

/-! ## `mm_malloc` -/

theorem mmMalloc_eq {n : Nat} (hn : n ≠ 0) :
    mmMalloc h n = allocateBlock h (allocSize n) := if_neg hn

/-- `ALLOC_SIZE` while it does not wrap. -/
theorem allocSize_eq {n : Nat} (hn : n ≤ 4294967280) :
    allocSize n = max 8 n + 15 - (max 8 n + 15) % 8 := by
  unfold allocSize align sizeMask u32 sizeofFreeList dsize alignment
  omega

theorem allocSize_bounds {n : Nat} (hn : n ≤ 4294967280) :
    16 ≤ allocSize n ∧ n + 8 ≤ allocSize n ∧ allocSize n < n + 24 ∧
      allocSize n % 8 = 0 ∧ allocSize n < 4294967296 := by
  rw [allocSize_eq hn]
  omega

/-! ## `mm_realloc` -/

/-- A copy is what it leaves alone and what it writes. -/
theorem memmove_out {m : Mem} {dst src n a : Nat} (h : a < dst ∨ dst + n ≤ a) :
    memmove m dst src n a = m a := if_neg (by omega)

theorem memmove_in {m : Mem} {dst src n i : Nat} (h : i < n) :
    memmove m dst src n (dst + i) = m (src + i) := by
  unfold memmove
  rw [if_pos (by omega), Nat.add_sub_cancel_left]

/-- `copysz` in `mm_realloc`. -/
def copySize (h : Heap) (ptr n : Nat) : Nat :=
  sub32 (min (size h.mem (hdrp ptr)) (allocSize n)) dsize

theorem mmRealloc_inPlace {p n a : Nat} {m m' : Mem} (hp : p ≠ 0) (hn : n ≠ 0)
    (hc : coalesceWillFree h.mem p = (m, a)) (hle : allocSize n ≤ get m (hdrp a))
    (hf : freeTailWasResvd (memmove m a p (copySize h p n)) h.beginHeap a (allocSize n) =
      some m') : mmRealloc h p n = some ({ h with mem := m' }, a) := by
  unfold mmRealloc
  rw [if_neg hp, if_neg hn]
  dsimp only
  rw [hc]
  unfold copySize at hf
  dsimp only
  rw [if_pos hle, hf, Option.bind_eq_bind, Option.bind_some]
  rfl

theorem mmRealloc_move {p n a q : Nat} {m m' : Mem} {h' : Heap} (hp : p ≠ 0) (hn : n ≠ 0)
    (hc : coalesceWillFree h.mem p = (m, a)) (hle : ¬ allocSize n ≤ get m (hdrp a))
    (hal : allocateBlock { h with mem := metaPut m a (pack (get m (hdrp a)) 1) }
      (allocSize n) = some (h', q)) (hq : q ≠ 0)
    (hf : freeNode (metaPut (memmove h'.mem q p (copySize h p n)) a
      (size (memmove h'.mem q p (copySize h p n)) (hdrp a))) h'.beginHeap a = some m') :
    mmRealloc h p n = some ({ h' with mem := m' }, q) := by
  unfold mmRealloc
  rw [if_neg hp, if_neg hn]
  dsimp only
  rw [hc]
  unfold copySize at hf
  dsimp only
  rw [if_neg hle, hal, Option.bind_eq_bind, Option.bind_some]
  dsimp only
  rw [if_neg hq, hf, Option.bind_eq_bind, Option.bind_some]
  rfl

theorem mmRealloc_fail {p n a : Nat} {m m' : Mem} {h' : Heap} (hp : p ≠ 0) (hn : n ≠ 0)
    (hc : coalesceWillFree h.mem p = (m, a)) (hle : ¬ allocSize n ≤ get m (hdrp a))
    (hal : allocateBlock { h with mem := metaPut m a (pack (get m (hdrp a)) 1) }
      (allocSize n) = some (h', 0))
    (hf : uncoalesceWasResvd h'.mem h'.beginHeap a p (size h.mem (hdrp p)) = some m') :
    mmRealloc h p n = some ({ h' with mem := m' }, 0) := by
  unfold mmRealloc
  rw [if_neg hp, if_neg hn]
  dsimp only
  rw [hc]
  dsimp only
  rw [if_neg hle, hal, Option.bind_eq_bind, Option.bind_some]
  dsimp only
  rw [if_pos rfl, hf, Option.bind_eq_bind, Option.bind_some]
  rfl

/-! ## A failed realloc returns -/

theorem freePart_isSome {m : Mem} {beginHeap p v : Nat} (hp : p % 8 = 0)
    (hlt : v < 4294967296) : ∃ m', freePart m beginHeap p v = some m' := by
  unfold freePart
  by_cases hv : v > 0
  · obtain ⟨i, hi⟩ := classof_isSome (n := v) (by omega)
    rw [if_pos hv]
    unfold freeNode
    rw [metaPut_header hp hlt, hi, Option.bind_eq_bind, Option.bind_some]
    exact ⟨_, rfl⟩
  · rw [if_neg hv]
    exact ⟨m, rfl⟩

theorem uncoalesceWasResvd_isSome {m : Mem} {beginHeap newblk oldblk oldsz : Nat}
    (hp : oldblk % 8 = 0) :
    ∃ m', uncoalesceWasResvd m beginHeap newblk oldblk oldsz = some m' := by
  have hprev : ∀ m, prevblk m oldblk % 8 = 0 := fun m => by
    unfold prevblk sub32 u32 size sizeMask alignment
    omega
  have hsub : ∀ a b, sub32 a b < 4294967296 := fun a b => u32_lt _
  unfold uncoalesceWasResvd
  dsimp only
  generalize metaPut m oldblk (pack oldsz 1) = m₁
  obtain ⟨m₂, hm₂⟩ := freePart_isSome (m := m₁) (hprev m₁) (hsub oldblk _)
  rw [hm₂, Option.bind_eq_bind, Option.bind_some]
  exact freePart_isSome (nextblk_mod hp) (hsub _ _)

/-! ## User writes and changes of status -/

/-- The user may write the payload of an allocated block. -/
theorem Rest.userWrite {bs : List Blk} (o : Rest h bs fl) {m' : Mem}
    (hm : ∀ z, ¬ UserByte bs h.beginHeap z → m' z = h.mem z) :
    Rest { h with mem := m' } bs fl := by
  have h8 := o.vars.begin8
  have hbl := o.begin_le
  have hu : ∀ z, UserByte bs h.beginHeap z → UserByte (bs ++ []) h.beginHeap z :=
    fun z hz => hz.mono fun c hc => List.mem_append_left _ hc
  have hword : ∀ p, (∀ z, UserByte bs h.beginHeap z → z < p ∨ p + 4 ≤ z) →
      get m' p = get h.mem p := fun p hp => get_congr fun z h1 h2 => hm z fun hz => by
    have := hp z hz
    omega
  refine ⟨⟨o.vars.begin8, o.vars.beginMod, o.vars.start, o.vars.top, o.vars.brkMax,
    o.vars.maxLt⟩, o.pro, o.tilesL, o.le, o.tilesR, o.modR, ?_, fun c hc => ?_,
    o.rings.congr fun y hy => ?_, o.listed⟩
  · show get m' (h.endHeap - 4) = 5
    rw [hword _ fun z hz => by
      have := o.user_lt hz
      omega]
    exact o.epi
  · obtain ⟨ht1, ht2⟩ := o.tags c hc
    have hcm := o.mem hc
    have hfar : ∀ z, UserByte bs h.beginHeap z →
        (z < c.addr - 4 ∨ c.addr - 4 + 4 ≤ z) ∧
          (z < c.addr + c.size - 8 ∨ c.addr + c.size - 8 + 4 ≤ z) := by
      rintro z ⟨d, hd, -, -, h1, h2⟩
      rcases o.apart hc (List.mem_append_left _ hd) with rfl | hap | hap
      · omega
      · omega
      · omega
    show get m' _ = _ ∧ get m' _ = _
    rw [hword _ fun z hz => (hfar z hz).1, hword _ fun z hz => (hfar z hz).2]
    exact ⟨ht1, ht2⟩
  · have hlink : ∀ z, UserByte bs h.beginHeap z → z < y ∨ y + 8 ≤ z := fun z hz =>
      o.user_node hy (hu z hz)
    exact ⟨hword _ fun z hz => by have := hlink z hz; omega,
      hword _ fun z hz => by have := hlink z hz; omega⟩

/-- The region of a merged run, closed with an allocated block: the mark that
keeps the next call from merging it again. -/
theorem Open.mark {m : Mem} {l r : List Blk} {a e : Nat}
    (o : Open { h with mem := m } l a e r fl) (h16 : a + 16 ≤ e)
    (ht : TagOk m ⟨a, e - a, false⟩) :
    Rest { h with mem := metaPut m a (pack (get m (hdrp a)) 1) }
        (l ++ ⟨a, e - a, true⟩ :: r) fl ∧
      ∀ z, (z < a - 4 ∨ a ≤ z) → (z < e - 8 ∨ e - 4 ≤ z) →
        metaPut m a (pack (get m (hdrp a)) 1) z = m z := by
  have h8 : 8 ≤ h.beginHeap := o.vars.begin8
  have hlt : h.endHeap < 4294967296 := o.vars.lt
  have hb : h.beginHeap + 80 ≤ a := o.begin_le
  have hle : e ≤ h.endHeap := o.le_end
  have hmL : a % 8 = 0 := o.modL
  have hmR := o.modR
  have hg : get m (hdrp a) = e - a := by
    rw [hdrp_eq (by omega) (by omega)]
    exact ht.1
  rw [hg]
  obtain ⟨ht', hout⟩ := metaPut_spec (m := m) (b := ⟨a, e - a, true⟩)
    (v := pack (e - a) 1) (pack_one (by omega)) (by show 8 ≤ a; omega)
    (by show 16 ≤ e - a; omega) (by show (e - a) % 8 = 0; omega)
    (by show a + (e - a) < _; omega)
  simp only at hout
  have hout' : ∀ z, (z < a - 4 ∨ a ≤ z) → (z < e - 8 ∨ e - 4 ≤ z) →
      metaPut m a (pack (e - a) 1) z = m z := fun z h1 h2 => hout z h1 (by omega)
  have ow : Open { h with mem := metaPut m a (pack (e - a) 1) } l a e r fl :=
    o.write fun z hz => hout' z (by omega) (by omega)
  have og := ow.giveAlloc (b := ⟨a, e - a, true⟩) rfl (by show 16 ≤ e - a; omega)
    (by show (e - a) % 8 = 0; omega) (by show a + (e - a) ≤ e; omega) rfl ht'
  simp only at og
  rw [show a + (e - a) = e by omega] at og
  have := og.rest
  rw [List.append_assoc] at this
  exact ⟨this, hout'⟩

/-- The tags of a live block, rewritten as a free one's. -/
theorem Rest.retag (o : Rest h (l ++ b :: r) fl) (ha : b.alloc = true)
    (hb : b ≠ prologue h.beginHeap) :
    size h.mem (hdrp b.addr) = b.size ∧
      Open { h with mem := metaPut h.mem b.addr b.size } l b.addr (b.addr + b.size) r fl ∧
      TagOk (metaPut h.mem b.addr b.size) ⟨b.addr, b.size, false⟩ ∧
      ∀ z, UserByte (l ++ r) h.beginHeap z → metaPut h.mem b.addr b.size z = h.mem z := by
  have hm : b ∈ (l ++ b :: r) ++ [] := by simp
  have of := o.openAt ha hb
  have hbm := o.mem hm
  have h8 := o.vars.begin8
  have hlt := o.vars.lt
  obtain ⟨ht, hout⟩ := metaPut_spec (m := h.mem) (b := ⟨b.addr, b.size, false⟩)
    (v := b.size) rfl (by show 8 ≤ b.addr; omega) hbm.2.2.1 hbm.2.2.2.1
    (by show b.addr + b.size < _; omega)
  simp only at hout
  refine ⟨?_, of.write fun z hz => hout z (by omega) (by omega), ht, fun z hz => ?_⟩
  · rw [hdrp_eq (by omega) (by omega)]
    exact size_of_tag hbm.2.2.2.1 (o.tags b hm).1
  · have hz' := of.user_region hz
    exact hout z (by omega) (by omega)

/-- Freeing a block without merging it. -/
theorem Rest.freeInPlace (o : Rest h (l ++ b :: r) fl) (ha : b.alloc = true)
    (hb : b ≠ prologue h.beginHeap) :
    ∃ m' fl', freeNode (metaPut h.mem b.addr (size h.mem (hdrp b.addr))) h.beginHeap
        b.addr = some m' ∧
      Rest { h with mem := m' } (l ++ ⟨b.addr, b.size, false⟩ :: r) fl' ∧
      ∀ z, UserByte (l ++ r) h.beginHeap z → m' z = h.mem z := by
  have hm : b ∈ (l ++ b :: r) ++ [] := by simp
  have hbm := o.mem hm
  obtain ⟨hsz, ow, ht, hk⟩ := o.retag ha hb
  rw [hsz]
  obtain ⟨m', fl', hf, o', hu, -⟩ := freeNode_spec ow (b := ⟨b.addr, b.size, false⟩) rfl
    hbm.2.2.1 hbm.2.2.2.1 (Nat.le_refl _) rfl ht
  refine ⟨m', fl', hf, ?_, fun z hz => (hu z hz).trans (hk z hz)⟩
  have := o'.rest
  rwa [List.append_assoc] at this

/-! ## A realloc that does not fail -/

/-- The new block `⟨q, s, true⟩` stands for `b`; everything else allocated is
kept, and the payload has come along. -/
structure Reallocated (h h' : Heap) (l : List Blk) (b : Blk) (r : List Blk) (n q : Nat)
    (bs' : List Blk) (fl' : Nat → List Nat) (s : Nat) : Prop where
  inv : Rest h' bs' fl'
  noAdj : NoAdj Blk.alloc bs'
  allocIff : ∀ c, c.alloc = true →
    (c ∈ bs' ↔ (c ∈ l ++ b :: r ∧ c ≠ b) ∨ c = ⟨q, s, true⟩)
  fresh : ∀ c ∈ l ++ b :: r, c.alloc = true → c ≠ b → c ≠ ⟨q, s, true⟩
  room : n ≤ s
  ge : h.beginHeap + 80 ≤ q
  beginEq : h'.beginHeap = h.beginHeap
  startEq : h'.startBrk = h.startBrk
  maxEq : h'.maxAddr = h.maxAddr
  brkMod : h'.brk % 4096 = h.brk % 4096
  user : ∀ z, UserByte (l ++ r) h.beginHeap z → h'.mem z = h.mem z
  copy : ∀ i, i + 8 < min b.size n → h'.mem (q + i) = h.mem (b.addr + i)

theorem copySize_eq (o : Rest h (l ++ b :: r) fl) {n : Nat}
    (hn : n ≤ 4294967280) :
    copySize h b.addr n = min b.size (allocSize n) - 8 := by
  have hm : b ∈ (l ++ b :: r) ++ [] := by simp
  have hbm := o.mem hm
  have h8 := o.vars.begin8
  have hlt := o.vars.lt
  have hal := allocSize_bounds hn
  unfold copySize dsize
  rw [hdrp_eq (by omega) (by omega), size_of_tag hbm.2.2.2.1 (o.tags b hm).1,
    sub32_of_le (by omega) (by omega)]

/-- The state of a realloc of `b` after `coalesce_will_free`: `mm_realloc`
either splits this run or marks it. -/
structure Merged (h : Heap) (l r : List Blk) (b : Blk) (m : Mem) (l' : List Blk)
    (a' e' : Nat) (r' : List Blk) (fl' : Nat → List Nat) : Prop where
  eq : coalesceWillFree h.mem b.addr = (m, a')
  inv : Open { h with mem := m } l' a' e' r' fl'
  left : TrimLeft l b.addr l' a'
  right : TrimRight r (b.addr + b.size) r' e'
  room : a' + 16 ≤ e'
  tag : TagOk m ⟨a', e' - a', false⟩
  hdr : get m (hdrp a') = e' - a'
  user : ∀ z, UserByte (l ++ r) h.beginHeap z → m z = h.mem z
  payload : ∀ z, b.addr ≤ z → z + 8 < b.addr + b.size → m z = h.mem z
  footer : a' < b.addr → ∀ z, b.addr ≤ z + 8 → z < b.addr → m z = h.mem z

theorem Rest.merged (o : Rest h (l ++ b :: r) fl) (ha : b.alloc = true)
    (hb : b ≠ prologue h.beginHeap) :
    ∃ m l' a' e' r' fl', Merged h l r b m l' a' e' r' fl' := by
  obtain ⟨m, l', a', r', e', fl', hc, o', hl, hr, ht, hu, hp, hf⟩ :=
    coalesceWillFree_live o ha hb
  have h16 := (o.mem (b := b) (by simp)).2.2.1
  have hla := hl.le
  have hre := hr.le
  have h8 : 8 ≤ h.beginHeap := o.vars.begin8
  have hba : h.beginHeap + 80 ≤ a' := o'.begin_le
  have hle : e' ≤ h.endHeap := o'.le_end
  have hlt := o.vars.lt
  refine ⟨m, l', a', e', r', fl', hc, o', hl, hr, by omega, ht, ?_, hu, hp, hf⟩
  rw [hdrp_eq (by omega) (by omega)]
  exact ht.1

/-- The copy stays inside the run, between its two tags. -/
theorem Merged.copied {m : Mem} {l' r' : List Blk} {a' e' n : Nat}
    {fl' : Nat → List Nat} (o : Rest h (l ++ b :: r) fl)
    (hM : Merged h l r b m l' a' e' r' fl') (hn : n ≤ 4294967280)
    (hfit : allocSize n ≤ e' - a') :
    Open { h with mem := memmove m a' b.addr (copySize h b.addr n) } l' a' e' r' fl' ∧
      size (memmove m a' b.addr (copySize h b.addr n)) (a' - 4) = e' - a' ∧
      ∀ z, (z < a' ∨ a' + (allocSize n - 8) ≤ z) →
        memmove m a' b.addr (copySize h b.addr n) z = m z := by
  have hal := allocSize_bounds hn
  have h8 := o.vars.begin8
  have hroom := hM.room
  have hba : h.beginHeap + 80 ≤ a' := hM.inv.begin_le
  have hle : e' ≤ h.endHeap := hM.inv.le_end
  have hlt := o.vars.lt
  have hcs := copySize_eq o hn
  have hmv : ∀ z, (z < a' ∨ a' + (allocSize n - 8) ≤ z) →
      memmove m a' b.addr (copySize h b.addr n) z = m z := fun z hz =>
    memmove_out (by rw [hcs]; omega)
  refine ⟨hM.inv.write fun z hz => hmv z (by omega), ?_, hmv⟩
  have hg := hM.hdr
  have hmR := hM.inv.modR
  have hmL : a' % 8 = 0 := hM.inv.modL
  rw [hdrp_eq (by omega) (by omega)] at hg
  unfold size
  rw [get_congr fun z h1 h2 => hmv z (by omega), hg]
  unfold sizeMask alignment
  omega

/-- The first way: the merged run is large enough. -/
theorem Merged.inPlace {m : Mem} {l' r' : List Blk} {a' e' n : Nat}
    {fl' : Nat → List Nat} (o : Rest h (l ++ b :: r) fl)
    (hb : b ≠ prologue h.beginHeap) (hna : NoAdj Blk.alloc (l ++ b :: r))
    (hM : Merged h l r b m l' a' e' r' fl') (hn0 : n ≠ 0) (hn : n ≤ 4294967280)
    (hfit : allocSize n ≤ e' - a') :
    ∃ m' bs' fl₂ s, mmRealloc h b.addr n = some ({ h with mem := m' }, a') ∧
      Reallocated h { h with mem := m' } l b r (allocSize n) a' bs' fl₂ s := by
  have hal := allocSize_bounds hn
  have h8 := o.vars.begin8
  have hroom := hM.room
  have hbm := o.mem (b := b) (by simp)
  have hla := hM.left.le
  have hre := hM.right.le
  have hba : h.beginHeap + 80 ≤ a' := hM.inv.begin_le
  have hle : e' ≤ h.endHeap := hM.inv.le_end
  have hlt := o.vars.lt
  have hcs := copySize_eq o hn
  obtain ⟨ow, hsz, hmv⟩ := hM.copied o hn hfit
  obtain ⟨m', s, tail, fl₂, hf, o', hs, hlen, htf, hu, hk⟩ :=
    freeTail_spec ow hsz hal.1 hal.2.2.2.1 (by omega)
  simp only at hf o' hu hk
  have heq := mmRealloc_inPlace (by omega) hn0 hM.eq (by rw [hM.hdr]; exact hfit) hf
  refine ⟨m', l' ++ ⟨a', s, true⟩ :: (tail ++ r'), fl₂, s, heq,
    ⟨?_, ?_, fun c hc => ?_, fun c hc hca hcb => ?_, hs, hba, rfl, rfl, rfl, rfl,
      fun z hz => ?_, fun i hi => ?_⟩⟩
  · have := o'.rest
    rwa [List.append_assoc] at this
  · have hrun : NoAdj Blk.alloc (l' ++ ⟨a', e' - a', false⟩ :: r') :=
      hna.merge hM.left hM.right (fun _ _ => rfl) _
    exact (Carve.mk l' [⟨a', e' - a', false⟩] tail r' rfl (by simp) htf hlen
      (by simp)).noAdj rfl (fun _ hc => hc) hrun
  · have ht : c ∉ tail := fun hm => Bool.noConfusion ((htf c hm).symm.trans hc)
    rw [← o.merge_iff hb hM.left hM.right hc, mem_middle, List.mem_append,
      List.mem_append, List.mem_append, or_iff_right ht]
  · have hcm := hM.inv.mem ((o.merge_iff hb hM.left hM.right hca).mpr ⟨hc, hcb⟩)
    rintro rfl
    simp only at hcm
    omega
  · have hz' := hz.trim hM.left hM.right
    have hreg := hM.inv.user_region hz'
    show m' z = h.mem z
    rw [hu z hz', hmv z (by omega), hM.user z hz]
  · show m' (a' + i) = h.mem (b.addr + i)
    rw [hk _ (by omega) (by omega), memmove_in (by omega),
      hM.payload _ (by omega) (by omega)]

/-- The new block is none of the old ones. -/
theorem Allocated.fresh {h' : Heap} {bs bs' : List Blk} {n p s : Nat}
    {fl' : Nat → List Nat} (hA : Allocated h h' bs n p bs' fl' s) {c : Blk}
    (hc : c ∈ bs) (ha : c.alloc = true) : c ≠ ⟨p, s, true⟩ := by
  have hp : (⟨p, s, true⟩ : Blk) ≠ prologue h'.beginHeap := fun he => by
    have h1 : p = h'.beginHeap := congrArg Blk.addr he
    have h2 := hA.ge
    have h3 := hA.beginEq
    omega
  have ho := hA.inv
  rintro rfl
  cases hA.carve with
  | mk pre old tail post _ hold htail hlen hend =>
      obtain ⟨h1, h2⟩ := ho.notMem hp
      simp only [List.mem_append] at hc h2
      rcases hc with hc | hc | hc
      · exact h1 hc
      · exact Bool.noConfusion ((hold _ hc).symm.trans ha)
      · exact h2 (Or.inr hc)

/-- The copy writes the payload of the new block, no more. -/
theorem Allocated.copied {m : Mem} {bs bs₂ : List Blk} {n q s : Nat} {fl₂ : Nat → List Nat}
    {h₂ : Heap} (hA : Allocated { h with mem := m } h₂ bs (allocSize n) q bs₂ fl₂ s)
    (o : Rest h (l ++ b :: r) fl) (hn : n ≤ 4294967280) :
    Rest { h₂ with mem := memmove h₂.mem q b.addr (copySize h b.addr n) } bs₂ fl₂ := by
  have hbe : h₂.beginHeap = h.beginHeap := hA.beginEq
  have hbnd := allocSize_bounds hn
  have hcs := copySize_eq o hn
  have hQp : (⟨q, s, true⟩ : Blk) ≠ prologue h₂.beginHeap := fun he => by
    have : q = h₂.beginHeap := congrArg Blk.addr he
    have : h.beginHeap + 80 ≤ q := hA.ge
    omega
  refine hA.inv.userWrite fun z hz => memmove_out ?_
  by_contra hin
  have hs := hA.room
  exact hz ⟨_, hA.carve.alloc.2, rfl, hQp, by show q ≤ z; omega, by show z + 8 < q + s; omega⟩

/-- The second way: the marked run stays, the payload moves to a new block,
and then the run is freed. -/
theorem Merged.move {m : Mem} {l' r' bs₂ : List Blk} {a' e' n q s : Nat}
    {fl' fl₂ : Nat → List Nat} {h₂ : Heap} (o : Rest h (l ++ b :: r) fl)
    (hb : b ≠ prologue h.beginHeap)
    (hna : NoAdj Blk.alloc (l ++ b :: r)) (hM : Merged h l r b m l' a' e' r' fl')
    (hn0 : n ≠ 0) (hn : n ≤ 4294967280) (hfit : ¬ allocSize n ≤ e' - a')
    (hal : allocateBlock { h with mem := metaPut m a' (pack (get m (hdrp a')) 1) }
      (allocSize n) = some (h₂, q))
    (hA : Allocated { h with mem := metaPut m a' (pack (get m (hdrp a')) 1) } h₂
      (l' ++ ⟨a', e' - a', true⟩ :: r') (allocSize n) q bs₂ fl₂ s) :
    ∃ m' bs' fl₃, mmRealloc h b.addr n = some ({ h₂ with mem := m' }, q) ∧
      Reallocated h { h₂ with mem := m' } l b r (allocSize n) q bs' fl₃ s := by
  have hbnd := allocSize_bounds hn
  have h8 := o.vars.begin8
  have hbm := o.mem (b := b) (by simp)
  have hla := hM.left.le
  have hre := hM.right.le
  have hba : h.beginHeap + 80 ≤ a' := hM.inv.begin_le
  have hcs := copySize_eq o hn
  have hbe : h₂.beginHeap = h.beginHeap := hA.beginEq
  obtain ⟨om, hmark⟩ := hM.inv.mark hM.room hM.tag
  have hMp : (⟨a', e' - a', true⟩ : Blk) ≠ prologue h.beginHeap := fun he => by
    have : a' = h.beginHeap := congrArg Blk.addr he
    omega
  have hQp : (⟨q, s, true⟩ : Blk) ≠ prologue h.beginHeap := fun he => by
    have : q = h.beginHeap := congrArg Blk.addr he
    have : h.beginHeap + 80 ≤ q := hA.ge
    omega
  have hQ : (⟨q, s, true⟩ : Blk) ∈ bs₂ := hA.carve.alloc.2
  have hMmem : (⟨a', e' - a', true⟩ : Blk) ∈ bs₂ :=
    (hA.carve.mem_iff rfl).mpr (Or.inl (by simp))
  have hne : (⟨a', e' - a', true⟩ : Blk) ≠ ⟨q, s, true⟩ := hA.fresh (by simp) rfl
  have ow := hA.copied o hn
  obtain ⟨x, y, rfl⟩ := List.append_of_mem hMmem
  obtain ⟨m', fl₃, hf, o₃, hu⟩ := ow.freeInPlace rfl (by rw [hbe]; exact hMp)
  simp only at hf o₃ hu
  have heq := mmRealloc_move (by omega) hn0 hM.eq (by rw [hM.hdr]; exact hfit) hal
    (by have := hA.ge; simp only at this; omega) hf
  obtain ⟨hMx, hMy⟩ := hA.inv.notMem (by rw [hbe]; exact hMp)
  -- The allocated blocks other than the run, before and after.
  have hmem : ∀ c : Blk, c.alloc = true →
      (c ∈ x ++ y ↔ (c ∈ l ++ b :: r ∧ c ≠ b) ∨ c = ⟨q, s, true⟩) := by
    intro c hc
    have hcar := hA.carve.mem_iff hc
    rw [mem_middle, mem_middle] at hcar
    rw [← o.merge_iff hb hM.left hM.right hc]
    obtain ⟨hM₁, hM₂⟩ := om.notMem hMp
    constructor
    · intro hm
      have hcne : c ≠ ⟨a', e' - a', true⟩ := by
        rintro rfl
        exact (List.mem_append.mp hm).elim hMx hMy
      rcases hcar.mp (Or.inl hm) with (h | h) | h
      · exact Or.inl h
      · exact absurd h hcne
      · exact Or.inr h
    · intro hm
      have hcne : c ≠ ⟨a', e' - a', true⟩ := by
        rintro rfl
        rcases hm with hm | hm
        · exact (List.mem_append.mp hm).elim hM₁ hM₂
        · exact hne hm
      exact (hcar.mpr (hm.imp_left Or.inl)).resolve_right hcne
  have hout : ∀ z, UserByte (l ++ r) h.beginHeap z → z + 8 < a' ∨ e' ≤ z := fun z hz =>
    hM.inv.user_region (hz.trim hM.left hM.right)
  refine ⟨m', x ++ ⟨a', e' - a', false⟩ :: y, fl₃, heq,
    ⟨o₃, ?_, fun c hc => ?_, fun c hc hca hcb => ?_, hA.room, hA.ge, hbe, hA.startEq,
      hA.maxEq, hA.brkMod, fun z hz => ?_, fun i hi => ?_⟩⟩
  · obtain ⟨hM₁, hM₂⟩ := om.notMem hMp
    have hbef : NoAdj (fun c => c.alloc && decide (c ≠ ⟨a', e' - a', true⟩))
        (l' ++ ⟨a', e' - a', true⟩ :: r') :=
      hna.merge hM.left hM.right (fun c hc => by
        have : c ≠ ⟨a', e' - a', true⟩ := by
          rintro rfl
          exact (List.mem_append.mp hc).elim hM₁ hM₂
        simp [this]) _
    have haft := hA.carve.noAdj
      (Bool.and_eq_true_iff.mpr ⟨rfl, decide_eq_true hne.symm⟩) (fun c hc => by simp [hc]) hbef
    exact haft.replace (by simp) (fun c hc => (Bool.and_eq_true_iff.mp hc).1) _
  · rw [← hmem c hc, mem_middle]
    refine or_iff_left ?_
    rintro rfl
    exact Bool.noConfusion hc
  · exact hA.fresh (mem_middle.mpr (Or.inl
      ((o.merge_iff hb hM.left hM.right hca).mpr ⟨hc, hcb⟩))) hca
  · have hs := hA.room
    have hfar := hout z hz
    have hz' := hz.trim hM.left hM.right
    obtain ⟨c, hc, hca, hcp, hz1, hz2⟩ := hz'
    have hcold : c ∈ l' ++ ⟨a', e' - a', true⟩ :: r' := mem_middle.mpr (Or.inl hc)
    have hcxy : c ∈ x ++ y :=
      (hmem c hca).mpr (Or.inl ((o.merge_iff hb hM.left hM.right hca).mp hc))
    -- The payload of `c` misses the new block.
    have hapart : z < q ∨ q + s ≤ z := by
      rcases hA.inv.apart (List.mem_append_left _ (mem_middle.mpr (Or.inl hcxy)))
        (List.mem_append_left _ hQ) with he | hap
      · exact absurd he (hA.fresh hcold hca)
      · simp only at hap
        omega
    have hkeep : h₂.mem z = _ := hA.user z ⟨c, hcold, hca, hcp, hz1, hz2⟩
    show m' z = h.mem z
    rw [hu z ⟨c, hcxy, hca, hbe ▸ hcp, hz1, hz2⟩, memmove_out (by omega), hkeep]
    show metaPut m a' _ _ = _
    rw [hmark z (by omega) (by omega), hM.user z hz]
  · have hs := hA.room
    have hqi : UserByte (x ++ y) h₂.beginHeap (q + i) :=
      ⟨_, (hmem _ rfl).mpr (Or.inr rfl), rfl, hbe ▸ hQp, by show q ≤ q + i; omega,
        by show q + i + 8 < q + s; omega⟩
    have hsrc : UserByte (l' ++ ⟨a', e' - a', true⟩ :: r') h.beginHeap (b.addr + i) :=
      ⟨_, by simp, rfl, hMp, by show a' ≤ b.addr + i; omega,
        by show b.addr + i + 8 < a' + (e' - a'); omega⟩
    have hk : h₂.mem (b.addr + i) = _ := hA.user _ hsrc
    show m' (q + i) = h.mem (b.addr + i)
    rw [hu _ hqi, memmove_in (by omega), hk]
    show metaPut m a' _ _ = _
    rw [hmark _ (by omega) (by omega), hM.payload _ (by omega) (by omega)]

/-- The heap with the merged run marked, on which `mm_realloc` allocates. -/
def marked (h : Heap) (m : Mem) (a : Nat) : Heap :=
  { h with mem := metaPut m a (pack (get m (hdrp a)) 1) }

/-- A realloc that returns has allocated in range, if it had to allocate. -/
theorem Merged.allocInRange {m : Mem} {l' r' : List Blk} {a' e' n : Nat} {fl' : Nat → List Nat}
    {x : Heap × Nat} (hM : Merged h l r b m l' a' e' r' fl') (hp : b.addr ≠ 0) (hn0 : n ≠ 0)
    (hf : mmRealloc h b.addr n = some x) (hfit : ¬ allocSize n ≤ e' - a') :
    AllocInRange (marked h m a') (allocSize n) := by
  unfold mmRealloc at hf
  rw [if_neg hp, if_neg hn0] at hf
  dsimp only at hf
  rw [hM.eq] at hf
  dsimp only at hf
  rw [if_neg (by rwa [hM.hdr])] at hf
  obtain ⟨y, hal, -⟩ := Option.bind_eq_some_iff.mp hf
  exact (hM.inv.mark hM.room hM.tag).1.allocInRange hal

/-- A realloc to a size that does not wrap succeeds, or the run is too small
and the marked heap cannot be extended. -/
theorem mmRealloc_spec {m : Mem} {l' r' : List Blk} {a' e' n : Nat}
    {fl' : Nat → List Nat} (o : Rest h (l ++ b :: r) fl)
    (hb : b ≠ prologue h.beginHeap) (hna : NoAdj Blk.alloc (l ++ b :: r))
    (hM : Merged h l r b m l' a' e' r' fl') (hn0 : n ≠ 0) (hn : n ≤ 4294967280)
    (hw : allocSize n ≤ 4294963200 + tailSize (marked h m a'))
    (hr : ¬ allocSize n ≤ e' - a' → AllocInRange (marked h m a') (allocSize n)) :
    (¬ allocSize n ≤ e' - a' ∧
        allocateBlock (marked h m a') (allocSize n) = some (marked h m a', 0)) ∨
      ∃ h' q bs' fl₃ s, mmRealloc h b.addr n = some (h', q) ∧
        Reallocated h h' l b r (allocSize n) q bs' fl₃ s := by
  by_cases hfit : allocSize n ≤ e' - a'
  · obtain ⟨m', bs', fl₂, s, heq, hR⟩ := hM.inPlace o hb hna hn0 hn hfit
    exact Or.inr ⟨_, a', bs', fl₂, s, heq, hR⟩
  · have hbnd := allocSize_bounds hn
    obtain ⟨om, -⟩ := hM.inv.mark hM.room hM.tag
    rcases allocateBlock_spec om hbnd.2.2.2.2 hbnd.1 hbnd.2.2.2.1 hw (hr hfit) with
      ⟨hal, -, -⟩ | ⟨h₂, q, bs₂, fl₂, s, hal, hA, -⟩
    · exact Or.inl ⟨hfit, hal⟩
    · obtain ⟨m', bs', fl₃, heq, hR⟩ := hM.move o hb hna hn0 hn hfit hal hA
      exact Or.inr ⟨_, q, bs', fl₃, s, heq, hR⟩

end

end Csapp.Malloc
