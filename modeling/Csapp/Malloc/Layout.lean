import Mathlib
import Csapp.Malloc.FreeList

/-!
# Blocks, and a heap with an open region

A heap is a row of blocks, the prologue first, that tiles the addresses from
`begin_heap` to `end_heap`. The allocator never has all of it in order at once:
while it merges or splits, the tags of the run it works on are stale. `Open`
is the invariant for that moment. Between the blocks `l` on the left and `r`
on the right lies a region `a ..< e` whose contents are anybody's business;
everything outside is in order, and the free lists hold exactly the free
blocks outside. A heap at rest is one whose region is empty.

Each of the allocator's primitives is then one move: writing inside the region
changes nothing, reserving a free neighbour widens it, and finishing a block at
its left end narrows it.
-/

namespace Csapp.Malloc

/-- A block: payload address, size with header and footer, status. -/
structure Blk where
  addr : Nat
  size : Nat
  alloc : Bool
deriving DecidableEq

/-- The word in a block's header and footer. -/
def Blk.tag (b : Blk) : Nat := b.size + b.alloc.toNat

/-- The index `classof` computes for a block size. -/
def classIdx (size : Nat) : Nat := min (Nat.log 2 size - 4) 8

/-- The blocks tile the addresses from `a` to `e`. -/
def Tiles : Nat → List Blk → Nat → Prop
  | a, [], e => a = e
  | a, b :: bs, e => b.addr = a ∧ 16 ≤ b.size ∧ b.size % 8 = 0 ∧ Tiles (a + b.size) bs e

theorem tiles_append {l r : List Blk} {e : Nat} :
    ∀ {a : Nat}, Tiles a (l ++ r) e ↔ ∃ c, Tiles a l c ∧ Tiles c r e := by
  induction l with
  | nil => intro a; simp [Tiles]
  | cons b l ih =>
      intro a
      simp only [List.cons_append, Tiles, ih]
      constructor
      · rintro ⟨h1, h2, h3, c, h4, h5⟩
        exact ⟨c, ⟨h1, h2, h3, h4⟩, h5⟩
      · rintro ⟨c, ⟨h1, h2, h3, h4⟩, h5⟩
        exact ⟨h1, h2, h3, c, h4, h5⟩

theorem Tiles.le {l : List Blk} {a e : Nat} (h : Tiles a l e) : a ≤ e := by
  induction l generalizing a with
  | nil => exact Nat.le_of_eq h
  | cons b l ih => exact Nat.le_trans (Nat.le_add_right _ _) (ih h.2.2.2)

theorem Tiles.eq_nil {l : List Blk} {a : Nat} (h : Tiles a l a) : l = [] := by
  cases l with
  | nil => rfl
  | cons b l =>
      have := h.2.2.2.le
      have := h.2.1
      omega

theorem Tiles.mod {l : List Blk} {a e : Nat} (h : Tiles a l e) : a % 8 = e % 8 := by
  induction l generalizing a with
  | nil => exact congrArg (· % 8) h
  | cons b l ih =>
      have := ih h.2.2.2
      have := h.2.2.1
      omega

theorem Tiles.mem {l : List Blk} {a e : Nat} (h : Tiles a l e) {b : Blk} (hb : b ∈ l) :
    a ≤ b.addr ∧ b.addr + b.size ≤ e ∧ 16 ≤ b.size ∧ b.size % 8 = 0 ∧
      b.addr % 8 = a % 8 := by
  induction l generalizing a with
  | nil => cases hb
  | cons c l ih =>
      obtain ⟨h1, h2, h3, h4⟩ := h
      rcases List.mem_cons.mp hb with rfl | hb
      · have := h4.le
        exact ⟨Nat.le_of_eq h1.symm, by omega, h2, h3, by rw [h1]⟩
      · obtain ⟨i1, i2, i3, i4, i5⟩ := ih h4 hb
        exact ⟨by omega, i2, i3, i4, by omega⟩

/-- Two blocks of a tiling are the same or apart. -/
theorem Tiles.apart {l : List Blk} {a e : Nat} (h : Tiles a l e) {b c : Blk}
    (hb : b ∈ l) (hc : c ∈ l) :
    b = c ∨ b.addr + b.size ≤ c.addr ∨ c.addr + c.size ≤ b.addr := by
  induction l generalizing a with
  | nil => cases hb
  | cons d l ih =>
      obtain ⟨h1, -, -, h4⟩ := h
      rcases List.mem_cons.mp hb with rfl | hb' <;>
        rcases List.mem_cons.mp hc with rfl | hc'
      · exact Or.inl rfl
      · have := (h4.mem hc').1
        exact Or.inr (Or.inl (by omega))
      · have := (h4.mem hb').1
        exact Or.inr (Or.inr (by omega))
      · exact ih h4 hb' hc'

/-- Header and footer of a block hold its tag. -/
def TagOk (m : Mem) (b : Blk) : Prop :=
  get m (b.addr - 4) = b.tag ∧ get m (b.addr + b.size - 8) = b.tag

/-- The prologue: header, the nine list heads, footer. -/
def prologue (beginHeap : Nat) : Blk := ⟨beginHeap, 80, true⟩

/-- The pointer variables are where a heap keeps them. -/
structure Vars (h : Heap) : Prop where
  begin8 : 8 ≤ h.beginHeap
  beginMod : h.beginHeap % 8 = 0
  start : h.startBrk ≤ h.beginHeap
  top : h.endHeap = h.brk
  brkMax : h.brk ≤ h.maxAddr
  maxLt : h.maxAddr < 4294967296

theorem Vars.lt {h : Heap} (hv : Vars h) : h.endHeap < 4294967296 := by
  have h1 := hv.top
  have h2 := hv.brkMax
  have h3 := hv.maxLt
  omega

/-- The lists hold exactly the free blocks of `bs`, each in its class. -/
def Listed (bs : List Blk) (fl : Nat → List Nat) : Prop :=
  ∀ c, c < 9 → ∀ x, x ∈ fl c ↔
    ∃ b ∈ bs, b.addr = x ∧ b.alloc = false ∧ classIdx b.size = c

/-- A heap with blocks `l` and `r` around the open region from `a` to `e`. -/
structure Open (h : Heap) (l : List Blk) (a e : Nat) (r : List Blk)
    (fl : Nat → List Nat) : Prop where
  vars : Vars h
  pro : ∃ l', l = prologue h.beginHeap :: l'
  tilesL : Tiles h.beginHeap l a
  le : a ≤ e
  tilesR : Tiles e r h.endHeap
  modR : e % 8 = 0
  epi : get h.mem (h.endHeap - 4) = 5
  tags : ∀ b ∈ l ++ r, TagOk h.mem b
  rings : Rings h.mem h.beginHeap fl
  listed : Listed (l ++ r) fl

/-- The link words at `x` overlap no tag of `bs` and not the epilogue. -/
def AvoidsTags (bs : List Blk) (stop x : Nat) : Prop :=
  x % 8 = 0 ∧ x + 12 ≤ stop ∧ ∀ b ∈ bs,
    (x + 12 ≤ b.addr ∨ b.addr ≤ x) ∧
      (x + 16 ≤ b.addr + b.size ∨ b.addr + b.size ≤ x + 4)

section OpenFacts

variable {h : Heap} {l r : List Blk} {a e : Nat} {fl : Nat → List Nat}

theorem Open.modL (o : Open h l a e r fl) : a % 8 = 0 := by
  rw [← o.tilesL.mod, o.vars.beginMod]

theorem Open.proMem (o : Open h l a e r fl) : prologue h.beginHeap ∈ l := by
  obtain ⟨l', rfl⟩ := o.pro
  exact List.mem_cons_self

theorem Open.begin_le (o : Open h l a e r fl) : h.beginHeap + 80 ≤ a :=
  (o.tilesL.mem o.proMem).2.1

theorem Open.le_end (o : Open h l a e r fl) : e ≤ h.endHeap := o.tilesR.le

/-- Every block is the prologue or lies behind it, and misses the region. -/
theorem Open.mem (o : Open h l a e r fl) {b : Blk} (hb : b ∈ l ++ r) :
    h.beginHeap ≤ b.addr ∧ b.addr + b.size ≤ h.endHeap ∧ 16 ≤ b.size ∧
      b.size % 8 = 0 ∧ b.addr % 8 = 0 ∧ (b.addr + b.size ≤ a ∨ e ≤ b.addr) ∧
      (b = prologue h.beginHeap ∨ h.beginHeap + 80 ≤ b.addr) := by
  have h1 := o.begin_le
  have h2 := o.le_end
  have h3 := o.le
  have h4 := o.vars.beginMod
  have h5 := o.modR
  rcases List.mem_append.mp hb with hb | hb
  · obtain ⟨m1, m2, m3, m4, m5⟩ := o.tilesL.mem hb
    refine ⟨m1, by omega, m3, m4, by omega, Or.inl m2, ?_⟩
    rcases o.tilesL.apart hb o.proMem with rfl | hap
    · exact Or.inl rfl
    · unfold prologue at hap
      exact Or.inr (by simp only [] at hap; omega)
  · obtain ⟨m1, m2, m3, m4, m5⟩ := o.tilesR.mem hb
    exact ⟨by omega, m2, m3, m4, by omega, Or.inr m1, Or.inr (by omega)⟩

theorem Open.apart (o : Open h l a e r fl) {b c : Blk} (hb : b ∈ l ++ r)
    (hc : c ∈ l ++ r) :
    b = c ∨ b.addr + b.size ≤ c.addr ∨ c.addr + c.size ≤ b.addr := by
  have hle := o.le
  rcases List.mem_append.mp hb with hb | hb <;> rcases List.mem_append.mp hc with hc | hc
  · exact o.tilesL.apart hb hc
  · have h1 := (o.tilesL.mem hb).2.1
    have h2 := (o.tilesR.mem hc).1
    exact Or.inr (Or.inl (by omega))
  · have h1 := (o.tilesR.mem hb).1
    have h2 := (o.tilesL.mem hc).2.1
    exact Or.inr (Or.inr (by omega))
  · exact o.tilesR.apart hb hc

/-- Two blocks at one address are one block. -/
theorem Open.addr_inj (o : Open h l a e r fl) {b c : Blk} (hb : b ∈ l ++ r)
    (hc : c ∈ l ++ r) (he : b.addr = c.addr) : b = c := by
  have h1 := (o.mem hb).2.2.1
  have h2 := (o.mem hc).2.2.1
  rcases o.apart hb hc with h | h
  · exact h
  · omega

theorem Open.head_avoids (o : Open h l a e r fl) {c : Nat} (hc : c < 9) :
    AvoidsTags (l ++ r) h.endHeap (h.beginHeap + 8 * c) := by
  have h1 := o.begin_le
  have h2 := o.le_end
  have h3 := o.le
  have h4 := o.vars.beginMod
  refine ⟨by omega, by omega, fun b hb => ?_⟩
  obtain ⟨m1, -, m3, -, -, -, m7⟩ := o.mem hb
  rcases m7 with rfl | m7
  · simp only [prologue]
    omega
  · omega

theorem Open.free_avoids (o : Open h l a e r fl) {b : Blk} (hb : b ∈ l ++ r) :
    AvoidsTags (l ++ r) h.endHeap b.addr := by
  obtain ⟨-, m2, m3, -, m5, -, -⟩ := o.mem hb
  refine ⟨m5, by omega, fun c hc => ?_⟩
  have := (o.mem hc).2.2.1
  rcases o.apart hb hc with rfl | hap | hap
  · omega
  · omega
  · omega

theorem Open.gap_avoids (o : Open h l a e r fl) (hgap : a + 16 ≤ e) :
    AvoidsTags (l ++ r) h.endHeap a := by
  have h1 := o.le_end
  refine ⟨o.modL, by omega, fun b hb => ?_⟩
  have := (o.mem hb).2.2.1
  rcases (o.mem hb).2.2.2.2.2.1 with hm | hm
  · omega
  · omega

/-- A node is a head in the prologue or the payload of a listed free block. -/
theorem Open.node_cases (o : Open h l a e r fl) {y : Nat}
    (hy : IsNode h.beginHeap fl y) :
    (∃ c, c < 9 ∧ y = h.beginHeap + 8 * c) ∨
      ∃ b ∈ l ++ r, b.addr = y ∧ b.alloc = false := by
  obtain ⟨c, hc, hy⟩ := hy
  rcases List.mem_cons.mp hy with rfl | hy
  · exact Or.inl ⟨c, hc, rfl⟩
  · obtain ⟨b, hb, ha, hf, -⟩ := (o.listed c hc y).mp hy
    exact Or.inr ⟨b, hb, ha, hf⟩

theorem Open.node_avoids (o : Open h l a e r fl) {y : Nat}
    (hy : IsNode h.beginHeap fl y) : AvoidsTags (l ++ r) h.endHeap y := by
  rcases o.node_cases hy with ⟨c, hc, rfl⟩ | ⟨b, hb, rfl, -⟩
  · exact o.head_avoids hc
  · exact o.free_avoids hb

/-- The nodes keep clear of the region and of the header before it. -/
theorem Open.node_region (o : Open h l a e r fl) {y : Nat}
    (hy : IsNode h.beginHeap fl y) : y + 16 ≤ a ∨ e ≤ y := by
  have h1 := o.begin_le
  rcases o.node_cases hy with ⟨c, hc, rfl⟩ | ⟨b, hb, rfl, -⟩
  · omega
  · have := (o.mem hb).2.2.1
    rcases (o.mem hb).2.2.2.2.2.1 with hm | hm
    · omega
    · omega

theorem Open.node_lt (o : Open h l a e r fl) {y : Nat}
    (hy : AvoidsTags (l ++ r) h.endHeap y) : y % 8 = 0 ∧ y < 4294967296 := by
  have h1 := o.vars.lt
  have h2 := hy.2.1
  exact ⟨hy.1, by omega⟩

theorem Open.tags_agree (o : Open h l a e r fl) {m' : Mem}
    (hm : AgreeOffNodes (AvoidsTags (l ++ r) h.endHeap) h.mem m') :
    (∀ b ∈ l ++ r, TagOk m' b) ∧ get m' (h.endHeap - 4) = 5 := by
  have h1 := o.vars.begin8
  have h2 := o.begin_le
  have h3 := o.le
  have h4 := o.le_end
  refine ⟨fun b hb => ?_, ?_⟩
  · obtain ⟨ht1, ht2⟩ := o.tags b hb
    have hs := (o.mem hb).2.2.1
    have hb1 := (o.mem hb).1
    refine ⟨?_, ?_⟩
    · rw [hm.get fun x hx => by have := (hx.2.2 b hb).1; omega]
      exact ht1
    · rw [hm.get fun x hx => by have := (hx.2.2 b hb).2; omega]
      exact ht2
  · rw [hm.get fun x hx => by have := hx.2.1; omega]
    exact o.epi

end OpenFacts

/-! ## The moves -/

section Moves

variable {h : Heap} {l r : List Blk} {a e : Nat} {fl : Nat → List Nat}

/-- Writes inside the region, the header word before it included, disturb
nothing outside. -/
theorem Open.write (o : Open h l a e r fl) {m' : Mem}
    (hm : AgreeOff (a - 4) (e - 4) h.mem m') :
    Open { h with mem := m' } l a e r fl := by
  have h1 := o.vars.begin8
  have h2 := o.begin_le
  have h3 := o.le
  have h4 := o.le_end
  refine ⟨⟨o.vars.begin8, o.vars.beginMod, o.vars.start, o.vars.top, o.vars.brkMax,
    o.vars.maxLt⟩, o.pro, o.tilesL, o.le, o.tilesR, o.modR, ?_, fun b hb => ?_,
    o.rings.congr fun y hy => ?_, o.listed⟩
  · show get m' (h.endHeap - 4) = 5
    rw [hm.get (by omega)]
    exact o.epi
  · obtain ⟨ht1, ht2⟩ := o.tags b hb
    obtain ⟨m1, -, m3, -, -, m6, -⟩ := o.mem hb
    show get m' _ = _ ∧ get m' _ = _
    rw [hm.get (by omega), hm.get (by omega)]
    exact ⟨ht1, ht2⟩
  · have hy' := o.node_region hy
    exact ⟨hm.get (by omega), hm.get (by omega)⟩

/-- The block at the right end of `l` joins the region, when it is allocated:
no list mentions it. -/
theorem Open.forgetLeft {p : Blk} (o : Open h (l ++ [p]) a e r fl)
    (hp : p.alloc = true) (hl : l ≠ []) : Open h l p.addr e r fl := by
  obtain ⟨c, hL, hP⟩ := tiles_append.mp o.tilesL
  obtain ⟨hpa, hps, hpm, hpe⟩ := hP
  have hpe : c + p.size = a := hpe
  refine ⟨o.vars, ?_, hpa.symm ▸ hL, ?_, o.tilesR, o.modR, o.epi, fun b hb => ?_,
    o.rings, fun d hd x => ?_⟩
  · obtain ⟨l', hl'⟩ := o.pro
    obtain ⟨q, l, rfl⟩ := List.exists_cons_of_ne_nil hl
    exact ⟨l, by rw [(List.cons.inj hl').1]⟩
  · have := o.le
    omega
  · refine o.tags b ?_
    simp only [List.mem_append, List.mem_singleton] at hb ⊢
    tauto
  · rw [o.listed d hd x]
    constructor
    · rintro ⟨b, hb, hx, hf, hc⟩
      refine ⟨b, ?_, hx, hf, hc⟩
      simp only [List.mem_append, List.mem_singleton] at hb ⊢
      rcases hb with (hb | rfl) | hb
      · exact Or.inl hb
      · rw [hp] at hf
        exact Bool.noConfusion hf
      · exact Or.inr hb
    · rintro ⟨b, hb, hx⟩
      refine ⟨b, ?_, hx⟩
      simp only [List.mem_append, List.mem_singleton] at hb ⊢
      tauto

/-- With an empty region the boundary may stand anywhere. -/
theorem Open.shift {b : Blk} : Open h l a a (b :: r) fl ↔
    Open h (l ++ [b]) (a + b.size) (a + b.size) r fl ∧ l ≠ [] := by
  constructor
  · intro o
    obtain ⟨hba, hbs, hbm, hbe⟩ := o.tilesR
    obtain ⟨l', rfl⟩ := o.pro
    have hm := o.modL
    refine ⟨⟨o.vars, ⟨l' ++ [b], rfl⟩, ?_, Nat.le_refl _, hbe, by omega, o.epi, ?_,
      o.rings, ?_⟩, List.cons_ne_nil _ _⟩
    · exact tiles_append.mpr ⟨a, o.tilesL, hba, hbs, hbm, rfl⟩
    · rw [List.append_assoc]
      exact o.tags
    · rw [List.append_assoc]
      exact o.listed
  · rintro ⟨o, hl⟩
    obtain ⟨c, hL, hba, hbs, hbm, hce⟩ := tiles_append.mp o.tilesL
    obtain rfl : c = a := Nat.add_right_cancel hce
    have hm := o.modL
    refine ⟨o.vars, ?_, hL, Nat.le_refl _, ⟨hba, hbs, hbm, o.tilesR⟩, by omega, o.epi,
      ?_, o.rings, ?_⟩
    · obtain ⟨l', hl'⟩ := o.pro
      obtain ⟨q, l, rfl⟩ := List.exists_cons_of_ne_nil hl
      exact ⟨l, by rw [(List.cons.inj hl').1]⟩
    · have := o.tags
      rwa [List.append_assoc] at this
    · have := o.listed
      rwa [List.append_assoc] at this

end Moves

end Csapp.Malloc
