import Mathlib
import Csapp.Malloc.Wrap

/-!
# A realloc that fails

`uncoalesce_was_resvd` takes the run apart again, reading the left neighbour's
size from the footer before the old block. It asks only whether that size is
positive, never whether the neighbour had been merged. So the split is undone
when the left neighbour was free; when it was allocated, the prologue included,
it is declared free and put on a list.
-/

namespace Csapp.Malloc

/-- The blocks, the free lists and the payload of `ptr` are those of `h`. -/
def Atomic (h h' : Heap) (ptr : Nat) : Prop :=
  ∀ bs fl, Rest h bs fl →
    (∃ fl', Rest h' bs fl' ∧ ∀ c, c < 9 → (fl' c).Perm (fl c)) ∧
      ∀ z, ptr ≤ z → z + 8 < ptr + size h.mem (hdrp ptr) → h'.mem z = h.mem z

theorem uncoalesceWasResvd_eq {m m₁ m₂ : Mem} {beginHeap newblk oldblk oldsz prevsz
    nextsz : Nat} (hm : metaPut m oldblk (pack oldsz 1) = m₁)
    (hp : sub32 oldblk (prevblk m₁ oldblk) = prevsz)
    (hn : sub32 (sub32 (size m (hdrp newblk)) oldsz) prevsz = nextsz)
    (hf : freePart m₁ beginHeap (prevblk m₁ oldblk) prevsz = some m₂) :
    uncoalesceWasResvd m beginHeap newblk oldblk oldsz =
      freePart m₂ beginHeap (nextblk m₁ oldblk) nextsz := by
  unfold uncoalesceWasResvd
  dsimp only
  rw [hm, hp, hn, hf, Option.bind_eq_bind, Option.bind_some]

/-! ## The parity of a word

Aligned writes of even words leave even words even. An allocated block's tags
are odd, so this is how the damage is seen to stay. -/

/-- The lowest bit of the byte is clear. -/
def Even (m : Mem) (z : Nat) : Prop := (m z).toNat % 2 = 0

theorem even_of_get {m : Mem} {z : Nat} (h : get m z % 2 = 0) : Even m z := by
  unfold get at h
  unfold Even
  omega

theorem Even.get {m : Mem} {z : Nat} (h : Even m z) : get m z % 2 = 0 := by
  unfold Even at h
  unfold Malloc.get
  omega

theorem Even.put_ne {m : Mem} {w v z : Nat} (h : Even m z) (hz : z < w ∨ w + 4 ≤ z) :
    Even (put m w v) z := by
  unfold Even
  rw [put_of_ne hz]
  exact h

theorem Even.put {m : Mem} {w v z : Nat} (h : Even m z) (hw : w % 4 = 0)
    (hz : z % 4 = 0) (hv : v % 2 = 0) : Even (put m w v) z := by
  by_cases he : z = w
  · subst he
    refine even_of_get ?_
    rw [get_put]
    unfold u32
    omega
  · exact h.put_ne (by omega)

theorem Even.metaPut {m : Mem} {p v z : Nat} (h : Even m z) (hp : p % 8 = 0)
    (hz : z % 4 = 0) (hv : v % 2 = 0) : Even (metaPut m p v) z := by
  have hh := hdrp_mod hp
  have hf : ftrp (Malloc.put m (hdrp p) v) p % 8 = 0 := by
    have := nextblk_mod (m := Malloc.put m (hdrp p) v) hp
    unfold ftrp pftrp sub32 u32 dsize
    omega
  unfold Malloc.metaPut
  exact (h.put (by omega) hz hv).put (by omega) hz hv

/-- `free_list_insert` with the old first node at an aligned address. -/
theorem Even.insert {m : Mem} {hd x z : Nat} (h : Even m z) (hh : hd % 8 = 0)
    (hx : x % 8 = 0) (hz : z % 4 = 0) (hne : z ≠ x) (hxh : x ≠ hd)
    (hf : next m hd % 8 = 0) : Even (freeListInsert m hd x) z := by
  unfold freeListInsert
  dsimp only
  rw [next_setPrev hx hh, next_setNext_ne hx hh hxh.symm]
  unfold setNext setPrev
  exact (((h.put_ne (by omega)).put (by omega) hz (by omega)).put (by omega) hz
    (by omega)).put (by omega) hz (by omega)

/-- Wherever the old first node is, one of two distant words stays even. -/
theorem Even.insert_or {m : Mem} {hd x z w : Nat} (h₁ : Even m z) (h₂ : Even m w)
    (hh : hd % 8 = 0) (hx : x % 8 = 0) (hz : z % 4 = 0) (hw : w % 4 = 0) (hzx : z ≠ x)
    (hwx : w ≠ x) (hzw : z + 4 ≤ w) :
    Even (freeListInsert m hd x) z ∨ Even (freeListInsert m hd x) w := by
  unfold freeListInsert
  dsimp only
  generalize next (setPrev (setNext m x (next m hd)) x hd) hd = f
  unfold setNext setPrev
  rcases Nat.lt_or_ge z (f + 4) with hlt | hge
  · left
    exact (((h₁.put_ne (by omega)).put (by omega) hz (by omega)).put_ne
      (Or.inl hlt)).put (by omega) hz (by omega)
  · rcases Nat.lt_or_ge z (f + 8) with hlt | hge'
    · right
      exact (((h₂.put_ne (by omega)).put (by omega) hw (by omega)).put_ne
        (Or.inr (by omega))).put (by omega) hw (by omega)
    · left
      exact (((h₁.put_ne (by omega)).put (by omega) hz (by omega)).put_ne
        (Or.inr (by omega))).put (by omega) hz (by omega)

theorem classHead_mod {b : Nat} (hb : b % 8 = 0) (i : Int) : classHead b i % 8 = 0 := by
  unfold classHead
  omega

theorem freePart_even {m m' : Mem} {b p v z w : Nat} (h₁ : Even m z) (h₂ : Even m w)
    (hb : b % 8 = 0) (hp : p % 8 = 0) (hz : z % 4 = 0) (hw : w % 4 = 0) (hzp : z ≠ p)
    (hwp : w ≠ p) (hzw : z + 4 ≤ w) (hv : v % 2 = 0) (hf : freePart m b p v = some m') :
    Even m' z ∨ Even m' w := by
  unfold freePart at hf
  by_cases h0 : v > 0
  · rw [if_pos h0] at hf
    unfold freeNode at hf
    rw [Option.bind_eq_bind] at hf
    obtain ⟨i, -, hi⟩ := Option.bind_eq_some_iff.mp hf
    obtain rfl := Option.some.inj hi
    exact (h₁.metaPut hp hz hv).insert_or (h₂.metaPut hp hw hv) (classHead_mod hb i) hp hz
      hw hzp hwp hzw
  · rw [if_neg h0] at hf
    obtain rfl := Option.some.inj hf
    exact Or.inl h₁

section

variable {h : Heap} {l r : List Blk} {fl : Nat → List Nat} {b : Blk}

/-! ## When `mm_realloc` answers `NULL` -/

theorem mmRealloc_moved {p n a q : Nat} {m : Mem} {h' : Heap} (hp : p ≠ 0) (hn : n ≠ 0)
    (hc : coalesceWillFree h.mem p = (m, a)) (hle : ¬ allocSize n ≤ get m (hdrp a))
    (hal : allocateBlock (marked h m a) (allocSize n) = some (h', q)) (hq : q ≠ 0) :
    ∀ h'', mmRealloc h p n ≠ some (h'', 0) := by
  intro h'' heq
  unfold marked at hal
  unfold mmRealloc at heq
  rw [if_neg hp, if_neg hn] at heq
  dsimp only at heq
  rw [hc] at heq
  dsimp only at heq
  rw [if_neg hle, hal, Option.bind_eq_bind, Option.bind_some] at heq
  dsimp only at heq
  rw [if_neg hq, Option.bind_eq_bind] at heq
  obtain ⟨m', -, hm'⟩ := Option.bind_eq_some_iff.mp heq
  exact hq (Prod.mk.inj (Option.some.inj hm')).2

theorem allocSize_mod (n : Nat) : allocSize n % 8 = 0 := by
  unfold allocSize align sizeMask alignment
  omega

/-- A `NULL` from a realloc to a positive size means that the marked heap could
not be extended, and what is left is what `uncoalesce_was_resvd` made. -/
theorem Merged.failed {live : List (Nat × Nat)} {m : Mem} {l' r' : List Blk}
    {a' e' n : Nat} {fl' : Nat → List Nat} {h' : Heap}
    (hi : RunInv h live (l ++ b :: r) fl) (hb : b ≠ prologue h.beginHeap)
    (hM : Merged h l r b m l' a' e' r' fl') (hn0 : n ≠ 0) (hlt : n < 4294967296)
    (hf : mmRealloc h b.addr n = some (h', 0)) :
    ∃ m', uncoalesceWasResvd (marked h m a').mem h.beginHeap a' b.addr b.size = some m' ∧
      h' = { h with mem := m' } := by
  have h8 := hi.rest.vars.begin8
  have hbm := hi.rest.mem (b := b) (by simp)
  have hba : h.beginHeap + 80 ≤ a' := hM.inv.begin_le
  have hroom := hM.room
  have hfit : ¬ allocSize n ≤ e' - a' := by
    intro hfit
    obtain ⟨m', hm'⟩ : ∃ m', freeTailWasResvd (memmove m a' b.addr (copySize h b.addr n))
        h.beginHeap a' (allocSize n) = some m' :=
      freeTail_isSome hM.inv.modL (allocSize_mod n)
    rw [mmRealloc_inPlace (by omega) hn0 hM.eq (by rwa [hM.hdr]) hm'] at hf
    have := (Prod.mk.inj (Option.some.inj hf)).2
    omega
  have hn : n ≤ 4294967280 := by
    refine Nat.le_of_not_lt fun hbig => hfit ?_
    rcases allocSize_wrap hbig hlt with he | he
    · omega
    · omega
  have hbnd := allocSize_bounds hn
  obtain ⟨om, -⟩ := hM.inv.mark hM.room hM.tag
  have hbrk : h.brk ≠ 0 := by
    rw [← hi.rest.vars.top]
    exact hi.rest.end_pos
  by_cases hw : allocSize n ≤ 4294963200 + tailSize (marked h m a')
  · rcases mmRealloc_spec hi.rest hb hi.noAdj hM hn0 hn hw
        (hM.allocInRange (by omega) hn0 hf) with
      ⟨-, hal⟩ | ⟨h'', q, bs', fl₃, s, heq, hR⟩
    · obtain ⟨m', hm'⟩ : ∃ m', uncoalesceWasResvd (marked h m a').mem
          (marked h m a').beginHeap a' b.addr (size h.mem (hdrp b.addr)) = some m' :=
        uncoalesceWasResvd_isSome hbm.2.2.2.2.1
      have heq := mmRealloc_fail (by omega) hn0 hM.eq (by rwa [hM.hdr]) hal hm'
      rw [hf] at heq
      rw [(hi.rest.macros (b := b) (by simp)).2.1] at hm'
      exact ⟨m', hm', (Prod.mk.inj (Option.some.inj heq)).1⟩
    · rw [heq] at hf
      have := (Prod.mk.inj (Option.some.inj hf)).2
      have := hR.ge
      omega
  · exfalso
    obtain ⟨h'', hal, -⟩ := allocateBlock_wrap om hbnd.2.2.2.2 hbnd.2.2.2.1
      (Nat.lt_of_not_le hw) fun c hc hcf => by
        have hcm : c ∈ l ++ b :: r := by
          rcases mem_middle.mp hc with hc | rfl
          · rcases List.mem_append.mp hc with hc | hc
            · exact List.mem_append_left _ (hM.left.mem hc)
            · exact List.mem_append_right _ (List.mem_cons_of_mem _ (hM.right.mem hc))
          · exact Bool.noConfusion hcf
        have := hi.free_lt hcm hcf
        omega
    have hal' : allocateBlock (marked h m a') (allocSize n) = some (h'', h.brk) := hal
    have hle : ¬ allocSize n ≤ get m (hdrp a') := by
      rw [hM.hdr]
      exact hfit
    exact mmRealloc_moved (by omega) hn0 hM.eq hle hal' hbrk h' hf

/-! ## The left neighbour was free -/

/-- `freePart` closes the left end of the region with a free block. -/
theorem Open.freePart {a e : Nat} (o : Open h l a e r fl) {s : Nat} (hs : 16 ≤ s)
    (hmod : s % 8 = 0) (hle : a + s ≤ e) :
    ∃ m' fl', freePart h.mem h.beginHeap a s = some m' ∧
      Open { h with mem := m' } (l ++ [⟨a, s, false⟩]) (a + s) e r fl' ∧
      (∀ z, UserByte (l ++ r) h.beginHeap z → m' z = h.mem z) ∧
      ∀ z, a + s - 4 ≤ z → z < e → m' z = h.mem z := by
  have h8 := o.vars.begin8
  have hlt := o.vars.lt
  have hb := o.begin_le
  have hle' := o.le_end
  obtain ⟨ht, hout⟩ := metaPut_spec (m := h.mem) (b := ⟨a, s, false⟩) (v := s) rfl
    (by show 8 ≤ a; omega) hs hmod (by show a + s < _; omega)
  simp only at hout
  have ow : Open { h with mem := metaPut h.mem a s } l a e r fl :=
    o.write fun z hz => hout z (by omega) (by omega)
  obtain ⟨m', fl', hf, o', hu, hk⟩ := freeNode_spec ow (b := ⟨a, s, false⟩) rfl hs hmod hle
    rfl ht
  simp only at hf o' hu hk
  refine ⟨m', fl', ?_, o', fun z hz => ?_, fun z h1 h2 => ?_⟩
  · unfold Malloc.freePart
    rw [if_pos (by omega), hf]
  · have := o.user_region hz
    rw [hu z hz, hout z (by omega) (by omega)]
  · rw [hk z (by omega), hout z (by omega) (by omega)]

/-- The first write of `uncoalesce_was_resvd`: the old block has its tags back, inside
a run that belongs to no block. -/
theorem Merged.retag {m : Mem} {l' r' : List Blk} {a' e' : Nat} {fl' : Nat → List Nat}
    (o : Rest h (l ++ b :: r) fl) (ha : b.alloc = true)
    (hM : Merged h l r b m l' a' e' r' fl') :
    ∃ m₁, metaPut (marked h m a').mem b.addr (pack b.size 1) = m₁ ∧ TagOk m₁ b ∧
      Open { h with mem := m₁ } l' a' e' r' fl' ∧ nextblk m₁ b.addr = b.addr + b.size ∧
      size (marked h m a').mem (hdrp a') = e' - a' ∧
      ∀ z, a' ≤ z → z < e' - 8 → (z < b.addr - 4 ∨ b.addr ≤ z) →
        (z < b.addr + b.size - 8 ∨ b.addr + b.size - 4 ≤ z) → m₁ z = m z := by
  have hbm := o.mem (b := b) (by simp)
  have h8 := o.vars.begin8
  have hlt := o.vars.lt
  have hla := hM.left.le
  have hre := hM.right.le
  have hle : e' ≤ h.endHeap := hM.inv.le_end
  have hba : h.beginHeap + 80 ≤ a' := hM.inv.begin_le
  have hroom := hM.room
  obtain ⟨om, hmark⟩ := hM.inv.mark hM.room hM.tag
  have oo : Open (marked h m a') l' a' (a' + (e' - a')) r' fl' :=
    om.openAt rfl (ne_prologue hba)
  rw [show a' + (e' - a') = e' by omega] at oo
  have htag : pack b.size 1 = b.tag := by
    rw [pack_one hbm.2.2.2.1]
    unfold Blk.tag
    rw [ha]
    rfl
  obtain ⟨htb, hout⟩ := metaPut_spec (m := (marked h m a').mem) htag (by omega)
    hbm.2.2.1 hbm.2.2.2.1 (by omega)
  refine ⟨_, rfl, htb, oo.write fun z hz => hout z (by omega) (by omega), ?_,
    (om.macros (b := ⟨a', e' - a', true⟩) (by simp)).2.1, fun z h1 h2 h3 h4 => ?_⟩
  · unfold nextblk
    rw [hdrp_eq (by omega) (by omega), size_of_tag hbm.2.2.2.1 htb.1, u32_of_lt (by omega)]
  · exact (hout z h3 h4).trans (hmark z (Or.inr h1) (Or.inl h2))

/-- The run is taken apart into the blocks it was merged from. -/
theorem Merged.undo {p : Blk} {m : Mem} {l' r' : List Blk} {a' e' : Nat}
    {fl' : Nat → List Nat} (o : Rest h ((l ++ [p]) ++ b :: r) fl)
    (ha : b.alloc = true) (hp : p.alloc = false)
    (hM : Merged h (l ++ [p]) r b m l' a' e' r' fl') :
    ∃ m' fl₂, uncoalesceWasResvd (marked h m a').mem h.beginHeap a' b.addr b.size =
        some m' ∧
      Rest { h with mem := m' } ((l ++ [p]) ++ b :: r) fl₂ ∧
      ∀ z, b.addr ≤ z → z + 8 < b.addr + b.size → m' z = h.mem z := by
  have hpm := o.mem (b := p) (by simp)
  have hbm := o.mem (b := b) (by simp)
  have h8 := o.vars.begin8
  have hlt := o.vars.lt
  have hroom := hM.room
  have hre := hM.right.le
  have hle : e' ≤ h.endHeap := hM.inv.le_end
  have hba : h.beginHeap + 80 ≤ a' := hM.inv.begin_le
  obtain ⟨rfl, rfl, hpe⟩ : l' = l ∧ a' = p.addr ∧ p.addr + p.size = b.addr := by
    rcases hM.left with ⟨-, -, hl⟩ | ⟨q, hq, -, rfl, hqe⟩
    · rw [hl p (by simp)] at hp
      exact Bool.noConfusion hp
    · obtain ⟨rfl, hpq⟩ := List.append_inj' hq rfl
      obtain rfl := List.singleton_inj.mp hpq
      exact ⟨rfl, rfl, hqe⟩
  obtain ⟨m₁, hm₁, htb, o₁, hnext, hnew, hout⟩ := hM.retag o ha
  have hprev : prevblk m₁ b.addr = p.addr := by
    have hw : get m₁ (b.addr - 8) = p.tag := by
      rw [get_congr fun z h1 h2 => (hout z (by omega) (by omega) (by omega) (by omega)).trans
        (hM.footer (by omega) z (by omega) (by omega))]
      have := (o.tags p (by simp)).2
      rwa [hpe] at this
    unfold prevblk
    rw [pftrp_eq (by omega) (by omega), size_of_tag hpm.2.2.2.1 hw,
      sub32_of_le (by omega) (by omega)]
    omega
  obtain ⟨m₂, fl₂, hf₂, o₂, -, hk₂⟩ := o₁.freePart hpm.2.2.1 hpm.2.2.2.1 (by omega)
  simp only at hf₂ o₂ hk₂
  have hpb : (⟨p.addr, p.size, false⟩ : Blk) = p := by
    cases p
    simp only at hp
    rw [hp]
  rw [hpb, hpe] at o₂
  have htb₂ : TagOk m₂ b := by
    obtain ⟨ht1, ht2⟩ := htb
    refine ⟨?_, ?_⟩
    · rw [get_congr fun z h1 h2 => hk₂ z (by omega) (by omega)]
      exact ht1
    · rw [get_congr fun z h1 h2 => hk₂ z (by omega) (by omega)]
      exact ht2
  have o₃ := o₂.giveAlloc rfl hbm.2.2.1 hbm.2.2.2.1 hre ha htb₂
  have hpay : ∀ z, b.addr ≤ z → z + 8 < b.addr + b.size → m₂ z = h.mem z := by
    intro z h1 h2
    rw [hk₂ z (by omega) (by omega), hout z (by omega) (by omega) (by omega) (by omega),
      hM.payload z h1 h2]
  have hps : sub32 b.addr (prevblk m₁ b.addr) = p.size := by
    rw [hprev, sub32_of_le (by omega) (by omega)]
    omega
  have hns : sub32 (sub32 (size (marked h m p.addr).mem (hdrp p.addr)) b.size) p.size =
      e' - (b.addr + b.size) := by
    have hs : sub32 (e' - p.addr) b.size = e' - p.addr - b.size :=
      sub32_of_le (by omega) (by omega)
    rw [hnew, hs, sub32_of_le (by omega) (by omega)]
    omega
  rw [uncoalesceWasResvd_eq hm₁ hps hns (by rw [hprev]; exact hf₂), hnext]
  rcases hM.right with ⟨rfl, rfl, -⟩ | ⟨n, rfl, hnf, rfl, hna⟩
  · refine ⟨m₂, fl₂, ?_, ?_, hpay⟩
    · unfold Malloc.freePart
      rw [if_neg (by omega)]
    · have := o₃.rest
      rwa [List.append_assoc] at this
  · have hnm := o.mem (b := n) (by simp)
    rw [show b.addr + b.size + n.size - (b.addr + b.size) = n.size by omega]
    obtain ⟨m₃, fl₃, hf₃, o₄, hu₃, -⟩ := o₃.freePart hnm.2.2.1 hnm.2.2.2.1 (Nat.le_refl _)
    simp only at hf₃ o₄ hu₃
    have hnb : (⟨b.addr + b.size, n.size, false⟩ : Blk) = n := by
      cases n
      simp only at hnf hna
      rw [hnf, hna]
    rw [hnb] at o₄
    refine ⟨m₃, fl₃, hf₃, ?_, fun z h1 h2 => ?_⟩
    · have := o₄.rest
      rw [List.append_assoc, List.append_assoc] at this
      exact this
    · rw [hu₃ z ⟨b, by simp, ha, ne_prologue (by omega), h1, h2⟩]
      exact hpay z h1 h2

/-! ## The left neighbour was allocated -/

/-- The left neighbour's tags are not what they were. -/
theorem Merged.corrupt {p : Blk} {m m' : Mem} {l' r' : List Blk} {a' e' : Nat}
    {fl' : Nat → List Nat} (o : Rest h ((l ++ [p]) ++ b :: r) fl)
    (ha : b.alloc = true) (hp : p.alloc = true)
    (hM : Merged h (l ++ [p]) r b m l' a' e' r' fl')
    (hu : uncoalesceWasResvd (marked h m a').mem h.beginHeap a' b.addr b.size = some m') :
    ¬ TagOk m' p := by
  have hpm := o.mem (b := p) (by simp)
  have hbm := o.mem (b := b) (by simp)
  have h8 := o.vars.begin8
  have hbmod := o.vars.beginMod
  have hlt := o.vars.lt
  have hre := hM.right.le
  have hle : e' ≤ h.endHeap := hM.inv.le_end
  have hba : h.beginHeap + 80 ≤ a' := hM.inv.begin_le
  obtain ⟨rfl, rfl⟩ : l' = l ++ [p] ∧ a' = b.addr := by
    rcases hM.left with ⟨h1, h2, -⟩ | ⟨q, hq, hqf, -, -⟩
    · exact ⟨h1, h2⟩
    · obtain ⟨-, hpq⟩ := List.append_inj' hq rfl
      rw [← List.singleton_inj.mp hpq, hp] at hqf
      exact Bool.noConfusion hqf
  obtain ⟨m₁, hm₁, -, o₁, hnext, -, -⟩ := hM.retag o ha
  have hlast : p.addr + p.size = b.addr := o₁.last_addr
  have hprev : prevblk m₁ b.addr = p.addr := o₁.prevblk_eq
  have hps : sub32 b.addr (prevblk m₁ b.addr) = p.size := by
    rw [hprev, sub32_of_le (by omega) (by omega)]
    omega
  -- The neighbour is declared free: both its tags are even now.
  obtain ⟨htp, hkeep⟩ := metaPut_spec (m := m₁) (b := ⟨p.addr, p.size, false⟩)
    (v := p.size) rfl (by show 8 ≤ p.addr; omega) hpm.2.2.1 hpm.2.2.2.1
    (by show p.addr + p.size < _; omega)
  simp only at hkeep
  have hz₁ : Even (metaPut m₁ p.addr p.size) (p.addr - 4) := even_of_get (by
    rw [htp.1]
    show (p.size + 0) % 2 = 0
    omega)
  have hw₁ : Even (metaPut m₁ p.addr p.size) (p.addr + p.size - 8) := even_of_get (by
    rw [htp.2]
    show (p.size + 0) % 2 = 0
    omega)
  have hc := classIdx_lt p.size
  have hf₁ : freePart m₁ h.beginHeap (prevblk m₁ b.addr) p.size =
      some (freeListInsert (metaPut m₁ p.addr p.size)
        (h.beginHeap + 8 * classIdx p.size) p.addr) := by
    rw [hprev]
    unfold Malloc.freePart
    rw [if_pos (by omega)]
    exact freeNode_eq (b := ⟨p.addr, p.size, false⟩) htp rfl (by show 4 ≤ p.addr; omega)
      hpm.2.2.1 (by show p.addr < _; omega) (by omega)
  have hhead : p.addr ≠ h.beginHeap + 8 * classIdx p.size := by
    rcases hpm.2.2.2.2.2.2 with rfl | hge
    · have : classIdx (prologue h.beginHeap).size = 2 := by
        show classIdx 80 = 2
        decide
      rw [this]
      show h.beginHeap ≠ h.beginHeap + 8 * 2
      omega
    · omega
  have hfirst : next (metaPut m₁ p.addr p.size) (h.beginHeap + 8 * classIdx p.size) % 8 =
      0 := by
    have hav := (o₁.head_avoids hc).2.2 p (by simp)
    have hsame : next (metaPut m₁ p.addr p.size) (h.beginHeap + 8 * classIdx p.size) =
        next m₁ (h.beginHeap + 8 * classIdx p.size) :=
      get_congr fun z h1 h2 => hkeep z (by omega) (by omega)
    have hring : Ring (next m₁) (prev m₁) (h.beginHeap + 8 * classIdx p.size)
        (fl' (classIdx p.size)) := o₁.rings.ring _ hc
    rw [hsame]
    exact (o₁.node_avoids ⟨_, hc, (hring.next List.mem_cons_self).1⟩).1
  have hz₂ := hz₁.insert (by omega) (by omega) (by omega) (by omega) hhead hfirst
  have hw₂ := hw₁.insert (by omega) (by omega) (by omega) (by omega) hhead hfirst
  rw [uncoalesceWasResvd_eq hm₁ hps rfl hf₁, hnext] at hu
  have hns : sub32 (sub32 (size (marked h m b.addr).mem (hdrp b.addr)) b.size) p.size % 2
      = 0 := by
    unfold sub32 u32 size sizeMask alignment
    omega
  rintro ⟨ht1, ht2⟩
  have hodd : p.tag % 2 = 1 := by
    unfold Blk.tag
    rw [hp]
    show (p.size + 1) % 2 = 1
    omega
  rcases freePart_even hz₂ hw₂ hbmod (by omega) (by omega) (by omega) (by omega)
    (by omega) (by omega) hns hu with hev | hev
  · have := hev.get
    rw [ht1] at this
    omega
  · have := hev.get
    rw [ht2] at this
    omega

/-! ## The two cases together -/

/-- Tags and tiling determine the blocks. -/
theorem tiles_unique {m : Mem} {l : List Blk} :
    ∀ {l' : List Blk} {a e : Nat}, (∀ b ∈ l, TagOk m b) → (∀ b ∈ l', TagOk m b) →
      Tiles a l e → Tiles a l' e → l = l' := by
  induction l with
  | nil =>
      intro l' a e _ _ ht ht'
      obtain rfl : a = e := ht
      exact ht'.eq_nil.symm
  | cons b l ih =>
      intro l' a e hb hb' ht ht'
      cases l' with
      | nil =>
          obtain rfl : a = e := ht'
          exact ht.eq_nil
      | cons c l' =>
          obtain ⟨hba, -, hbm, ht⟩ := ht
          obtain ⟨hca, -, hcm, ht'⟩ := ht'
          have htag : b.tag = c.tag := by
            rw [← (hb b List.mem_cons_self).1, ← (hb' c List.mem_cons_self).1, hba, hca]
          have hbc : b = c := by
            cases b with
            | mk ba bs bf =>
                cases c with
                | mk ca cs cf =>
                    unfold Blk.tag at htag
                    cases bf <;> cases cf <;>
                      simp only [Bool.toNat_false, Bool.toNat_true] at hba hbm hca hcm htag
                    · rw [hba, hca, show bs = cs by omega]
                    · omega
                    · omega
                    · rw [hba, hca, show bs = cs by omega]
          subst hbc
          rw [ih (fun d hd => hb d (List.mem_cons_of_mem _ hd))
            (fun d hd => hb' d (List.mem_cons_of_mem _ hd)) ht ht']

theorem Rest.unique {bs bs' : List Blk} {fl' : Nat → List Nat} (o : Rest h bs fl)
    (o' : Rest h bs' fl') : bs = bs' :=
  tiles_unique (fun b hb => o.tags b (List.mem_append_left _ hb))
    (fun b hb => o'.tags b (List.mem_append_left _ hb)) o.tilesL o'.tilesL

/-- Equal blocks, equal lists up to order. -/
theorem Rest.perm {h' : Heap} {bs : List Blk} {fl' : Nat → List Nat} (o : Rest h bs fl)
    (o' : Rest h' bs fl') {c : Nat} (hc : c < 9) : (fl' c).Perm (fl c) :=
  (List.perm_ext_iff_of_nodup (o'.rings.nodup c hc) (o.rings.nodup c hc)).mpr fun x => by
    rw [o'.listed c hc x, o.listed c hc x]

/-- The left neighbour of a live block. -/
theorem RunInv.leftOf {live : List (Nat × Nat)} {bs : List Blk} {p k : Nat}
    (hi : RunInv h live bs fl) (hp : (p, k) ∈ live) :
    ∃ l q b r, bs = (l ++ [q]) ++ b :: r ∧ b.addr = p ∧ b.alloc = true ∧
      b ≠ prologue h.beginHeap ∧ prevblk h.mem p = q.addr ∧
      aloc h.mem (hdrp (prevblk h.mem p)) = q.alloc.toNat := by
  obtain ⟨l, b, r, rfl, rfl, ha, hb, -⟩ := hi.liveBlk hp
  have op := hi.rest.openAt ha hb
  obtain ⟨l, q, rfl⟩ := op.last_exists
  have hprev := op.prevblk_eq
  refine ⟨l, q, b, r, rfl, rfl, ha, hb, hprev, ?_⟩
  rw [hprev, (hi.rest.macros (b := q) (by simp)).2.2.1]

theorem RunInv.atomic {h' : Heap} {live : List (Nat × Nat)} {bs : List Blk} {p k n : Nat}
    (hi : RunInv h live bs fl) (hp : (p, k) ∈ live) (hn : n ≠ 0) (hlt : n < 4294967296)
    (hf : mmRealloc h p n = some (h', 0))
    (hfree : aloc h.mem (hdrp (prevblk h.mem p)) = 0) : Atomic h h' p := by
  obtain ⟨l, q, b, r, rfl, rfl, ha, hb, -, hal⟩ := hi.leftOf hp
  have hq : q.alloc = false := by
    rw [hal] at hfree
    cases hqa : q.alloc with
    | false => rfl
    | true =>
        rw [hqa] at hfree
        exact absurd hfree Nat.one_ne_zero
  obtain ⟨m, l', a', e', r', fl', hM⟩ := hi.rest.merged ha hb
  obtain ⟨m', hu, rfl⟩ := hM.failed hi hb hn hlt hf
  obtain ⟨m'', fl₂, hu', o₂, hpay⟩ := hM.undo hi.rest ha hq
  obtain rfl := Option.some.inj (hu.symm.trans hu')
  intro bs₁ fl₁ o₁
  obtain rfl := o₁.unique hi.rest
  refine ⟨⟨fl₂, o₂, fun c hc => o₁.perm o₂ hc⟩, fun z h1 h2 => hpay z h1 ?_⟩
  rwa [(hi.rest.macros (b := b) (by simp)).2.1] at h2

theorem RunInv.not_atomic {h' : Heap} {live : List (Nat × Nat)} {bs : List Blk}
    {p k n : Nat} (hi : RunInv h live bs fl) (hp : (p, k) ∈ live) (hn : n ≠ 0)
    (hlt : n < 4294967296) (hf : mmRealloc h p n = some (h', 0))
    (halloc : aloc h.mem (hdrp (prevblk h.mem p)) ≠ 0) : ¬ Atomic h h' p := by
  obtain ⟨l, q, b, r, rfl, rfl, ha, hb, -, hal⟩ := hi.leftOf hp
  have hq : q.alloc = true := by
    rw [hal] at halloc
    cases hqa : q.alloc with
    | false =>
        rw [hqa] at halloc
        exact absurd rfl halloc
    | true => rfl
  obtain ⟨m, l', a', e', r', fl', hM⟩ := hi.rest.merged ha hb
  obtain ⟨m', hu, rfl⟩ := hM.failed hi hb hn hlt hf
  intro hat
  obtain ⟨⟨fl₂, o₂, -⟩, -⟩ := hat _ _ hi.rest
  exact hM.corrupt hi.rest ha hq hu (o₂.tags q (by simp))

end

/-- A realloc that fails leaves everything as it was exactly when the block's
left neighbour was free. -/
theorem mmRealloc_atomic_iff {h h' : Heap} {live : List (Nat × Nat)} {p k n : Nat}
    (hr : Reachable ⟨h, live⟩) (hp : (p, k) ∈ live) (hn : n ≠ 0) (hlt : n < 4294967296)
    (hf : mmRealloc h p n = some (h', 0)) :
    Atomic h h' p ↔ aloc h.mem (hdrp (prevblk h.mem p)) = 0 := by
  obtain ⟨bs, fl, hi⟩ := hr.inv
  constructor
  · intro hat
    by_contra halloc
    exact hi.not_atomic hp hn hlt hf halloc hat
  · exact fun hfree => hi.atomic hp hn hlt hf hfree

/-- A simulated heap with room for one chunk. -/
def smallHeap : Heap := ⟨fun _ => 0, 4096, 4096, 8192, 0, 0⟩

theorem smallHeap_fresh : Fresh smallHeap := by
  constructor <;> decide

theorem smallHeap_malloc : ∃ h p, Reachable ⟨h, [(p, 4008)]⟩ ∧ h.beginHeap = 4096 ∧
    h.maxAddr = 8192 := by
  obtain ⟨h, fl, hm, o, hb, -, hx, -⟩ := mmInit_spec smallHeap_fresh (by decide)
  have hr := Reachable.init smallHeap_fresh hm
  have hn : allocSize 4008 = 4016 := by decide
  have hin : AllocInRange h 4016 := o.allocInRange_of_le (by rw [hx]; decide) 4016
  rcases allocateBlock_spec o (n := 4016) (by omega) (by omega) (by omega) (by omega) hin with
    ⟨-, hall, -⟩ | ⟨h', p, bs', fl', s, hal, hA, -⟩
  · have := hall ⟨smallHeap.brk + 80, 4016, false⟩ (by simp) rfl
    exact absurd this (by decide)
  · have hge := hA.ge
    have hp : p ≠ 0 := by omega
    have hs : mmMalloc h 4008 = some (h', p) := by
      rw [mmMalloc_eq (by omega), hn, hal]
    have hst := hr.step (Step.malloc (by decide) hs)
    unfold withNew at hst
    rw [if_neg hp] at hst
    exact ⟨h', p, hst, hA.beginEq.trans hb, hA.maxEq.trans hx⟩

/-- The block fills the heap, next to the prologue, and cannot grow. -/
theorem smallHeap_failed : ∃ h p h', Reachable ⟨h, [(p, 4008)]⟩ ∧
    mmRealloc h p 5000 = some (h', 0) ∧ aloc h.mem (hdrp (prevblk h.mem p)) ≠ 0 := by
  obtain ⟨h, p, hr, hbegin, hmax⟩ := smallHeap_malloc
  obtain ⟨bs, fl, hi⟩ := hr.inv
  simp only at hi
  have hbrk := hi.rest.vars.brkMax
  have htop := hi.rest.vars.top
  obtain ⟨c, ⟨hc, -, hcp⟩, hcpa, hcn⟩ := hi.tracks.block p 4008 List.mem_cons_self
  have hcm := hi.rest.mem (List.mem_append_left _ hc)
  have hge := hcm.2.2.2.2.2.2.resolve_left hcp
  obtain ⟨l, q, b, r, rfl, rfl, ha, hb, hprev, hal⟩ := hi.leftOf List.mem_cons_self
  obtain ⟨m, l', a', e', r', fl', hM⟩ := hi.rest.merged ha hb
  have hn : allocSize 5000 = 5008 := by decide
  have hnull : ∃ h', mmRealloc h b.addr 5000 = some (h', 0) := by
    have om := (hM.inv.mark hM.room hM.tag).1
    have hin := om.allocInRange_of_le (by dsimp only; omega) (allocSize 5000)
    rcases mmRealloc_spec hi.rest hb hi.noAdj hM (by omega : 5000 ≠ 0) (by omega)
      (by omega) (fun _ => hin) with ⟨hfit, hall⟩ | ⟨h', p', bs', fl₃, s, heq, hR⟩
    · obtain ⟨m', hm'⟩ : ∃ m', uncoalesceWasResvd (marked h m a').mem
          (marked h m a').beginHeap a' b.addr (size h.mem (hdrp b.addr)) = some m' :=
        uncoalesceWasResvd_isSome (hi.rest.mem (b := b) (by simp)).2.2.2.2.1
      have hle : ¬ allocSize 5000 ≤ get m (hdrp a') := by
        rw [hM.hdr]
        exact hfit
      exact ⟨_, mmRealloc_fail (hi.live_pos List.mem_cons_self) (by omega) hM.eq hle hall hm'⟩
    · exfalso
      have hQ : (⟨p', s, true⟩ : Blk) ∈ bs' := (hR.allocIff _ rfl).mpr (Or.inr rfl)
      have hQm := (hR.inv.mem (List.mem_append_left _ hQ)).2.1
      have h1 := hR.ge
      have h2 := hR.room
      have h3 := hR.inv.vars.top
      have h4 := hR.inv.vars.brkMax
      have h5 := hR.maxEq
      simp only at hQm
      omega
  obtain ⟨h', hf⟩ := hnull
  refine ⟨h, b.addr, h', hr, hf, ?_⟩
  rw [hal]
  have hlast := (hi.rest.openAt ha hb).last_addr
  have hqm := hi.rest.mem (b := q) (by simp)
  cases hqa : q.alloc with
  | true => exact Nat.one_ne_zero
  | false =>
      rcases hqm.2.2.2.2.2.2 with rfl | hq
      · exact Bool.noConfusion hqa
      · omega

theorem mmRealloc_atomic_iff_small : ∃ h p h', Reachable ⟨h, [(p, 4008)]⟩ ∧
    (Atomic h h' p ↔ aloc h.mem (hdrp (prevblk h.mem p)) = 0) := by
  obtain ⟨h, p, h', hr, hf, -⟩ := smallHeap_failed
  exact ⟨h, p, h', hr, mmRealloc_atomic_iff hr List.mem_cons_self (by omega) (by omega) hf⟩

/-- The block next to the prologue: after the failed call the prologue is free. -/
theorem mmRealloc_not_atomic : ∃ h p h', Reachable ⟨h, [(p, 4008)]⟩ ∧
    mmRealloc h p 5000 = some (h', 0) ∧ ¬ Atomic h h' p := by
  obtain ⟨h, p, h', hr, hf, hal⟩ := smallHeap_failed
  obtain ⟨bs, fl, hi⟩ := hr.inv
  exact ⟨h, p, h', hr, hf, hi.not_atomic List.mem_cons_self (by omega) (by omega) hf hal⟩

end Csapp.Malloc
