import Mathlib
import Csapp.Malloc.Tags

/-!
# Coalescing and splitting

`coalesce_will_free` turns a block between its neighbours into a wider open
region whose two ends carry the merged tag, and `free_tail_was_resvd` closes
such a region again with one or two blocks. Every allocator call is one of
these followed by the other, or by `free_node`, with a search or an extension
between; so these two specifications carry the invariant through all of them.

Beside the new heap each says which bytes survive: the payload of the block
that was merged, the payloads of all other allocated blocks, and, when the
left neighbour was merged, the footer that a failing realloc will look for.
-/

namespace Csapp.Malloc

/-- `l'` ending at `a'` is `l` ending at `a`, less its last block if free. -/
def TrimLeft (l : List Blk) (a : Nat) (l' : List Blk) (a' : Nat) : Prop :=
  (l' = l ∧ a' = a ∧ ∀ p ∈ l.getLast?, p.alloc = true) ∨
    ∃ p, l = l' ++ [p] ∧ p.alloc = false ∧ a' = p.addr ∧ p.addr + p.size = a

/-- `r'` starting at `e'` is `r` starting at `e`, less its first block if free. -/
def TrimRight (r : List Blk) (e : Nat) (r' : List Blk) (e' : Nat) : Prop :=
  (r' = r ∧ e' = e ∧ ∀ n ∈ r.head?, n.alloc = true) ∨
    ∃ n, r = n :: r' ∧ n.alloc = false ∧ e' = e + n.size ∧ n.addr = e

theorem TrimLeft.mem {l l' : List Blk} {a a' : Nat} (h : TrimLeft l a l' a') {b : Blk}
    (hb : b ∈ l') : b ∈ l := by
  rcases h with ⟨rfl, -, -⟩ | ⟨p, rfl, -, -, -⟩
  · exact hb
  · exact List.mem_append_left _ hb

theorem TrimLeft.alloc {l l' : List Blk} {a a' : Nat} (h : TrimLeft l a l' a') {b : Blk}
    (hb : b ∈ l) (ha : b.alloc = true) : b ∈ l' := by
  rcases h with ⟨rfl, -, -⟩ | ⟨p, rfl, hp, -, -⟩
  · exact hb
  · rcases List.mem_append.mp hb with hb | hb
    · exact hb
    · rw [List.mem_singleton.mp hb, hp] at ha
      exact Bool.noConfusion ha

theorem TrimRight.mem {r r' : List Blk} {e e' : Nat} (h : TrimRight r e r' e') {b : Blk}
    (hb : b ∈ r') : b ∈ r := by
  rcases h with ⟨rfl, -, -⟩ | ⟨n, rfl, -, -, -⟩
  · exact hb
  · exact List.mem_cons_of_mem _ hb

theorem TrimRight.alloc {r r' : List Blk} {e e' : Nat} (h : TrimRight r e r' e')
    {b : Blk} (hb : b ∈ r) (ha : b.alloc = true) : b ∈ r' := by
  rcases h with ⟨rfl, -, -⟩ | ⟨n, rfl, hn, -, -⟩
  · exact hb
  · rcases List.mem_cons.mp hb with rfl | hb
    · rw [hn] at ha
      exact Bool.noConfusion ha
    · exact hb

theorem TrimLeft.le {l l' : List Blk} {a a' : Nat} (h : TrimLeft l a l' a') : a' ≤ a := by
  rcases h with ⟨-, rfl, -⟩ | ⟨p, -, -, rfl, h⟩
  · exact Nat.le_refl _
  · omega

theorem TrimRight.le {r r' : List Blk} {e e' : Nat} (h : TrimRight r e r' e') : e ≤ e' := by
  rcases h with ⟨-, rfl, -⟩ | ⟨n, -, -, rfl, -⟩
  · exact Nat.le_refl _
  · omega

theorem UserByte.mono {bs bs' : List Blk} {b z : Nat} (hz : UserByte bs b z)
    (h : ∀ c ∈ bs, c ∈ bs') : UserByte bs' b z := by
  obtain ⟨c, hc, hrest⟩ := hz
  exact ⟨c, h c hc, hrest⟩

/-- Merging takes free blocks only, so no user byte is lost sight of. -/
theorem UserByte.trim {l l' r r' : List Blk} {a a' e e' b z : Nat}
    (hl : TrimLeft l a l' a') (hr : TrimRight r e r' e')
    (hz : UserByte (l ++ r) b z) : UserByte (l' ++ r') b z := by
  obtain ⟨c, hc, hca, hrest⟩ := hz
  refine ⟨c, ?_, hca, hrest⟩
  rcases List.mem_append.mp hc with hc | hc
  · exact List.mem_append_left _ (hl.alloc hc hca)
  · exact List.mem_append_right _ (hr.alloc hc hca)

section

variable {h : Heap} {l r : List Blk} {a e : Nat} {fl : Nat → List Nat}

/-- The nodes of a heap with fewer blocks are nodes of the heap. -/
theorem Open.node_mono (o : Open h l a e r fl) {m' : Mem} {l' r' : List Blk}
    {a' e' : Nat} {fl' : Nat → List Nat} (o' : Open { h with mem := m' } l' a' e' r' fl')
    (hsub : ∀ b ∈ l' ++ r', b ∈ l ++ r) {y : Nat} (hy : IsNode h.beginHeap fl' y) :
    IsNode h.beginHeap fl y := by
  obtain ⟨c, hc, hy⟩ := hy
  refine ⟨c, hc, ?_⟩
  rcases List.mem_cons.mp hy with rfl | hy
  · exact List.mem_cons_self
  · obtain ⟨b, hb, hba⟩ := (o'.listed c hc y).mp hy
    exact List.mem_cons_of_mem _ ((o.listed c hc y).mpr ⟨b, hsub b hb, hba⟩)

/-! ## Looking left and right -/

theorem Open.last_exists (o : Open h l a e r fl) : ∃ l₀ p, l = l₀ ++ [p] := by
  obtain ⟨l', rfl⟩ := o.pro
  exact ⟨_, _, (List.dropLast_append_getLast (List.cons_ne_nil _ _)).symm⟩

theorem Open.last_addr {p : Blk} (o : Open h (l ++ [p]) a e r fl) :
    p.addr + p.size = a := by
  obtain ⟨c, -, hpa, -, -, hpe⟩ := tiles_append.mp o.tilesL
  have hpe : c + p.size = a := hpe
  omega

/-- `PREVBLK` of the region's left end is the last block before it. -/
theorem Open.prevblk_eq {p : Blk} (o : Open h (l ++ [p]) a e r fl) :
    prevblk h.mem a = p.addr := by
  have hp : p ∈ (l ++ [p]) ++ r := by simp
  have hpm := o.mem hp
  have hlast := o.last_addr
  have hlt := o.vars.lt
  have hle := o.le
  have hle' := o.le_end
  have ht := (o.tags p hp).2
  rw [hlast] at ht
  unfold prevblk
  rw [pftrp_eq (by omega) (by omega), size_of_tag hpm.2.2.2.1 ht,
    sub32_of_le (by omega) (by omega)]
  omega

theorem Open.aloc_eq (o : Open h l a e r fl) {b : Blk} (hb : b ∈ l ++ r) :
    aloc h.mem (hdrp b.addr) = b.alloc.toNat := by
  have hbm := o.mem hb
  have h8 := o.vars.begin8
  have hlt := o.vars.lt
  rw [hdrp_eq (by omega) (by omega)]
  exact aloc_of_tag hbm.2.2.2.1 (o.tags b hb).1

/-- The header at the region's right end is the epilogue's, if nothing follows. -/
theorem Open.aloc_end (o : Open h l a e [] fl) : aloc h.mem (hdrp e) = 1 := by
  have he : e = h.endHeap := o.tilesR
  have h8 := o.vars.begin8
  have hb := o.begin_le
  have hle := o.le
  have hlt := o.vars.lt
  have := o.epi
  rw [← he] at this
  unfold aloc
  rw [hdrp_eq (by omega) (by omega), this]

theorem Open.free_header (o : Open h l a e r fl) {b : Blk} (hb : b ∈ l ++ r)
    (hf : b.alloc = false) {m' : Mem}
    (hm : AgreeOffNodes (IsNode h.beginHeap fl) h.mem m') :
    get m' (hdrp b.addr) = b.size := by
  have hbm := o.mem hb
  have h8 := o.vars.begin8
  have hlt := o.vars.lt
  have ht := ((o.tags_agree (hm.mono fun y hy => o.node_avoids hy)).1 b hb).1
  rw [hdrp_eq (by omega) (by omega), ht]
  unfold Blk.tag
  rw [hf]
  rfl

/-! ## The two merges -/

theorem coalescePrev_spec {p : Blk} (o : Open h (l ++ [p]) a e r fl) :
    ∃ m' l' a' fl', coalescePrev h.mem a p.addr (e - a) = (m', a', e - a') ∧
      Open { h with mem := m' } l' a' e r fl' ∧ TrimLeft (l ++ [p]) a l' a' ∧
      AgreeOffNodes (IsNode h.beginHeap fl) h.mem m' := by
  have hp : p ∈ (l ++ [p]) ++ r := by simp
  have hlast := o.last_addr
  have hle := o.le
  have hle' := o.le_end
  have hlt := o.vars.lt
  unfold coalescePrev
  rw [o.aloc_eq hp]
  cases hpf : p.alloc with
  | false =>
      obtain ⟨fl', o', -, hag⟩ := o.takeLeft hpf
      refine ⟨_, l, p.addr, fl', ?_, o', Or.inr ⟨p, rfl, hpf, rfl, hlast⟩, hag⟩
      rw [Bool.toNat_false, if_pos rfl]
      show (_, p.addr, u32 (e - a + get _ _)) = _
      rw [o.free_header hp hpf hag, u32_of_lt (by omega),
        show e - a + p.size = e - p.addr by omega]
  | true =>
      refine ⟨h.mem, l ++ [p], a, fl, ?_, o, Or.inl ⟨rfl, rfl, fun q hq => ?_⟩,
        fun _ _ => rfl⟩
      · rw [if_neg (by simp)]
      · rw [List.getLast?_concat] at hq
        rw [← Option.some.inj hq, hpf]

theorem coalesceNext_spec (o : Open h l a e r fl) :
    ∃ m' r' e' fl', coalesceNext h.mem e (e - a) = (m', e' - a) ∧
      Open { h with mem := m' } l a e' r' fl' ∧ TrimRight r e r' e' ∧
      AgreeOffNodes (IsNode h.beginHeap fl) h.mem m' := by
  have hle := o.le
  have hlt := o.vars.lt
  unfold coalesceNext
  cases r with
  | nil =>
      refine ⟨h.mem, [], e, fl, ?_, o, Or.inl ⟨rfl, rfl, fun q hq => ?_⟩, fun _ _ => rfl⟩
      · rw [o.aloc_end, if_neg (by omega)]
      · cases hq
  | cons n r =>
      have hn : n ∈ l ++ n :: r := by simp
      obtain rfl : e = n.addr := o.tilesR.1.symm
      have hnm := o.mem hn
      rw [o.aloc_eq hn]
      cases hnf : n.alloc with
      | false =>
          obtain ⟨fl', o', -, hag⟩ := o.takeRight hnf
          refine ⟨_, r, n.addr + n.size, fl', ?_, o', Or.inr ⟨n, rfl, hnf, rfl, rfl⟩, hag⟩
          rw [Bool.toNat_false, if_pos rfl]
          show (_, u32 (n.addr - a + get _ _)) = _
          rw [o.free_header hn hnf hag, u32_of_lt (by omega),
            show n.addr - a + n.size = n.addr + n.size - a by omega]
      | true =>
          refine ⟨h.mem, n :: r, n.addr, fl, ?_, o, Or.inl ⟨rfl, rfl, fun q hq => ?_⟩,
            fun _ _ => rfl⟩
          · rw [if_neg (by simp)]
          · rw [← Option.some.inj hq, hnf]

/-- `coalesce_will_free` on the region between `l` and `r`, whose header holds
its size: the free neighbours join it, and its new ends hold the new size. -/
theorem coalesceWillFree_spec (o : Open h l a e r fl) (hgap : a + 16 ≤ e)
    (hsz : size h.mem (a - 4) = e - a) :
    ∃ m' l' a' r' e' fl', coalesceWillFree h.mem a = (m', a') ∧
      Open { h with mem := m' } l' a' e' r' fl' ∧
      TrimLeft l a l' a' ∧ TrimRight r e r' e' ∧
      TagOk m' ⟨a', e' - a', false⟩ ∧
      (∀ z, UserByte (l ++ r) h.beginHeap z → m' z = h.mem z) ∧
      (∀ z, a ≤ z → z + 8 < e → m' z = h.mem z) ∧
      (a' < a → ∀ z, a ≤ z + 8 → z < a → m' z = h.mem z) := by
  obtain ⟨l₀, p, rfl⟩ := o.last_exists
  have h8 := o.vars.begin8
  have hb := o.begin_le
  have hle := o.le_end
  have hlt := o.vars.lt
  have hmodR := o.modR
  obtain ⟨m₁, l', a', fl₁, he₁, o₁, ht₁, hag₁⟩ := coalescePrev_spec o
  obtain ⟨m₂, r', e', fl₂, he₂, o₂, ht₂, hag₂⟩ := coalesceNext_spec o₁
  have haa : a' = a ∨ a' + 16 ≤ a := by
    rcases ht₁ with ⟨-, h1, -⟩ | ⟨q, hq, -, h1, h2⟩
    · exact Or.inl h1
    · have := (o.mem (b := q) (by rw [hq]; simp)).2.2.1
      omega
  have hee : e' = e ∨ e + 16 ≤ e' := by
    rcases ht₂ with ⟨-, h1, -⟩ | ⟨q, hq, -, h1, h2⟩
    · exact Or.inl h1
    · have := (o.mem (b := q) (by rw [hq]; simp)).2.2.1
      omega
  have hb' : h.beginHeap + 80 ≤ a' := o₂.begin_le
  have hle' : e' ≤ h.endHeap := o₂.le_end
  have hmL' : a' % 8 = 0 := o₂.modL
  have hmR' : e' % 8 = 0 := o₂.modR
  -- Both removals write link words of nodes of the heap we started from.
  have hag : ∀ z, (∀ y, IsNode h.beginHeap fl y → z < y ∨ y + 8 ≤ z) →
      m₂ z = h.mem z := fun z hz =>
    (hag₂ z fun y hy => hz y (o.node_mono o₁ (fun b hb => by
      rcases List.mem_append.mp hb with hb | hb
      · exact List.mem_append_left _ (ht₁.mem hb)
      · exact List.mem_append_right _ hb) hy)).trans (hag₁ z hz)
  obtain ⟨htag, hout⟩ := metaPut_spec (m := m₂) (b := ⟨a', e' - a', false⟩)
    (v := e' - a') rfl (by show 8 ≤ a'; omega) (by show 16 ≤ e' - a'; omega)
    (by show (e' - a') % 8 = 0; omega) (by show a' + (e' - a') < _; omega)
  have hout : ∀ z, (z < a' - 4 ∨ a' ≤ z) → (z < e' - 8 ∨ e' - 4 ≤ z) →
      metaPut m₂ a' (e' - a') z = m₂ z := fun z h1 h2 => hout z h1 (by
    show z < a' + (e' - a') - 8 ∨ a' + (e' - a') - 4 ≤ z
    omega)
  have ho₂ : Open { h with mem := metaPut m₂ a' (e' - a') } l' a' e' r' fl₂ :=
    o₂.write fun z hz => hout z (by omega) (by omega)
  have heq : coalesceWillFree h.mem a = (metaPut m₂ a' (e' - a'), a') := by
    unfold coalesceWillFree
    simp only []
    have hn : nextblk h.mem a = e := by
      unfold nextblk
      rw [hdrp_eq (by omega) (by omega), hsz, u32_of_lt (by omega)]
      omega
    rw [hdrp_eq (by omega) (by omega), hsz, hn, o.prevblk_eq, he₁]
    simp only [he₂]
  refine ⟨_, l', a', r', e', fl₂, heq, ho₂, ht₁, ht₂, htag, fun z hz => ?_,
    fun z h1 h2 => ?_, fun hlt z h1 h2 => ?_⟩
  · have hz' := o₂.user_region (hz.trim ht₁ ht₂)
    rw [hout z (by omega) (by omega)]
    exact hag z fun y hy => o.user_node hy hz
  · rw [hout z (by omega) (by omega)]
    refine hag z fun y hy => ?_
    have := o.node_region hy
    omega
  · rw [hout z (by omega) (by omega)]
    refine hag z fun y hy => ?_
    have := o.node_region hy
    omega

/-! ## Closing the region -/

/-- `free_node` closes a region whose ends hold the tag of one free block. -/
theorem freeNode_spec (o : Open h l a e r fl) {b : Blk} (hba : b.addr = a)
    (hbs : 16 ≤ b.size) (hbm : b.size % 8 = 0) (hle : a + b.size ≤ e)
    (hbf : b.alloc = false) (ht : TagOk h.mem b) :
    ∃ m' fl', freeNode h.mem h.beginHeap a = some m' ∧
      Open { h with mem := m' } (l ++ [b]) (a + b.size) e r fl' ∧
      (∀ z, UserByte (l ++ r) h.beginHeap z → m' z = h.mem z) ∧
      ∀ z, (a - 8 ≤ z ∧ z < a) ∨ (a + 8 ≤ z ∧ z < e) → m' z = h.mem z := by
  have h8 := o.vars.begin8
  have hlt := o.vars.lt
  have hb := o.begin_le
  have hle' := o.le_end
  obtain ⟨fl', o', hag⟩ := o.giveFree hba hbs hbm hle hbf ht
  refine ⟨_, fl', ?_, o', fun z hz => ?_, fun z hz => ?_⟩
  · subst hba
    exact freeNode_eq ht hbf (by omega) hbs (by omega) (by omega)
  · refine hag z fun y hy => ?_
    rcases hy with hy | rfl
    · exact o.user_node hy hz
    · have := o.user_region hz
      omega
  · refine hag z fun y hy => ?_
    rcases hy with hy | rfl
    · have := o.node_region hy
      omega
    · omega

/-- The tags of both parts are written before the second part is freed. -/
theorem Open.split {req : Nat} (o : Open h l a e r fl) (hreq : 16 ≤ req)
    (hmod : req % 8 = 0) (hle : a + req + 16 ≤ e) :
    TagOk (metaPut (metaPut h.mem a (pack req 1)) (a + req) (e - a - req))
        ⟨a + req, e - a - req, false⟩ ∧
      Open { h with mem := metaPut (metaPut h.mem a (pack req 1)) (a + req) (e - a - req) }
        (l ++ [⟨a, req, true⟩]) (a + req) e r fl ∧
      ∀ z, (z < a - 4 ∨ a ≤ z) → (z < a + req - 8 ∨ a + req ≤ z) →
        (z < e - 8 ∨ e - 4 ≤ z) →
        metaPut (metaPut h.mem a (pack req 1)) (a + req) (e - a - req) z = h.mem z := by
  have h8 := o.vars.begin8
  have hlt := o.vars.lt
  have hb := o.begin_le
  have hle' := o.le_end
  have hmL := o.modL
  have hmR := o.modR
  obtain ⟨ht₁, hout₁⟩ := metaPut_spec (m := h.mem) (b := ⟨a, req, true⟩)
    (v := pack req 1) (pack_one hmod) (by show 8 ≤ a; omega) hreq hmod
    (by show a + req < _; omega)
  simp only at hout₁
  have ow : Open { h with mem := metaPut h.mem a (pack req 1) } l a e r fl :=
    o.write fun z hz => hout₁ z (by omega) (by omega)
  have o₁ := ow.giveAlloc (b := ⟨a, req, true⟩) rfl hreq hmod (by show a + req ≤ e; omega)
    rfl ht₁
  obtain ⟨ht₂, hout₂⟩ := metaPut_spec (m := metaPut h.mem a (pack req 1))
    (b := ⟨a + req, e - a - req, false⟩) (v := e - a - req) rfl
    (by show 8 ≤ a + req; omega) (by show 16 ≤ e - a - req; omega)
    (by show (e - a - req) % 8 = 0; omega)
    (by show a + req + (e - a - req) < _; omega)
  simp only at hout₂
  refine ⟨ht₂, o₁.write fun z hz => hout₂ z (by simp only at hz; omega)
    (by simp only at hz; omega), fun z h1 h2 h3 => ?_⟩
  rw [hout₂ z (by omega) (by omega), hout₁ z h1 (by omega)]

/-- `free_tail_was_resvd` closes a region that holds a block of its size: an
allocated block of at least `req` bytes, and a free one behind it if there is
room for one. -/
theorem freeTail_spec {req : Nat} (o : Open h l a e r fl)
    (hsz : size h.mem (a - 4) = e - a) (hreq : 16 ≤ req) (hmod : req % 8 = 0)
    (hle : a + req ≤ e) :
    ∃ m' s tail fl', freeTailWasResvd h.mem h.beginHeap a req = some m' ∧
      Open { h with mem := m' } (l ++ ⟨a, s, true⟩ :: tail) e e r fl' ∧ req ≤ s ∧
      tail.length ≤ 1 ∧ (∀ t ∈ tail, t.alloc = false) ∧
      (∀ z, UserByte (l ++ r) h.beginHeap z → m' z = h.mem z) ∧
      ∀ z, a ≤ z → z + 8 < a + req → m' z = h.mem z := by
  have h8 := o.vars.begin8
  have hlt := o.vars.lt
  have hb := o.begin_le
  have hle' := o.le_end
  have hmL := o.modL
  have hmR := o.modR
  have hmin : minAlloc = 16 := rfl
  have hblk : size h.mem (hdrp a) = e - a := by
    rw [hdrp_eq (by omega) (by omega)]
    exact hsz
  have hsec : sub32 (e - a) req = e - a - req := sub32_of_le (by omega) (by omega)
  unfold freeTailWasResvd
  simp only [hblk, hsec, hmin]
  by_cases hs : e - a - req < 16
  · obtain ⟨ht, hout⟩ := metaPut_spec (m := h.mem) (b := ⟨a, e - a, true⟩)
      (v := pack (e - a) 1) (pack_one (by omega)) (by show 8 ≤ a; omega)
      (by show 16 ≤ e - a; omega) (by show (e - a) % 8 = 0; omega)
      (by show a + (e - a) < _; omega)
    simp only at hout
    rw [if_pos hs]
    have ow : Open { h with mem := metaPut h.mem a (pack (e - a) 1) } l a e r fl :=
      o.write fun z hz => hout z (by omega) (by omega)
    have og := ow.giveAlloc (b := ⟨a, e - a, true⟩) rfl (by show 16 ≤ e - a; omega)
      (by show (e - a) % 8 = 0; omega) (by show a + (e - a) ≤ e; omega) rfl ht
    rw [show a + (Blk.mk a (e - a) true).size = e by show a + (e - a) = e; omega] at og
    refine ⟨_, e - a, [], fl, rfl, og, by omega, by simp, by simp, fun z hz => ?_,
      fun z h1 h2 => hout z (by omega) (by omega)⟩
    have := o.user_region hz
    exact hout z (by omega) (by omega)
  · rw [if_neg hs, u32_of_lt (by omega)]
    obtain ⟨ht₂, o₂, hout⟩ := o.split hreq hmod (by omega)
    obtain ⟨m', fl', hm', o₃, hu, hk⟩ := freeNode_spec o₂
      (b := ⟨a + req, e - a - req, false⟩) rfl (by show 16 ≤ e - a - req; omega)
      (by show (e - a - req) % 8 = 0; omega)
      (by show a + req + (e - a - req) ≤ e; omega) rfl ht₂
    simp only at o₃ hm' hu
    rw [show a + req + (e - a - req) = e by omega, List.append_assoc] at o₃
    have hnp : (⟨a, req, true⟩ : Blk) ≠ prologue h.beginHeap := fun he => by
      have : a = h.beginHeap := congrArg Blk.addr he
      omega
    refine ⟨m', req, [⟨a + req, e - a - req, false⟩], fl', hm', o₃, Nat.le_refl _,
      by simp, by simp, fun z hz => ?_, fun z h1 h2 => ?_⟩
    · have hz' := o.user_region hz
      rw [hu z ?_, hout z (by omega) (by omega) (by omega)]
      refine hz.mono fun c hc => ?_
      rcases List.mem_append.mp hc with hc | hc
      · exact List.mem_append_left _ (List.mem_append_left _ hc)
      · exact List.mem_append_right _ hc
    · rw [hu z ?_, hout z (by omega) (by omega) (by omega)]
      exact ⟨⟨a, req, true⟩, by simp, rfl, hnp, h1, h2⟩

end

end Csapp.Malloc
