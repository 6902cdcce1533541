import Mathlib
import Csapp.Malloc.Layout

/-!
# Reserving and finishing blocks

The moves that touch the free lists. Reserving a free block next to the region
takes it off its list and into the region; finishing a block at the region's
left end puts it among the blocks in order, on its list if it is free. Beside
the invariant each move says which bytes it leaves alone, because a realloc
that fails reads its way back from tags that merging left behind.
-/

namespace Csapp.Malloc

theorem AgreeOffNodes.mono {N N' : Nat → Prop} {m m' : Mem}
    (h : AgreeOffNodes N m m') (hN : ∀ x, N x → N' x) : AgreeOffNodes N' m m' :=
  fun a ha => h a fun x hx => ha x (hN x hx)

theorem classIdx_lt (n : Nat) : classIdx n < 9 :=
  Nat.lt_succ_of_le (Nat.min_le_right _ _)

/-- `z` is a payload byte of an allocated block other than the prologue. -/
def UserByte (bs : List Blk) (beginHeap z : Nat) : Prop :=
  ∃ c ∈ bs, c.alloc = true ∧ c ≠ prologue beginHeap ∧
    c.addr ≤ z ∧ z + 8 < c.addr + c.size

section

variable {h : Heap} {l r : List Blk} {a e : Nat} {fl : Nat → List Nat}

theorem Open.user_node (o : Open h l a e r fl) {y z : Nat}
    (hy : IsNode h.beginHeap fl y) (hz : UserByte (l ++ r) h.beginHeap z) :
    z < y ∨ y + 8 ≤ z := by
  obtain ⟨c, hc, hca, hcp, hz1, hz2⟩ := hz
  have hcm := (o.mem hc).2.2.2.2.2.2
  rcases o.node_cases hy with ⟨d, hd, rfl⟩ | ⟨b, hb, rfl, hbf⟩
  · rcases hcm with rfl | hcm
    · exact absurd rfl hcp
    · omega
  · have := (o.mem hb).2.2.1
    rcases o.apart hb hc with rfl | hap
    · rw [hca] at hbf
      exact Bool.noConfusion hbf
    · omega

theorem Open.user_region (o : Open h l a e r fl) {z : Nat}
    (hz : UserByte (l ++ r) h.beginHeap z) : z + 8 < a ∨ e ≤ z := by
  obtain ⟨c, hc, -, -, hz1, hz2⟩ := hz
  rcases (o.mem hc).2.2.2.2.2.1 with hm | hm
  · omega
  · omega

/-! ## Taking a free block off its list -/

/-- What removing the free block `b` does to the lists of the blocks `bs'`
that are left. -/
theorem Open.unlist (o : Open h l a e r fl) {b : Blk} (hb : b ∈ l ++ r)
    (hbf : b.alloc = false) {bs' : List Blk}
    (hbs : ∀ c, c ∈ bs' ↔ c ∈ l ++ r ∧ c ≠ b) :
    let fl' := Function.update fl (classIdx b.size) ((fl (classIdx b.size)).erase b.addr)
    Rings (resvNode h.mem b.addr) h.beginHeap fl' ∧ Listed bs' fl' ∧
      AgreeOffNodes (IsNode h.beginHeap fl) h.mem (resvNode h.mem b.addr) := by
  intro fl'
  have hc := classIdx_lt b.size
  have hmem : b.addr ∈ fl (classIdx b.size) :=
    (o.listed _ hc b.addr).mpr ⟨b, hb, rfl, hbf, rfl⟩
  obtain ⟨hr, hag⟩ := o.rings.remove (N := IsNode h.beginHeap fl) (fun _ hy => hy)
    (fun y hy => o.node_lt (o.node_avoids hy)) hc hmem
  refine ⟨hr, fun d hd x => ?_, hag⟩
  by_cases hdc : d = classIdx b.size
  · subst hdc
    show x ∈ Function.update fl _ _ _ ↔ _
    rw [Function.update_self, (o.rings.nodup _ hc).mem_erase_iff, o.listed _ hd x]
    constructor
    · rintro ⟨hne, c, hcm, rfl, hcf, hcc⟩
      exact ⟨c, (hbs c).mpr ⟨hcm, fun he => hne (he ▸ rfl)⟩, rfl, hcf, hcc⟩
    · rintro ⟨c, hcm, rfl, hcf, hcc⟩
      obtain ⟨hcm, hne⟩ := (hbs c).mp hcm
      exact ⟨fun he => hne (o.addr_inj hcm hb he), c, hcm, rfl, hcf, hcc⟩
  · show x ∈ Function.update fl _ _ _ ↔ _
    rw [Function.update_of_ne hdc, o.listed d hd x]
    constructor
    · rintro ⟨c, hcm, hx, hcf, hcc⟩
      exact ⟨c, (hbs c).mpr ⟨hcm, fun he => hdc (by rw [← hcc, he])⟩, hx, hcf, hcc⟩
    · rintro ⟨c, hcm, hx, hcf, hcc⟩
      exact ⟨c, ((hbs c).mp hcm).1, hx, hcf, hcc⟩

/-- `resv_node` of a free left neighbour: the region grows over it. -/
theorem Open.takeLeft {p : Blk} (o : Open h (l ++ [p]) a e r fl)
    (hp : p.alloc = false) :
    ∃ fl', Open { h with mem := resvNode h.mem p.addr } l p.addr e r fl' ∧
      p.addr + p.size = a ∧
      AgreeOffNodes (IsNode h.beginHeap fl) h.mem (resvNode h.mem p.addr) := by
  obtain ⟨c, hL, hpa, hps, hpm, hpe⟩ := tiles_append.mp o.tilesL
  obtain rfl : c = p.addr := hpa.symm
  have hpe : p.addr + p.size = a := hpe
  have hle := o.le
  have hpmem : p ∈ (l ++ [p]) ++ r := by simp
  have hbs : ∀ c, c ∈ l ++ r ↔ c ∈ (l ++ [p]) ++ r ∧ c ≠ p := by
    intro c
    constructor
    · intro hc
      refine ⟨by simp only [List.mem_append] at hc ⊢; tauto, ?_⟩
      rintro rfl
      rcases List.mem_append.mp hc with hc | hc
      · have := (hL.mem hc).2.1
        omega
      · have := (o.tilesR.mem hc).1
        omega
    · rintro ⟨hc, hne⟩
      simp only [List.mem_append, List.mem_singleton] at hc ⊢
      tauto
  obtain ⟨hr, hl, hag⟩ := o.unlist hpmem hp hbs
  obtain ⟨ht, he⟩ := o.tags_agree (hag.mono fun y hy => o.node_avoids hy)
  refine ⟨_, ⟨⟨o.vars.begin8, o.vars.beginMod, o.vars.start, o.vars.top,
    o.vars.brkMax, o.vars.maxLt⟩, ?_, hL, by omega, o.tilesR, o.modR, he,
    fun b hb => ht b ((hbs b).mp hb).1, hr, hl⟩, hpe, hag⟩
  obtain ⟨l', hl'⟩ := o.pro
  cases l with
  | nil =>
      obtain rfl := (List.cons.inj hl').1
      exact Bool.noConfusion hp
  | cons q l => exact ⟨l, by rw [(List.cons.inj hl').1]⟩

/-- `resv_node` of a free right neighbour. -/
theorem Open.takeRight {n : Blk} (o : Open h l a e (n :: r) fl)
    (hn : n.alloc = false) :
    ∃ fl', Open { h with mem := resvNode h.mem n.addr } l a (e + n.size) r fl' ∧
      n.addr = e ∧
      AgreeOffNodes (IsNode h.beginHeap fl) h.mem (resvNode h.mem n.addr) := by
  obtain ⟨hna, hns, hnm, hR⟩ := o.tilesR
  have hle := o.le
  have hmr := o.modR
  have hnmem : n ∈ l ++ n :: r := by simp
  have hbs : ∀ c, c ∈ l ++ r ↔ c ∈ l ++ n :: r ∧ c ≠ n := by
    intro c
    constructor
    · intro hc
      refine ⟨by simp only [List.mem_append, List.mem_cons] at hc ⊢; tauto, ?_⟩
      rintro rfl
      rcases List.mem_append.mp hc with hc | hc
      · have := (o.tilesL.mem hc).2.1
        omega
      · have := (hR.mem hc).1
        omega
    · rintro ⟨hc, hne⟩
      simp only [List.mem_append, List.mem_cons] at hc ⊢
      tauto
  obtain ⟨hr, hl, hag⟩ := o.unlist hnmem hn hbs
  obtain ⟨ht, he⟩ := o.tags_agree (hag.mono fun y hy => o.node_avoids hy)
  exact ⟨_, ⟨⟨o.vars.begin8, o.vars.beginMod, o.vars.start, o.vars.top,
    o.vars.brkMax, o.vars.maxLt⟩, o.pro, o.tilesL, by omega, hR, by omega, he,
    fun b hb => ht b ((hbs b).mp hb).1, hr, hl⟩, hna, hag⟩

/-! ## Finishing a block -/

/-- The tiling side of a block that is finished at the left end. -/
theorem Open.snoc_tiles (o : Open h l a e r fl) {b : Blk} (hba : b.addr = a)
    (hbs : 16 ≤ b.size) (hbm : b.size % 8 = 0) :
    Tiles h.beginHeap (l ++ [b]) (a + b.size) :=
  tiles_append.mpr ⟨a, o.tilesL, hba, hbs, hbm, rfl⟩

/-- An allocated block with its tags in place leaves the region. -/
theorem Open.giveAlloc (o : Open h l a e r fl) {b : Blk} (hba : b.addr = a)
    (hbs : 16 ≤ b.size) (hbm : b.size % 8 = 0) (hle : a + b.size ≤ e)
    (hbt : b.alloc = true) (ht : TagOk h.mem b) :
    Open h (l ++ [b]) (a + b.size) e r fl := by
  refine ⟨o.vars, ?_, o.snoc_tiles hba hbs hbm, hle, o.tilesR, o.modR, o.epi,
    fun c hc => ?_, o.rings, fun d hd x => ?_⟩
  · obtain ⟨l', rfl⟩ := o.pro
    exact ⟨l' ++ [b], rfl⟩
  · rcases List.mem_append.mp hc with hc | hc
    · rcases List.mem_append.mp hc with hc | hc
      · exact o.tags c (List.mem_append_left _ hc)
      · obtain rfl := List.mem_singleton.mp hc
        exact ht
    · exact o.tags c (List.mem_append_right _ hc)
  · rw [o.listed d hd x]
    constructor
    · rintro ⟨c, hc, hx⟩
      refine ⟨c, ?_, hx⟩
      simp only [List.mem_append] at hc ⊢
      tauto
    · rintro ⟨c, hc, hx, hcf, hcc⟩
      refine ⟨c, ?_, hx, hcf, hcc⟩
      simp only [List.mem_append, List.mem_singleton] at hc ⊢
      rcases hc with (hc | rfl) | hc
      · exact Or.inl hc
      · rw [hbt] at hcf
        exact Bool.noConfusion hcf
      · exact Or.inr hc

/-- A free block with its tags in place leaves the region and is inserted into
the list of its class. -/
theorem Open.giveFree (o : Open h l a e r fl) {b : Blk} (hba : b.addr = a)
    (hbs : 16 ≤ b.size) (hbm : b.size % 8 = 0) (hle : a + b.size ≤ e)
    (hbf : b.alloc = false) (ht : TagOk h.mem b) :
    let m' := freeListInsert h.mem (h.beginHeap + 8 * classIdx b.size) a
    ∃ fl', Open { h with mem := m' } (l ++ [b]) (a + b.size) e r fl' ∧
      AgreeOffNodes (fun y => IsNode h.beginHeap fl y ∨ y = a) h.mem m' := by
  intro m'
  have hc := classIdx_lt b.size
  have hgap := o.gap_avoids (by omega)
  have hnew : ¬ IsNode h.beginHeap fl a := fun hn => by
    have := o.node_region hn
    omega
  obtain ⟨hr, hag⟩ := o.rings.insert
    (N := fun y => IsNode h.beginHeap fl y ∨ y = a) (fun _ hy => Or.inl hy)
    (fun y hy => by
      rcases hy with hy | rfl
      · exact o.node_lt (o.node_avoids hy)
      · exact o.node_lt hgap) hc (Or.inr rfl) hnew
  have hagN : AgreeOffNodes (AvoidsTags (l ++ r) h.endHeap) h.mem m' :=
    hag.mono fun y hy => by
      rcases hy with hy | rfl
      · exact o.node_avoids hy
      · exact hgap
  obtain ⟨hts, he⟩ := o.tags_agree hagN
  have hb8 := o.vars.begin8
  have hbl := o.begin_le
  -- The new block's own tags: every link word is its own, or outside the region.
  have htb : TagOk m' b := by
    obtain ⟨ht1, ht2⟩ := ht
    have hfar : ∀ y, IsNode h.beginHeap fl y ∨ y = a →
        (b.addr - 4 + 4 ≤ y ∨ y + 8 ≤ b.addr - 4) ∧
          (b.addr + b.size - 8 + 4 ≤ y ∨ y + 8 ≤ b.addr + b.size - 8) := by
      intro y hy
      rcases hy with hy | rfl
      · have := o.node_region hy
        omega
      · omega
    rw [← hag.get fun y hy => (hfar y hy).1] at ht1
    rw [← hag.get fun y hy => (hfar y hy).2] at ht2
    exact ⟨ht1, ht2⟩
  refine ⟨_, ⟨⟨o.vars.begin8, o.vars.beginMod, o.vars.start, o.vars.top,
    o.vars.brkMax, o.vars.maxLt⟩, ?_, o.snoc_tiles hba hbs hbm, hle, o.tilesR, o.modR,
    he, fun c hcm => ?_, hr, fun d hd x => ?_⟩, hag⟩
  · obtain ⟨l', rfl⟩ := o.pro
    exact ⟨l' ++ [b], rfl⟩
  · rcases List.mem_append.mp hcm with hcm | hcm
    · rcases List.mem_append.mp hcm with hcm | hcm
      · exact hts c (List.mem_append_left _ hcm)
      · obtain rfl := List.mem_singleton.mp hcm
        exact htb
    · exact hts c (List.mem_append_right _ hcm)
  · by_cases hdc : d = classIdx b.size
    · subst hdc
      rw [Function.update_self, List.mem_cons, o.listed _ hd x]
      constructor
      · rintro (rfl | ⟨c, hcm, hx⟩)
        · exact ⟨b, by simp, hba, hbf, rfl⟩
        · refine ⟨c, ?_, hx⟩
          simp only [List.mem_append] at hcm ⊢
          tauto
      · rintro ⟨c, hcm, hx, hcf, hcc⟩
        simp only [List.mem_append, List.mem_singleton] at hcm
        rcases hcm with (hcm | rfl) | hcm
        · exact Or.inr ⟨c, List.mem_append_left _ hcm, hx, hcf, hcc⟩
        · exact Or.inl (hx.symm.trans hba)
        · exact Or.inr ⟨c, List.mem_append_right _ hcm, hx, hcf, hcc⟩
    · rw [Function.update_of_ne hdc, o.listed d hd x]
      constructor
      · rintro ⟨c, hcm, hx⟩
        refine ⟨c, ?_, hx⟩
        simp only [List.mem_append] at hcm ⊢
        tauto
      · rintro ⟨c, hcm, hx, hcf, hcc⟩
        refine ⟨c, ?_, hx, hcf, hcc⟩
        simp only [List.mem_append, List.mem_singleton] at hcm ⊢
        rcases hcm with (hcm | rfl) | hcm
        · exact Or.inl hcm
        · exact absurd hcc.symm hdc
        · exact Or.inr hcm

end

end Csapp.Malloc
