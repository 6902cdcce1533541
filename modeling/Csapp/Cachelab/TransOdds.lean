import Mathlib
import Csapp.Cachelab.TransFill

/-!
# The loops of `trans_odds`

The four loops do the same with every cell they come to, so they are taken with
an arbitrary body first. The block counters start at the multiples of the block
size up to the last one that is not above the dimension, and the inner tests
cut the last block off; so every cell lies in one block and is visited there.
-/

namespace Csapp.Cachelab

section

variable {σ : Type} (M N bsize : Nat) (visit : Nat → Nat → σ → σ)

/-- The inner loop of `trans_odds` around any body. -/
def nestRow (jj i : Nat) (s : σ) : Option σ := do
  let jend ← int (jj + bsize)
  forLoop jj (min jend M) 1 (fun j s => some (visit i j s)) s

/-- A turn of the loop over `ii`. -/
def nestBlock (jj ii : Nat) (s : σ) : Option σ := do
  let iend ← int (ii + bsize)
  forLoop ii (min iend N) 1 (nestRow M bsize visit jj) s

/-- All four loops. -/
def nestOdds (s : σ) : Option σ := do
  let en ← int (bsize * (N / bsize + 1))
  let em ← int (bsize * (M / bsize + 1))
  forLoop 0 em bsize (fun jj => forLoop 0 en bsize (nestBlock M N bsize visit jj)) s

end

theorem transOdds_eq_nest (M N A B bsize : Nat) (s : St) :
    transOdds M N A B bsize s = nestOdds M N bsize (copyCell M N A B) s := rfl

/-! ## The cells -/

/-- The columns of a row that lie in the block at `jj`. -/
def blockRow (M bsize jj i : Nat) : List (Nat × Nat) :=
  (List.range' jj (min (jj + bsize) M - jj)).map fun j => (i, j)

/-- The cells of the block at `ii` and `jj`. -/
def blockCells (M N bsize jj ii : Nat) : List (Nat × Nat) :=
  (List.range' ii (min (ii + bsize) N - ii)).flatMap (blockRow M bsize jj)

/-- The cells of the blocks at `jj`. -/
def columnCells (M N bsize jj : Nat) : List (Nat × Nat) :=
  (List.range' 0 (N / bsize + 1) bsize).flatMap (blockCells M N bsize jj)

/-- All cells, in the order in which they are visited. -/
def oddCells (M N bsize : Nat) : List (Nat × Nat) :=
  (List.range' 0 (M / bsize + 1) bsize).flatMap (columnCells M N bsize)

section

variable {M N A B bsize jj ii i j : Nat}

theorem mem_blockRow {c : Nat × Nat} :
    c ∈ blockRow M bsize jj i ↔ c.1 = i ∧ jj ≤ c.2 ∧ c.2 < jj + bsize ∧ c.2 < M := by
  obtain ⟨a, b⟩ := c
  simp only [blockRow, List.mem_map, List.mem_range'_1, Prod.mk.injEq]
  constructor
  · rintro ⟨j, hj, rfl, rfl⟩
    omega
  · rintro ⟨rfl, h⟩
    exact ⟨b, by omega, rfl, rfl⟩

theorem mem_blockCells {c : Nat × Nat} :
    c ∈ blockCells M N bsize jj ii ↔
      (ii ≤ c.1 ∧ c.1 < ii + bsize ∧ c.1 < N) ∧ jj ≤ c.2 ∧ c.2 < jj + bsize ∧ c.2 < M := by
  simp only [blockCells, List.mem_flatMap, List.mem_range'_1, mem_blockRow]
  constructor
  · rintro ⟨i, hi, rfl, h⟩
    omega
  · intro h
    exact ⟨c.1, by omega, rfl, h.2⟩

/-- The multiple of the block size that a subscript below the dimension belongs to. -/
theorem block_unique (hb : 0 < bsize) {n x y : Nat} (hy : y < n) :
    (x ∈ List.range' 0 (n / bsize + 1) bsize ∧ x ≤ y ∧ y < x + bsize) ↔
      x = bsize * (y / bsize) := by
  have hdiv := Nat.div_add_mod y bsize
  have hmod := Nat.mod_lt y hb
  rw [List.mem_range']
  constructor
  · rintro ⟨⟨k, -, rfl⟩, hle, hlt⟩
    rw [Nat.zero_add] at hle hlt ⊢
    rw [Nat.div_eq_of_lt_le (by rw [Nat.mul_comm]; exact hle)
      (by rw [Nat.mul_comm, Nat.mul_succ]; exact hlt)]
  · rintro rfl
    have hle : y / bsize ≤ n / bsize := Nat.div_le_div_right hy.le
    exact ⟨⟨y / bsize, by omega, by omega⟩, by omega, by omega⟩

theorem mem_columnCells (hb : 0 < bsize) {c : Nat × Nat} :
    c ∈ columnCells M N bsize jj ↔ c.1 < N ∧ jj ≤ c.2 ∧ c.2 < jj + bsize ∧ c.2 < M := by
  simp only [columnCells, List.mem_flatMap, mem_blockCells]
  constructor
  · rintro ⟨ii, -, h⟩
    exact ⟨h.1.2.2, h.2⟩
  · intro h
    obtain ⟨hm, hle, hlt⟩ := (block_unique hb h.1).mpr rfl
    exact ⟨_, hm, ⟨hle, hlt, h.1⟩, h.2⟩

/-- The blocks cover the rectangle and nothing else. -/
theorem mem_oddCells (hb : 0 < bsize) {c : Nat × Nat} :
    c ∈ oddCells M N bsize ↔ c.1 < N ∧ c.2 < M := by
  simp only [oddCells, List.mem_flatMap, mem_columnCells hb]
  constructor
  · rintro ⟨jj, -, h⟩
    exact ⟨h.1, h.2.2.2⟩
  · intro h
    obtain ⟨hm, hle, hlt⟩ := (block_unique hb h.2).mpr rfl
    exact ⟨_, hm, h.1, hle, hlt, h.2⟩

/-- Lists that each have a key of their own have no element in common. -/
theorem nodup_flatMap_key {α β : Type _} {l : List α} {f : α → List β} (g : β → α) (hl : l.Nodup)
    (hf : ∀ x ∈ l, (f x).Nodup) (hkey : ∀ x ∈ l, ∀ c ∈ f x, g c = x) : (l.flatMap f).Nodup := by
  refine List.nodup_flatMap.mpr ⟨hf, List.Pairwise.imp_of_mem ?_ hl⟩
  intro x y hx hy hne c hc hc'
  exact hne ((hkey x hx c hc).symm.trans (hkey y hy c hc'))

theorem blockCells_nodup : (blockCells M N bsize jj ii).Nodup := by
  refine nodup_flatMap_key Prod.fst (List.nodup_range' 1) (fun i _ => ?_) fun i _ c hc =>
    (mem_blockRow.mp hc).1
  exact (List.nodup_range' 1).map fun a b h => (Prod.mk.inj h).2

theorem columnCells_nodup (hb : 0 < bsize) : (columnCells M N bsize jj).Nodup := by
  refine nodup_flatMap_key (fun c => bsize * (c.1 / bsize)) (List.nodup_range' bsize hb)
    (fun ii _ => blockCells_nodup) fun ii hii c hc => ?_
  obtain ⟨hle, hlt, hN⟩ := (mem_blockCells.mp hc).1
  exact ((block_unique hb hN).mp ⟨hii, hle, hlt⟩).symm

/-- No cell is visited twice: it lies in one block only. -/
theorem oddCells_nodup (hb : 0 < bsize) : (oddCells M N bsize).Nodup := by
  refine nodup_flatMap_key (fun c => bsize * (c.2 / bsize)) (List.nodup_range' bsize hb)
    (fun jj _ => columnCells_nodup hb) fun jj hjj c hc => ?_
  obtain ⟨-, hle, hlt, hM⟩ := (mem_columnCells hb).mp hc
  exact ((block_unique hb hM).mp ⟨hjj, hle, hlt⟩).symm

/-! ## The runs -/

/-- The rounded-up bound of a block counter is in range, and the counter stays below. -/
theorem rounded {n : Nat} (hn : n + bsize < 2147483648) :
    bsize * (n / bsize + 1) < 2147483648 ∧
      ∀ x ∈ List.range' 0 (n / bsize + 1) bsize, x ≤ n := by
  have hdiv : bsize * (n / bsize) ≤ n := Nat.mul_div_le n bsize
  refine ⟨by rw [Nat.mul_succ]; omega, fun x hx => ?_⟩
  obtain ⟨k, hk, rfl⟩ := List.mem_range'.mp hx
  have hle : bsize * k ≤ bsize * (n / bsize) := Nat.mul_le_mul_left bsize (by omega)
  omega

variable {σ : Type} {visit : Nat → Nat → σ → σ}

/-- The body at every cell of a list. -/
def visitAll (visit : Nat → Nat → σ → σ) (cells : List (Nat × Nat)) (s : σ) : σ :=
  cells.foldl (fun s c => visit c.1 c.2 s) s

theorem visitAll_flatMap {α : Type _} (f : α → List (Nat × Nat)) (l : List α) (s : σ) :
    visitAll visit (l.flatMap f) s = l.foldl (fun s x => visitAll visit (f x) s) s :=
  List.foldl_flatMap

theorem nestRow_eq (hjj : jj ≤ M) (hM : M + bsize < 2147483648) (i : Nat) (s : σ) :
    nestRow M bsize visit jj i s = some (visitAll visit (blockRow M bsize jj i) s) := by
  rw [nestRow, int_of_lt (by omega)]
  refine (forLoop_eq_foldl (n := min (jj + bsize) M - jj) (f := visit i) Nat.one_pos (by omega)
    (by omega) fun _ _ _ => rfl).trans ?_
  rw [visitAll, blockRow, List.foldl_map]

theorem nestBlock_eq (hjj : jj ≤ M) (hii : ii ≤ N) (hM : M + bsize < 2147483648)
    (hN : N + bsize < 2147483648) (s : σ) :
    nestBlock M N bsize visit jj ii s = some (visitAll visit (blockCells M N bsize jj ii) s) := by
  rw [nestBlock, int_of_lt (by omega)]
  refine (forLoop_eq_foldl (n := min (ii + bsize) N - ii)
    (f := fun i => visitAll visit (blockRow M bsize jj i)) Nat.one_pos (by omega) (by omega)
    fun i _ => nestRow_eq hjj hM i).trans ?_
  rw [blockCells, visitAll_flatMap]

/-- The loops come out, and what they did is the body at every cell. -/
theorem nestOdds_eq (hb : 0 < bsize) (hM : M + bsize < 2147483648) (hN : N + bsize < 2147483648)
    (visit : Nat → Nat → σ → σ) (s : σ) :
    nestOdds M N bsize visit s = some (visitAll visit (oddCells M N bsize) s) := by
  obtain ⟨hem, hjM⟩ := rounded hM
  obtain ⟨hen, hiN⟩ := rounded hN
  have hcolumn : ∀ jj ≤ M, ∀ s, forLoop 0 (bsize * (N / bsize + 1)) bsize
      (nestBlock M N bsize visit jj) s = some (visitAll visit (columnCells M N bsize jj) s) := by
    intro jj hjj s
    refine (forLoop_eq_foldl (n := N / bsize + 1)
      (f := fun ii => visitAll visit (blockCells M N bsize jj ii)) hb (by omega) hen
      fun ii hii => nestBlock_eq hjj (hiN ii hii) hM hN).trans ?_
    rw [columnCells, visitAll_flatMap]
  rw [nestOdds, int_of_lt hen, int_of_lt hem]
  refine (forLoop_eq_foldl (n := M / bsize + 1)
    (f := fun jj => visitAll visit (columnCells M N bsize jj)) hb (by omega) hem
    fun jj hjj => hcolumn jj (hjM jj hjj)).trans ?_
  rw [oddCells, visitAll_flatMap]

/-! ## The transpose -/

/-- Copying cells of the matrices changes nothing outside `B`, stores each of them once,
and leaves the transpose in `B`. -/
theorem visitAll_copyCell (hd : A + 4 * (N * M) ≤ B ∨ B + 4 * (M * N) ≤ A)
    {cells : List (Nat × Nat)} (hin : ∀ c ∈ cells, c.1 < N ∧ c.2 < M) (s : St) :
    (visitAll (copyCell M N A B) cells s).stores =
        (cells.map fun c => cell B N c.2 c.1).reverse ++ s.stores ∧
      (∀ p, ¬InB M N B p → (visitAll (copyCell M N A B) cells s).mem p = s.mem p) ∧
      ∀ i j, (i, j) ∈ cells →
        (visitAll (copyCell M N A B) cells s).mem (cell B N j i) = s.mem (cell A M i j) := by
  induction cells using List.reverseRecOn with
  | nil => exact ⟨rfl, fun _ _ => rfl, fun i j h => absurd h List.not_mem_nil⟩
  | append_singleton l c ih =>
    obtain ⟨hst, hout, hval⟩ := ih fun d hd => hin d (List.mem_append_left _ hd)
    obtain ⟨hi, hj⟩ := hin c (by simp)
    have hrun : visitAll (copyCell M N A B) (l ++ [c]) s =
        copyCell M N A B c.1 c.2 (visitAll (copyCell M N A B) l s) := by
      rw [visitAll, List.foldl_append]
      rfl
    rw [hrun, copyCell]
    refine ⟨?_, ?_, ?_⟩
    · rw [List.map_append, List.reverse_append, St.store, hst]
      rfl
    · intro p hp
      have hne : p ≠ cell B N c.2 c.1 := fun he => hp (he ▸ inB_cell hi hj)
      rw [store_mem_ne _ hne]
      exact hout p hp
    · intro i j hmem
      by_cases he : cell B N j i = cell B N c.2 c.1
      · obtain ⟨rfl, rfl⟩ := cell_inj (hin _ hmem).1 hi he
        rw [store_mem_self]
        exact hout _ (not_inB_of_apart hd hi hj)
      · rw [store_mem_ne _ he]
        refine hval i j ((List.mem_append.mp hmem).resolve_right fun hc => ?_)
        rw [List.mem_singleton] at hc
        exact he (by rw [← hc])

/-- `trans_odds` transposes every matrix whose dimensions it can round up. -/
theorem transOdds_fills {mem : Nat → Int} (hc : Call M N A B)
    (hN : 8 * (N / 8 + 1) < 2147483648) (hM : 8 * (M / 8 + 1) < 2147483648) :
    ∃ t, transOdds M N A B 8 ⟨mem, []⟩ = some t ∧ Copied M N A B mem (fun _ _ => True) t := by
  have hmem : ∀ c, c ∈ oddCells M N 8 ↔ c.1 < N ∧ c.2 < M := fun c => mem_oddCells (Nat.succ_pos 7)
  have hrun := nestOdds_eq (M := M) (N := N) (Nat.succ_pos 7) (by omega) (by omega)
    (copyCell M N A B) ⟨mem, []⟩
  obtain ⟨hst, hout, hval⟩ := visitAll_copyCell hc.apart (fun c => (hmem c).mp) ⟨mem, []⟩
  refine ⟨_, (transOdds_eq_nest M N A B 8 _).trans hrun, hout, fun p hp => ?_, ?_⟩
  · rw [hst, List.append_nil, List.mem_reverse, List.mem_map] at hp
    obtain ⟨c, hc, rfl⟩ := hp
    obtain ⟨hi, hj⟩ := (hmem c).mp hc
    exact inB_cell hi hj
  · intro i j hi hj _
    exact hval i j ((hmem (i, j)).mpr ⟨hi, hj⟩)

end

/-- `trans_odds` comes to every cell once and to no other index, whatever its body does
there; with its own body it leaves the transpose in `B`. -/
theorem transOdds_every_shape {M N A B bsize : Nat} (hb : 1 ≤ bsize)
    (hMb : M + bsize < 2147483648) (hNb : N + bsize < 2147483648)
    (hd : A + 4 * (N * M) ≤ B ∨ B + 4 * (M * N) ≤ A) (s : St) :
    ((oddCells M N bsize).Nodup ∧ ∀ i j, (i, j) ∈ oddCells M N bsize ↔ i < N ∧ j < M) ∧
      (∀ (σ : Type) (visit : Nat → Nat → σ → σ) (x : σ),
        nestOdds M N bsize visit x = some (visitAll visit (oddCells M N bsize) x)) ∧
      ∃ t, transOdds M N A B bsize s = some t ∧
        t.stores = ((oddCells M N bsize).map fun c => cell B N c.2 c.1).reverse ++ s.stores ∧
        (∀ i < N, ∀ j < M, t.mem (cell B N j i) = s.mem (cell A M i j)) ∧
        ∀ p, ¬InB M N B p → t.mem p = s.mem p := by
  have hmem : ∀ c, c ∈ oddCells M N bsize ↔ c.1 < N ∧ c.2 < M := fun c => mem_oddCells hb
  obtain ⟨hst, hout, hval⟩ := visitAll_copyCell hd (fun c => (hmem c).mp) s
  refine ⟨⟨oddCells_nodup hb, fun i j => hmem (i, j)⟩, fun σ => nestOdds_eq hb hMb hNb, _,
    nestOdds_eq hb hMb hNb _ s, hst, fun i hi j hj => hval i j ((hmem (i, j)).mpr ⟨hi, hj⟩), hout⟩

/-- A shape that is no multiple of its block size in either direction. -/
theorem transOdds_every_shape_three :
    ∃ t, transOdds 3 5 0 100 2 ⟨fun p => (p : Int), []⟩ = some t ∧
      ∀ i < 5, ∀ j < 3, t.mem (cell 100 5 j i) = (cell 0 3 i j : Int) := by
  obtain ⟨-, -, t, ht, -, hval, -⟩ := @transOdds_every_shape 3 5 0 100 2 (by decide) (by decide)
    (by decide) (by decide) ⟨fun p => (p : Int), []⟩
  exact ⟨t, ht, hval⟩

end Csapp.Cachelab
