import Mathlib
import Csapp.Cachelab.TransFill

/-!
# What `trans_64` leaves in `B`

A group is the eight cells of rows `ii + k` and `ii + k + 4` in the columns
from `jj` on. The first pass copies the cells that do not conflict and sets the
others aside, the first one in `tmp1` and every later one in `tmp2`; the second
pass gives the first conflicting cell `tmp1` and all later ones `tmp2`. So a
conflicting cell that is neither the first nor the last of its group gets the
value of the last. `keptFrom` says so, and a run of `trans_64` fills `B` with
exactly that.
-/

namespace Csapp.Cachelab

/-- The cells of a group, in the order both passes visit them. -/
def groupCells (jj ii k : Nat) : List (Nat × Nat) :=
  [(ii + k, jj), (ii + k, jj + 1), (ii + k, jj + 2), (ii + k, jj + 3),
    (ii + k + 4, jj), (ii + k + 4, jj + 1), (ii + k + 4, jj + 2), (ii + k + 4, jj + 3)]

/-- The cells of a group that are set aside. -/
def conflicts (M N A B jj ii k : Nat) : List (Nat × Nat) :=
  (groupCells jj ii k).filter fun c => Conflict M N A B c.1 c.2

/-- Which cell of `A` the value of a cell comes from, when `rest` are the cells
that were set aside after the first. -/
def keptFrom (rest : List (Nat × Nat)) (c : Nat × Nat) : Nat × Nat :=
  if c ∈ rest then rest.getLastD c else c

/-- What `trans_64` stores in `B[j][i]`. -/
def kept (M N A B : Nat) (mem : Nat → Int) (i j : Nat) : Int :=
  let c := keptFrom (conflicts M N A B (4 * (j / 4)) (8 * (i / 8)) (i % 4)).tail (i, j)
  mem (cell A M c.1 c.2)

/-! ## The loops of a group -/

/-- The two loops of `group` around any body. -/
def groupOf {σ : Type} (jj ii k : Nat) (body : Nat → Nat → σ → Option σ) (s : σ) : Option σ := do
  let i ← int (ii + k)
  let iend ← int (ii + 8)
  forLoop i iend 4 (fun i s => do
    let jend ← int (jj + 4)
    forLoop jj jend 1 (body i) s) s

theorem groupOf_eq_foldlM {σ : Type} {jj ii k : Nat} {body : Nat → Nat → σ → Option σ} {s : σ}
    (hj : jj + 4 < 2147483648) (hi : ii + 12 < 2147483648) (hk : k < 4) :
    groupOf jj ii k body s = (groupCells jj ii k).foldlM (fun s c => body c.1 c.2 s) s := by
  have hrow : ∀ i (s : σ), forLoop jj (jj + 4) 1 (body i) s =
      [jj, jj + 1, jj + 2, jj + 3].foldlM (fun s j => body i j s) s := by
    intro i s
    unfold forLoop
    rw [Nat.add_sub_cancel_left, turns_eq_foldlM (by omega)]
    rfl
  unfold groupOf
  rw [int_of_lt (by omega : ii + k < 2147483648), int_of_lt (by omega : ii + 8 < 2147483648),
    int_of_lt hj]
  simp only [Option.bind_eq_bind, Option.bind_some, hrow]
  unfold forLoop
  rw [show (ii + 8 - (ii + k) + (4 - 1)) / 4 = 2 by omega, turns_eq_foldlM (by omega)]
  simp [groupCells, List.range', List.foldlM_cons, Option.bind_assoc]

theorem group_eq_foldlM {jj ii k : Nat} {body : Nat → Nat → Locals → Option Locals} {l : Locals}
    (hj : jj + 4 < 2147483648) (hi : ii + 12 < 2147483648) (hk : k < 4) :
    group jj ii k body l = (groupCells jj ii k).foldlM (fun l c => body c.1 c.2 l) l :=
  groupOf_eq_foldlM hj hi hk

/-! ## The passes -/

variable {M N A B : Nat} {mem : Nat → Int} {V : Nat → Nat → Int} {D : Nat → Nat → Prop}
  {l : Locals} {L : List (Nat × Nat)}

/-- The locals of the first pass after a conflicting cell with value `v`. -/
def asideTmp (t : Bool × Option Int × Option Int) (v : Int) : Bool × Option Int × Option Int :=
  if t.1 then (true, t.2.1, some v) else (true, some v, t.2.2)

/-- The temporaries. -/
def Locals.tmps (l : Locals) : Bool × Option Int × Option Int := (l.tmp1Set, l.tmp1, l.tmp2)

theorem setAside_of_conflict (hc : Call M N A B) (hx : IndexFits M N) {i j : Nat} (hi : i < N)
    (hj : j < M) (hf : Filled M N B mem V D l.st) (h : Conflict M N A B i j) :
    ∃ t, setAside M N A B i j l = some t ∧ t.st = l.st ∧
      t.tmps = asideTmp l.tmps (mem (cell A M i j)) := by
  obtain ⟨hA, hB⟩ := hx.sets (A := A) (B := B) hi hj
  have hs : setIdx i j M A = setIdx j i N B := by simpa [Conflict, hA, hB] using h
  unfold setAside
  rw [hA, hB, ← hf.source hc hi hj]
  simp only [Option.bind_eq_bind, Option.bind_some, hs, ne_eq, not_true_eq_false, if_false]
  cases hset : l.tmp1Set <;> exact ⟨_, rfl, rfl, by simp [Locals.tmps, asideTmp, hset]⟩

theorem setAside_of_not (hx : IndexFits M N) {i j : Nat} (hi : i < N) (hj : j < M)
    (h : ¬Conflict M N A B i j) :
    setAside M N A B i j l = some { l with st := copyCell M N A B i j l.st } := by
  obtain ⟨hA, hB⟩ := hx.sets (A := A) (B := B) hi hj
  have hs : setIdx i j M A ≠ setIdx j i N B := by simpa [Conflict, hA, hB] using h
  unfold setAside
  rw [hA, hB]
  simp [hs]

/-- The first pass over a list of cells. -/
theorem setAside_all (hc : Call M N A B) (hx : IndexFits M N) (hL : ∀ c ∈ L, c.1 < N ∧ c.2 < M)
    (hV : ∀ c ∈ L, ¬Conflict M N A B c.1 c.2 → V c.1 c.2 = mem (cell A M c.1 c.2))
    (hf : Filled M N B mem V D l.st) :
    ∃ t, L.foldlM (fun l c => setAside M N A B c.1 c.2 l) l = some t ∧
      Filled M N B mem V (fun i j => D i j ∨ (i, j) ∈ L ∧ ¬Conflict M N A B i j) t.st ∧
      t.tmps = ((L.filter fun c => Conflict M N A B c.1 c.2).map
        fun c => mem (cell A M c.1 c.2)).foldl asideTmp l.tmps := by
  induction L generalizing l D with
  | nil => exact ⟨l, rfl, hf.mono (by simp), rfl⟩
  | cons c L ih =>
      obtain ⟨hi, hj⟩ := hL c (by simp)
      have hL' : ∀ c ∈ L, c.1 < N ∧ c.2 < M := fun d hd => hL d (by simp [hd])
      have hV' : ∀ c ∈ L, ¬Conflict M N A B c.1 c.2 → V c.1 c.2 = mem (cell A M c.1 c.2) :=
        fun d hd => hV d (by simp [hd])
      by_cases hcf : Conflict M N A B c.1 c.2
      · obtain ⟨t, ht, hst, htmp⟩ := setAside_of_conflict hc hx hi hj hf hcf
        obtain ⟨u, hu, hfu, hutmp⟩ := ih hL' hV' (hst ▸ hf)
        refine ⟨u, ?_, hfu.mono ?_, ?_⟩
        · rw [List.foldlM_cons, ht]
          exact hu
        · intro i j _ _ hd
          rcases hd with hd | ⟨hmem, hn⟩
          · exact .inl hd
          · cases hmem with
            | head => exact absurd hcf hn
            | tail _ hmem => exact .inr ⟨hmem, hn⟩
        · rw [hutmp, htmp, List.filter_cons_of_pos (by simpa using hcf), List.map_cons,
            List.foldl_cons]
      · have hput := hf.copy hc hi hj (hV c (by simp) hcf)
        obtain ⟨u, hu, hfu, hutmp⟩ :=
          ih (l := { l with st := copyCell M N A B c.1 c.2 l.st }) hL' hV' hput
        refine ⟨u, ?_, hfu.mono ?_, ?_⟩
        · rw [List.foldlM_cons, setAside_of_not hx hi hj hcf]
          exact hu
        · intro i j _ _ hd
          rcases hd with hd | ⟨hmem, hn⟩
          · exact .inl (.inl hd)
          · cases hmem with
            | head => exact .inl (.inr ⟨rfl, rfl⟩)
            | tail _ hmem => exact .inr ⟨hmem, hn⟩
        · rw [hutmp, List.filter_cons_of_neg (by simpa using hcf)]
          rfl

theorem putBack_of_not (hx : IndexFits M N) {i j : Nat} (hi : i < N) (hj : j < M)
    (h : ¬Conflict M N A B i j) : putBack M N A B i j l = some l := by
  obtain ⟨hA, hB⟩ := hx.sets (A := A) (B := B) hi hj
  have hs : setIdx i j M A ≠ setIdx j i N B := by simpa [Conflict, hA, hB] using h
  unfold putBack
  rw [hA, hB]
  simp [hs]

theorem putBack_of_conflict (hx : IndexFits M N) {i j : Nat} (hi : i < N) (hj : j < M)
    (h : Conflict M N A B i j) {v : Int} (hv : (if l.tmp1Set then l.tmp1 else l.tmp2) = some v) :
    putBack M N A B i j l =
      some { l with st := l.st.store (cell B N j i) v, tmp1Set := false } := by
  obtain ⟨hA, hB⟩ := hx.sets (A := A) (B := B) hi hj
  have hs : setIdx i j M A = setIdx j i N B := by simpa [Conflict, hA, hB] using h
  obtain ⟨st, tmp1, tmp2, set⟩ := l
  unfold putBack
  rw [hA, hB]
  cases set <;> simp_all

/-- The second pass, once `tmp1` is used up. -/
theorem putBack_rest (hx : IndexFits M N) (hL : ∀ c ∈ L, c.1 < N ∧ c.2 < M)
    (hset : l.tmp1Set = false)
    (hv : ∀ c ∈ L, Conflict M N A B c.1 c.2 → l.tmp2 = some (V c.1 c.2))
    (hf : Filled M N B mem V D l.st) :
    ∃ t, L.foldlM (fun l c => putBack M N A B c.1 c.2 l) l = some t ∧
      Filled M N B mem V (fun i j => D i j ∨ (i, j) ∈ L ∧ Conflict M N A B i j) t.st := by
  induction L generalizing l D with
  | nil => exact ⟨l, rfl, hf.mono (by simp)⟩
  | cons c L ih =>
      obtain ⟨hi, hj⟩ := hL c (by simp)
      have hL' : ∀ c ∈ L, c.1 < N ∧ c.2 < M := fun d hd => hL d (by simp [hd])
      have hv' : ∀ c ∈ L, Conflict M N A B c.1 c.2 → l.tmp2 = some (V c.1 c.2) :=
        fun d hd => hv d (by simp [hd])
      rw [List.foldlM_cons]
      by_cases hcf : Conflict M N A B c.1 c.2
      · rw [putBack_of_conflict hx hi hj hcf (by simpa [hset] using hv c (by simp) hcf)]
        obtain ⟨u, hu, hfu⟩ := ih (l := { l with
          st := l.st.store (cell B N c.2 c.1) (V c.1 c.2), tmp1Set := false }) hL' rfl hv'
          (hf.put hi hj)
        refine ⟨u, hu, hfu.mono ?_⟩
        intro i j _ _ hd
        rcases hd with hd | ⟨hmem, hcf⟩
        · exact .inl (.inl hd)
        · cases hmem with
          | head => exact .inl (.inr ⟨rfl, rfl⟩)
          | tail _ hmem => exact .inr ⟨hmem, hcf⟩
      · rw [putBack_of_not hx hi hj hcf]
        obtain ⟨u, hu, hfu⟩ := ih hL' hset hv' hf
        refine ⟨u, hu, hfu.mono ?_⟩
        intro i j _ _ hd
        rcases hd with hd | ⟨hmem, hn⟩
        · exact .inl hd
        · cases hmem with
          | head => exact absurd hn hcf
          | tail _ hmem => exact .inr ⟨hmem, hn⟩

theorem putBack_all (hx : IndexFits M N) (hL : ∀ c ∈ L, c.1 < N ∧ c.2 < M)
    (hv : ∀ c rest, (L.filter fun c => Conflict M N A B c.1 c.2) = c :: rest →
      (if l.tmp1Set then l.tmp1 else l.tmp2) = some (V c.1 c.2) ∧
        ∀ d ∈ rest, l.tmp2 = some (V d.1 d.2))
    (hf : Filled M N B mem V D l.st) :
    ∃ t, L.foldlM (fun l c => putBack M N A B c.1 c.2 l) l = some t ∧
      Filled M N B mem V (fun i j => D i j ∨ (i, j) ∈ L ∧ Conflict M N A B i j) t.st := by
  induction L with
  | nil => exact ⟨l, rfl, hf.mono (by simp)⟩
  | cons c L ih =>
      obtain ⟨hi, hj⟩ := hL c (by simp)
      have hL' : ∀ c ∈ L, c.1 < N ∧ c.2 < M := fun d hd => hL d (by simp [hd])
      rw [List.foldlM_cons]
      by_cases hcf : Conflict M N A B c.1 c.2
      · obtain ⟨hfirst, hrest⟩ := hv c _ (List.filter_cons_of_pos (by simpa using hcf))
        rw [putBack_of_conflict hx hi hj hcf hfirst]
        have hv' : ∀ d ∈ L, Conflict M N A B d.1 d.2 → l.tmp2 = some (V d.1 d.2) :=
          fun d hd hcd => hrest d (List.mem_filter.mpr ⟨hd, by simpa using hcd⟩)
        obtain ⟨u, hu, hfu⟩ := putBack_rest (l := { l with
          st := l.st.store (cell B N c.2 c.1) (V c.1 c.2), tmp1Set := false }) hx hL' rfl hv'
          (hf.put hi hj)
        refine ⟨u, hu, hfu.mono ?_⟩
        intro i j _ _ hd
        rcases hd with hd | ⟨hmem, hcf⟩
        · exact .inl (.inl hd)
        · cases hmem with
          | head => exact .inl (.inr ⟨rfl, rfl⟩)
          | tail _ hmem => exact .inr ⟨hmem, hcf⟩
      · rw [putBack_of_not hx hi hj hcf]
        obtain ⟨u, hu, hfu⟩ := ih hL' (by
          intro d rest he
          exact hv d rest ((List.filter_cons_of_neg (by simpa using hcf)).trans he))
        refine ⟨u, hu, hfu.mono ?_⟩
        intro i j _ _ hd
        rcases hd with hd | ⟨hmem, hn⟩
        · exact .inl hd
        · cases hmem with
          | head => exact absurd hn hcf
          | tail _ hmem => exact .inr ⟨hmem, hn⟩

/-! ## A group -/

theorem mem_groupCells {jj ii k i j : Nat} :
    (i, j) ∈ groupCells jj ii k ↔ (i = ii + k ∨ i = ii + k + 4) ∧ jj ≤ j ∧ j < jj + 4 := by
  simp only [groupCells, List.mem_cons, Prod.mk.injEq, List.not_mem_nil, or_false]
  omega

theorem groupCells_nodup (jj ii k : Nat) : (groupCells jj ii k).Nodup := by
  simp [groupCells]

theorem foldl_asideTmp (a : Int) (b : Option Int) (vs : List Int) :
    vs.foldl asideTmp (true, some a, b) = (true, some a, vs.getLast?.or b) := by
  induction vs generalizing b with
  | nil => rfl
  | cons v vs ih =>
      rw [List.foldl_cons, show asideTmp (true, some a, b) v = (true, some a, some v) from rfl, ih]
      cases h : vs.getLast? <;> simp [List.getLast?_cons, h]

/-- The cells of a group know their group. -/
theorem kept_eq {jj ii k i j : Nat} (hjj : 4 ∣ jj) (hii : 8 ∣ ii) (hk : k < 4)
    (h : (i, j) ∈ groupCells jj ii k) :
    kept M N A B mem i j =
      mem (cell A M (keptFrom (conflicts M N A B jj ii k).tail (i, j)).1
        (keptFrom (conflicts M N A B jj ii k).tail (i, j)).2) := by
  rw [mem_groupCells] at h
  unfold kept
  rw [show 4 * (j / 4) = jj by omega, show 8 * (i / 8) = ii by omega, show i % 4 = k by omega]

theorem passes_fill (hc : Call M N A B) (hx : IndexFits M N) {jj ii k : Nat} (hjj : 4 ∣ jj)
    (hii : 8 ∣ ii) (hk : k < 4) (hM : jj + 4 ≤ M) (hN : ii + 8 ≤ N)
    (hf : Filled M N B mem (kept M N A B mem) D l.st) :
    ∃ t, passes M N A B jj ii k l = some t ∧
      Filled M N B mem (kept M N A B mem)
        (fun i j => D i j ∨ (i, j) ∈ groupCells jj ii k) t.st := by
  have hrows := hc.rows
  have hcols := hc.cols
  have hL : ∀ c ∈ groupCells jj ii k, c.1 < N ∧ c.2 < M := by
    intro c hmem
    have := mem_groupCells.mp hmem
    omega
  have hV : ∀ c ∈ groupCells jj ii k, ¬Conflict M N A B c.1 c.2 →
      kept M N A B mem c.1 c.2 = mem (cell A M c.1 c.2) := by
    intro c hmem hn
    have hnot : c ∉ (conflicts M N A B jj ii k).tail := by
      intro ht
      exact hn (by simpa using (List.mem_filter.mp (List.mem_of_mem_tail ht)).2)
    rw [kept_eq hjj hii hk hmem, keptFrom, if_neg hnot]
  obtain ⟨t, ht, hft, htmp⟩ := setAside_all (l := { l with tmp1Set := false }) hc hx hL hV hf
  have hv : ∀ c rest, ((groupCells jj ii k).filter fun c => Conflict M N A B c.1 c.2) = c :: rest →
      (if t.tmp1Set then t.tmp1 else t.tmp2) = some (kept M N A B mem c.1 c.2) ∧
        ∀ d ∈ rest, t.tmp2 = some (kept M N A B mem d.1 d.2) := by
    intro c rest he
    have hcs : conflicts M N A B jj ii k = c :: rest := he
    have hmem : ∀ d ∈ c :: rest, d ∈ groupCells jj ii k := by
      intro d hd
      rw [← he] at hd
      exact (List.mem_filter.mp hd).1
    have hnodup : (c :: rest).Nodup := he ▸ (groupCells_nodup jj ii k).filter _
    have hset : t.tmps = (true, some (mem (cell A M c.1 c.2)),
        (rest.map fun c => mem (cell A M c.1 c.2)).getLast?.or l.tmp2) := by
      rw [htmp, he, List.map_cons, List.foldl_cons]
      exact foldl_asideTmp _ _ _
    obtain ⟨h1, h2, h3⟩ : t.tmp1Set = true ∧ t.tmp1 = some (mem (cell A M c.1 c.2)) ∧
        t.tmp2 = (rest.map fun c => mem (cell A M c.1 c.2)).getLast?.or l.tmp2 := by
      simpa [Locals.tmps] using hset
    constructor
    · rw [h1, if_pos rfl, h2, kept_eq hjj hii hk (hmem c (by simp)), hcs, List.tail_cons, keptFrom,
        if_neg (List.nodup_cons.mp hnodup).1]
    · intro d hd
      rw [h3, kept_eq hjj hii hk (hmem d (by simp [hd])), hcs, List.tail_cons, keptFrom, if_pos hd,
        List.getLast?_map, List.getLastD_eq_getLast?]
      cases hlast : rest.getLast? with
      | none => simp [List.getLast?_eq_none_iff.mp hlast] at hd
      | some e => rfl
  obtain ⟨u, hu, hfu⟩ := putBack_all hx hL hv hft
  refine ⟨u, ?_, hfu.mono ?_⟩
  · unfold passes
    rw [group_eq_foldlM (by omega) (by omega) hk, ht, Option.bind_eq_bind, Option.bind_some,
      group_eq_foldlM (by omega) (by omega) hk]
    exact hu
  · intro i j _ _ hd
    by_cases hcf : Conflict M N A B i j
    · exact hd.imp .inl fun hmem => ⟨hmem, hcf⟩
    · exact .inl (hd.imp id fun hmem => ⟨hmem, hcf⟩)

/-- `trans_64` fills `B`, with the values its two temporaries keep. -/
theorem trans64_fills (hc : Call M N A B) (hx : IndexFits M N) (hM : 4 ∣ M) (hN : 8 ∣ N) :
    ∃ t, trans64 M N A B ⟨mem, []⟩ = some t ∧
      Filled M N B mem (kept M N A B mem) (fun i j => i < N ∧ j < M) t := by
  have hblock : ∀ jj ii (l : Locals), 4 ∣ jj → 8 ∣ ii → jj + 4 ≤ M → ii + 8 ≤ N →
      Filled M N B mem (kept M N A B mem) (Rows N 4 jj ii) l.st →
      ∃ t, block64 M N A B jj ii l = some t ∧
        Filled M N B mem (kept M N A B mem) (Rows N 4 jj (ii + 8)) t.st := by
    intro jj ii l hdj hdi hjj hii hf
    let I := fun k (l : Locals) => Filled M N B mem (kept M N A B mem)
      (fun i j => Rows N 4 jj ii i j ∨ j < jj + 4 ∧ jj ≤ j ∧ ii ≤ i ∧ i < ii + 8 ∧ i % 4 < k) l.st
    have hbody : ∀ k l, 0 ≤ k → k + 1 ≤ 4 → 1 ∣ k - 0 → I k l →
        ∃ t, passes M N A B jj ii k l = some t ∧ I (k + 1) t := by
      intro k l _ hk _ hf
      obtain ⟨t, ht, hft⟩ := passes_fill hc hx hdj hdi (by omega : k < 4) hjj hii hf
      refine ⟨t, ht, hft.mono ?_⟩
      intro i j _ _ hd
      rw [mem_groupCells]
      cases hd with
      | inl hd => exact .inl (.inl hd)
      | inr hd =>
          by_cases hik : i % 4 = k
          · exact .inr (by omega)
          · exact .inl (.inr (by omega))
    have hstart : I 0 l := by
      refine hf.mono ?_
      intro i j _ _ hd
      exact hd.resolve_right fun hd => Nat.not_lt_zero _ hd.2.2.2.2
    obtain ⟨t, ht, hft⟩ := forLoop_exact Nat.one_pos hstart (one_dvd _) (by omega) (by omega) hbody
    refine ⟨t, ht, hft.mono ?_⟩
    intro i j _ _ hd
    unfold Rows at hd ⊢
    omega
  obtain ⟨t, ht, hft⟩ := forLoop_blocks (s := ⟨⟨mem, []⟩, none, none, false⟩)
    (P := fun D (l : Locals) => Filled M N B mem (kept M N A B mem) D l.st)
    (by decide) (by decide) hM hN hc.cols.2 hc.rows.2 (fun hf hD => hf.mono fun i j _ _ => hD i j)
    hblock Filled.nothing
  refine ⟨t.st, ?_, hft⟩
  unfold trans64
  rw [ht]
  rfl

end Csapp.Cachelab
