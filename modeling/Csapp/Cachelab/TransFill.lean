import Mathlib
import Csapp.Cachelab.Trans

/-!
# Filling `B` cell by cell

What every run of the transpose functions keeps, as long as it stays inside
the matrices: the ints outside `B` are what they were, and the cells of `B`
that are done hold their value. Which cells are done is a predicate on the
subscripts of `A`, so the four nested loops only differ in the predicate they
grow; what a done cell holds is a function of the subscripts, because
`trans_64` does not always fill in `A[i][j]`.
-/

namespace Csapp.Cachelab

/-! ## Cells -/

theorem index_lt {m n i j : Nat} (hi : i < n) (hj : j < m) : i * m + j < n * m := by
  calc i * m + j < i * m + m := Nat.add_lt_add_left hj _
    _ = (i + 1) * m := (Nat.succ_mul i m).symm
    _ ≤ n * m := Nat.mul_le_mul_right m hi

theorem index_inj {m i j i' j' : Nat} (hj : j < m) (hj' : j' < m)
    (h : i * m + j = i' * m + j') : i = i' ∧ j = j' := by
  have hm : 0 < m := by omega
  have hmod : (i * m + j) % m = (i' * m + j') % m := congrArg (· % m) h
  rw [Nat.mul_add_mod_self_right, Nat.mul_add_mod_self_right, Nat.mod_eq_of_lt hj,
    Nat.mod_eq_of_lt hj'] at hmod
  have hdiv : (i * m + j) / m = (i' * m + j') / m := congrArg (· / m) h
  rw [Nat.mul_comm i, Nat.mul_comm i', Nat.mul_add_div hm, Nat.mul_add_div hm,
    Nat.div_eq_of_lt hj, Nat.div_eq_of_lt hj'] at hdiv
  exact ⟨hdiv, hmod⟩

variable {M N A B : Nat}

theorem inB_cell {i j : Nat} (hi : i < N) (hj : j < M) : InB M N B (cell B N j i) := by
  have := index_lt hj hi
  unfold InB cell
  omega

/-- The cells of `A` are not in `B`. -/
theorem not_inB_of_apart (h : A + 4 * (N * M) ≤ B ∨ B + 4 * (M * N) ≤ A) {i j : Nat} (hi : i < N)
    (hj : j < M) : ¬InB M N B (cell A M i j) := by
  have := index_lt hi hj
  unfold InB cell
  omega

theorem Call.not_inB (h : Call M N A B) {i j : Nat} (hi : i < N) (hj : j < M) :
    ¬InB M N B (cell A M i j) :=
  not_inB_of_apart h.apart hi hj

theorem cell_inj {i j i' j' : Nat} (hi : i < N) (hi' : i' < N)
    (h : cell B N j i = cell B N j' i') : i = i' ∧ j = j' := by
  unfold cell at h
  obtain ⟨hj, hi⟩ := index_inj hi hi' (by omega : j * N + i = j' * N + i')
  exact ⟨hi, hj⟩

@[simp] theorem store_mem_self (s : St) (p : Nat) (v : Int) : (s.store p v).mem p = v :=
  if_pos rfl

theorem store_mem_ne {s : St} {p q : Nat} (v : Int) (h : q ≠ p) :
    (s.store p v).mem q = s.mem q :=
  if_neg h

/-! ## The invariant -/

/-- The cells `D` of `B` hold `V`, and nothing outside `B` was touched. -/
structure Filled (M N B : Nat) (mem : Nat → Int) (V : Nat → Nat → Int) (D : Nat → Nat → Prop)
    (s : St) : Prop where
  outside : ∀ p, ¬InB M N B p → s.mem p = mem p
  inside : ∀ p ∈ s.stores, InB M N B p
  vals : ∀ i j, i < N → j < M → D i j → s.mem (cell B N j i) = V i j

variable {mem : Nat → Int} {V : Nat → Nat → Int} {D D' : Nat → Nat → Prop} {s : St}

theorem Filled.nothing : Filled M N B mem V (fun _ _ => False) ⟨mem, []⟩ where
  outside _ _ := rfl
  inside _ hp := absurd hp List.not_mem_nil
  vals _ _ _ _ h := h.elim

theorem Filled.mono (h : Filled M N B mem V D s)
    (hD : ∀ i j, i < N → j < M → D' i j → D i j) : Filled M N B mem V D' s :=
  { h with vals := fun i j hi hj hd => h.vals i j hi hj (hD i j hi hj hd) }

theorem Filled.source (h : Filled M N B mem V D s) (hc : Call M N A B) {i j : Nat} (hi : i < N)
    (hj : j < M) : s.mem (cell A M i j) = mem (cell A M i j) :=
  h.outside _ (hc.not_inB hi hj)

theorem Filled.put (h : Filled M N B mem V D s) {i j : Nat} (hi : i < N) (hj : j < M) :
    Filled M N B mem V (fun a b => D a b ∨ a = i ∧ b = j)
      (s.store (cell B N j i) (V i j)) where
  outside p hp := by
    have hne : p ≠ cell B N j i := fun he => hp (he ▸ inB_cell hi hj)
    exact (store_mem_ne _ hne).trans (h.outside p hp)
  inside p hp := by
    cases hp with
    | head => exact inB_cell hi hj
    | tail _ hp => exact h.inside p hp
  vals a b ha hb hd := by
    by_cases he : cell B N b a = cell B N j i
    · obtain ⟨rfl, rfl⟩ := cell_inj ha hi he
      exact store_mem_self _ _ _
    · rw [store_mem_ne _ he]
      refine h.vals a b ha hb (hd.resolve_right ?_)
      intro ⟨hai, hbj⟩
      exact he (by rw [hai, hbj])

theorem Filled.copy (h : Filled M N B mem V D s) (hc : Call M N A B) {i j : Nat} (hi : i < N)
    (hj : j < M) (hV : V i j = mem (cell A M i j)) :
    Filled M N B mem V (fun a b => D a b ∨ a = i ∧ b = j) (copyCell M N A B i j s) := by
  unfold copyCell
  rw [h.source hc hi hj, ← hV]
  exact h.put hi hj

/-! ## Blocks -/

/-- The columns up to `jj`, and `x` rows of the `w` columns behind them. -/
def Rows (n w jj x : Nat) (i j : Nat) : Prop := j < jj ∧ i < n ∨ j < jj + w ∧ i < x

/-- The two outer loops of `trans_32` and `trans_64`. What is kept may speak of more
than the cells that are done, but only more of them can make it harder. -/
theorem forLoop_blocks {σ : Type _} {P : (Nat → Nat → Prop) → σ → Prop} {n m w h : Nat}
    {block : Nat → Nat → σ → Option σ} {s : σ} (hw : 0 < w) (hh : 0 < h) (hdw : w ∣ m)
    (hdh : h ∣ n) (hm : m < 2147483648) (hn : n < 2147483648)
    (hmono : ∀ {D D' : Nat → Nat → Prop} {s : σ}, P D s → (∀ i j, D' i j → D i j) → P D' s)
    (hblock : ∀ jj ii s, w ∣ jj → h ∣ ii → jj + w ≤ m → ii + h ≤ n → P (Rows n w jj ii) s →
      ∃ t, block jj ii s = some t ∧ P (Rows n w jj (ii + h)) t)
    (hs : P (fun _ _ => False) s) :
    ∃ t, forLoop 0 m w (fun jj => forLoop 0 n h (block jj)) s = some t ∧
      P (fun i j => i < n ∧ j < m) t := by
  have hcolumn : ∀ jj s, 0 ≤ jj → jj + w ≤ m → w ∣ jj - 0 → P (Rows n w jj 0) s →
      ∃ t, forLoop 0 n h (block jj) s = some t ∧ P (Rows n w (jj + w) 0) t := by
    intro jj s _ hjj hdj hP
    have hrow : ∀ ii s, 0 ≤ ii → ii + h ≤ n → h ∣ ii - 0 → P (Rows n w jj ii) s →
        ∃ t, block jj ii s = some t ∧ P (Rows n w jj (ii + h)) t :=
      fun ii s _ hii hdi hP => hblock jj ii s hdj hdi hjj hii hP
    obtain ⟨t, ht, hP⟩ := forLoop_exact hh hP hdh (Nat.zero_le n) hn hrow
    refine ⟨t, ht, hmono hP ?_⟩
    intro i j hd
    unfold Rows at hd ⊢
    omega
  obtain ⟨t, ht, hP⟩ := forLoop_exact hw (hmono hs (by unfold Rows; omega)) hdw (Nat.zero_le m) hm
    hcolumn
  refine ⟨t, ht, hmono hP ?_⟩
  intro i j hd
  unfold Rows
  omega

/-- What the code is to leave in `B`. -/
abbrev Copied (M N A B : Nat) (mem : Nat → Int) (D : Nat → Nat → Prop) (s : St) : Prop :=
  Filled M N B mem (fun i j => mem (cell A M i j)) D s

/-! ## `trans_32` -/

/-- No subscript `i * m` of `get_set_idx` overflows. -/
def IndexFits (M N : Nat) : Prop :=
  (N - 1) * M < 2147483648 ∧ (M - 1) * N < 2147483648

/-- `get_set_idx`, where its subscript does not overflow. -/
def setIdx (i j m arr : Nat) : Nat :=
  let addr := arr + 4 * (i * m) + 4 * j
  (addr - (addr >>> 10) <<< 10) >>> 5

theorem getSetIdx_of_lt {i j m arr : Nat} (h : i * m < 2147483648) :
    getSetIdx i j m arr = some (setIdx i j m arr) := by
  unfold getSetIdx
  rw [int_of_lt h]
  rfl

theorem IndexFits.sets (h : IndexFits M N) {i j : Nat} (hi : i < N) (hj : j < M) :
    getSetIdx i j M A = some (setIdx i j M A) ∧ getSetIdx j i N B = some (setIdx j i N B) := by
  have h1 : i * M ≤ (N - 1) * M := Nat.mul_le_mul_right M (by omega)
  have h2 : j * N ≤ (M - 1) * N := Nat.mul_le_mul_right N (by omega)
  exact ⟨getSetIdx_of_lt (Nat.lt_of_le_of_lt h1 h.1), getSetIdx_of_lt (Nat.lt_of_le_of_lt h2 h.2)⟩

theorem copyWhen_of_fits (h : IndexFits M N) {i j : Nat} (hi : i < N) (hj : j < M) (same : Bool)
    (s : St) : copyWhen M N A B same i j s =
      some (if decide (Conflict M N A B i j) = same then copyCell M N A B i j s else s) := by
  obtain ⟨hA, hB⟩ := h.sets (A := A) (B := B) hi hj
  simp [copyWhen, Conflict, hA, hB]

theorem pass32 (hc : Call M N A B) (hx : IndexFits M N) {jj i : Nat} (hjj : jj + 8 ≤ M)
    (hi : i < N) (same : Bool) (h : Copied M N A B mem D s) :
    ∃ t, forLoop jj (jj + 8) 1 (copyWhen M N A B same i) s = some t ∧
      Copied M N A B mem (fun a b => D a b ∨
        a = i ∧ jj ≤ b ∧ b < jj + 8 ∧ decide (Conflict M N A B i b) = same) t := by
  have hcols := hc.cols
  let I := fun y => Copied M N A B mem (fun a b => D a b ∨
    a = i ∧ jj ≤ b ∧ b < y ∧ decide (Conflict M N A B i b) = same)
  have hstart : I jj s := by
    refine h.mono ?_
    intro a b _ _ hd
    exact hd.resolve_right fun hd => by omega
  have hbody : ∀ y s, jj ≤ y → y + 1 ≤ jj + 8 → 1 ∣ y - jj → I y s →
      ∃ t, copyWhen M N A B same i y s = some t ∧ I (y + 1) t := by
    intro y s hy hlt _ hf
    refine ⟨_, copyWhen_of_fits hx hi (by omega) same s, ?_⟩
    split
    · refine (hf.copy hc hi (by omega) rfl).mono ?_
      intro a b _ _ hd
      rcases hd with hd | ⟨ha, h1, h2, h3⟩
      · exact .inl (.inl hd)
      · by_cases hb : b = y
        · exact .inr ⟨ha, hb⟩
        · exact .inl (.inr ⟨ha, h1, by omega, h3⟩)
    · next hne =>
        refine hf.mono ?_
        intro a b _ _ hd
        rcases hd with hd | ⟨ha, h1, h2, h3⟩
        · exact .inl hd
        · have hb : b ≠ y := fun hb => hne (hb ▸ h3)
          exact .inr ⟨ha, h1, by omega, h3⟩
  exact forLoop_exact Nat.one_pos hstart (one_dvd _) (by omega) (by omega) hbody

theorem row32_fills (hc : Call M N A B) (hx : IndexFits M N) {jj i : Nat} (hjj : jj + 8 ≤ M)
    (hi : i < N) (h : Copied M N A B mem (Rows N 8 jj i) s) :
    ∃ t, row32 M N A B 8 jj i s = some t ∧ Copied M N A B mem (Rows N 8 jj (i + 1)) t := by
  have hcols := hc.cols
  obtain ⟨t, ht, hf⟩ := pass32 hc hx hjj hi false h
  obtain ⟨u, hu, hf⟩ := pass32 hc hx hjj hi true hf
  refine ⟨u, ?_, hf.mono ?_⟩
  · unfold row32
    rw [int_of_lt (by omega : jj + 8 < 2147483648)]
    simp only [Option.bind_eq_bind, Option.bind_some, ht, hu]
  · intro a b _ _ hd
    by_cases ha : a = i ∧ jj ≤ b
    · cases decide (Conflict M N A B i b) with
      | false => exact .inl (.inr ⟨ha.1, ha.2, by unfold Rows at hd; omega, rfl⟩)
      | true => exact .inr ⟨ha.1, ha.2, by unfold Rows at hd; omega, rfl⟩
    · refine .inl (.inl ?_)
      unfold Rows at hd ⊢
      omega

theorem block32_fills (hc : Call M N A B) (hx : IndexFits M N) {jj ii : Nat} (hjj : jj + 8 ≤ M)
    (hii : ii + 8 ≤ N) (h : Copied M N A B mem (Rows N 8 jj ii) s) :
    ∃ t, block32 M N A B 8 jj ii s = some t ∧ Copied M N A B mem (Rows N 8 jj (ii + 8)) t := by
  have hrows := hc.rows
  have hbody : ∀ i s, ii ≤ i → i + 1 ≤ ii + 8 → 1 ∣ i - ii →
      Copied M N A B mem (Rows N 8 jj i) s →
      ∃ t, row32 M N A B 8 jj i s = some t ∧ Copied M N A B mem (Rows N 8 jj (i + 1)) t :=
    fun i s _ hi _ hf => row32_fills hc hx hjj (by omega) hf
  unfold block32
  rw [int_of_lt (by omega : ii + 8 < 2147483648)]
  exact forLoop_exact Nat.one_pos h (one_dvd _) (by omega) (by omega) hbody

/-- `trans_32` transposes every matrix it can cut into its blocks. -/
theorem trans32_fills (hc : Call M N A B) (hx : IndexFits M N) (hM : 8 ∣ M) (hN : 8 ∣ N) :
    ∃ t, trans32 M N A B 8 ⟨mem, []⟩ = some t ∧
      Copied M N A B mem (fun i j => i < N ∧ j < M) t := by
  have hblock : ∀ jj ii s, 8 ∣ jj → 8 ∣ ii → jj + 8 ≤ M → ii + 8 ≤ N →
      Copied M N A B mem (Rows N 8 jj ii) s → ∃ t, block32 M N A B 8 jj ii s = some t ∧
        Copied M N A B mem (Rows N 8 jj (ii + 8)) t :=
    fun jj ii s _ _ hjj hii hf => block32_fills hc hx hjj hii hf
  exact forLoop_blocks (P := Copied M N A B mem) (by decide) (by decide) hM hN hc.cols.2 hc.rows.2
    (fun hf hD => hf.mono fun i j _ _ => hD i j) hblock Filled.nothing

end Csapp.Cachelab
