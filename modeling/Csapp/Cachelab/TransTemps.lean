import Mathlib
import Csapp.Cachelab.TransExact

/-!
# The two temporaries of `trans_64`

When `N` is an odd multiple of 64, the rows of `B` lie an odd multiple of eight
lines apart, and the four cells of a column block fall into four sets that are
at least eight apart; the four cells of `A` lie in one line or two neighbours.
So a row of a group has at most one conflict, and a group at most two.

`Tracked` adds to the locals the cell that each temporary holds a value for. Its
run is undefined where a value still needed would be overwritten, where a cell
would be given another cell's value, and where one would be left behind.
-/

namespace Csapp.Cachelab

/-! ## Conflicts -/

theorem setIdx_eq (i j m arr : Nat) : setIdx i j m arr = (arr + 4 * (i * m) + 4 * j) / 32 % 32 := by
  rw [setIdx, Nat.shiftRight_eq_div_pow, Nat.shiftRight_eq_div_pow, Nat.shiftLeft_eq]
  omega

section

variable {M N A B : Nat}

/-- Two cells of a row whose columns are less than four apart do not both conflict. -/
theorem conflict_unique (hx : IndexFits M N) (hN : ∃ n, N = 64 * (2 * n + 1)) {i j d : Nat}
    (hi : i < N) (hd : d < 4) (hj : j + d < M) (h : Conflict M N A B i j)
    (h' : Conflict M N A B i (j + d)) : d = 0 := by
  obtain ⟨n, hn⟩ := hN
  obtain ⟨hA, hB⟩ := hx.sets (A := A) (B := B) hi (by omega : j < M)
  obtain ⟨hA', hB'⟩ := hx.sets (A := A) (B := B) hi hj
  rw [Conflict, hA, hB, Option.some.injEq, setIdx_eq, setIdx_eq] at h
  rw [Conflict, hA', hB', Option.some.injEq, setIdx_eq, setIdx_eq] at h'
  have hrow : (j + d) * N = j * N + d * N := Nat.add_mul ..
  rw [hrow] at h'
  generalize i * M = a at h h'
  generalize j * N = b at h h'
  subst hn
  obtain rfl | rfl | rfl | rfl : d = 0 ∨ d = 1 ∨ d = 2 ∨ d = 3 := by omega
  · rfl
  all_goals omega

theorem conflicts_length_le (hx : IndexFits M N) (hN : ∃ n, N = 64 * (2 * n + 1)) {jj ii k : Nat}
    (hii : ii + 8 ≤ N) (hjj : jj + 4 ≤ M) (hk : k < 4) :
    (conflicts M N A B jj ii k).length ≤ 2 := by
  have hmem : ∀ c ∈ conflicts M N A B jj ii k, c ∈ groupCells jj ii k ∧
      Conflict M N A B c.1 c.2 := by
    intro c hc
    exact ⟨List.mem_of_mem_filter hc, of_decide_eq_true (List.mem_filter.mp hc).2⟩
  have hinj : ∀ c ∈ conflicts M N A B jj ii k, ∀ d ∈ conflicts M N A B jj ii k, c.1 = d.1 →
      c = d := by
    have hle : ∀ c ∈ conflicts M N A B jj ii k, ∀ d ∈ conflicts M N A B jj ii k, c.1 = d.1 →
        c.2 ≤ d.2 → c = d := by
      intro c hc d hd he hle
      obtain ⟨hcg, hcc⟩ := hmem c hc
      obtain ⟨hdg, hdc⟩ := hmem d hd
      obtain ⟨h1, h2, h3⟩ := mem_groupCells.mp hcg
      obtain ⟨-, h4, h5⟩ := mem_groupCells.mp hdg
      have hsum : d.2 = c.2 + (d.2 - c.2) := by omega
      rw [← he, hsum] at hdc
      have := conflict_unique hx hN (by omega) (by omega) (by omega) hcc hdc
      exact Prod.ext he (by omega)
    intro c hc d hd he
    rcases Nat.le_total c.2 d.2 with h | h
    · exact hle c hc d hd he h
    · exact (hle d hd c hc he.symm h).symm
  have hnodup : ((conflicts M N A B jj ii k).map Prod.fst).Nodup :=
    ((groupCells_nodup jj ii k).filter _).map_on hinj
  have hsub : (conflicts M N A B jj ii k).map Prod.fst ⊆ [ii + k, ii + k + 4] := by
    intro i hi
    obtain ⟨c, hc, rfl⟩ := List.mem_map.mp hi
    have := (mem_groupCells.mp (hmem c hc).1).1
    simpa using this
  rw [← List.length_map (f := Prod.fst)]
  exact (List.subperm_of_subset hnodup hsub).length_le

end

/-! ## The tracked run -/

/-- The locals, and the cells whose values the temporaries hold until they are stored. -/
structure Tracked where
  l : Locals
  from1 : Option (Nat × Nat)
  from2 : Option (Nat × Nat)

section

variable (M N A B : Nat)

/-- `setAside`, with the cell that each temporary holds; `none` where one would be lost. -/
def setAsideT (i j : Nat) (t : Tracked) : Option Tracked := do
  let l ← setAside M N A B i j t.l
  if ¬Conflict M N A B i j then
    return { t with l := l }
  else if t.l.tmp1Set then
    if t.from2 = none then return { t with l := l, from2 := some (i, j) } else none
  else
    if t.from1 = none then return { t with l := l, from1 := some (i, j) } else none

/-- `putBack`, `none` where the cell is not the one that the temporary holds. -/
def putBackT (i j : Nat) (t : Tracked) : Option Tracked := do
  let l ← putBack M N A B i j t.l
  if ¬Conflict M N A B i j then
    return { t with l := l }
  else if t.l.tmp1Set then
    if t.from1 = some (i, j) then return { t with l := l, from1 := none } else none
  else
    if t.from2 = some (i, j) then return { t with l := l, from2 := none } else none

/-- `passes`, likewise, with nothing held at the end. -/
def passesT (jj ii k : Nat) (t : Tracked) : Option Tracked := do
  let t ← groupOf jj ii k (setAsideT M N A B) { t with l := { t.l with tmp1Set := false } }
  let t ← groupOf jj ii k (putBackT M N A B) t
  if t.from1 = none ∧ t.from2 = none then return t else none

/-- A turn of the loop over `ii`, likewise. -/
def block64T (jj ii : Nat) (t : Tracked) : Option Tracked :=
  forLoop 0 4 1 (passesT M N A B jj ii) t

/-- `trans_64`, tracked. -/
def trans64T (s : St) : Option Tracked :=
  forLoop 0 M 4 (fun jj => forLoop 0 N 8 (block64T M N A B jj)) ⟨⟨s, none, none, false⟩, none, none⟩

end

section

variable {M N A B : Nat} {l u : Locals} {t : Tracked} {L : List (Nat × Nat)}

/-- The flag and the two cells. -/
def Tracked.held (t : Tracked) : Bool × Option (Nat × Nat) × Option (Nat × Nat) :=
  (t.l.tmp1Set, t.from1, t.from2)

/-- What is held when the cells of a list have been set aside. -/
def asideOf : List (Nat × Nat) → Bool × Option (Nat × Nat) × Option (Nat × Nat)
  | [] => (false, none, none)
  | c :: cs => (true, some c, cs.head?)

/-- What is held when the cells of a list are left, and `tmp1` is stored. -/
def leftOf (cs : List (Nat × Nat)) : Bool × Option (Nat × Nat) × Option (Nat × Nat) :=
  (false, none, cs.head?)

theorem setAside_tmp1Set {i j : Nat} (h : setAside M N A B i j l = some u) :
    u.tmp1Set = if Conflict M N A B i j then true else l.tmp1Set := by
  obtain ⟨a, ha, h⟩ := Option.bind_eq_some_iff.mp h
  obtain ⟨b, hb, h⟩ := Option.bind_eq_some_iff.mp h
  have hcf : Conflict M N A B i j ↔ a = b := by simp [Conflict, ha, hb]
  simp only [hcf]
  by_cases hab : a = b
  · rw [if_pos hab]
    rw [if_neg (not_not.mpr hab)] at h
    split at h
    · next hset => rw [← Option.some.inj h, hset]
    · rw [← Option.some.inj h]
  · rw [if_neg hab]
    rw [if_pos hab] at h
    rw [← Option.some.inj h]

theorem putBack_tmp1Set {i j : Nat} (h : putBack M N A B i j l = some u) :
    u.tmp1Set = if Conflict M N A B i j then false else l.tmp1Set := by
  obtain ⟨a, ha, h⟩ := Option.bind_eq_some_iff.mp h
  obtain ⟨b, hb, h⟩ := Option.bind_eq_some_iff.mp h
  have hcf : Conflict M N A B i j ↔ a = b := by simp [Conflict, ha, hb]
  simp only [hcf]
  by_cases hab : a = b
  · rw [if_pos hab]
    rw [if_pos hab] at h
    split at h
    · obtain ⟨v, -, h⟩ := Option.bind_eq_some_iff.mp h
      rw [← Option.some.inj h]
    · next hset =>
      obtain ⟨v, -, h⟩ := Option.bind_eq_some_iff.mp h
      rw [← Option.some.inj h]
      exact Bool.eq_false_iff.mpr hset
  · rw [if_neg hab]
    rw [if_neg hab] at h
    rw [← Option.some.inj h]

/-! ## The tracked run follows the run -/

/-- The first pass over a list of cells, when at most two are ever held. -/
theorem setAsideT_follows {C : List (Nat × Nat)} (hheld : t.held = asideOf C)
    (hlen : (C ++ L.filter fun c => Conflict M N A B c.1 c.2).length ≤ 2)
    (h : L.foldlM (fun l c => setAside M N A B c.1 c.2 l) t.l = some u) :
    ∃ t', L.foldlM (fun t c => setAsideT M N A B c.1 c.2 t) t = some t' ∧ t'.l = u ∧
      t'.held = asideOf (C ++ L.filter fun c => Conflict M N A B c.1 c.2) := by
  induction L generalizing C t with
  | nil =>
    obtain rfl := Option.some.inj h
    exact ⟨t, rfl, rfl, by rw [List.filter_nil, List.append_nil]; exact hheld⟩
  | cons c L ih =>
    rw [List.foldlM_cons] at h
    obtain ⟨l₁, hl₁, h⟩ := Option.bind_eq_some_iff.mp h
    have hset := setAside_tmp1Set hl₁
    rw [List.foldlM_cons]
    by_cases hcf : Conflict M N A B c.1 c.2
    · rw [if_pos hcf] at hset
      rw [List.filter_cons_of_pos (by simpa using hcf), ← List.singleton_append,
        ← List.append_assoc] at hlen ⊢
      obtain ⟨t₁, ht₁, hl, hheld₁⟩ : ∃ t₁, setAsideT M N A B c.1 c.2 t = some t₁ ∧ t₁.l = l₁ ∧
          t₁.held = asideOf (C ++ [c]) := by
        rw [setAsideT, hl₁, Option.bind_eq_bind, Option.bind_some, if_neg (not_not.mpr hcf)]
        match C with
        | [] =>
          obtain ⟨h1, h2, h3⟩ : t.l.tmp1Set = false ∧ t.from1 = none ∧ t.from2 = none := by
            simpa [Tracked.held, asideOf] using hheld
          rw [if_neg (by rw [h1]; exact Bool.false_ne_true), if_pos h2]
          exact ⟨_, rfl, rfl, by simp [Tracked.held, asideOf, hset, h3]⟩
        | [a] =>
          obtain ⟨h1, h2, h3⟩ : t.l.tmp1Set = true ∧ t.from1 = some a ∧ t.from2 = none := by
            simpa [Tracked.held, asideOf] using hheld
          rw [if_pos h1, if_pos h3]
          exact ⟨_, rfl, rfl, by simp [Tracked.held, asideOf, hset, h2]⟩
        | _ :: _ :: _ => simp at hlen
      rw [ht₁]
      exact ih hheld₁ hlen (hl ▸ h)
    · rw [if_neg hcf] at hset
      rw [List.filter_cons_of_neg (by simpa using hcf)] at hlen ⊢
      have hstep : setAsideT M N A B c.1 c.2 t = some { t with l := l₁ } := by
        rw [setAsideT, hl₁, Option.bind_eq_bind, Option.bind_some, if_pos hcf]
        rfl
      rw [hstep]
      refine ih (t := { t with l := l₁ }) ?_ hlen h
      rw [← hheld, Tracked.held, Tracked.held, hset]

theorem putBackT_of_not {c : Nat × Nat} {l₁ : Locals}
    (hl₁ : putBack M N A B c.1 c.2 t.l = some l₁) (hcf : ¬Conflict M N A B c.1 c.2) :
    putBackT M N A B c.1 c.2 t = some { t with l := l₁ } ∧
      Tracked.held { t with l := l₁ } = t.held := by
  have hset := putBack_tmp1Set hl₁
  rw [if_neg hcf] at hset
  refine ⟨?_, ?_⟩
  · rw [putBackT, hl₁, Option.bind_eq_bind, Option.bind_some, if_pos hcf]
    rfl
  · rw [Tracked.held, Tracked.held, hset]

/-- The second pass, once `tmp1` is stored. -/
theorem putBackT_follows_rest
    (hheld : t.held = leftOf (L.filter fun c => Conflict M N A B c.1 c.2))
    (hlen : (L.filter fun c => Conflict M N A B c.1 c.2).length ≤ 1)
    (h : L.foldlM (fun l c => putBack M N A B c.1 c.2 l) t.l = some u) :
    L.foldlM (fun t c => putBackT M N A B c.1 c.2 t) t = some ⟨u, none, none⟩ := by
  induction L generalizing t with
  | nil =>
    obtain rfl := Option.some.inj h
    obtain ⟨-, h2, h3⟩ : t.l.tmp1Set = false ∧ t.from1 = none ∧ t.from2 = none := by
      simpa [Tracked.held, leftOf] using hheld
    obtain ⟨l, f1, f2⟩ := t
    obtain ⟨rfl, rfl⟩ : f1 = none ∧ f2 = none := ⟨h2, h3⟩
    rfl
  | cons c L ih =>
    rw [List.foldlM_cons] at h ⊢
    obtain ⟨l₁, hl₁, h⟩ := Option.bind_eq_some_iff.mp h
    by_cases hcf : Conflict M N A B c.1 c.2
    · have hset := putBack_tmp1Set hl₁
      rw [if_pos hcf] at hset
      rw [List.filter_cons_of_pos (by simpa using hcf)] at hheld hlen
      have hnil : (L.filter fun c => Conflict M N A B c.1 c.2) = [] := by
        rw [← List.length_eq_zero_iff]
        rw [List.length_cons] at hlen
        omega
      obtain ⟨h1, h2, h3⟩ : t.l.tmp1Set = false ∧ t.from1 = none ∧ t.from2 = some c := by
        simpa [Tracked.held, leftOf] using hheld
      have hstep : putBackT M N A B c.1 c.2 t = some { t with l := l₁, from2 := none } := by
        rw [putBackT, hl₁, Option.bind_eq_bind, Option.bind_some, if_neg (not_not.mpr hcf),
          if_neg (by rw [h1]; exact Bool.false_ne_true), if_pos h3]
        rfl
      rw [hstep]
      refine ih (t := { t with l := l₁, from2 := none }) ?_ (by rw [hnil]; exact Nat.zero_le 1) h
      rw [hnil]
      simp [Tracked.held, leftOf, hset, h2]
    · obtain ⟨hstep, hkeep⟩ := putBackT_of_not hl₁ hcf
      rw [List.filter_cons_of_neg (by simpa using hcf)] at hheld hlen
      rw [hstep]
      exact ih (t := { t with l := l₁ }) (hkeep.trans hheld) hlen h

theorem putBackT_follows
    (hheld : t.held = asideOf (L.filter fun c => Conflict M N A B c.1 c.2))
    (hlen : (L.filter fun c => Conflict M N A B c.1 c.2).length ≤ 2)
    (h : L.foldlM (fun l c => putBack M N A B c.1 c.2 l) t.l = some u) :
    L.foldlM (fun t c => putBackT M N A B c.1 c.2 t) t = some ⟨u, none, none⟩ := by
  induction L generalizing t with
  | nil => exact putBackT_follows_rest hheld (Nat.zero_le 1) h
  | cons c L ih =>
    rw [List.foldlM_cons] at h ⊢
    obtain ⟨l₁, hl₁, h⟩ := Option.bind_eq_some_iff.mp h
    by_cases hcf : Conflict M N A B c.1 c.2
    · have hset := putBack_tmp1Set hl₁
      rw [if_pos hcf] at hset
      rw [List.filter_cons_of_pos (by simpa using hcf)] at hheld hlen
      obtain ⟨h1, h2, h3⟩ : t.l.tmp1Set = true ∧ t.from1 = some c ∧
          t.from2 = (L.filter fun c => Conflict M N A B c.1 c.2).head? := by
        simpa [Tracked.held, asideOf] using hheld
      have hstep : putBackT M N A B c.1 c.2 t = some { t with l := l₁, from1 := none } := by
        rw [putBackT, hl₁, Option.bind_eq_bind, Option.bind_some, if_neg (not_not.mpr hcf),
          if_pos h1, if_pos h2]
        rfl
      rw [hstep]
      refine putBackT_follows_rest (t := { t with l := l₁, from1 := none }) ?_
        (Nat.le_of_succ_le_succ hlen) h
      simp [Tracked.held, leftOf, hset, h3]
    · obtain ⟨hstep, hkeep⟩ := putBackT_of_not hl₁ hcf
      rw [List.filter_cons_of_neg (by simpa using hcf)] at hheld hlen
      rw [hstep]
      exact ih (t := { t with l := l₁ }) (hkeep.trans hheld) hlen h

theorem passesT_follows {jj ii k : Nat} (hj : jj + 4 < 2147483648) (hi : ii + 12 < 2147483648)
    (hk : k < 4) (hlen : (conflicts M N A B jj ii k).length ≤ 2)
    (h : passes M N A B jj ii k l = some u) :
    passesT M N A B jj ii k ⟨l, none, none⟩ = some ⟨u, none, none⟩ := by
  obtain ⟨l₁, hl₁, h⟩ := Option.bind_eq_some_iff.mp h
  rw [group_eq_foldlM hj hi hk] at hl₁ h
  have hlen' : ([] ++ conflicts M N A B jj ii k).length ≤ 2 := hlen
  obtain ⟨t₁, ht₁, rfl, hheld⟩ := setAsideT_follows
    (t := ⟨{ l with tmp1Set := false }, none, none⟩) rfl hlen' hl₁
  have hback := putBackT_follows hheld hlen h
  rw [passesT, groupOf_eq_foldlM hj hi hk, ht₁, Option.bind_eq_bind, Option.bind_some,
    groupOf_eq_foldlM hj hi hk, hback]
  rfl

/-- The tracked run of a run whose groups never have more than two conflicts. -/
theorem trans64T_follows (hcols : M < 2147483648) (hrows : N + 4 < 2147483648)
    (hM : 4 ∣ M) (hN : 8 ∣ N)
    (hlen : ∀ jj ii k, jj + 4 ≤ M → ii + 8 ≤ N → k < 4 →
      (conflicts M N A B jj ii k).length ≤ 2) {s v : St}
    (h : trans64 M N A B s = some v) :
    ∃ l, trans64T M N A B s = some ⟨l, none, none⟩ ∧ l.st = v := by
  obtain ⟨l, hl, h⟩ := Option.bind_eq_some_iff.mp h
  refine ⟨l, ?_, Option.some.inj h⟩
  let R : Locals → Tracked → Prop := fun l t => t = ⟨l, none, none⟩
  have hrun : ∃ t, trans64T M N A B s = some t ∧ R l t := by
    refine forLoop_simulates (R := R) (by decide) hl rfl ?_
    rintro kj hjj l₁ u₁ _ hcol rfl
    refine forLoop_simulates (R := R) (by decide) hcol rfl ?_
    rintro ki hii l₂ u₂ _ hblock rfl
    refine forLoop_simulates (R := R) (by decide) hblock rfl ?_
    rintro k hk l₃ u₃ _ hpass rfl
    refine ⟨_, passesT_follows ?_ ?_ ?_ (hlen _ _ _ ?_ ?_ ?_) hpass, rfl⟩
    all_goals omega
  obtain ⟨t, ht, rfl⟩ := hrun
  exact ht

theorem nothingLost_of_le {mem : Nat → Int}
    (hlen : ∀ jj ii k, 4 ∣ jj → jj < M → 8 ∣ ii → ii < N → k < 4 →
      (conflicts M N A B jj ii k).length ≤ 2) : NothingLost M N A B mem := by
  intro jj ii k hjj hjM hii hiN hk c hc d hd
  have hle := hlen jj ii k hjj hjM hii hiN hk
  have htail : (conflicts M N A B jj ii k).tail.length ≤ 1 := by
    rw [List.length_tail]
    omega
  obtain ⟨a, ha⟩ := List.length_eq_one_iff.mp
    (Nat.le_antisymm htail (List.length_pos_of_mem hc))
  rw [ha, List.mem_singleton] at hc hd
  rw [hc, hd]

end

/-- Odd multiples of 64 for which no subscript overflows: no group has more than two
conflicts, the tracked run comes out, and it is the run of `trans_64` and leaves the
transpose in `B`. -/
theorem trans64_two_temporaries {M N A B : Nat} (hc : Call M N A B) (hx : IndexFits M N)
    (hM : ∃ m, M = 64 * (2 * m + 1)) (hN : ∃ n, N = 64 * (2 * n + 1)) (mem : Nat → Int) :
    (∀ jj ii k, 4 ∣ jj → jj < M → 8 ∣ ii → ii < N → k < 4 →
      (conflicts M N A B jj ii k).length ≤ 2) ∧
    ∃ l, trans64T M N A B ⟨mem, []⟩ = some ⟨l, none, none⟩ ∧
      trans64 M N A B ⟨mem, []⟩ = some l.st ∧
      (∀ i < N, ∀ j < M, l.st.mem (cell B N j i) = mem (cell A M i j)) ∧
      ∀ p ∈ l.st.stores, InB M N B p := by
  have hrows := hc.rows
  have hcols := hc.cols
  have h4 : 4 ∣ M := by
    obtain ⟨m, hm⟩ := hM
    exact ⟨16 * (2 * m + 1), by omega⟩
  have h8 : 8 ∣ N := by
    obtain ⟨n, hn⟩ := hN
    exact ⟨8 * (2 * n + 1), by omega⟩
  have hlen : ∀ jj ii k, jj + 4 ≤ M → ii + 8 ≤ N → k < 4 →
      (conflicts M N A B jj ii k).length ≤ 2 :=
    fun jj ii k hjj hii hk => conflicts_length_le hx hN hii hjj hk
  have hall : ∀ jj ii k, 4 ∣ jj → jj < M → 8 ∣ ii → ii < N → k < 4 →
      (conflicts M N A B jj ii k).length ≤ 2 :=
    fun jj ii k hjj hjM hii hiN hk => hlen jj ii k (by omega) (by omega) hk
  refine ⟨hall, ?_⟩
  obtain ⟨v, hv, hf⟩ := @trans64_fills M N A B mem hc hx h4 h8
  obtain ⟨l, hl, rfl⟩ := trans64T_follows hcols.2 (by omega) h4 h8 hlen hv
  refine ⟨l, hl, hv, fun i hi j hj => ?_, hf.inside⟩
  rw [hf.vals i j hi hj ⟨hi, hj⟩]
  exact (kept_eq_iff h4 h8).mpr (nothingLost_of_le hall) i hi j hj

/-- The graded size. -/
theorem trans64_two_temporaries_graded :
    ∃ l, trans64T 64 64 4194304 4456448 ⟨fun p => (p : Int), []⟩ = some ⟨l, none, none⟩ ∧
      ∀ i < 64, ∀ j < 64, l.st.mem (cell 4456448 64 j i) = (cell 4194304 64 i j : Int) := by
  have hc : Call 64 64 4194304 4456448 :=
    ⟨by decide, by decide, by decide, by decide, by decide, by decide, by decide⟩
  obtain ⟨-, l, hl, -, hval, -⟩ := trans64_two_temporaries hc ⟨by decide, by decide⟩
    ⟨0, by decide⟩ ⟨0, by decide⟩ fun p => (p : Int)
  exact ⟨l, hl, hval⟩

/-- With 46400 columns, an odd multiple of 64, the subscript of the last row is no `int`. -/
theorem trans64_overflows :
    Call 46400 46400 4194304 10737418240 ∧ (∃ n, 46400 = 64 * (2 * n + 1)) ∧
      ∀ s, trans64 46400 46400 4194304 10737418240 s = none := by
  refine ⟨⟨by decide, by decide, by decide, by decide, by decide, by decide, by decide⟩,
    ⟨362, by decide⟩, fun s => ?_⟩
  cases h : trans64 46400 46400 4194304 10737418240 s with
  | none => rfl
  | some t =>
    have hfits := indexFits_of_visited
      (trans64_visits (i := 46400 - 1) (j := 46400 - 1) h (by decide) (by decide))
    exact absurd hfits.1 (by decide)

end Csapp.Cachelab
