import Mathlib
import Csapp.Y86.Ncopy

/-!
# `ncopy.ys` is correct

The unrolled loop is two half blocks of four words each, the same twenty-four
lines with other displacements and labels. The tail is the same seven lines
for each word but the last, in two spellings: `jg` over a `jmp Done`, and `jle
Done`. One lemma for each of these, and `Reaches.loop` for the blocks, give
the run to `Done` for every length. The tail loads its words in pairs, before it
knows that there is a second one.
-/

namespace Csapp.Y86

variable {base avail : Nat} {s₀ : State} {k j i : Nat} {held : List (RegId × Nat)} {s : State}

/-! ## The unrolled loop -/

theorem line_of_take {α : Type} {p q : List (Line α)} {k n : Nat}
    (h : (p.drop k).take n = q) {x : Nat} (hx : x < n) : p[k + x]? = q[x]? := by
  rw [← h, List.getElem?_take_of_lt hx, List.getElem?_drop]

/-- The lines that count a positive word. -/
def countLines (rA : RegId) (name : Label) : List (Line Label) :=
  [.andq rA rA, .jle name, .iaddq 1 rax, .label name]

/-- Four words, from word `t` of the block on. -/
def halfBlock (t : Nat) (l₁ l₂ l₃ l₄ : Label) : List (Line Label) :=
  [.mrmovq (BitVec.ofNat 64 (8 * t)) rdi r8,
    .mrmovq (BitVec.ofNat 64 (8 * (t + 1))) rdi r9,
    .mrmovq (BitVec.ofNat 64 (8 * (t + 2))) rdi r10,
    .mrmovq (BitVec.ofNat 64 (8 * (t + 3))) rdi r11,
    .rmmovq r8 (BitVec.ofNat 64 (8 * t)) rsi,
    .rmmovq r9 (BitVec.ofNat 64 (8 * (t + 1))) rsi,
    .rmmovq r10 (BitVec.ofNat 64 (8 * (t + 2))) rsi,
    .rmmovq r11 (BitVec.ofNat 64 (8 * (t + 3))) rsi] ++
  countLines r8 l₁ ++ countLines r9 l₂ ++ countLines r10 l₃ ++ countLines r11 l₄

theorem Holds.halfBlock {t : Nat} {rem : Int} {l₁ l₂ l₃ l₄ : Label} (h : Ready s₀ base avail)
    (hs : Holds base s₀ k j i i rem [] s)
    (hk : (ncopy.drop k).take 24 = Y86.halfBlock t l₁ l₂ l₃ l₄) (hi : i = j + t)
    (hl : i + 4 ≤ lenOf s₀) :
    Reaches (Touch s₀ avail) s (Holds base s₀ (k + 24) j (i + 4) (i + 4) rem []) := by
  have hread := h.len_le
  have hline : ∀ x < 24, ncopy[k + x]? = (Y86.halfBlock t l₁ l₂ l₃ l₄)[x]? :=
    fun x hx => line_of_take hk hx
  -- the loads
  refine (hs.load h (hline 0 (by omega)) rfl hi (by omega) (by decide) (by simp)).andThen ?_
  intro s hs
  refine (hs.load (w := i + 1) h (hline 1 (by omega)) rfl (by omega) (by omega) (by decide)
    (by simp; decide)).andThen ?_
  intro s hs
  refine (hs.load (w := i + 2) h (hline 2 (by omega)) rfl (by omega) (by omega) (by decide)
    (by simp; decide)).andThen ?_
  intro s hs
  refine (hs.load (w := i + 3) h (hline 3 (by omega)) rfl (by omega) (by omega) (by decide)
    (by simp; decide)).andThen ?_
  intro s hs
  -- the stores
  refine (hs.store h (hline 4 (by omega)) rfl hi (by omega) (by simp)).andThen ?_
  intro s hs
  refine (hs.store h (hline 5 (by omega)) rfl (by omega) (by omega) (by simp)).andThen ?_
  intro s hs
  refine (hs.store h (hline 6 (by omega)) rfl (by omega) (by omega) (by simp)).andThen ?_
  intro s hs
  refine (hs.store h (hline 7 (by omega)) rfl (by omega) (by omega) (by simp)).andThen ?_
  intro s hs
  -- the counts
  refine (hs.countWord h (hline 8 (by omega)) (hline 9 (by omega)) (hline 10 (by omega))
    (hline 11 (by omega)) (by omega) (by simp)).andThen ?_
  intro s hs
  refine (hs.countWord h (hline 12 (by omega)) (hline 13 (by omega)) (hline 14 (by omega))
    (hline 15 (by omega)) (by omega) (by simp)).andThen ?_
  intro s hs
  refine (hs.countWord h (hline 16 (by omega)) (hline 17 (by omega)) (hline 18 (by omega))
    (hline 19 (by omega)) (by omega) (by simp)).andThen ?_
  intro s hs
  refine (hs.countWord h (hline 20 (by omega)) (hline 21 (by omega)) (hline 22 (by omega))
    (hline 23 (by omega)) (by omega) (by simp)).mono ?_
  intro s hs
  exact hs.keep (List.nil_subset _)

/-- At `Tail`, with the blocks done. -/
def AtTail (base : Nat) (s₀ s : State) : Prop :=
  ∃ j, Holds base s₀ 58 j j j (lenOf s₀ - j - 8) [] s ∧ j ≤ lenOf s₀ ∧ lenOf s₀ < j + 8 ∧
    j % 8 = 0

/-- At `Loop`, with the block from word `j` on to do. -/
structure AtLoop (base : Nat) (s₀ : State) (j : Nat) (s : State) : Prop where
  holds : Holds base s₀ 5 j j j (lenOf s₀ - j - 8) [] s
  block : j + 8 ≤ lenOf s₀
  even : j % 8 = 0

/-- The jump that is taken while a whole block is left. -/
theorem atTail_or_atLoop {n : Nat} (hj : j ≤ lenOf s₀) (h8 : j % 8 = 0) (hn : n = 58)
    (hs : Holds base s₀ (if condHolds (signCC (lenOf s₀ - j - 8)) 5 then 5 else n) j j j
      (lenOf s₀ - j - 8) [] s) : AtTail base s₀ s ∨ AtLoop base s₀ j s := by
  rw [signCC_ge] at hs
  by_cases hge : (0 : Int) ≤ lenOf s₀ - j - 8
  · rw [if_pos (by simpa using hge)] at hs
    exact .inr ⟨hs, by omega, h8⟩
  · rw [if_neg (by simpa using hge), hn] at hs
    exact .inl ⟨j, hs, hj, by omega, h8⟩

theorem AtLoop.left (h : Ready s₀ base avail) (hs : AtLoop base s₀ j s) :
    (s.r rdx).toNat = lenOf s₀ - j - 8 := by
  have hj := hs.block
  have hsmall := h.len_small
  rw [hs.holds.left, BitVec.toNat_ofInt]
  omega

/-- One turn of the unrolled loop. -/
theorem loop_round (h : Ready s₀ base avail) (hs : AtLoop base s₀ j s) :
    Reaches (Touch s₀ avail) s fun t => AtTail base s₀ t ∨ AtLoop base s₀ (j + 8) t := by
  obtain ⟨hs, hj, h8⟩ := hs
  have hsmall := h.len_small
  have h₁ : (ncopy.drop 6).take 24 = Y86.halfBlock 0 .Npos1 .Npos2 .Npos3 .Npos4 := rfl
  have h₂ : (ncopy.drop 30).take 24 = Y86.halfBlock 4 .Npos5 .Npos6 .Npos7 .Npos8 := rfl
  refine ((hs.label rfl).halfBlock h h₁ rfl (by omega)).andThen ?_
  intro s hs
  refine (hs.halfBlock h h₂ rfl (by omega)).andThen ?_
  intro s hs
  refine (hs.advance h rfl rfl).andThen ?_
  intro s hs
  refine (hs.branch (d := -8) (e := 5) h rfl rfl rfl rfl (by omega) (by omega)).mono ?_
  intro s hs
  have hrem : (lenOf s₀ - j - 8 + -8 : Int) = lenOf s₀ - (j + 8 : Nat) - 8 := by omega
  have hcomm : (-8 + (lenOf s₀ - j - 8) : Int) = lenOf s₀ - (j + 8 : Nat) - 8 := by omega
  rw [hrem, hcomm] at hs
  exact atTail_or_atLoop hj (by omega) rfl hs

/-- All the blocks. -/
theorem loop_run (h : Ready s₀ base avail) (hs : AtLoop base s₀ j s) :
    Reaches (Touch s₀ avail) s (AtTail base s₀) := by
  refine Reaches.loop (I := fun s => ∃ j, AtLoop base s₀ j s) (fun s => (s.r rdx).toNat) ?_ s
    ⟨j, hs⟩
  intro s ⟨j, hs⟩
  refine (loop_round h hs).mono ?_
  intro t ht
  cases ht with
  | inl ht => exact .inl ht
  | inr ht =>
      refine .inr ⟨⟨_, ht⟩, ?_⟩
      have hj := ht.block
      rw [ht.left h, hs.left h]
      omega

/-- The loop header, and the blocks. -/
theorem reaches_tail (h : Ready s₀ base avail) : Reaches (Touch s₀ avail) s₀ (AtTail base s₀) := by
  have hsmall := h.len_small
  have hpc : AtLine base ncopy 0 s₀ := h.pc
  have hxor := step_opq h.code (k := 1) rfl (hpc.label rfl) (by decide) (by decide)
  have htouch : Touch s₀ avail s₀ _ := touch_quiet hxor h.code rfl (hpc.label rfl) (by simp)
  refine (Reaches.one htouch (Q := Holds base s₀ 2 0 0 0 (lenOf s₀) []) ?_).andThen ?_
  · let r₁ := setRegVal s₀.r rax (computeAlu aXor (s₀.r rax) (s₀.r rax))
    have hkeep : ∀ {x : RegId}, x ≠ rax → r₁ x = s₀.r x := fun hx => setRegVal_ne _ hx
    have hzero : r₁ rax = 0 := (setRegVal_self _ (by decide)).trans BitVec.xor_self
    have hsrc : s₀.r rdi = BitVec.ofNat 64 (srcOf s₀ + 8 * 0) := by simp [srcOf]
    have hdst : s₀.r rsi = BitVec.ofNat 64 (dstOf s₀ + 8 * 0) := by simp [dstOf]
    have hleft : s₀.r rdx = BitVec.ofInt 64 (lenOf s₀) := by simp [lenOf]
    exact ⟨rfl, Nat.zero_le _,
      (congrArg (fun f => { s₀.m with contents := f }) (copied_zero s₀)).symm,
      (hkeep (by decide)).trans hsrc, (hkeep (by decide)).trans hdst,
      (hkeep (by decide)).trans hleft, hzero, hkeep (by decide : regRsp ≠ rax), by simp⟩
  intro s hs
  refine (hs.branch (d := -8) (e := 5) h rfl rfl rfl rfl (by omega) (by omega)).andThen ?_
  intro s hs
  have hrem : (lenOf s₀ + -8 : Int) = lenOf s₀ - (0 : Nat) - 8 := by omega
  rw [hrem, signCC_ge] at hs
  by_cases hge : (0 : Int) ≤ -8 + lenOf s₀
  · rw [if_pos (decide_eq_true hge)] at hs
    exact loop_run h ⟨hs, by omega, rfl⟩
  · rw [if_neg (by simpa using hge)] at hs
    refine (hs.jmp (e := 58) h rfl rfl).mono ?_
    intro s hs
    exact ⟨0, hs, by omega, by omega, rfl⟩

/-! ## The tail -/

/-- At the `ret` behind `Done`, with everything done. -/
def AtDone (base : Nat) (s₀ s : State) : Prop :=
  ∃ j rem, Holds base s₀ 123 j (lenOf s₀) (lenOf s₀) rem [] s

/-- Behind a word of the tail: the last one, or another is left. -/
def TailNext (base : Nat) (s₀ : State) (k j i : Nat) (held : List (RegId × Nat)) (s : State) :
    Prop :=
  lenOf s₀ ≤ i ∧ AtDone base s₀ s ∨
    i < lenOf s₀ ∧ Holds base s₀ k j i i (lenOf s₀ - i) held s

theorem atDone {rem : Int} (hs : Holds base s₀ 123 j i i rem held s) (hi : i = lenOf s₀) :
    AtDone base s₀ s := by
  rw [hi] at hs
  exact ⟨j, rem, hs.keep (List.nil_subset _)⟩

/-- Store and count the word in `rA`, and take it off what is left. -/
theorem Holds.tailWord {t : Nat} {d : Word} {rA : RegId} {name next : Label} {c : Fun}
    {e : Nat} (h : Ready s₀ base avail) (hs : Holds base s₀ k j i i (lenOf s₀ - i) held s)
    (hk : (ncopy.drop k).take 7 =
      .rmmovq rA d rsi :: countLines rA name ++ [.iaddq (-1) rdx, .jxx c next])
    (hdest : ncopy[e]? = some (.label next)) (hd : d = BitVec.ofNat 64 (8 * t))
    (hi : i = j + t) (hl : i < lenOf s₀) (hw : (rA, i) ∈ held) :
    Reaches (Touch s₀ avail) s (Holds base s₀
      (if condHolds (signCC (lenOf s₀ - (i + 1 : Nat))) c then e else k + 7)
      j (i + 1) (i + 1) (lenOf s₀ - (i + 1 : Nat)) held) := by
  have hsmall := h.len_small
  have hline : ∀ x < 7, ncopy[k + x]? = _ := fun x hx => line_of_take hk hx
  refine (hs.store h (hline 0 (by omega)) hd hi hl hw).andThen ?_
  intro s hs
  refine (hs.countWord h (hline 1 (by omega)) (hline 2 (by omega)) (hline 3 (by omega))
    (hline 4 (by omega)) hl hw).andThen ?_
  intro s hs
  refine (hs.branch (d := -1) h (hline 5 (by omega)) (hline 6 (by omega)) hdest rfl (by omega)
    (by omega)).mono ?_
  intro s hs
  have hrem : (lenOf s₀ - i + -1 : Int) = lenOf s₀ - (i + 1 : Nat) := by omega
  have hcomm : (-1 + (lenOf s₀ - i) : Int) = lenOf s₀ - (i + 1 : Nat) := by omega
  rwa [hrem, hcomm] at hs

/-- A word of the tail, with `jg` to the next one over `jmp Done`. -/
theorem Holds.tailWord_jg {t : Nat} {d : Word} {rA : RegId} {name next : Label} {e : Nat}
    (h : Ready s₀ base avail) (hs : Holds base s₀ k j i i (lenOf s₀ - i) held s)
    (hk : (ncopy.drop k).take 7 =
      .rmmovq rA d rsi :: countLines rA name ++ [.iaddq (-1) rdx, .jxx 6 next])
    (hjmp : ncopy[k + 7]? = some (.jmp .Done)) (hdest : ncopy[e]? = some (.label next))
    (hd : d = BitVec.ofNat 64 (8 * t)) (hi : i = j + t) (hl : i < lenOf s₀)
    (hw : (rA, i) ∈ held) :
    Reaches (Touch s₀ avail) s (TailNext base s₀ (e + 1) j (i + 1) held) := by
  refine (hs.tailWord h hk hdest hd hi hl hw).andThen ?_
  intro s hs
  rw [signCC_g] at hs
  by_cases hg : (0 : Int) < lenOf s₀ - (i + 1 : Nat)
  · rw [if_pos (decide_eq_true hg)] at hs
    exact .here (.inr ⟨by omega, hs.label hdest⟩)
  · rw [if_neg (by simpa using hg)] at hs
    refine (hs.jmp (e := 122) h hjmp rfl).mono ?_
    intro s hs
    exact .inl ⟨by omega, atDone (hs.label rfl) (by omega)⟩

/-- A word of the tail, with `jle Done`. -/
theorem Holds.tailWord_jle {t : Nat} {d : Word} {rA : RegId} {name : Label}
    (h : Ready s₀ base avail) (hs : Holds base s₀ k j i i (lenOf s₀ - i) held s)
    (hk : (ncopy.drop k).take 7 =
      .rmmovq rA d rsi :: countLines rA name ++ [.iaddq (-1) rdx, .jle .Done])
    (hd : d = BitVec.ofNat 64 (8 * t)) (hi : i = j + t) (hl : i < lenOf s₀)
    (hw : (rA, i) ∈ held) :
    Reaches (Touch s₀ avail) s (TailNext base s₀ (k + 7) j (i + 1) held) := by
  refine (hs.tailWord (e := 122) h hk rfl hd hi hl hw).mono ?_
  intro s hs
  rw [signCC_le] at hs
  by_cases hg : (0 : Int) < lenOf s₀ - (i + 1 : Nat)
  · rw [if_neg (by simpa using hg)] at hs
    exact .inr ⟨by omega, hs⟩
  · rw [if_pos (by simpa using hg)] at hs
    exact .inl ⟨by omega, atDone (hs.label rfl) (by omega)⟩

theorem TailNext.mono {k' i' : Nat} {held' : List (RegId × Nat)}
    (hs : TailNext base s₀ k j i held s) (hi : i ≤ i')
    (hnext : i < lenOf s₀ → Holds base s₀ k j i i (lenOf s₀ - i) held s →
      Reaches (Touch s₀ avail) s (TailNext base s₀ k' j i' held')) :
    Reaches (Touch s₀ avail) s (TailNext base s₀ k' j i' held') := by
  cases hs with
  | inl hs => exact .here (.inl ⟨hs.1.trans hi, hs.2⟩)
  | inr hs => exact hnext hs.1 hs.2

/-- The words of the tail, two by two: both are loaded before the first is stored. -/
theorem tail_pair₁ (h : Ready s₀ base avail) (hs : Holds base s₀ 63 j j j (lenOf s₀ - j) [] s)
    (hj : j < lenOf s₀) (hread : j + 1 < avail) :
    Reaches (Touch s₀ avail) s (TailNext base s₀ 83 j (j + 2) []) := by
  refine (hs.load (t := 0) h rfl rfl rfl (by omega) (by decide) (by simp)).andThen ?_
  intro s hs
  refine (hs.load (t := 1) (w := j + 1) h rfl rfl rfl hread (by decide)
    (by simp; decide)).andThen ?_
  intro s hs
  refine (hs.tailWord_jg (t := 0) (e := 73) h rfl rfl rfl rfl rfl hj (by simp)).andThen ?_
  intro s hs
  refine hs.mono (Nat.le_succ _) fun hj hs => ?_
  refine (hs.tailWord_jg (t := 1) (e := 82) h rfl rfl rfl rfl rfl hj (by simp)).mono ?_
  intro s hs
  exact hs.imp_right fun hs => ⟨hs.1, hs.2.keep (List.nil_subset _)⟩

theorem tail_pair₂ (h : Ready s₀ base avail)
    (hs : Holds base s₀ 83 j (j + 2) (j + 2) (lenOf s₀ - (j + 2 : Nat)) [] s)
    (hj : j + 2 < lenOf s₀) (hread : j + 3 < avail) :
    Reaches (Touch s₀ avail) s (TailNext base s₀ 101 j (j + 4) []) := by
  refine (hs.load (t := 2) h rfl rfl rfl (by omega) (by decide) (by simp)).andThen ?_
  intro s hs
  refine (hs.load (t := 3) (w := j + 3) h rfl rfl rfl hread (by decide)
    (by simp; decide)).andThen ?_
  intro s hs
  refine (hs.tailWord_jg (t := 2) (e := 93) h rfl rfl rfl rfl rfl hj (by simp)).andThen ?_
  intro s hs
  refine hs.mono (Nat.le_succ _) fun hj hs => ?_
  refine (hs.tailWord_jle (t := 3) h rfl rfl rfl hj (by simp)).mono ?_
  intro s hs
  exact hs.imp_right fun hs => ⟨hs.1, hs.2.keep (List.nil_subset _)⟩

theorem tail_pair₃ (h : Ready s₀ base avail)
    (hs : Holds base s₀ 101 j (j + 4) (j + 4) (lenOf s₀ - (j + 4 : Nat)) [] s)
    (hj : j + 4 < lenOf s₀) (hread : j + 5 < avail) :
    Reaches (Touch s₀ avail) s (TailNext base s₀ 117 j (j + 6) []) := by
  refine (hs.load (t := 4) h rfl rfl rfl (by omega) (by decide) (by simp)).andThen ?_
  intro s hs
  refine (hs.load (t := 5) (w := j + 5) h rfl rfl rfl hread (by decide)
    (by simp; decide)).andThen ?_
  intro s hs
  refine (hs.tailWord_jle (t := 4) h rfl rfl rfl hj (by simp)).andThen ?_
  intro s hs
  refine hs.mono (Nat.le_succ _) fun hj hs => ?_
  refine (hs.tailWord_jle (t := 5) h rfl rfl rfl hj (by simp)).mono ?_
  intro s hs
  exact hs.imp_right fun hs => ⟨hs.1, hs.2.keep (List.nil_subset _)⟩

/-- The last word is not taken off what is left. -/
theorem tail_last (h : Ready s₀ base avail)
    (hs : Holds base s₀ 117 j (j + 6) (j + 6) (lenOf s₀ - (j + 6 : Nat)) [] s)
    (hj : j + 6 < lenOf s₀) (hl : lenOf s₀ < j + 8) :
    Reaches (Touch s₀ avail) s (AtDone base s₀) := by
  have hread := h.len_le
  refine (hs.load (t := 6) h rfl rfl rfl (by omega) (by decide) (by simp)).andThen ?_
  intro s hs
  refine (hs.store (t := 6) h rfl rfl rfl hj (by simp)).andThen ?_
  intro s hs
  refine (hs.countWord h rfl rfl rfl rfl hj (by simp)).mono ?_
  intro s hs
  have hs : Holds base s₀ 123 j (j + 7) (j + 7) _ _ s := hs
  exact atDone hs (by omega)

/-- What is left for the tail ends in the middle of a pair. The seventh word is
loaded alone. -/
def Unpaired (n : Nat) : Prop := n % 8 = 1 ∨ n % 8 = 3 ∨ n % 8 = 5

/-- The tail, from its first word on. -/
theorem tail_words (h : Ready s₀ base avail) (hs : Holds base s₀ 63 j j j (lenOf s₀ - j) [] s)
    (hj : j < lenOf s₀) (hl : lenOf s₀ < j + 8) (h8 : j % 8 = 0)
    (hread : Unpaired (lenOf s₀) → lenOf s₀ < avail) :
    Reaches (Touch s₀ avail) s (AtDone base s₀) := by
  have hle := h.len_le
  unfold Unpaired at hread
  refine (tail_pair₁ h hs hj (by omega)).andThen ?_
  rintro s (hs | ⟨hj, hs⟩)
  · exact .here hs.2
  refine (tail_pair₂ h hs hj (by omega)).andThen ?_
  rintro s (hs | ⟨hj, hs⟩)
  · exact .here hs.2
  refine (tail_pair₃ h hs hj (by omega)).andThen ?_
  rintro s (hs | ⟨hj, hs⟩)
  · exact .here hs.2
  exact tail_last h hs hj hl

/-- The loop, and the test at `Tail`. -/
theorem reaches_words (h : Ready s₀ base avail) :
    Reaches (Touch s₀ avail) s₀ fun s => AtDone base s₀ s ∧ lenOf s₀ % 8 = 0 ∨
      ∃ j, Holds base s₀ 63 j j j (lenOf s₀ - j) [] s ∧ j < lenOf s₀ ∧ lenOf s₀ < j + 8 ∧
        j % 8 = 0 := by
  refine (reaches_tail h).andThen ?_
  intro s ⟨j, hs, hj, hl, h8⟩
  have hsmall := h.len_small
  refine ((hs.label rfl).branch (d := 8) (e := 62) h rfl rfl rfl rfl (by omega)
    (by omega)).andThen ?_
  intro s hs
  have hrem : (lenOf s₀ - j - 8 + 8 : Int) = lenOf s₀ - j := by omega
  rw [signCC_g, hrem] at hs
  by_cases hg : (0 : Int) < 8 + (lenOf s₀ - j - 8)
  · rw [if_pos (decide_eq_true hg)] at hs
    exact .here (.inr ⟨j, hs.label rfl, by omega, hl, h8⟩)
  · rw [if_neg (by simpa using hg)] at hs
    refine (hs.jmp (e := 122) h rfl rfl).mono ?_
    intro s hs
    exact .inl ⟨atDone (hs.label rfl) (by omega), by omega⟩

theorem reaches_done (h : Ready s₀ base avail) (hread : Unpaired (lenOf s₀) → lenOf s₀ < avail) :
    Reaches (Touch s₀ avail) s₀ (AtDone base s₀) := by
  refine (reaches_words h).andThen ?_
  rintro s (hs | ⟨j, hs, hj, hl, h8⟩)
  · exact .here hs.1
  · exact tail_words h hs hj hl h8 hread

/-! ## The call as a whole -/

/-- From the call to `ret`, and through it, with no fault: the source words are
in the destination, `%rax` is the number of positive ones, the return address
is the new program counter, and every byte outside the destination is what it
was. -/
theorem ncopy_correct (h : Called s₀ base) :
    ∃ k s t, Relation.ReflTransGen Aok s₀ s ∧ AtLine base ncopy k s ∧
      ncopy[k]? = some .ret ∧ Aok s t ∧ t.pc = loadWord s₀.m.contents (spOf s₀) ∧
      (∀ i < lenOf s₀, loadWord t.m.contents (dstOf s₀ + 8 * i) = srcWord s₀ i) ∧
      (t.r rax).toNat = positives s₀ (lenOf s₀) ∧
      t.m.len = s₀.m.len ∧ ∀ b, ¬InDst s₀ b → t.m.contents b = s₀.m.contents b := by
  have hr := h.ready
  obtain ⟨s, hrun, j, rem, hs⟩ :=
    (reaches_done hr fun _ => Nat.lt_succ_self _).weaken fun s t hst => hst.1
  have hsp : s.r regRsp = BitVec.ofNat 64 (spOf s₀) := hs.stack.trans (stack_eq s₀)
  have hcont : s.m.contents = copied s₀ (lenOf s₀) := congrArg Mem.contents hs.mem
  have hret := step_ret (hs.code hr) rfl hs.pc hsp (hs.len ▸ h.stack)
  have hpop : loadWord s.m.contents (spOf s₀) = loadWord s₀.m.contents (spOf s₀) := by
    rw [hcont]
    refine loadWord_congr fun i hi => copied_of_not_inDst (Nat.le_refl _) ?_
    intro hd
    exact h.apart_stack _ hd (by omega)
  have hcopy : ∀ i < lenOf s₀, loadWord s.m.contents (dstOf s₀ + 8 * i) = srcWord s₀ i := by
    intro i hi
    rw [hcont]
    exact loadWord_copied s₀ hi
  have hcount : setRegVal s.r regRsp (BitVec.ofNat 64 (spOf s₀) + 8) rax = s.r rax :=
    setRegVal_ne _ (by decide)
  have hsmall := hr.len_small
  have hle : positives s₀ (lenOf s₀) ≤ lenOf s₀ := Nat.count_le _
  refine ⟨123, s, _, hrun, hs.pc, rfl, hret, hpop, hcopy, ?_, hs.len, ?_⟩
  · show (setRegVal s.r regRsp (BitVec.ofNat 64 (spOf s₀) + 8) rax).toNat = _
    rw [hcount, hs.count, BitVec.toNat_ofNat]
    omega
  · intro b hb
    exact (congrFun hcont b).trans (copied_of_not_inDst (Nat.le_refl _) hb)

/-- The words 5, -3 and 7 at 2048 are copied to 3072, with the code at address 0. -/
def ncopyDemo : State where
  pc := 0
  r := fun x => if x = rdi then 2048 else if x = rsi then 3072 else if x = rdx then 3
    else if x = regRsp then 4000 else 0
  m := ⟨image (assemble 0 ncopy) 2048 [5, -3, 7], 4096, by decide⟩
  cc := defaultCC

theorem ncopyDemo_called : Called ncopyDemo 0 := by
  have hlen : (assemble 0 ncopy).length = 854 := by
    rw [length_assemble]
    decide +kernel
  have hsrc : srcOf ncopyDemo = 2048 := rfl
  have hdst : dstOf ncopyDemo = 3072 := rfl
  have hlenOf : lenOf ncopyDemo = 3 := rfl
  have hsp : spOf ncopyDemo = 4000 := rfl
  have hm : ncopyDemo.m.len = 4096 := rfl
  refine ⟨codeAt_image _ (by omega) (by omega), rfl, by omega, by omega, by omega, ?_, ?_, ?_⟩
  all_goals
    intro b
    simp only [InDst, InSrc]
    omega

theorem ncopyDemo_word {i : Nat} (hi : i < 3) : srcWord ncopyDemo i = [5, -3, 7].getD i 0 := by
  interval_cases i <;> decide +kernel

/-- Two of them are positive. -/
theorem ncopy_correct_demo :
    ∃ k s t, Relation.ReflTransGen Aok ncopyDemo s ∧ AtLine 0 ncopy k s ∧
      ncopy[k]? = some .ret ∧ Aok s t ∧
      t.pc = loadWord ncopyDemo.m.contents (spOf ncopyDemo) ∧
      (∀ i < 3, loadWord t.m.contents (3072 + 8 * i) = [5, -3, 7].getD i 0) ∧
      (t.r rax).toNat = 2 ∧ t.m.len = 4096 ∧
      ∀ b, ¬InDst ncopyDemo b → t.m.contents b = ncopyDemo.m.contents b := by
  obtain ⟨k, s, t, hrun, hs, hk, hret, hpc, hcopy, hcount, hlen, hframe⟩ :=
    ncopy_correct ncopyDemo_called
  have hpos : positives ncopyDemo (lenOf ncopyDemo) = 2 := by decide +kernel
  refine ⟨k, s, t, hrun, hs, hk, hret, hpc, fun i hi => ?_, hcount.trans hpos, hlen, hframe⟩
  exact (hcopy i hi).trans (ncopyDemo_word hi)

end Csapp.Y86
