import Mathlib
import Csapp.Y86.Cond
import Csapp.Y86.Rules

/-!
# `ncopy.ys`, line by line

The source text with its labels, and what a run has done when it is at one of
its lines. `Holds` says it once for all lines: `i` words are copied, the first
`n` of them are counted, `%rdi` and `%rsi` point `j` words into their arrays,
`%rdx` holds `rem`, and some scratch registers hold source words that were
loaded before earlier stores. The tail may load the word behind the source too;
nothing is said of its value, because the destination may lie on it.

How many words may be read from the source on is a number of its own, `avail`. A
step that reads no others and writes no word but those of the destination is
`Touch`, and the rules are about such steps.

Each rule below carries `Holds` over the instructions of one source idiom: a
load, a store, the four lines that count a word, and an `iaddq` with the jump
that reads its condition codes.
-/

namespace Csapp.Y86

/-- The labels of `ncopy.ys`. -/
inductive Label
  | ncopy | Loop | Npos1 | Npos2 | Npos3 | Npos4 | Npos5 | Npos6 | Npos7 | Npos8
  | Tail | TailLoop1 | TailLoop2 | TailLoop3 | TailLoop4
  | Npos21 | Npos22 | Npos23 | Npos24 | Npos25 | Npos26 | Done | End
deriving DecidableEq, Repr

/-- `ncopy.ys` -/
def ncopy : List (Line Label) := [
  .label .ncopy,
  .xorq rax rax,
  .iaddq (-8) rdx,
  .jge .Loop,
  .jmp .Tail,
  .label .Loop,
  .mrmovq 0 rdi r8,
  .mrmovq 8 rdi r9,
  .mrmovq 16 rdi r10,
  .mrmovq 24 rdi r11,
  .rmmovq r8 0 rsi,
  .rmmovq r9 8 rsi,
  .rmmovq r10 16 rsi,
  .rmmovq r11 24 rsi,
  .andq r8 r8, .jle .Npos1, .iaddq 1 rax, .label .Npos1,
  .andq r9 r9, .jle .Npos2, .iaddq 1 rax, .label .Npos2,
  .andq r10 r10, .jle .Npos3, .iaddq 1 rax, .label .Npos3,
  .andq r11 r11, .jle .Npos4, .iaddq 1 rax, .label .Npos4,
  .mrmovq 32 rdi r8,
  .mrmovq 40 rdi r9,
  .mrmovq 48 rdi r10,
  .mrmovq 56 rdi r11,
  .rmmovq r8 32 rsi,
  .rmmovq r9 40 rsi,
  .rmmovq r10 48 rsi,
  .rmmovq r11 56 rsi,
  .andq r8 r8, .jle .Npos5, .iaddq 1 rax, .label .Npos5,
  .andq r9 r9, .jle .Npos6, .iaddq 1 rax, .label .Npos6,
  .andq r10 r10, .jle .Npos7, .iaddq 1 rax, .label .Npos7,
  .andq r11 r11, .jle .Npos8, .iaddq 1 rax, .label .Npos8,
  .iaddq 64 rdi,
  .iaddq 64 rsi,
  .iaddq (-8) rdx,
  .jge .Loop,
  .label .Tail,
  .iaddq 8 rdx,
  .jg .TailLoop1,
  .jmp .Done,
  .label .TailLoop1,
  .mrmovq 0 rdi r8,
  .mrmovq 8 rdi r9,
  .rmmovq r8 0 rsi,
  .andq r8 r8, .jle .Npos21, .iaddq 1 rax, .label .Npos21,
  .iaddq (-1) rdx,
  .jg .TailLoop2,
  .jmp .Done,
  .label .TailLoop2,
  .rmmovq r9 8 rsi,
  .andq r9 r9, .jle .Npos22, .iaddq 1 rax, .label .Npos22,
  .iaddq (-1) rdx,
  .jg .TailLoop3,
  .jmp .Done,
  .label .TailLoop3,
  .mrmovq 16 rdi r8,
  .mrmovq 24 rdi r9,
  .rmmovq r8 16 rsi,
  .andq r8 r8, .jle .Npos23, .iaddq 1 rax, .label .Npos23,
  .iaddq (-1) rdx,
  .jg .TailLoop4,
  .jmp .Done,
  .label .TailLoop4,
  .rmmovq r9 24 rsi,
  .andq r9 r9, .jle .Npos24, .iaddq 1 rax, .label .Npos24,
  .iaddq (-1) rdx,
  .jle .Done,
  .mrmovq 32 rdi r8,
  .mrmovq 40 rdi r9,
  .rmmovq r8 32 rsi,
  .andq r8 r8, .jle .Npos25, .iaddq 1 rax, .label .Npos25,
  .iaddq (-1) rdx,
  .jle .Done,
  .rmmovq r9 40 rsi,
  .andq r9 r9, .jle .Npos26, .iaddq 1 rax, .label .Npos26,
  .iaddq (-1) rdx,
  .jle .Done,
  .mrmovq 48 rdi r8,
  .rmmovq r8 48 rsi,
  .andq r8 r8,
  .jle .Done,
  .iaddq 1 rax,
  .label .Done,
  .ret,
  .label .End]

theorem ncopy_labels : (labels ncopy).Nodup := by decide

/-! ## Condition codes -/

/-- The condition codes of a result that did not overflow. -/
def signCC (v : Int) : CC := ⟨decide (v = 0), decide (v < 0), false⟩

@[simp] theorem signCC_le (v : Int) : condHolds (signCC v) 1 = decide (v ≤ 0) := by
  simp [condHolds, signCC, le_iff_lt_or_eq]

@[simp] theorem signCC_ge (v : Int) : condHolds (signCC v) 5 = decide (0 ≤ v) := by
  rw [Bool.eq_iff_iff]
  simp [condHolds, signCC]

@[simp] theorem signCC_g (v : Int) : condHolds (signCC v) 6 = decide (0 < v) := by
  rw [Bool.eq_iff_iff]
  simp [condHolds, signCC]
  omega

theorem toInt_ofInt_small {v : Int} (h : -4294967296 < v ∧ v < 4294967296) :
    (BitVec.ofInt 64 v).toInt = v := by
  rw [BitVec.toInt_ofInt, Int.bmod_eq_of_le] <;> omega

theorem computeCC_add {x y : Int} (hx : -2147483648 < x ∧ x < 2147483648)
    (hy : -2147483648 < y ∧ y < 2147483648) :
    computeCC aAdd (BitVec.ofInt 64 x) (BitVec.ofInt 64 y) = signCC (x + y) := by
  have hv : (BitVec.ofInt 64 x + BitVec.ofInt 64 y).toInt = x + y := by
    rw [← BitVec.ofInt_add, toInt_ofInt_small (by omega)]
  have hx' : (BitVec.ofInt 64 x).toInt = x := toInt_ofInt_small (by omega)
  have hy' : (BitVec.ofInt 64 y).toInt = y := toInt_ofInt_small (by omega)
  have hz : (BitVec.ofInt 64 x + BitVec.ofInt 64 y == 0) = decide (x + y = 0) := by
    rw [← hv]
    exact word_eq_zero _
  simp only [computeCC, computeAlu, if_true, hv, hz, hx',
    hy', signCC]
  rw [CC.mk.injEq]
  refine ⟨rfl, rfl, ?_⟩
  grind

theorem computeCC_and (v : Word) : computeCC aAnd v v = signCC v.toInt := by
  simp [computeCC, computeAlu, signCC, aAnd, aAdd, aSub, word_eq_zero]

/-! ## The call -/

section
variable (s : State)

/-- `src` -/
def srcOf : Nat := (s.r rdi).toNat

/-- `dst` -/
def dstOf : Nat := (s.r rsi).toNat

/-- `len` -/
def lenOf : Nat := (s.r rdx).toNat

/-- `b` is a byte of the `len` source words. -/
def InSrc (b : Nat) : Prop := srcOf s ≤ b ∧ b < srcOf s + 8 * lenOf s

/-- `b` is a byte of the `len` destination words. -/
def InDst (b : Nat) : Prop := dstOf s ≤ b ∧ b < dstOf s + 8 * lenOf s

/-- `src[i]`, as it is at the call. -/
def srcWord (i : Nat) : Word := loadWord s.m.contents (srcOf s + 8 * i)

/-- How many of the first `n` source words are positive. -/
def positives (n : Nat) : Nat := Nat.count (fun i => 0 < (srcWord s i).toInt) n

/-- A state in which `ncopy`, assembled at `base`, has just been called. The
source may be read one word past its end. -/
structure Called (base : Nat) : Prop where
  code : CodeAt s.m base (assemble base ncopy)
  pc : s.pc = BitVec.ofNat 64 base
  src : srcOf s + 8 * (lenOf s + 1) ≤ s.m.len
  dst : 0 < lenOf s → dstOf s + 8 * lenOf s ≤ s.m.len
  stack : spOf s + 8 ≤ s.m.len
  apart_src : ∀ b, InDst s b → ¬InSrc s b
  apart_code : ∀ b, InDst s b → ¬(base ≤ b ∧ b < base + (assemble base ncopy).length)
  apart_stack : ∀ b, InDst s b → ¬(spOf s ≤ b ∧ b < spOf s + 8)

/-- The call again, without the stack, when `avail` words can be read from the
source on. -/
structure Ready (base avail : Nat) : Prop where
  code : CodeAt s.m base (assemble base ncopy)
  pc : s.pc = BitVec.ofNat 64 base
  len_le : lenOf s ≤ avail
  src : 0 < avail → srcOf s + 8 * avail ≤ s.m.len
  dst : 0 < lenOf s → dstOf s + 8 * lenOf s ≤ s.m.len
  apart_src : ∀ b, InDst s b → ¬InSrc s b
  apart_code : ∀ b, InDst s b → ¬(base ≤ b ∧ b < base + (assemble base ncopy).length)

/-- Memory with the first `i` words copied. -/
def copied (i : Nat) : Nat → Byte := fun b =>
  if dstOf s ≤ b ∧ b < dstOf s + 8 * i then s.m.contents (srcOf s + (b - dstOf s))
  else s.m.contents b

/-- The memory with the first `i` words copied. -/
def copiedMem (i : Nat) : Mem := { s.m with contents := copied s i }

end

theorem copied_zero (s : State) : copied s 0 = s.m.contents := by
  funext b
  exact if_neg (by omega)

/-- Storing the next source word copies it. -/
theorem storeWord_copied (s : State) (i : Nat) :
    storeWord (copied s i) (dstOf s + 8 * i) (srcWord s i) = copied s (i + 1) := by
  funext b
  unfold storeWord
  split
  · next h =>
      have hb : copied s (i + 1) b = s.m.contents (srcOf s + (b - dstOf s)) :=
        if_pos (by omega)
      rw [hb, srcWord, loadWord_bytes _ _ (by omega)]
      congr 1
      omega
  · next h =>
      have hiff : dstOf s ≤ b ∧ b < dstOf s + 8 * i ↔
          dstOf s ≤ b ∧ b < dstOf s + 8 * (i + 1) := by omega
      simp only [copied, hiff]

/-- Copying writes destination words only. -/
theorem sameOutside_copied (s : State) {i n : Nat} (hi : i ≤ n) :
    SameOutside (InWords (dstOf s) n) s.m (copiedMem s i) := by
  refine ⟨rfl, fun b hb => if_neg fun hin => hb ?_⟩
  rw [InWords]
  omega

/-- A byte that no destination word covers is never written. -/
theorem copied_of_not_inDst {s : State} {i b : Nat} (hi : i ≤ lenOf s) (h : ¬InDst s b) :
    copied s i b = s.m.contents b :=
  (sameOutside_copied s hi).byte b h

theorem loadWord_copied (s : State) {i n : Nat} (h : i < n) :
    loadWord (copied s n) (dstOf s + 8 * i) = srcWord s i := by
  refine loadWord_eq fun x hx => ?_
  rw [srcWord, loadWord_bytes _ _ hx]
  have hb : copied s n (dstOf s + 8 * i + x) =
      s.m.contents (srcOf s + (dstOf s + 8 * i + x - dstOf s)) := if_pos (by omega)
  exact hb.trans (congrArg s.m.contents (by omega))

variable {base avail : Nat} {s₀ : State}

theorem Called.ready (h : Called s₀ base) : Ready s₀ base (lenOf s₀ + 1) :=
  ⟨h.code, h.pc, Nat.le_succ _, fun _ => h.src, h.dst, h.apart_src, h.apart_code⟩

theorem Ready.len_small (h : Ready s₀ base avail) : lenOf s₀ < 2147483648 - 16 := by
  have hdst := h.dst
  have hlen := s₀.m.len_lt
  omega

theorem Ready.word_unchanged (h : Ready s₀ base avail) {i w : Nat} (hi : i ≤ lenOf s₀)
    (hw : w < lenOf s₀) :
    loadWord (copied s₀ i) (srcOf s₀ + 8 * w) = srcWord s₀ w := by
  refine (sameOutside_copied s₀ hi).word fun b hb hin => h.apart_src b hb ?_
  rw [InSrc]
  omega

theorem Ready.code_unchanged (h : Ready s₀ base avail) {i : Nat} (hi : i ≤ lenOf s₀) :
    CodeAt (copiedMem s₀ i) base (assemble base ncopy) :=
  (sameOutside_copied s₀ hi).code h.code h.apart_code

/-- The registers that only hold words on their way. -/
def scratch : List RegId := [r8, r9, r10, r11]

theorem scratch_ne {x : RegId} (h : x ∈ scratch) :
    x ≠ regNone ∧ rdi ≠ x ∧ rsi ≠ x ∧ rdx ≠ x ∧ rax ≠ x ∧ regRsp ≠ x := by
  revert x
  decide

/-- What a run has done at line `k`. -/
structure Holds (base : Nat) (s₀ : State) (k j i n : Nat) (rem : Int)
    (held : List (RegId × Nat)) (s : State) : Prop where
  pc : AtLine base ncopy k s
  copied_le : i ≤ lenOf s₀
  mem : s.m = copiedMem s₀ i
  src : s.r rdi = BitVec.ofNat 64 (srcOf s₀ + 8 * j)
  dst : s.r rsi = BitVec.ofNat 64 (dstOf s₀ + 8 * j)
  left : s.r rdx = BitVec.ofInt 64 rem
  count : s.r rax = BitVec.ofNat 64 (positives s₀ n)
  stack : s.r regRsp = s₀.r regRsp
  held : ∀ x ∈ held, x.1 ∈ scratch ∧ (x.2 < lenOf s₀ → s.r x.1 = srcWord s₀ x.2)

variable {k j i n : Nat} {rem : Int} {held : List (RegId × Nat)} {s : State}

theorem Holds.code (h : Ready s₀ base avail) (hs : Holds base s₀ k j i n rem held s) :
    CodeAt s.m base (assemble base ncopy) :=
  hs.mem ▸ h.code_unchanged hs.copied_le

theorem Holds.len (hs : Holds base s₀ k j i n rem held s) : s.m.len = s₀.m.len := by
  rw [hs.mem]
  rfl

/-! ## What a step touches -/

/-- The word that the next instruction reads is one of the first `avail` from the
source on, and the word that it writes is one of the destination. -/
def Inside (s₀ : State) (avail : Nat) (s : State) : Prop :=
  ∀ d, decode s.m s.pc = some d →
    (∀ a, loadAddr s d = some a → ∃ w < avail, a = BitVec.ofNat 64 (srcOf s₀ + 8 * w)) ∧
    ∀ a, storeAddr s d = some a → ∃ i < lenOf s₀, a = BitVec.ofNat 64 (dstOf s₀ + 8 * i)

/-- A step before `ret`, inside the arrays. -/
def Touch (s₀ : State) (avail : Nat) (s t : State) : Prop :=
  Aok s t ∧ ¬AtRet s ∧ Inside s₀ avail s

theorem inside_of_line {insn : Insn Label} (hc : CodeAt s.m base (assemble base ncopy))
    (hk : ncopy[k]? = some (.insn insn)) (hpc : AtLine base ncopy k s)
    (hload : ∀ a, loadAddr s (insn.decoded (getNum base ncopy insn.imm) (lineAddr base ncopy k)) =
      some a → ∃ w < avail, a = BitVec.ofNat 64 (srcOf s₀ + 8 * w))
    (hstore : ∀ a, storeAddr s (insn.decoded (getNum base ncopy insn.imm) (lineAddr base ncopy k)) =
      some a → ∃ i < lenOf s₀, a = BitVec.ofNat 64 (dstOf s₀ + 8 * i)) : Inside s₀ avail s := by
  intro d hd
  have hline := decode_line hc hk
  rw [← hpc, hd] at hline
  cases hline
  exact ⟨hload, hstore⟩

/-- An instruction that touches no data. -/
theorem touch_quiet {insn : Insn Label} {t : State} (h : Aok s t)
    (hc : CodeAt s.m base (assemble base ncopy)) (hk : ncopy[k]? = some (.insn insn))
    (hpc : AtLine base ncopy k s) (hq : insn.itype ∈ [.alu, .iaddq, .jmp]) :
    Touch s₀ avail s t := by
  have hret : insn.itype ≠ .ret := by
    intro he
    rw [he] at hq
    revert hq
    decide
  refine ⟨h, not_atRet hc hk hpc hret, inside_of_line hc hk hpc (fun a ha => ?_) fun a ha => ?_⟩
  · simp only [List.mem_cons, List.not_mem_nil, or_false] at hq
    rcases hq with hq | hq | hq <;> simp [loadAddr, Insn.decoded, hq] at ha
  · simp only [List.mem_cons, List.not_mem_nil, or_false] at hq
    rcases hq with hq | hq | hq <;> simp [storeAddr, Insn.decoded, hq] at ha

/-- The address of a load off `%rdi`. -/
theorem loadAddr_mrmovq {d : Word} {rA : RegId} {a : Nat} :
    loadAddr s (Insn.decoded (α := Label) ⟨.mrmovq, 0, rA, rdi, .num d⟩ d a) =
      some (d + s.r rdi) := by
  have hB : rdi ≠ regNone := by decide
  simp [loadAddr, Insn.decoded, needRegids, needImm, regValid, getRegVal, hB]

theorem storeAddr_rmmovq {d : Word} {rA : RegId} {a : Nat} :
    storeAddr s (Insn.decoded (α := Label) ⟨.rmmovq, 0, rA, rsi, .num d⟩ d a) =
      some (d + s.r rsi) := by
  have hB : rsi ≠ regNone := by decide
  simp [storeAddr, Insn.decoded, needRegids, needImm, regValid, getRegVal, hB]

/-- What the scratch registers hold is safe from writes to the others. -/
theorem Holds.held_set (hs : Holds base s₀ k j i n rem held s) {x : RegId} (v : Word)
    (hx : x ∉ scratch) : ∀ y ∈ held, y.1 ∈ scratch ∧
      (y.2 < lenOf s₀ → setRegVal s.r x v y.1 = srcWord s₀ y.2) := by
  intro y hy
  obtain ⟨hy₁, hy₂⟩ := hs.held y hy
  have hne : y.1 ≠ x := fun he => hx (he ▸ hy₁)
  exact ⟨hy₁, fun hl => (setRegVal_ne v hne).trans (hy₂ hl)⟩

theorem Holds.keep (hs : Holds base s₀ k j i n rem held s) {held' : List (RegId × Nat)}
    (hsub : held' ⊆ held) : Holds base s₀ k j i n rem held' s :=
  { hs with held := fun x hx => hs.held x (hsub hx) }

theorem Holds.label (hs : Holds base s₀ k j i n rem held s) {name : Label}
    (hk : ncopy[k]? = some (.label name)) : Holds base s₀ (k + 1) j i n rem held s :=
  { hs with pc := hs.pc.label hk }

/-! ## The idioms -/

theorem Holds.load {t w : Nat} {d : Word} {rA : RegId} (h : Ready s₀ base avail)
    (hs : Holds base s₀ k j i n rem held s) (hk : ncopy[k]? = some (.mrmovq d rdi rA))
    (hd : d = BitVec.ofNat 64 (8 * t)) (hw : w = j + t) (hl : w < avail)
    (hA : rA ∈ scratch) (hh : rA ∉ held.map Prod.fst) :
    Reaches (Touch s₀ avail) s (Holds base s₀ (k + 1) j i n rem ((rA, w) :: held)) := by
  obtain ⟨hn, h7, h6, h2, h0, h4⟩ := scratch_ne hA
  have hlen := hs.len
  have hsrc := h.src (by omega)
  have ha : d + s.r rdi = BitVec.ofNat 64 (srcOf s₀ + 8 * w) := by
    rw [hs.src, hd, ← BitVec.ofNat_add]
    congr 1
    omega
  have hstep := step_mrmovq (hs.code h) hk hs.pc hn (by decide) ha (by omega)
  have hin : Inside s₀ avail s := by
    refine inside_of_line (hs.code h) hk hs.pc (fun a he => ⟨w, hl, ?_⟩) fun a he => ?_
    · have he : some (d + s.r rdi) = some a := loadAddr_mrmovq.symm.trans he
      exact (Option.some.inj he).symm.trans ha
    · cases he
  refine .one ⟨hstep, not_atRet (hs.code h) hk hs.pc (by simp), hin⟩ ?_
  refine ⟨rfl, hs.copied_le, hs.mem, ?_, ?_, ?_, ?_, ?_, ?_⟩
  · exact (setRegVal_ne _ h7).trans hs.src
  · exact (setRegVal_ne _ h6).trans hs.dst
  · exact (setRegVal_ne _ h2).trans hs.left
  · exact (setRegVal_ne _ h0).trans hs.count
  · exact (setRegVal_ne _ h4).trans hs.stack
  · intro x hx
    cases hx with
    | head =>
        refine ⟨hA, fun hw => ?_⟩
        rw [← h.word_unchanged hs.copied_le hw, hs.mem]
        exact setRegVal_self _ hn
    | tail _ hx =>
        obtain ⟨hx₁, hx₂⟩ := hs.held x hx
        have hne : x.1 ≠ rA := fun he => hh (he ▸ List.mem_map_of_mem hx)
        exact ⟨hx₁, fun hw => (setRegVal_ne _ hne).trans (hx₂ hw)⟩

theorem Holds.store {t : Nat} {d : Word} {rA : RegId} (h : Ready s₀ base avail)
    (hs : Holds base s₀ k j i n rem held s) (hk : ncopy[k]? = some (.rmmovq rA d rsi))
    (hd : d = BitVec.ofNat 64 (8 * t)) (hi : i = j + t) (hl : i < lenOf s₀)
    (hw : (rA, i) ∈ held) :
    Reaches (Touch s₀ avail) s (Holds base s₀ (k + 1) j (i + 1) n rem held) := by
  have hlen := hs.len
  have hdst := h.dst (by omega)
  have ha : d + s.r rsi = BitVec.ofNat 64 (dstOf s₀ + 8 * i) := by
    rw [hs.dst, hd, ← BitVec.ofNat_add]
    congr 1
    omega
  have hstep := step_rmmovq (hs.code h) hk hs.pc (scratch_ne (hs.held _ hw).1).1 (by decide) ha
    (by omega)
  have hin : Inside s₀ avail s := by
    refine inside_of_line (hs.code h) hk hs.pc (fun a he => ?_) fun a he => ⟨i, hl, ?_⟩
    · cases he
    · have he : some (d + s.r rsi) = some a := storeAddr_rmmovq.symm.trans he
      exact (Option.some.inj he).symm.trans ha
  refine .one ⟨hstep, not_atRet (hs.code h) hk hs.pc (by simp), hin⟩ ?_
  refine ⟨rfl, hl, ?_, hs.src, hs.dst, hs.left, hs.count, hs.stack, hs.held⟩
  rw [(hs.held _ hw).2 hl, hs.mem]
  exact congrArg (fun f => { s₀.m with contents := f }) (storeWord_copied s₀ i)

/-- `andq`, `jle`, `iaddq $1`, and the label behind them. -/
theorem Holds.countWord {name : Label} {rA : RegId} (h : Ready s₀ base avail)
    (hs : Holds base s₀ k j i n rem held s) (hk₀ : ncopy[k]? = some (.andq rA rA))
    (hk₁ : ncopy[k + 1]? = some (.jle name)) (hk₂ : ncopy[k + 2]? = some (.iaddq 1 rax))
    (hk₃ : ncopy[k + 3]? = some (.label name)) (hl : n < lenOf s₀) (hw : (rA, n) ∈ held) :
    Reaches (Touch s₀ avail) s (Holds base s₀ (k + 4) j i (n + 1) rem held) := by
  have hn := (scratch_ne (hs.held _ hw).1).1
  have hv : s.r rA = srcWord s₀ n := (hs.held _ hw).2 hl
  have hand := step_test (hs.code h) hk₀ hs.pc hn
  rw [computeCC_and, hv] at hand
  refine (Reaches.one (touch_quiet hand (hs.code h) hk₀ hs.pc (by simp))
    (Q := fun t => Holds base s₀ (k + 1) j i n rem held t ∧
      t.cc = signCC (srcWord s₀ n).toInt) ⟨{ hs with pc := rfl }, rfl⟩).andThen ?_
  intro s ⟨hs, hcc⟩
  have hjle : Touch s₀ avail s _ := touch_quiet
    (step_jxx (hs.code h) ncopy_labels hk₁ hk₃ hs.pc) (hs.code h) hk₁ hs.pc (by simp)
  have hle : condHolds s.cc 1 = decide ((srcWord s₀ n).toInt ≤ 0) := by rw [hcc, signCC_le]
  rw [hle] at hjle
  by_cases hpos : (srcWord s₀ n).toInt ≤ 0
  · rw [if_pos (by simpa using hpos)] at hjle
    have hcount : positives s₀ (n + 1) = positives s₀ n := by
      simp [positives, Nat.count_succ, hpos]
    have hs' : Holds base s₀ (k + 3) j i (n + 1) rem held
        { s with pc := BitVec.ofNat 64 (lineAddr base ncopy (k + 3)) } :=
      { hs with pc := rfl, count := hcount ▸ hs.count }
    exact .one hjle (hs'.label hk₃)
  · rw [if_neg (by simpa using hpos)] at hjle
    have hcount : positives s₀ (n + 1) = positives s₀ n + 1 := by
      simp [positives, Nat.count_succ, not_le.mp hpos]
    have hs' : Holds base s₀ (k + 2) j i n rem held
        { s with pc := BitVec.ofNat 64 (lineAddr base ncopy (k + 2)) } :=
      { hs with pc := rfl }
    refine (Reaches.one hjle hs').andThen ?_
    intro s hs
    refine .one (touch_quiet (step_iaddq (hs.code h) hk₂ hs.pc (by decide)) (hs.code h) hk₂
      hs.pc (by simp)) ?_
    have hs' : Holds base s₀ (k + 3) j i (n + 1) rem held { s with
        r := setRegVal s.r rax (s.r rax + 1)
        cc := computeCC aAdd 1 (s.r rax)
        pc := BitVec.ofNat 64 (lineAddr base ncopy (k + 3)) } := by
      refine ⟨rfl, hs.copied_le, hs.mem, hs.src, hs.dst, hs.left, ?_, hs.stack,
        hs.held_set _ (by decide)⟩
      have hset : setRegVal s.r rax (s.r rax + 1) rax = s.r rax + 1 :=
        setRegVal_self _ (by decide)
      rw [hcount, BitVec.ofNat_add, ← hs.count]
      exact hset
    exact hs'.label hk₃

/-- `iaddq $64` on both pointers. -/
theorem Holds.advance (h : Ready s₀ base avail) (hs : Holds base s₀ k j i n rem held s)
    (hk₀ : ncopy[k]? = some (.iaddq 64 rdi)) (hk₁ : ncopy[k + 1]? = some (.iaddq 64 rsi)) :
    Reaches (Touch s₀ avail) s (Holds base s₀ (k + 2) (j + 8) i n rem []) := by
  have h64 : ∀ a : Nat, BitVec.ofNat 64 (a + 8 * j) + 64 = BitVec.ofNat 64 (a + 8 * (j + 8)) := by
    intro a
    rw [Nat.mul_add, ← Nat.add_assoc]
    exact (BitVec.ofNat_add _ 64).symm
  have hc := hs.code h
  have hstep₀ := step_iaddq hc hk₀ hs.pc (by decide)
  let r₁ := setRegVal s.r rdi (s.r rdi + 64)
  have hkeep : ∀ {x : RegId}, x ≠ rdi → r₁ x = s.r x := fun hx => setRegVal_ne _ hx
  have hstep₁ := step_iaddq (s := { s with
    r := r₁
    cc := computeCC aAdd 64 (s.r rdi)
    pc := BitVec.ofNat 64 (lineAddr base ncopy (k + 1)) }) hc hk₁ rfl (by decide)
  have hkeep₁ : ∀ {x : RegId}, x ≠ rdi → x ≠ rsi →
      setRegVal r₁ rsi (r₁ rsi + 64) x = s.r x :=
    fun h7 h6 => (setRegVal_ne _ h6).trans (hkeep h7)
  have htouch₀ : Touch s₀ avail s _ := touch_quiet hstep₀ hc hk₀ hs.pc (by simp)
  have htouch₁ : Touch s₀ avail _ _ := touch_quiet hstep₁ hc hk₁ rfl (by simp)
  refine ⟨_, (Relation.ReflTransGen.single htouch₀).tail htouch₁, rfl, hs.copied_le, hs.mem, ?_, ?_,
    (hkeep₁ (by decide) (by decide)).trans hs.left,
    (hkeep₁ (by decide) (by decide)).trans hs.count,
    (hkeep₁ (by decide) (by decide)).trans hs.stack, by simp⟩
  · have h7 : r₁ rdi = s.r rdi + 64 := setRegVal_self _ (by decide)
    rw [← h64, ← hs.src, ← h7]
    exact setRegVal_ne (r₁ rsi + 64) (by decide : rdi ≠ rsi)
  · have hsi : r₁ rsi = s.r rsi := hkeep (by decide)
    have h6 : setRegVal r₁ rsi (r₁ rsi + 64) rsi = r₁ rsi + 64 := setRegVal_self _ (by decide)
    rw [← h64, ← hs.dst, ← hsi]
    exact h6

/-- `iaddq` on what is left, and the jump on its sign. -/
theorem Holds.branch {d : Int} {v : Word} {c : Fun} {name : Label} {e : Nat}
    (h : Ready s₀ base avail) (hs : Holds base s₀ k j i n rem held s)
    (hk₀ : ncopy[k]? = some (.iaddq v rdx)) (hk₁ : ncopy[k + 1]? = some (.jxx c name))
    (hdest : ncopy[e]? = some (.label name)) (hv : v = BitVec.ofInt 64 d)
    (hd : -2147483648 < d ∧ d < 2147483648) (hr : -2147483648 < rem ∧ rem < 2147483648) :
    Reaches (Touch s₀ avail) s (Holds base s₀ (if condHolds (signCC (d + rem)) c then e else k + 2)
      j i n (rem + d) held) := by
  have hc := hs.code h
  have hstep₀ := step_iaddq hc hk₀ hs.pc (by decide)
  rw [hs.left, hv, computeCC_add hd hr, ← BitVec.ofInt_add] at hstep₀
  let r₁ := setRegVal s.r rdx (BitVec.ofInt 64 (rem + d))
  have hkeep : ∀ {x : RegId}, x ≠ rdx → r₁ x = s.r x := fun hx => setRegVal_ne _ hx
  have hleft : r₁ rdx = BitVec.ofInt 64 (rem + d) := setRegVal_self _ (by decide)
  have hstep₁ := step_jxx (s := { s with
    r := r₁
    cc := signCC (d + rem)
    pc := BitVec.ofNat 64 (lineAddr base ncopy (k + 1)) }) hc ncopy_labels hk₁ hdest rfl
  have htouch₀ : Touch s₀ avail s _ := touch_quiet hstep₀ hc hk₀ hs.pc (by simp)
  have htouch₁ : Touch s₀ avail _ _ := touch_quiet hstep₁ hc hk₁ rfl (by simp)
  refine ⟨_, (Relation.ReflTransGen.single htouch₀).tail htouch₁, rfl, hs.copied_le, hs.mem,
    (hkeep (by decide)).trans hs.src, (hkeep (by decide)).trans hs.dst, hleft,
    (hkeep (by decide)).trans hs.count, (hkeep (by decide)).trans hs.stack,
    hs.held_set _ (by decide)⟩

theorem Holds.jmp {name : Label} {e : Nat} (h : Ready s₀ base avail)
    (hs : Holds base s₀ k j i n rem held s) (hk : ncopy[k]? = some (.jmp name))
    (hdest : ncopy[e]? = some (.label name)) :
    Reaches (Touch s₀ avail) s (Holds base s₀ e j i n rem held) :=
  .one (touch_quiet (step_jxx (hs.code h) ncopy_labels hk hdest hs.pc) (hs.code h) hk hs.pc
      (by simp))
    ⟨rfl, hs.copied_le, hs.mem, hs.src, hs.dst, hs.left, hs.count, hs.stack, hs.held⟩

end Csapp.Y86
