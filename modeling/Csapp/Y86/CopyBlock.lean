import Mathlib
import Csapp.Y86.Ncopy

/-!
# `copy_block`

The loop of `copy.ys` beside the C function it is written from. The C loop runs
while `len > 0`, the assembled one until `%rdx` is zero, and for lengths that are
not negative these are the same test. For the others the C function does nothing.
The assembled one would need `2 ^ 63` rounds or more to get to zero, and long
before that its source pointer has left memory.

So the loop is looked at twice, by the rules for its lines both times. Once each
round copies the next word, and once each round that can be made at all changes
nothing, moves the source pointer on, and is one of finitely many.
-/

namespace Csapp.Y86

/-- The labels of `copy.ys`. -/
inductive CopyLabel
  | copy_block | loop | exit
deriving DecidableEq, Repr

/-- `copy.ys`, from `copy_block` on. -/
def copyBlock : List (Line CopyLabel) := [
  .label .copy_block,
  .irmovq 0 rax,
  .irmovq 1 r8,
  .irmovq 8 r9,
  .label .loop,
  .andq rdx rdx,
  .je .exit,
  .mrmovq 0 rdi rcx,
  .rmmovq rcx 0 rsi,
  .addq r9 rdi,
  .addq r9 rsi,
  .xorq rcx rax,
  .subq r8 rdx,
  .jmp .loop,
  .label .exit,
  .ret]

theorem copyBlock_labels : (labels copyBlock).Nodup := by decide

/-! ## The C function -/

/-- The loop of `copy_block` in `examples.c`: what is in memory, and `result`. -/
def copyBlockLoop (contents : Nat → Byte) (src dest : Nat) (len : Int) (result : Word) :
    (Nat → Byte) × Word :=
  if 0 < len then
    let val := loadWord contents src
    copyBlockLoop (storeWord contents dest val) (src + 8) (dest + 8) (len - 1) (result ^^^ val)
  else (contents, result)
termination_by len.toNat
decreasing_by omega

/-- `copy_block` of `examples.c`. -/
def copyBlockC (contents : Nat → Byte) (src dest : Nat) (len : Int) : (Nat → Byte) × Word :=
  copyBlockLoop contents src dest len 0

/-! ## The call -/

section
variable (s : State)

/-- `max(len, 0)`, for the signed `len` in `%rdx`. -/
def copyLen : Nat := (s.r rdx).toInt.toNat

/-- The exclusive or of the first `n` source words. -/
def checksum (n : Nat) : Word := (List.range n).foldl (fun x i => x ^^^ srcWord s i) 0

/-- A state in which `copy_block`, assembled at `base`, has just been called. -/
structure BlockCall (base : Nat) : Prop where
  code : CodeAt s.m base (assemble base copyBlock)
  pc : s.pc = BitVec.ofNat 64 base
  src : 0 < copyLen s → srcOf s + 8 * copyLen s ≤ s.m.len
  dest : 0 < copyLen s → dstOf s + 8 * copyLen s ≤ s.m.len
  apart_src : ∀ b, InWords (dstOf s) (copyLen s) b → ¬InWords (srcOf s) (copyLen s) b
  apart_code : ∀ b, InWords (dstOf s) (copyLen s) b →
    ¬(base ≤ b ∧ b < base + (assemble base copyBlock).length)
  apart_stack : ∀ b, InWords (dstOf s) (copyLen s) b → ¬InWords (spOf s) 1 b

/-- At the `ret`, with what the call was for. The stack pointer and the return address are
those of the call. -/
structure BlockCopied (t : State) : Prop where
  at_ret : AtRet t
  copied : ∀ i < copyLen s, loadWord t.m.contents (dstOf s + 8 * i) = srcWord s i
  checksum : t.r rax = checksum s (copyLen s)
  mem : SameOutside (InWords (dstOf s) (copyLen s)) s.m t.m
  spec : (t.m.contents, t.r rax) =
    copyBlockC s.m.contents (srcOf s) (dstOf s) (s.r rdx).toInt
  stack : t.r regRsp = s.r regRsp
  return_word : loadWord t.m.contents (spOf s) = loadWord s.m.contents (spOf s)

/-- The call comes to its `ret` with no fault, and nothing but the destination words is
written on the way. -/
def CopiesBlock : Prop :=
  Reaches (Keeps False (InWords (dstOf s) (copyLen s))) s (BlockCopied s)

end

/-! ## The loop -/

/-- Behind the label `loop`. -/
structure InLoop (base : Nat) (m : Mem) (src dest left result sp : Word) (s : State) : Prop where
  pc : AtLine base copyBlock 5 s
  mem : s.m = m
  src : s.r rdi = src
  dest : s.r rsi = dest
  left : s.r rdx = left
  result : s.r rax = result
  one : s.r r8 = 1
  eight : s.r r9 = 8
  stack : s.r regRsp = sp

section
variable {base : Nat} {m m' : Mem} {src dest left result sp v : Word} {s t : State}
  {rets : Prop} {P : Nat → Prop}

theorem reaches_loop (hc : CodeAt s.m base (assemble base copyBlock))
    (hpc : AtLine base copyBlock 0 s) :
    Reaches (Keeps rets P) s (InLoop base s.m (s.r rdi) (s.r rsi) (s.r rdx) 0 (s.r regRsp)) := by
  have hs : At base copyBlock 0 s.m s.r s := ⟨hpc, rfl, rfl⟩
  refine ((hs.label rfl).irmovq hc rfl (by decide)).andThen fun t ht => ?_
  refine (ht.irmovq hc rfl (by decide)).andThen fun t ht => ?_
  refine (ht.irmovq hc rfl (by decide)).mono fun t ht => ?_
  have ht := ht.label rfl
  refine ⟨ht.pc, ht.mem, ?_, ?_, ?_, ?_, ?_, ?_, ?_⟩
  all_goals
    rw [ht.regs]
    simp (disch := decide) only [setRegVal_self, setRegVal_ne]

theorem InLoop.test (hs : InLoop base m src dest left result sp s)
    (hc : CodeAt m base (assemble base copyBlock)) :
    Reaches (Keeps rets P) s (At base copyBlock (if left == 0 then 14 else 7) m s.r) := by
  have hat : At base copyBlock 5 m s.r s := ⟨hs.pc, hs.mem, rfl⟩
  refine hat.test hc copyBlock_labels rfl rfl (j := 14) rfl (by decide) ?_
  rw [test_je, hs.left]
  rfl

/-- From the store on, a round is without memory accesses. -/
theorem InLoop.rest (hs : InLoop base m src dest left result sp s)
    (hc : CodeAt m' base (assemble base copyBlock))
    (ht : At base copyBlock 9 m' (setRegVal s.r rcx v) t) :
    Reaches (Keeps rets P) t
      (InLoop base m' (src + 8) (dest + 8) (left - 1) (result ^^^ v) sp) := by
  refine (ht.addq hc rfl (by decide) (by decide)).andThen fun t ht => ?_
  refine (ht.addq hc rfl (by decide) (by decide)).andThen fun t ht => ?_
  refine (ht.xorq hc rfl (by decide) (by decide)).andThen fun t ht => ?_
  refine (ht.subq hc rfl (by decide) (by decide)).andThen fun t ht => ?_
  refine (ht.jmp hc copyBlock_labels rfl (j := 4) rfl).mono fun t ht => ?_
  have ht := ht.label rfl
  refine ⟨ht.pc, ht.mem, ?_, ?_, ?_, ?_, ?_, ?_, ?_⟩
  all_goals
    rw [ht.regs]
    simp (disch := decide) only [setRegVal_self, setRegVal_ne]
  · rw [hs.eight, hs.src, BitVec.add_comm]
  · rw [hs.eight, hs.dest, BitVec.add_comm]
  · rw [hs.left, hs.one]
  · rw [hs.result, BitVec.xor_comm]
  · exact hs.one
  · exact hs.eight
  · exact hs.stack

end

/-! ## Lengths that are not negative -/

section
variable {base i n : Nat} {sp : Word} {s t : State}

theorem BlockCall.at (h : BlockCall s base) : AtLine base copyBlock 0 s := by
  rw [AtLine, lineAddr_zero]
  exact h.pc

theorem checksum_succ (s : State) (n : Nat) :
    checksum s (n + 1) = checksum s n ^^^ srcWord s n := by
  rw [checksum, List.range_succ, List.foldl_append]
  rfl

/-- No store of the loop reaches a source word. -/
theorem BlockCall.word_unchanged (h : BlockCall s base) {w : Nat} (hi : i ≤ copyLen s)
    (hw : w < copyLen s) : loadWord (copied s i) (srcOf s + 8 * w) = srcWord s w := by
  refine (sameOutside_copied s hi).word fun b hb hin => h.apart_src b hb ?_
  rw [InWords]
  omega

theorem BlockCall.code_unchanged (h : BlockCall s base) (hi : i ≤ copyLen s) :
    CodeAt (copiedMem s i) base (assemble base copyBlock) :=
  (sameOutside_copied s hi).code h.code h.apart_code

theorem BlockCall.loop_copies (h : BlockCall s base) (k : Nat) :
    ∀ {i : Nat}, i + k = copyLen s →
      copyBlockLoop (copied s i) (srcOf s + 8 * i) (dstOf s + 8 * i) k (checksum s i) =
        (copied s (copyLen s), checksum s (copyLen s)) := by
  induction k with
  | zero =>
    intro i hi
    rw [copyBlockLoop, if_neg (by omega), ← hi]
    rfl
  | succ k ih =>
    intro i hi
    have hnext := ih (i := i + 1) (by omega)
    rw [copyBlockLoop, if_pos (by omega)]
    dsimp only
    rw [h.word_unchanged (by omega) (by omega), storeWord_copied, ← checksum_succ,
      Nat.add_assoc, Nat.add_assoc, Nat.cast_succ, Int.add_sub_cancel]
    exact hnext

theorem InLoop.round (h : BlockCall s base) (hi : i < copyLen s) {left : Word} (hleft : left ≠ 0)
    (ht : InLoop base (copiedMem s i) (BitVec.ofNat 64 (srcOf s + 8 * i))
      (BitVec.ofNat 64 (dstOf s + 8 * i)) left (checksum s i) sp t) :
    Reaches (Keeps False (InWords (dstOf s) (copyLen s))) t
      (InLoop base (copiedMem s (i + 1)) (BitVec.ofNat 64 (srcOf s + 8 * (i + 1)))
        (BitVec.ofNat 64 (dstOf s + 8 * (i + 1))) (left - 1) (checksum s (i + 1)) sp) := by
  have hsrc := h.src (by omega)
  have hdest := h.dest (by omega)
  have hc := h.code_unchanged (Nat.le_of_lt hi)
  have haddr : ∀ a, BitVec.ofNat 64 (a + 8 * (i + 1)) = BitVec.ofNat 64 (a + 8 * i) + 8 :=
    fun a => BitVec.ofNat_add (a + 8 * i) 8
  have hword := h.word_unchanged (Nat.le_of_lt hi) hi
  have hstored : (copiedMem s i).stored (dstOf s + 8 * i) (srcWord s i) = copiedMem s (i + 1) :=
    congrArg (fun f => { s.m with contents := f }) (storeWord_copied s i)
  refine (ht.test hc).andThen fun u hu => ?_
  rw [if_neg (by simpa using hleft)] at hu
  refine (hu.mrmovq hc rfl (by decide) (by decide) ((BitVec.zero_add _).trans ht.src)
    (Nat.le_trans (by omega) hsrc)).andThen fun u hu => ?_
  rw [show loadWord (copiedMem s i).contents (srcOf s + 8 * i) = srcWord s i from hword] at hu
  have hrcx : setRegVal t.r rcx (srcWord s i) rcx = srcWord s i := setRegVal_self _ (by decide)
  have hrsi : setRegVal t.r rcx (srcWord s i) rsi = BitVec.ofNat 64 (dstOf s + 8 * i) :=
    (setRegVal_ne _ (by decide)).trans ht.dest
  refine (hu.rmmovq hc rfl (by decide) (by decide) ((BitVec.zero_add _).trans hrsi)
    (Nat.le_trans (by omega) hdest) ?_).andThen fun u hu => ?_
  · refine sameOutside_stored _ _ fun b hb => ?_
    rw [InWords]
    omega
  rw [hrcx, hstored] at hu
  rw [haddr, haddr, checksum_succ]
  exact ht.rest (h.code_unchanged hi) hu

/-- At `exit` with everything copied. -/
theorem InLoop.exit (h : BlockCall s base) (hlen : 0 ≤ (s.r rdx).toInt)
    (ht : InLoop base (copiedMem s (copyLen s)) (BitVec.ofNat 64 (srcOf s + 8 * copyLen s))
      (BitVec.ofNat 64 (dstOf s + 8 * copyLen s)) 0 (checksum s (copyLen s)) (s.r regRsp) t) :
    Reaches (Keeps False (InWords (dstOf s) (copyLen s))) t (BlockCopied s) := by
  have hc := h.code_unchanged (Nat.le_refl (copyLen s))
  have hsame := sameOutside_copied s (Nat.le_refl (copyLen s))
  refine (ht.test hc).mono fun u hu => ?_
  have hu := At.label (k := 14) hu rfl
  have hloop := h.loop_copies (copyLen s) (Nat.zero_add _)
  rw [copied_zero, copyLen, Int.toNat_of_nonneg hlen] at hloop
  refine ⟨?_, ?_, ?_, hu.mem ▸ hsame, ?_, ?_, ?_⟩
  · exact atRet_of_line (hu.mem ▸ hc) rfl hu.pc rfl
  · intro i hi
    rw [hu.mem]
    exact loadWord_copied s hi
  · rw [hu.regs, ht.result]
  · rw [hu.mem, hu.regs, ht.result]
    exact hloop.symm
  · rw [hu.regs, ht.stack]
  · rw [hu.mem]
    exact hsame.word h.apart_stack

theorem copies_from (h : BlockCall s base) (hlen : 0 ≤ (s.r rdx).toInt) (k : Nat) :
    ∀ {i t}, i + k = copyLen s →
      InLoop base (copiedMem s i) (BitVec.ofNat 64 (srcOf s + 8 * i))
        (BitVec.ofNat 64 (dstOf s + 8 * i)) (BitVec.ofNat 64 k) (checksum s i) (s.r regRsp) t →
      Reaches (Keeps False (InWords (dstOf s) (copyLen s))) t (BlockCopied s) := by
  induction k with
  | zero =>
    intro i t hi ht
    obtain rfl : i = copyLen s := hi
    exact ht.exit h hlen
  | succ k ih =>
    intro i t hi ht
    have hdest := h.dest (by omega)
    have hm := s.m.len_lt
    have hleft : BitVec.ofNat 64 (k + 1) ≠ 0 := by
      intro hz
      have hnat := congrArg BitVec.toNat hz
      rw [toNat_small (by omega)] at hnat
      exact absurd hnat (Nat.succ_ne_zero k)
    refine (ht.round h (by omega) hleft).andThen fun u hu => ?_
    rw [show BitVec.ofNat 64 (k + 1) - 1 = BitVec.ofNat 64 k from ofNat_add_sub k 1] at hu
    exact ih (by omega) hu

theorem copiesBlock_of_nonneg (h : BlockCall s base) (hlen : 0 ≤ (s.r rdx).toInt) :
    CopiesBlock s := by
  have hleft : s.r rdx = BitVec.ofNat 64 (copyLen s) := by
    have htoNat : copyLen s = (s.r rdx).toNat := by
      rw [copyLen, BitVec.toInt_eq_toNat_cond] at *
      split at hlen <;> omega
    rw [htoNat, BitVec.ofNat_toNat, BitVec.setWidth_eq]
  refine (reaches_loop h.code h.at).andThen fun t ht => ?_
  refine copies_from h hlen (copyLen s) (i := 0) (Nat.zero_add _) ?_
  have hmem : copiedMem s 0 = s.m := by
    rw [copiedMem, copied_zero]
  rw [hmem, ← hleft, Nat.mul_zero, Nat.add_zero, Nat.add_zero, srcOf, dstOf, BitVec.ofNat_toNat,
    BitVec.ofNat_toNat, BitVec.setWidth_eq, BitVec.setWidth_eq]
  exact ht

end

/-! ## Negative lengths -/

section
variable {base : Nat} {m : Mem} {src dest left result sp : Word} {s t : State} {P : Nat → Prop}

/-- A round that comes back to its head has moved the source pointer on, from a word in
memory. -/
theorem InLoop.round_or_stuck (hP : ∀ b, ¬P b) (hc : CodeAt m base (assemble base copyBlock))
    (hleft : left ≠ 0) (hs : InLoop base m src dest left result sp s) :
    Reaches (Keeps False P) s fun t => Stuck P t ∨
      ¬NoWord m src ∧ ∃ result, InLoop base m (src + 8) (dest + 8) (left - 1) result sp t := by
  refine (hs.test hc).andThen fun t ht => ?_
  rw [if_neg (by simpa using hleft)] at ht
  refine (ht.load_or_stuck hc rfl (by decide) (by decide)).andThen fun t ht => ?_
  cases ht with
  | inl hstuck => exact .here (.inl hstuck)
  | inr ht =>
    obtain ⟨hsrc, v, ht⟩ := ht
    have haddr : 0 + s.r rdi = src := (BitVec.zero_add _).trans hs.src
    rw [haddr] at hsrc
    refine (ht.store_or_stuck hP hc rfl (by decide) (by decide)).andThen fun t ht => ?_
    cases ht with
    | inl hstuck => exact .here (.inl hstuck)
    | inr ht => exact (hs.rest hc ht).mono fun u hu => .inr ⟨hsrc, _, hu⟩

/-- `n` rounds take the source pointer out of memory, and the counter is not zero before. -/
theorem InLoop.reaches_stuck (hP : ∀ b, ¬P b) (hc : CodeAt m base (assemble base copyBlock))
    (n : Nat) : ∀ {src dest left result : Word} {s : State}, m.len < src.toNat + 8 * n →
      n < left.toNat → InLoop base m src dest left result sp s →
      Reaches (Keeps False P) s (Stuck P) := by
  induction n with
  | zero =>
    intro src dest left result s hsrc hleft hs
    have hne : left ≠ 0 := fun hz => absurd hleft (by rw [hz]; exact Nat.lt_irrefl 0)
    refine (hs.round_or_stuck hP hc hne).mono fun t ht => ht.resolve_right fun ht => ?_
    have hin := toNat_of_word ht.1
    omega
  | succ n ih =>
    intro src dest left result s hsrc hleft hs
    have hne : left ≠ 0 := fun hz => absurd hleft (by rw [hz]; exact Nat.not_lt_zero _)
    refine (hs.round_or_stuck hP hc hne).andThen fun t ht => ?_
    cases ht with
    | inl hstuck => exact .here hstuck
    | inr ht =>
      obtain ⟨hin, result', ht⟩ := ht
      have hlt := m.len_lt
      have hin := toNat_of_word hin
      refine ih ?_ ?_ ht
      · rw [BitVec.toNat_add]
        change _ < (src.toNat + 8) % 2 ^ 64 + _
        omega
      · rw [BitVec.toNat_sub]
        change _ < (2 ^ 64 - 1 + left.toNat) % 2 ^ 64
        omega

theorem not_copiesBlock_of_neg (h : BlockCall s base) (hneg : (s.r rdx).toInt < 0) :
    ¬CopiesBlock s := by
  have hP : ∀ b, ¬InWords (dstOf s) (copyLen s) b := by
    intro b hb
    rw [InWords, copyLen, Int.toNat_of_nonpos (Int.le_of_lt hneg)] at hb
    omega
  have hleft : 2 ^ 28 < (s.r rdx).toNat := by
    rw [BitVec.toInt_eq_toNat_cond] at hneg
    split at hneg <;> omega
  have hm := s.m.len_lt
  intro hcopies
  refine not_reaches_ret ?_ (hcopies.mono fun t ht => ht.at_ret)
  refine (reaches_loop h.code h.at).andThen fun t ht => ?_
  exact ht.reaches_stuck hP h.code (2 ^ 28) (by omega) hleft

/-- `copy_block` does what its C function does exactly if the length is not negative. -/
theorem copiesBlock_iff (h : BlockCall s base) : CopiesBlock s ↔ 0 ≤ (s.r rdx).toInt := by
  refine ⟨fun hcopies => ?_, copiesBlock_of_nonneg h⟩
  by_contra hneg
  exact not_copiesBlock_of_neg h (Int.not_le.mp hneg) hcopies

/-- A first word that is not in memory, whatever may be written. -/
theorem not_reaches_ret_of_noWord (h : BlockCall s base) (hlen : s.r rdx ≠ 0)
    (hsrc : NoWord s.m (s.r rdi)) : ¬Reaches (Keeps False P) s AtRet := by
  refine not_reaches_ret ((reaches_loop h.code h.at).andThen fun t ht => ?_)
  refine (ht.test h.code).andThen fun u hu => ?_
  rw [if_neg (by simpa using hlen)] at hu
  refine (hu.load_or_stuck h.code rfl (by decide) (by decide)).mono fun v hv => ?_
  have haddr : 0 + t.r rdi = s.r rdi := (BitVec.zero_add _).trans ht.src
  refine hv.resolve_right fun hw => ?_
  rw [haddr] at hw
  exact hw.1 hsrc

end

/-- A call with the code at address 0, the words 5, -3 and 7 at 512, the destination at
1024 and the stack at 2048. -/
def copyCall (src len : Word) : State where
  pc := 0
  r := fun x => if x = rdi then src else if x = rsi then 1024 else if x = rdx then len
    else if x = regRsp then 2048 else 0
  m := ⟨image (assemble 0 copyBlock) 512 [5, -3, 7], 8192, memSize_lt⟩
  cc := defaultCC

theorem length_copyBlock (base : Nat) : (assemble base copyBlock).length = 79 := by
  rw [length_assemble]
  rfl

theorem copyCall_code (src len : Word) :
    CodeAt (copyCall src len).m 0 (assemble 0 copyBlock) := by
  refine codeAt_image memSize_lt ?_ (by decide)
  rw [length_copyBlock]
  decide

theorem copyCall_three : BlockCall (copyCall 512 3) 0 := by
  have hsrc : srcOf (copyCall 512 3) = 512 := rfl
  have hdst : dstOf (copyCall 512 3) = 1024 := rfl
  have hlen : copyLen (copyCall 512 3) = 3 := rfl
  have hsp : spOf (copyCall 512 3) = 2048 := rfl
  have hm : (copyCall 512 3).m.len = 8192 := rfl
  have hcode := length_copyBlock 0
  refine ⟨copyCall_code 512 3, rfl, by omega, by omega, ?_, ?_, ?_⟩
  all_goals
    intro b
    simp only [InWords]
    omega

/-- Three words of both signs are copied. -/
theorem copiesBlock_iff_three :
    (∀ i < 3, loadWord (copyCall 512 3).m.contents (512 + 8 * i) = [5, -3, 7].getD i 0) ∧
      CopiesBlock (copyCall 512 3) := by
  refine ⟨fun i hi => ?_, (copiesBlock_iff copyCall_three).mpr (by decide)⟩
  interval_cases i <;> decide +kernel

theorem copyCall_negative : BlockCall (copyCall 8192 (-1)) 0 := by
  have hlen : copyLen (copyCall 8192 (-1)) = 0 := rfl
  refine ⟨copyCall_code 8192 (-1), rfl, by omega, by omega, ?_, ?_, ?_⟩
  all_goals
    intro b
    simp only [InWords]
    omega

/-- With nothing to copy, the load of a first word is tried, and it faults. -/
theorem copyBlock_negative_faults :
    BlockCall (copyCall 8192 (-1)) 0 ∧ ¬CopiesBlock (copyCall 8192 (-1)) ∧
      ¬Reaches (Keeps False fun _ => True) (copyCall 8192 (-1)) AtRet := by
  have hsrc : NoWord (copyCall 8192 (-1)).m ((copyCall 8192 (-1)).r rdi) := by
    right
    decide
  have hlen : (copyCall 8192 (-1)).r rdx ≠ 0 := by decide
  refine ⟨copyCall_negative, fun hcopies => ?_, ?_⟩
  · exact not_reaches_ret_of_noWord copyCall_negative hlen hsrc
      (hcopies.mono fun t ht => ht.at_ret)
  · exact not_reaches_ret_of_noWord copyCall_negative hlen hsrc

end Csapp.Y86
