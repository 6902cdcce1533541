import Mathlib
import Csapp.Lib.Reach
import Csapp.Y86.Asm

/-!
# Assembled code, line by line

`At` is a state without its condition codes: a line of the source, memory and the
registers. There is one rule for each instruction, and one for a test with the
jump behind it, which is the only reader of the condition codes the test sets.

Memory is compared by `SameOutside`: what was anywhere but in a given region is
still there. A step that leaves everything outside the region alone is `Keeps`, so a
rule for an instruction that stores asks where, and a run by the rules has written
nothing else on its way.
-/

namespace Csapp.Y86

/-! ## Regions -/

/-- `b` is a byte of the `n` words from `a` on. -/
def InWords (a n b : Nat) : Prop := a ≤ b ∧ b < a + 8 * n

/-- The memories differ at bytes of `P` only. -/
structure SameOutside (P : Nat → Prop) (m m' : Mem) : Prop where
  len : m'.len = m.len
  byte : ∀ b, ¬P b → m'.contents b = m.contents b

section
variable {P Q : Nat → Prop} {m m' m'' : Mem} {a : Nat}

theorem SameOutside.refl (P : Nat → Prop) (m : Mem) : SameOutside P m m :=
  ⟨rfl, fun _ _ => rfl⟩

theorem SameOutside.trans (h : SameOutside P m m') (h' : SameOutside P m' m'') :
    SameOutside P m m'' :=
  ⟨h'.len.trans h.len, fun b hb => (h'.byte b hb).trans (h.byte b hb)⟩

theorem SameOutside.mono (h : SameOutside P m m') (hsub : ∀ b, P b → Q b) :
    SameOutside Q m m' :=
  ⟨h.len, fun b hb => h.byte b fun hP => hb (hsub b hP)⟩

theorem sameOutside_stored (m : Mem) (val : Word) (h : ∀ b, a ≤ b ∧ b < a + 8 → P b) :
    SameOutside P m (m.stored a val) :=
  ⟨rfl, fun b hb => if_neg fun hin => hb (h b hin)⟩

theorem SameOutside.word (h : SameOutside P m m') (hP : ∀ b, P b → ¬(a ≤ b ∧ b < a + 8)) :
    loadWord m'.contents a = loadWord m.contents a :=
  loadWord_congr fun _ _ => h.byte _ fun hb => hP _ hb (by omega)

theorem SameOutside.eq (h : SameOutside P m m') (hP : ∀ b, ¬P b) : m' = m := by
  have hl := h.len
  have hc : m'.contents = m.contents := funext fun b => h.byte b (hP b)
  cases m
  cases m'
  dsimp only at hl hc
  subst hl hc
  rfl

theorem SameOutside.code {code : List Byte} (h : SameOutside P m m') (hc : CodeAt m a code)
    (hP : ∀ b, P b → ¬(a ≤ b ∧ b < a + code.length)) : CodeAt m' a code := by
  obtain ⟨hl, hc⟩ := hc
  refine ⟨h.len ▸ hl, fun i hi => ?_⟩
  rw [hc i hi, h.byte]
  intro hb
  exact hP _ hb (by omega)

end

/-! ## Steps -/

/-- The next instruction is `ret`. -/
def AtRet (s : State) : Prop := ∃ d, decode s.m s.pc = some d ∧ d.hi0 = .ret

/-- A step with no fault that changes memory at bytes of `P` only. `rets` says whether it
may be that of a `ret`. -/
structure Keeps (rets : Prop) (P : Nat → Prop) (s t : State) : Prop where
  aok : Aok s t
  mem : SameOutside P s.m t.m
  ret : AtRet s → rets

theorem Keeps.mono {rets : Prop} {P Q : Nat → Prop} {s t : State} (h : Keeps rets P s t)
    (hsub : ∀ b, P b → Q b) : Keeps rets Q s t :=
  ⟨h.aok, h.mem.mono hsub, h.ret⟩

theorem keeps_deterministic (rets : Prop) (P : Nat → Prop) :
    Relator.RightUnique (Keeps rets P) := by
  intro s t u ht hu
  exact (Prod.mk.inj (ht.aok.symm.trans hu.aok)).1

variable {α : Type} [DecidableEq α] {base : Nat} {p : List (Line α)} {k j a : Nat} {m : Mem}
  {r : Regs} {s t : State} {name : α} {rets : Prop} {P : Nat → Prop}

theorem atRet_of_line {i : Insn α} (hc : CodeAt s.m base (assemble base p))
    (hk : p[k]? = some (.insn i)) (hpc : AtLine base p k s) (hret : i.itype = .ret) : AtRet s :=
  ⟨_, hpc ▸ decode_line hc hk, hret⟩

/-- The next instruction is the one of the line. -/
theorem not_atRet {i : Insn α} (hc : CodeAt s.m base (assemble base p))
    (hk : p[k]? = some (.insn i)) (hpc : AtLine base p k s) (hret : i.itype ≠ .ret) :
    ¬AtRet s := by
  intro hat
  obtain ⟨d, hd, ht⟩ := hat
  have hline := decode_line hc hk
  rw [← hpc, hd] at hline
  cases hline
  exact hret ht

theorem keeps_of_line {i : Insn α} (h : Aok s t) (hm : SameOutside P s.m t.m)
    (hc : CodeAt s.m base (assemble base p)) (hk : p[k]? = some (.insn i))
    (hpc : AtLine base p k s) (hret : i.itype ≠ .ret) : Keeps rets P s t :=
  ⟨h, hm, fun hat => absurd hat (not_atRet hc hk hpc hret)⟩

/-- Most instructions do not write memory. -/
theorem keeps_quiet {i : Insn α} (h : Aok s t) (hm : t.m = s.m)
    (hc : CodeAt s.m base (assemble base p)) (hk : p[k]? = some (.insn i))
    (hpc : AtLine base p k s) (hret : i.itype ≠ .ret) : Keeps rets P s t :=
  keeps_of_line h (hm ▸ .refl P _) hc hk hpc hret

/-! ## The rules -/

/-- At line `k`, with memory `m` and the registers `r`. -/
structure At (base : Nat) (p : List (Line α)) (k : Nat) (m : Mem) (r : Regs) (s : State) :
    Prop where
  pc : AtLine base p k s
  mem : s.m = m
  regs : s.r = r

omit [DecidableEq α] in
theorem At.label (hs : At base p k m r s) (hk : p[k]? = some (.label name)) :
    At base p (k + 1) m r s :=
  { hs with pc := hs.pc.label hk }

theorem At.irmovq {val : Word} {rB : RegId} (hs : At base p k m r s)
    (hc : CodeAt m base (assemble base p)) (hk : p[k]? = some (.irmovq val rB))
    (hB : rB ≠ regNone) :
    Reaches (Keeps rets P) s (At base p (k + 1) m (setRegVal r rB val)) := by
  obtain ⟨hpc, rfl, rfl⟩ := hs
  have hstep := step_irmovq hc hk hpc hB
  exact .one (keeps_quiet hstep rfl hc hk hpc (by simp)) ⟨rfl, rfl, rfl⟩

theorem At.mrmovq {d : Word} {rB rA : RegId} (hs : At base p k m r s)
    (hc : CodeAt m base (assemble base p)) (hk : p[k]? = some (.mrmovq d rB rA))
    (hA : rA ≠ regNone) (hB : rB ≠ regNone) (ha : d + r rB = BitVec.ofNat 64 a)
    (hm : a + 8 ≤ m.len) :
    Reaches (Keeps rets P) s
      (At base p (k + 1) m (setRegVal r rA (loadWord m.contents a))) := by
  obtain ⟨hpc, rfl, rfl⟩ := hs
  have hstep := step_mrmovq hc hk hpc hA hB ha hm
  exact .one (keeps_quiet hstep rfl hc hk hpc (by simp)) ⟨rfl, rfl, rfl⟩

theorem At.rmmovq {d : Word} {rA rB : RegId} (hs : At base p k m r s)
    (hc : CodeAt m base (assemble base p)) (hk : p[k]? = some (.rmmovq rA d rB))
    (hA : rA ≠ regNone) (hB : rB ≠ regNone) (ha : d + r rB = BitVec.ofNat 64 a)
    (hm : a + 8 ≤ m.len) (hP : SameOutside P m (m.stored a (r rA))) :
    Reaches (Keeps rets P) s (At base p (k + 1) (m.stored a (r rA)) r) := by
  obtain ⟨hpc, rfl, rfl⟩ := hs
  have hstep := step_rmmovq hc hk hpc hA hB ha hm
  exact .one (keeps_of_line hstep hP hc hk hpc (by simp)) ⟨rfl, rfl, rfl⟩

theorem At.opq {op : Fun} {rA rB : RegId} (hs : At base p k m r s)
    (hc : CodeAt m base (assemble base p)) (hk : p[k]? = some (.opq op rA rB))
    (hA : rA ≠ regNone) (hB : rB ≠ regNone) :
    Reaches (Keeps rets P) s
      (At base p (k + 1) m (setRegVal r rB (computeAlu op (r rA) (r rB)))) := by
  obtain ⟨hpc, rfl, rfl⟩ := hs
  have hstep := step_opq hc hk hpc hA hB
  exact .one (keeps_quiet hstep rfl hc hk hpc (by simp)) ⟨rfl, rfl, rfl⟩

theorem At.addq {rA rB : RegId} (hs : At base p k m r s) (hc : CodeAt m base (assemble base p))
    (hk : p[k]? = some (.addq rA rB)) (hA : rA ≠ regNone) (hB : rB ≠ regNone) :
    Reaches (Keeps rets P) s (At base p (k + 1) m (setRegVal r rB (r rA + r rB))) :=
  hs.opq hc hk hA hB

theorem At.subq {rA rB : RegId} (hs : At base p k m r s) (hc : CodeAt m base (assemble base p))
    (hk : p[k]? = some (.subq rA rB)) (hA : rA ≠ regNone) (hB : rB ≠ regNone) :
    Reaches (Keeps rets P) s (At base p (k + 1) m (setRegVal r rB (r rB - r rA))) :=
  hs.opq hc hk hA hB

theorem At.xorq {rA rB : RegId} (hs : At base p k m r s) (hc : CodeAt m base (assemble base p))
    (hk : p[k]? = some (.xorq rA rB)) (hA : rA ≠ regNone) (hB : rB ≠ regNone) :
    Reaches (Keeps rets P) s (At base p (k + 1) m (setRegVal r rB (r rA ^^^ r rB))) :=
  hs.opq hc hk hA hB

theorem At.jmp (hs : At base p k m r s) (hc : CodeAt m base (assemble base p))
    (hn : (labels p).Nodup) (hk : p[k]? = some (.jmp name)) (hj : p[j]? = some (.label name)) :
    Reaches (Keeps rets P) s (At base p j m r) := by
  obtain ⟨hpc, rfl, rfl⟩ := hs
  have hstep := step_jxx hc hn hk hj hpc
  exact .one (keeps_quiet hstep rfl hc hk hpc (by simp)) ⟨rfl, rfl, rfl⟩

/-- A register is tested and a jump taken on what it holds. -/
theorem At.test {x : RegId} {c : Fun} {b : Bool} (hs : At base p k m r s)
    (hc : CodeAt m base (assemble base p)) (hn : (labels p).Nodup)
    (hk : p[k]? = some (.andq x x)) (hk' : p[k + 1]? = some (.jxx c name))
    (hj : p[j]? = some (.label name)) (hx : x ≠ regNone)
    (hb : condHolds (computeCC aAnd (r x) (r x)) c = b) :
    Reaches (Keeps rets P) s (At base p (if b then j else k + 2) m r) := by
  obtain ⟨hpc, rfl, rfl⟩ := hs
  have htest := step_test hc hk hpc hx
  have hjump := step_jxx (s := { s with
    cc := computeCC aAnd (s.r x) (s.r x)
    pc := BitVec.ofNat 64 (lineAddr base p (k + 1)) }) hc hn hk' hj rfl
  rw [hb] at hjump
  exact ⟨_, .tail (.single (keeps_quiet htest rfl hc hk hpc (by simp)))
    (keeps_quiet hjump rfl hc hk' rfl (by simp)), rfl, rfl, rfl⟩

theorem At.pushq {rA : RegId} (hs : At base p k m r s) (hc : CodeAt m base (assemble base p))
    (hk : p[k]? = some (.pushq rA)) (hA : rA ≠ regNone)
    (ha : r regRsp = BitVec.ofNat 64 (a + 8)) (hm : a + 8 ≤ m.len)
    (hP : SameOutside P m (m.stored a (r rA))) :
    Reaches (Keeps rets P) s (At base p (k + 1) (m.stored a (r rA))
      (setRegVal r regRsp (BitVec.ofNat 64 a))) := by
  obtain ⟨hpc, rfl, rfl⟩ := hs
  have hstep := step_pushq hc hk hpc hA ha hm
  exact .one (keeps_of_line hstep hP hc hk hpc (by simp)) ⟨rfl, rfl, rfl⟩

theorem At.popq {rA : RegId} (hs : At base p k m r s) (hc : CodeAt m base (assemble base p))
    (hk : p[k]? = some (.popq rA)) (hA : rA ≠ regNone) (ha : r regRsp = BitVec.ofNat 64 a)
    (hm : a + 8 ≤ m.len) :
    Reaches (Keeps rets P) s (At base p (k + 1) m
      (setRegVal (setRegVal r regRsp (BitVec.ofNat 64 (a + 8))) rA (loadWord m.contents a))) := by
  obtain ⟨hpc, rfl, rfl⟩ := hs
  have hstep := step_popq hc hk hpc hA ha hm
  exact .one (keeps_quiet hstep rfl hc hk hpc (by simp)) ⟨rfl, rfl, rfl⟩

theorem At.call (hs : At base p k m r s) (hc : CodeAt m base (assemble base p))
    (hn : (labels p).Nodup) (hk : p[k]? = some (.call name)) (hj : p[j]? = some (.label name))
    (ha : r regRsp = BitVec.ofNat 64 (a + 8)) (hm : a + 8 ≤ m.len)
    (hP : SameOutside P m (m.stored a (BitVec.ofNat 64 (lineAddr base p (k + 1))))) :
    Reaches (Keeps rets P) s
      (At base p j (m.stored a (BitVec.ofNat 64 (lineAddr base p (k + 1))))
        (setRegVal r regRsp (BitVec.ofNat 64 a))) := by
  obtain ⟨hpc, rfl, rfl⟩ := hs
  have hstep := step_call hc hn hk hj hpc ha hm
  exact .one (keeps_of_line hstep hP hc hk hpc (by simp)) ⟨rfl, rfl, rfl⟩

/-- A return to a line of the same source. -/
theorem At.ret (hs : At base p k m r s) (hc : CodeAt m base (assemble base p))
    (hk : p[k]? = some .ret) (ha : r regRsp = BitVec.ofNat 64 a) (hm : a + 8 ≤ m.len)
    (hret : loadWord m.contents a = BitVec.ofNat 64 (lineAddr base p j)) :
    Reaches (Keeps True P) s
      (At base p j m (setRegVal r regRsp (BitVec.ofNat 64 (a + 8)))) := by
  obtain ⟨hpc, rfl, rfl⟩ := hs
  refine .one ⟨step_ret hc hk hpc ha hm, .refl P _, fun _ => trivial⟩ ⟨hret, rfl, ?_⟩
  rw [BitVec.ofNat_add]
  rfl

/-! ## Where nothing may be written -/

/-- No step leaves memory outside `P` alone, and there is no `ret` either. -/
structure Stuck (P : Nat → Prop) (t : State) : Prop where
  not_atRet : ¬AtRet t
  no_step : ∀ u, ¬Keeps False P t u

/-- The machine is deterministic, so where it gets stuck is all it gets to. -/
theorem not_reaches_ret (h : Reaches (Keeps False P) s (Stuck P)) :
    ¬Reaches (Keeps False P) s AtRet := by
  obtain ⟨t, hrun, ht⟩ := h
  intro hret
  obtain ⟨u, hrun', hu⟩ := hret
  rcases visited (keeps_deterministic False P) (fun _ _ hstep => hstep) hrun ht.no_step hrun' with
    he | hstep
  · exact ht.not_atRet (he ▸ hu)
  · obtain ⟨v, hv⟩ := hstep
    exact hv.ret hu

theorem stuck_of_fault {i : Insn α} (h : stepState s = (s, .adr))
    (hc : CodeAt s.m base (assemble base p)) (hk : p[k]? = some (.insn i))
    (hpc : AtLine base p k s) (hret : i.itype ≠ .ret) : Stuck P s := by
  refine ⟨not_atRet hc hk hpc hret, fun u hu => ?_⟩
  have haok : stepState s = (u, .aok) := hu.aok
  rw [h] at haok
  exact absurd (Prod.mk.inj haok).2 Stat.noConfusion

theorem At.load_or_stuck {d : Word} {rB rA : RegId} (hs : At base p k m r s)
    (hc : CodeAt m base (assemble base p)) (hk : p[k]? = some (.mrmovq d rB rA))
    (hA : rA ≠ regNone) (hB : rB ≠ regNone) :
    Reaches (Keeps rets P) s fun t => Stuck P t ∨
      ¬NoWord m (d + r rB) ∧ ∃ v, At base p (k + 1) m (setRegVal r rA v) t := by
  by_cases hw : NoWord m (d + r rB)
  · obtain ⟨hpc, rfl, rfl⟩ := hs
    have hfault := fault_mrmovq hc hk hpc hA hB hw
    exact .here (.inl (stuck_of_fault hfault hc hk hpc (by simp)))
  · obtain ⟨a, ha, hm⟩ := exists_addr hw
    exact (hs.mrmovq hc hk hA hB ha hm).mono fun t ht => .inr ⟨hw, _, ht⟩

/-- A store that gets through has found in memory what it stores. -/
theorem At.store_or_stuck {d : Word} {rA rB : RegId} (hP : ∀ b, ¬P b) (hs : At base p k m r s)
    (hc : CodeAt m base (assemble base p)) (hk : p[k]? = some (.rmmovq rA d rB))
    (hA : rA ≠ regNone) (hB : rB ≠ regNone) :
    Reaches (Keeps rets P) s fun t => Stuck P t ∨ At base p (k + 1) m r t := by
  by_cases hw : NoWord m (d + r rB)
  · obtain ⟨hpc, rfl, rfl⟩ := hs
    have hfault := fault_rmmovq hc hk hpc hA hB hw
    exact .here (.inl (stuck_of_fault hfault hc hk hpc (by simp)))
  · obtain ⟨a, ha, hm⟩ := exists_addr hw
    by_cases hsame : m.stored a (r rA) = m
    · have hstore : Reaches (Keeps rets P) s (At base p (k + 1) (m.stored a (r rA)) r) :=
        hs.rmmovq hc hk hA hB ha hm (hsame.symm ▸ .refl P m)
      rw [hsame] at hstore
      exact hstore.mono fun t ht => .inr ht
    · obtain ⟨hpc, rfl, rfl⟩ := hs
      refine .here (.inl ⟨not_atRet hc hk hpc (by simp), fun u hu => hsame ?_⟩)
      have hstep := step_rmmovq hc hk hpc hA hB ha hm
      have hmem := congrArg State.m (Prod.mk.inj (hstep.symm.trans hu.aok)).1
      exact hmem.trans (hu.mem.eq hP)

/-! ## Tests of one register -/

theorem test_je (v : Word) : condHolds (computeCC aAnd v v) 3 = (v == 0#64) := by
  simp [condHolds, computeCC, computeAlu, aAnd, aAdd, aSub]

theorem test_jne (v : Word) : condHolds (computeCC aAnd v v) 4 = !(v == 0#64) := by
  simp [condHolds, computeCC, computeAlu, aAnd, aAdd, aSub]

end Csapp.Y86
