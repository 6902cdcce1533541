import Mathlib
import Csapp.Y86.Rules

/-!
# `sum_list` and `rsum_list`

The two list sums of the architecture lab: a loop, and a recursion that saves the
value of each node on the stack while it sums the rest. Both end at a `ret` with the
sum in `%rax` and the stack pointer of the call (`Summed`). For the loop that is an
induction over the nodes that are left; for the recursion the induction carries the
stack too, sixteen bytes for each node, which the nested calls may write and which
therefore must miss the list and the code.
-/

namespace Csapp.Y86

/-- The labels of `sum.ys`. -/
inductive SumLabel
  | sum_list | loop | exit
deriving DecidableEq, Repr

/-- `sum.ys`, from `sum_list` on. -/
def sumList : List (Line SumLabel) := [
  .label .sum_list,
  .irmovq 0 rax,
  .label .loop,
  .andq rdi rdi,
  .je .exit,
  .mrmovq 0 rdi rcx,
  .addq rcx rax,
  .mrmovq 8 rdi rdi,
  .jmp .loop,
  .label .exit,
  .ret]

/-- The labels of `rsum.ys`. -/
inductive RsumLabel
  | rsum_list | loop | exit
deriving DecidableEq, Repr

/-- `rsum.ys`, from `rsum_list` on. -/
def rsumList : List (Line RsumLabel) := [
  .label .rsum_list,
  .andq rdi rdi,
  .jne .loop,
  .irmovq 0 rax,
  .jmp .exit,
  .label .loop,
  .mrmovq 0 rdi rcx,
  .mrmovq 8 rdi rdi,
  .pushq rcx,
  .call .rsum_list,
  .popq rcx,
  .addq rcx rax,
  .label .exit,
  .ret]

theorem sumList_labels : (labels sumList).Nodup := by decide

theorem rsumList_labels : (labels rsumList).Nodup := by decide

/-! ## Lists in memory -/

/-- A node (`struct ELE`): where it is, and the value in it. -/
structure Ele where
  addr : Nat
  val : Word

/-- The nodes that a null-terminated list from `ls` on goes through. They come to an end, so
the list has no cycle. -/
def ListAt (m : Mem) : Word → List Ele → Prop
  | ls, [] => ls = 0
  | ls, e :: es =>
    (0 < e.addr ∧ e.addr + 16 ≤ m.len ∧ ls = BitVec.ofNat 64 e.addr ∧
      loadWord m.contents e.addr = e.val) ∧
      ListAt m (loadWord m.contents (e.addr + 8)) es

/-- `b` is a byte of a node. -/
def InList (es : List Ele) (b : Nat) : Prop := ∃ e ∈ es, e.addr ≤ b ∧ b < e.addr + 16

/-- The sum of the values, modulo `2 ^ 64`. -/
def listSum (es : List Ele) : Word := BitVec.ofNat 64 (es.map fun e => e.val.toNat).sum

@[simp] theorem listSum_nil : listSum [] = 0 := rfl

@[simp] theorem listSum_cons (e : Ele) (es : List Ele) :
    listSum (e :: es) = e.val + listSum es := by
  rw [listSum, List.map_cons, List.sum_cons, BitVec.ofNat_add, BitVec.ofNat_toNat,
    BitVec.setWidth_eq]
  rfl

variable {m m' : Mem} {ls : Word} {e : Ele} {es : List Ele}

theorem InList.tail {b : Nat} (h : InList es b) : InList (e :: es) b := by
  obtain ⟨x, hx, hin⟩ := h
  exact ⟨x, List.mem_cons_of_mem _ hx, hin⟩

theorem ListAt.unchanged {P : Nat → Prop} (h : ListAt m ls es) (hm : SameOutside P m m')
    (hP : ∀ b, P b → ¬InList es b) : ListAt m' ls es := by
  induction es generalizing ls with
  | nil => exact h
  | cons e es ih =>
      obtain ⟨⟨hpos, hlen, hls, hval⟩, hrest⟩ := h
      have hnode : ∀ i, i < 16 → ¬P (e.addr + i) := fun i hi hb =>
        hP _ hb ⟨e, List.mem_cons_self, by omega, by omega⟩
      have hword : ∀ a, e.addr ≤ a → a + 8 ≤ e.addr + 16 →
          loadWord m'.contents a = loadWord m.contents a := by
        intro a hge hle
        refine hm.word fun b hb hin => hnode (b - e.addr) (by omega) ?_
        rwa [Nat.add_sub_cancel' (by omega)]
      refine ⟨⟨hpos, hm.len ▸ hlen, hls, ?_⟩, ?_⟩
      · rw [hword _ (Nat.le_refl _) (by omega), hval]
      · rw [hword _ (by omega) (Nat.le_refl _)]
        exact ih hrest fun b hb hin => hP b hb hin.tail

/-- The pointer is null exactly at the end of the list. -/
theorem ListAt.beq_zero (h : ListAt m ls es) : (ls == 0#64) = es.isEmpty := by
  cases es with
  | nil =>
      rw [show ls = 0 from h]
      rfl
  | cons e es =>
      obtain ⟨⟨hpos, hlen, hls, -⟩, -⟩ := h
      have hm := m.len_lt
      rw [hls, List.isEmpty_cons, beq_eq_false_iff_ne]
      intro hz
      have hnat := congrArg BitVec.toNat hz
      rw [toNat_small (by omega)] at hnat
      exact absurd hnat (by simp; omega)

section
variable {α : Type} [DecidableEq α] {base k : Nat} {p : List (Line α)} {r : Regs} {s : State}
  {rA : RegId} {rets : Prop} {P : Nat → Prop}

/-- `0(%rdi)` is the value of the node that `%rdi` points to. -/
theorem At.node_val (hs : At base p k m r s) (hc : CodeAt m base (assemble base p))
    (hl : ListAt m (r rdi) (e :: es)) (hk : p[k]? = some (.mrmovq 0 rdi rA)) (hA : rA ≠ regNone) :
    Reaches (Keeps rets P) s (At base p (k + 1) m (setRegVal r rA e.val)) := by
  obtain ⟨⟨hpos, hlen, hls, hval⟩, -⟩ := hl
  have ha : 0 + r rdi = BitVec.ofNat 64 e.addr := by
    rw [hls]
    exact BitVec.zero_add _
  rw [← hval]
  exact hs.mrmovq hc hk hA (by decide) ha (by omega)

/-- `8(%rdi)` is where the rest of the list is. -/
theorem At.node_next (hs : At base p k m r s) (hc : CodeAt m base (assemble base p))
    (hl : ListAt m (r rdi) (e :: es)) (hk : p[k]? = some (.mrmovq 8 rdi rA)) (hA : rA ≠ regNone) :
    Reaches (Keeps rets P) s
      (At base p (k + 1) m (setRegVal r rA (loadWord m.contents (e.addr + 8)))) := by
  obtain ⟨⟨hpos, hlen, hls, hval⟩, -⟩ := hl
  have ha : 8 + r rdi = BitVec.ofNat 64 (e.addr + 8) := by
    rw [hls, Nat.add_comm, BitVec.ofNat_add]
    rfl
  exact hs.mrmovq hc hk hA (by decide) ha (by omega)

end

/-! ## At the `ret` -/

/-- At line `k`, the sum is in `%rax`, the stack is as it was, and only bytes of `P` were
written. -/
structure Summed {α : Type} (base : Nat) (p : List (Line α)) (k : Nat) (total sp : Word)
    (P : Nat → Prop) (m : Mem) (t : State) : Prop where
  pc : AtLine base p k t
  sum : t.r rax = total
  stack : t.r regRsp = sp
  mem : SameOutside P m t.m

variable {base sp a : Nat} {r : Regs} {s : State}

/-! ## The loop -/

theorem sum_loop {total sp : Word} (hc : CodeAt m base (assemble base sumList))
    (hl : ListAt m (r rdi) es) (hsum : r rax + listSum es = total) (hsp : r regRsp = sp)
    (hs : At base sumList 3 m r s) :
    Reaches (Keeps False fun _ => False) s
      (Summed base sumList 10 total sp (fun _ => False) m) := by
  induction es generalizing r s with
  | nil =>
      refine (hs.test hc sumList_labels rfl rfl (j := 9) rfl (by decide)
        ((test_je _).trans hl.beq_zero)).andThen fun s hs => ?_
      have hs := hs.label (k := 9) rfl
      refine .here ⟨hs.pc, ?_, (congrFun hs.regs _).trans hsp, hs.mem ▸ .refl _ _⟩
      rw [hs.regs, ← hsum, listSum_nil]
      exact (BitVec.add_zero _).symm
  | cons e es ih =>
      refine (hs.test hc sumList_labels rfl rfl (j := 9) rfl (by decide)
        ((test_je _).trans hl.beq_zero)).andThen fun s hs => ?_
      refine (hs.node_val (k := 5) hc hl rfl (by decide)).andThen fun s hs => ?_
      refine (hs.addq hc rfl (by decide) (by decide)).andThen fun s hs => ?_
      have hstill : ∀ v, ListAt m (setRegVal (setRegVal r rcx e.val) rax v rdi) (e :: es) := by
        intro v
        simp (disch := decide) only [setRegVal_ne]
        exact hl
      refine (hs.node_next hc (hstill _) rfl (by decide)).andThen fun s hs => ?_
      refine (hs.jmp hc sumList_labels rfl (j := 2) rfl).andThen fun s hs => ?_
      refine ih ?_ ?_ ?_ (hs.label rfl)
      · simp (disch := decide) only [setRegVal_self]
        exact hl.2
      · simp (disch := decide) only [setRegVal_self, setRegVal_ne]
        rw [← hsum, listSum_cons, BitVec.add_comm e.val, BitVec.add_assoc]
      · simp (disch := decide) only [setRegVal_ne]
        exact hsp

theorem sum_run {sp : Word} (hc : CodeAt m base (assemble base sumList))
    (hl : ListAt m (r rdi) es) (hsp : r regRsp = sp) (hs : At base sumList 0 m r s) :
    Reaches (Keeps False fun _ => False) s
      (Summed base sumList 10 (listSum es) sp (fun _ => False) m) := by
  refine ((hs.label rfl).irmovq hc rfl (by decide)).andThen fun s hs => ?_
  have hl' : ListAt m (setRegVal r rax 0 rdi) es := by
    rw [setRegVal_ne _ (by decide)]
    exact hl
  refine sum_loop hc hl' ?_ ?_ (hs.label rfl)
  · simp (disch := decide) only [setRegVal_self]
    exact BitVec.zero_add _
  · rw [setRegVal_ne _ (by decide)]
    exact hsp

/-! ## The recursion -/

/-- The bytes that `n` nested calls use, below a return address at `sp`. -/
def Below (sp n b : Nat) : Prop := sp ≤ b + 16 * n ∧ b < sp

/-- `rsum_list` may be called, with its return address at `sp`. -/
structure RsumReady (base : Nat) (es : List Ele) (sp : Nat) (m : Mem) (r : Regs) : Prop where
  code : CodeAt m base (assemble base rsumList)
  list : ListAt m (r rdi) es
  stack : r regRsp = BitVec.ofNat 64 sp
  return_word : sp + 8 ≤ m.len
  room : 16 * es.length ≤ sp
  apart_list : ∀ b, Below sp es.length b → ¬InList es b
  apart_code : ∀ b, Below sp es.length b →
    ¬(base ≤ b ∧ b < base + (assemble base rsumList).length)

theorem rsum_nil {sp : Nat} (h : RsumReady base [] sp m r) (hs : At base rsumList 0 m r s) :
    Reaches (Keeps True (Below sp 0)) s
      (Summed base rsumList 13 0 (BitVec.ofNat 64 sp) (Below sp 0) m) := by
  refine ((hs.label rfl).test h.code rsumList_labels rfl rfl (j := 5) rfl (by decide)
    ((test_jne _).trans (congrArg not h.list.beq_zero))).andThen fun s hs => ?_
  refine (hs.irmovq (k := 3) h.code rfl (by decide)).andThen fun s hs => ?_
  refine (hs.jmp h.code rsumList_labels rfl (j := 12) rfl).andThen fun s hs => ?_
  have hs := hs.label rfl
  refine .here ⟨hs.pc, ?_, ?_, hs.mem ▸ .refl _ _⟩
  · rw [hs.regs]
    exact setRegVal_self _ (by decide)
  · rw [hs.regs, setRegVal_ne _ (by decide), h.stack]

/-- Memory behind the two pushes of one node, that of its value and that of the return
address. -/
def pushed (base : Nat) (m : Mem) (a : Nat) (val : Word) : Mem :=
  (m.stored (a + 8) val).stored a (BitVec.ofNat 64 (lineAddr base rsumList 10))

theorem sameOutside_pushed (base : Nat) (m : Mem) (a : Nat) (val : Word) (n : Nat) :
    SameOutside (Below (a + 16) (n + 1)) m (pushed base m a val) := by
  refine (sameOutside_stored m val ?_).trans (sameOutside_stored _ _ ?_)
  · intro b hb
    exact ⟨by omega, by omega⟩
  · intro b hb
    exact ⟨by omega, by omega⟩

theorem Below.frame {n b : Nat} (h : Below a n b) : Below (a + 16) (n + 1) b := by
  obtain ⟨hle, hlt⟩ := h
  exact ⟨by omega, by omega⟩

/-- What can be called on a list can be called on the rest of it, one frame further
down. -/
theorem RsumReady.rest {r' : Regs} (h : RsumReady base (e :: es) (a + 16) m r)
    (hdi : r' rdi = loadWord m.contents (e.addr + 8)) (hsp : r' regRsp = BitVec.ofNat 64 a) :
    RsumReady base es a (pushed base m a e.val) r' := by
  have hsame := sameOutside_pushed base m a e.val es.length
  have hword := h.return_word
  have hroom := h.room
  rw [List.length_cons] at hroom
  have hrest : ∀ b, Below (a + 16) (es.length + 1) b → ¬InList es b :=
    fun b hb hin => h.apart_list b hb hin.tail
  refine ⟨hsame.code h.code h.apart_code, ?_, hsp, ?_, by omega, ?_, ?_⟩
  · rw [hdi]
    exact h.list.2.unchanged hsame hrest
  · rw [hsame.len]
    omega
  · exact fun b hb => hrest b hb.frame
  · exact fun b hb => h.apart_code b hb.frame

/-- From a call to the call inside it. -/
theorem rsum_descend (h : RsumReady base (e :: es) (a + 16) m r)
    (hs : At base rsumList 0 m r s) :
    Reaches (Keeps True (Below (a + 16) (e :: es).length)) s fun t =>
      ∃ r', RsumReady base es a (pushed base m a e.val) r' ∧
        At base rsumList 0 (pushed base m a e.val) r' t := by
  have hc := h.code
  have hword := h.return_word
  have hsp := h.stack
  refine ((hs.label rfl).test hc rsumList_labels rfl rfl (j := 5) rfl (by decide)
    ((test_jne _).trans (congrArg not h.list.beq_zero))).andThen fun s hs => ?_
  have hs := hs.label (k := 5) rfl
  refine (hs.node_val hc h.list rfl (by decide)).andThen fun s hs => ?_
  have hstill : ListAt m (setRegVal r rcx e.val rdi) (e :: es) := by
    rw [setRegVal_ne _ (by decide)]
    exact h.list
  refine (hs.node_next hc hstill rfl (by decide)).andThen fun s hs => ?_
  have hbelow : ∀ b, a ≤ b ∧ b < a + 16 → Below (a + 16) (e :: es).length b := by
    intro b hb
    rw [List.length_cons]
    exact ⟨by omega, by omega⟩
  refine (hs.pushq hc rfl (by decide) (a := a + 8) ?_ (by omega) ?_).andThen fun s hs => ?_
  · simp (disch := decide) only [setRegVal_ne]
    exact hsp
  · exact sameOutside_stored m _ fun b hb => hbelow b (by omega)
  have hsaved : setRegVal (setRegVal r rcx e.val) rdi (loadWord m.contents (e.addr + 8)) rcx =
      e.val := by
    simp (disch := decide) only [setRegVal_self, setRegVal_ne]
  rw [hsaved] at hs
  have hstored : SameOutside (Below (a + 16) (e :: es).length) m (m.stored (a + 8) e.val) :=
    sameOutside_stored m _ fun b hb => hbelow b (by omega)
  refine (hs.call (hstored.code hc h.apart_code) rsumList_labels rfl (j := 0) rfl
    (setRegVal_self _ (by decide)) (Nat.le_trans (by omega) hword)
    (sameOutside_stored _ _ fun b hb => hbelow b (by omega))).mono fun t ht => ?_
  refine ⟨_, h.rest ?_ ?_, ht⟩
  · simp (disch := decide) only [setRegVal_self, setRegVal_ne]
  · exact setRegVal_self _ (by decide)

/-- From the `ret` of the call inside to that of the call. -/
theorem rsum_ascend {u : State} (h : RsumReady base (e :: es) (a + 16) m r)
    (hu : Summed base rsumList 13 (listSum es) (BitVec.ofNat 64 a) (Below a es.length)
      (pushed base m a e.val) u) :
    Reaches (Keeps True (Below (a + 16) (e :: es).length)) u
      (Summed base rsumList 13 (listSum (e :: es)) (BitVec.ofNat 64 (a + 16))
        (Below (a + 16) (e :: es).length) m) := by
  have hsame : SameOutside (Below (a + 16) (e :: es).length) m u.m :=
    (sameOutside_pushed base m a e.val _).trans (hu.mem.mono fun b hb => hb.frame)
  have hc := hsame.code h.code h.apart_code
  have hlen : a + 24 ≤ u.m.len := hsame.len ▸ h.return_word
  have hret : loadWord u.m.contents a = BitVec.ofNat 64 (lineAddr base rsumList 10) := by
    rw [hu.mem.word]
    · exact loadWord_stored _ _ _
    · intro b hb
      have hlt := hb.2
      omega
  have hsaved : loadWord u.m.contents (a + 8) = e.val := by
    rw [hu.mem.word]
    · rw [pushed, loadWord_stored_ne _ (by omega), loadWord_stored]
    · intro b hb
      have hlt := hb.2
      omega
  have hs : At base rsumList 13 u.m u.r u := ⟨hu.pc, rfl, rfl⟩
  refine (hs.ret hc rfl hu.stack (by omega) hret).andThen fun s hs => ?_
  refine (hs.popq hc rfl (by decide) (setRegVal_self _ (by decide))
    (by omega)).andThen fun s hs => ?_
  refine (hs.addq hc rfl (by decide) (by decide)).mono fun s hs => ?_
  have hs := hs.label rfl
  refine ⟨hs.pc, ?_, ?_, hs.mem ▸ hsame⟩
  · rw [hs.regs]
    simp (disch := decide) only [setRegVal_self, setRegVal_ne]
    rw [hsaved, hu.sum, listSum_cons]
  · rw [hs.regs]
    simp (disch := decide) only [setRegVal_self, setRegVal_ne]

theorem rsum_run {sp : Nat} (h : RsumReady base es sp m r) (hs : At base rsumList 0 m r s) :
    Reaches (Keeps True (Below sp es.length)) s
      (Summed base rsumList 13 (listSum es) (BitVec.ofNat 64 sp) (Below sp es.length) m) := by
  induction es generalizing sp m r s with
  | nil => exact rsum_nil h hs
  | cons e es ih =>
      obtain ⟨a, rfl⟩ : ∃ a, sp = a + 16 := by
        have hroom := h.room
        rw [List.length_cons] at hroom
        exact ⟨sp - 16, by omega⟩
      refine (rsum_descend h hs).andThen fun t ht => ?_
      obtain ⟨r', h', ht⟩ := ht
      have hinner := (ih h' ht).weaken fun _ _ hstep => hstep.mono fun b hb => hb.frame
      exact hinner.andThen fun u hu => rsum_ascend h hu

/-! ## The calls -/

section
variable {α : Type} [DecidableEq α] {base k : Nat} {p : List (Line α)} {s : State}

/-- `p`, assembled at `base`, has just been called on the list of the nodes `es`. The
return address is in memory: `call` has stored it there. -/
structure ListCall (base : Nat) (p : List (Line α)) (es : List Ele) (s : State) : Prop where
  code : CodeAt s.m base (assemble base p)
  pc : s.pc = BitVec.ofNat 64 base
  list : ListAt s.m (s.r rdi) es
  return_word : spOf s + 8 ≤ s.m.len

/-- Sixteen bytes for each node, below the return address, are in memory and are no bytes of
the list or the code. -/
structure StackRoom (base : Nat) (p : List (Line α)) (es : List Ele) (s : State) : Prop where
  room : 16 * es.length ≤ spOf s
  apart_list : ∀ b, Below (spOf s) es.length b → ¬InList es b
  apart_code : ∀ b, Below (spOf s) es.length b →
    ¬(base ≤ b ∧ b < base + (assemble base p).length)

/-- The call comes with no fault to a `ret` that takes its own return address from the stack,
and through it. The sum is in `%rax` then, and only bytes of `P` were written. -/
def ReturnsSum (base : Nat) (p : List (Line α)) (es : List Ele) (P : Nat → Prop) (s : State) :
    Prop :=
  ∃ k u t, Relation.ReflTransGen Aok s u ∧ AtLine base p k u ∧ p[k]? = some .ret ∧
    u.r regRsp = s.r regRsp ∧ Aok u t ∧ t.pc = loadWord s.m.contents (spOf s) ∧
    t.r regRsp = s.r regRsp + 8 ∧ t.r rax = listSum es ∧ SameOutside P s.m t.m

theorem ListCall.at (h : ListCall base p es s) : At base p 0 s.m s.r s :=
  ⟨h.pc.trans (by rw [lineAddr_zero]), rfl, rfl⟩

theorem ListCall.returns {rets : Prop} {P : Nat → Prop} (h : ListCall base p es s)
    (hrun : Reaches (Keeps rets P) s (Summed base p k (listSum es) (s.r regRsp) P s.m))
    (hk : p[k]? = some .ret) (hcode : ∀ b, P b → ¬(base ≤ b ∧ b < base + (assemble base p).length))
    (hword : ∀ b, P b → ¬(spOf s ≤ b ∧ b < spOf s + 8)) : ReturnsSum base p es P s := by
  obtain ⟨u, hrun, hu⟩ := hrun.weaken fun _ _ hstep => hstep.aok
  have hret := step_ret (hu.mem.code h.code hcode) hk hu.pc (hu.stack.trans (stack_eq s))
    (hu.mem.len ▸ h.return_word)
  have hpop : setRegVal u.r regRsp (BitVec.ofNat 64 (spOf s) + 8) regRsp = s.r regRsp + 8 := by
    rw [stack_eq s]
    exact setRegVal_self _ (by decide)
  have hsum : setRegVal u.r regRsp (BitVec.ofNat 64 (spOf s) + 8) rax = listSum es :=
    (setRegVal_ne _ (by decide)).trans hu.sum
  exact ⟨k, u, _, hrun, hu.pc, hk, hu.stack, hret, hu.mem.word hword, hpop, hsum, hu.mem⟩

end

theorem ListCall.sum (h : ListCall base sumList es s) :
    ReturnsSum base sumList es (fun _ => False) s := by
  refine h.returns (sum_run h.code h.list rfl h.at) rfl ?_ ?_
  · exact fun _ hb => hb.elim
  · exact fun _ hb => hb.elim

theorem ListCall.rsum (h : ListCall base rsumList es s) (hroom : StackRoom base rsumList es s) :
    ReturnsSum base rsumList es (Below (spOf s) es.length) s := by
  have hready : RsumReady base es (spOf s) s.m s.r :=
    ⟨h.code, h.list, stack_eq s, h.return_word, hroom.room, hroom.apart_list, hroom.apart_code⟩
  have hrun := rsum_run hready h.at
  rw [← stack_eq s] at hrun
  refine h.returns hrun rfl hroom.apart_code fun b hb hin => ?_
  have hlt := hb.2
  omega

/-- On one list, the loop and the recursion return the same sum. The loop writes nothing,
the recursion only the stack below its return address. -/
theorem list_sums_agree {base₁ base₂ : Nat} {s₁ s₂ : State}
    (h₁ : ListCall base₁ sumList es s₁) (h₂ : ListCall base₂ rsumList es s₂)
    (hroom : StackRoom base₂ rsumList es s₂) :
    ReturnsSum base₁ sumList es (fun _ => False) s₁ ∧
      ReturnsSum base₂ rsumList es (Below (spOf s₂) es.length) s₂ :=
  ⟨h₁.sum, h₂.rsum hroom⟩

/-- The three elements of `sum.ys` and `rsum.ys`, from 512 on, with the code at address 0. -/
def eleMem (code : List Byte) : Mem :=
  let m : Mem := ⟨fun b => code.getD b 0, 8192, by decide⟩
  (((((m.stored 512 0x00a).stored 520 528).stored 528 0x0b0).stored 536 544).stored 544
    0xc00).stored 552 0

/-- The list of the examples. -/
def eles : List Ele := [⟨512, 0x00a⟩, ⟨528, 0x0b0⟩, ⟨544, 0xc00⟩]

/-- A call on them with the stack at 2048. -/
def eleCall (code : List Byte) : State where
  pc := 0
  r := fun x => if x = rdi then 512 else if x = regRsp then 2048 else 0
  m := eleMem code
  cc := defaultCC

theorem eleMem_code {code : List Byte} (h : code.length ≤ 512) :
    CodeAt (eleMem code) 0 code := by
  have hstored : ∀ (m : Mem) (a : Nat) (val : Word), 512 ≤ a →
      SameOutside (512 ≤ ·) m (m.stored a val) := by
    intro m a val ha
    exact sameOutside_stored m val fun b hb => by omega
  have hcode := codeAt_getD memSize_lt (Nat.le_trans h (by decide))
  refine SameOutside.code (P := (512 ≤ ·)) ?_ hcode fun b hb => by omega
  refine (hstored _ 512 _ ?_).trans <| (hstored _ 520 _ ?_).trans <|
    (hstored _ 528 _ ?_).trans <| (hstored _ 536 _ ?_).trans <| (hstored _ 544 _ ?_).trans
      (hstored _ 552 _ ?_)
  all_goals decide

theorem eleMem_list (code : List Byte) : ListAt (eleMem code) 512 eles := by
  simp [ListAt, eles, eleMem]

variable {α : Type} [DecidableEq α] {p : List (Line α)}

theorem eleCall_listCall (h : (assemble 0 p).length ≤ 512) :
    ListCall 0 p eles (eleCall (assemble 0 p)) where
  code := eleMem_code h
  pc := rfl
  list := eleMem_list _
  return_word := Nat.le_of_ble_eq_true rfl

theorem eleCall_stackRoom (h : (assemble 0 p).length ≤ 512) :
    StackRoom 0 p eles (eleCall (assemble 0 p)) := by
  have hsp : spOf (eleCall (assemble 0 p)) = 2048 := rfl
  have hlast : ∀ x ∈ eles, x.addr ≤ 544 := by decide
  refine ⟨Nat.le_of_ble_eq_true rfl, fun b hb hin => ?_, fun b hb => ?_⟩
  · obtain ⟨x, hx, hin⟩ := hin
    have hx := hlast x hx
    have hle : 2048 ≤ b + 48 := hb.1
    omega
  · have hle : 2048 ≤ b + 48 := hb.1
    omega

theorem list_sums_agree_eles :
    ReturnsSum 0 sumList eles (fun _ => False) (eleCall (assemble 0 sumList)) ∧
      ReturnsSum 0 rsumList eles (Below (spOf (eleCall (assemble 0 rsumList))) eles.length)
        (eleCall (assemble 0 rsumList)) :=
  have hsum : (assemble 0 sumList).length ≤ 512 := by
    rw [length_assemble]
    decide
  have hrsum : (assemble 0 rsumList).length ≤ 512 := by
    rw [length_assemble]
    decide
  list_sums_agree (eleCall_listCall hsum) (eleCall_listCall hrsum) (eleCall_stackRoom hrsum)

end Csapp.Y86
