import Mathlib
import Csapp.Malloc.Run

/-!
# The heap invariant, in the words of `mm_check`

What `mm_check` looks for, and more: the walk by `NEXTBLK` from the first block
behind the prologue meets well-formed blocks only and ends at the epilogue, and
the class lists hold exactly the free ones. It is stated with the macros of
`mm.c` and the memory alone, and read off the block list that the proofs carry.
-/

namespace Csapp.Malloc

/-- The blocks at `ps` are met from `p` by adding `SIZE(HDRP(..))`, up to `e`. -/
def Walk (m : Mem) : Nat → List Nat → Nat → Prop
  | p, [], e => p = e
  | p, q :: ps, e => q = p ∧ Walk m (p + size m (hdrp p)) ps e

/-- The heap of blocks `ps` and class lists `fl`. -/
structure WellFormed (h : Heap) (ps : List Nat) (fl : Nat → List Nat) : Prop where
  tile : Walk h.mem (nextblk h.mem h.beginHeap) ps h.endHeap
  top : h.endHeap = h.brk
  epilogue : get h.mem (hdrp h.endHeap) = pack wsize 1
  tags : ∀ p ∈ ps, get h.mem (hdrp p) = get h.mem (ftrp h.mem p) ∧
    get h.mem (hdrp p) = size h.mem (hdrp p) + aloc h.mem (hdrp p) ∧
    size h.mem (hdrp p) % 8 = 0 ∧ 16 ≤ size h.mem (hdrp p)
  apart : ps.IsChain fun p q => aloc h.mem (hdrp p) ≠ 0 ∨ aloc h.mem (hdrp q) ≠ 0
  ring : ∀ c, c < 9 → Ring (next h.mem) (prev h.mem) (h.beginHeap + 8 * c) (fl c)
  listed : ∀ p ∈ ps, aloc h.mem (hdrp p) = 0 →
    ∃ c : Nat, c < 9 ∧ classof (size h.mem (hdrp p)) = some (c : Int) ∧
      (fl c).count p = 1 ∧ ∀ d, d < 9 → d ≠ c → p ∉ fl d
  nodes : ∀ c, c < 9 → ∀ x ∈ fl c, x ∈ ps ∧ aloc h.mem (hdrp x) = 0
  links : ∀ c, c < 9 → ∀ x ∈ (h.beginHeap + 8 * c) :: fl c,
    prev h.mem (next h.mem x) = x ∧ next h.mem (prev h.mem x) = x

section

variable {h : Heap} {bs : List Blk} {fl : Nat → List Nat}

/-- The macros on a block of the row. -/
theorem Rest.macros (o : Rest h bs fl) {b : Blk} (hb : b ∈ bs) :
    get h.mem (hdrp b.addr) = b.tag ∧ size h.mem (hdrp b.addr) = b.size ∧
      aloc h.mem (hdrp b.addr) = b.alloc.toNat ∧ get h.mem (ftrp h.mem b.addr) = b.tag ∧
      nextblk h.mem b.addr = b.addr + b.size := by
  have hm : b ∈ bs ++ [] := List.mem_append_left _ hb
  have hbm := o.mem hm
  have h8 := o.vars.begin8
  have hlt := o.vars.lt
  obtain ⟨ht1, ht2⟩ := o.tags b hm
  have hh : hdrp b.addr = b.addr - 4 := hdrp_eq (by omega) (by omega)
  have hs : size h.mem (hdrp b.addr) = b.size := by
    rw [hh]
    exact size_of_tag hbm.2.2.2.1 ht1
  have hn : nextblk h.mem b.addr = b.addr + b.size := by
    unfold nextblk
    rw [hs, u32_of_lt (by omega)]
  refine ⟨by rw [hh, ht1], hs, o.aloc_eq hm, ?_, hn⟩
  unfold ftrp
  rw [hn, pftrp_eq (by omega) (by omega), ht2]

theorem Rest.walk (o : Rest h bs fl) {l : List Blk} :
    ∀ {a e : Nat}, (∀ b ∈ l, b ∈ bs) → Tiles a l e → Walk h.mem a (l.map Blk.addr) e := by
  induction l with
  | nil => exact fun _ ht => ht
  | cons b l ih =>
      intro a e hsub ht
      obtain ⟨hba, -, -, ht⟩ := ht
      refine ⟨hba, ?_⟩
      rw [← hba, (o.macros (hsub b List.mem_cons_self)).2.1]
      rw [← hba] at ht
      exact ih (fun c hc => hsub c (List.mem_cons_of_mem _ hc)) ht

theorem Rest.wellFormed (o : Rest h bs fl) (hna : NoAdj Blk.alloc bs) :
    ∃ ps, WellFormed h ps fl := by
  obtain ⟨l, rfl⟩ := o.pro
  have h8 := o.vars.begin8
  have hlt := o.vars.lt
  have hb := o.begin_le
  have hsub : ∀ b ∈ l, b ∈ prologue h.beginHeap :: l := fun b hb => List.mem_cons_of_mem _ hb
  -- A listed node is a free block behind the prologue.
  have hnode : ∀ c, c < 9 → ∀ x ∈ fl c, ∃ b ∈ l, b.addr = x ∧ b.alloc = false := by
    intro c hc x hx
    obtain ⟨b, hb, hba, hbf, -⟩ := o.free_block hc hx
    rcases List.mem_cons.mp hb with rfl | hb
    · exact Bool.noConfusion hbf
    · exact ⟨b, hb, hba, hbf⟩
  refine ⟨l.map Blk.addr, ?_, o.vars.top, ?_, fun p hp => ?_, ?_, o.rings.ring,
    fun p hp hf => ?_, fun c hc x hx => ?_, fun c hc x hx => ?_⟩
  · have hn : nextblk h.mem h.beginHeap = h.beginHeap + 80 :=
      (o.macros (b := prologue h.beginHeap) List.mem_cons_self).2.2.2.2
    rw [hn]
    exact o.walk hsub o.tilesL.2.2.2
  · rw [hdrp_eq (by omega) (by omega)]
    exact o.epi
  · obtain ⟨b, hb, rfl⟩ := List.mem_map.mp hp
    obtain ⟨m1, m2, m3, m4, -⟩ := o.macros (hsub b hb)
    have hbm := o.mem (List.mem_append_left _ (hsub b hb))
    rw [m1, m2, m3, m4]
    exact ⟨rfl, rfl, hbm.2.2.2.1, hbm.2.2.1⟩
  · rw [List.isChain_map]
    refine (List.isChain_cons.mp hna).2.imp_of_mem_imp fun b c hb hc hbc => ?_
    rw [(o.macros (hsub b hb)).2.2.1, (o.macros (hsub c hc)).2.2.1]
    rcases hbc with hbc | hbc
    · rw [hbc]
      exact Or.inl Nat.one_ne_zero
    · rw [hbc]
      exact Or.inr Nat.one_ne_zero
  · obtain ⟨b, hb, rfl⟩ := List.mem_map.mp hp
    have hbm := o.mem (List.mem_append_left _ (hsub b hb))
    rw [(o.macros (hsub b hb)).2.2.1] at hf
    rw [(o.macros (hsub b hb)).2.1, classof_eq hbm.2.2.1]
    have hbf : b.alloc = false := by
      cases hba : b.alloc with
      | false => rfl
      | true =>
          rw [hba] at hf
          exact absurd hf Nat.one_ne_zero
    have hin : b.addr ∈ fl (classIdx b.size) := (o.listed _ (classIdx_lt _) _).mpr
      ⟨b, List.mem_append_left _ (hsub b hb), rfl, hbf, rfl⟩
    refine ⟨_, classIdx_lt _, rfl, ?_, fun d hd hdc hm => ?_⟩
    · exact List.count_eq_one_of_mem (o.rings.nodup _ (classIdx_lt _)) hin
    · exact o.rings.disj d _ hd (classIdx_lt _) hdc _ hm hin
  · obtain ⟨b, hb, rfl, hbf⟩ := hnode c hc x hx
    refine ⟨List.mem_map_of_mem hb, ?_⟩
    rw [(o.macros (hsub b hb)).2.2.1, hbf]
    rfl
  · exact ⟨((o.rings.ring c hc).next hx).2, ((o.rings.ring c hc).prev hx).2⟩

end

/-- Every call the user may make on the state returns, if it need not pass the end of
the address space. -/
def Returns (s : State) : Prop :=
  (∀ size, size ≤ maxRequest → MallocInRange s.heap size →
      ∃ r, mmMalloc s.heap size = some r) ∧
    (∀ p n, (p, n) ∈ s.live → ∃ h', mmFree s.heap p = some h') ∧
    ∀ p n size, (p, n) ∈ s.live → size ≤ maxRequest → ReallocInRange s.heap p size →
      ∃ r, mmRealloc s.heap p size = some r

theorem RunInv.returns {s : State} {bs : List Blk} {fl : Nat → List Nat}
    (hi : RunInv s.heap s.live bs fl) : Returns s := by
  refine ⟨fun size hs hr => ?_, fun p n hp => ?_, fun p n size hp hs hr => ?_⟩
  · obtain ⟨h', p, heq, -⟩ := hi.malloc hs hr
    exact ⟨_, heq⟩
  · obtain ⟨h', heq, -⟩ := hi.free hp
    refine ⟨h', ?_⟩
    unfold mmFree
    rw [if_neg (hi.live_pos hp), heq]
  · by_cases h0 : size = 0
    · obtain ⟨h', heq, -⟩ := hi.free hp
      refine ⟨(h', 0), ?_⟩
      unfold mmRealloc
      rw [if_neg (hi.live_pos hp), if_pos h0, heq, Option.bind_eq_bind, Option.bind_some]
      rfl
    · obtain ⟨h', q, heq, -⟩ := hi.realloc hp h0 hs hr
      exact ⟨_, heq⟩

/-- After every call of every run the heap is in order, and every further call
returns. -/
theorem reachable_wellFormed {s : State} (hr : Reachable s) :
    (∃ ps fl, WellFormed s.heap ps fl) ∧ Returns s := by
  obtain ⟨bs, fl, hi⟩ := hr.inv
  obtain ⟨ps, hw⟩ := hi.rest.wellFormed hi.noAdj
  exact ⟨⟨ps, fl, hw⟩, hi.returns⟩

/-- An empty simulated heap of 64 KiB. -/
def emptyHeap : Heap := ⟨fun _ => 0, 4096, 4096, 69632, 0, 0⟩

theorem emptyHeap_fresh : Fresh emptyHeap := by
  constructor <;> decide

/-- The first `mm_malloc(100)` on it succeeds. -/
theorem emptyHeap_malloc : ∃ h p, p ≠ 0 ∧ Reachable ⟨h, [(p, 100)]⟩ ∧ h.maxAddr = 69632 := by
  obtain ⟨h, fl, hm, o, hb, -, hx, -⟩ := mmInit_spec emptyHeap_fresh (by decide)
  have hr := Reachable.init emptyHeap_fresh hm
  have hn : allocSize 100 = 112 := by decide
  have hin : AllocInRange h 112 := o.allocInRange_of_le (by rw [hx]; decide) 112
  rcases allocateBlock_spec o (n := 112) (by omega) (by omega) (by omega) (by omega) hin with
    ⟨-, hall, -⟩ | ⟨h', p, bs', fl', s, hal, hA, -⟩
  · have := hall ⟨emptyHeap.brk + 80, 4016, false⟩ (by simp) rfl
    exact absurd this (by decide)
  · have hge := hA.ge
    have hp : p ≠ 0 := by omega
    have hs : mmMalloc h 100 = some (h', p) := by
      rw [mmMalloc_eq (by omega), hn, hal]
    have hst := hr.step (Step.malloc (by decide) hs)
    unfold withNew at hst
    rw [if_neg hp] at hst
    exact ⟨h', p, hp, hst, hA.maxEq.trans hx⟩

theorem reachable_wellFormed_malloc :
    ∃ h p, p ≠ 0 ∧ Reachable ⟨h, [(p, 100)]⟩ ∧ ∃ ps fl, WellFormed h ps fl := by
  obtain ⟨h, p, hp, hr, -⟩ := emptyHeap_malloc
  exact ⟨h, p, hp, hr, (reachable_wellFormed hr).1⟩

end Csapp.Malloc
