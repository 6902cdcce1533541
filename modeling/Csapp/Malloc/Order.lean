import Mathlib
import Csapp.Malloc.Extent
import Csapp.Malloc.Grow
import Csapp.Malloc.Undo

/-!
# The order of frees

Two orders of freeing the same blocks go through different merges. What they end
in is the same because it can be told without the way there: the allocated
blocks are the old ones less the freed, and where no two free blocks are
neighbours the allocated ones determine all the others.
-/

namespace Csapp.Malloc

/-! ## The allocated blocks determine the row -/

/-- Two rows over the same addresses that start with a free block start with
the same one, since what follows it is allocated. -/
theorem Tiles.free_head_le {l l' : List Blk} {b b' : Blk} {a e : Nat}
    (h : Tiles a (b :: l) e) (h' : Tiles a (b' :: l') e) (hn : NoAdj Blk.alloc (b :: l))
    (hb : b.alloc = false) (hb' : b'.alloc = false)
    (hm : ∀ c, c.alloc = true → c ∈ b :: l → c ∈ b' :: l') : b'.size ≤ b.size := by
  obtain ⟨-, -, -, ht⟩ := h
  obtain ⟨-, -, -, ht'⟩ := h'
  cases l with
  | nil =>
    have hend : a + b.size = e := ht
    have := ht'.le
    omega
  | cons c l =>
    have hc : c.alloc = true := by
      have := (List.isChain_cons_cons.mp hn).1
      rw [hb] at this
      exact this.resolve_left Bool.false_ne_true
    rcases List.mem_cons.mp (hm c hc (by simp)) with rfl | hc'
    · rw [hb'] at hc
      exact Bool.noConfusion hc
    · have h1 := ht.1
      have h2 := (ht'.mem hc').1
      omega

theorem Tiles.head_eq {l l' : List Blk} {b b' : Blk} {a e : Nat}
    (h : Tiles a (b :: l) e) (h' : Tiles a (b' :: l') e) (hb : b ∈ b' :: l') : b = b' := by
  rcases List.mem_cons.mp hb with hb | hb
  · exact hb
  · have h1 := h.1
    have h2 := h'.2.1
    have h3 := (h'.2.2.2.mem hb).1
    omega

theorem tiles_determined {l : List Blk} :
    ∀ {l' : List Blk} {a e : Nat}, Tiles a l e → Tiles a l' e → NoAdj Blk.alloc l →
      NoAdj Blk.alloc l' → (∀ c, c.alloc = true → (c ∈ l ↔ c ∈ l')) → l = l' := by
  induction l with
  | nil =>
    intro l' a e h h' _ _ _
    obtain rfl : a = e := h
    exact h'.eq_nil.symm
  | cons b l ih =>
    intro l' a e h h' hn hn' hm
    cases l' with
    | nil =>
      obtain rfl : a = e := h'
      exact h.eq_nil
    | cons b' l' =>
      have hhead : b = b' := by
        cases hb : b.alloc with
        | true => exact h.head_eq h' ((hm b hb).mp List.mem_cons_self)
        | false =>
          cases hb' : b'.alloc with
          | true => exact (h'.head_eq h ((hm b' hb').mpr List.mem_cons_self)).symm
          | false =>
            have h1 := h.free_head_le h' hn hb hb' fun c hc => (hm c hc).mp
            have h2 := h'.free_head_le h hn' hb' hb fun c hc => (hm c hc).mpr
            have h3 := h.1
            have h4 := h'.1
            cases b with
            | mk x s st => cases b' with
              | mk x' s' st' =>
                simp only [Blk.mk.injEq] at *
                exact ⟨by omega, by omega, hb.trans hb'.symm⟩
      obtain ⟨ha, h16, -, ht⟩ := h
      obtain ⟨-, -, -, ht'⟩ := h'
      subst hhead
      refine congrArg (b :: ·) (ih ht ht' (List.isChain_cons.mp hn).2
        (List.isChain_cons.mp hn').2 fun c hc => ?_)
      -- The head is in neither rest.
      have hne : c ∈ l ∨ c ∈ l' → c ≠ b := by
        rintro hor rfl
        have : a + c.size ≤ c.addr := hor.elim (fun hx => (ht.mem hx).1) fun hx => (ht'.mem hx).1
        omega
      have := hm c hc
      simp only [List.mem_cons] at this
      tauto

/-! ## One free, and a list of them -/

section

variable {h : Heap} {bs : List Blk} {fl : Nat → List Nat} {live : List (Nat × Nat)}

theorem mmFree_eq {p : Nat} (hp : p ≠ 0) : mmFree h p = mmFreeNonnull h p := if_neg hp

/-- `h'` is `h` with the blocks at `ps` no longer allocated. -/
structure Freed (h h' : Heap) (bs : List Blk) (ps : List Nat) (live' : List (Nat × Nat))
    (bs' : List Blk) (fl' : Nat → List Nat) : Prop where
  inv : RunInv h' live' bs' fl'
  beginEq : h'.beginHeap = h.beginHeap
  endEq : h'.endHeap = h.endHeap
  allocIff : ∀ c, c.alloc = true → (c ∈ bs' ↔ c ∈ bs ∧ c.addr ∉ ps)

theorem RunInv.freed {p n : Nat} (hi : RunInv h live bs fl) (hp : (p, n) ∈ live) :
    ∃ h' bs' fl', mmFree h p = some h' ∧ Freed h h' bs [p] (live.erase (p, n)) bs' fl' := by
  obtain ⟨l, b, r, rfl, rfl, ha, hb, -⟩ := hi.liveBlk hp
  obtain ⟨m', l', a', r', e', fl', heq, o', hl, hr, -⟩ := mmFreeNonnull_spec hi.rest ha hb
  have ht : Tracks (Owned (l' ++ ⟨a', e' - a', false⟩ :: r') h.beginHeap)
      (live.erase (b.addr, n)) := Tracks.free hi.rest hi.tracks hb ha hp hl hr rfl
  refine ⟨_, _, fl', (mmFree_eq (hi.live_pos hp)).trans heq,
    ⟨o', hi.noAdj.merge hl hr (fun _ _ => rfl) _, ht, hi.chunks⟩, rfl, rfl, fun c hc => ?_⟩
  have hcx : c ≠ ⟨a', e' - a', false⟩ := by
    rintro rfl
    exact Bool.noConfusion hc
  rw [mem_middle, or_iff_left hcx, hi.rest.merge_iff hb hl hr hc, List.mem_singleton]
  refine and_congr_right fun hm => not_congr ⟨congrArg Blk.addr, fun he => ?_⟩
  exact hi.rest.addr_inj (List.mem_append_left _ hm) (by simp) he

/-- The calls of `mm_free` on the pointers of a list. -/
def freeAll (ps : List Nat) (h : Heap) : Option Heap := ps.foldlM mmFree h

theorem RunInv.freeAll {ps : List Nat} :
    ∀ {h : Heap} {bs : List Blk} {fl : Nat → List Nat} {live : List (Nat × Nat)},
      RunInv h live bs fl → ps.Nodup → (∀ p ∈ ps, ∃ n, (p, n) ∈ live) →
      ∃ h' live' bs' fl', Malloc.freeAll ps h = some h' ∧ Freed h h' bs ps live' bs' fl' := by
  induction ps with
  | nil =>
    intro h bs fl live hi _ _
    exact ⟨h, live, bs, fl, rfl, hi, rfl, rfl, fun c _ => by simp⟩
  | cons p ps ih =>
    intro h bs fl live hi hnd hlive
    obtain ⟨hp, hnd⟩ := List.nodup_cons.mp hnd
    obtain ⟨n, hn⟩ := hlive p List.mem_cons_self
    obtain ⟨h₁, bs₁, fl₁, heq, hf⟩ := hi.freed hn
    obtain ⟨h', live', bs', fl', heq', hf'⟩ := ih hf.inv hnd fun q hq => by
      obtain ⟨k, hk⟩ := hlive q (List.mem_cons_of_mem _ hq)
      refine ⟨k, (List.mem_erase_of_ne fun he => hp ?_).mpr hk⟩
      exact (Prod.mk.inj he).1 ▸ hq
    refine ⟨h', live', bs', fl', ?_, hf'.inv, hf'.beginEq.trans hf.beginEq,
      hf'.endEq.trans hf.endEq, fun c hc => ?_⟩
    · unfold Malloc.freeAll at heq' ⊢
      rw [List.foldlM_cons, heq]
      exact heq'
    · rw [hf'.allocIff c hc, hf.allocIff c hc, List.mem_singleton, List.mem_cons, not_or,
        and_assoc]

/-! ## Two orders -/

/-- Freeing the same pointers leaves the same blocks. -/
theorem Freed.blocks_eq {h₁ h₂ : Heap} {ps qs : List Nat} {live₁ live₂ : List (Nat × Nat)}
    {bs₁ bs₂ : List Blk} {fl₁ fl₂ : Nat → List Nat} (hf₁ : Freed h h₁ bs ps live₁ bs₁ fl₁)
    (hf₂ : Freed h h₂ bs qs live₂ bs₂ fl₂) (hp : ∀ p, p ∈ ps ↔ p ∈ qs) : bs₁ = bs₂ := by
  have ht₁ : Tiles h.beginHeap bs₁ h.endHeap := by
    rw [← hf₁.beginEq, ← hf₁.endEq]
    exact hf₁.inv.rest.tilesL
  have ht₂ : Tiles h.beginHeap bs₂ h.endHeap := by
    rw [← hf₂.beginEq, ← hf₂.endEq]
    exact hf₂.inv.rest.tilesL
  refine tiles_determined ht₁ ht₂ hf₁.inv.noAdj hf₂.inv.noAdj fun c hc => ?_
  rw [hf₁.allocIff c hc, hf₂.allocIff c hc, hp]

/-- The heap of one free block. -/
def oneFree (h : Heap) : List Blk :=
  [prologue h.beginHeap, ⟨h.beginHeap + 80, h.endHeap - (h.beginHeap + 80), false⟩]

/-- If nothing is left to the user, the rest of the heap is one free block. -/
theorem RunInv.oneFree (hi : RunInv h live bs fl)
    (hall : ∀ c ∈ bs, c.alloc = true → c = prologue h.beginHeap) : bs = Malloc.oneFree h := by
  obtain ⟨l, rfl⟩ := hi.rest.pro
  obtain ⟨-, -, -, ht⟩ := hi.rest.tilesL
  have hfree : ∀ c ∈ l, c.alloc = false := fun c hc => by
    cases ha : c.alloc with
    | false => rfl
    | true =>
      have he := congrArg Blk.addr (hall c (List.mem_cons_of_mem _ hc) ha)
      have hge := (ht.mem hc).1
      unfold prologue at he hge
      dsimp only at he hge
      omega
  cases l with
  | nil =>
    have hend : h.beginHeap + 80 = h.endHeap := ht
    exact absurd hend.symm hi.last_ne
  | cons c l =>
    obtain ⟨hca, -, -, ht⟩ := ht
    cases l with
    | nil =>
      have hend : h.beginHeap + 80 + c.size = h.endHeap := ht
      have hc := hfree c List.mem_cons_self
      unfold Malloc.oneFree
      congr 2
      cases c with
      | mk x s st =>
        simp only [prologue] at hca hend hc
        rw [Blk.mk.injEq]
        exact ⟨hca, by omega, hc⟩
    | cons d l =>
      have hcd := (List.isChain_cons_cons.mp (List.isChain_cons_cons.mp hi.noAdj).2).1
      rw [hfree c (by simp), hfree d (by simp)] at hcd
      simp at hcd

/-- Freeing distinct live blocks in two orders ends in the same blocks and, up to
order, the same class lists; with nothing left to the user, in one free block. -/
theorem freeAll_order (hr : Reachable ⟨h, live⟩) {ps qs : List Nat} (hnd : ps.Nodup)
    (hlive : ∀ p ∈ ps, ∃ n, (p, n) ∈ live) (hperm : ps.Perm qs) :
    ∃ h₁ h₂ live₁ live₂ bs' fl₁ fl₂, freeAll ps h = some h₁ ∧ freeAll qs h = some h₂ ∧
      RunInv h₁ live₁ bs' fl₁ ∧ RunInv h₂ live₂ bs' fl₂ ∧
      (∀ c, c < 9 → (fl₁ c).Perm (fl₂ c)) ∧
      ((∀ p n, (p, n) ∈ live → p ∈ ps) → bs' = oneFree h) := by
  obtain ⟨bs, fl, hi⟩ := hr.inv
  obtain ⟨h₁, live₁, bs₁, fl₁, he₁, hf₁⟩ := hi.freeAll hnd hlive
  obtain ⟨h₂, live₂, bs₂, fl₂, he₂, hf₂⟩ := hi.freeAll (hperm.nodup hnd)
    fun p hp => hlive p (hperm.mem_iff.mpr hp)
  obtain rfl := hf₁.blocks_eq hf₂ fun p => hperm.mem_iff
  refine ⟨h₁, h₂, live₁, live₂, bs₁, fl₁, fl₂, he₁, he₂, hf₁.inv, hf₂.inv, fun c hc => ?_,
    fun hall => ?_⟩
  · exact hf₂.inv.rest.perm hf₁.inv.rest hc
  · have h1 : bs₁ = oneFree h₁ := hf₁.inv.oneFree fun c hc ha => ?_
    · rw [h1]
      unfold Malloc.oneFree
      rw [hf₁.beginEq, hf₁.endEq]
    · obtain ⟨hm, hne⟩ := (hf₁.allocIff c ha).mp hc
      rw [hf₁.beginEq]
      by_contra hpro
      obtain ⟨n, hn⟩ := hi.tracks.held c ⟨hm, ha, hpro⟩
      exact hne (hall _ _ hn)

end

/-- Three blocks side by side: the middle one first, or last, between two free ones. -/
theorem freeAll_order_three : ∃ h p q r, Reachable ⟨h, [(r, 100), (q, 100), (p, 100)]⟩ ∧
    ∃ h₁ h₂ live₁ live₂ fl₁ fl₂, freeAll [q, p, r] h = some h₁ ∧ freeAll [p, r, q] h = some h₂ ∧
      RunInv h₁ live₁ (oneFree h) fl₁ ∧ RunInv h₂ live₂ (oneFree h) fl₂ ∧
      ∀ c, c < 9 → (fl₁ c).Perm (fl₂ c) := by
  obtain ⟨h₀, -, hm, -, -, -, hmax, hbrk⟩ := mmInit_spec emptyHeap_fresh (by decide)
  have hmx : h₀.maxAddr = 69632 := hmax
  have hbk : h₀.brk = 8192 := hbrk
  have hroom : room 100 = 8315 := rfl
  have hle : 100 ≤ maxRequest := by decide
  obtain ⟨h₁, p, hr, hb₁, hm₁⟩ := (Reachable.init emptyHeap_fresh hm).malloc_room (by omega) hle
    (by omega) (by omega) (by omega)
  obtain ⟨h₂, q, hr, hb₂, hm₂⟩ := hr.malloc_room (by omega) hle (by omega) (by omega) (by omega)
  obtain ⟨h, r, hr, -, -⟩ := hr.malloc_room (by omega) hle (by omega) (by omega) (by omega)
  obtain ⟨bs, fl, hi⟩ := hr.inv
  have hrev : ([(r, 100), (q, 100), (p, 100)].map Prod.fst).Perm [q, p, r] :=
    (List.perm_append_comm : ([r] ++ [q, p]).Perm _)
  have hswap : [q, p, r].Perm [p, r, q] :=
    (List.Perm.swap p q [r]).trans ((List.Perm.swap r q []).cons p)
  obtain ⟨h₃, h₄, live₁, live₂, bs', fl₁, fl₂, he₁, he₂, hi₁, hi₂, hp, hone⟩ :=
    freeAll_order hr (hrev.nodup hi.tracks.nodup) (fun x hx => by
      obtain ⟨⟨y, n⟩, hy, rfl⟩ := List.mem_map.mp (hrev.mem_iff.mpr hx)
      exact ⟨n, hy⟩) hswap
  obtain rfl := hone fun x n hx => hrev.mem_iff.mp (List.mem_map.mpr ⟨(x, n), hx, rfl⟩)
  exact ⟨h, p, q, r, hr, h₃, h₄, live₁, live₂, fl₁, fl₂, he₁, he₂, hi₁, hi₂, hp⟩

end Csapp.Malloc
