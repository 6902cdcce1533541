import Mathlib
import Csapp.Malloc.Invariant

/-!
# The user's bytes

What the blocks and lists are kept for. A call leaves the payloads of all blocks
alone that it does not free or move, to the last byte before the footer, and a
block that is moved takes its bytes along.
-/

namespace Csapp.Malloc

/-- The payload at `p`, all that lies between header and footer. -/
def SamePayload (h h' : Heap) (p : Nat) : Prop :=
  ∀ z, p ≤ z → z + 8 < p + size h.mem (hdrp p) → h'.mem z = h.mem z

section

variable {h h' : Heap} {bs : List Blk} {fl : Nat → List Nat} {live : List (Nat × Nat)}

/-- The payload of an owned block consists of user bytes. -/
theorem Rest.samePayload (o : Rest h bs fl) {c : Blk} (hc : Owned bs h.beginHeap c)
    {bs' : List Blk} (hc' : c ∈ bs')
    (hu : ∀ z, UserByte bs' h.beginHeap z → h'.mem z = h.mem z) :
    SamePayload h h' c.addr := by
  intro z hz hz'
  rw [(o.macros hc.1).2.1] at hz'
  exact hu z ⟨c, hc', hc.2.1, hc.2.2, hz, hz'⟩

theorem RunInv.malloc_payload {n p q k : Nat} (hi : RunInv h live bs fl) (hs : n ≤ maxRequest)
    (hm : mmMalloc h n = some (h', p)) (hq : (q, k) ∈ live) : SamePayload h h' q := by
  obtain ⟨c, hc, rfl, -⟩ := hi.tracks.block q k hq
  refine hi.rest.samePayload hc hc.1 ?_
  cases hi.malloc_cases hs (hi.mallocInRange hm) with
  | inl heq =>
    rw [heq] at hm
    cases hm
    exact fun _ _ => rfl
  | inr hA =>
    obtain ⟨h₁, p₁, bs', fl', s, heq, hA⟩ := hA
    rw [heq] at hm
    cases hm
    exact hA.user

/-- An owned block other than `b` is to the left or the right of it. -/
theorem mem_around {l r : List Blk} {b c : Blk} (hc : c ∈ l ++ b :: r) (hne : c ≠ b) :
    c ∈ l ++ r := (mem_middle.mp hc).resolve_right hne

theorem RunInv.free_payload {p n q k : Nat} (hi : RunInv h live bs fl) (hp : (p, n) ∈ live)
    (hm : mmFreeNonnull h p = some h') (hq : (q, k) ∈ live) (hne : q ≠ p) :
    SamePayload h h' q := by
  obtain ⟨c, hc, rfl, -⟩ := hi.tracks.block q k hq
  obtain ⟨l, b, r, rfl, rfl, ha, hb, -⟩ := hi.liveBlk hp
  obtain ⟨m', l', a', r', e', fl', heq, -, -, -, hu⟩ := mmFreeNonnull_spec hi.rest ha hb
  rw [heq] at hm
  cases hm
  exact hi.rest.samePayload hc (mem_around hc.1 fun he => hne (congrArg Blk.addr he)) hu

/-- A realloc leaves the others alone and carries the bytes over. -/
theorem RunInv.realloc_payload {p n k q : Nat} (hi : RunInv h live bs fl)
    (hp : (p, n) ∈ live) (h0 : k ≠ 0) (hs : k ≤ maxRequest)
    (hm : mmRealloc h p k = some (h', q)) (hq0 : q ≠ 0) :
    (∀ r j, (r, j) ∈ live → r ≠ p → SamePayload h h' r) ∧
      ∀ i, i < min n k → h'.mem (q + i) = h.mem (p + i) := by
  cases hi.realloc_cases hp h0 hs (hi.reallocInRange hp hm) with
  | inl heq =>
    obtain ⟨h₁, heq⟩ := heq
    rw [heq] at hm
    cases hm
    exact absurd rfl hq0
  | inr hR =>
    obtain ⟨l, b, r, h₁, q₁, bs', fl', s, rfl, rfl, -, -, hn, heq, hR⟩ := hR
    unfold maxRequest at hs
    have hbnd := allocSize_bounds (show k ≤ 4294967280 by omega)
    rw [heq] at hm
    cases hm
    constructor
    · intro x j hx hne
      obtain ⟨c, hc, rfl, -⟩ := hi.tracks.block x j hx
      exact hi.rest.samePayload hc (mem_around hc.1 fun he => hne (congrArg Blk.addr he)) hR.user
    · intro i hlt
      exact hR.copy i (by omega)

end

end Csapp.Malloc
