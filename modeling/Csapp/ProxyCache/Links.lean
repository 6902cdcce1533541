import Mathlib
import Csapp.Lib.Ring
import Csapp.ProxyCache.Model

/-!
# The list behind the links

A cache whose links form a ring is a list of entries, the newest first. The
three edits are insertion at the front, a move to the front, and removal; each
touches the links, at most one patience, the free space and one allocation, and
leaves the rest of every entry alone.
-/

namespace Csapp.ProxyCache

/-- The ring through the head is `l`; the allocated nodes are these, the head and
the entry in hand, if there is one. -/
structure Listed (c : Cache) (hand l : List Ptr) : Prop where
  ring : Ring c.next c.prev head l
  nodup : (head :: (hand ++ l)).Nodup
  live : ∀ p, c.live p = true ↔ p ∈ head :: (hand ++ l)

theorem Listed.nodup_ring {c : Cache} {hand l : List Ptr} (h : Listed c hand l) :
    (head :: l).Nodup :=
  h.nodup.sublist (List.Sublist.cons_cons _ (List.sublist_append_right hand l))

theorem Listed.init (maxsize : Nat) : Listed (cacheInit maxsize) [] [] where
  ring := ⟨rfl, rfl⟩
  nodup := by simp
  live p := by simp [cacheInit]

/-! ## Insertion -/

theorem cacheInsert_ring {c : Cache} {n : Ptr} {l : List Ptr} (hr : Ring c.next c.prev head l)
    (hnd : (head :: l).Nodup) (hn : n ∉ head :: l) :
    Ring (cacheInsert c n).next (cacheInsert c n).prev head (n :: l) := by
  have hne : n ≠ head := fun he => hn (he ▸ List.mem_cons_self)
  have hfirst : c.next head ∈ head :: l := (hr.next List.mem_cons_self).1
  have hne' : c.next head ≠ n := fun he => hn (he ▸ hfirst)
  refine hr.insert hnd ?_ ?_ ?_ ?_ ?_ ?_ <;>
    simp only [cacheInsert, Cache.setNext, Cache.setPrev]
  · simp
  · simp [hne]
  · simp
  · simp [hne.symm, hne']
  · intro z hz
    have h1 : z ≠ n := fun he => hn (List.mem_cons_of_mem _ (he ▸ hz))
    have h2 : z ≠ head := fun he => (List.nodup_cons.mp hnd).1 (he ▸ hz)
    simp [h1, h2]
  · intro z hz hzf
    have h1 : z ≠ n := fun he => hn (he ▸ hz)
    simp [h1, hzf, hne.symm]

theorem Listed.insert {c : Cache} {n : Ptr} {l : List Ptr} (h : Listed c [n] l) :
    Listed (cacheInsert c n) [] (n :: l) where
  ring := by
    refine cacheInsert_ring h.ring h.nodup_ring ?_
    intro hn
    have hnd := h.nodup
    simp only [List.cons_append, List.nil_append, List.nodup_cons, List.mem_cons] at hnd hn
    tauto
  nodup := h.nodup
  live := h.live

/-! ## Removal -/

theorem unlink_ring {c : Cache} {n : Ptr} {l₁ l₂ : List Ptr} {nx pv : Ptr → Ptr}
    (hr : Ring c.next c.prev head (l₁ ++ n :: l₂)) (hnd : (head :: (l₁ ++ n :: l₂)).Nodup)
    (hnx : nx = Function.update c.next (c.prev n) (c.next n))
    (hpv : pv = Function.update c.prev (c.next n) (c.prev n)) :
    Ring nx pv head (l₁ ++ l₂) := by
  refine hr.remove hnd ?_ ?_ ?_ ?_
  · rw [hnx, Function.update_self]
  · rw [hpv, Function.update_self]
  · intro z _ hz
    rw [hnx, Function.update_of_ne hz]
  · intro z _ hz
    rw [hpv, Function.update_of_ne hz]

theorem Listed.evict {c : Cache} {hand : List Ptr} {n : Ptr} {l₁ l₂ : List Ptr}
    (h : Listed c hand (l₁ ++ n :: l₂)) : Listed (cacheEvict c n) hand (l₁ ++ l₂) where
  ring := by
    obtain ⟨-, hp⟩ := Ring.apart (n := n) h.ring h.nodup_ring (by simp)
    refine unlink_ring h.ring h.nodup_ring rfl ?_
    simp only [cacheEvict, Cache.addFree, Cache.free, Cache.setPrev, Cache.setNext]
    rw [Function.update_of_ne hp.symm]
  nodup := h.nodup.sublist (by
    refine List.Sublist.cons_cons _ (List.Sublist.append_left ?_ _)
    exact List.Sublist.append_left (List.sublist_cons_self n l₂) _)
  live p := by
    have hnd := h.nodup
    have hl := h.live p
    change Function.update c.live n false p = true ↔ _
    by_cases hpn : p = n
    · subst hpn
      rw [Function.update_self]
      simp only [List.nodup_cons, List.nodup_append, List.mem_append, List.mem_cons] at hnd ⊢
      have h3 := hnd.2.2.2
      have h4 := hnd.2.2.1.2.2
      simp only [Bool.false_eq_true, false_iff]
      rintro (rfl | hm | hm | hm)
      · exact hnd.1 (.inr (.inr (.inl rfl)))
      · exact h3 p hm p (.inr (.inl rfl)) rfl
      · exact h4 p hm p (.inl rfl) rfl
      · exact hnd.2.2.1.2.1.1 hm
    · rw [Function.update_of_ne hpn, hl]
      simp only [List.mem_cons, List.mem_append]
      tauto

/-! ## Promotion -/

theorem Listed.promote {c : Cache} {hand : List Ptr} {n : Ptr} {l₁ l₂ : List Ptr}
    (h : Listed c hand (l₁ ++ n :: l₂)) :
    Listed (cachePromote c n) hand (n :: (l₁ ++ l₂)) where
  ring := by
    obtain ⟨hx, hp⟩ := Ring.apart (n := n) h.ring h.nodup_ring (by simp)
    have hnd := h.nodup_ring
    -- promotion is removal followed by insertion
    let u : Cache := { c with
      next := Function.update c.next (c.prev n) (c.next n)
      prev := Function.update c.prev (c.next n) (c.prev n) }
    have hu : Ring u.next u.prev head (l₁ ++ l₂) := unlink_ring h.ring hnd rfl rfl
    have hndu : (head :: (l₁ ++ l₂)).Nodup := hnd.sublist
      (List.Sublist.cons_cons _ (List.Sublist.append_left (List.sublist_cons_self n l₂) _))
    have hnu : n ∉ head :: (l₁ ++ l₂) := by
      simp only [List.nodup_cons, List.mem_append, List.mem_cons, List.nodup_append] at hnd
      have h4 := hnd.2.2.2
      simp only [List.mem_cons, List.mem_append]
      rintro (rfl | hm | hm)
      · exact hnd.1 (.inr (.inl rfl))
      · exact h4 n hm n (.inl rfl) rfl
      · exact hnd.2.2.1.1 hm
    have hi := cacheInsert_ring hu hndu hnu
    have hfirst : u.next head ≠ n := fun he => hnu (he ▸ (hu.next List.mem_cons_self).1)
    have hne : head ≠ n := fun he => hnu (he ▸ List.mem_cons_self)
    have hnx : (cachePromote c n).next = (cacheInsert u n).next := by
      simp only [cachePromote, cacheInsert, Cache.setNext, Cache.setPrev, Cache.setPatience]
      rw [Function.update_of_ne hx.symm]
    have hpv : (cachePromote c n).prev = (cacheInsert u n).prev := by
      simp only [cachePromote, cacheInsert, Cache.setNext, Cache.setPrev, Cache.setPatience]
      rw [Function.update_of_ne hx.symm, Function.update_of_ne hne]
      exact (Function.update_comm hfirst _ _ _).symm
    rw [hnx, hpv]
    exact hi
  nodup := by
    refine (List.Perm.nodup_iff (List.Perm.cons _ (List.Perm.append_left _ ?_))).mp h.nodup
    exact List.perm_middle
  live p := by
    change c.live p = true ↔ _
    rw [h.live p]
    simp only [List.mem_cons, List.mem_append]
    tauto

end Csapp.ProxyCache
