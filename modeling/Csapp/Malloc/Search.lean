import Mathlib
import Csapp.Malloc.Coalesce

/-!
# The search of `allocate_block`

The two nested loops walk the lists of the request's class and of all larger
classes. They end, because a list is a ring without repetition whose nodes lie
in the heap, and together they decide whether the heap has a free block that
is large enough: a block that fits is in a class that is searched, because the
class of a size grows with the size.
-/

namespace Csapp.Malloc

/-! ## A heap at rest -/

/-- The heap with the region closed: blocks `bs`, the prologue first, and free
lists `fl`. -/
def Rest (h : Heap) (bs : List Blk) (fl : Nat → List Nat) : Prop :=
  Open h bs h.endHeap h.endHeap [] fl

theorem Open.rest {h : Heap} {fl : Nat → List Nat} {r : List Blk} :
    ∀ {l : List Blk} {a : Nat}, Open h l a a r fl → Rest h (l ++ r) fl := by
  induction r with
  | nil =>
      intro l a o
      obtain rfl : a = h.endHeap := o.tilesR
      rw [List.append_nil]
      exact o
  | cons b r ih =>
      intro l a o
      have := ih (Open.shift.mp o).1
      rwa [List.append_assoc] at this

/-- A heap at rest opens between any two of its blocks. -/
theorem Rest.split {h : Heap} {fl : Nat → List Nat} {r : List Blk} :
    ∀ {l : List Blk}, l ≠ [] → Rest h (l ++ r) fl → ∃ a, Open h l a a r fl := by
  induction r with
  | nil =>
      intro l hl o
      rw [List.append_nil] at o
      exact ⟨_, o⟩
  | cons b r ih =>
      intro l hl o
      obtain ⟨a, ho⟩ := ih (l := l ++ [b]) (by simp) (by rwa [List.append_assoc])
      obtain rfl := ho.last_addr
      exact ⟨b.addr, Open.shift.mpr ⟨ho, hl⟩⟩

/-! ## One list -/

/-- The nodes at which the inner loop stops. -/
def fits (m : Mem) (size y : Nat) : Bool := decide (size ≤ get m (hdrp y))

theorem searchList_eq {m : Mem} {pv : Nat → Nat} {head size : Nat} {l : List Nat} :
    ∀ {x fuel : Nat}, Seg (next m) pv x l head → head ∉ l → l.length < fuel →
      searchList m head size fuel (next m x) = some ((l.find? (fits m size)).getD 0) := by
  induction l with
  | nil =>
      intro x fuel hs hn hf
      obtain ⟨k, rfl⟩ : ∃ k, fuel = k + 1 := ⟨fuel - 1, by simp at hf; omega⟩
      unfold searchList
      rw [if_pos hs.1]
      rfl
  | cons n l ih =>
      intro x fuel hs hn hf
      obtain ⟨k, rfl⟩ : ∃ k, fuel = k + 1 := ⟨fuel - 1, by omega⟩
      obtain ⟨hx, -, hs⟩ := hs
      rw [List.length_cons] at hf
      have hne : n ≠ head := fun he => hn (he ▸ List.mem_cons_self)
      unfold searchList
      rw [hx, if_neg hne]
      by_cases hfit : size ≤ get m (hdrp n)
      · rw [if_pos hfit, List.find?_cons_of_pos (by simpa [fits] using hfit)]
        rfl
      · rw [if_neg hfit, List.find?_cons_of_neg (by simpa [fits] using hfit)]
        exact ih hs (fun hm => hn (List.mem_cons_of_mem _ hm)) (by omega)

/-! ## All classes from one on -/

/-- What the search answers: a node that is large enough, or `0` if the lists
from class `i` on have none. -/
def Found (m : Mem) (fl : Nat → List Nat) (size i node : Nat) : Prop :=
  (node = 0 ∧ ∀ c, i ≤ c → c < 9 → ∀ x ∈ fl c, get m (hdrp x) < size) ∨
    (node ≠ 0 ∧ size ≤ get m (hdrp node) ∧ ∃ c, i ≤ c ∧ c < 9 ∧ node ∈ fl c)

theorem searchClasses_found {m : Mem} {walk b size : Nat} {fl : Nat → List Nat}
    (hr : Rings m b fl) (hb : b + 80 < 4294967296)
    (h0 : ∀ c, c < 9 → 0 ∉ fl c) (hw : ∀ c, c < 9 → (fl c).length < walk) :
    ∀ {fuel i : Nat}, i ≤ 9 → 9 < i + fuel →
      ∃ node, searchClasses m walk b size fuel i (16 * 2 ^ i) = some node ∧
        Found m fl size i node := by
  intro fuel
  induction fuel with
  | zero =>
      intro i h9 hf
      omega
  | succ fuel ih =>
      intro i h9 hf
      have hch : chunkSize = 4096 := rfl
      unfold searchClasses
      rw [hch]
      rcases Nat.lt_or_ge i 9 with hi | hi
      · have hp : 2 ^ i ≤ 2 ^ 8 := Nat.pow_le_pow_right (by omega) (by omega)
        rw [if_pos (by omega), classHead_eq (by omega), u32_of_lt (by omega),
          show 2 * (16 * 2 ^ i) = 16 * 2 ^ (i + 1) by rw [Nat.pow_succ]; omega]
        simp only [bind, Option.bind,
          searchList_eq (hr.ring i hi) (hr.fresh i i hi hi) (hw i hi)]
        cases hfind : (fl i).find? (fits m size) with
        | some n =>
            have hmem := List.mem_of_find?_eq_some hfind
            have hn0 : n ≠ 0 := fun he => h0 i hi (he ▸ hmem)
            have hfit := List.find?_some hfind
            rw [Option.getD_some, if_pos hn0]
            exact ⟨n, rfl, Or.inr ⟨hn0, by simpa [fits] using hfit, i, Nat.le_refl _,
              hi, hmem⟩⟩
        | none =>
            rw [Option.getD_none, if_neg (by omega)]
            obtain ⟨node, hs, hfound⟩ := ih (i := i + 1) (by omega) (by omega)
            refine ⟨node, hs, ?_⟩
            rcases hfound with ⟨hz, hall⟩ | ⟨hnz, hfit, c, hc, hc9, hm⟩
            · refine Or.inl ⟨hz, fun c hic hc9 x hx => ?_⟩
              rcases Nat.eq_or_lt_of_le hic with rfl | hic
              · have := List.find?_eq_none.mp hfind x hx
                simpa [fits] using this
              · exact hall c hic hc9 x hx
            · exact Or.inr ⟨hnz, hfit, c, by omega, hc9, hm⟩
      · obtain rfl : i = 9 := by omega
        rw [if_neg (by omega)]
        exact ⟨0, rfl, Or.inl ⟨rfl, fun c hic hc9 => by omega⟩⟩

/-! ## The whole search -/

section

variable {h : Heap} {bs : List Blk} {fl : Nat → List Nat}

theorem Rest.free_block (o : Rest h bs fl) {c x : Nat} (hc : c < 9) (hx : x ∈ fl c) :
    ∃ b ∈ bs, b.addr = x ∧ b.alloc = false ∧ classIdx b.size = c ∧
      h.beginHeap + 80 ≤ x ∧ x + 16 ≤ h.endHeap ∧ get h.mem (hdrp x) = b.size := by
  obtain ⟨b, hb, hba, hbf, hcl⟩ := (o.listed c hc x).mp hx
  have hbm := o.mem hb
  have hge : h.beginHeap + 80 ≤ b.addr := by
    rcases hbm.2.2.2.2.2.2 with rfl | hge
    · exact Bool.noConfusion hbf
    · exact hge
  refine ⟨b, ?_, hba, hbf, hcl, by omega, by omega, ?_⟩
  · rwa [List.append_nil] at hb
  · rw [← hba]
    exact o.free_header hb hbf (fun _ _ => rfl)

/-- A list is shorter than the heap has bytes. -/
theorem Rest.length_lt (o : Rest h bs fl) {c : Nat} (hc : c < 9) :
    (fl c).length < h.brk - h.startBrk := by
  have hsub : fl c ⊆ List.range' (h.beginHeap + 80) (h.endHeap - (h.beginHeap + 80)) := by
    intro x hx
    obtain ⟨b, -, -, -, -, h1, h2, -⟩ := o.free_block hc hx
    exact List.mem_range'_1.mpr ⟨h1, by omega⟩
  have hlen := (List.subperm_of_subset (o.rings.nodup c hc) hsub).length_le
  rw [List.length_range'] at hlen
  have h1 := o.begin_le
  have h2 := o.vars.top
  have h3 := o.vars.start
  omega

/-- The search finds a free block of at least `size` bytes if there is one. -/
theorem findNode_spec (o : Rest h bs fl) {size : Nat} (hs : 16 ≤ size) :
    ∃ node, findNode h size = some node ∧
      ((node = 0 ∧ ∀ b ∈ bs, b.alloc = false → b.size < size) ∨
        (node ≠ 0 ∧ ∃ b ∈ bs, b.addr = node ∧ b.alloc = false ∧ size ≤ b.size)) := by
  have hc := classIdx_lt size
  have hp : 2 ^ classIdx size ≤ 2 ^ 8 := Nat.pow_le_pow_right (by omega) (by omega)
  have hb := o.begin_le
  have hlt := o.vars.lt
  have h0 : ∀ c, c < 9 → 0 ∉ fl c := fun c hc hm => by
    obtain ⟨b, -, -, -, -, h1, -⟩ := o.free_block hc hm
    omega
  obtain ⟨node, hsr, hfound⟩ : ∃ node, searchClasses h.mem (h.brk - h.startBrk)
      h.beginHeap size 32 (classIdx size) (16 * 2 ^ classIdx size) = some node ∧
      Found h.mem fl size (classIdx size) node :=
    searchClasses_found o.rings (by omega) h0 (fun c hc => o.length_lt hc)
      (Nat.le_of_lt hc) (by omega)
  refine ⟨node, ?_, ?_⟩
  · unfold findNode
    simp only [classof_eq hs, bind, Option.bind]
    rw [if_neg (by omega), Int.toNat_natCast, show minAlloc = 16 from rfl,
      u32_of_lt (by omega)]
    exact hsr
  · rcases hfound with ⟨hz, hall⟩ | ⟨hnz, hfit, c, -, hc9, hm⟩
    · refine Or.inl ⟨hz, fun b hbm hbf => ?_⟩
      refine Nat.lt_of_not_le fun hle => ?_
      have hin : b.addr ∈ fl (classIdx b.size) := (o.listed _ (classIdx_lt _) _).mpr
        ⟨b, by rwa [List.append_nil], rfl, hbf, rfl⟩
      have := hall _ (classIdx_mono hle) (classIdx_lt _) _ hin
      rw [o.free_header (by rwa [List.append_nil]) hbf (fun _ _ => rfl)] at this
      omega
    · obtain ⟨b, hbm, hba, hbf, -, -, -, hg⟩ := o.free_block hc9 hm
      exact Or.inr ⟨hnz, b, hbm, hba, hbf, by omega⟩

end

end Csapp.Malloc
