import Mathlib
import Csapp.Malloc.Checked

/-!
# Every access is to a word of the heap

If all words from `begin_heap` up to the break pass the test, then so does every
access of a call, and the checked function answers what the plain one does. One
word lies before `begin_heap`: the header of the prologue, which is read when
the block behind the prologue is freed.
-/

namespace Csapp.Malloc

/-- The words from `lo` up to `hi` pass. -/
def Passes (W : Nat → Bool) (lo hi : Nat) : Prop := ∀ p, lo ≤ p → p + 4 ≤ hi → W p = true

/-! ## The lists -/

section

variable {N : Nat → Prop} {m : Mem} {b : Nat} {fl : Nat → List Nat} {W : Nat → Bool}

theorem Rings.checked_insert (hr : Rings m b fl) (hN : ∀ y, IsNode b fl y → N y)
    (hal : ∀ y, N y → y % 8 = 0 ∧ y < 4294967296)
    (hW : ∀ y, N y → W y = true ∧ W (y + 4) = true) {c x : Nat} (hc : c < 9) (hx : N x)
    (hnew : ¬IsNode b fl x) :
    Checked.freeListInsert W m (b + 8 * c) x = some (freeListInsert m (b + 8 * c) x) := by
  have hhN : N (b + 8 * c) := hN _ ⟨c, hc, List.mem_cons_self⟩
  have hfN : N (next m (b + 8 * c)) :=
    hN _ ⟨c, hc, ((hr.ring c hc).next List.mem_cons_self).1⟩
  have hne : b + 8 * c ≠ x := fun he => hnew ⟨c, hc, he ▸ List.mem_cons_self⟩
  have hf : next (setPrev (setNext m x (next m (b + 8 * c))) x (b + 8 * c)) (b + 8 * c) =
      next m (b + 8 * c) := by
    rw [next_setPrev (hal _ hx).1 (hal _ hhN).1, next_setNext_ne (hal _ hx).1 (hal _ hhN).1 hne]
  unfold next setPrev setNext at hf
  unfold next at hfN
  simp [Checked.freeListInsert, Checked.next, Checked.setNext, Checked.setPrev, freeListInsert,
    setNext, setPrev, next, Checked.load_eq (hW _ hhN).1, Checked.store_eq (hW _ hx).1,
    Checked.store_eq (hW _ hx).2, hf, Checked.store_eq (hW _ hfN).2,
    Checked.store_eq (hW _ hhN).1]

theorem Rings.checked_remove (hr : Rings m b fl) (hN : ∀ y, IsNode b fl y → N y)
    (hal : ∀ y, N y → y % 8 = 0 ∧ y < 4294967296)
    (hW : ∀ y, N y → W y = true ∧ W (y + 4) = true) {c x : Nat} (hc : c < 9)
    (hx : x ∈ fl c) : Checked.freeListRemove W m x = some (freeListRemove m x) := by
  have hxm : x ∈ (b + 8 * c) :: fl c := List.mem_cons_of_mem _ hx
  have hxN : N x := hN _ ⟨c, hc, hxm⟩
  have hnN : N (next m x) := hN _ ⟨c, hc, ((hr.ring c hc).next hxm).1⟩
  have hpN : N (prev m x) := hN _ ⟨c, hc, ((hr.ring c hc).prev hxm).1⟩
  have hp : prev (setPrev m (next m x) (prev m x)) x = prev m x :=
    prev_setPrev_ne (hal _ hnN).1 (hal _ hxN).1 (hr.next_ne hc hx).symm
  unfold prev setPrev next at hp
  unfold next at hnN
  unfold prev at hpN
  simp [Checked.freeListRemove, Checked.next, Checked.prev, Checked.setNext, Checked.setPrev,
    freeListRemove, setNext, setPrev, next, prev, Checked.load_eq (hW _ hxN).1,
    Checked.load_eq (hW _ hxN).2, Checked.store_eq (hW _ hnN).2, hp,
    Checked.store_eq (hW _ hpN).1]

end

section

variable {h : Heap} {l r : List Blk} {a e : Nat} {fl : Nat → List Nat} {W : Nat → Bool}

/-- What the nodes of the lists have in common. -/
def Linkable (lo hi y : Nat) : Prop := y % 8 = 0 ∧ y < 4294967296 ∧ lo ≤ y ∧ y + 8 ≤ hi

theorem Open.linkable (o : Open h l a e r fl) {y : Nat} (hy : IsNode h.beginHeap fl y) :
    Linkable h.beginHeap h.endHeap y := by
  have hav := o.node_avoids hy
  have hlt := o.node_lt hav
  refine ⟨hlt.1, hlt.2, ?_, hav.2.1.trans' (by omega)⟩
  cases o.node_cases hy with
  | inl hd =>
    obtain ⟨c, -, rfl⟩ := hd
    exact Nat.le_add_right _ _
  | inr hb =>
    obtain ⟨b, hb, rfl, -⟩ := hb
    exact (o.mem hb).1

theorem Passes.link {lo hi : Nat} (hW : Passes W lo hi) (y : Nat) (hy : Linkable lo hi y) :
    W y = true ∧ W (y + 4) = true := by
  obtain ⟨-, -, h1, h2⟩ := hy
  exact ⟨hW y h1 (by omega), hW (y + 4) (by omega) (by omega)⟩

/-- `resv_node` of a listed block. -/
theorem Open.checked_resv (o : Open h l a e r fl) (hW : Passes W h.beginHeap h.endHeap)
    {b : Blk} (hb : b ∈ l ++ r) (hf : b.alloc = false) :
    Checked.resvNode W h.mem b.addr = some (resvNode h.mem b.addr) :=
  o.rings.checked_remove (fun _ hy => o.linkable hy) (fun _ hy => ⟨hy.1, hy.2.1⟩) hW.link
    (classIdx_lt b.size) ((o.listed _ (classIdx_lt _) _).mpr ⟨b, hb, rfl, hf, rfl⟩)

theorem checked_metaPut {m : Mem} {b : Blk} {v lo hi : Nat} (hW : Passes W lo hi)
    (hv : v = b.tag) (ha : 8 ≤ b.addr) (hs : 16 ≤ b.size) (hm : b.size % 8 = 0)
    (hlo : lo + 4 ≤ b.addr) (hhi : b.addr + b.size ≤ hi) (hlt : hi < 4294967296) :
    Checked.metaPut W m b.addr v = some (metaPut m b.addr v) := by
  have hh : hdrp b.addr = b.addr - 4 := hdrp_eq (by omega) (by omega)
  refine Checked.metaPut_eq ?_ ?_
  · rw [hh]
    exact hW _ (by omega) (by omega)
  · rw [ftrp_put hv ha hm (by omega)]
    exact hW _ (by omega) (by omega)

/-- `free_node` of a block at the left end of the region. -/
theorem Open.checked_freeNode (o : Open h l a e r fl) (hW : Passes W h.beginHeap h.endHeap)
    {b : Blk} (hba : b.addr = a) (hbs : 16 ≤ b.size) (hle : a + b.size ≤ e)
    (hbf : b.alloc = false) (ht : TagOk h.mem b) :
    Checked.freeNode W h.mem h.beginHeap a = freeNode h.mem h.beginHeap a := by
  subst hba
  have h8 := o.vars.begin8
  have hlt := o.vars.lt
  have hb := o.begin_le
  have hle' := o.le_end
  have hc := classIdx_lt b.size
  have hnew : ¬IsNode h.beginHeap fl b.addr := fun hn => by
    have := o.node_region hn
    omega
  have hx : Linkable h.beginHeap h.endHeap b.addr := ⟨o.modL, by omega, by omega, by omega⟩
  have hins := o.rings.checked_insert (fun _ hy => o.linkable hy)
    (fun _ hy => ⟨hy.1, hy.2.1⟩) hW.link hc hx hnew
  have htag : b.tag = b.size := by
    unfold Blk.tag
    rw [hbf]
    rfl
  rw [freeNode_eq ht hbf (by omega) hbs (by omega) (by omega)]
  unfold Checked.freeNode
  rw [hdrp_eq (by omega) (by omega), Checked.load_eq (hW _ (by omega) (by omega)), ht.1, htag,
    Option.bind_eq_bind, Option.bind_some, classof_eq hbs, Option.bind_eq_bind,
    Option.bind_some, classHead_eq (by omega)]
  exact hins

/-! ## Merging -/

theorem checked_coalescePrev {p : Blk} {k ptr : Nat} (o : Open h (l ++ [p]) a e r fl)
    (hW : Passes W h.beginHeap h.endHeap) (hp : W (p.addr - 4) = true) :
    Checked.coalescePrev W h.mem ptr p.addr k = some (coalescePrev h.mem ptr p.addr k) := by
  have hpm : p ∈ (l ++ [p]) ++ r := by simp
  have hm := o.mem hpm
  have h8 := o.vars.begin8
  have hlt := o.vars.lt
  have hw : W (hdrp p.addr) = true := by
    rw [hdrp_eq (by omega) (by omega)]
    exact hp
  unfold Checked.coalescePrev coalescePrev
  rw [Checked.aloc_eq hw, Option.bind_eq_bind, Option.bind_some, o.aloc_eq hpm]
  cases hpf : p.alloc with
  | false => simp [o.checked_resv hW hpm hpf, Checked.load_eq hw]
  | true => simp

theorem checked_coalesceNext {k : Nat} (o : Open h l a e r fl)
    (hW : Passes W h.beginHeap h.endHeap) :
    Checked.coalesceNext W h.mem e k = some (coalesceNext h.mem e k) := by
  have h8 := o.vars.begin8
  have hlt := o.vars.lt
  have hb := o.begin_le
  have hle := o.le
  have hle' := o.le_end
  have hw : W (hdrp e) = true := by
    rw [hdrp_eq (by omega) (by omega)]
    exact hW _ (by omega) (by omega)
  unfold Checked.coalesceNext coalesceNext
  rw [Checked.aloc_eq hw, Option.bind_eq_bind, Option.bind_some]
  cases r with
  | nil => simp [o.aloc_end]
  | cons n r =>
    obtain rfl : e = n.addr := o.tilesR.1.symm
    have hn : n ∈ l ++ n :: r := by simp
    rw [o.aloc_eq hn]
    cases hnf : n.alloc with
    | false => simp [o.checked_resv hW hn hnf, Checked.load_eq hw]
    | true => simp

/-- The header of the block before the region is read, wherever that block is. -/
theorem checked_coalesceWillFree {p : Blk} (o : Open h (l ++ [p]) a e r fl)
    (hgap : a + 16 ≤ e) (hsz : size h.mem (a - 4) = e - a)
    (hW : Passes W h.beginHeap h.endHeap) (hp : W (p.addr - 4) = true) :
    Checked.coalesceWillFree W h.mem a = some (coalesceWillFree h.mem a) := by
  have h8 := o.vars.begin8
  have hb := o.begin_le
  have hle := o.le_end
  have hlt := o.vars.lt
  obtain ⟨m₁, l', a', fl₁, he₁, o₁, ht₁, -⟩ := coalescePrev_spec o
  obtain ⟨m₂, r', e', fl₂, he₂, o₂, ht₂, -⟩ := coalesceNext_spec o₁
  have hla := ht₁.le
  have hre := ht₂.le
  have hb₂ : h.beginHeap + 80 ≤ a' := o₂.begin_le
  have hle₂ : e' ≤ h.endHeap := o₂.le_end
  have hmL : a' % 8 = 0 := o₂.modL
  have hmR : e' % 8 = 0 := o₂.modR
  have hhd : W (hdrp a) = true := by
    rw [hdrp_eq (by omega) (by omega)]
    exact hW _ (by omega) (by omega)
  have hpf : W (pftrp a) = true := by
    rw [pftrp_eq (by omega) (by omega)]
    exact hW _ (by omega) (by omega)
  have hn : nextblk h.mem a = e := by
    unfold nextblk
    rw [hdrp_eq (by omega) (by omega), hsz, u32_of_lt (by omega)]
    omega
  have hs : size h.mem (hdrp a) = e - a := by
    rw [hdrp_eq (by omega) (by omega)]
    exact hsz
  have hput : Checked.metaPut W m₂ a' (e' - a') = some (metaPut m₂ a' (e' - a')) :=
    checked_metaPut (b := ⟨a', e' - a', false⟩) hW rfl (by show 8 ≤ a'; omega)
      (by show 16 ≤ e' - a'; omega) (by show (e' - a') % 8 = 0; omega)
      (by show h.beginHeap + 4 ≤ a'; omega) (by show a' + (e' - a') ≤ h.endHeap; omega) hlt
  have hnext : Checked.coalesceNext W m₁ e (e - a') = some (m₂, e' - a') := by
    rw [← he₂]
    exact checked_coalesceNext o₁ hW
  have hprev : Checked.coalescePrev W h.mem a p.addr (e - a) = some (m₁, a', e - a') := by
    rw [← he₁]
    exact checked_coalescePrev o hW hp
  unfold Checked.coalesceWillFree coalesceWillFree
  simp [Checked.size_eq hhd, Checked.prevblk_eq hpf, Checked.nextblk_eq hhd, hs, hn,
    o.prevblk_eq, hprev, he₁, hnext, he₂, hput]

/-- And nothing goes on when that header may not be read. -/
theorem refused_coalesceWillFree {p : Blk} (o : Open h (l ++ [p]) a e r fl)
    (hp : W (p.addr - 4) = false) : Checked.coalesceWillFree W h.mem a = none := by
  have hm := o.mem (b := p) (by simp)
  have h8 := o.vars.begin8
  have hlt := o.vars.lt
  have hw : W (hdrp p.addr) = false := by
    rw [hdrp_eq (by omega) (by omega)]
    exact hp
  have hprev : ∀ k, Checked.coalescePrev W h.mem a p.addr k = none := by
    intro k
    simp [Checked.coalescePrev, Checked.aloc, Checked.load_refused hw]
  unfold Checked.coalesceWillFree
  cases hs : Checked.size W h.mem (hdrp a) with
  | none => simp
  | some s =>
    cases hpv : Checked.prevblk W h.mem a with
    | none => simp
    | some q =>
      obtain rfl : q = p.addr := by
        rw [← o.prevblk_eq]
        unfold Checked.prevblk Checked.size Checked.load at hpv
        split at hpv
        · exact (Option.some.inj hpv).symm
        · cases hpv
      cases hn : Checked.nextblk W h.mem a with
      | none => simp
      | some n => simp [hprev]

/-! ## Splitting -/

theorem checked_freeTail {req : Nat} (o : Open h l a e r fl)
    (hsz : size h.mem (a - 4) = e - a) (hreq : 16 ≤ req) (hmod : req % 8 = 0)
    (hle : a + req ≤ e) (hW : Passes W h.beginHeap h.endHeap) :
    Checked.freeTailWasResvd W h.mem h.beginHeap a req =
      freeTailWasResvd h.mem h.beginHeap a req := by
  have h8 := o.vars.begin8
  have hlt := o.vars.lt
  have hb := o.begin_le
  have hle' := o.le_end
  have hmL := o.modL
  have hmR := o.modR
  have hmin : minAlloc = 16 := rfl
  have hd : hdrp a = a - 4 := hdrp_eq (by omega) (by omega)
  have hw : W (a - 4) = true := hW _ (by omega) (by omega)
  have hsec : sub32 (e - a) req = e - a - req := sub32_of_le (by omega) (by omega)
  unfold Checked.freeTailWasResvd freeTailWasResvd
  rw [hd, Checked.size_eq hw, hsz, Option.bind_eq_bind, Option.bind_some]
  dsimp only
  rw [hsec, hmin]
  by_cases hs : e - a - req < 16
  · rw [if_pos hs, if_pos hs]
    exact checked_metaPut (b := ⟨a, e - a, true⟩) hW (pack_one (by omega)) (by show 8 ≤ a; omega)
      (by show 16 ≤ e - a; omega) (by show (e - a) % 8 = 0; omega)
      (by show h.beginHeap + 4 ≤ a; omega) (by show a + (e - a) ≤ h.endHeap; omega) hlt
  · rw [if_neg hs, if_neg hs, u32_of_lt (by omega)]
    have hp₁ : Checked.metaPut W h.mem a (pack req 1) = some (metaPut h.mem a (pack req 1)) :=
      checked_metaPut (b := ⟨a, req, true⟩) hW (pack_one hmod) (by show 8 ≤ a; omega) hreq hmod
        (by show h.beginHeap + 4 ≤ a; omega) (by show a + req ≤ h.endHeap; omega) hlt
    have hp₂ : Checked.metaPut W (metaPut h.mem a (pack req 1)) (a + req) (e - a - req) =
        some (metaPut (metaPut h.mem a (pack req 1)) (a + req) (e - a - req)) :=
      checked_metaPut (b := ⟨a + req, e - a - req, false⟩) hW rfl (by show 8 ≤ a + req; omega)
        (by show 16 ≤ e - a - req; omega) (by show (e - a - req) % 8 = 0; omega)
        (by show h.beginHeap + 4 ≤ a + req; omega)
        (by show a + req + (e - a - req) ≤ h.endHeap; omega) hlt
    rw [hp₁, Option.bind_eq_bind, Option.bind_some, hp₂, Option.bind_some]
    -- the invariant when the tail is freed
    obtain ⟨ht₂, o₂, -⟩ := o.split hreq hmod (by omega)
    exact o₂.checked_freeNode (b := ⟨a + req, e - a - req, false⟩) hW rfl
      (by show 16 ≤ e - a - req; omega) (by show a + req + (e - a - req) ≤ e; omega) rfl ht₂

end

/-! ## Searching -/

theorem checked_searchList {m : Mem} {pv : Nat → Nat} {head size : Nat} {W : Nat → Bool}
    {l : List Nat} (hW : ∀ y ∈ l, W (hdrp y) = true ∧ W y = true) :
    ∀ {x fuel : Nat}, Seg (next m) pv x l head →
      Checked.searchList W m head size fuel (next m x) =
        searchList m head size fuel (next m x) := by
  induction l with
  | nil =>
      intro x fuel hs
      have hx : next m x = head := hs.1
      cases fuel with
      | zero => rfl
      | succ fuel =>
          unfold Checked.searchList searchList
          rw [if_pos hx, if_pos hx]
  | cons n l ih =>
      intro x fuel hs
      obtain ⟨hx, -, hs⟩ := hs
      cases fuel with
      | zero => rfl
      | succ fuel =>
          have hn := hW n List.mem_cons_self
          unfold Checked.searchList searchList
          rw [hx, Checked.load_eq hn.1, Option.bind_eq_bind, Option.bind_some]
          unfold Checked.next
          rw [Checked.load_eq hn.2, Option.bind_some, show get m n = next m n from rfl,
            ih (fun y hy => hW y (List.mem_cons_of_mem _ hy)) hs]

theorem checked_searchClasses {m : Mem} {walk b size : Nat} {fl : Nat → List Nat}
    {W : Nat → Bool} (hr : Rings m b fl) (hb : b + 80 < 4294967296)
    (hW : ∀ c, c < 9 → W (b + 8 * c) = true ∧ ∀ y ∈ fl c, W (hdrp y) = true ∧ W y = true) :
    ∀ {fuel i : Nat}, i ≤ 9 →
      Checked.searchClasses W m walk b size fuel i (16 * 2 ^ i) =
        searchClasses m walk b size fuel i (16 * 2 ^ i) := by
  intro fuel
  induction fuel with
  | zero =>
      intro i h9
      rfl
  | succ fuel ih =>
      intro i h9
      have hch : chunkSize = 4096 := rfl
      unfold Checked.searchClasses searchClasses
      rw [hch]
      by_cases hle : 16 * 2 ^ i ≤ 4096
      · have hi : i < 9 := by
          by_contra hge
          have : 2 ^ 9 ≤ 2 ^ i := Nat.pow_le_pow_right (by omega) (by omega)
          omega
        rw [if_pos hle, if_pos hle, classHead_eq (by omega), u32_of_lt (by omega),
          show 2 * (16 * 2 ^ i) = 16 * 2 ^ (i + 1) by rw [Nat.pow_succ]; omega]
        dsimp only
        unfold Checked.next
        rw [Checked.load_eq (hW i hi).1, Option.bind_eq_bind, Option.bind_some,
          show get m (b + 8 * i) = next m (b + 8 * i) from rfl,
          checked_searchList (hW i hi).2 (hr.ring i hi), ih (by omega)]
      · rw [if_neg hle, if_neg hle]

section

variable {h : Heap} {l r bs : List Blk} {a e : Nat} {fl : Nat → List Nat}
  {W : Nat → Nat → Bool}

theorem Rest.checked_findNode (o : Rest h bs fl) {n : Nat} (hn : 16 ≤ n)
    (hW : Passes (W h.brk) h.beginHeap h.endHeap) : Checked.findNode W h n = findNode h n := by
  have hc := classIdx_lt n
  have hp : 2 ^ classIdx n ≤ 2 ^ 8 := Nat.pow_le_pow_right (by omega) (by omega)
  have hb := o.begin_le
  have h8 := o.vars.begin8
  have hlt := o.vars.lt
  unfold Checked.findNode findNode
  simp only [classof_eq hn, bind, Option.bind]
  rw [if_neg (by omega), if_neg (by omega), Int.toNat_natCast, show minAlloc = 16 from rfl,
    u32_of_lt (by omega)]
  refine checked_searchClasses o.rings (by omega) ?_ (Nat.le_of_lt hc)
  intro c hc9
  refine ⟨hW _ (by omega) (by omega), ?_⟩
  intro y hy
  obtain ⟨b, -, -, -, -, h1, h2, -⟩ := o.free_block hc9 hy
  rw [hdrp_eq (by omega) (by omega)]
  exact ⟨hW _ (by omega) (by omega), hW _ (by omega) (by omega)⟩

/-! ## Growing -/

theorem checked_extendSize {W : Nat → Bool} {m : Mem} {n oldend : Nat}
    (hW : oldend ≠ 0 → W (pftrp oldend) = true) :
    Checked.extendSize W m n oldend = some (extendSize m n oldend) := by
  unfold Checked.extendSize extendSize
  by_cases h0 : oldend = 0
  · simp [h0]
  · by_cases ha : aloc m (pftrp oldend) = 0
    · simp [h0, Checked.aloc_eq (hW h0), ha, Checked.load_eq (hW h0)]
    · simp [h0, Checked.aloc_eq (hW h0), ha]

/-- The prologue is not the last block. -/
theorem Rest.last_inside (o : Rest h bs fl) (hlast : h.endHeap ≠ h.beginHeap + 80) :
    ∃ l p, bs = l ++ [p] ∧ h.beginHeap + 80 ≤ p.addr ∧ p.addr + p.size = h.endHeap := by
  obtain ⟨l, p, rfl⟩ := o.last_exists
  have hle := o.last_addr
  refine ⟨l, p, rfl, ?_, hle⟩
  cases (o.mem (b := p) (by simp)).2.2.2.2.2.2 with
  | inl hp =>
    rw [hp] at hle
    exact absurd hle.symm hlast
  | inr hp => exact hp

theorem Rest.checked_extendHeap (o : Rest h bs fl) {n : Nat} (hn : n < 4294967296)
    (ht : tailSize h ≤ n) (hw : n ≤ 4294963200 + tailSize h)
    (hlast : h.endHeap ≠ h.beginHeap + 80) (hW : ∀ k, Passes (W k) h.beginHeap k) :
    Checked.extendHeap W h n h.endHeap = extendHeap h n h.endHeap := by
  have h8 := o.vars.begin8
  have hb := o.begin_le
  have hm := o.modR
  have htop := o.vars.top
  have hmx := o.vars.maxLt
  have hlt := o.vars.lt
  have hreq := extendSize_eq o.end_pos hn ht
  unfold u32 at hreq
  have hx : Checked.extendSize (W h.brk) h.mem n h.endHeap = some (extendSize h.mem n h.endHeap) :=
    checked_extendSize fun _ => by
      rw [pftrp_eq (by omega) hlt]
      exact hW _ _ (by omega) (by omega)
  obtain ⟨req, hreq'⟩ : ∃ req, req = extendSize h.mem n h.endHeap := ⟨_, rfl⟩
  unfold Checked.extendHeap extendHeap
  rw [hx, Option.bind_eq_bind, Option.bind_some, ← hreq']
  rw [← hreq'] at hreq
  by_cases hr : SbrkInRange h req
  case neg =>
    obtain ⟨hlow, hsb⟩ := memSbrk_wraps hr o.vars.brkMax hmx
    simp only [hsb, if_pos hlow]
  by_cases hs : 2147483648 ≤ req ∨ h.maxAddr < h.brk + req
  · have hsb := memSbrk_refused hr hs
    simp [hsb]
  · have hsb := memSbrk_granted (h := h) (n := req) (by omega) (by omega) hmx
    have hend : u32 (h.brk + req) = h.endHeap + req := by
      rw [u32_of_lt (by omega), htop]
    have h16 : 16 ≤ req := by omega
    have hmod : req % 8 = 0 := by omega
    obtain ⟨og, htag, -⟩ := o.grow_put hmod h16 (by omega)
    obtain ⟨l, p, rfl, hp, hpe⟩ := o.last_inside hlast
    have hst : Checked.store (W (h.brk + req)) h.mem (h.endHeap + req - 4) 5 =
        some (put h.mem (h.endHeap + req - 4) 5) :=
      Checked.store_eq (hW _ _ (by omega) (by omega))
    have hput : Checked.metaPut (W (h.brk + req)) (put h.mem (h.endHeap + req - 4) 5) h.endHeap
        req = some (metaPut (put h.mem (h.endHeap + req - 4) 5) h.endHeap req) :=
      checked_metaPut (b := ⟨h.endHeap, req, false⟩) (hW _) rfl (by show 8 ≤ h.endHeap; omega)
        h16 hmod (by show h.beginHeap + 4 ≤ h.endHeap; omega)
        (by show h.endHeap + req ≤ h.brk + req; omega) (by omega)
    have hco := checked_coalesceWillFree og (by omega)
      (by
        rw [size_of_tag (b := ⟨h.endHeap, req, false⟩) hmod htag.1]
        show req = h.endHeap + req - h.endHeap
        omega)
      (show Passes (W (h.brk + req)) h.beginHeap (h.endHeap + req) by
        rw [← htop]
        exact hW _)
      (hW _ _ (by omega) (by omega))
    have h5 : pack wsize 1 = 5 := rfl
    simp only [hsb, hend, hdrp_eq (show 4 ≤ h.endHeap + req by omega)
      (show h.endHeap + req < 4294967296 by omega), h5]
    rw [if_neg (by omega), if_neg (by omega), hst, Option.bind_eq_bind, Option.bind_some,
      if_pos o.end_pos, if_pos o.end_pos, hput, Option.bind_some, hco]
    rfl

/-! ## The calls -/

theorem Rest.checked_allocateBlock (o : Rest h bs fl) {n : Nat} (hn : n < 4294967296)
    (h16 : 16 ≤ n) (hmod : n % 8 = 0) (hw : n ≤ 4294963200 + tailSize h)
    (hlast : h.endHeap ≠ h.beginHeap + 80) (hW : ∀ k, Passes (W k) h.beginHeap k) :
    Checked.allocateBlock W h n = allocateBlock h n := by
  have htop := o.vars.top
  have hWh : Passes (W h.brk) h.beginHeap h.endHeap := htop ▸ hW h.brk
  have hfn := o.checked_findNode h16 hWh
  obtain ⟨node, hf, hcase⟩ := findNode_spec o h16
  unfold Checked.allocateBlock allocateBlock
  rw [hfn, hf, Option.bind_eq_bind, Option.bind_some, Option.bind_eq_bind, Option.bind_some]
  cases hcase with
  | inl hnone =>
    obtain ⟨rfl, hall⟩ := hnone
    have ht := o.tail_lt (by omega) hall
    rw [if_neg (by omega), if_neg (by omega), o.checked_extendHeap hn (by omega) hw hlast hW]
    by_cases hr : SbrkInRange h (extendSize h.mem n h.endHeap)
    case neg => simp only [o.extendHeap_undefined hr, Option.bind_eq_bind, Option.bind_none]
    cases extendHeap_spec o hn (by omega) hw hr with
    | inl he =>
      simp only [he.2, Option.bind_eq_bind, Option.bind_some, if_true]
    | inr he =>
      obtain ⟨h', l, a, fl₁, he, hx⟩ := he
      have hba := hx.inv.begin_le
      rw [he, Option.bind_eq_bind, Option.bind_some, Option.bind_some]
      dsimp only
      rw [if_neg (by omega), if_neg (by omega),
        checked_freeTail hx.inv hx.hdr h16 hmod hx.room (by
          rw [hx.beginEq, hx.inv.vars.top]
          exact hW _)]
  | inr hsome =>
    obtain ⟨hnz, b, hb, rfl, hbf, hbs⟩ := hsome
    obtain ⟨pre, post, rfl⟩ := List.append_of_mem hb
    obtain ⟨fl₁, o₁, hh, -⟩ := o.reserve hbf
    rw [if_pos hnz, if_pos hnz]
    have ht := checked_freeTail o₁ hh h16 hmod (by omega) hWh
    dsimp only at ht
    simp only [o.checked_resv hWh (List.mem_append_left _ hb) hbf, Option.bind_some, ht]

theorem Rest.checked_mmMalloc (o : Rest h bs fl) {n : Nat} (hn : n ≤ maxRequest)
    (hlast : h.endHeap ≠ h.beginHeap + 80) (hW : ∀ k, Passes (W k) h.beginHeap k) :
    Checked.mmMalloc W h n = mmMalloc h n := by
  have hle := allocSize_le hn
  unfold maxRequest at hn
  have hb := allocSize_bounds (show n ≤ 4294967280 by omega)
  unfold Checked.mmMalloc mmMalloc
  by_cases h0 : n = 0
  · rw [if_pos h0, if_pos h0]
  · rw [if_neg h0, if_neg h0]
    exact o.checked_allocateBlock hb.2.2.2.2 hb.1 hb.2.2.2.1 (by omega) hlast hW

/-- The header before the region: the prologue's only when the region is behind it. -/
theorem Open.passes_before {W : Nat → Bool} {p : Blk} (o : Open h (l ++ [p]) a e r fl)
    (hW : Passes W h.beginHeap h.endHeap)
    (hp : a = h.beginHeap + 80 → W (h.beginHeap - 4) = true) : W (p.addr - 4) = true := by
  have hm := o.mem (b := p) (by simp)
  have hle := o.last_addr
  cases hm.2.2.2.2.2.2 with
  | inl he =>
    rw [he] at hle ⊢
    exact hp hle.symm
  | inr hge => exact hW _ (by omega) (by omega)

theorem Rest.checked_coalesce {b : Blk} (o : Rest h (l ++ b :: r) fl) (ha : b.alloc = true)
    (hb : b ≠ prologue h.beginHeap) (hW : Passes (W h.brk) h.beginHeap h.endHeap)
    (hp : b.addr = h.beginHeap + 80 → W h.brk (h.beginHeap - 4) = true) :
    Checked.coalesceWillFree (W h.brk) h.mem b.addr = some (coalesceWillFree h.mem b.addr) := by
  have hm : b ∈ (l ++ b :: r) ++ [] := by simp
  have hbm := o.mem hm
  have of := o.openAt ha hb
  obtain ⟨l₀, p, rfl⟩ := of.last_exists
  refine checked_coalesceWillFree of (by omega) ?_ hW (of.passes_before hW hp)
  rw [size_of_tag hbm.2.2.2.1 (o.tags b hm).1]
  omega

theorem Rest.checked_mmFreeNonnull {b : Blk} (o : Rest h (l ++ b :: r) fl)
    (ha : b.alloc = true) (hb : b ≠ prologue h.beginHeap)
    (hW : ∀ k, Passes (W k) h.beginHeap k)
    (hp : b.addr = h.beginHeap + 80 → W h.brk (h.beginHeap - 4) = true) :
    Checked.mmFreeNonnull W h b.addr = mmFreeNonnull h b.addr := by
  have hWh : Passes (W h.brk) h.beginHeap h.endHeap := o.vars.top ▸ hW h.brk
  obtain ⟨m, l', a', e', r', fl', hM⟩ := o.merged ha hb
  have hroom := hM.room
  have hf := hM.inv.checked_freeNode (b := ⟨a', e' - a', false⟩) hWh rfl
    (by show 16 ≤ e' - a'; omega) (by show a' + (e' - a') ≤ e'; omega) rfl hM.tag
  dsimp only at hf
  unfold Checked.mmFreeNonnull mmFreeNonnull
  rw [o.checked_coalesce ha hb hWh hp, hM.eq]
  simp only [Option.bind_eq_bind, Option.bind_some, hf]

/-- The block behind the prologue cannot be merged without that header. -/
theorem Rest.refused_coalesce {b : Blk} (o : Rest h (l ++ b :: r) fl)
    (ha : b.alloc = true) (hb : b ≠ prologue h.beginHeap) (hfirst : b.addr = h.beginHeap + 80)
    (hp : W h.brk (h.beginHeap - 4) = false) :
    Checked.coalesceWillFree (W h.brk) h.mem b.addr = none := by
  have of := o.openAt ha hb
  obtain ⟨l₀, p, rfl⟩ := of.last_exists
  have hpm := of.mem (b := p) (by simp)
  have hle := of.last_addr
  have hpro : p = prologue h.beginHeap := hpm.2.2.2.2.2.2.resolve_right (by omega)
  refine refused_coalesceWillFree of ?_
  rw [hpro]
  exact hp

theorem Rest.refused_mmFreeNonnull {b : Blk} (o : Rest h (l ++ b :: r) fl)
    (ha : b.alloc = true) (hb : b ≠ prologue h.beginHeap) (hfirst : b.addr = h.beginHeap + 80)
    (hp : W h.brk (h.beginHeap - 4) = false) : Checked.mmFreeNonnull W h b.addr = none := by
  unfold Checked.mmFreeNonnull
  rw [o.refused_coalesce ha hb hfirst hp]
  rfl

/-- The last steps of a realloc that has moved the payload. -/
theorem Rest.checked_freeInPlace {b : Blk} (o : Rest h (l ++ b :: r) fl)
    (ha : b.alloc = true) (hb : b ≠ prologue h.beginHeap)
    (hW : Passes (W h.brk) h.beginHeap h.endHeap) :
    Checked.size (W h.brk) h.mem (hdrp b.addr) = some b.size ∧
      size h.mem (hdrp b.addr) = b.size ∧
      Checked.metaPut (W h.brk) h.mem b.addr b.size = some (metaPut h.mem b.addr b.size) ∧
      Checked.freeNode (W h.brk) (metaPut h.mem b.addr b.size) h.beginHeap b.addr =
        freeNode (metaPut h.mem b.addr b.size) h.beginHeap b.addr := by
  have hm : b ∈ (l ++ b :: r) ++ [] := by simp
  have hbm := o.mem hm
  have of := o.openAt ha hb
  have h8 := o.vars.begin8
  have hlt := o.vars.lt
  have hge := of.begin_le
  have hhd : W h.brk (hdrp b.addr) = true := by
    rw [hdrp_eq (by omega) (by omega)]
    exact hW _ (by omega) (by omega)
  obtain ⟨hsz, ow, ht, -⟩ := o.retag ha hb
  refine ⟨?_, hsz, ?_, ?_⟩
  · rw [Checked.size_eq hhd, hsz]
  · exact checked_metaPut (b := ⟨b.addr, b.size, false⟩) hW rfl (by show 8 ≤ b.addr; omega)
      hbm.2.2.1 hbm.2.2.2.1 (by show h.beginHeap + 4 ≤ b.addr; omega) hbm.2.1 hlt
  · exact ow.checked_freeNode (b := ⟨b.addr, b.size, false⟩) hW rfl hbm.2.2.1 (Nat.le_refl _)
      rfl ht

theorem Rest.checked_mmRealloc {b : Blk} {n q : Nat} {h' : Heap} (o : Rest h (l ++ b :: r) fl)
    (ha : b.alloc = true) (hb : b ≠ prologue h.beginHeap) (hn0 : n ≠ 0) (hn : n ≤ maxRequest)
    (hlast : h.endHeap ≠ h.beginHeap + 80) (hW : ∀ k, Passes (W k) h.beginHeap k)
    (hp : b.addr = h.beginHeap + 80 → W h.brk (h.beginHeap - 4) = true)
    (hq : mmRealloc h b.addr n = some (h', q)) (hne : q ≠ 0) :
    Checked.mmRealloc W h b.addr n = some (h', q) := by
  have hle := allocSize_le hn
  unfold maxRequest at hn
  have hn' : n ≤ 4294967280 := by omega
  have hbnd := allocSize_bounds hn'
  have h8 := o.vars.begin8
  have hlt := o.vars.lt
  have hbm := o.mem (b := b) (by simp)
  have hWh : Passes (W h.brk) h.beginHeap h.endHeap := o.vars.top ▸ hW h.brk
  have hb0 : b.addr ≠ 0 := by omega
  obtain ⟨m, l', a', e', r', fl', hM⟩ := o.merged ha hb
  have hroom := hM.room
  have hba : h.beginHeap + 80 ≤ a' := hM.inv.begin_le
  have hle' : e' ≤ h.endHeap := hM.inv.le_end
  have hmL : a' % 8 = 0 := hM.inv.modL
  have hmR : e' % 8 = 0 := hM.inv.modR
  have hhd : W h.brk (hdrp b.addr) = true := by
    have := (o.openAt ha hb).begin_le
    rw [hdrp_eq (by omega) (by omega)]
    exact hWh _ (by omega) (by omega)
  have hha : W h.brk (hdrp a') = true := by
    rw [hdrp_eq (by omega) (by omega)]
    exact hWh _ (by omega) (by omega)
  have hco := o.checked_coalesce ha hb hWh hp
  rw [hM.eq] at hco
  rw [← hq]
  unfold Checked.mmRealloc mmRealloc
  rw [if_neg hb0, if_neg hn0, if_neg hb0, if_neg hn0]
  simp only [Checked.size_eq hhd, hco, hM.eq, Checked.load_eq hha, hM.hdr, Option.bind_eq_bind,
    Option.bind_some]
  have hcs : sub32 (min (size h.mem (hdrp b.addr)) (allocSize n)) dsize =
      copySize h b.addr n := rfl
  rw [hcs]
  by_cases hfit : allocSize n ≤ e' - a'
  · obtain ⟨ow, hsz, -⟩ := hM.copied o hn' hfit
    have ht := checked_freeTail ow hsz hbnd.1 hbnd.2.2.2.1 (by omega) hWh
    dsimp only at ht
    rw [if_pos hfit, if_pos hfit, ht]
  · obtain ⟨om, -⟩ := hM.inv.mark hM.room hM.tag
    have hput : Checked.metaPut (W h.brk) m a' (pack (e' - a') 1) =
        some (metaPut m a' (pack (e' - a') 1)) :=
      checked_metaPut (b := ⟨a', e' - a', true⟩) hWh (pack_one (by omega))
        (by show 8 ≤ a'; omega) (by show 16 ≤ e' - a'; omega) (by show (e' - a') % 8 = 0; omega)
        (by show h.beginHeap + 4 ≤ a'; omega) (by show a' + (e' - a') ≤ h.endHeap; omega) hlt
    have hal := om.checked_allocateBlock hbnd.2.2.2.2 hbnd.1 hbnd.2.2.2.1 (by omega) hlast hW
    rw [hM.hdr] at om hal
    have hin := hM.allocInRange hb0 hn0 hq hfit
    unfold marked at hin
    rw [hM.hdr] at hin
    have hal' := allocateBlock_spec om hbnd.2.2.2.2 hbnd.1 hbnd.2.2.2.1 (by omega) hin
    rw [if_neg hfit, if_neg hfit, hput]
    simp only [Option.bind_some, hal]
    cases hal' with
    | inl hnone =>
      -- the allocation fails, and so does the realloc
      have hal₀ : allocateBlock (marked h m a') (allocSize n) = some (marked h m a', 0) := by
        unfold marked
        rw [hM.hdr]
        exact hnone.1
      obtain ⟨m', hf⟩ : ∃ m', uncoalesceWasResvd (marked h m a').mem (marked h m a').beginHeap a'
          b.addr (size h.mem (hdrp b.addr)) = some m' :=
        uncoalesceWasResvd_isSome hbm.2.2.2.2.1
      have hr := mmRealloc_fail hb0 hn0 hM.eq (by rwa [hM.hdr]) hal₀ hf
      rw [hr] at hq
      exact absurd (congrArg Prod.snd (Option.some.inj hq)).symm hne
    | inr hsome =>
      obtain ⟨h₂, p, bs₂, fl₂, s, hal₂, hA, -⟩ := hsome
      have hbe : h₂.beginHeap = h.beginHeap := hA.beginEq
      have hge : h.beginHeap + 80 ≤ p := hA.ge
      have oc := hA.copied o hn'
      have hmem : (⟨a', e' - a', true⟩ : Blk) ∈ bs₂ :=
        (hA.carve.mem_iff rfl).mpr (.inl (by simp))
      obtain ⟨x, y, rfl⟩ := List.append_of_mem hmem
      have hMp : (⟨a', e' - a', true⟩ : Blk) ≠ prologue h₂.beginHeap :=
        ne_prologue (by show h₂.beginHeap + 80 ≤ a'; omega)
      have htop : h₂.endHeap = h₂.brk := oc.vars.top
      obtain ⟨hs₁, hs₂, hp₁, hf₁⟩ := oc.checked_freeInPlace (W := W) rfl hMp (by
        show Passes (W h₂.brk) h₂.beginHeap h₂.endHeap
        rw [hbe, htop]
        exact hW _)
      dsimp only at hs₁ hs₂ hp₁ hf₁
      rw [hal₂]
      simp only [Option.bind_some]
      rw [if_neg (by omega), if_neg (by omega), hs₁, hs₂, Option.bind_some, hp₁,
        Option.bind_some, hf₁]

end

end Csapp.Malloc
