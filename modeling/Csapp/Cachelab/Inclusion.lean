import Mathlib
import Csapp.Cachelab.CsimLru

/-!
# More lines, no new misses

Two simulators run over the same addresses with the same sets and blocks, one
with more lines to a set. As rows of LRU sets the smaller cache is the front of
the larger one at every moment, so each of its hits is a hit of the larger one.

The order of last use is in the time stamps, and they count the accesses in 64
bits. After 2 ^ 64 accesses old lines pass for new ones and two lines of a set
can bear the same stamp; which of them leaves then depends on where they lie,
and the inclusion is lost.
-/

namespace Csapp.Cachelab

/-! ## Traces of addresses -/

/-- What `access_cache` returns for the addresses of a trace, in order. -/
def accessAll (p : Params) : List Addr → Cache → Option (List OpResult × Cache)
  | [], c => some ([], c)
  | addr :: trace, c =>
    (accessCache p addr c).bind fun r =>
      (accessAll p trace r.2).map fun rs => (r.1 :: rs.1, rs.2)

/-- What is a hit in the first list is a hit in the second one. -/
def HitsIncluded (rs₁ rs₂ : List OpResult) : Prop :=
  ∀ i : Nat, rs₁[i]? = some kHit → rs₂[i]? = some kHit

/-- The results with the miss flag. -/
def misses (rs : List OpResult) : Nat := rs.countP fun r => kMiss &&& r ≠ 0

/-- Both runs come out, the hits of the first are hits of the second, and the second
has no more misses. -/
def Included (p₁ p₂ : Params) (trace : List Addr) (junk₁ junk₂ : Nat → Nat → BitVec 64) : Prop :=
  ∃ rs₁ c₁ rs₂ c₂, accessAll p₁ trace (initCache p₁ junk₁) = some (rs₁, c₁) ∧
    accessAll p₂ trace (initCache p₂ junk₂) = some (rs₂, c₂) ∧
    HitsIncluded rs₁ rs₂ ∧ misses rs₂ ≤ misses rs₁

/-! ## The abstract caches -/

/-- The outcomes of the accesses to a list of blocks. -/
def lruOutcomes (s E : Nat) : List Nat → LruCache → List Outcome
  | [], _ => []
  | x :: xs, l => (lruAccess s E x l).1 :: lruOutcomes s E xs (lruAccess s E x l).2

/-- The front of every set. -/
def LruCache.front (E : Nat) (l : LruCache) : LruCache := fun i => (l i).take E

/-- The smaller cache stays the front of the larger one. -/
theorem lruAccess_front {s E₁ E₂ : Nat} {l : LruCache} (h₁ : 0 < E₁) (h₁₂ : E₁ ≤ E₂)
    (hl : ∀ i, (l i).length ≤ E₂) (x : Nat) :
    ((lruAccess s E₁ x (l.front E₁)).1 = .hit → (lruAccess s E₂ x l).1 = .hit) ∧
      (lruAccess s E₁ x (l.front E₁)).2 = (lruAccess s E₂ x l).2.front E₁ ∧
      ∀ i, ((lruAccess s E₂ x l).2 i).length ≤ E₂ := by
  refine ⟨lru_take_hit, funext fun k => ?_, fun k => ?_⟩
  · unfold lruAccess LruCache.front
    dsimp only
    by_cases hk : k = x % 2 ^ s
    · rw [if_pos hk, if_pos hk]
      exact lru_take h₁ h₁₂ (hl _) x
    · rw [if_neg hk, if_neg hk]
  · unfold lruAccess
    dsimp only
    by_cases hk : k = x % 2 ^ s
    · rw [if_pos hk]
      exact lru_length_le (Nat.lt_of_lt_of_le h₁ h₁₂) (hl _) x
    · rw [if_neg hk]
      exact hl k

theorem lruOutcomes_included {s E₁ E₂ : Nat} (h₁ : 0 < E₁) (h₁₂ : E₁ ≤ E₂) (xs : List Nat) :
    ∀ {l : LruCache}, (∀ i, (l i).length ≤ E₂) →
      List.Forall₂ (fun o₁ o₂ => o₁ = Outcome.hit → o₂ = Outcome.hit)
        (lruOutcomes s E₁ xs (l.front E₁)) (lruOutcomes s E₂ xs l) := by
  induction xs with
  | nil => exact fun _ => .nil
  | cons x xs ih =>
    intro l hl
    obtain ⟨hhit, hfront, hlen⟩ := lruAccess_front (s := s) h₁ h₁₂ hl x
    rw [lruOutcomes, lruOutcomes, hfront]
    exact .cons hhit (ih hlen)

/-! ## The results -/

theorem result_eq_hit {o : Outcome} : Outcome.result o = kHit ↔ o = .hit := by
  cases o <;> decide

theorem result_miss {o : Outcome} : kMiss &&& Outcome.result o ≠ 0 ↔ o ≠ .hit := by
  cases o <;> decide

theorem results_included {os₁ os₂ : List Outcome}
    (h : List.Forall₂ (fun o₁ o₂ => o₁ = Outcome.hit → o₂ = Outcome.hit) os₁ os₂) :
    HitsIncluded (os₁.map Outcome.result) (os₂.map Outcome.result) ∧
      misses (os₂.map Outcome.result) ≤ misses (os₁.map Outcome.result) := by
  induction h with
  | nil => exact ⟨fun i hi => hi, Nat.le_refl _⟩
  | @cons o₁ o₂ os₁ os₂ hhit _ ih =>
    obtain ⟨hincl, hmiss⟩ := ih
    refine ⟨fun i hi => ?_, ?_⟩
    · cases i with
      | zero =>
        have ho := result_eq_hit.mp (Option.some.inj hi)
        exact congrArg some (result_eq_hit.mpr (hhit ho))
      | succ i => exact hincl i hi
    · simp only [misses, List.map_cons, List.countP_cons, decide_eq_true_eq, result_miss] at hmiss ⊢
      by_cases ho : o₁ = .hit
      · simpa [hhit ho, ho] using hmiss
      · rw [if_pos ho]
        split <;> omega

/-- While the time stamps count, the run is that of the abstract cache. -/
theorem accessAll_eq {p : Params} (hf : p.Fits) (hE : 0 < p.lines) (trace : List Addr) :
    ∀ {n : Nat} {c : Cache} {l : LruCache}, CacheRel p n c l → n + trace.length < 2 ^ 64 →
      ∃ c', accessAll p trace c =
        some ((lruOutcomes p.s p.lines (trace.map p.block) l).map Outcome.result, c') := by
  induction trace with
  | nil => exact fun _ _ => ⟨_, rfl⟩
  | cons addr trace ih =>
    intro n c l h hn
    rw [List.length_cons] at hn
    obtain ⟨c₁, hacc, hrel⟩ := h.access hf hE (by omega) addr
    obtain ⟨c₂, hall⟩ := ih hrel (by omega)
    exact ⟨c₂, by rw [accessAll, hacc, Option.bind_some, hall]; rfl⟩

/-- Before the time stamp wraps around, more lines never turn a hit into a miss. -/
theorem included_of_lines_le {s b E₁ E₂ : Nat} (hs : s ≤ 30) (hlow : 1 ≤ s + b)
    (hhigh : s + b ≤ 63) (h₁ : 1 ≤ E₁) (h₁₂ : E₁ ≤ E₂) (trace : List Addr)
    (hlen : trace.length < 2 ^ 64) (junk₁ junk₂ : Nat → Nat → BitVec 64) :
    Included ⟨s, E₁, b⟩ ⟨s, E₂, b⟩ trace junk₁ junk₂ := by
  have hn : 0 + trace.length < 2 ^ 64 := by rwa [Nat.zero_add]
  obtain ⟨c₁, hrun₁⟩ := accessAll_eq (p := ⟨s, E₁, b⟩) ⟨hs, hlow, hhigh⟩ h₁ trace
    (cacheRel_init _ junk₁) hn
  obtain ⟨c₂, hrun₂⟩ := accessAll_eq (p := ⟨s, E₂, b⟩) ⟨hs, hlow, hhigh⟩
    (Nat.lt_of_lt_of_le h₁ h₁₂) trace (cacheRel_init _ junk₂) hn
  have hempty : LruCache.empty = LruCache.empty.front E₁ := funext fun _ => List.take_nil.symm
  rw [hempty] at hrun₁
  exact ⟨_, _, _, _, hrun₁, hrun₂, results_included
    (lruOutcomes_included h₁ h₁₂ _ fun _ => Nat.zero_le E₂)⟩

/-- Two blocks of one byte pair, in caches of one line and of two. -/
theorem included_of_lines_le_two :
    Included ⟨0, 1, 1⟩ ⟨0, 2, 1⟩ [0, 2, 0, 2] (fun _ _ => 7) (fun _ _ => 9) :=
  included_of_lines_le (by decide) (by decide) (by decide) (by decide) (by decide) _
    (by simp) _ _

/-! ## When the time stamp wraps around -/

/-- The accesses to the blocks of a cache with a single set. -/
def setRun : List Nat → BitVec 64 → List CacheLine →
    Option (List OpResult × BitVec 64 × List CacheLine)
  | [], tick, lines => some ([], tick, lines)
  | x :: xs, tick, lines =>
    (accessSet x (tick + 1) lines).bind fun r =>
      (setRun xs (tick + 1) r.2).map fun q => (r.1 :: q.1, q.2)

theorem setRun_append {xs ys : List Nat} {tick tick₁ : BitVec 64} {lines lines₁ : List CacheLine}
    {rs rs' : List OpResult} {q : BitVec 64 × List CacheLine}
    (h : setRun xs tick lines = some (rs, tick₁, lines₁))
    (h' : setRun ys tick₁ lines₁ = some (rs', q)) :
    setRun (xs ++ ys) tick lines = some (rs ++ rs', q) := by
  induction xs generalizing tick lines rs with
  | nil =>
    obtain ⟨rfl, rfl, rfl⟩ : [] = rs ∧ tick = tick₁ ∧ lines = lines₁ := by
      simpa [setRun] using h
    exact h'
  | cons x xs ih =>
    rw [setRun] at h
    obtain ⟨r, hr, h⟩ := Option.bind_eq_some_iff.mp h
    obtain ⟨q, hq, h⟩ := Option.map_eq_some_iff.mp h
    obtain ⟨qs, t, ls⟩ := q
    obtain ⟨rfl, rfl, rfl⟩ : r.1 :: qs = rs ∧ t = tick₁ ∧ ls = lines₁ := by simpa using h
    rw [List.cons_append, setRun, hr, Option.bind_some, ih hq]
    rfl

/-- Hits of the line that was used last. -/
theorem setRun_replicate {x : Nat} {tick : BitVec 64} {pre post : List CacheLine}
    (hpre : ∀ l ∈ pre, Other x l) (n : Nat) :
    setRun (List.replicate n x) tick (pre ++ ⟨x, tick⟩ :: post) =
      some (List.replicate n kHit, tick + BitVec.ofNat 64 n,
        pre ++ ⟨x, tick + BitVec.ofNat 64 n⟩ :: post) := by
  induction n generalizing tick with
  | zero => simp [setRun]
  | succ n ih =>
    have hstep : accessSet x (tick + 1) (pre ++ ⟨x, tick⟩ :: post) =
        some (kHit, pre ++ ⟨x, tick + 1⟩ :: post) := by
      rw [accessSet, scan_hit (l := ⟨x, tick⟩) rfl hpre, Nat.zero_add]
      exact congrArg (fun ls => some (kHit, ls)) (modify_middle ..)
    have hsum : tick + 1 + BitVec.ofNat 64 n = tick + BitVec.ofNat 64 (n + 1) := by
      rw [BitVec.ofNat_add, BitVec.add_comm (BitVec.ofNat 64 n), BitVec.add_assoc]
      rfl
    rw [List.replicate_succ, setRun, hstep, Option.bind_some, ih, hsum, List.replicate_succ]
    rfl

/-- The first byte of a block of two bytes. -/
def firstByte (x : Nat) : Addr := BitVec.ofNat 64 (2 * x)

/-- With no set bits and one offset bit the cache is that one set. -/
theorem accessAll_of_setRun {E : Nat} {xs : List Nat} (hxs : ∀ x ∈ xs, x < 2 ^ 63) :
    ∀ {c : Cache} {rs : List OpResult} {q : BitVec 64 × List CacheLine},
      setRun xs c.tick (c.sets 0) = some (rs, q) →
      ∃ c', accessAll ⟨0, E, 1⟩ (xs.map firstByte) c = some (rs, c') := by
  have hf : Params.Fits ⟨0, E, 1⟩ := ⟨Nat.zero_le 30, Nat.le_refl 1, Nat.le_add_left 1 62⟩
  induction xs with
  | nil =>
    intro c rs q h
    obtain ⟨rfl, -⟩ : [] = rs ∧ (c.tick, c.sets 0) = q := by simpa [setRun] using h
    exact ⟨c, rfl⟩
  | cons x xs ih =>
    intro c rs q h
    have hblock : Params.block ⟨0, E, 1⟩ (firstByte x) = x := by
      have := hxs x List.mem_cons_self
      unfold Params.block firstByte
      rw [BitVec.toNat_ofNat]
      change 2 * x % 2 ^ 64 / 2 ^ 1 = x
      omega
    have htag : Params.tagOf ⟨0, E, 1⟩ x = x := by simp [Params.tagOf]
    rw [setRun] at h
    obtain ⟨r, hr, h⟩ := Option.bind_eq_some_iff.mp h
    obtain ⟨p, hp, h⟩ := Option.map_eq_some_iff.mp h
    obtain ⟨rfl, -⟩ : r.1 :: p.1 = rs ∧ p.2 = q := by simpa using h
    obtain ⟨c₁, hacc, htick, hset⟩ : ∃ c₁, accessCache ⟨0, E, 1⟩ (firstByte x) c = some (r.1, c₁) ∧
        c₁.tick = c.tick + 1 ∧ c₁.sets 0 = r.2 := by
      refine ⟨⟨fun k => if k = Params.block ⟨0, E, 1⟩ (firstByte x) % 2 ^ 0 then r.2
        else c.sets k, c.tick + 1⟩, accessCache_eq hf ?_, rfl, ?_⟩
      · rw [hblock, htag, Nat.pow_zero, Nat.mod_one]
        exact hr
      · dsimp only
        rw [Nat.pow_zero, Nat.mod_one]
        exact if_pos rfl
    have hnext : setRun xs c₁.tick (c₁.sets 0) = some p := by
      rw [htick, hset]
      exact hp
    obtain ⟨c', hc'⟩ := ih (fun y hy => hxs y (List.mem_cons_of_mem x hy)) hnext
    refine ⟨c', ?_⟩
    rw [List.map_cons, accessAll, hacc, Option.bind_some, hc']
    rfl

/-- Blocks 0, 2 and 1, then block 0 until the time stamp is about to wrap; blocks 1 and 0
before it does and block 2 after, then block 0 until it wraps again. Now the lines of
blocks 0 and 2 hold the stamps 0 and 1, and block 3 replaces block 0 with a stamp 1. -/
def wrapBlocks (m n : Nat) : List Nat :=
  [0, 2, 1, 0] ++ (List.replicate m 0 ++ ([1, 0, 2, 2, 0] ++ (List.replicate n 0 ++ [3, 4, 3])))

section

variable {m n : Nat}

/-- A run in five parts, of which two are repetitions. -/
theorem setRun_wrapBlocks {lines₀ pre₁ post₁ lines₁ pre₂ post₂ lines₂ : List CacheLine}
    {rsA rsC rsE : List OpResult} {r : OpResult} {q : BitVec 64 × List CacheLine}
    (hm : 4#64 + BitVec.ofNat 64 m = -3#64) (hn : 2#64 + BitVec.ofNat 64 n = 0#64)
    (h₁ : ∀ l ∈ pre₁, Other (0 : Nat) l) (h₂ : ∀ l ∈ pre₂, Other (0 : Nat) l)
    (hA : setRun [0, 2, 1, 0] 0 lines₀ = some (rsA, 4#64, pre₁ ++ ⟨(0 : Nat), 4#64⟩ :: post₁))
    (hl₁ : pre₁ ++ ⟨(0 : Nat), -3#64⟩ :: post₁ = lines₁)
    (hC : setRun [1, 0, 2, 2, 0] (-3#64) lines₁ =
      some (rsC, 2#64, pre₂ ++ ⟨(0 : Nat), 2#64⟩ :: post₂))
    (hl₂ : pre₂ ++ ⟨(0 : Nat), 0#64⟩ :: post₂ = lines₂)
    (hE : setRun [3, 4, 3] 0#64 lines₂ = some (rsE ++ [r], q)) :
    setRun (wrapBlocks m n) 0 lines₀ =
      some (rsA ++ (List.replicate m kHit ++ (rsC ++ (List.replicate n kHit ++ rsE))) ++ [r],
        q) := by
  have hB : setRun (List.replicate m 0) 4#64 (pre₁ ++ ⟨(0 : Nat), 4#64⟩ :: post₁) = _ :=
    setRun_replicate h₁ m
  have hD : setRun (List.replicate n 0) 2#64 (pre₂ ++ ⟨(0 : Nat), 2#64⟩ :: post₂) = _ :=
    setRun_replicate h₂ n
  rw [hm, hl₁] at hB
  rw [hn, hl₂] at hD
  have hrun := setRun_append hA (setRun_append hB (setRun_append hC (setRun_append hD hE)))
  rw [wrapBlocks, hrun]
  simp only [List.append_assoc]

end

theorem wrapBlocks_lt (m n : Nat) : ∀ x ∈ wrapBlocks m n, x < 2 ^ 63 := by
  intro x hx
  simp only [wrapBlocks, List.mem_append, List.mem_replicate, List.mem_cons,
    List.not_mem_nil, or_false] at hx
  omega

theorem HitsIncluded.last {as bs : List OpResult} {a b : OpResult}
    (h : HitsIncluded (as ++ [a]) (bs ++ [b])) (hlen : as.length = bs.length) (ha : a = kHit) :
    b = kHit := by
  have hb := h as.length (by rw [List.getElem?_concat_length, ha])
  rw [hlen, List.getElem?_concat_length] at hb
  exact Option.some.inj hb

section

variable {m n : Nat} (hm : 4#64 + BitVec.ofNat 64 m = -3#64) (hn : 2#64 + BitVec.ofNat 64 n = 0#64)

include hm hn

/-- With two lines block 3 is still there at the end. -/
theorem wrapBlocks_two : ∃ rs q, rs.length = m + n + 11 ∧
    setRun (wrapBlocks m n) 0 [⟨-1, 0⟩, ⟨-1, 0⟩] = some (rs ++ [kHit], q) := by
  have hA : setRun [0, 2, 1, 0] 0 [⟨-1, 0⟩, ⟨-1, 0⟩] =
      some ([kMiss, kMiss, kMiss ||| kEvict, kMiss ||| kEvict], 4#64, [⟨1, 3⟩, ⟨0, 4⟩]) := rfl
  have hC : setRun [1, 0, 2, 2, 0] (-3#64) [⟨1, 3⟩, ⟨0, -3#64⟩] =
      some ([kHit, kHit, kMiss ||| kEvict, kHit, kHit], 2#64, [⟨2, 1⟩, ⟨0, 2⟩]) := rfl
  have hE : setRun [3, 4, 3] 0#64 [⟨2, 1⟩, ⟨0, 0⟩] =
      some ([kMiss, kMiss ||| kEvict] ++ [kHit], 3#64, [⟨4, 2⟩, ⟨3, 3⟩]) := rfl
  have h₁ : ∀ l ∈ [(⟨1, 3⟩ : CacheLine)], Other (0 : Nat) l := by
    simp [Other]
  have h₂ : ∀ l ∈ [(⟨2, 1⟩ : CacheLine)], Other (0 : Nat) l := by
    simp [Other]
  refine ⟨_, _, ?_, setRun_wrapBlocks hm hn h₁ h₂ hA rfl hC rfl hE⟩
  simp
  omega

/-- With three lines block 4 replaces it, for it lies in front of block 2. -/
theorem wrapBlocks_three : ∃ rs q, rs.length = m + n + 11 ∧
    setRun (wrapBlocks m n) 0 [⟨-1, 0⟩, ⟨-1, 0⟩, ⟨-1, 0⟩] =
      some (rs ++ [kMiss ||| kEvict], q) := by
  have hA : setRun [0, 2, 1, 0] 0 [⟨-1, 0⟩, ⟨-1, 0⟩, ⟨-1, 0⟩] =
      some ([kMiss, kMiss, kMiss, kHit], 4#64, [⟨0, 4⟩, ⟨2, 2⟩, ⟨1, 3⟩]) := rfl
  have hC : setRun [1, 0, 2, 2, 0] (-3#64) [⟨0, -3#64⟩, ⟨2, 2⟩, ⟨1, 3⟩] =
      some ([kHit, kHit, kHit, kHit, kHit], 2#64, [⟨0, 2⟩, ⟨2, 1⟩, ⟨1, -2#64⟩]) := rfl
  have hE : setRun [3, 4, 3] 0#64 [⟨0, 0⟩, ⟨2, 1⟩, ⟨1, -2#64⟩] =
      some ([kMiss, kMiss ||| kEvict] ++ [kMiss ||| kEvict], 3#64,
        [⟨4, 2⟩, ⟨3, 3⟩, ⟨1, -2#64⟩]) := rfl
  have hnil : ∀ l ∈ ([] : List CacheLine), Other (0 : Nat) l := by
    simp
  refine ⟨_, _, ?_, setRun_wrapBlocks hm hn hnil hnil hA rfl hC rfl hE⟩
  simp
  omega

theorem wrapBlocks_not_included :
    ¬Included ⟨0, 2, 1⟩ ⟨0, 3, 1⟩ ((wrapBlocks m n).map firstByte) (fun _ _ => 0)
      (fun _ _ => 0) := by
  obtain ⟨as, q₁, hlen₁, hset₁⟩ := wrapBlocks_two hm hn
  obtain ⟨bs, q₂, hlen₂, hset₂⟩ := wrapBlocks_three hm hn
  obtain ⟨c₁, hrun₁⟩ := accessAll_of_setRun (E := 2) (c := initCache ⟨0, 2, 1⟩ fun _ _ => 0)
    (wrapBlocks_lt m n) hset₁
  obtain ⟨c₂, hrun₂⟩ := accessAll_of_setRun (E := 3) (c := initCache ⟨0, 3, 1⟩ fun _ _ => 0)
    (wrapBlocks_lt m n) hset₂
  rintro ⟨rs₁, d₁, rs₂, d₂, h₁, h₂, hincl, -⟩
  obtain ⟨rfl, -⟩ := Prod.mk.inj (Option.some.inj (h₁.symm.trans hrun₁))
  obtain ⟨rfl, -⟩ := Prod.mk.inj (Option.some.inj (h₂.symm.trans hrun₂))
  exact absurd (hincl.last (hlen₁.trans hlen₂.symm) rfl) (by decide)

end

/-- Over 2 ^ 65 + 3 accesses a hit with two lines becomes a miss with three. -/
theorem not_included_past_wrap :
    ¬Included ⟨0, 2, 1⟩ ⟨0, 3, 1⟩ ((wrapBlocks (2 ^ 64 - 7) (2 ^ 64 - 2)).map firstByte)
      (fun _ _ => 0) (fun _ _ => 0) :=
  wrapBlocks_not_included (by decide) (by decide)

end Csapp.Cachelab
