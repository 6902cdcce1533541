import Mathlib
import Csapp.Lib.CString
import Csapp.Cachelab.CsimLru

/-!
# A run over a trace

The trace is a text. `Spells` says which text a list of accesses is written as,
in the format of valgrind; of such a line `sscanf` reads the access back, and the
run counts what the abstract cache counts over the blocks of all accesses.
-/

namespace Csapp.Cachelab

/-! ## Traces -/

/-- The operations of a trace. -/
inductive Op
  | instr
  | load
  | store
  | modify
deriving DecidableEq

/-- How the trace spells them. -/
def Op.letter : Op → Char
  | .instr => 'I'
  | .load => 'L'
  | .store => 'S'
  | .modify => 'M'

/-- An entry of a trace. -/
structure Entry where
  op : Op
  addr : Addr

/-- The blocks an entry accesses; a modify loads and stores. -/
def Entry.blocks (p : Params) (e : Entry) : List Nat :=
  match e.op with
  | .instr => []
  | .load | .store => [p.block e.addr]
  | .modify => [p.block e.addr, p.block e.addr]

/-- Digits of the base, and one at least. -/
def Numeral (base : Nat) (ds : List Char) : Prop := ds ≠ [] ∧ ∀ c ∈ ds, isDigitOf base c = true

/-- A line without its end: `I` in column one, the others behind a blank, then
blanks, the address in hexadecimal, a comma and the size. -/
def Written (e : Entry) (l : List Char) : Prop :=
  ∃ gap hex size, gap ≠ [] ∧ (∀ c ∈ gap, c = ' ') ∧ Numeral 16 hex ∧
    numVal 16 hex = e.addr.toNat ∧ Numeral 10 size ∧
    l = (if e.op = .instr then [] else [' ']) ++ e.op.letter :: (gap ++ (hex ++ ',' :: size))

/-- The text of a trace; the last line may lack its end. -/
inductive Spells : List Char → List Entry → Prop
  | nil : Spells [] []
  | last {e : Entry} {l : List Char} : Written e l → Spells l [e]
  | cons {e : Entry} {l rest : List Char} {es : List Entry} : Written e l → Spells rest es →
      Spells (l ++ '\n' :: rest) (e :: es)

/-! ## Characters -/

theorem eq_of_toNat {c : Char} {n : Nat} (h : c.toNat = n) : c = Char.ofNat n := by
  rw [← h, Char.ofNat_toNat]

theorem isDigitOf_hex {base : Nat} {c : Char} (h : isDigitOf base c = true) :
    isDigitOf 16 c = true := by
  unfold isDigitOf at h ⊢
  cases hc : c.isDigit with
  | true => rfl
  | false =>
    rw [hc, Bool.false_or, Bool.and_eq_true] at h
    rw [h.2]
    rfl

theorem digit_ne {base : Nat} {c d : Char} (h : isDigitOf base c = true)
    (hd : isDigitOf 16 d = false) : c ≠ d := by
  rintro rfl
  rw [isDigitOf_hex h] at hd
  exact Bool.noConfusion hd

theorem digit_not_space {base : Nat} {c : Char} (h : isDigitOf base c = true) :
    isSpace c = false := by
  refine Bool.eq_false_iff.mpr fun hs => ?_
  simp only [isSpace, Bool.or_eq_true, decide_eq_true_eq] at hs
  rcases hs with ((((hs | hs) | hs) | hs) | hs) | hs
  · exact digit_ne h (by decide) hs
  · exact digit_ne h (by decide) hs
  · exact digit_ne h (by decide) hs
  · exact digit_ne h (by decide) (eq_of_toNat hs)
  · exact digit_ne h (by decide) (eq_of_toNat hs)
  · exact digit_ne h (by decide) hs

theorem digit_not_nul {base : Nat} {c : Char} (h : isDigitOf base c = true) : c.toNat ≠ 0 :=
  fun h0 => digit_ne h (by decide) (eq_of_toNat h0)

/-! ## The conversions -/

/-- What ends a number. -/
def Ends (base : Nat) (rest : List Char) : Prop :=
  ∀ c, rest.head? = some c → isDigitOf base c = false ∧ c ≠ 'x' ∧ c ≠ 'X'

theorem scanDigits_eq {base : Nat} {ds rest : List Char} (hd : Numeral base ds)
    (hr : Ends base rest) : scanDigits base (ds ++ rest) = some (numVal base ds, rest) := by
  obtain ⟨hspan, hspan'⟩ := span_eq (p := isDigitOf base) hd.2 fun c hc => (hr c hc).1
  have hplain : (if (ds ++ rest).takeWhile (isDigitOf base) = [] then none
      else some (numVal base ((ds ++ rest).takeWhile (isDigitOf base)),
        (ds ++ rest).dropWhile (isDigitOf base))) = some (numVal base ds, rest) := by
    rw [hspan, hspan', if_neg hd.1]
  unfold scanDigits
  dsimp only
  split
  · next x l' heq =>
    -- The second character is a digit or ends the number.
    have hx : ¬(base = 16 ∧ (x = 'x' ∨ x = 'X')) := by
      rintro ⟨-, hx⟩
      obtain ⟨d, ds', rfl⟩ := List.exists_cons_of_ne_nil hd.1
      cases ds' with
      | nil =>
        have hrest : rest = x :: l' := (List.cons.inj heq).2
        have := hr x (by rw [hrest]; rfl)
        exact hx.elim this.2.1 this.2.2
      | cons d' ds' =>
        obtain rfl : d' = x := (List.cons.inj (List.cons.inj heq).2).1
        have hdig := hd.2 d' (by simp)
        exact hx.elim (digit_ne hdig (by decide)) (digit_ne hdig (by decide))
    rw [if_neg hx]
    exact hplain
  · exact hplain

/-- A number of at most 64 bits behind blanks. -/
theorem scanNum_eq {base : Nat} {gap ds rest : List Char} (hg : ∀ c ∈ gap, c = ' ')
    (hd : Numeral base ds) (hr : Ends base rest) :
    ∃ v, scanNum base (gap ++ (ds ++ rest)) = some (v, rest) ∧
      (numVal base ds < 2 ^ 64 → v = BitVec.ofNat 64 (numVal base ds)) := by
  obtain ⟨d, ds', rfl⟩ := List.exists_cons_of_ne_nil hd.1
  have hdig := hd.2 d List.mem_cons_self
  have hdrop : (gap ++ (d :: ds' ++ rest)).dropWhile isSpace = d :: ds' ++ rest :=
    (span_eq (fun c hc => by rw [hg c hc]; rfl) fun c hc => by
      obtain rfl : d = c := Option.some.inj hc
      exact digit_not_space hdig).2
  have hminus : d ≠ '-' := digit_ne hdig (by decide)
  have hplus : d ≠ '+' := digit_ne hdig (by decide)
  refine ⟨if 2 ^ 64 ≤ numVal base (d :: ds') then BitVec.allOnes 64
    else BitVec.ofNat 64 (numVal base (d :: ds')), ?_, fun hlt => if_neg (Nat.not_le.mpr hlt)⟩
  have hscan : scanDigits base (d :: (ds' ++ rest)) = some (numVal base (d :: ds'), rest) :=
    scanDigits_eq hd hr
  unfold scanNum
  rw [hdrop, List.cons_append]
  simp [hminus, hplus, hscan]

/-! ## A line -/

theorem letter_ne (op : Op) : isSpace op.letter = false ∧ op.letter.toNat ≠ 0 := by
  cases op <;> decide

/-- A line holds no zero byte and no end of line, and starts with a blank unless it
is a fetch. -/
theorem Written.chars {e : Entry} {l : List Char} (h : Written e l) :
    (∀ c ∈ l, c.toNat ≠ 0 ∧ c ≠ '\n') ∧ (l.head? = some ' ' ↔ e.op ≠ .instr) ∧ l ≠ [] := by
  obtain ⟨gap, hex, size, -, hg, hh, -, hs, rfl⟩ := h
  refine ⟨fun c hc => ?_, ?_, by simp⟩
  · have hblank : ' '.toNat ≠ 0 ∧ ' ' ≠ '\n' := by decide
    simp only [List.mem_append, List.mem_cons] at hc
    rcases hc with hc | rfl | hc | hc | rfl | hc
    · split at hc
      · cases hc
      · rw [List.mem_singleton.mp hc]
        exact hblank
    · cases e.op <;> decide
    · rw [hg c hc]
      exact hblank
    · exact ⟨digit_not_nul (hh.2 c hc), digit_ne (hh.2 c hc) (by decide)⟩
    · decide
    · exact ⟨digit_not_nul (hs.2 c hc), digit_ne (hs.2 c hc) (by decide)⟩
  · by_cases hop : e.op = .instr
    · rw [if_pos hop, hop]
      simp [Op.letter]
    · rw [if_neg hop]
      simp [hop]

/-- `sscanf` reads a line back, whatever the variables hold. -/
theorem scanEntry_eq {e : Entry} {l tail : List Char} (h : Written e l) (hop : e.op ≠ .instr)
    (htail : tail = [] ∨ tail = ['\n']) (v : Vars) :
    ∃ size, scanEntry (l ++ tail) v = ⟨some e.op.letter, some e.addr, some size⟩ := by
  have hchars := h.chars.1
  obtain ⟨gap, hex, size, -, hg, hh, haddr, hs, rfl⟩ := h
  rw [if_neg hop] at hchars ⊢
  have htw : ∀ l : List Char, (∀ c ∈ l, c.toNat ≠ 0 ∧ c ≠ '\n') →
      (l ++ tail).takeWhile (fun c => c.toNat ≠ 0) = l ++ tail := by
    intro l hl
    refine List.takeWhile_eq_self_iff.mpr fun c hc => decide_eq_true ?_
    rcases List.mem_append.mp hc with hc | hc
    · exact (hl c hc).1
    · rcases htail with rfl | rfl
      · cases hc
      · rw [List.mem_singleton.mp hc]
        decide
  have hcomma : Ends 16 (',' :: (size ++ tail)) := by
    intro c hc
    obtain rfl : ',' = c := Option.some.inj hc
    decide
  have hend : Ends 10 tail := by
    intro c hc
    rcases htail with rfl | rfl
    · cases hc
    · obtain rfl : '\n' = c := Option.some.inj hc
      decide
  obtain ⟨a, hscan, ha⟩ := scanNum_eq hg hh hcomma
  have hnone : ∀ c ∈ ([] : List Char), c = ' ' := fun _ hc => absurd hc List.not_mem_nil
  obtain ⟨sz, hscan', -⟩ := scanNum_eq hnone hs hend
  obtain rfl : a = e.addr := by
    rw [ha (by rw [haddr]; exact e.addr.isLt), haddr, BitVec.ofNat_toNat, BitVec.setWidth_eq]
  refine ⟨sz, ?_⟩
  have hdrop : ([' '] ++ e.op.letter :: (gap ++ (hex ++ ',' :: size)) ++ tail).dropWhile isSpace =
      e.op.letter :: (gap ++ (hex ++ ',' :: (size ++ tail))) := by
    have hl : ¬isSpace e.op.letter = true := by
      rw [(letter_ne e.op).1]
      exact Bool.false_ne_true
    rw [List.append_assoc, List.singleton_append, List.dropWhile_cons_of_pos rfl, List.cons_append,
      List.dropWhile_cons_of_neg hl]
    simp
  rw [List.nil_append] at hscan'
  unfold scanEntry
  rw [htw _ hchars, hdrop]
  dsimp only
  rw [hscan]
  simp only [hscan']

/-! ## The run -/

section

variable {p : Params}

/-- A turn of the loop makes the accesses of its entry. -/
theorem runLine_eq {n : Nat} {r : RunState} {q : LruCache × Counts} {e : Entry}
    {l tail : List Char} (hl : Written e l) (htail : tail = [] ∨ tail = ['\n'])
    (h : CacheRel p n r.cache q.1) (hb : Bounded n q.2) (hr : r.counts = q.2) (hf : p.Fits)
    (hE : 0 < p.lines) (hn : n + (e.blocks p).length < 2147483648) :
    ∃ r', runLine p (l ++ tail) r = some r' ∧
      CacheRel p (n + (e.blocks p).length) r'.cache (lruRun p.s p.lines (e.blocks p) q).1 ∧
      Bounded (n + (e.blocks p).length) (lruRun p.s p.lines (e.blocks p) q).2 ∧
      r'.counts = (lruRun p.s p.lines (e.blocks p) q).2 := by
  have hhead : (l ++ tail).head? = some ' ' ↔ e.op ≠ .instr := by
    rw [List.head?_append_of_ne_nil _ hl.chars.2.2]
    exact hl.chars.2.1
  unfold runLine
  by_cases hop : e.op = .instr
  · have hblocks : e.blocks p = [] := by
      unfold Entry.blocks
      rw [hop]
    rw [if_pos fun he => hhead.mp he hop, hblocks]
    exact ⟨r, rfl, h, hb, hr⟩
  rw [if_neg (not_not.mpr (hhead.mpr hop))]
  obtain ⟨size, hscan⟩ := scanEntry_eq hl hop htail r.vars
  have hpos : 1 ≤ (e.blocks p).length := by
    unfold Entry.blocks
    cases hop' : e.op with
    | instr => exact absurd hop' hop
    | load => exact Nat.le_refl 1
    | store => exact Nat.le_refl 1
    | modify => exact Nat.le_succ 1
  obtain ⟨c₁, h₁, hc₁, hb₁⟩ := h.handleEntry hb hf hE (by omega) e.addr
  rw [← hr] at h₁
  simp only [hscan, Option.bind_eq_bind, Option.bind_some, h₁]
  by_cases hm : e.op = .modify
  · have hblocks : e.blocks p = [p.block e.addr, p.block e.addr] := by
      unfold Entry.blocks
      rw [hm]
    rw [hblocks, List.length_cons, List.length_singleton] at hn ⊢
    obtain ⟨c₂, h₂, hc₂, hb₂⟩ := hc₁.handleEntry hb₁ hf hE (by omega) e.addr
    have hletter : e.op.letter = 'M' := by
      rw [hm]
      rfl
    rw [if_pos hletter, h₂]
    exact ⟨_, rfl, hc₂, hb₂, rfl⟩
  · have hblocks : e.blocks p = [p.block e.addr] := by
      unfold Entry.blocks
      cases hop' : e.op with
      | instr => exact absurd hop' hop
      | load => rfl
      | store => rfl
      | modify => exact absurd hop' hm
    have hletter : e.op.letter ≠ 'M' := by
      cases hop' : e.op with
      | instr => decide
      | load => decide
      | store => decide
      | modify => exact absurd hop' hm
    rw [hblocks, if_neg hletter]
    exact ⟨_, rfl, hc₁, hb₁, rfl⟩

/-- The run from a state in step with an abstract cache. -/
theorem runLines_eq {text : List Char} {es : List Entry} (ht : Spells text es) (hf : p.Fits)
    (hE : 0 < p.lines) : ∀ {n : Nat} {r : RunState} {q : LruCache × Counts},
      CacheRel p n r.cache q.1 → Bounded n q.2 → r.counts = q.2 →
      n + (es.flatMap (Entry.blocks p)).length < 2147483648 →
      ∃ r', (getlines '\n' text).foldlM (fun r buf => runLine p buf r) r = some r' ∧
        r'.counts = (lruRun p.s p.lines (es.flatMap (Entry.blocks p)) q).2 := by
  induction ht with
  | nil => exact fun _ _ hr _ => ⟨_, rfl, hr⟩
  | @last e l hl =>
    intro n r q h hb hr hn
    rw [List.flatMap_singleton] at hn ⊢
    obtain ⟨r', heq, -, -, hr'⟩ := runLine_eq hl (.inl rfl) h hb hr hf hE hn
    rw [List.append_nil] at heq
    rw [getlines_last (fun hm => (hl.chars.1 _ hm).2 rfl) hl.chars.2.2, List.foldlM_cons, heq]
    exact ⟨r', rfl, hr'⟩
  | @cons e l rest es hl _ ih =>
    intro n r q h hb hr hn
    rw [List.flatMap_cons, List.length_append] at hn
    obtain ⟨r₁, heq, h₁, hb₁, hr₁⟩ := runLine_eq hl (.inr rfl) h hb hr hf hE (by omega)
    obtain ⟨r', heq', hr'⟩ := ih h₁ hb₁ hr₁ (by omega)
    refine ⟨r', ?_, ?_⟩
    · rw [getlines_cons fun hm => (hl.chars.1 _ hm).2 rfl, List.foldlM_cons, heq]
      exact heq'
    · rw [hr', List.flatMap_cons]
      unfold lruRun
      rw [List.foldl_append]

/-- The hits, misses and evictions of a run are those of the LRU cache. -/
theorem run_lru {text : List Char} {es : List Entry} (ht : Spells text es) (hf : p.Fits)
    (hE : 0 < p.lines) (hn : (es.flatMap (Entry.blocks p)).length < 2147483648)
    (junk : Nat → Nat → BitVec 64) :
    run p junk text = some
      (lruRun p.s p.lines (es.flatMap (Entry.blocks p)) (LruCache.empty, fun _ => 0)).2 := by
  obtain ⟨r, heq, hr⟩ := runLines_eq ht hf hE
    (r := ⟨⟨none, none, none⟩, initCache p junk, fun _ => 0⟩)
    (q := (LruCache.empty, fun _ => 0)) (cacheRel_init p junk) (fun _ => Nat.le_refl 0) rfl
    (by rw [Nat.zero_add]; exact hn)
  unfold run
  rw [heq, ← hr]
  rfl

end

/-- A load and a modify of two blocks in a cache of one line. -/
theorem run_lru_two : run ⟨0, 1, 1⟩ (fun _ _ => 7) " L 10,1\nI  400,8\n M 20,4".toList =
    some ![1, 2, 1] := by
  have hload : Written ⟨.load, 16⟩ " L 10,1".toList :=
    ⟨[' '], ['1', '0'], ['1'], by simp, by simp, ⟨by simp, by simp [isDigitOf]⟩, rfl,
      ⟨by simp, by simp [isDigitOf]⟩, by simp [Op.letter]⟩
  have hinstr : Written ⟨.instr, 1024⟩ "I  400,8".toList :=
    ⟨[' ', ' '], ['4', '0', '0'], ['8'], by simp, by simp, ⟨by simp, by simp [isDigitOf]⟩, rfl,
      ⟨by simp, by simp [isDigitOf]⟩, by simp [Op.letter]⟩
  have hmodify : Written ⟨.modify, 32⟩ " M 20,4".toList :=
    ⟨[' '], ['2', '0'], ['4'], by simp, by simp, ⟨by simp, by simp [isDigitOf]⟩, rfl,
      ⟨by simp, by simp [isDigitOf]⟩, by simp [Op.letter]⟩
  have hrun := run_lru (p := ⟨0, 1, 1⟩) (.cons hload (.cons hinstr (.last hmodify)))
    ⟨by decide, by decide, by decide⟩ Nat.one_pos (by decide) fun _ _ => 7
  exact hrun.trans (congrArg some (by decide))

end Csapp.Cachelab
