import Mathlib

/-!
# C strings in a buffer, and `strtok_r`

A C string is the list of its bytes before the terminating zero. A buffer is a
list of bytes behind which there is a zero; a pointer into it is a number, and
what it points to is the string from there to the next zero. `IsStr` is this
relation, with the lemmas on what a zero written somewhere does to it.

`strtok_r` writes zeros into the buffer; `token` is what it does to strings.
-/

namespace Csapp

/-- The bytes of a string, or of a buffer with several. -/
abbrev CStr := List UInt8

/-- A literal. -/
def text (s : String) : CStr := s.toList.map fun c => UInt8.ofNat c.toNat

/-- The string that `p` points to. -/
def cstr (b : CStr) (p : Nat) : CStr := (b.drop p).takeWhile (· ≠ 0)

/-- `strlen(b + p)`. -/
def strlen (b : CStr) (p : Nat) : Nat := (cstr b p).length

/-- `strchr(b + p, c)`, as an offset into `b`. -/
def strchr (b : CStr) (p : Nat) (c : UInt8) : Option Nat :=
  if c ∈ cstr b p then some (p + (cstr b p).idxOf c) else none

/-- `strtok_r(s, delim, &save)`, with `save` for `s` where that is `NULL`: the
buffer, the token and `save`. -/
def strtokR (b : CStr) (s : Nat) (delim : CStr) : CStr × Option Nat × Nat :=
  let s := s + ((cstr b s).takeWhile (· ∈ delim)).length
  if cstr b s = [] then (b, none, s)
  else
    let e := s + ((cstr b s).takeWhile (· ∉ delim)).length
    if cstr b e = [] then (b, some s, e) else (b.set e 0, some s, e + 1)

/-- The first token of a string, and the string behind it. -/
def token (delim l : CStr) : Option (CStr × CStr) :=
  let l := l.dropWhile (· ∈ delim)
  if l = [] then none
  else some (l.takeWhile (· ∉ delim), (l.dropWhile (· ∉ delim)).tail)

/-! ## Where a span ends -/

section

variable {α : Type} {p : α → Bool} {a x a' x' : List α}

/-- The longest span in front, up to an element that is not of the kind. -/
theorem span_eq (ha : ∀ c ∈ a, p c) (hx : ∀ c, x.head? = some c → p c = false) :
    (a ++ x).takeWhile p = a ∧ (a ++ x).dropWhile p = x := by
  rw [List.takeWhile_append_of_pos ha, List.dropWhile_append_of_pos ha]
  cases x with
  | nil => exact ⟨by simp, rfl⟩
  | cons c x =>
      have hc : ¬p c = true := by simp [hx c rfl]
      rw [List.takeWhile_cons_of_neg hc, List.dropWhile_cons_of_neg hc, List.append_nil]
      exact ⟨rfl, rfl⟩

theorem span_unique (h : a ++ x = a' ++ x') (ha : ∀ c ∈ a, p c) (ha' : ∀ c ∈ a', p c)
    (hx : ∀ c, x.head? = some c → p c = false) (hx' : ∀ c, x'.head? = some c → p c = false) :
    a = a' ∧ x = x' := by
  have h1 := span_eq ha hx
  have h2 := span_eq ha' hx'
  rw [h] at h1
  exact ⟨h1.1.symm.trans h2.1, h1.2.symm.trans h2.2⟩

theorem head?_dropWhile {l : List α} {c : α} (h : (l.dropWhile p).head? = some c) :
    p c = false := by
  have hn := List.head?_dropWhile_not p l
  rw [h] at hn
  simpa using hn

end

/-! ## Strings in a buffer -/

/-- `p` points to the string `s`. -/
def IsStr (b : CStr) (p : Nat) (s : CStr) : Prop :=
  ∃ x, b.drop p = s ++ x ∧ 0 ∉ s ∧ ∀ c, x.head? = some c → c = 0

theorem isStr_cstr (b : CStr) (p : Nat) : IsStr b p (cstr b p) := by
  refine ⟨(b.drop p).dropWhile (· ≠ 0), List.takeWhile_append_dropWhile.symm, ?_, ?_⟩
  · intro h
    simpa using List.mem_takeWhile_imp h
  · intro c hc
    simpa using head?_dropWhile hc

theorem IsStr.cstr {b s : CStr} {p : Nat} (h : IsStr b p s) : cstr b p = s := by
  obtain ⟨x, hx, hs, h0⟩ := h
  unfold Csapp.cstr
  rw [hx]
  refine (span_eq (fun c hc => decide_eq_true ?_) fun c hc => ?_).1
  · exact fun he => hs (he ▸ hc)
  · simpa using h0 c hc

/-- Behind the front of a string is the rest of it. -/
theorem IsStr.suffix {b s t : CStr} {p : Nat} (h : IsStr b p (s ++ t)) :
    IsStr b (p + s.length) t := by
  obtain ⟨x, hx, hs, h0⟩ := h
  refine ⟨x, ?_, fun ht => hs (List.mem_append_right s ht), h0⟩
  rw [← List.drop_drop, hx, List.append_assoc, List.drop_left]

/-- A zero in a string makes two of it. -/
theorem IsStr.cut {b s t : CStr} {c : UInt8} {p : Nat} (h : IsStr b p (s ++ c :: t)) :
    IsStr (b.set (p + s.length) 0) p s ∧ IsStr (b.set (p + s.length) 0) (p + s.length + 1) t := by
  obtain ⟨x, hx, hs, h0⟩ := h
  have hset : (b.set (p + s.length) 0).drop p = s ++ 0 :: (t ++ x) := by
    rw [List.drop_set, if_neg (by omega), hx, Nat.add_sub_cancel_left, List.append_assoc,
      List.set_append_right _ _ (Nat.le_refl _), Nat.sub_self]
    rfl
  constructor
  · exact ⟨0 :: (t ++ x), hset, fun hm => hs (List.mem_append_left _ hm),
      fun c hc => (Option.some.inj hc).symm⟩
  · refine ⟨x, ?_, fun hm => hs (List.mem_append_right _ (List.mem_cons_of_mem _ hm)), h0⟩
    rw [Nat.add_assoc, ← List.drop_drop, hset, ← List.drop_drop, List.drop_left]
    rfl

/-- A zero elsewhere leaves a string alone. -/
theorem IsStr.set {b s : CStr} {p e : Nat} (h : IsStr b p s) (he : e < p ∨ p + s.length < e) :
    IsStr (b.set e 0) p s := by
  obtain ⟨x, hx, hs, h0⟩ := h
  cases he with
  | inl he =>
      refine ⟨x, ?_, hs, h0⟩
      rw [List.drop_set_of_lt he, hx]
  | inr he =>
      refine ⟨x.set (e - p - s.length) 0, ?_, hs, ?_⟩
      · rw [List.drop_set, if_neg (by omega), hx, List.set_append_right _ _ (by omega)]
      · intro c hc
        cases x with
        | nil => cases hc
        | cons d x =>
            obtain ⟨k, hk⟩ : ∃ k, e - p - s.length = k + 1 := ⟨e - p - s.length - 1, by omega⟩
            rw [hk, List.set_cons_succ] at hc
            exact h0 c hc

theorem IsStr.strchr {b s t : CStr} {p : Nat} {c : UInt8} (h : IsStr b p (s ++ c :: t))
    (hs : c ∉ s) : strchr b p c = some (p + s.length) := by
  unfold Csapp.strchr
  rw [h.cstr, if_pos (by simp), List.idxOf_append_of_notMem hs, List.idxOf_cons_self, Nat.add_zero]

theorem IsStr.strchr_none {b s : CStr} {p : Nat} {c : UInt8} (h : IsStr b p s) (hs : c ∉ s) :
    Csapp.strchr b p c = none := by
  unfold Csapp.strchr
  rw [h.cstr, if_neg hs]

/-- A string at the first `c` in it. -/
def cutAt (c : UInt8) (l : CStr) : Option (CStr × CStr) :=
  if c ∈ l then some (l.takeWhile (· ≠ c), (l.dropWhile (· ≠ c)).tail) else none

theorem cutAt_append {c : UInt8} {s t : CStr} (h : c ∉ s) : cutAt c (s ++ c :: t) = some (s, t) := by
  have hs := span_eq (p := fun x => decide (x ≠ c)) (a := s) (x := c :: t)
    (fun x hx => decide_eq_true fun he => h (he ▸ hx)) (by simp)
  unfold cutAt
  rw [if_pos (by simp), hs.1, hs.2]
  rfl

theorem cutAt_some {c : UInt8} {l s t : CStr} (h : cutAt c l = some (s, t)) :
    l = s ++ c :: t ∧ c ∉ s := by
  by_cases hc : c ∈ l
  · obtain ⟨s', t', rfl, hs⟩ := List.eq_append_cons_of_mem hc
    rw [cutAt_append hs] at h
    obtain ⟨rfl, rfl⟩ := Prod.mk.inj (Option.some.inj h)
    exact ⟨rfl, hs⟩
  · rw [cutAt, if_neg hc] at h
    cases h

theorem cutAt_none {c : UInt8} {l : CStr} (h : cutAt c l = none) : c ∉ l := by
  intro hc
  rw [cutAt, if_pos hc] at h
  cases h

/-! ## Tokens -/

/-- Delimiters, then a token, then nothing or a delimiter. -/
structure Tokens (delim gap tok x : CStr) : Prop where
  skip : ∀ c ∈ gap, c ∈ delim
  nonempty : tok ≠ []
  take : ∀ c ∈ tok, c ∉ delim
  stop : ∀ c, x.head? = some c → c ∈ delim

theorem Tokens.spans {delim gap tok x : CStr} (h : Tokens delim gap tok x) :
    ((gap ++ (tok ++ x)).takeWhile (· ∈ delim) = gap ∧
      (gap ++ (tok ++ x)).dropWhile (· ∈ delim) = tok ++ x) ∧
    (tok ++ x).takeWhile (· ∉ delim) = tok ∧ (tok ++ x).dropWhile (· ∉ delim) = x := by
  constructor
  · refine span_eq (fun c hc => decide_eq_true (h.skip c hc)) fun c hc => ?_
    obtain ⟨d, tok, rfl⟩ := List.exists_cons_of_ne_nil h.nonempty
    cases hc
    exact decide_eq_false (h.take c List.mem_cons_self)
  · refine span_eq (fun c hc => decide_eq_true (h.take c hc)) fun c hc => ?_
    simpa using h.stop c hc

theorem Tokens.token {delim gap tok x : CStr} (h : Tokens delim gap tok x) :
    token delim (gap ++ (tok ++ x)) = some (tok, x.tail) := by
  unfold Csapp.token
  dsimp only
  rw [h.spans.1.2, h.spans.2.1, h.spans.2.2, if_neg (by simp [h.nonempty])]

theorem token_some {delim l tok rest : CStr} (h : token delim l = some (tok, rest)) :
    ∃ gap x, l = gap ++ (tok ++ x) ∧ Tokens delim gap tok x ∧ rest = x.tail := by
  unfold token at h
  dsimp only at h
  split at h
  · cases h
  next hne =>
      obtain ⟨rfl, rfl⟩ := Prod.mk.inj (Option.some.inj h)
      refine ⟨l.takeWhile (· ∈ delim), _, ?_, ⟨?_, ?_, ?_, ?_⟩, rfl⟩
      · rw [List.takeWhile_append_dropWhile, List.takeWhile_append_dropWhile]
      · exact fun c hc => by simpa using List.mem_takeWhile_imp hc
      · obtain ⟨c, l', hl⟩ := List.exists_cons_of_ne_nil hne
        have hc : (l.dropWhile (· ∈ delim)).head? = some c := by rw [hl]; rfl
        have hc := head?_dropWhile hc
        rw [hl, List.takeWhile_cons_of_pos (by simpa using hc)]
        exact List.cons_ne_nil _ _
      · exact fun c hc => by simpa using List.mem_takeWhile_imp hc
      · exact fun c hc => by simpa using head?_dropWhile hc

theorem token_none {delim l : CStr} : token delim l = none ↔ ∀ c ∈ l, c ∈ delim := by
  unfold token
  dsimp only
  split
  next h => simpa using h
  next h => simpa using h

/-- No token: nothing but delimiters. -/
theorem strtokR_none {b l delim : CStr} {s : Nat} (h : IsStr b s l) (ht : token delim l = none) :
    strtokR b s delim = (b, none, s + l.length) := by
  have hall : ∀ c ∈ l, decide (c ∈ delim) = true :=
    fun c hc => decide_eq_true (token_none.mp ht c hc)
  have hend : IsStr b (s + l.length) [] := by
    rw [← List.append_nil l] at h
    exact h.suffix
  unfold strtokR
  dsimp only
  rw [h.cstr, List.takeWhile_eq_self_iff.mpr hall, hend.cstr, if_pos rfl]

/-- The token and the rest are strings in the buffer. What ends where the call
starts is left alone, and `save` is one behind the token's end unless the whole
string ends there. -/
theorem strtokR_some {b l delim tok rest : CStr} {s : Nat} (h : IsStr b s l)
    (ht : token delim l = some (tok, rest)) :
    ∃ b' p, strtokR b s delim = (b', some p, min (p + tok.length + 1) (s + l.length)) ∧
      IsStr b' p tok ∧ IsStr b' (min (p + tok.length + 1) (s + l.length)) rest ∧
      s ≤ p ∧ p + tok.length ≤ s + l.length ∧
      ∀ q u, IsStr b q u → q + u.length ≤ s → IsStr b' q u := by
  obtain ⟨gap, x, rfl, htok, rfl⟩ := token_some ht
  have hlen : 0 < tok.length := List.length_pos_of_ne_nil htok.nonempty
  have hp := h.suffix
  have he := hp.suffix
  have hne : tok ++ x ≠ [] := by simp [htok.nonempty]
  unfold strtokR
  dsimp only
  rw [h.cstr, htok.spans.1.1, hp.cstr, if_neg hne, htok.spans.2.1, he.cstr]
  simp only [List.length_append]
  cases x with
  | nil =>
      have hmin : min (s + gap.length + tok.length + 1) (s + (gap.length + (tok.length + 0))) =
          s + gap.length + tok.length := by omega
      rw [if_pos rfl, List.length_nil]
      refine ⟨b, s + gap.length, ?_, ?_, ?_, by omega, by omega, fun q u hu _ => hu⟩
      · rw [hmin]
      · rw [List.append_nil] at hp
        exact hp
      · rw [hmin]
        exact he
  | cons d x =>
      have hmin : min (s + gap.length + tok.length + 1)
          (s + (gap.length + (tok.length + (x.length + 1)))) = s + gap.length + tok.length + 1 := by
        omega
      rw [if_neg (by simp), List.length_cons]
      refine ⟨_, s + gap.length, ?_, hp.cut.1, ?_, by omega, by omega,
        fun q u hu hq => hu.set (by omega)⟩
      · rw [hmin]
      · rw [hmin]
        exact hp.cut.2

end Csapp
