import Mathlib
import Csapp.Lib.CString

/-!
# `parseline`

The command line is copied into a static buffer, its last byte becomes a space,
and the loop puts a zero behind each argument and a pointer to it into `argv`.
Every store is logged, because C checks none of them: not the one at
`strlen(buf) - 1`, and not the ones into `argv`, whose number only the text of
the line decides.

On the strings themselves the loop is `words`. An argument that starts with a
quote ends at the next quote, any other one at the next space; where there is
none, the loop ends.
-/

namespace Csapp.Shell

/-- `MAXLINE` -/
def maxLine : Nat := 1024

/-- `MAXARGS` -/
def maxArgs : Nat := 128

/-- The stores of `parseline`. -/
inductive Store
  /-- `array[i]` -/
  | array (i : Int)
  /-- `argv[i]`, with a pointer into `array` or `NULL` -/
  | argv (i : Nat) (ptr : Option Nat)
  deriving DecidableEq

/-- The arrays of `parseline`, and what has been stored. -/
structure Parser where
  array : CStr
  argv : Nat → Option Nat
  argc : Nat
  stores : List Store

/-- `argv[argc] = ptr` -/
def Parser.setArgv (s : Parser) (argc : Nat) (ptr : Option Nat) : Parser :=
  { s with argv := Function.update s.argv argc ptr, stores := s.stores ++ [.argv argc ptr] }

/-- The string that `argv[i]` points to. -/
def Parser.arg (s : Parser) (i : Nat) : Option CStr := (s.argv i).map (cstr s.array)

/-- `strcpy(buf, cmdline)`, and the space for the last byte. -/
def copyLine (array : CStr) (argv : Nat → Option Nat) (cmdline : CStr) : Parser :=
  let n := cmdline.length
  let copy := cmdline ++ 0 :: array.drop (n + 1)
  { array := if n = 0 then copy else copy.set (n - 1) 32
    argv := argv
    argc := 0
    stores := (List.range (n + 1)).map (fun i => .array i) ++ [.array (n - 1)] }

/-- The loop that passes spaces. -/
def skipSpaces (b : CStr) (buf : Nat) : Nat := buf + ((cstr b buf).takeWhile (· = 32)).length

/-- `buf` and `delim` for the next argument. -/
def findDelim (b : CStr) (buf : Nat) : Nat × Option Nat :=
  if (cstr b buf).head? = some 39 then (buf + 1, strchr b (buf + 1) 39)
  else (buf, strchr b buf 32)

/-- The loop over the arguments. -/
def buildArgv : Nat → Parser → Nat → Option Nat → Option Parser
  | 0, _, _, _ => none
  | _ + 1, s, _, none => some s
  | fuel + 1, s, buf, some delim =>
    let s := { s.setArgv s.argc (some buf) with argc := s.argc + 1 }
    let s := { s with array := s.array.set delim 0, stores := s.stores ++ [.array delim] }
    let next := findDelim s.array (skipSpaces s.array (delim + 1))
    buildArgv fuel s next.1 next.2

/-- The end of `parseline`: whether the job is to run in the background. -/
def chopBg (s : Parser) : Parser × Bool :=
  let s := s.setArgv s.argc none
  if s.argc = 0 then (s, true)
  else if (s.arg (s.argc - 1)).bind List.head? = some 38 then
    ({ s.setArgv (s.argc - 1) none with argc := s.argc - 1 }, true)
  else (s, false)

/-- `parseline`, on the old contents of `array` and `argv`. -/
def parseline (array : CStr) (argv : Nat → Option Nat) (cmdline : CStr) :
    Option (Parser × Bool) :=
  let s := copyLine array argv cmdline
  let first := findDelim s.array (skipSpaces s.array 0)
  (buildArgv (cmdline.length + 1) s first.1 first.2).map chopBg

/-! ## On strings -/

/-- The first argument of a string, and the string behind it. -/
def word (l : CStr) : Option (CStr × CStr) :=
  match l.dropWhile (· = 32) with
  | 39 :: l => cutAt 39 l
  | l => cutAt 32 l

/-- Spaces, then an argument in quotes, or one that a space ends. -/
theorem word_some {l w rest : CStr} (h : word l = some (w, rest)) :
    ∃ gap quote d, l = gap ++ (quote ++ (w ++ d :: rest)) ∧ (∀ c ∈ gap, c = 32) ∧ d ∉ w ∧
      (quote = [39] ∧ d = 39 ∨
        quote = [] ∧ d = 32 ∧ ∀ c, (w ++ d :: rest).head? = some c → c ≠ 32 ∧ c ≠ 39) := by
  have hgap : ∀ c ∈ l.takeWhile (· = 32), c = 32 :=
    fun c hc => by simpa using List.mem_takeWhile_imp hc
  have hl : l = l.takeWhile (· = 32) ++ l.dropWhile (· = 32) :=
    List.takeWhile_append_dropWhile.symm
  unfold word at h
  split at h
  next l' he =>
    obtain ⟨rfl, hd⟩ := cutAt_some h
    exact ⟨_, [39], 39, by rw [he] at hl; exact hl, hgap, hd, .inl ⟨rfl, rfl⟩⟩
  next hne =>
    obtain ⟨he, hd⟩ := cutAt_some h
    refine ⟨_, [], 32, by rw [he] at hl; exact hl, hgap, hd, .inr ⟨rfl, rfl, fun c hc => ?_⟩⟩
    rw [← he] at hc
    refine ⟨by simpa using head?_dropWhile hc, fun h39 => ?_⟩
    obtain ⟨l', hl'⟩ := List.head?_eq_some_iff.mp hc
    exact hne l' (h39 ▸ hl')

theorem word_length {l w rest : CStr} (h : word l = some (w, rest)) :
    rest.length < l.length := by
  obtain ⟨gap, quote, d, rfl, -⟩ := word_some h
  simp only [List.length_append, List.length_cons]
  omega

/-- The words of a line. -/
def words (l : CStr) : List CStr :=
  match _h : word l with
  | none => []
  | some (w, rest) => w :: words rest
termination_by l.length
decreasing_by exact word_length _h

/-- The line as the loop reads it. -/
def lineText (cmdline : CStr) : CStr := if cmdline = [] then [] else cmdline.dropLast ++ [32]

/-- The last argument starts with `&`, or there is none. -/
def background (ws : List CStr) : Bool :=
  match ws.getLast? with
  | none => true
  | some w => w.head? = some 38

/-- The arguments without that one. -/
def arguments (ws : List CStr) : List CStr := if background ws then ws.dropLast else ws

theorem background_concat (ws : List CStr) (w : CStr) :
    background (ws ++ [w]) = decide (w.head? = some 38) := by
  unfold background
  rw [List.getLast?_concat]

theorem arguments_concat (ws : List CStr) (w : CStr) :
    arguments (ws ++ [w]) = if w.head? = some 38 then ws else ws ++ [w] := by
  unfold arguments
  rw [background_concat, List.dropLast_concat]
  simp only [decide_eq_true_eq]

/-! ## The loop finds the words -/

theorem skipSpaces_eq {b gap l : CStr} {buf : Nat} (h : IsStr b buf (gap ++ l))
    (hgap : ∀ c ∈ gap, c = 32) (hl : ∀ c, l.head? = some c → c ≠ 32) :
    skipSpaces b buf = buf + gap.length := by
  unfold skipSpaces
  rw [h.cstr, (span_eq (fun c hc => decide_eq_true (hgap c hc))
    fun c hc => decide_eq_false (hl c hc)).1]

theorem findDelim_quote {b l : CStr} {buf : Nat} (h : IsStr b buf (39 :: l)) :
    findDelim b buf = (buf + 1, strchr b (buf + 1) 39) := by
  unfold findDelim
  rw [h.cstr]
  exact if_pos rfl

theorem findDelim_plain {b l : CStr} {buf : Nat} (h : IsStr b buf l)
    (hq : l.head? ≠ some 39) : findDelim b buf = (buf, strchr b buf 32) := by
  unfold findDelim
  rw [h.cstr]
  exact if_neg hq

theorem next_some {b l w rest : CStr} {buf : Nat} (h : IsStr b buf l)
    (hw : word l = some (w, rest)) :
    ∃ p d, findDelim b (skipSpaces b buf) = (p, some (p + w.length)) ∧
      IsStr b p (w ++ d :: rest) ∧ buf ≤ p ∧ p + w.length + 1 + rest.length = buf + l.length := by
  obtain ⟨gap, quote, d, rfl, hgap, hd, hq⟩ := word_some hw
  have hs := h.suffix
  rcases hq with ⟨rfl, rfl⟩ | ⟨rfl, rfl, hne⟩
  · have hw : IsStr b (buf + gap.length + 1) (w ++ 39 :: rest) := hs.suffix (s := [39])
    rw [skipSpaces_eq h hgap fun c hc => by cases hc; decide, findDelim_quote hs, hw.strchr hd]
    refine ⟨_, 39, rfl, hw, by omega, ?_⟩
    simp only [List.length_append, List.length_cons, List.length_nil]
    omega
  · rw [skipSpaces_eq h hgap fun c hc => (hne c hc).1,
      findDelim_plain hs fun hq => (hne 39 hq).2 rfl]
    rw [List.nil_append] at hs
    rw [hs.strchr hd]
    refine ⟨_, 32, rfl, hs, by omega, ?_⟩
    simp only [List.length_append, List.length_cons, List.length_nil]
    omega

theorem next_none {b l : CStr} {buf : Nat} (h : IsStr b buf l) (hw : word l = none) :
    (findDelim b (skipSpaces b buf)).2 = none := by
  obtain ⟨gap, l', rfl, hgap, hne, hd⟩ : ∃ gap l', l = gap ++ l' ∧ (∀ c ∈ gap, c = 32) ∧
      (∀ c, l'.head? = some c → c ≠ 32) ∧ l.dropWhile (· = 32) = l' :=
    ⟨_, _, List.takeWhile_append_dropWhile.symm,
      fun c hc => by simpa using List.mem_takeWhile_imp hc,
      fun c hc => by simpa using head?_dropWhile hc, rfl⟩
  have hs := h.suffix
  rw [skipSpaces_eq h hgap hne]
  unfold word at hw
  rw [hd] at hw
  split at hw
  next l =>
    have hs' : IsStr b (buf + gap.length + 1) l := hs.suffix (s := [39])
    rw [findDelim_quote hs]
    exact hs'.strchr_none (cutAt_none hw)
  next hq =>
    rw [findDelim_plain hs fun h39 => by
      obtain ⟨l, rfl⟩ := List.head?_eq_some_iff.mp h39
      exact hq l rfl]
    exact hs.strchr_none (cutAt_none hw)

/-! ## The loop -/

/-- The arguments stored so far; all of them end before `buf`. -/
structure Args (s : Parser) (ws : List CStr) (buf : Nat) : Prop where
  argc : s.argc = ws.length
  arg : ∀ i w, ws[i]? = some w →
    ∃ p, s.argv i = some p ∧ IsStr s.array p w ∧ p + w.length < buf

/-- A store inside the copy of a line of `n` bytes, or one of `argc` pointers or the
`NULL` behind them. -/
def Store.Within (n argc : Nat) : Store → Prop
  | .array i => 0 ≤ i ∧ i ≤ n
  | .argv i (some _) => i < argc
  | .argv i none => i ≤ argc

theorem Store.Within.mono {n argc argc' : Nat} {x : Store} (h : x.Within n argc)
    (hle : argc ≤ argc') : x.Within n argc' := by
  cases x with
  | array i => exact h
  | argv i ptr =>
    cases ptr with
    | none => exact Nat.le_trans h hle
    | some p => exact Nat.lt_of_lt_of_le h hle

theorem words_some {l w rest : CStr} (h : word l = some (w, rest)) :
    words l = w :: words rest := by
  rw [words]
  split
  next he => rw [he] at h; cases h
  next he =>
    rw [h] at he
    obtain ⟨rfl, rfl⟩ := Prod.mk.inj (Option.some.inj he)
    rfl

theorem words_none {l : CStr} (h : word l = none) : words l = [] := by
  rw [words]
  split
  next => rfl
  next he => rw [he] at h; cases h

/-- One turn: the argument is cut off, and the earlier ones stay. -/
theorem Args.store {s : Parser} {ws : List CStr} {w rest : CStr} {buf p : Nat} {d : UInt8}
    (ha : Args s ws buf) (hp : IsStr s.array p (w ++ d :: rest)) (hle : buf ≤ p) :
    Args { (s.setArgv s.argc (some p)) with
        argc := s.argc + 1
        array := s.array.set (p + w.length) 0
        stores := (s.setArgv s.argc (some p)).stores ++ [.array ↑(p + w.length)] }
      (ws ++ [w]) (p + w.length + 1) where
  argc := by
    rw [List.length_append, ← ha.argc]
    rfl
  arg := by
    intro i v hv
    rcases Nat.lt_trichotomy i ws.length with hi | hi | hi
    · rw [List.getElem?_append_left hi] at hv
      obtain ⟨q, hq, hstr, hlt⟩ := ha.arg i v hv
      refine ⟨q, ?_, hstr.set (.inr (by omega)), by omega⟩
      exact (Function.update_of_ne (by rw [ha.argc]; omega) _ _).trans hq
    · rw [List.getElem?_append_right (by omega), hi, Nat.sub_self] at hv
      cases hv
      refine ⟨p, ?_, hp.cut.1, by omega⟩
      rw [hi, ← ha.argc]
      exact Function.update_self _ _ _
    · rw [List.getElem?_eq_none (by simp; omega)] at hv
      cases hv

theorem buildArgv_words {n fuel : Nat} {s : Parser} {buf : Nat} {l : CStr} {ws : List CStr}
    (hl : IsStr s.array buf l) (hf : l.length < fuel) (ha : Args s ws buf)
    (hn : buf + l.length ≤ n) :
    ∃ s' buf', buildArgv fuel s (findDelim s.array (skipSpaces s.array buf)).1
        (findDelim s.array (skipSpaces s.array buf)).2 = some s' ∧
      Args s' (ws ++ words l) buf' ∧ ∀ x ∈ s'.stores, x ∈ s.stores ∨ x.Within n s'.argc := by
  induction fuel generalizing s buf l ws with
  | zero => omega
  | succ fuel ih =>
    cases hw : word l with
    | none =>
      rw [next_none hl hw, words_none hw, List.append_nil]
      exact ⟨s, buf, rfl, ha, fun x hx => .inl hx⟩
    | some r =>
      obtain ⟨w, rest⟩ := r
      obtain ⟨p, d, hnext, hp, hle, hlen⟩ := next_some hl hw
      have ha' := ha.store hp hle
      obtain ⟨s', buf', hrun, hs', hstores⟩ := ih hp.cut.2 (by omega) ha' (by omega)
      rw [hnext, words_some hw]
      refine ⟨s', buf', hrun, ?_, ?_⟩
      · rw [List.append_assoc] at hs'
        exact hs'
      · have hargc := hs'.argc
        rw [List.length_append, List.length_append, ← ha.argc] at hargc
        intro x hx
        rcases hstores x hx with hx | hx
        · rcases List.mem_append.mp hx with hx | hx
          · rcases List.mem_append.mp hx with hx | hx
            · exact .inl hx
            · right
              rw [List.mem_singleton.mp hx]
              simp only [Store.Within, List.length_singleton] at hargc ⊢
              omega
          · right
            rw [List.mem_singleton.mp hx]
            simp only [Store.Within]
            omega
        · exact .inr hx

/-! ## The line before and after the loop -/

theorem isStr_copyLine (array : CStr) (argv : Nat → Option Nat) {cmdline : CStr}
    (h0 : 0 ∉ cmdline) :
    IsStr (copyLine array argv cmdline).array 0 (lineText cmdline) := by
  unfold copyLine lineText
  dsimp only
  rcases List.eq_nil_or_concat cmdline with rfl | ⟨l, c, rfl⟩
  · exact ⟨_, rfl, List.not_mem_nil, fun c hc => (Option.some.inj hc).symm⟩
  · have hl : 0 ∉ l := fun hm => h0 (by simp [hm])
    refine ⟨0 :: array.drop ((l ++ [c]).length + 1), ?_, by simp [hl], fun c hc => ?_⟩
    · simp
    · exact (Option.some.inj hc).symm

theorem copyLine_stores {array cmdline : CStr} {argv : Nat → Option Nat} {argc : Nat} :
    ∀ x ∈ (copyLine array argv cmdline).stores,
      x.Within cmdline.length argc ∨ cmdline = [] ∧ x = .array (-1) := by
  intro x hx
  rcases List.mem_append.mp hx with hx | hx
  · obtain ⟨i, hi, rfl⟩ := List.mem_map.mp hx
    have hi := List.mem_range.mp hi
    left
    simp only [Store.Within]
    omega
  · rw [List.mem_singleton.mp hx]
    by_cases he : cmdline = []
    · right
      rw [he]
      exact ⟨rfl, rfl⟩
    · have hlen := List.length_pos_of_ne_nil he
      left
      simp only [Store.Within]
      omega

/-- `argv` holds the strings, and then `NULL`. -/
def Parser.Holds (s : Parser) (ws : List CStr) : Prop := ∀ i ≤ ws.length, s.arg i = ws[i]?

theorem Args.holds {s : Parser} {ws : List CStr} {buf : Nat} (ha : Args s ws buf) :
    (s.setArgv ws.length none).Holds ws := by
  intro i hi
  unfold Parser.arg Parser.setArgv
  dsimp only
  by_cases he : i = ws.length
  · rw [he, Function.update_self, List.getElem?_eq_none (Nat.le_refl _)]
    rfl
  · obtain ⟨p, hp, hstr, -⟩ := ha.arg i _ (List.getElem?_eq_getElem (by omega))
    rw [Function.update_of_ne he, hp, List.getElem?_eq_getElem (by omega)]
    exact congrArg some hstr.cstr

theorem Parser.Holds.chop {s : Parser} {ws : List CStr} {w : CStr} (h : s.Holds (ws ++ [w])) :
    (s.setArgv ws.length none).Holds ws := by
  intro i hi
  unfold Parser.arg Parser.setArgv
  dsimp only
  by_cases he : i = ws.length
  · rw [he, Function.update_self, List.getElem?_eq_none (Nat.le_refl _)]
    rfl
  · have hi := h i (by rw [List.length_append]; omega)
    rw [List.getElem?_append_left (by omega)] at hi
    rw [Function.update_of_ne he]
    exact hi

theorem chopBg_words {s : Parser} {ws : List CStr} {buf : Nat} (ha : Args s ws buf) :
    ∃ s', chopBg s = (s', background ws) ∧ s'.Holds (arguments ws) ∧
      Store.argv ws.length none ∈ s'.stores ∧
      ∀ x ∈ s'.stores, x ∈ s.stores ∨ ∃ i ≤ ws.length, x = .argv i none := by
  have hh := ha.holds
  have hlog : Store.argv ws.length none ∈ (s.setArgv ws.length none).stores :=
    List.mem_append_right _ (List.mem_singleton_self _)
  have hall : ∀ x ∈ (s.setArgv ws.length none).stores,
      x ∈ s.stores ∨ ∃ i ≤ ws.length, x = .argv i none := by
    intro x hx
    rcases List.mem_append.mp hx with hx | hx
    · exact .inl hx
    · exact .inr ⟨_, Nat.le_refl _, List.mem_singleton.mp hx⟩
  unfold chopBg
  rw [show s.argc = ws.length from ha.argc]
  have hargc : (s.setArgv ws.length none).argc = ws.length := ha.argc
  dsimp only
  rw [hargc]
  rcases List.eq_nil_or_concat' ws with rfl | ⟨ws, w, rfl⟩
  · exact ⟨_, rfl, hh, hlog, hall⟩
  · have hlen : (ws ++ [w]).length - 1 = ws.length := by simp
    have hlast : (s.setArgv (ws ++ [w]).length none).arg ws.length = some w := by
      rw [hh ws.length (by simp)]
      simp
    rw [hlen, if_neg (by simp), hlast, background_concat, arguments_concat]
    by_cases hw : w.head? = some 38
    · rw [Option.bind_some, if_pos hw, if_pos hw]
      refine ⟨_, Prod.ext rfl (decide_eq_true hw).symm, hh.chop, List.mem_append_left _ hlog,
        fun x hx => ?_⟩
      rcases List.mem_append.mp hx with hx | hx
      · exact hall x hx
      · exact .inr ⟨ws.length, by simp, List.mem_singleton.mp hx⟩
    · rw [Option.bind_some, if_neg hw, if_neg hw]
      exact ⟨_, Prod.ext rfl (decide_eq_false hw).symm, hh, hlog, hall⟩

/-- What `parseline` does with any line: the words of its text, without a last one
that starts with `&`. -/
theorem parseline_words (array : CStr) (argv : Nat → Option Nat) {cmdline : CStr}
    (h0 : 0 ∉ cmdline) :
    ∃ s, parseline array argv cmdline = some (s, background (words (lineText cmdline))) ∧
      s.Holds (arguments (words (lineText cmdline))) ∧
      Store.argv (words (lineText cmdline)).length none ∈ s.stores ∧
      ∀ x ∈ s.stores, x.Within cmdline.length (words (lineText cmdline)).length ∨
        cmdline = [] ∧ x = .array (-1) := by
  have hl := isStr_copyLine array argv h0
  have hlen : (lineText cmdline).length = cmdline.length := by
    unfold lineText
    split
    next he => rw [he]
    next hne =>
      have := List.length_pos_of_ne_nil hne
      simp
      omega
  have hfuel : (lineText cmdline).length < cmdline.length + 1 := by omega
  have ha : Args (copyLine array argv cmdline) [] 0 := ⟨rfl, fun i w hw => by simp at hw⟩
  obtain ⟨s, buf, hrun, hs, hstores⟩ :=
    buildArgv_words (n := cmdline.length) hl hfuel ha (by omega)
  obtain ⟨s', hchop, hholds, hlog, hchopped⟩ := chopBg_words hs
  rw [List.nil_append] at hs hchop hholds hlog hchopped
  refine ⟨s', ?_, hholds, hlog, fun x hx => ?_⟩
  · unfold parseline
    dsimp only
    rw [hrun, Option.map_some, hchop]
  · rcases hchopped x hx with hx | ⟨i, hi, rfl⟩
    · rcases hstores x hx with hx | hx
      · exact copyLine_stores x hx
      · exact .inl (hs.argc ▸ hx)
    · exact .inl hi

/-- On an empty line the space goes to `array[-1]`. -/
theorem parseline_nil (array : CStr) (argv : Nat → Option Nat) :
    ∃ s, parseline array argv [] = some (s, true) ∧ Store.array (-1) ∈ s.stores := by
  have hl : IsStr (copyLine array argv []).array 0 (lineText []) :=
    isStr_copyLine array argv List.not_mem_nil
  have hnone := next_none hl rfl
  unfold parseline
  dsimp only
  rw [hnone]
  exact ⟨(copyLine array argv []).setArgv 0 none, rfl,
    List.mem_append_left _ (List.mem_append_right _ (List.mem_singleton_self _))⟩

/-! ## Inside `argv` and the copy -/

instance (n argc : Nat) : DecidablePred (Store.Within n argc)
  | .array _ => inferInstanceAs (Decidable (_ ∧ _))
  | .argv _ (some _) => inferInstanceAs (Decidable (_ < _))
  | .argv _ none => inferInstanceAs (Decidable (_ ≤ _))

/-- A line that `fgets` can deliver, up to its first zero. -/
structure Delivered (cmdline : CStr) : Prop where
  string : 0 ∉ cmdline
  short : cmdline.length < maxLine

/-- The copy fits, and what is stored lies in it or in `argv`: at most `MAXARGS`
pointers and a `NULL`. -/
structure Contained (cmdline : CStr) (s : Parser) : Prop where
  copy : cmdline.length < maxLine
  within : ∀ x ∈ s.stores, x.Within cmdline.length maxArgs

instance (cmdline : CStr) (s : Parser) : Decidable (Contained cmdline s) :=
  decidable_of_iff (cmdline.length < maxLine ∧ ∀ x ∈ s.stores, x.Within cmdline.length maxArgs)
    ⟨fun h => ⟨h.1, h.2⟩, fun h => ⟨h.copy, h.within⟩⟩

theorem contained_iff {array cmdline : CStr} {argv : Nat → Option Nat} {s : Parser} {bg : Bool}
    (h : Delivered cmdline) (hs : parseline array argv cmdline = some (s, bg)) :
    Contained cmdline s ↔ cmdline ≠ [] ∧ (words (lineText cmdline)).length ≤ maxArgs := by
  obtain ⟨s', hs', -, hnull, hstores⟩ := parseline_words array argv h.string
  obtain ⟨rfl, -⟩ := Prod.mk.inj (Option.some.inj (hs'.symm.trans hs))
  constructor
  · intro hc
    refine ⟨fun he => ?_, hc.within _ hnull⟩
    obtain ⟨s₀, hs₀, hneg⟩ := parseline_nil array argv
    rw [he, hs₀] at hs
    obtain ⟨rfl, -⟩ := Prod.mk.inj (Option.some.inj hs)
    exact absurd (hc.within _ hneg).1 (by decide)
  · intro hc
    refine ⟨h.short, fun x hx => ?_⟩
    rcases hstores x hx with hx | hx
    · exact hx.mono hc.2
    · exact absurd hx.1 hc.1

/-- `parseline` stays inside its arrays exactly if the line is not empty and has at
most `MAXARGS` words. -/
theorem parseline_contained_iff (array : CStr) (argv : Nat → Option Nat) {cmdline : CStr}
    (h : Delivered cmdline) :
    (∃ s bg, parseline array argv cmdline = some (s, bg) ∧ Contained cmdline s) ↔
      cmdline ≠ [] ∧ (words (lineText cmdline)).length ≤ maxArgs := by
  constructor
  · rintro ⟨s, bg, hs, hc⟩
    exact (contained_iff h hs).mp hc
  · intro hc
    obtain ⟨s, hs, -⟩ := parseline_words array argv h.string
    exact ⟨s, _, hs, (contained_iff h hs).mpr hc⟩

theorem parseline_contained_iff_ls :
    (∃ s bg, parseline [] (fun _ => none) (text "ls\n") = some (s, bg) ∧
        Contained (text "ls\n") s) ↔
      text "ls\n" ≠ [] ∧ (words (lineText (text "ls\n"))).length ≤ maxArgs :=
  parseline_contained_iff [] (fun _ => none) ⟨by decide, by decide⟩

/-- `n` arguments of one letter each. -/
def letters (n : Nat) : CStr := (List.replicate n [97, 32]).flatten ++ [10]

theorem lineText_letters (n : Nat) :
    lineText (letters n) = (List.replicate n [97, 32]).flatten ++ [32] := by
  unfold lineText letters
  rw [if_neg (by simp), List.dropLast_concat]

theorem letters_delivered {n : Nat} (h : 2 * n + 1 < maxLine) : Delivered (letters n) where
  string := by simp [letters]
  short := by
    unfold letters
    rw [List.length_append, List.length_flatten, List.map_replicate, List.sum_replicate]
    simp only [List.length_cons, List.length_nil, smul_eq_mul]
    omega

theorem words_letters (n : Nat) : (words (lineText (letters n))).length = n := by
  induction n with
  | zero =>
    have hw : words [32] = [] := words_none rfl
    rw [lineText_letters]
    exact congrArg List.length hw
  | succ n ih =>
    rw [lineText_letters] at ih ⊢
    have hw : word ([97, 32] ++ ((List.replicate n [97, 32]).flatten ++ [32])) =
        some ([97], (List.replicate n [97, 32]).flatten ++ [32]) :=
      cutAt_append (s := [97]) (by decide)
    rw [List.replicate_succ, List.flatten_cons, List.append_assoc, words_some hw,
      List.length_cons, ih]

theorem parseline_not_contained :
    ¬ ∀ array argv cmdline, Delivered cmdline →
      ∃ s bg, parseline array argv cmdline = some (s, bg) ∧ Contained cmdline s := by
  intro h
  have hd : Delivered (letters 129) := letters_delivered (by decide)
  obtain ⟨s, hs, -, hnull, -⟩ := parseline_words [] (fun _ => none) hd.string
  obtain ⟨s', bg, hs', hc⟩ := h [] (fun _ => none) _ hd
  obtain ⟨rfl, -⟩ := Prod.mk.inj (Option.some.inj (hs.symm.trans hs'))
  rw [words_letters] at hnull
  have hle : 129 ≤ maxArgs := hc.within _ hnull
  exact absurd hle (by decide)

/-! ## Lines spelt from arguments -/

/-- What an argument may consist of: no end of string, newline or quote. -/
def Clean (arg : CStr) : Prop := ∀ c ∈ arg, c ≠ 0 ∧ c ≠ 10 ∧ c ≠ 39

/-- An argument as it is written: in quotes if it is empty or has a space in it. -/
def quote (arg : CStr) : CStr := if arg = [] ∨ 32 ∈ arg then 39 :: (arg ++ [39]) else arg

/-- The arguments, written one behind the other with spaces between them. -/
inductive Spells : List CStr → CStr → Prop
  | last (arg : CStr) (trail : Nat) : Spells [arg] (quote arg ++ List.replicate trail 32)
  | cons (arg : CStr) {n : Nat} {args : List CStr} {line : CStr} (hn : 0 < n)
      (h : Spells args line) :
      Spells (arg :: args) (quote arg ++ (List.replicate n 32 ++ line))

theorem words_space (l : CStr) : words (32 :: l) = words l := by
  have hw : word (32 :: l) = word l := rfl
  cases h : word l with
  | none => rw [words_none h, words_none (hw.trans h)]
  | some r => rw [words_some h, words_some (hw.trans h)]

theorem words_spaces (n : Nat) (l : CStr) : words (List.replicate n 32 ++ l) = words l := by
  induction n with
  | zero => rfl
  | succ n ih => exact (words_space _).trans ih

/-- A written argument is a word, whatever comes behind the space. -/
theorem words_quote {arg : CStr} (h : Clean arg) (l : CStr) :
    words (quote arg ++ 32 :: l) = arg :: words l := by
  unfold quote
  split
  next =>
    have hw : word (39 :: (arg ++ [39]) ++ 32 :: l) = some (arg, 32 :: l) := by
      rw [List.cons_append, List.append_assoc]
      exact cutAt_append fun hm => (h 39 hm).2.2 rfl
    rw [words_some hw, words_space]
  next hq =>
    obtain ⟨hne, hsp⟩ := not_or.mp hq
    obtain ⟨c, t, rfl⟩ := List.exists_cons_of_ne_nil hne
    have hc : c ≠ 32 := fun he => hsp (he ▸ List.mem_cons_self)
    have hdrop : (c :: t ++ 32 :: l).dropWhile (· = 32) = c :: t ++ 32 :: l :=
      List.dropWhile_cons_of_neg (by simpa using hc)
    have hw : word (c :: t ++ 32 :: l) = some (c :: t, l) := by
      unfold word
      rw [hdrop]
      split
      next he =>
        exact absurd (List.cons.inj he).1 (h c List.mem_cons_self).2.2
      next => exact cutAt_append hsp
    rw [words_some hw]

theorem Spells.words {args : List CStr} {line : CStr} (h : Spells args line)
    (hclean : ∀ arg ∈ args, Clean arg) : words (line ++ [32]) = args := by
  induction h with
  | last arg trail =>
    have hw : Shell.words [] = [] := words_none rfl
    rw [List.append_assoc, ← List.replicate_succ', List.replicate_succ,
      words_quote (hclean arg List.mem_cons_self), ← List.append_nil (List.replicate trail _),
      words_spaces, hw]
  | @cons arg n args line hn _ ih =>
    obtain ⟨m, rfl⟩ : ∃ m, n = m + 1 := ⟨n - 1, by omega⟩
    rw [List.replicate_succ, List.append_assoc, List.cons_append, List.cons_append,
      List.append_assoc, words_quote (hclean arg List.mem_cons_self), words_spaces,
      ih fun a ha => hclean a (List.mem_cons_of_mem _ ha)]

theorem Spells.lineText {args : List CStr} {line : CStr} (lead : Nat) (h : Spells args line)
    (hclean : ∀ arg ∈ args, Clean arg) :
    Shell.words (lineText (List.replicate lead 32 ++ (line ++ [10]))) = args := by
  rw [Shell.lineText, if_neg (by simp), ← List.append_assoc, List.dropLast_concat,
    List.append_assoc, words_spaces, h.words hclean]

theorem quote_string {arg : CStr} (h : Clean arg) : 0 ∉ quote arg := by
  have h0 : 0 ∉ arg := fun hm => (h 0 hm).1 rfl
  unfold quote
  split
  next => simp [h0]
  next => exact h0

theorem Spells.string {args : List CStr} {line : CStr} (h : Spells args line)
    (hclean : ∀ arg ∈ args, Clean arg) : 0 ∉ line := by
  induction h with
  | last arg trail => simp [quote_string (hclean arg List.mem_cons_self)]
  | cons arg _ _ ih =>
    simp [quote_string (hclean arg List.mem_cons_self),
      ih fun a ha => hclean a (List.mem_cons_of_mem _ ha)]

/-- A spelt line with its newline, behind any number of spaces. -/
theorem Spells.parseline (array : CStr) (argv : Nat → Option Nat) {args : List CStr}
    {line : CStr} (lead : Nat) (h : Spells args line) (hclean : ∀ arg ∈ args, Clean arg)
    (hargs : args.length ≤ maxArgs)
    (hshort : (List.replicate lead 32 ++ (line ++ [10])).length < maxLine) :
    ∃ s, parseline array argv (List.replicate lead 32 ++ (line ++ [10])) =
        some (s, background args) ∧ s.Holds (arguments args) ∧
      Contained (List.replicate lead 32 ++ (line ++ [10])) s := by
  have hword := h.lineText lead hclean
  have h0 : 0 ∉ List.replicate lead 32 ++ (line ++ [10]) := by simp [h.string hclean]
  obtain ⟨s, hs, hholds, -, hstores⟩ := parseline_words array argv h0
  rw [hword] at hs hholds hstores
  refine ⟨s, hs, hholds, hshort, fun x hx => ?_⟩
  rcases hstores x hx with hx | hx
  · exact hx.mono hargs
  · exact absurd hx.1 (by simp)

/-- `parseline` gives the arguments back that the line is spelt from, and takes a
last `&` for the background. -/
theorem parseline_spells (array : CStr) (argv : Nat → Option Nat) {args : List CStr}
    {line : CStr} (lead : Nat) (hne : args ≠ []) (hargs : args.length < maxArgs)
    (hclean : ∀ arg ∈ args, Clean arg)
    (hshort : (List.replicate lead 32 ++ (line ++ [10])).length < maxLine) :
    (Spells args line → (args.getLast hne).head? ≠ some 38 →
      ∃ s, parseline array argv (List.replicate lead 32 ++ (line ++ [10])) = some (s, false) ∧
        s.Holds args ∧ Contained (List.replicate lead 32 ++ (line ++ [10])) s) ∧
    (Spells (args ++ [[38]]) line →
      ∃ s, parseline array argv (List.replicate lead 32 ++ (line ++ [10])) = some (s, true) ∧
        s.Holds args ∧ Contained (List.replicate lead 32 ++ (line ++ [10])) s) := by
  constructor
  · intro h hlast
    have hp := h.parseline array argv lead hclean (Nat.le_of_lt hargs) hshort
    rw [← List.dropLast_concat_getLast hne, background_concat, arguments_concat,
      if_neg hlast, decide_eq_false hlast, List.dropLast_concat_getLast hne] at hp
    exact hp
  · intro h
    have hamp : Clean [38] := fun c hc => by
      rw [List.mem_singleton.mp hc]
      decide
    have hp := h.parseline array argv lead
      (fun arg ha => (List.mem_append.mp ha).elim (hclean arg)
        fun ha => List.mem_singleton.mp ha ▸ hamp)
      (by rw [List.length_append]; exact hargs) hshort
    rw [background_concat, arguments_concat] at hp
    exact hp

theorem parseline_spells_echo :
    (∃ s, parseline [] (fun _ => none) (text " echo ''\n") = some (s, false) ∧
      s.Holds [text "echo", []] ∧ Contained (text " echo ''\n") s) ∧
    ∃ s, parseline [] (fun _ => none) (text " echo '' &\n") = some (s, true) ∧
      s.Holds [text "echo", []] ∧ Contained (text " echo '' &\n") s := by
  have hclean : ∀ arg ∈ [text "echo", []], Clean arg := by
    intro arg ha
    rcases List.mem_pair.mp ha with rfl | rfl
    · simp [Clean, text]
    · exact fun c hc => absurd hc List.not_mem_nil
  have hplain : Spells [text "echo", []] (text "echo ''") :=
    .cons (text "echo") (n := 1) (by decide) (.last [] 0)
  have hamp : Spells ([text "echo", []] ++ [[38]]) (text "echo '' &") :=
    .cons (text "echo") (n := 1) (by decide) (.cons [] (n := 1) (by decide) (.last [38] 0))
  have hline : text " echo ''\n" = List.replicate 1 32 ++ (text "echo ''" ++ [10]) := by decide
  have hline' : text " echo '' &\n" = List.replicate 1 32 ++ (text "echo '' &" ++ [10]) := by
    decide
  have hne : [text "echo", []] ≠ [] := List.cons_ne_nil _ _
  rw [hline, hline']
  exact ⟨(parseline_spells [] (fun _ => none) 1 hne (by decide) hclean (by decide)).1 hplain
      (Option.some_ne_none 38).symm,
    (parseline_spells [] (fun _ => none) 1 hne (by decide) hclean (by decide)).2 hamp⟩

end Csapp.Shell
