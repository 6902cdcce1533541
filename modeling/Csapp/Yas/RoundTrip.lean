import Mathlib
import Csapp.Lib.CString
import Csapp.Yas.LoadMem

/-!
# What is listed is what is loaded

`load_mem` skips the source text behind the bar, so it reads a line of the
listing back to the address and the bytes it was printed from, in both formats
of `print_code`: the one with three digits leaves a blank behind the colon, the
one with four does not. An address has to have its digits, which an address
below zero has not, and a line has to fit the buffer of `fgets`: behind 4095
bytes the rest of a line is read as a line of its own.
-/

namespace Csapp.Yas

open Y86

/-! ## Digits -/

theorem hexDigit_read : ∀ h < 16, isXDigit (hexDigit h) = true ∧ hex2dig (hexDigit h) = h := by
  decide

theorem xdigit_not_space {c : UInt8} (h : isXDigit c = true) : isSpace c = false := by
  simp only [isXDigit, isDigit, Bool.or_eq_true, Bool.and_eq_true, decide_eq_true_eq,
    UInt8.le_iff_toNat_le, UInt8.reduceToNat] at h
  simp only [isSpace, Bool.or_eq_false_iff, decide_eq_false_iff_not, ← UInt8.toNat_inj,
    UInt8.reduceToNat, Bool.and_eq_false_iff, UInt8.le_iff_toNat_le]
  omega

/-- The four bits that `hexstuff` takes. The sign does not reach them. -/
theorem toNat_hexNibble (v : Word) {i : Nat} (hi : i < 16) :
    (v.sshiftRight (4 * i) &&& 0xF).toNat = v.toNat / 16 ^ i % 16 := by
  have h : v.sshiftRight (4 * i) &&& 0xF = v >>> (4 * i) &&& 0xF := by
    refine BitVec.eq_of_getLsbD_eq fun j hj => ?_
    rw [BitVec.getLsbD_and, BitVec.getLsbD_and, BitVec.getLsbD_sshiftRight,
      BitVec.getLsbD_ushiftRight]
    by_cases h4 : j < 4
    · rw [if_pos (by omega), decide_eq_false (by omega)]
      rfl
    · have h0 : (0xF : Word).getLsbD j = false := by
        change (BitVec.ofNat 64 15).getLsbD j = false
        rw [BitVec.getLsbD_ofNat, Nat.testBit_lt_two_pow (Nat.lt_of_lt_of_le (by decide)
          (Nat.pow_le_pow_right (by decide) (Nat.le_of_not_lt h4))), Bool.and_false]
      rw [h0, Bool.and_false, Bool.and_false]
  have hF : (0xF : Word).toNat = 2 ^ 4 - 1 := rfl
  rw [h, BitVec.toNat_and, BitVec.toNat_ushiftRight, hF, Nat.and_two_pow_sub_one_eq_mod,
    Nat.shiftRight_eq_div_pow, Nat.pow_mul]

theorem hexstuff_succ (v : Word) (d : Nat) :
    hexstuff v (d + 1) = hexDigit (v.sshiftRight (4 * d) &&& 0xF).toNat :: hexstuff v d := by
  rw [hexstuff, hexstuff, List.range_succ, List.reverse_append]
  rfl

@[simp] theorem length_hexstuff (v : Word) (d : Nat) : (hexstuff v d).length = d := by
  simp [hexstuff]

theorem nibble_lt (v : Word) (i : Nat) : (v.sshiftRight (4 * i) &&& 0xF).toNat < 16 := by
  rw [BitVec.toNat_and]
  exact Nat.lt_succ_of_le Nat.and_le_right

theorem xdigits_hexstuff (v : Word) (d : Nat) : ∀ c ∈ hexstuff v d, isXDigit c = true := by
  intro c hc
  obtain ⟨i, -, rfl⟩ := List.mem_map.mp hc
  exact (hexDigit_read _ (nibble_lt v i)).1

theorem foldl_hex (ds : CStr) (v : Nat) :
    ds.foldl (fun v c => v * 16 + hex2dig c) v = v * 16 ^ ds.length + hexVal ds := by
  induction ds generalizing v with
  | nil => simp [hexVal]
  | cons c ds ih =>
      rw [hexVal, List.foldl_cons, List.foldl_cons, ih, ih (0 * 16 + hex2dig c), List.length_cons,
        Nat.pow_succ]
      ring

/-- Digits written are read back, modulo what they hold. -/
theorem hexVal_hexstuff (v : Word) {d : Nat} (hd : d ≤ 16) :
    hexVal (hexstuff v d) = v.toNat % 16 ^ d := by
  induction d with
  | zero => simp [hexstuff, hexVal, Nat.mod_one]
  | succ d ih =>
      rw [hexstuff_succ, hexVal, List.foldl_cons, foldl_hex, length_hexstuff, ih (by omega),
        (hexDigit_read _ (nibble_lt v d)).2, toNat_hexNibble v (by omega), Nat.pow_succ,
        Nat.mod_mul]
      ring

/-! ## A line of the listing -/

/-- The digits of the code. -/
def hexBytes (code : List Byte) : CStr := code.flatMap fun b => hexstuff (b.setWidth 64) 2

@[simp] theorem hexBytes_cons (b : Byte) (code : List Byte) :
    hexBytes (b :: code) = hexstuff (b.setWidth 64) 2 ++ hexBytes code := rfl

@[simp] theorem length_hexBytes (code : List Byte) : (hexBytes code).length = 2 * code.length := by
  induction code with
  | nil => rfl
  | cons b code ih =>
      rw [hexBytes_cons, List.length_append, length_hexstuff, ih, List.length_cons]
      ring

theorem length_overlay {s t : CStr} {pos : Nat} (h : pos + t.length ≤ s.length) :
    (overlay s pos t).length = s.length := by
  simp only [overlay, List.length_append, List.length_take, List.length_drop]
  omega

theorem take_overlay {s t : CStr} {pos : Nat} (h : pos ≤ s.length) :
    (overlay s pos t).take (pos + t.length) = s.take pos ++ t := by
  have hl : (s.take pos ++ t).length = pos + t.length := by
    rw [List.length_append, List.length_take, Nat.min_eq_left h]
  rw [overlay, ← hl, List.take_left]

theorem drop_overlay {s t : CStr} {pos k : Nat} (h : pos ≤ s.length) (hk : pos + t.length ≤ k) :
    (overlay s pos t).drop k = s.drop k := by
  have hl : (s.take pos ++ t).length = pos + t.length := by
    rw [List.length_append, List.length_take, Nat.min_eq_left h]
  rw [overlay, List.drop_append, List.drop_eq_nil_of_le (by omega), List.nil_append, hl,
    List.drop_drop, Nat.add_sub_cancel' hk]

/-- The loop of `print_code` over the bytes, from the `k`-th on. -/
theorem foldl_overlay (code : List Byte) (k : Nat) (s : CStr)
    (h : 7 + 2 * (k + code.length) ≤ s.length) :
    (code.zipIdx k).foldl (fun s b => overlay s (7 + 2 * b.2) (hexstuff (b.1.setWidth 64) 2)) s =
      s.take (7 + 2 * k) ++ hexBytes code ++ s.drop (7 + 2 * (k + code.length)) := by
  induction code generalizing k s with
  | nil => simp [hexBytes]
  | cons b code ih =>
      rw [List.length_cons] at h
      have hpos : 7 + 2 * k ≤ s.length := by omega
      have hlen := length_overlay
        (show 7 + 2 * k + (hexstuff (b.setWidth 64) 2).length ≤ s.length by
          rw [length_hexstuff]; omega)
      have htake := take_overlay (t := hexstuff (b.setWidth 64) 2) hpos
      rw [length_hexstuff] at htake
      rw [List.zipIdx_cons, List.foldl_cons, ih _ _ (by rw [hlen]; omega), hexBytes_cons,
        show 7 + 2 * (k + 1) = 7 + 2 * k + 2 by ring, htake,
        drop_overlay hpos (by rw [length_hexstuff]; omega), List.length_cons,
        show k + 1 + code.length = k + (code.length + 1) by ring]
      simp only [List.append_assoc]

/-- The address, what stands between it and the code, the code and the rest. -/
theorem codeField_eq {outstring : CStr} {pos : Int} {digits : Nat} {code : List Byte}
    (hd : digits ≤ 5) (h : 7 + 2 * code.length ≤ outstring.length) :
    codeField outstring pos digits code =
      outstring.take 2 ++ hexstuff (BitVec.ofInt 64 pos) digits ++
        (outstring.drop (2 + digits)).take (5 - digits) ++ hexBytes code ++
        outstring.drop (7 + 2 * code.length) := by
  have h2 : 2 ≤ outstring.length := by omega
  have hlen := length_overlay
    (show 2 + (hexstuff (BitVec.ofInt 64 pos) digits).length ≤ outstring.length by
      rw [length_hexstuff]; omega)
  have hcut : (overlay outstring 2 (hexstuff (BitVec.ofInt 64 pos) digits)).take 7 =
      outstring.take 2 ++ hexstuff (BitVec.ofInt 64 pos) digits ++
        (outstring.drop (2 + digits)).take (5 - digits) := by
    have hhead : (outstring.take 2 ++ hexstuff (BitVec.ofInt 64 pos) digits).length =
        2 + digits := by
      rw [List.length_append, List.length_take, length_hexstuff, Nat.min_eq_left h2]
    rw [overlay, List.take_append, List.take_of_length_le (by omega), hhead, length_hexstuff,
      show 7 - (2 + digits) = 5 - digits by omega]
  rw [codeField, foldl_overlay _ _ _ (by rw [hlen]; omega), hcut, Nat.zero_add,
    drop_overlay h2 (by rw [length_hexstuff]; omega)]

/-! ## Reading it back -/

/-- The two digits of a byte. -/
theorem hexstuff_byte (b : Byte) : ∃ ch cl, hexstuff (b.setWidth 64) 2 = [ch, cl] ∧
    isXDigit ch = true ∧ isXDigit cl = true ∧
      BitVec.ofNat 8 (hex2dig ch * 16 + hex2dig cl) = b := by
  have hv := hexVal_hexstuff (b.setWidth 64) (show 2 ≤ 16 by decide)
  obtain ⟨ch, cl, he⟩ := List.length_eq_two.mp (length_hexstuff (b.setWidth 64) 2)
  have hx := xdigits_hexstuff (b.setWidth 64) 2
  rw [he] at hx hv
  refine ⟨ch, cl, he, hx ch (by simp), hx cl (by simp), ?_⟩
  have hb : (b.setWidth 64).toNat = b.toNat := by
    rw [BitVec.toNat_setWidth, Nat.mod_eq_of_lt (by omega)]
  have h8 : b.toNat < 256 := b.isLt
  simp only [hexVal, List.foldl_cons, List.foldl_nil, hb] at hv
  rw [show hex2dig ch * 16 + hex2dig cl = b.toNat by omega, BitVec.ofNat_toNat,
    BitVec.setWidth_eq]

/-- Behind the digits stands something that is no digit. -/
theorem loadCode_hexBytes {x : CStr} (hx : ∀ c, x.head? = some c → isXDigit c = false) :
    ∀ (code : List Byte) (m : Mem) (pos : Nat),
      loadCode m pos (hexBytes code ++ x) = storeBytes m pos code
  | [], m, pos => by
      match x, hx with
      | [], _ => rfl
      | [c], _ => rfl
      | c :: c' :: x, hx =>
          change loadCode m pos (c :: c' :: x) = _
          rw [loadCode, hx c rfl, Bool.false_and, if_neg (by decide), storeBytes]
  | b :: code, m, pos => by
      obtain ⟨ch, cl, he, hch, hcl, hb⟩ := hexstuff_byte b
      rw [hexBytes_cons, he]
      change loadCode m pos (ch :: cl :: (hexBytes code ++ x)) = _
      rw [loadCode, hch, hcl, Bool.and_self, if_pos rfl, hb, storeBytes,
        loadCode_hexBytes hx code]

/-- A line of the listing: the digits of the address, a colon, blanks, the
code, and then no digit. -/
theorem loadLine_of {pos digits n : Nat} {blanks : CStr} (code : List Byte) (m : Mem) (y : CStr)
    (hd : digits ≤ 15) (hpos : pos < 16 ^ digits) (hb : ∀ c ∈ blanks, isSpace c = true)
    (hn : 0 < n) :
    loadLine m ([48, 120] ++ hexstuff (BitVec.ofNat 64 pos) digits ++ 58 :: blanks ++
      hexBytes code ++ (List.replicate n 32 ++ 124 :: y)) = some (storeBytes m pos code) := by
  obtain ⟨x, hx⟩ : ∃ x, x = List.replicate n 32 ++ 124 :: y := ⟨_, rfl⟩
  rw [← hx]
  have h60 : 16 ^ digits ≤ 2 ^ 60 := Nat.pow_le_pow_right (n := 16) (by decide) hd
  have haddr : hexVal (hexstuff (BitVec.ofNat 64 pos) digits) = pos := by
    rw [hexVal_hexstuff _ (by omega), BitVec.toNat_ofNat,
      Nat.mod_eq_of_lt (a := pos) (by omega), Nat.mod_eq_of_lt hpos]
  have hcolon := span_eq (x := 58 :: (blanks ++ hexBytes code ++ x))
    (xdigits_hexstuff (BitVec.ofNat 64 pos) digits) (fun c hc => by
      rw [← Option.some.inj hc]
      rfl)
  -- The blanks in front of the code, or, when there is none, up to the bar.
  have hcode : loadCode m pos ((blanks ++ hexBytes code ++ x).dropWhile isSpace) =
      storeBytes m pos code := by
    rw [List.append_assoc, List.dropWhile_append_of_pos hb]
    match code with
    | [] =>
        have hbar : (hexBytes [] ++ x).dropWhile isSpace = 124 :: y := by
          change x.dropWhile isSpace = _
          rw [hx, List.dropWhile_append_of_pos fun c hc => by rw [List.eq_of_mem_replicate hc]; rfl]
          rfl
        rw [hbar]
        exact loadCode_hexBytes (fun c hc => by rw [← Option.some.inj hc]; rfl) [] m pos
    | b :: code =>
        obtain ⟨ch, cl, he, hch, -, -⟩ := hexstuff_byte b
        have hkeep : (hexBytes (b :: code) ++ x).dropWhile isSpace = hexBytes (b :: code) ++ x := by
          rw [hexBytes_cons, he]
          change List.dropWhile isSpace (ch :: (cl :: (hexBytes code ++ x))) = _
          rw [List.dropWhile_cons_of_neg (by rw [xdigit_not_space hch]; decide)]
          rfl
        rw [hkeep]
        refine loadCode_hexBytes (fun c hc => ?_) (b :: code) m pos
        rw [hx, List.head?_append, List.head?_replicate, if_neg (by omega)] at hc
        rw [← Option.some.inj hc]
        rfl
  rw [show [48, 120] ++ hexstuff (BitVec.ofNat 64 pos) digits ++ 58 :: blanks ++ hexBytes code ++ x
      = 48 :: 120 :: (hexstuff (BitVec.ofNat 64 pos) digits ++
        58 :: (blanks ++ hexBytes code ++ x)) by simp]
  rw [loadLine, List.dropWhile_cons_of_neg (by decide)]
  dsimp only
  rw [if_pos ⟨rfl, .inl rfl⟩, hcolon.1, hcolon.2, haddr, if_neg (by omega),
    List.dropWhile_cons_of_neg (by decide)]
  dsimp only
  rw [if_pos rfl, hcode]

/-! ## The templates -/

theorem template3 : (text "0x000:                      | ") =
    [48, 120, 48, 48, 48, 58, 32] ++ (List.replicate 21 32 ++ [124, 32]) := by decide

theorem template4 : (text "0x0000:                      | ") =
    [48, 120, 48, 48, 48, 48, 58] ++ (List.replicate 22 32 ++ [124, 32]) := by decide

theorem templates_blank : text "                            | " =
      List.replicate 28 32 ++ [124, 32] ∧
    text "                             | " = List.replicate 29 32 ++ [124, 32] := by decide

/-- What a template has behind the code of `n` bytes. -/
theorem drop_template (head : CStr) (hh : head.length = 7) {k n : Nat} (hn : 2 * n ≤ k) :
    (head ++ (List.replicate k 32 ++ [124, 32])).drop (7 + 2 * n) =
      List.replicate (k - 2 * n) 32 ++ ([124, 32] : CStr) := by
  rw [← hh, List.drop_append, List.drop_eq_nil_of_le (by omega), List.nil_append,
    Nat.add_sub_cancel_left, List.drop_append, List.drop_replicate, List.length_replicate,
    Nat.sub_eq_zero_of_le hn, List.drop_zero]

/-- A line that can be read back. -/
structure Listed (p : Printed) : Prop where
  pos_nonneg : 0 ≤ p.pos
  pos_le : p.code.isSome = true → p.pos ≤ 0xFFFF
  code_le : ∀ code, p.code = some code → code.length ≤ 10
  text_le : p.text.length ≤ 4063
  text_nl : 10 ∉ p.text

/-- The two formats of a line with tokens, as `loadLine_of` reads them. -/
theorem printCode_code {p : Printed} (h : Listed p) {code : List Byte}
    (hc : p.code = some code) : ∃ digits k blanks, digits ≤ 15 ∧ p.pos.toNat < 16 ^ digits ∧
      (∀ c ∈ blanks, c = 32) ∧ 0 < k ∧
      digits + blanks.length + 2 * code.length + k ≤ 26 ∧
      printCode p = [48, 120] ++ hexstuff (BitVec.ofNat 64 p.pos.toNat) digits ++ 58 :: blanks ++
        hexBytes code ++ (List.replicate k 32 ++ 124 :: 32 :: (p.text ++ [10])) := by
  obtain ⟨pos, _, txt⟩ := p
  subst hc
  obtain ⟨n, rfl⟩ := Int.eq_ofNat_of_zero_le h.pos_nonneg
  have hcode : code.length ≤ 10 := h.code_le code rfl
  have hpos : (n : Int) ≤ 0xFFFF := h.pos_le rfl
  rw [printCode]
  dsimp only
  split_ifs with h4
  · refine ⟨4, 22 - 2 * code.length, [], by decide, show n < 16 ^ 4 by omega, by simp, by omega,
      by rw [List.length_nil]; omega, ?_⟩
    rw [codeField_eq (by decide) (by rw [template4]; simp; omega), template4,
      drop_template _ rfl (by omega), BitVec.ofInt_natCast]
    simp
  · refine ⟨3, 21 - 2 * code.length, [32], by decide, show n < 16 ^ 3 by omega, by simp, by omega,
      by rw [List.length_singleton]; omega, ?_⟩
    rw [codeField_eq (by decide) (by rw [template3]; simp; omega), template3,
      drop_template _ rfl (by omega), BitVec.ofInt_natCast]
    simp

/-- A line without tokens. -/
theorem printCode_none {p : Printed} (hc : p.code = none) : ∃ k ≤ 29,
    printCode p = List.replicate k 32 ++ 124 :: 32 :: (p.text ++ [10]) := by
  rw [printCode, hc]
  dsimp only
  split_ifs
  · exact ⟨29, le_refl 29, by rw [templates_blank.2]; simp⟩
  · exact ⟨28, by decide, by rw [templates_blank.1]; simp⟩

/-- What `load_mem` has to do for a line. -/
def Printed.load (p : Printed) (m : Mem) : Mem × Option Nat :=
  match p.code with
  | some code => storeBytes m p.pos.toNat code
  | none => (m, some 0)

theorem loadLine_printCode {p : Printed} (h : Listed p) (m : Mem) :
    loadLine m (printCode p) = some (p.load m) := by
  have hspace : ∀ c : UInt8, c = 32 → isSpace c = true := by
    rintro c rfl
    rfl
  rw [Printed.load]
  cases hc : p.code with
  | none =>
      obtain ⟨k, -, he⟩ := printCode_none hc
      rw [he, loadLine, List.dropWhile_append_of_pos fun c hc =>
        hspace c (List.eq_of_mem_replicate hc)]
      rfl
  | some code =>
      obtain ⟨digits, k, blanks, hd, hpos, hb, hk, -, he⟩ := printCode_code h hc
      rw [he]
      exact loadLine_of code m _ hd hpos (fun c hc => hspace c (hb c hc)) hk

/-! ## The listing -/

theorem fgets_line {n : Nat} {body rest : CStr} (h : 10 ∉ body) :
    ∀ {room : Nat} {cur : CStr}, body.length < room →
      fgets n room cur (body ++ 10 :: rest) = (cur ++ body ++ [10]) :: fgets n n [] rest := by
  induction body with
  | nil =>
      intro room cur _
      rw [List.nil_append, fgets, if_pos (.inl rfl), List.append_nil]
  | cons c body ih =>
      intro room cur hr
      obtain ⟨hc, hbody⟩ : ¬10 = c ∧ 10 ∉ body := by simpa using h
      rw [List.length_cons] at hr
      rw [List.cons_append, fgets, if_neg (by rintro (hc' | hr'); exacts [hc hc'.symm, by omega]),
        ih hbody (by omega)]
      simp

/-- A line of the listing, and its line feed. -/
theorem printCode_line {p : Printed} (h : Listed p) :
    ∃ body, printCode p = body ++ [10] ∧ 10 ∉ body ∧ body.length < lineLen - 1 := by
  have hdigits : ∀ v d, 10 ∉ hexstuff v d := fun v d hm =>
    absurd (xdigits_hexstuff v d 10 hm) (by decide)
  have htext := h.text_le
  have hlen : lineLen - 1 = 4095 := rfl
  cases hc : p.code with
  | none =>
      obtain ⟨k, hk, he⟩ := printCode_none hc
      refine ⟨List.replicate k 32 ++ 124 :: 32 :: p.text, by rw [he]; simp, ?_, ?_⟩
      · simp [h.text_nl]
      · simp only [List.length_append, List.length_replicate, List.length_cons]
        omega
  | some code =>
      obtain ⟨digits, k, blanks, -, -, hb, -, hk, he⟩ := printCode_code h hc
      have hbytes : 10 ∉ hexBytes code := by
        intro hm
        obtain ⟨b, -, hm⟩ := List.mem_flatMap.mp hm
        exact hdigits _ _ hm
      have hblanks : 10 ∉ blanks := fun hm => absurd (hb 10 hm) (by decide)
      refine ⟨[48, 120] ++ hexstuff (BitVec.ofNat 64 p.pos.toNat) digits ++ 58 :: blanks ++
        hexBytes code ++ (List.replicate k 32 ++ 124 :: 32 :: p.text), by rw [he]; simp, ?_, ?_⟩
      · simp [h.text_nl, hdigits, hbytes, hblanks]
      · simp only [List.length_append, List.length_replicate, List.length_cons, length_hexstuff,
          length_hexBytes, List.length_nil]
        omega

theorem fgets_listing : ∀ {out : List Printed}, (∀ p ∈ out, Listed p) →
    fgets (lineLen - 1) (lineLen - 1) [] (listing out) = out.map printCode
  | [], _ => rfl
  | p :: out, h => by
      obtain ⟨hp, hout⟩ := List.forall_mem_cons.mp h
      obtain ⟨body, he, hnl, hlen⟩ := printCode_line hp
      change fgets _ _ [] (printCode p ++ listing out) = _
      rw [he, List.append_assoc, List.singleton_append, fgets_line hnl hlen, fgets_listing hout,
        List.map_cons, he, List.nil_append]

/-- The chunks of code in a listing. -/
def chunks (out : List Printed) : List (Nat × List Byte) :=
  out.filterMap fun p => p.code.map fun code => (p.pos.toNat, code)

theorem loadLines_printCode : ∀ {out : List Printed}, (∀ p ∈ out, Listed p) → ∀ (m : Mem) (n : Nat),
    loadLines m n (out.map printCode) = some (storeChunks m n (chunks out))
  | [], _, m, n => rfl
  | p :: out, h, m, n => by
      obtain ⟨hp, hout⟩ := List.forall_mem_cons.mp h
      rw [List.map_cons, loadLines, loadLine_printCode hp, Printed.load]
      cases hc : p.code with
      | none =>
          rw [chunks, List.filterMap_cons, hc]
          exact loadLines_printCode hout m (n + 0)
      | some code =>
          rw [chunks, List.filterMap_cons, hc]
          dsimp only [Option.map_some]
          rw [storeChunks]
          cases storeBytes m p.pos.toNat code with
          | mk m' r =>
              cases r with
              | none => rfl
              | some k => exact loadLines_printCode hout m' (n + k)

/-- `load_mem` stores the chunks of the listing in their order. -/
theorem loadMem_listing {out : List Printed} (h : ∀ p ∈ out, Listed p) (m : Mem) :
    loadMem m (listing out) = some (storeChunks m 0 (chunks out)) := by
  rw [loadMem, fgets_listing h, loadLines_printCode h]

/-! ## What a run lists -/

/-- `.pos` is given an address that is not below zero. -/
def NonnegPos (toks : List Token) : Prop :=
  ∀ pre v rest, toks = pre ++ .instr ".pos" :: .num v :: rest → 0 ≤ toInt v

theorem NonnegPos.tail {t : Token} {toks : List Token} (h : NonnegPos (t :: toks)) :
    NonnegPos toks := fun pre v rest he => h (t :: pre) v rest (by rw [he]; rfl)

theorem NonnegPos.of_nums {toks : List Token} (h : ∀ v, .num v ∈ toks → 0 ≤ toInt v) :
    NonnegPos toks := fun pre v rest he => h v (by rw [he]; simp)

/-- The invariant of the passes. -/
structure Kept (s : St) : Prop where
  bytepos : 0 ≤ s.bytepos
  out : ∀ p ∈ s.out, Listed p

/-- The text of a line can be printed and read. -/
def Readable (text : CStr) : Prop := text.length ≤ 4063 ∧ 10 ∉ text

section
variable {second : Bool} {s s' : St} {txt : CStr} {toks : List Token}

theorem Kept.fail (h : Kept s) : Kept s.fail := ⟨h.bytepos, h.out⟩

theorem Kept.print {p : Printed} (h : Kept s) (hp : 0 ≤ p.pos)
    (hc : ∀ code, p.code = some code → code.length ≤ 10) (ht : Readable p.text)
    (hs : St.print second p s = some s') : Kept s' := by
  rw [St.print] at hs
  split_ifs at hs with h1 h2
  · rwa [← Option.some.inj hs]
  · rw [← Option.some.inj hs]
    refine ⟨h.bytepos, fun q hq => ?_⟩
    rcases List.mem_append.mp hq with hq | hq
    · exact h.out q hq
    · rw [List.mem_singleton.mp hq]
      exact ⟨hp, fun hs => Int.not_lt.mp fun hlt => h2 ⟨hs, hlt⟩, hc, ht.1, ht.2⟩

theorem no_code {code : List Byte} (h : some [] = some code) : code.length ≤ 10 := by
  rw [← Option.some.inj h]
  exact Nat.zero_le 10

theorem Kept.posLine (h : Kept s) (ht : Readable txt)
    (hp : ∀ v, toks.headD .err = .num v → 0 ≤ toInt v)
    (hs : posLine second txt toks s = some s') : Kept s' := by
  rw [Yas.posLine] at hs
  split at hs
  · next v hv =>
      have hk : Kept { s with bytepos := toInt v } := ⟨hp v hv, h.out⟩
      exact hk.print (hp v hv) (fun _ => no_code) ht hs
  · rw [← Option.some.inj hs]
    exact h.fail

theorem Kept.alignLine (h : Kept s) (ht : Readable txt)
    (hs : alignLine second txt toks s = some s') : Kept s' := by
  rw [Yas.alignLine] at hs
  split at hs
  · next v hv =>
      dsimp only at hs
      split_ifs at hs with ha
      · rw [← Option.some.inj hs]
        exact h.fail
      · have hb := h.bytepos
        have hn : 0 ≤ (s.bytepos + toInt v - 1).tdiv (toInt v) * toInt v :=
          Int.mul_nonneg (Int.tdiv_nonneg (by omega) (by omega)) (by omega)
        have hk : Kept { s with bytepos := (s.bytepos + toInt v - 1).tdiv (toInt v) * toInt v } :=
          ⟨hn, h.out⟩
        exact hk.print hn (fun _ => no_code) ht hs
  · rw [← Option.some.inj hs]
    exact h.fail

theorem bytes_le : ∀ i ∈ instructionSet, i.bytes ≤ 10 := by decide

theorem bytes_findInstr (sval : String) : ((findInstr sval).getD invalidInstr).bytes ≤ 10 := by
  cases h : findInstr sval with
  | none => exact Nat.zero_le 10
  | some i => exact bytes_le i (List.mem_of_find?_eq_some h)

theorem Kept.instrLine {sval : String} (h : Kept s) (ht : Readable txt)
    (hs : instrLine second txt sval toks s = some s') : Kept s' := by
  rw [Yas.instrLine] at hs
  have hif : Kept (if findInstr sval = none then s.fail else s) := by
    split_ifs
    · exact h.fail
    · exact h
  generalize (if findInstr sval = none then s.fail else s) = s at hs hif
  have hbytes := bytes_findInstr sval
  generalize (findInstr sval).getD invalidInstr = instr at hs hbytes
  dsimp only at hs
  have hk : ∀ code err, Kept ⟨s.bytepos + instr.bytes, s.symbols, code, err, s.out⟩ :=
    fun _ _ => ⟨Int.add_nonneg hif.bytepos (Int.natCast_nonneg _), hif.out⟩
  split_ifs at hs with h1 h2 h3
  · rw [← Option.some.inj hs]
    exact hk _ _
  · refine (hk _ _).print hif.bytepos (fun code hc => ?_) ht hs
    rw [← Option.some.inj hc, List.length_map, List.length_range]
    exact hbytes
  · rw [← Option.some.inj hs]
    exact hk _ _

theorem Kept.finishInstr (h : Kept s) (ht : Readable txt) (hp : NonnegPos toks)
    (hs : finishInstr second txt toks s = some s') : Kept s' := by
  rw [Yas.finishInstr] at hs
  split at hs
  · next sval hv =>
      split_ifs at hs with h1 h2
      · refine h.posLine ht (fun v hn => ?_) hs
        match toks, hv, hn with
        | t :: u :: rest, hv, hn =>
            have ht : t = .instr sval := hv
            have hu : u = .num v := hn
            exact hp [] v rest (by rw [ht, hu, h1]; rfl)
      · exact h.alignLine ht hs
      · exact h.instrLine ht hs
  · rw [← Option.some.inj hs]
    exact h.fail

theorem Kept.addSymbol {name : String} (h : Kept s) (hs : St.addSymbol second name s = some s') :
    Kept s' := by
  rw [St.addSymbol] at hs
  split_ifs at hs
  · rwa [← Option.some.inj hs]
  · rw [← Option.some.inj hs]
    exact ⟨h.bytepos, h.out⟩

/-- One line keeps the invariant. -/
theorem Kept.finishLine {l : SrcLine} (h : Kept s) (ht : Readable l.text) (hp : NonnegPos l.toks)
    (hs : finishLine second s l = some s') : Kept s' := by
  rw [Yas.finishLine] at hs
  split at hs
  · cases hs
  split at hs
  · exact h.print h.bytepos (fun _ hc => by cases hc) ht hs
  · next t rest he =>
      rw [he] at hp
      split at hs
      · rw [← Option.some.inj hs]
        exact h.fail
      split at hs
      · split at hs
        · split at hs
          · cases hs
          · next s₁ hadd =>
              have h₁ := h.addSymbol hadd
              split at hs
              · exact h₁.print h₁.bytepos (fun _ => no_code) ht hs
              · refine h₁.finishInstr ht ?_ hs
                match rest, hp with
                | [], hp => exact hp.tail
                | u :: rest, hp => exact hp.tail.tail
        · rw [← Option.some.inj hs]
          exact h.fail
      · exact h.finishInstr ht hp hs

/-- And so does a pass. -/
theorem Kept.yylex {src : List SrcLine} (ht : ∀ l ∈ src, Readable l.text)
    (hp : ∀ l ∈ src, NonnegPos l.toks) :
    ∀ {s s' : St}, Kept s → yylex second s src = some s' → Kept s' := by
  induction src with
  | nil =>
      intro s s' h hs
      rwa [← Option.some.inj hs]
  | cons l src ih =>
      intro s s' h hs
      rw [Yas.yylex, List.foldlM_cons] at hs
      obtain ⟨s₁, h₁, hs⟩ := Option.bind_eq_some_iff.mp hs
      exact ih (fun l' hl => ht l' (List.mem_cons_of_mem _ hl))
        (fun l' hl => hp l' (List.mem_cons_of_mem _ hl))
        (h.finishLine (ht l List.mem_cons_self) (hp l List.mem_cons_self) h₁) hs

end

theorem listed_of_yas {src : List SrcLine} {out : List Printed} {err : Bool}
    (h : yas src = some (out, err)) (ht : ∀ l ∈ src, Readable l.text)
    (hp : ∀ l ∈ src, NonnegPos l.toks) : ∀ p ∈ out, Listed p := by
  rw [yas] at h
  split at h
  · cases h
  · next s₁ h₁ =>
      split_ifs at h
      obtain ⟨s₂, h₂, he⟩ := Option.map_eq_some_iff.mp h
      have hk : Kept s₁ := Kept.yylex ht hp ⟨le_refl 0, fun p hp => absurd hp List.not_mem_nil⟩ h₁
      have hk₀ : Kept { s₁ with bytepos := 0 } := ⟨le_refl 0, hk.out⟩
      have hk₂ : Kept s₂ := Kept.yylex ht hp hk₀ h₂
      rw [← (Prod.mk.inj he).1]
      exact hk₂.out

/-- Two lines, at two addresses and in the two formats. -/
def quadSource : List SrcLine :=
  [⟨text "Here: .quad There", [.ident "Here", .punct ':', .instr ".quad", .ident "There"]⟩,
    ⟨text "  .pos 0x1000", [.instr ".pos", .num 4096]⟩,
    ⟨text "There: .word 0xabcd", [.ident "There", .punct ':', .instr ".word", .num 0xabcd]⟩]

/-- Its listing. -/
def quadListing : List Printed :=
  [⟨0, some [0, 16, 0, 0, 0, 0, 0, 0], text "Here: .quad There"⟩,
    ⟨4096, some [], text "  .pos 0x1000"⟩,
    ⟨4096, some [0xcd, 0xab], text "There: .word 0xabcd"⟩]

/-- The listing of a source is loaded as the image of its code, with the number
of bytes, if there is room for all of them, and otherwise zero is returned. -/
theorem load_listing {src : List SrcLine} {out : List Printed} {err : Bool} (m : Mem)
    (h : yas src = some (out, err)) (ht : ∀ l ∈ src, Readable l.text)
    (hp : ∀ l ∈ src, NonnegPos l.toks) :
    (Room m (chunks out) →
      loadMem m (listing out) = some (written m (chunks out), size (chunks out))) ∧
    (¬Room m (chunks out) → ∃ m', loadMem m (listing out) = some (m', 0)) := by
  have hload := loadMem_listing (listed_of_yas h ht hp) m
  constructor
  · intro hroom
    rw [hload, storeChunks_room hroom, Nat.zero_add]
  · intro hroom
    have hzero := @storeChunks_full (chunks out) m 0 hroom
    exact ⟨(storeChunks m 0 (chunks out)).1, hload.trans (congrArg some (Prod.ext rfl hzero))⟩

theorem load_listing_quad :
    (Room ⟨fun _ => 0, 8192, memSize_lt⟩ (chunks quadListing) →
      loadMem ⟨fun _ => 0, 8192, memSize_lt⟩ (listing quadListing) =
        some (written ⟨fun _ => 0, 8192, memSize_lt⟩ (chunks quadListing),
          size (chunks quadListing))) ∧
    (¬Room ⟨fun _ => 0, 8192, memSize_lt⟩ (chunks quadListing) →
      ∃ m', loadMem ⟨fun _ => 0, 8192, memSize_lt⟩ (listing quadListing) = some (m', 0)) :=
  load_listing ⟨fun _ => 0, 8192, memSize_lt⟩ (show yas quadSource = some (quadListing, false) from rfl)
    (by
      intro l hl
      simp only [quadSource, List.mem_cons, List.not_mem_nil, or_false] at hl
      rcases hl with rfl | rfl | rfl <;> exact ⟨by decide, by decide⟩)
    (by
      intro l hl
      simp only [quadSource, List.mem_cons, List.not_mem_nil, or_false] at hl
      rcases hl with rfl | rfl | rfl <;> refine .of_nums fun v hv => ?_ <;>
        simp only [List.mem_cons, reduceCtorEq, false_or, List.not_mem_nil, or_false,
          Token.num.injEq] at hv <;> rw [hv] <;> decide)

end Csapp.Yas
