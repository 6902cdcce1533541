import Mathlib
import Csapp.Lib.CString
import Csapp.Lib.Lines

/-!
# Forwarding a request

`forward_request` of `proxy.c`. It reads the client's header lines until an empty
one or the end of the input and writes the request for the origin through a
stream whose operations may fail; what a failed one leaves there is left out.

A header is recognised by its name, a colon and a blank. The blank is optional
in a header, so one that is written without it is not recognised.
-/

namespace Csapp.Proxy

/-- `tolower` -/
def toLower (c : UInt8) : UInt8 := if 65 ≤ c ∧ c ≤ 90 then c + 32 else c

/-- `startswithcase` -/
def startswithcase (str pre : CStr) : Bool := (pre.map toLower).isPrefixOf (str.map toLower)

/-- `user_agent_hdr` -/
def userAgentHdr : CStr :=
  text "Mozilla/5.0 (X11; Linux x86_64; rv:10.0.3) Gecko/20120305 Firefox/10.0.3"

/-- What the first `fprintf` writes. -/
def requestHead (loc : CStr) : CStr :=
  text "GET /" ++ loc ++ text " HTTP/1.0\r\n" ++
    (text "User-Agent: " ++ userAgentHdr ++ text "\r\n") ++
    text "Connection: close\r\n" ++ text "Proxy-Connection: close\r\n"

/-- The `Host` line for a request without one. -/
def hostLine (host : CStr) : CStr := text "Host: " ++ host ++ text "\r\n"

/-- The stream to the origin: what has been written and by how many operations. -/
structure Stream where
  out : CStr
  ops : Nat

section

variable (ok : Nat → Bool)

/-- `fprintf` or `fwrite_unlocked`; `ok` says which operations succeed. -/
def write (bytes : CStr) (s : Stream) : Option Stream :=
  if ok s.ops then some ⟨s.out ++ bytes, s.ops + 1⟩ else none

/-- The loop over the lines; `none` after a failed write. -/
def headerLoop : List CStr → Bool → Stream → Option (Bool × Stream)
  | [], hostSent, s => some (hostSent, s)
  | line :: lines, hostSent, s =>
    let buf := cstr line 0
    if startswithcase buf (text "User-Agent: ") || startswithcase buf (text "Connection: ")
        || startswithcase buf (text "Proxy-Connection: ") then
      headerLoop lines hostSent s
    else
      let hostSent := if startswithcase buf (text "Host: ") then true else hostSent
      if buf = text "\r\n" then some (hostSent, s)
      else
        match write ok line s with
        | none => none
        | some s => headerLoop lines hostSent s

/-- `forward_request`, where `lines` is what `getline` returns: what has been
written, or `none` for a negative result. -/
def forwardRequest (host loc : CStr) (lines : List CStr) : Option CStr := do
  let s ← write ok (requestHead loc) ⟨[], 0⟩
  let (hostSent, s) ← headerLoop ok lines false s
  let s ← if hostSent then some s else write ok (hostLine host) s
  let s ← write ok (text "\r\n") s
  -- `fflush_unlocked`
  if ok s.ops then some s.out else none

end

/-! ## What it is meant to write -/

/-- The text before the colon. -/
def fieldName (line : CStr) : Option CStr :=
  if 58 ∈ line then some (line.takeWhile (· ≠ 58)) else none

/-- The field name is this one, in any case. -/
def Named (name line : CStr) : Prop :=
  (fieldName line).map (List.map toLower) = some (name.map toLower)

instance (name line : CStr) : Decidable (Named name line) := inferInstanceAs (Decidable (_ = _))

/-- The headers that the proxy sets itself. -/
def Own (line : CStr) : Prop :=
  Named (text "User-Agent") line ∨ Named (text "Connection") line ∨
    Named (text "Proxy-Connection") line

instance (line : CStr) : Decidable (Own line) := inferInstanceAs (Decidable (_ ∨ _ ∨ _))

/-- The client's headers. -/
def headers (lines : List CStr) : List CStr := lines.takeWhile (· ≠ text "\r\n")

/-- What the server is to be sent. -/
def request (host loc : CStr) (lines : List CStr) : CStr :=
  requestHead loc ++ ((headers lines).filter fun l => ¬Own l).flatten ++
    (if ∃ l ∈ headers lines, Named (text "Host") l then [] else hostLine host) ++ text "\r\n"

/-- A blank follows the colon. -/
def Spaced (line : CStr) : Prop := [58, 32] <+: line.dropWhile (· ≠ 58)

instance (line : CStr) : Decidable (Spaced line) := inferInstanceAs (Decidable (_ <+: _))

/-- The headers that the proxy sets itself are written with a blank, and so is one
`Host`, if there is any. -/
def Spelled (lines : List CStr) : Prop :=
  (∀ l ∈ headers lines, Own l → Spaced l) ∧
    ((∃ l ∈ headers lines, Named (text "Host") l) →
      ∃ l ∈ headers lines, Named (text "Host") l ∧ Spaced l)

/-! ## What is recognised -/

theorem toLower_eq {c d : UInt8} (hd : d < 65) : toLower c = d ↔ c = d := by
  have h65 : (65 : UInt8).toNat = 65 := rfl
  have h90 : (90 : UInt8).toNat = 90 := rfl
  have h32 : (32 : UInt8).toNat = 32 := rfl
  rw [UInt8.lt_iff_toNat_lt] at hd
  unfold toLower
  split
  next hc =>
    rw [UInt8.le_iff_toNat_le, UInt8.le_iff_toNat_le] at hc
    constructor
    · intro he
      have he := congrArg UInt8.toNat he
      rw [UInt8.toNat_add] at he
      omega
    · rintro rfl
      omega
  next => exact Iff.rfl

/-- Behind the name, compared in lower case. -/
theorem lower_split {name line : CStr} (hn : 58 ∉ name) :
    (name.map toLower ++ [58, 32]) <+: line.map toLower ↔ Named name line ∧ Spaced line := by
  have hno : ∀ {a : CStr}, a.map toLower = name.map toLower → ∀ c ∈ a, decide (c ≠ 58) = true := by
    intro a ha c hc
    refine decide_eq_true fun he => ?_
    have hm : toLower c ∈ name.map toLower := ha ▸ List.mem_map_of_mem hc
    obtain ⟨d, hd, hde⟩ := List.mem_map.mp hm
    rw [he] at hde
    have hd58 : d = 58 := (toLower_eq (by decide)).mp hde
    exact hn (hd58 ▸ hd)
  constructor
  · rintro ⟨r, hr⟩
    rw [List.append_assoc] at hr
    obtain ⟨a, b, rfl, ha, hb⟩ := List.map_eq_append_iff.mp hr.symm
    obtain ⟨c, b, rfl, hc, hb⟩ := List.map_eq_cons_iff.mp hb
    obtain ⟨d, b, rfl, hd, -⟩ := List.map_eq_cons_iff.mp hb
    have hc : c = 58 := (toLower_eq (by decide)).mp hc
    have hd : d = 32 := (toLower_eq (by decide)).mp hd
    subst hc hd
    have hs := span_eq (p := fun c => decide (c ≠ 58)) (x := 58 :: 32 :: b) (hno ha) (by simp)
    unfold Named fieldName Spaced
    rw [if_pos (by simp), hs.1, hs.2]
    exact ⟨congrArg some ha, ⟨b, rfl⟩⟩
  · rintro ⟨hname, r, hr⟩
    unfold Named fieldName at hname
    split at hname
    · rw [← List.takeWhile_append_dropWhile (p := fun c => decide (c ≠ 58)) (l := line), ← hr,
        List.map_append, Option.some.inj hname]
      exact ⟨r.map toLower, by rw [List.append_assoc]; rfl⟩
    · cases hname

/-- A header is recognised by its name if a blank follows the colon. -/
theorem recognised_iff {pre : CStr} (name line : CStr) (hp : pre = name ++ text ": ")
    (hn : 58 ∉ name) (h0 : 0 ∉ name) :
    startswithcase (cstr line 0) pre ↔ Named name line ∧ Spaced line := by
  rw [← lower_split hn, hp]
  unfold startswithcase
  rw [List.isPrefixOf_iff_prefix, List.map_append]
  have hcolon : (text ": ").map toLower = [58, 32] := by decide
  rw [hcolon]
  constructor
  · exact fun h => h.trans ((List.takeWhile_prefix _).map toLower)
  · rintro ⟨r, hr⟩
    obtain ⟨a, b, rfl, ha, -⟩ := List.map_eq_append_iff.mp hr.symm
    have hzero : ∀ c ∈ a, decide (c ≠ 0) = true := by
      intro c hc
      refine decide_eq_true fun he => ?_
      have hm : toLower c ∈ name.map toLower ++ [58, 32] := ha ▸ List.mem_map_of_mem hc
      rw [he] at hm
      rcases List.mem_append.mp hm with hm | hm
      · obtain ⟨d, hd, hde⟩ := List.mem_map.mp hm
        have hd0 : d = 0 := (toLower_eq (by decide)).mp hde
        exact h0 (hd0 ▸ hd)
      · revert hm
        decide
    unfold cstr
    rw [List.drop_zero, List.takeWhile_append_of_pos hzero, List.map_append, ha]
    exact List.prefix_append _ _

/-! ## The loop -/

/-- The lines that the loop passes over. -/
def Skipped (line : CStr) : Prop := Own line ∧ Spaced line

instance (line : CStr) : Decidable (Skipped line) := inferInstanceAs (Decidable (_ ∧ _))

theorem skipped_iff (line : CStr) :
    (startswithcase (cstr line 0) (text "User-Agent: ") ||
      startswithcase (cstr line 0) (text "Connection: ") ||
      startswithcase (cstr line 0) (text "Proxy-Connection: ")) = true ↔ Skipped line := by
  rw [Bool.or_eq_true, Bool.or_eq_true]
  refine (or_congr (or_congr
    (recognised_iff (text "User-Agent") line (by decide) (by decide) (by decide))
    (recognised_iff (text "Connection") line (by decide) (by decide) (by decide)))
    (recognised_iff (text "Proxy-Connection") line (by decide) (by decide) (by decide))).trans ?_
  rw [← or_and_right, ← or_and_right, or_assoc]
  exact Iff.rfl

theorem host_iff (line : CStr) : startswithcase (cstr line 0) (text "Host: ") ↔
    Named (text "Host") line ∧ Spaced line :=
  recognised_iff (text "Host") line (by decide) (by decide) (by decide)

theorem own_not_host {line : CStr} (h : Own line) : ¬Named (text "Host") line := by
  unfold Own Named at *
  intro hh
  rw [hh] at h
  revert h
  decide

/-- A line of `getline` that reads as an empty one is an empty one. -/
theorem empty_iff {line : CStr} (h : IsLine 10 line) :
    cstr line 0 = text "\r\n" ↔ line = text "\r\n" := by
  constructor
  · intro he
    obtain ⟨x, hx, -⟩ := isStr_cstr line 0
    rw [he, List.drop_zero] at hx
    obtain ⟨body, hb, hl⟩ := h
    have hne : x = [] := by
      by_contra hne
      have hm : (10 : UInt8) ∈ line.dropLast := by
        rw [hx, List.dropLast_append_of_ne_nil hne]
        exact List.mem_append_left _ (by decide)
      rcases hl with rfl | ⟨rfl, -⟩
      · rw [List.dropLast_concat] at hm
        exact hb hm
      · exact hb (List.mem_of_mem_dropLast hm)
    rw [hx, hne, List.append_nil]
  · rintro rfl
    decide

/-- Without failures the loop writes the lines that it does not pass over. -/
theorem headerLoop_ok {lines : List CStr} (hl : ∀ l ∈ lines, IsLine 10 l) (hostSent : Bool)
    (s : Stream) : ∃ n, headerLoop (fun _ => true) lines hostSent s =
      some (hostSent || decide (∃ l ∈ headers lines, Named (text "Host") l ∧ Spaced l),
        ⟨s.out ++ ((headers lines).filter fun l => ¬Skipped l).flatten, n⟩) := by
  induction lines generalizing hostSent s with
  | nil => exact ⟨s.ops, by simp [headerLoop, headers]⟩
  | cons line lines ih =>
    have hline := hl line List.mem_cons_self
    have hls : ∀ l ∈ lines, IsLine 10 l := fun l h => hl l (List.mem_cons_of_mem _ h)
    rw [headerLoop]
    dsimp only
    by_cases hend : line = text "\r\n"
    · have hskip : ¬Skipped line := by
        rw [hend]
        decide
      have hhost : ¬startswithcase (cstr line 0) (text "Host: ") := by
        rw [hend]
        decide
      have hnone : headers (line :: lines) = [] := by
        rw [headers, List.takeWhile_cons_of_neg (by simp [hend])]
      rw [if_neg fun h => hskip ((skipped_iff line).mp h), if_neg hhost,
        if_pos ((empty_iff hline).mpr hend), hnone]
      exact ⟨s.ops, by simp⟩
    have hcons : headers (line :: lines) = line :: headers lines := by
      rw [headers, List.takeWhile_cons_of_pos (by simp [hend])]
      rfl
    rw [hcons]
    by_cases hskip : Skipped line
    · have hhost : ¬(Named (text "Host") line ∧ Spaced line) :=
        fun h => own_not_host hskip.1 h.1
      obtain ⟨n, hn⟩ := ih hls hostSent s
      rw [if_pos ((skipped_iff line).mpr hskip), hn, List.filter_cons_of_neg (by simp [hskip])]
      exact ⟨n, by simp [hhost]⟩
    · obtain ⟨n, hn⟩ := ih hls
        (if startswithcase (cstr line 0) (text "Host: ") then true else hostSent)
        ⟨s.out ++ line, s.ops + 1⟩
      rw [if_neg fun h => hskip ((skipped_iff line).mp h),
        if_neg fun h => hend ((empty_iff hline).mp h), write, if_pos rfl]
      dsimp only
      rw [hn, List.filter_cons_of_pos (by simp [hskip])]
      refine ⟨n, ?_⟩
      by_cases hhost : startswithcase (cstr line 0) (text "Host: ")
      · rw [if_pos hhost]
        simp [(host_iff line).mp hhost]
      · have hn := mt (host_iff line).mpr hhost
        rw [if_neg hhost]
        simp [hn]

/-! ## The request -/

theorem forwardRequest_ok (host loc : CStr) {lines : List CStr} (hl : ∀ l ∈ lines, IsLine 10 l) :
    forwardRequest (fun _ => true) host loc lines =
      some (requestHead loc ++ ((headers lines).filter fun l => ¬Skipped l).flatten ++
        (if ∃ l ∈ headers lines, Named (text "Host") l ∧ Spaced l then [] else hostLine host) ++
        text "\r\n") := by
  obtain ⟨n, hn⟩ := headerLoop_ok hl false ⟨requestHead loc, 1⟩
  unfold forwardRequest
  simp only [write, if_true, Option.bind_eq_bind, Option.bind_some, List.nil_append, Nat.zero_add,
    hn, Bool.false_or, decide_eq_true_eq]
  split <;> simp

/-- Fewer of the same lines are shorter, unless they are all there. -/
theorem filter_flatten {p q : CStr → Bool} {l : List CStr} (hpq : ∀ x ∈ l, p x → q x)
    (hne : ∀ x ∈ l, x ≠ []) :
    (l.filter p).flatten.length ≤ (l.filter q).flatten.length ∧
    ((l.filter p).flatten.length = (l.filter q).flatten.length → ∀ x ∈ l, q x → p x) := by
  induction l with
  | nil => simp
  | cons x l ih =>
    obtain ⟨hle, heq⟩ := ih (fun y hy => hpq y (List.mem_cons_of_mem _ hy))
      fun y hy => hne y (List.mem_cons_of_mem _ hy)
    have hx : 0 < x.length := List.length_pos_of_ne_nil (hne x List.mem_cons_self)
    have hq := hpq x List.mem_cons_self
    cases hp : p x with
    | true =>
      rw [List.filter_cons_of_pos hp, List.filter_cons_of_pos (hq hp), List.flatten_cons,
        List.flatten_cons, List.length_append, List.length_append]
      refine ⟨by omega, fun he y hy => ?_⟩
      cases hy with
      | head => exact fun _ => hp
      | tail _ hy => exact heq (by omega) y hy
    | false =>
      rw [List.filter_cons_of_neg (by simp [hp])]
      cases hqx : q x with
      | true =>
        rw [List.filter_cons_of_pos hqx, List.flatten_cons, List.length_append]
        exact ⟨by omega, fun he => by omega⟩
      | false =>
        rw [List.filter_cons_of_neg (by simp [hqx])]
        refine ⟨hle, fun he y hy => ?_⟩
        cases hy with
        | head => exact fun h => by simp [hqx] at h
        | tail _ hy => exact heq he y hy

/-- What is written, when nothing fails, is what is meant exactly if the headers
that matter have a blank behind their colon. -/
theorem forwardRequest_iff (host loc input : CStr) :
    forwardRequest (fun _ => true) host loc (getlines 10 input) =
      some (request host loc (getlines 10 input)) ↔ Spelled (getlines 10 input) := by
  have hlines : ∀ l ∈ getlines 10 input, IsLine 10 l := fun l => isLine_of_mem
  rw [forwardRequest_ok host loc hlines, Option.some.injEq]
  generalize getlines 10 input = lines at hlines
  unfold request
  have hmem : ∀ l ∈ headers lines, l ≠ [] :=
    fun l hl => (hlines l ((List.takeWhile_prefix _).subset hl)).ne_nil
  have hhost : 0 < (hostLine host).length := by
    unfold hostLine
    rw [List.length_append]
    exact Nat.add_pos_right _ (by decide)
  have hspaced : (∃ l ∈ headers lines, Named (text "Host") l ∧ Spaced l) →
      ∃ l ∈ headers lines, Named (text "Host") l := fun ⟨l, hl, hn, _⟩ => ⟨l, hl, hn⟩
  constructor
  · -- whatever is written too much makes it longer
    intro he
    obtain ⟨hle, heq⟩ := filter_flatten (p := fun l => decide ¬Own l)
      (q := fun l => decide ¬Skipped l) (l := headers lines)
      (fun l _ h => decide_eq_true fun hs => of_decide_eq_true h hs.1) hmem
    have hlen := congrArg List.length he
    simp only [List.length_append] at hlen
    have hrest : ((headers lines).filter fun l => decide ¬Own l).flatten.length =
        ((headers lines).filter fun l => decide ¬Skipped l).flatten.length ∧
        ((∃ l ∈ headers lines, Named (text "Host") l) →
          ∃ l ∈ headers lines, Named (text "Host") l ∧ Spaced l) := by
      split at hlen
      next hp =>
        rw [if_pos (hspaced hp)] at hlen
        exact ⟨by omega, fun _ => hp⟩
      next hp =>
        split at hlen
        · rw [List.length_nil] at hlen
          omega
        next hq => exact ⟨by omega, fun h => absurd h hq⟩
    refine ⟨fun l hl ho => ?_, hrest.2⟩
    by_contra hs
    exact of_decide_eq_true (heq hrest.1 l hl (decide_eq_true fun hk => hs hk.2)) ho
  · rintro ⟨hown, hnamed⟩
    have hfilter : ((headers lines).filter fun l => decide ¬Skipped l) =
        (headers lines).filter fun l => decide ¬Own l := by
      refine List.filter_congr fun l hl => decide_eq_decide.mpr (not_congr ?_)
      exact ⟨fun hs => hs.1, fun ho => ⟨ho, hown l hl ho⟩⟩
    have hif : (∃ l ∈ headers lines, Named (text "Host") l ∧ Spaced l) ↔
        ∃ l ∈ headers lines, Named (text "Host") l := ⟨hspaced, hnamed⟩
    rw [hfilter]
    simp only [hif]

/-- `Connection:keep-alive` goes through. -/
theorem forwardRequest_passes : ¬∀ host loc input,
    forwardRequest (fun _ => true) host loc (getlines 10 input) =
      some (request host loc (getlines 10 input)) := by
  intro h
  have hx := h (text "h") [] (text "Connection:keep-alive\r\n")
  revert hx
  decide +kernel

end Csapp.Proxy
