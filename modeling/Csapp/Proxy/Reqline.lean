import Mathlib
import Csapp.Lib.CString

/-!
# The request line

`uri_parse` and `parse_reqline` of `proxy.c`. Both cut the line into strings where
it lies: a pointer is an index into the buffer of `getline`, and each token or
port leaves a zero behind it. On the strings themselves the parse is `reqline`,
and the pointers that come back point to its three parts.
-/

namespace Csapp.Proxy

/-- `startswith` -/
def startswith (str pre : CStr) : Bool := pre.isPrefixOf str

/-- The buffer and `*host`, `*port` and `*loc`; no pointer into the buffer is the
port `"80"`. -/
structure Uri where
  buf : CStr
  host : Nat
  port : Option Nat
  loc : Nat

/-- The strings that the three point to. -/
def Uri.strings (u : Uri) : CStr × CStr × CStr :=
  (cstr u.buf u.host, (u.port.map (cstr u.buf)).getD (text "80"), cstr u.buf u.loc)

/-- `uri_parse`; `none` is -1. -/
def uriParse (b : CStr) (uri n : Nat) : Option Uri :=
  if ¬startswith (cstr b uri) (text "http:/") then none
  else
    match strtokR b (uri + (text "http:/").length) (text "/") with
    | (_, none, _) => none
    | (b, some host, _) =>
      let loc := min (host + strlen b host + 1) (uri + n)
      match strchr b host 58 with
      | none => some ⟨b, host, none, loc⟩
      | some tmp =>
        let b := b.set tmp 0
        let tmp := tmp + 1
        if cstr b tmp = [] then none
        else if strchr b tmp 58 ≠ none then none
        else some ⟨b, host, some tmp, loc⟩

/-- `parse_reqline`; `none` is -1. -/
def parseReqline (req : CStr) : Option Uri :=
  match strtokR req 0 (text " ") with
  | (_, none, _) => none
  | (b, some tok, save) =>
    if cstr b tok ≠ text "GET" then none
    else
      match strtokR b save (text " ") with
      | (_, none, _) => none
      | (b, some uri, save) =>
        match strtokR b save (text " ") with
        | (_, none, _) => none
        | (b, some tok, save) =>
          if ¬startswith (cstr b tok) (text "HTTP/1.1") ∧
              ¬startswith (cstr b tok) (text "HTTP/1.0") then none
          else
            match strtokR b save (text " ") with
            | (b, none, _) => uriParse b uri (strlen b uri)
            | (b, some tok, _) =>
              if cstr b tok ≠ text "\r\n" then none else uriParse b uri (strlen b uri)

/-! ## On strings -/

/-- Host and port of an authority, 80 without one. -/
def splitPort (auth : CStr) : Option (CStr × CStr) :=
  if 58 ∉ auth then some (auth, text "80")
  else
    let port := (auth.dropWhile (· ≠ 58)).tail
    if port = [] ∨ 58 ∈ port then none else some (auth.takeWhile (· ≠ 58), port)

/-- What `uri_parse` finds, without its buffer. -/
def uriParts (uri : CStr) : Option (CStr × CStr × CStr) :=
  if ¬startswith uri (text "http:/") then none
  else
    match token (text "/") (uri.drop 6) with
    | none => none
    | some (auth, loc) => (splitPort auth).map fun (host, port) => (host, port, loc)

/-- Host, port and location of a request line. -/
def reqline (s : CStr) : Option (CStr × CStr × CStr) :=
  match token (text " ") s with
  | none => none
  | some (tok, s) =>
    if tok ≠ text "GET" then none
    else
      match token (text " ") s with
      | none => none
      | some (uri, s) =>
        match token (text " ") s with
        | none => none
        | some (tok, s) =>
          if ¬startswith tok (text "HTTP/1.1") ∧ ¬startswith tok (text "HTTP/1.0") then none
          else
            match token (text " ") s with
            | none => uriParts uri
            | some (tok, _) => if tok ≠ text "\r\n" then none else uriParts uri

example : reqline (text "GET http://h:8/a/b HTTP/1.0\r\n") =
    some (text "h", text "8", text "a/b") := by decide

/-! ## The pointers point to the strings -/

theorem startswith_iff {str pre : CStr} : startswith str pre ↔ pre <+: str :=
  List.isPrefixOf_iff_prefix

/-- Cutting the port off. -/
theorem split_colon {auth : CStr} (h : 58 ∈ auth) :
    ∃ host port, auth = host ++ 58 :: port ∧ 58 ∉ host ∧
      splitPort auth = if port = [] ∨ 58 ∈ port then none else some (host, port) := by
  obtain ⟨host, port, rfl, hh⟩ := List.eq_append_cons_of_mem h
  refine ⟨host, port, rfl, hh, ?_⟩
  have hs := span_eq (p := fun c => decide (c ≠ 58)) (a := host) (x := 58 :: port)
    (fun c hc => decide_eq_true fun he => hh (he ▸ hc)) (by simp)
  unfold splitPort
  rw [if_neg (by simp), hs.1, hs.2]
  rfl

theorem uriParse_strings {b uri : CStr} {u : Nat} (h : IsStr b u uri) :
    (uriParse b u uri.length).map Uri.strings = uriParts uri := by
  unfold uriParse uriParts
  rw [h.cstr]
  split
  · rfl
  next hpre =>
    rw [not_not, startswith_iff] at hpre
    obtain ⟨rest, rfl⟩ := hpre
    have hrest : (text "http:/" ++ rest).drop 6 = rest := rfl
    have hs := h.suffix
    rw [hrest]
    cases ht : token (text "/") rest with
    | none =>
      rw [strtokR_none hs ht]
      rfl
    | some r =>
      obtain ⟨auth, loc⟩ := r
      obtain ⟨b', p, heq, hauth, hloc, hp, hend, -⟩ := strtokR_some hs ht
      have hlen : u + (text "http:/" ++ rest).length = u + (text "http:/").length + rest.length := by
        rw [List.length_append, Nat.add_assoc]
      rw [heq]
      dsimp only
      rw [strlen, hauth.cstr, hlen]
      by_cases hc : 58 ∈ auth
      · obtain ⟨host, port, rfl, hh, hsp⟩ := split_colon hc
        obtain ⟨hhost, hport⟩ := hauth.cut
        rw [hauth.strchr hh, hsp]
        dsimp only
        rw [hport.cstr]
        split
        next hnil =>
          rw [if_pos (.inl hnil)]
          rfl
        next hnil =>
          by_cases hc2 : 58 ∈ port
          · obtain ⟨h1, h2, rfl, hh2⟩ := List.eq_append_cons_of_mem hc2
            rw [hport.strchr hh2, if_pos (by simp), if_pos (.inr hc2)]
            rfl
          · rw [hport.strchr_none hc2, if_neg (by simp), if_neg (by simp [hnil, hc2])]
            have hlow : p + host.length < min (p + (host ++ 58 :: port).length + 1)
                (u + (text "http:/").length + rest.length) := by
              rw [List.length_append, List.length_cons] at *
              omega
            change some (cstr _ _, cstr _ _, cstr _ _) = some (_, _, _)
            rw [hhost.cstr, hport.cstr, (hloc.set (.inl hlow)).cstr]
      · rw [hauth.strchr_none hc, splitPort, if_pos hc]
        change some (cstr _ _, _, cstr _ _) = some (_, _, _)
        rw [hauth.cstr, hloc.cstr]
        rfl

/-- On the strings, `parse_reqline` is `reqline`. -/
theorem parseReqline_strings (req : CStr) :
    (parseReqline req).map Uri.strings = reqline (cstr req 0) := by
  unfold parseReqline reqline
  have h0 := isStr_cstr req 0
  cases ht : token (text " ") (cstr req 0) with
  | none =>
    rw [strtokR_none h0 ht]
    rfl
  | some r =>
  obtain ⟨tok, s⟩ := r
  obtain ⟨b, p, heq, htok, hs, -, -, -⟩ := strtokR_some h0 ht
  rw [heq]
  dsimp only
  rw [htok.cstr]
  split
  · rfl
  cases ht : token (text " ") s with
  | none =>
    rw [strtokR_none hs ht]
    rfl
  | some r =>
  obtain ⟨uri, s⟩ := r
  obtain ⟨b, u, heq, huri, hs, -, hu, -⟩ := strtokR_some hs ht
  rw [heq]
  dsimp only
  -- what is behind the URI starts behind it, or the line ends with it
  have hbehind : u + uri.length ≤ min (u + uri.length + 1) (_ + _) :=
    Nat.le_min.mpr ⟨Nat.le_succ _, hu⟩
  cases ht : token (text " ") s with
  | none =>
    rw [strtokR_none hs ht]
    rfl
  | some r =>
  obtain ⟨ver, s⟩ := r
  obtain ⟨b, v, heq, hver, hs, hv, -, hframe⟩ := strtokR_some hs ht
  have huri := hframe _ _ huri hbehind
  rw [heq]
  dsimp only
  rw [hver.cstr]
  split
  · rfl
  cases ht : token (text " ") s with
  | none =>
    rw [strtokR_none hs ht]
    dsimp only
    rw [strlen, huri.cstr]
    exact uriParse_strings huri
  | some r =>
  obtain ⟨tok, s⟩ := r
  obtain ⟨b, w, heq, htok, -, -, -, hframe⟩ := strtokR_some hs ht
  rw [heq]
  dsimp only
  rw [htok.cstr]
  split
  · rfl
  have huri := hframe _ _ huri (by omega)
  rw [strlen, huri.cstr]
  exact uriParse_strings huri

end Csapp.Proxy
