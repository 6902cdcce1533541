import Mathlib
import Csapp.Proxy.Reqline

/-!
# Which request lines are accepted

A line that `parse_reqline` accepts has the shape of a request line, with some
freedom: blanks in front, any number of slashes behind `http:`, an empty host
before a port, anything behind the digit of the version. The parts of such a
line are the ones that come back, so the parse is right exactly on the lines
that make no use of that freedom.
-/

namespace Csapp.Proxy

/-- The pieces of a request line. -/
structure Shape where
  lead : CStr
  gap : CStr
  slashes : CStr
  host : CStr
  port : Option CStr
  path : Option CStr
  gap' : CStr
  version : CStr
  tail : CStr

/-- A piece that may be missing, behind its mark. -/
def marked (c : UInt8) : Option CStr → CStr
  | none => []
  | some s => c :: s

namespace Shape

variable (S : Shape)

/-- Host and port. -/
def authority : CStr := S.host ++ marked 58 S.port

/-- The URI. -/
def uri : CStr := text "http:/" ++ (S.slashes ++ (S.authority ++ marked 47 S.path))

/-- The request line. -/
def line : CStr :=
  S.lead ++ (text "GET" ++ (S.gap ++ (S.uri ++ (S.gap' ++ (S.version ++ S.tail)))))

/-- What `parse_reqline` is to find in it. -/
def parts : CStr × CStr × CStr := (S.host, S.port.getD (text "80"), S.path.getD [])

/-- The shape of an accepted line. Behind the word that starts with the version
there is at most one word, the line ending. -/
structure Accepted (S : Shape) : Prop where
  lead : ∀ c ∈ S.lead, c = 32
  gap : S.gap ≠ [] ∧ ∀ c ∈ S.gap, c = 32
  slashes : ∀ c ∈ S.slashes, c = 47
  host : ∀ c ∈ S.host, c ≠ 32 ∧ c ≠ 47 ∧ c ≠ 58
  port : ∀ port ∈ S.port, port ≠ [] ∧ ∀ c ∈ port, c ≠ 32 ∧ c ≠ 47 ∧ c ≠ 58
  authority : S.host = [] → S.port ≠ none
  path : ∀ loc ∈ S.path, 32 ∉ loc
  gap' : S.gap' ≠ [] ∧ ∀ c ∈ S.gap', c = 32
  version : S.version = text "HTTP/1.1" ∨ S.version = text "HTTP/1.0"
  tail : ∀ tok rest, token (text " ") (S.tail.dropWhile (· ≠ 32)).tail = some (tok, rest) →
    tok = text "\r\n"

/-- Nothing but the line ending, after blanks. -/
def Ending (tail : CStr) : Prop := ∃ blanks, (∀ c ∈ blanks, c = 32) ∧ tail = blanks ++ text "\r\n"

/-- `GET`, blanks, `http://HOST[:PORT][/LOC]`, blanks, the version and the line
ending. -/
structure WellFormed (S : Shape) : Prop extends Accepted S where
  noLead : S.lead = []
  two : S.slashes = [47]
  named : S.host ≠ []
  ending : Ending S.tail

end Shape

/-- The line is a well-formed request line with these parts. -/
def IsReqline (line : CStr) (parts : CStr × CStr × CStr) : Prop :=
  ∃ S : Shape, S.WellFormed ∧ S.line = line ∧ S.parts = parts

/-! ## Pieces without blanks or slashes -/

theorem tokens_space {gap tok x : CStr} (hg : ∀ c ∈ gap, c = 32) (hne : tok ≠ [])
    (ht : 32 ∉ tok) (hx : ∀ c, x.head? = some c → c = 32) : Tokens (text " ") gap tok x where
  skip c hc := List.mem_singleton.mpr (hg c hc)
  nonempty := hne
  take c hc hm := by
    have he : c = 32 := List.mem_singleton.mp hm
    exact ht (he ▸ hc)
  stop c hc := List.mem_singleton.mpr (hx c hc)

theorem marked_mem {c d : UInt8} {s : Option CStr} (h : d ∈ marked c s) :
    d = c ∨ ∃ t ∈ s, d ∈ t := by
  cases s with
  | none => cases h
  | some t => exact (List.mem_cons.mp h).imp id fun h => ⟨t, rfl, h⟩

theorem marked_head {c d : UInt8} {s : Option CStr} (h : (marked c s).head? = some d) : d = c := by
  cases s with
  | none => cases h
  | some t => exact (Option.some.inj h).symm

namespace Shape.Accepted

variable {S : Shape} (h : S.Accepted)
include h

theorem authority_mem {c : UInt8} (hc : c ∈ S.authority) : c ≠ 32 ∧ c ≠ 47 := by
  rcases List.mem_append.mp hc with hc | hc
  · exact ⟨(h.host c hc).1, (h.host c hc).2.1⟩
  · rcases marked_mem hc with rfl | ⟨port, hp, hc⟩
    · decide
    · exact ⟨((h.port port hp).2 c hc).1, ((h.port port hp).2 c hc).2.1⟩

theorem authority_ne : S.authority ≠ [] := by
  intro hnil
  obtain ⟨hh, hp⟩ := List.append_eq_nil_iff.mp hnil
  cases hport : S.port with
  | none => exact h.authority hh hport
  | some port =>
    rw [hport] at hp
    cases hp

theorem uri_mem {c : UInt8} (hc : c ∈ S.uri) : c ≠ 32 := by
  have hpre : 32 ∉ text "http:/" := by decide
  rcases List.mem_append.mp hc with hc | hc
  · exact fun he => hpre (he ▸ hc)
  rcases List.mem_append.mp hc with hc | hc
  · rw [h.slashes c hc]
    decide
  rcases List.mem_append.mp hc with hc | hc
  · exact (h.authority_mem hc).1
  · rcases marked_mem hc with rfl | ⟨loc, hl, hc⟩
    · decide
    · exact fun he => h.path loc hl (he ▸ hc)

/-- The authority between the slashes and the path. -/
theorem authority_tokens : Tokens (text "/") S.slashes S.authority (marked 47 S.path) where
  skip c hc := by rw [h.slashes c hc]; decide
  nonempty := h.authority_ne
  take c hc hm := (h.authority_mem hc).2 (List.mem_singleton.mp hm)
  stop c hc := by rw [marked_head hc]; decide

theorem splitPort_authority : splitPort S.authority = some (S.host, S.port.getD (text "80")) := by
  have hhost : 58 ∉ S.host := fun hm => (h.host 58 hm).2.2 rfl
  unfold splitPort Shape.authority
  cases hp : S.port with
  | none =>
    rw [marked, List.append_nil, if_pos hhost]
    rfl
  | some port =>
    obtain ⟨hne, hport⟩ := h.port port hp
    have hs := span_eq (p := fun c => decide (c ≠ 58)) (a := S.host) (x := 58 :: port)
      (fun c hc => decide_eq_true fun he => hhost (he ▸ hc)) (by simp)
    have hcolon : 58 ∉ port := fun hm => (hport 58 hm).2.2 rfl
    rw [marked, if_neg (by simp), hs.1, hs.2, List.tail_cons, if_neg (by simp [hne, hcolon])]
    rfl

theorem uriParts_uri : uriParts S.uri = some S.parts := by
  have hpre : startswith S.uri (text "http:/") = true := startswith_iff.mpr (List.prefix_append _ _)
  have hdrop : S.uri.drop 6 = S.slashes ++ (S.authority ++ marked 47 S.path) := rfl
  unfold uriParts
  rw [if_neg (by simp [hpre]), hdrop, h.authority_tokens.token]
  dsimp only
  rw [h.splitPort_authority]
  cases hp : S.path with
  | none => simp [Shape.parts, hp, marked]
  | some loc => simp [Shape.parts, hp, marked]

/-- The word that starts with the version. -/
theorem version_tokens {gap : CStr} (hg : ∀ c ∈ gap, c = 32) :
    Tokens (text " ") gap (S.version ++ S.tail.takeWhile (· ≠ 32)) (S.tail.dropWhile (· ≠ 32)) := by
  refine tokens_space hg ?_ ?_ fun c hc => by simpa using head?_dropWhile hc
  · rcases h.version with hv | hv <;> rw [hv] <;> exact List.cons_ne_nil _ _
  · have h1 : 32 ∉ text "HTTP/1.1" := by decide
    have h0 : 32 ∉ text "HTTP/1.0" := by decide
    intro hm
    rcases List.mem_append.mp hm with hm | hm
    · rcases h.version with hv | hv
      · exact h1 (hv ▸ hm)
      · exact h0 (hv ▸ hm)
    · simpa using List.mem_takeWhile_imp hm

theorem version_prefix (x : CStr) : startswith (S.version ++ x) (text "HTTP/1.1") ∨
    startswith (S.version ++ x) (text "HTTP/1.0") := by
  rcases h.version with hv | hv
  · exact .inl (hv ▸ startswith_iff.mpr (List.prefix_append _ _))
  · exact .inr (hv ▸ startswith_iff.mpr (List.prefix_append _ _))

/-- A line of the shape is accepted, with its parts. -/
theorem reqline_line : reqline S.line = some S.parts := by
  obtain ⟨b₁, gap, hgap⟩ := List.exists_cons_of_ne_nil h.gap.1
  obtain ⟨b₂, gap', hgap'⟩ := List.exists_cons_of_ne_nil h.gap'.1
  have hg : ∀ c ∈ gap, c = 32 := fun c hc => h.gap.2 c (hgap ▸ List.mem_cons_of_mem _ hc)
  have hg' : ∀ c ∈ gap', c = 32 := fun c hc => h.gap'.2 c (hgap' ▸ List.mem_cons_of_mem _ hc)
  have hb₁ : b₁ = 32 := h.gap.2 b₁ (hgap ▸ List.mem_cons_self)
  have hb₂ : b₂ = 32 := h.gap'.2 b₂ (hgap' ▸ List.mem_cons_self)
  have hget : Tokens (text " ") S.lead (text "GET")
      (S.gap ++ (S.uri ++ (S.gap' ++ (S.version ++ S.tail)))) := by
    refine tokens_space h.lead (List.cons_ne_nil _ _) (by decide) fun c hc => ?_
    rw [hgap] at hc
    exact (Option.some.inj hc).symm.trans hb₁
  have huri : Tokens (text " ") gap S.uri (S.gap' ++ (S.version ++ S.tail)) := by
    refine tokens_space hg (List.cons_ne_nil _ _) (fun hm => h.uri_mem hm rfl) fun c hc => ?_
    rw [hgap'] at hc
    exact (Option.some.inj hc).symm.trans hb₂
  have hver := (h.version_tokens hg').token
  rw [List.append_assoc, List.takeWhile_append_dropWhile] at hver
  have hpre := h.version_prefix (S.tail.takeWhile (· ≠ 32))
  unfold reqline Shape.line
  rw [hget.token, hgap, List.cons_append, List.tail_cons]
  dsimp only
  rw [if_neg (by simp), huri.token, hgap', List.cons_append, List.tail_cons]
  dsimp only
  rw [hver]
  dsimp only
  rw [if_neg fun hn => hpre.elim hn.1 hn.2]
  cases ht : token (text " ") (S.tail.dropWhile (· ≠ 32)).tail with
  | none => exact h.uriParts_uri
  | some r =>
    obtain ⟨tok, rest⟩ := r
    dsimp only
    rw [if_neg (by rw [h.tail tok rest ht]; simp)]
    exact h.uriParts_uri

end Shape.Accepted

/-! ## An accepted line has the shape -/

/-- Behind a token that another one follows there is a delimiter. -/
theorem Tokens.next {gap tok x delim l : CStr} {d : UInt8} (h : Tokens [d] gap tok x)
    (ht : token delim x.tail ≠ none) (hl : l = x.tail) : x = d :: l := by
  cases x with
  | nil => exact absurd (token_none.mpr (by simp)) ht
  | cons c x =>
    rw [List.mem_singleton.mp (h.stop c rfl), hl]
    rfl

theorem splitPort_some {auth host port : CStr} (h : splitPort auth = some (host, port)) :
    ∃ p : Option CStr, auth = host ++ marked 58 p ∧ port = p.getD (text "80") ∧ 58 ∉ host ∧
      ∀ q ∈ p, q ≠ [] ∧ 58 ∉ q := by
  by_cases hc : 58 ∈ auth
  · obtain ⟨host', port', rfl, hh, hs⟩ := split_colon hc
    rw [hs] at h
    split at h
    · cases h
    next hp =>
      cases h
      rw [not_or] at hp
      refine ⟨some port, rfl, rfl, hh, ?_⟩
      intro q hq
      cases hq
      exact hp
  · rw [splitPort, if_pos hc] at h
    cases h
    exact ⟨none, (List.append_nil _).symm, rfl, hc, fun q hq => absurd hq (Option.not_mem_none q)⟩

/-- The URI that `uri_parse` accepts. -/
theorem uriParts_some {uri : CStr} {parts : CStr × CStr × CStr} (hb : 32 ∉ uri)
    (h : uriParts uri = some parts) :
    ∃ (slashes host : CStr) (port path : Option CStr),
      uri = text "http:/" ++ (slashes ++ ((host ++ marked 58 port) ++ marked 47 path)) ∧
      parts = (host, port.getD (text "80"), path.getD []) ∧ (∀ c ∈ slashes, c = 47) ∧
      (∀ c ∈ host, c ≠ 32 ∧ c ≠ 47 ∧ c ≠ 58) ∧
      (∀ q ∈ port, q ≠ [] ∧ ∀ c ∈ q, c ≠ 32 ∧ c ≠ 47 ∧ c ≠ 58) ∧
      (host = [] → port ≠ none) ∧ ∀ loc ∈ path, 32 ∉ loc := by
  unfold uriParts at h
  split at h
  · cases h
  next hpre =>
  rw [not_not, startswith_iff] at hpre
  obtain ⟨rest, rfl⟩ := hpre
  have hrest : (text "http:/" ++ rest).drop 6 = rest := rfl
  rw [hrest] at h
  cases ht : token (text "/") rest with
  | none =>
    rw [ht] at h
    cases h
  | some r =>
    obtain ⟨auth, loc⟩ := r
    rw [ht] at h
    obtain ⟨⟨host, port⟩, hs, rfl⟩ := Option.map_eq_some_iff.mp h
    obtain ⟨slashes, x, rfl, htok, rfl⟩ := token_some ht
    obtain ⟨q, rfl, rfl, hh, hq⟩ := splitPort_some hs
    have hslash : ∀ c ∈ host ++ marked 58 q, c ≠ 47 :=
      fun c hc he => htok.take c hc (List.mem_singleton.mpr he)
    have hblank : ∀ c ∈ host ++ marked 58 q, c ≠ 32 := fun c hc he => hb
      (List.mem_append_right _ (List.mem_append_right _ (List.mem_append_left _ (he ▸ hc))))
    obtain ⟨path, hx, hl⟩ : ∃ path, x = marked 47 path ∧ x.tail = path.getD [] := by
      cases x with
      | nil => exact ⟨none, rfl, rfl⟩
      | cons c x => exact ⟨some x, by rw [List.mem_singleton.mp (htok.stop c rfl)]; rfl, rfl⟩
    subst hx
    refine ⟨slashes, host, q, path, rfl, by rw [hl], ?_, ?_, ?_, ?_, ?_⟩
    · exact fun c hc => List.mem_singleton.mp (htok.skip c hc)
    · intro c hc
      have hm : c ∈ host ++ marked 58 q := List.mem_append_left _ hc
      exact ⟨hblank c hm, hslash c hm, fun he => hh (he ▸ hc)⟩
    · intro p hp
      cases hp
      refine ⟨(hq p rfl).1, fun c hc => ?_⟩
      have hm : c ∈ host ++ marked 58 (some p) :=
        List.mem_append_right _ (List.mem_cons_of_mem _ hc)
      exact ⟨hblank c hm, hslash c hm, fun he => (hq p rfl).2 (he ▸ hc)⟩
    · intro hnil hnone
      exact htok.nonempty (by rw [hnil, hnone]; rfl)
    · intro p hp hm
      cases hp
      exact hb (by simp [marked, hm])

/-- The words of an accepted line. -/
theorem reqline_words {s : CStr} {parts : CStr × CStr × CStr} (h : reqline s = some parts) :
    ∃ uri ver s₁ s₂ s₃, token (text " ") s = some (text "GET", s₁) ∧
      token (text " ") s₁ = some (uri, s₂) ∧ token (text " ") s₂ = some (ver, s₃) ∧
      (startswith ver (text "HTTP/1.1") ∨ startswith ver (text "HTTP/1.0")) ∧
      (∀ tok rest, token (text " ") s₃ = some (tok, rest) → tok = text "\r\n") ∧
      uriParts uri = some parts := by
  unfold reqline at h
  cases h₁ : token (text " ") s with
  | none => simp [h₁] at h
  | some r₁ =>
  obtain ⟨tok, s₁⟩ := r₁
  simp only [h₁] at h
  split at h
  · cases h
  next hget =>
  cases h₂ : token (text " ") s₁ with
  | none => simp [h₂] at h
  | some r₂ =>
  obtain ⟨uri, s₂⟩ := r₂
  simp only [h₂] at h
  cases h₃ : token (text " ") s₂ with
  | none => simp [h₃] at h
  | some r₃ =>
  obtain ⟨ver, s₃⟩ := r₃
  simp only [h₃] at h
  split at h
  · cases h
  next hver =>
  have hver : startswith ver (text "HTTP/1.1") ∨ startswith ver (text "HTTP/1.0") := by
    by_contra hn
    exact hver (not_or.mp hn)
  refine ⟨uri, ver, s₁, s₂, s₃, by rw [not_not.mp hget], h₂, h₃, hver, ?_⟩
  cases h₄ : token (text " ") s₃ with
  | none =>
    rw [h₄] at h
    exact ⟨fun _ _ he => (nomatch he), h⟩
  | some r₄ =>
    obtain ⟨tok, s₄⟩ := r₄
    simp only [h₄] at h
    split at h
    · cases h
    next hcr =>
      refine ⟨fun tok' rest he => ?_, h⟩
      cases he
      exact not_not.mp hcr

theorem reqline_some {s : CStr} {parts : CStr × CStr × CStr} (h : reqline s = some parts) :
    ∃ S : Shape, S.Accepted ∧ S.line = s ∧ S.parts = parts := by
  obtain ⟨uri, ver, s₁, s₂, s₃, h₁, h₂, h₃, hver, hend, huri⟩ := reqline_words h
  obtain ⟨lead, x₁, rfl, t₁, e₁⟩ := token_some h₁
  obtain ⟨g₁, x₂, rfl, t₂, e₂⟩ := token_some h₂
  obtain ⟨g₂, x₃, rfl, t₃, e₃⟩ := token_some h₃
  -- each word is followed by another, so by a blank
  have hx₁ : x₁ = 32 :: (g₁ ++ (uri ++ x₂)) := Tokens.next t₁ (by rw [← e₁, h₂]; simp) e₁
  have hx₂ : x₂ = 32 :: (g₂ ++ (ver ++ x₃)) := Tokens.next t₂ (by rw [← e₂, h₃]; simp) e₂
  have hblank : ∀ {g tok x : CStr}, Tokens (text " ") g tok x → ∀ c ∈ 32 :: g, c = 32 := by
    intro g tok x ht c hc
    cases hc with
    | head => rfl
    | tail _ hc => exact List.mem_singleton.mp (ht.skip c hc)
  have hn : ∀ {g tok x : CStr}, Tokens (text " ") g tok x → 32 ∉ tok :=
    fun ht hm => ht.take 32 hm (List.mem_singleton.mpr rfl)
  obtain ⟨slashes, host, port, path, hu, hparts, hs, hh, hp, ha, hl⟩ := uriParts_some (hn t₂) huri
  obtain ⟨version, trail, hvt, hv⟩ : ∃ version trail, ver = version ++ trail ∧
      (version = text "HTTP/1.1" ∨ version = text "HTTP/1.0") := by
    rcases hver with hv | hv
    · obtain ⟨trail, ht⟩ := startswith_iff.mp hv
      exact ⟨_, trail, ht.symm, .inl rfl⟩
    · obtain ⟨trail, ht⟩ := startswith_iff.mp hv
      exact ⟨_, trail, ht.symm, .inr rfl⟩
  have htrail : (trail ++ x₃).dropWhile (· ≠ 32) = x₃ := by
    have hno : 32 ∉ trail := fun hm => hn t₃ (hvt ▸ List.mem_append_right _ hm)
    refine (span_eq (fun c hc => ?_) fun c hc => ?_).2
    · simpa using fun he : c = 32 => hno (he ▸ hc)
    · have he : c = 32 := List.mem_singleton.mp (t₃.stop c hc)
      simp [he]
  refine ⟨⟨lead, 32 :: g₁, slashes, host, port, path, 32 :: g₂, version, trail ++ x₃⟩, ?_, ?_, ?_⟩
  · refine ⟨?_, ⟨List.cons_ne_nil _ _, hblank t₂⟩, hs, hh, hp, ha, hl,
      ⟨List.cons_ne_nil _ _, hblank t₃⟩, hv, ?_⟩
    · exact fun c hc => List.mem_singleton.mp (t₁.skip c hc)
    · intro tok rest ht
      rw [htrail, ← e₃] at ht
      exact hend tok rest ht
  · unfold Shape.line Shape.uri Shape.authority
    dsimp only
    rw [hx₁, hx₂, hu, hvt]
    simp only [List.append_assoc, List.cons_append]
  · exact hparts.symm

/-- Exactly the lines of the shape are accepted, with their parts. -/
theorem reqline_iff {s : CStr} {parts : CStr × CStr × CStr} :
    reqline s = some parts ↔ ∃ S : Shape, S.Accepted ∧ S.line = s ∧ S.parts = parts := by
  constructor
  · exact reqline_some
  · rintro ⟨S, hS, rfl, rfl⟩
    exact hS.reqline_line

/-! ## There is one shape to a line -/

theorem head?_append {a x : CStr} (ha : a ≠ []) {c : UInt8} (hc : (a ++ x).head? = some c) :
    c ∈ a := by
  obtain ⟨d, a, rfl⟩ := List.exists_cons_of_ne_nil ha
  cases hc
  exact List.mem_cons_self

/-- Two equal URIs have equal slashes and hosts. -/
theorem Shape.Accepted.same_uri {S S' : Shape} (h : S.Accepted) (h' : S'.Accepted)
    (he : S.uri = S'.uri) : S.slashes = S'.slashes ∧ S.host = S'.host := by
  have hs := List.append_cancel_left he
  have hstop : ∀ {T : Shape}, T.Accepted →
      ∀ c, (T.authority ++ marked 47 T.path).head? = some c → decide (c = 47) = false :=
    fun ht c hc => decide_eq_false (ht.authority_mem (head?_append ht.authority_ne hc)).2
  obtain ⟨hslash, hrest⟩ := span_unique (p := fun c => decide (c = 47)) hs
    (fun c hc => decide_eq_true (h.slashes c hc)) (fun c hc => decide_eq_true (h'.slashes c hc))
    (hstop h) (hstop h')
  have hpath : ∀ {T : Shape}, ∀ c, (marked 47 T.path).head? = some c → decide (c ≠ 47) = false :=
    fun c hc => by simp [marked_head hc]
  obtain ⟨hauth, -⟩ := span_unique (p := fun c => decide (c ≠ 47)) hrest
    (fun c hc => decide_eq_true (h.authority_mem hc).2)
    (fun c hc => decide_eq_true (h'.authority_mem hc).2) hpath hpath
  have hport : ∀ {T : Shape}, ∀ c, (marked 58 T.port).head? = some c → decide (c ≠ 58) = false :=
    fun c hc => by simp [marked_head hc]
  obtain ⟨hhost, -⟩ := span_unique (p := fun c => decide (c ≠ 58)) hauth
    (fun c hc => decide_eq_true (h.host c hc).2.2)
    (fun c hc => decide_eq_true (h'.host c hc).2.2) hport hport
  exact ⟨hslash, hhost⟩

/-- Two lines of which one is the front of the other. -/
theorem Shape.Accepted.same {S S' : Shape} (h : S.Accepted) (h' : S'.Accepted) {z : CStr}
    (he : S.line ++ z = S'.line) :
    S.lead = S'.lead ∧ S.slashes = S'.slashes ∧ S.host = S'.host ∧ S.tail ++ z = S'.tail := by
  unfold Shape.line at he
  simp only [List.append_assoc] at he
  have hblank : ∀ {g : CStr}, (∀ c ∈ g, c = 32) → ∀ c ∈ g, decide (c = 32) = true :=
    fun hg c hc => decide_eq_true (hg c hc)
  obtain ⟨hlead, he⟩ := span_unique (p := fun c => decide (c = 32)) he (hblank h.lead)
    (hblank h'.lead) (fun c hc => by cases hc; decide) (fun c hc => by cases hc; decide)
  obtain ⟨-, he⟩ := span_unique (p := fun c => decide (c = 32)) (List.append_cancel_left he)
    (hblank h.gap.2) (hblank h'.gap.2) (fun c hc => by cases hc; decide)
    (fun c hc => by cases hc; decide)
  have hgap : ∀ {T : Shape} {x : CStr}, T.Accepted →
      ∀ c, (T.gap' ++ x).head? = some c → decide (c ≠ 32) = false :=
    fun ht c hc => by simp [ht.gap'.2 c (head?_append ht.gap'.1 hc)]
  obtain ⟨huri, he⟩ := span_unique (p := fun c => decide (c ≠ 32)) he
    (fun c hc => decide_eq_true (h.uri_mem hc)) (fun c hc => decide_eq_true (h'.uri_mem hc))
    (hgap h) (hgap h')
  have hver : ∀ {T : Shape} {x : CStr}, T.Accepted →
      ∀ c, (T.version ++ x).head? = some c → decide (c = 32) = false := by
    intro T x ht c hc
    rcases ht.version with hv | hv <;> rw [hv] at hc <;> cases hc <;> decide
  obtain ⟨-, he⟩ := span_unique (p := fun c => decide (c = 32)) he (hblank h.gap'.2)
    (hblank h'.gap'.2) (hver h) (hver h')
  have hlen : ∀ {T : Shape}, T.Accepted → T.version.length = 8 := by
    intro T ht
    rcases ht.version with hv | hv <;> rw [hv] <;> rfl
  obtain ⟨hslash, hhost⟩ := h.same_uri h' huri
  exact ⟨hlead, hslash, hhost, (List.append_inj he ((hlen h).trans (hlen h').symm)).2⟩

/-! ## The two directions -/

theorem cstr_whole {b : CStr} (h : 0 ∉ b) : cstr b 0 = b :=
  IsStr.cstr ⟨[], (List.append_nil b).symm, h, fun _ hc => nomatch hc⟩

/-- The line makes use of the freedom: blanks in front, one slash or three behind
`http:`, no host before the port, something else than the line ending behind the
version, or a zero byte. -/
def Loose (line : CStr) : Prop :=
  ∃ S : Shape, S.Accepted ∧ S.line = cstr line 0 ∧
    (S.lead ≠ [] ∨ S.slashes ≠ [47] ∨ S.host = [] ∨ ¬Shape.Ending S.tail ∨ 0 ∈ line)

/-- A well-formed line is not loose in any way. -/
theorem IsReqline.not_loose {line : CStr} {parts : CStr × CStr × CStr}
    (h : IsReqline line parts) : ¬Loose line := by
  rintro ⟨S, hS, hl, hloose⟩
  obtain ⟨S', hS', rfl, -⟩ := h
  obtain ⟨z, hz, hz0⟩ : ∃ z, S'.line = S.line ++ z ∧ (0 ∈ S'.line → 0 ∈ z) := by
    obtain ⟨z, hz, hn, -⟩ := isStr_cstr S'.line 0
    rw [List.drop_zero, ← hl] at hz
    rw [← hl] at hn
    exact ⟨z, hz, fun hm => (List.mem_append.mp (hz ▸ hm)).resolve_left hn⟩
  obtain ⟨hlead, hslash, hhost, htail⟩ := hS.same hS'.toAccepted hz.symm
  obtain ⟨blanks, hb, hend⟩ := hS'.ending
  have hclean : 0 ∉ S'.line := by
    intro hm
    have hm : 0 ∈ blanks ++ text "\r\n" := hend ▸ htail ▸ List.mem_append_right _ (hz0 hm)
    rcases List.mem_append.mp hm with hm | hm
    · exact absurd (hb 0 hm) (by decide)
    · revert hm
      decide
  have hnil : z = [] := by
    have hw := cstr_whole hclean
    rw [← hl] at hw
    exact List.append_cancel_left ((List.append_nil _).trans (hw.trans hz)).symm
  rw [hnil, List.append_nil] at htail
  rcases hloose with hx | hx | hx | hx | hx
  · exact hx (hlead.trans hS'.noLead)
  · exact hx (hslash.trans hS'.two)
  · exact hS'.named (hhost ▸ hx)
  · exact hx (htail ▸ hS'.ending)
  · exact hclean hx

/-- What is accepted and not loose is well formed. -/
theorem isReqline_of_accepted {line : CStr} {parts : CStr × CStr × CStr}
    (h : reqline (cstr line 0) = some parts) (hn : ¬Loose line) : IsReqline line parts := by
  obtain ⟨S, hS, hl, hp⟩ := reqline_some h
  have hno : ∀ {P : Prop}, (P → Loose line) → ¬P := fun hx hp => hn (hx hp)
  have hlead : S.lead = [] := not_not.mp (hno fun hx => ⟨S, hS, hl, .inl hx⟩)
  have hslash : S.slashes = [47] := not_not.mp (hno fun hx => ⟨S, hS, hl, .inr (.inl hx)⟩)
  have hhost : S.host ≠ [] := hno fun hx => ⟨S, hS, hl, .inr (.inr (.inl hx))⟩
  have hend : Shape.Ending S.tail :=
    not_not.mp (hno fun hx => ⟨S, hS, hl, .inr (.inr (.inr (.inl hx)))⟩)
  have hzero : 0 ∉ line := hno fun hx => ⟨S, hS, hl, .inr (.inr (.inr (.inr hx)))⟩
  rw [cstr_whole hzero] at hl
  exact ⟨S, ⟨hS, hlead, hslash, hhost, hend⟩, hl, hp⟩

/-- A request line is parsed back to its parts. -/
theorem parseReqline_reads {host version : CStr} {port path : Option CStr}
    (hhost : host ≠ [] ∧ ∀ c ∈ host, c ≠ 0 ∧ c ≠ 32 ∧ c ≠ 47 ∧ c ≠ 58)
    (hport : ∀ q ∈ port, q ≠ [] ∧ ∀ c ∈ q, c ≠ 0 ∧ c ≠ 32 ∧ c ≠ 47 ∧ c ≠ 58)
    (hpath : ∀ loc ∈ path, ∀ c ∈ loc, c ≠ 0 ∧ c ≠ 32)
    (hversion : version = text "HTTP/1.0" ∨ version = text "HTTP/1.1") :
    ∃ u, parseReqline (text "GET http://" ++ (host ++ (marked 58 port ++ (marked 47 path ++
        (text " " ++ (version ++ text "\r\n")))))) = some u ∧
      u.strings = (host, port.getD (text "80"), path.getD []) := by
  have hacc : Shape.Accepted
      ⟨[], [32], [47], host, port, path, [32], version, text "\r\n"⟩ := by
    refine ⟨by simp, by simp, by simp, fun c hc => (hhost.2 c hc).2, fun q hq => ?_,
      fun hnil => absurd hnil hhost.1, fun loc hl hm => (hpath loc hl 32 hm).2 rfl, by simp,
      hversion.symm, fun tok rest ht => by cases ht⟩
    exact ⟨(hport q hq).1, fun c hc => ((hport q hq).2 c hc).2⟩
  have hline : text "GET http://" ++ (host ++ (marked 58 port ++ (marked 47 path ++
      (text " " ++ (version ++ text "\r\n"))))) =
      Shape.line ⟨[], [32], [47], host, port, path, [32], version, text "\r\n"⟩ := by
    unfold Shape.line Shape.uri Shape.authority
    simp [text]
  have hzero : 0 ∉ text "GET http://" ++ (host ++ (marked 58 port ++ (marked 47 path ++
      (text " " ++ (version ++ text "\r\n"))))) := by
    simp only [List.mem_append, not_or]
    refine ⟨by decide, fun hm => (hhost.2 0 hm).1 rfl, fun hm => ?_, fun hm => ?_, by decide, ?_,
      by decide⟩
    · rcases marked_mem hm with he | ⟨q, hq, hm⟩
      · exact absurd he (by decide)
      · exact ((hport q hq).2 0 hm).1 rfl
    · rcases marked_mem hm with he | ⟨loc, hl, hm⟩
      · exact absurd he (by decide)
      · exact (hpath loc hl 0 hm).1 rfl
    · rcases hversion with rfl | rfl <;> decide
  have hread := parseReqline_strings (text "GET http://" ++ (host ++ (marked 58 port ++
    (marked 47 path ++ (text " " ++ (version ++ text "\r\n"))))))
  rw [cstr_whole hzero, hline, hacc.reqline_line, Option.map_eq_some_iff] at hread
  rw [hline]
  exact hread

/-- A host, a port and a path of two steps. -/
theorem parseReqline_reads_all :
    ∃ u, parseReqline (text "GET http://" ++ (text "h" ++ (marked 58 (some (text "8")) ++
        (marked 47 (some (text "/a:b")) ++ (text " " ++ (text "HTTP/1.1" ++ text "\r\n")))))) =
          some u ∧ u.strings = (text "h", text "8", text "/a:b") :=
  parseReqline_reads (by simp [text]) (by simp [text]) (by simp [text]) (.inr rfl)

/-- What is accepted is well formed, exactly on the lines that are not loose. -/
theorem parseReqline_sound_iff (line : CStr) :
    (∀ u, parseReqline line = some u → IsReqline line u.strings) ↔ ¬Loose line := by
  have hstr := parseReqline_strings line
  constructor
  · intro h hloose
    obtain ⟨S, hS, hl, -⟩ := id hloose
    rw [← hl, hS.reqline_line, Option.map_eq_some_iff] at hstr
    obtain ⟨u, hu, -⟩ := hstr
    exact (h u hu).not_loose hloose
  · intro hn u hu
    rw [hu] at hstr
    exact isReqline_of_accepted hstr.symm hn

/-- `GET http://:80/ HTTP/1.0`: the host is empty. -/
theorem parseReqline_unsound : ¬∀ line u, parseReqline line = some u →
    IsReqline line u.strings := by
  intro h
  have hacc : Shape.Accepted
      ⟨[], [32], [47], [], some (text "80"), some [], [32], text "HTTP/1.0", text "\r\n"⟩ := by
    refine ⟨by simp, by simp, by simp, by simp, by simp [text], by simp, by simp, by simp,
      .inr rfl, fun tok rest ht => by cases ht⟩
  have hloose : Loose (text "GET http://:80/ HTTP/1.0\r\n") :=
    ⟨_, hacc, by decide, .inr (.inr (.inl rfl))⟩
  obtain ⟨S, hS, hl, -⟩ := id hloose
  have hstr := parseReqline_strings (text "GET http://:80/ HTTP/1.0\r\n")
  rw [← hl, hS.reqline_line, Option.map_eq_some_iff] at hstr
  obtain ⟨u, hu, -⟩ := hstr
  exact (h _ u hu).not_loose hloose

end Csapp.Proxy
