import Mathlib
import Csapp.Proxy.Socket
import Csapp.Proxy.ReqlineShape
import Csapp.Proxy.Request
import Csapp.Proxy.Response
import Csapp.ProxyCache.Contents

/-!
# A connection

`handle_connection` of `proxy.c`. It calls the cache twice and holds no lock in
between, so other connections may go on there: the call is cut into what comes
before the first miss and what comes after it, and a run takes the halves of any
number of connections in any order.

The cache knows an object by host and location. The port is not part of its name,
so what a request is answered with may have come from another port.
-/

namespace Csapp.Proxy

open ProxyCache

/-- `MAX_CACHE_SIZE` -/
def maxCacheSize : Nat := 1049000

/-- What a request asks for. -/
structure Target where
  host : CStr
  port : CStr
  loc : CStr
  deriving DecidableEq

/-- What a connection meets: the answers of the system on the way to the origin,
the client's header lines, the stream to the origin, and what comes from it. -/
structure Peers (α : Type) where
  getaddrinfo : CStr → CStr → Except Int (List α)
  socket : α → Int
  connect : α → Int
  fdopen : Int → Bool
  lines : List CStr
  ok : Nat → Bool
  junk : Nat → UInt8
  buflen : Nat
  chunks : List (Chunk buflen × Int)
  last : Last

/-- What the client gets. -/
inductive Reply
  /-- `http_response_self` -/
  | refused (code : Nat)
  | cached (bytes : CStr)
  | relayed (r : Relay)

/-- How the first half ends. -/
inductive First
  | refused (code : Nat)
  | cached (t : Target) (bytes : CStr)
  | missed (t : Target)

section

variable {α : Type}

/-- `connect_openwb`: the result, and whether `*conn` is not `NULL`. -/
def connectOpenwb (fuel : Nat) (w : Peers α) (host port : CStr) : Option (Int × Bool) :=
  match wrapSocketOpen w.socket w.connect fuel (w.getaddrinfo host port) with
  | none => none
  | some (fd, _) => if fd < 0 then some (fd + 1, false) else some (0, w.fdopen fd)

/-- Up to `cache_get`; `request` is the buffer of the first `getline`, unless that
returns nothing. -/
def handleFirst (fuel : Nat) (request : Option CStr) (c : Cache) : Option (Cache × First) :=
  match request with
  | none => some (c, .refused 400)
  | some buf =>
    match parseReqline buf with
    | none => some (c, .refused 400)
    | some u =>
      let (host, port, loc) := u.strings
      match cacheGet fuel c host loc u.buf u.buf.length with
      | none => none
      | some (c, true, buf, buflen) => some (c, .cached ⟨host, port, loc⟩ (buf.take buflen))
      | some (c, false, _, _) => some (c, .missed ⟨host, port, loc⟩)

/-- From `connect_openwb` on; `p` is the address that `malloc` returns for an entry. -/
def handleRest (fuel : Nat) (w : Peers α) (p : Ptr) (t : Target) (c : Cache) :
    Option (Cache × Reply) :=
  match connectOpenwb fuel w t.host t.port with
  | none => none
  | some (ret, client) =>
    if ret ≠ 0 then some (c, .refused 400)
    else if ¬client then some (c, .refused 502)
    else
      match forwardRequest w.ok t.host t.loc w.lines with
      | none => some (c, .refused 502)
      | some _ =>
        let r := forwardResponse w.junk w.chunks w.last
        match r.put with
        | none => some (c, .relayed r)
        | some data => (cachePut fuel c p t.host t.loc data).map fun c => (c, .relayed r)

/-- `handle_connection` -/
def handleConnection (fuel : Nat) (request : Option CStr) (w : Peers α) (p : Ptr) (c : Cache) :
    Option (Cache × Reply) :=
  match handleFirst fuel request c with
  | none => none
  | some (c, .refused code) => some (c, .refused code)
  | some (c, .cached _ bytes) => some (c, .cached bytes)
  | some (c, .missed t) => handleRest fuel w p t c

end

/-! ## Runs -/

/-- The cache and the connections past a miss; what has been relayed completely and
what has been answered from the cache, each with its target; and the port that
the entry of a host and a location came from. -/
structure Sys where
  cache : Cache
  flight : List Target
  relayed : List (Target × CStr)
  served : List (Target × CStr)
  origin : CStr → CStr → CStr

/-- No connection yet. -/
def Sys.init : Sys := ⟨cacheInit maxCacheSize, [], [], [], fun _ _ => []⟩

/-- The origin ended its response and all of it was sent on. -/
def Peers.Whole {α : Type} (w : Peers α) : Prop := w.last = .eof ∧ ∀ c ∈ w.chunks, Sent c

instance {α : Type} (w : Peers α) : Decidable w.Whole := inferInstanceAs (Decidable (_ ∧ _))

/-- What is known to be relayed after a relay. -/
def record {α : Type} (w : Peers α) (t : Target) (relayed : List (Target × CStr)) :
    List (Target × CStr) :=
  if w.Whole then (t, received w.chunks) :: relayed else relayed

/-- A step of some connection; `ok` says which requests may come in which state. -/
inductive Step (ok : Sys → Target → Prop) : Sys → Sys → Prop
  | refused {s : Sys} {fuel : Nat} {request : Option CStr} {c : Cache} {code : Nat} :
      handleFirst fuel request s.cache = some (c, .refused code) → Step ok s { s with cache := c }
  | cached {s : Sys} {fuel : Nat} {request : Option CStr} {c : Cache} {t : Target} {bytes : CStr} :
      ok s t → handleFirst fuel request s.cache = some (c, .cached t bytes) →
      Step ok s { s with cache := c, served := (t, bytes) :: s.served }
  | missed {s : Sys} {fuel : Nat} {request : Option CStr} {c : Cache} {t : Target} :
      ok s t → handleFirst fuel request s.cache = some (c, .missed t) →
      Step ok s { s with cache := c, flight := t :: s.flight }
  | failed {s : Sys} {α : Type} {fuel : Nat} {w : Peers α} {p : Ptr} {t : Target} {c : Cache}
      {code : Nat} : t ∈ s.flight → handleRest fuel w p t s.cache = some (c, .refused code) →
      Step ok s { s with cache := c, flight := s.flight.erase t }
  /-- Nothing is put, or the name is there already. -/
  | kept {s : Sys} {α : Type} {fuel : Nat} {w : Peers α} {p : Ptr} {t : Target} {c : Cache}
      {r : Relay} : t ∈ s.flight → s.cache.live p = false →
      handleRest fuel w p t s.cache = some (c, .relayed r) →
      r.put = none ∨ Resident s.cache t.host t.loc →
      Step ok s { s with
        cache := c, flight := s.flight.erase t, relayed := record w t s.relayed }
  | stored {s : Sys} {α : Type} {fuel : Nat} {w : Peers α} {p : Ptr} {t : Target} {c : Cache}
      {r : Relay} : t ∈ s.flight → s.cache.live p = false →
      handleRest fuel w p t s.cache = some (c, .relayed r) →
      r.put ≠ none → ¬Resident s.cache t.host t.loc →
      Step ok s { s with
        cache := c, flight := s.flight.erase t, relayed := record w t s.relayed
        origin := fun h l => if h = t.host ∧ l = t.loc then t.port else s.origin h l }

/-- Runs whose fetches from a server all meet `ok`. -/
inductive Run (ok : Sys → Target → Prop) : Sys → Prop
  | init : Run ok Sys.init
  | step {s s' : Sys} : Run ok s → Step ok s s' → Run ok s'

/-- If host and location are in the cache, they came from the port of the request. -/
def SamePort (s : Sys) (t : Target) : Prop :=
  Resident s.cache t.host t.loc → s.origin t.host t.loc = t.port

/-! ## The halves -/

/-- The target of a request has no slash in its host. -/
theorem parseReqline_host {buf : CStr} {u : Uri} (h : parseReqline buf = some u) :
    47 ∉ u.strings.1 := by
  have hs := parseReqline_strings buf
  rw [h, Option.map_some] at hs
  obtain ⟨S, hS, -, hparts⟩ := reqline_some hs.symm
  rw [← hparts]
  exact fun hm => (hS.host 47 hm).2.1 rfl

/-- The first half asks the cache, or does nothing. -/
theorem handleFirst_cases {fuel : Nat} {request : Option CStr} {c c' : Cache} {f : First}
    (h : handleFirst fuel request c = some (c', f)) :
    (c' = c ∧ f = .refused 400) ∨ ∃ (t : Target) (buf buf' : CStr) (buflen : Nat) (hit : Bool),
      47 ∉ t.host ∧ cacheGet fuel c t.host t.loc buf buf.length = some (c', hit, buf', buflen) ∧
      f = if hit then .cached t (buf'.take buflen) else .missed t := by
  unfold handleFirst at h
  cases request with
  | none =>
    obtain ⟨rfl, rfl⟩ := Prod.mk.inj (Option.some.inj h)
    exact .inl ⟨rfl, rfl⟩
  | some buf =>
    dsimp only at h
    cases hu : parseReqline buf with
    | none =>
      rw [hu] at h
      obtain ⟨rfl, rfl⟩ := Prod.mk.inj (Option.some.inj h)
      exact .inl ⟨rfl, rfl⟩
    | some u =>
      have hhost := parseReqline_host hu
      rw [hu] at h
      dsimp only at h
      cases hg : cacheGet fuel c u.strings.1 u.strings.2.2 u.buf u.buf.length with
      | none =>
        rw [hg] at h
        cases h
      | some r =>
        obtain ⟨c₁, hit, buf', buflen⟩ := r
        rw [hg] at h
        refine .inr ⟨⟨u.strings.1, u.strings.2.1, u.strings.2.2⟩, u.buf, buf', buflen, hit, hhost, ?_⟩
        cases hit with
        | true =>
          obtain ⟨rfl, rfl⟩ := Prod.mk.inj (Option.some.inj h)
          exact ⟨hg, rfl⟩
        | false =>
          obtain ⟨rfl, rfl⟩ := Prod.mk.inj (Option.some.inj h)
          exact ⟨hg, rfl⟩

/-- The second half puts the response, if it is complete, or leaves the cache alone. -/
theorem handleRest_cases {α : Type} {fuel : Nat} {w : Peers α} {p : Ptr} {t : Target}
    {c c' : Cache} {reply : Reply} (h : handleRest fuel w p t c = some (c', reply)) :
    c' = c ∧ (∃ code, reply = .refused code) ∨
    c' = c ∧ (∃ r, reply = .relayed r ∧ r.put = none) ∨
    ∃ r, reply = .relayed r ∧ r.put = some (received w.chunks) ∧ w.Whole ∧
      (received w.chunks).length ≤ maxObjectSize ∧
      cachePut fuel c p t.host t.loc (received w.chunks) = some c' := by
  unfold handleRest at h
  cases hc : connectOpenwb fuel w t.host t.port with
  | none =>
    rw [hc] at h
    cases h
  | some q =>
  obtain ⟨ret, client⟩ := q
  rw [hc] at h
  dsimp only at h
  split at h
  · obtain ⟨rfl, rfl⟩ := Prod.mk.inj (Option.some.inj h)
    exact .inl ⟨rfl, _, rfl⟩
  split at h
  · obtain ⟨rfl, rfl⟩ := Prod.mk.inj (Option.some.inj h)
    exact .inl ⟨rfl, _, rfl⟩
  cases hreq : forwardRequest w.ok t.host t.loc w.lines with
  | none =>
    rw [hreq] at h
    obtain ⟨rfl, rfl⟩ := Prod.mk.inj (Option.some.inj h)
    exact .inl ⟨rfl, _, rfl⟩
  | some out =>
  rw [hreq] at h
  dsimp only at h
  have hput := forwardResponse_put w.junk w.chunks w.last
  by_cases hcomplete : Complete w.chunks w.last
  · rw [if_pos hcomplete] at hput
    rw [hput] at h
    obtain ⟨c₁, hc₁, he⟩ := Option.map_eq_some_iff.mp h
    obtain ⟨rfl, rfl⟩ := Prod.mk.inj he
    exact .inr (.inr ⟨_, rfl, hput, ⟨hcomplete.1, hcomplete.2.1⟩, hcomplete.2.2, hc₁⟩)
  · rw [if_neg hcomplete] at hput
    rw [hput] at h
    obtain ⟨rfl, rfl⟩ := Prod.mk.inj (Option.some.inj h)
    exact .inr (.inl ⟨rfl, _, rfl, hput⟩)

theorem handleRest_ne_cached {α : Type} {fuel : Nat} {w : Peers α} {p : Ptr} {t : Target}
    {c c' : Cache} {reply : Reply} (h : handleRest fuel w p t c = some (c', reply))
    (bytes : CStr) : reply ≠ .cached bytes := by
  intro hr
  subst hr
  rcases handleRest_cases h with ⟨-, _, he⟩ | ⟨-, _, he, -⟩ | ⟨_, he, -⟩
  · cases he
  · cases he
  · cases he

/-- A miss leaves the cache alone. -/
theorem handleFirst_missed {fuel : Nat} {request : Option CStr} {c c' : Cache} {t : Target}
    (h : handleFirst fuel request c = some (c', .missed t)) : c' = c := by
  rcases handleFirst_cases h with ⟨-, hf⟩ | ⟨t', buf, buf', n, hit, -, hc, hf⟩
  · cases hf
  · cases hit with
    | true => cases hf
    | false =>
      unfold cacheGet at hc
      split at hc
      · cases hc
      · split at hc
        · cases hc
        · exact (Prod.mk.inj (Option.some.inj hc)).1.symm

/-- The second half is a step of a run in which the connection is in flight. -/
theorem Run.rest {ok : Sys → Target → Prop} {s : Sys} {α : Type} {fuel : Nat} {w : Peers α}
    {p : Ptr} {t : Target} {c : Cache} {reply : Reply} (h : Run ok s) (ht : t ∈ s.flight)
    (hp : s.cache.live p = false) (hc : handleRest fuel w p t s.cache = some (c, reply)) :
    ∃ s', Run ok s' ∧ s'.cache = c ∧ s'.served = s.served := by
  rcases handleRest_cases hc with ⟨-, code, rfl⟩ | ⟨-, r, rfl, hput⟩ | ⟨r, rfl, hput, -⟩
  · exact ⟨_, h.step (.failed ht hc), rfl, rfl⟩
  · exact ⟨_, h.step (.kept ht hp hc (.inl hput)), rfl, rfl⟩
  · by_cases hr : Resident s.cache t.host t.loc
    · exact ⟨_, h.step (.kept ht hp hc (.inr hr)), rfl, rfl⟩
    · exact ⟨_, h.step (.stored ht hp hc (by rw [hput]; exact Option.some_ne_none _) hr), rfl, rfl⟩

/-- A call of `handle_connection` is a run's next step, or two. -/
theorem handleConnection_run {α : Type} {fuel : Nat} {request : Option CStr} {w : Peers α}
    {p : Ptr} {s : Sys} {c : Cache} {reply : Reply} (h : Run (fun _ _ => True) s)
    (hp : s.cache.live p = false)
    (hc : handleConnection fuel request w p s.cache = some (c, reply)) :
    ∃ s', Run (fun _ _ => True) s' ∧ s'.cache = c ∧
      ∀ bytes, reply = .cached bytes → ∃ t, s'.served = (t, bytes) :: s.served := by
  unfold handleConnection at hc
  cases hf : handleFirst fuel request s.cache with
  | none =>
    rw [hf] at hc
    cases hc
  | some q =>
  obtain ⟨c₁, f⟩ := q
  rw [hf] at hc
  cases f with
  | refused code =>
    obtain ⟨rfl, rfl⟩ := Prod.mk.inj (Option.some.inj hc)
    exact ⟨_, h.step (.refused hf), rfl, fun _ hr => nomatch hr⟩
  | cached t bytes =>
    obtain ⟨rfl, rfl⟩ := Prod.mk.inj (Option.some.inj hc)
    exact ⟨_, h.step (.cached trivial hf), rfl, fun b hr => ⟨t, by rw [Reply.cached.inj hr]⟩⟩
  | missed t =>
    obtain rfl := handleFirst_missed hf
    have hrun := h.step (.missed trivial hf)
    obtain ⟨s', hs', hcache, -⟩ := hrun.rest List.mem_cons_self hp hc
    exact ⟨s', hs', hcache, fun bytes hr => absurd hr (handleRest_ne_cached hc bytes)⟩

/-! ## What holds in every run -/

/-- A resident entry is a recorded response, from the port noted as its origin. -/
structure Inv (s : Sys) : Prop where
  entries : ∃ stored, Stored maxCacheSize s.cache stored ∧ ∀ host loc, 47 ∉ host →
    Resident s.cache host loc →
      (Target.mk host (s.origin host loc) loc, stored host loc) ∈ s.relayed
  flight : ∀ t ∈ s.flight, 47 ∉ t.host
  served : ∀ x ∈ s.served, x ∈ s.relayed

theorem Inv.init : Inv Sys.init where
  entries := ⟨fun _ _ => [], .init _, fun host loc _ hr =>
    absurd hr (not_resident_init maxCacheSize host loc)⟩
  flight _ ht := absurd ht List.not_mem_nil
  served _ hx := absurd hx List.not_mem_nil

theorem maxCacheSize_lt : maxCacheSize < 18446744073709551616 := by
  unfold maxCacheSize
  omega

/-- A get keeps the entries and answers with one of them. -/
theorem Inv.get {s : Sys} (h : Inv s) {fuel n n' : Nat} {host loc buf buf' : CStr} {c : Cache}
    {hit : Bool} (hh : 47 ∉ host)
    (hc : cacheGet fuel s.cache host loc buf n = some (c, hit, buf', n')) :
    Inv { s with cache := c } ∧ (hit = true → Resident s.cache host loc ∧
      (Target.mk host (s.origin host loc) loc, buf'.take n') ∈ s.relayed) := by
  obtain ⟨stored, hst, hrec⟩ := h.entries
  obtain ⟨⟨l, hl⟩, he⟩ := hst.entry maxCacheSize_lt
  have ha := hl.get_answer (he host loc hh) hc
  refine ⟨⟨⟨stored, .get hst hh hc, fun host' loc' hh' hr => ?_⟩, h.flight, h.served⟩,
    fun hhit => ?_⟩
  · obtain ⟨data, hd⟩ := hr
    exact hrec host' loc' hh' ⟨data, (ha.kept _ _).mp hd⟩
  · have hr := ha.found.mp hhit
    rw [ha.bytes hhit]
    exact ⟨hr, hrec host loc hh hr⟩

/-- A response that is put fits into the cache, and its put brings in no other entry. -/
theorem put_others {stored : CStr → CStr → CStr} {fuel : Nat} {c c' : Cache} {p : Ptr}
    {t : Target} {bytes : CStr} (hst : Stored maxCacheSize c stored) (hh : 47 ∉ t.host)
    (hp : c.live p = false) (hlen : bytes.length ≤ maxObjectSize)
    (hput : cachePut fuel c p t.host t.loc bytes = some c') :
    bytes.length ≤ maxCacheSize ∧ ∀ host loc, 47 ∉ host → ¬(host = t.host ∧ loc = t.loc) →
      Resident c' host loc → Resident c host loc := by
  have hfit : bytes.length ≤ maxCacheSize := by
    unfold maxCacheSize
    unfold maxObjectSize at hlen
    omega
  obtain ⟨⟨l, hl⟩, -⟩ := hst.entry maxCacheSize_lt
  have ha := hl.put_answer maxCacheSize_lt hh hp hfit hput
  exact ⟨hfit, fun host loc hh' hk hr => ha.resident hh' hk hr⟩

theorem mem_record {α : Type} {w : Peers α} {t : Target} {l : List (Target × CStr)}
    {x : Target × CStr} (hx : x ∈ l) : x ∈ record w t l := by
  unfold record
  split
  · exact List.mem_cons_of_mem _ hx
  · exact hx

/-- A step of a connection keeps the invariant, if the request finds what came
from its port. -/
theorem Inv.step {s s' : Sys} (h : Inv s) (hs : Step SamePort s s') : Inv s' := by
  cases hs with
  | refused hf =>
    rcases handleFirst_cases hf with ⟨rfl, -⟩ | ⟨t, buf, buf', n, hit, -, -, he⟩
    · exact h
    · cases hit with
      | true => cases he
      | false => cases he
  | @cached _ _ c t bytes hok hf =>
    rcases handleFirst_cases hf with ⟨-, he⟩ | ⟨t', buf, buf', n, hit, hh, hc, he⟩
    · cases he
    · cases hit with
      | false => cases he
      | true =>
        obtain ⟨rfl, rfl⟩ := First.cached.inj he
        obtain ⟨hi, hhit⟩ := h.get hh hc
        obtain ⟨hr, hm⟩ := hhit rfl
        refine ⟨hi.entries, hi.flight, fun x hx => ?_⟩
        rcases List.mem_cons.mp hx with rfl | hx
        · rw [hok hr] at hm
          exact hm
        · exact h.served x hx
  | @missed _ _ c t hok hf =>
    rcases handleFirst_cases hf with ⟨-, he⟩ | ⟨t', buf, buf', n, hit, hh, hc, he⟩
    · cases he
    · cases hit with
      | true => cases he
      | false =>
        obtain rfl := First.missed.inj he
        have hi := (h.get hh hc).1
        refine ⟨hi.entries, fun x hx => ?_, hi.served⟩
        rcases List.mem_cons.mp hx with rfl | hx
        · exact hh
        · exact h.flight x hx
  | failed ht hc =>
    rcases handleRest_cases hc with ⟨rfl, -⟩ | ⟨-, r, he, -⟩ | ⟨r, he, -⟩
    · exact ⟨h.entries, fun x hx => h.flight x (List.mem_of_mem_erase hx), h.served⟩
    · cases he
    · cases he
  | @kept α fuel w p t c r ht hp hc hr =>
    obtain ⟨stored, hst, hrec⟩ := h.entries
    have hh := h.flight t ht
    refine ⟨?_, fun x hx => h.flight x (List.mem_of_mem_erase hx),
      fun x hx => mem_record (h.served x hx)⟩
    rcases handleRest_cases hc with ⟨-, code, he⟩ | ⟨rfl, r', he, -⟩ | ⟨r', he, hput, -, hlen, hput'⟩
    · cases he
    · exact ⟨stored, hst, fun host loc hh' hres => mem_record (hrec host loc hh' hres)⟩
    · obtain rfl := Reply.relayed.inj he
      have hres : Resident s.cache t.host t.loc := hr.resolve_left fun hn => by
        rw [hput] at hn
        cases hn
      obtain ⟨hfit, hothers⟩ := put_others hst hh hp hlen hput'
      refine ⟨stored, .again hst hh hp hfit hres hput', fun host loc hh' hr' => mem_record ?_⟩
      by_cases hk : host = t.host ∧ loc = t.loc
      · rw [hk.1, hk.2]
        exact hrec _ _ hh hres
      · exact hrec host loc hh' (hothers host loc hh' hk hr')
  | @stored α fuel w p t c r ht hp hc hne hr =>
    obtain ⟨stored, hst, hrec⟩ := h.entries
    have hh := h.flight t ht
    refine ⟨?_, fun x hx => h.flight x (List.mem_of_mem_erase hx),
      fun x hx => mem_record (h.served x hx)⟩
    rcases handleRest_cases hc with ⟨-, code, he⟩ | ⟨-, r', he, hn⟩ |
      ⟨r', he, hput, hwhole, hlen, hput'⟩
    · cases he
    · exact absurd (Reply.relayed.inj he ▸ hn) hne
    · obtain ⟨hfit, hothers⟩ := put_others hst hh hp hlen hput'
      refine ⟨_, .fresh hst hh hp hfit hr hput', fun host loc hh' hr' => ?_⟩
      dsimp only
      by_cases hk : host = t.host ∧ loc = t.loc
      · rw [if_pos hk, if_pos hk, hk.1, hk.2]
        unfold record
        rw [if_pos hwhole]
        exact List.mem_cons_self
      · rw [if_neg hk, if_neg hk]
        exact mem_record (hrec host loc hh' (hothers host loc hh' hk hr'))

/-- Where every request finds, if anything, what came from its own port, it is
answered from the cache with a response that was relayed completely from its
host, port and location. -/
theorem served_relayed {s : Sys} (h : Run SamePort s) : ∀ x ∈ s.served, x ∈ s.relayed := by
  have hi : Inv s := by
    induction h with
    | init => exact Inv.init
    | step _ hs ih => exact ih.step hs
  exact hi.served

/-! ## Two requests -/

/-- An origin that sends one byte. -/
def oneByte : Peers Unit where
  getaddrinfo _ _ := .ok [()]
  socket _ := 3
  connect _ := 0
  fdopen _ := true
  lines := []
  ok _ := true
  junk _ := 0
  buflen := 1
  chunks := [(⟨[97], by decide, by decide, by decide⟩, 1)]
  last := .eof

/-- One host on a port. -/
def onPort (port : String) : Target := ⟨text "h", text port, []⟩

/-- After a request for port 80 both ports are answered from the cache. -/
theorem run_one {ok : Sys → Target → Prop} (hok : ok Sys.init (onPort "80")) :
    ∃ s, Run ok s ∧ s.served = [] ∧ s.relayed = [(onPort "80", [97])] ∧
      s.origin (text "h") [] = text "80" ∧
      (∃ c, handleFirst 3 (some (text "GET http://h:80/ HTTP/1.0\r\n")) s.cache =
        some (c, .cached (onPort "80") [97])) ∧
      ∃ c, handleFirst 3 (some (text "GET http://h:81/ HTTP/1.0\r\n")) s.cache =
        some (c, .cached (onPort "81") [97]) := by
  have hfirst : handleFirst 1 (some (text "GET http://h:80/ HTTP/1.0\r\n")) Sys.init.cache =
      some (Sys.init.cache, .missed (onPort "80")) := rfl
  have hrest : handleRest 3 oneByte 1 (onPort "80") Sys.init.cache = some (_, .relayed _) := rfl
  have hmiss := Run.init.step (.missed hok hfirst)
  have hrun := hmiss.step (.stored List.mem_cons_self rfl hrest (by decide)
    (not_resident_init maxCacheSize _ _))
  exact ⟨_, hrun, rfl, rfl, rfl, ⟨_, rfl⟩, _, rfl⟩

/-- The second request for the port that the response came from. -/
theorem served_relayed_twice : ∃ s, Run SamePort s ∧ (onPort "80", [97]) ∈ s.served ∧
    (onPort "80", [97]) ∈ s.relayed := by
  obtain ⟨s, hrun, -, -, horigin, ⟨c, hc⟩, -⟩ : ∃ s, Run SamePort s ∧ _ :=
    run_one fun hr => absurd hr (not_resident_init maxCacheSize _ _)
  have hrun := hrun.step (.cached (fun _ => horigin) hc)
  exact ⟨_, hrun, List.mem_cons_self, served_relayed hrun _ List.mem_cons_self⟩

/-- The second request for another port. -/
theorem served_other_port :
    ¬∀ s, Run (fun _ _ => True) s → ∀ x ∈ s.served, x ∈ s.relayed := by
  intro h
  obtain ⟨s, hrun, -, hrel, -, -, c, hc⟩ : ∃ s, Run (fun _ _ => True) s ∧ _ := run_one trivial
  have hmem := h _ (hrun.step (.cached trivial hc)) _ List.mem_cons_self
  dsimp only at hmem
  rw [hrel, List.mem_singleton] at hmem
  have hport : text "81" = text "80" := congrArg (fun x => x.1.port) hmem
  exact absurd hport (by decide)

end Csapp.Proxy
