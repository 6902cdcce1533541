import Mathlib

/-!
# Opening a connection

`wrap_socket_open` of `proxy.c`. `getaddrinfo` answers with an error code or a
list of addresses; an address is whatever `socket` and `trial` (`connect`, or
`bind` and `listen`) decide on, each of them always in the same way.

`ai = result->ai_next` goes on to the second address whatever `ai` is, so the
loop comes no further than that: from two failures in front it never returns.
-/

namespace Csapp.Proxy

/-- The system calls of `wrap_socket_open`. -/
inductive Event (α : Type)
  | socket (ai : α)
  | trial (fd : Int) (ai : α)
  | close (fd : Int)
deriving DecidableEq

/-- The addresses that `socket` has been called for. -/
def attempts {α : Type} (log : List (Event α)) : List α :=
  log.filterMap fun
    | .socket ai => some ai
    | _ => none

section

variable {α : Type} (socket trial : α → Int)

/-- The loop of `wrap_socket_open`, standing at `ai`: what it returns and what it
has called. `none` when the fuel is used up. -/
def openLoop (result : List α) : Nat → List α → Option (Int × List (Event α))
  | 0, _ => none
  | _ + 1, [] => some (-1, [])
  | fuel + 1, ai :: _ =>
    let fd := socket ai
    if fd < 0 then
      (openLoop result fuel result.tail).map fun (ret, log) => (ret, .socket ai :: log)
    else if trial ai = 0 then some (fd, [.socket ai, .trial fd ai])
    else
      (openLoop result fuel result.tail).map fun (ret, log) =>
        (ret, .socket ai :: .trial fd ai :: .close fd :: log)

/-- `wrap_socket_open` -/
def wrapSocketOpen (fuel : Nat) (getaddrinfo : Except Int (List α)) :
    Option (Int × List (Event α)) :=
  match getaddrinfo with
  | .error _ => some (-2, [])
  | .ok result => openLoop socket trial result fuel result

/-- Both calls succeed. -/
def Works (ai : α) : Prop := 0 ≤ socket ai ∧ trial ai = 0

instance : DecidablePred (Works socket trial) := fun _ => inferInstanceAs (Decidable (_ ∧ _))

/-- The addresses are tried in the order of the list up to the first one that
works, and the descriptor is that one's. -/
def InOrder (result : List α) (out : Int × List (Event α)) : Prop :=
  match result.find? fun ai => Works socket trial ai with
  | some ai =>
    out.1 = socket ai ∧
      attempts out.2 = (result.takeWhile fun ai => ¬Works socket trial ai) ++ [ai]
  | none => out.1 = -1 ∧ attempts out.2 = result

end

section

variable {α : Type} {socket trial : α → Int} {result : List α}

/-- An address that works ends the loop. -/
theorem openLoop_works {ai : α} (rest : List α) {fuel : Nat} (h : Works socket trial ai) :
    openLoop socket trial result (fuel + 1) (ai :: rest) =
      some (socket ai, [.socket ai, .trial (socket ai) ai]) := by
  rw [openLoop, if_neg (Int.not_lt.mpr h.1), if_pos h.2]

/-- One that does not goes over to the second address of the list. -/
theorem openLoop_fails {ai : α} (result rest : List α) (fuel : Nat) (h : ¬Works socket trial ai) :
    ∃ log, attempts log = [ai] ∧ openLoop socket trial result (fuel + 1) (ai :: rest) =
      (openLoop socket trial result fuel result.tail).map fun out => (out.1, log ++ out.2) := by
  by_cases hfd : socket ai < 0
  · refine ⟨[.socket ai], rfl, ?_⟩
    rw [openLoop, if_pos hfd]
    rfl
  · have ht : trial ai ≠ 0 := fun ht => h ⟨Int.not_lt.mp hfd, ht⟩
    refine ⟨[.socket ai, .trial (socket ai) ai, .close (socket ai)], rfl, ?_⟩
    rw [openLoop, if_neg hfd, if_neg ht]
    rfl

theorem attempts_append (l₁ l₂ : List (Event α)) :
    attempts (l₁ ++ l₂) = attempts l₁ ++ attempts l₂ :=
  List.filterMap_append ..

/-- Once the second address has failed there is no way out. -/
theorem openLoop_stuck {a b : α} {l : List α} (h : ¬Works socket trial b) (fuel : Nat) :
    openLoop socket trial (a :: b :: l) fuel (b :: l) = none := by
  induction fuel with
  | zero => rfl
  | succ fuel ih =>
      obtain ⟨log, -, hl⟩ := openLoop_fails (a :: b :: l) l fuel h
      rw [hl, List.tail_cons, ih]
      rfl

/-- With two failures in front it does not return. -/
theorem openLoop_never {a b : α} {l : List α} (ha : ¬Works socket trial a)
    (hb : ¬Works socket trial b) (fuel : Nat) :
    openLoop socket trial (a :: b :: l) fuel (a :: b :: l) = none := by
  cases fuel with
  | zero => rfl
  | succ fuel =>
      obtain ⟨log, -, hl⟩ := openLoop_fails (a :: b :: l) (b :: l) fuel ha
      rw [hl, List.tail_cons, openLoop_stuck hb]
      rfl

theorem inOrder_first {a : α} {l : List α} (h : Works socket trial a) {log : List (Event α)}
    (hl : attempts log = [a]) : InOrder socket trial (a :: l) (socket a, log) := by
  unfold InOrder
  rw [List.find?_cons_of_pos (by simpa using h), List.takeWhile_cons_of_neg (by simpa using h)]
  exact ⟨rfl, hl⟩

theorem inOrder_second {a b : α} {l : List α} (ha : ¬Works socket trial a)
    (hb : Works socket trial b) {log : List (Event α)} (hl : attempts log = [a, b]) :
    InOrder socket trial (a :: b :: l) (socket b, log) := by
  unfold InOrder
  rw [List.find?_cons_of_neg (by simpa using ha), List.find?_cons_of_pos (by simpa using hb),
    List.takeWhile_cons_of_pos (by simpa using ha), List.takeWhile_cons_of_neg (by simpa using hb)]
  exact ⟨rfl, hl⟩

theorem inOrder_only {a : α} (ha : ¬Works socket trial a) {log : List (Event α)}
    (hl : attempts log = [a]) : InOrder socket trial [a] (-1, log) := by
  unfold InOrder
  rw [List.find?_cons_of_neg (by simpa using ha), List.find?_nil]
  exact ⟨rfl, hl⟩

end

/-- The loop tries the addresses in order, and ends, if there is at most one or
one of the first two works. -/
theorem wrapSocketOpen_iff {α : Type} (socket trial : α → Int) (result : List α) :
    (∃ fuel out, wrapSocketOpen socket trial fuel (.ok result) = some out ∧
      InOrder socket trial result out) ↔
    result.length ≤ 1 ∨ ∃ ai ∈ result.take 2, Works socket trial ai := by
  constructor
  · intro h
    obtain ⟨fuel, out, hout, -⟩ := h
    match result with
    | [] | [_] => exact .inl (by simp)
    | a :: b :: l =>
      by_cases ha : Works socket trial a
      · exact .inr ⟨a, by simp, ha⟩
      by_cases hb : Works socket trial b
      · exact .inr ⟨b, by simp, hb⟩
      rw [wrapSocketOpen, openLoop_never ha hb] at hout
      cases hout
  · intro h
    match result with
    | [] => exact ⟨1, (-1, []), rfl, rfl, rfl⟩
    | a :: l =>
      by_cases ha : Works socket trial a
      · exact ⟨1, _, openLoop_works l ha, inOrder_first ha rfl⟩
      obtain ⟨log, hlog, hl⟩ := openLoop_fails (a :: l) l 1 ha
      match l with
      | [] => exact ⟨2, _, hl, inOrder_only ha ((attempts_append ..).trans (by rw [hlog]; rfl))⟩
      | b :: l =>
        have hb : Works socket trial b := by
          simpa [ha] using h
        rw [List.tail_cons, openLoop_works l hb] at hl
        exact ⟨2, _, hl, inOrder_second ha hb ((attempts_append ..).trans (by rw [hlog]; rfl))⟩

/-- Three addresses, of which the third works. -/
theorem wrapSocketOpen_loops : ¬∀ result : List Bool, ∃ fuel out,
    wrapSocketOpen (fun _ => 3) (fun ai => if ai then 0 else -1) fuel (.ok result) = some out ∧
      InOrder (fun _ => 3) (fun ai => if ai then 0 else -1) result out := by
  intro h
  obtain ⟨fuel, out, hout, -⟩ := h [false, false, true]
  have hf : ¬Works (fun _ => 3) (fun ai => if ai then 0 else -1) false := by decide
  rw [wrapSocketOpen, openLoop_never hf hf] at hout
  cases hout

end Csapp.Proxy
