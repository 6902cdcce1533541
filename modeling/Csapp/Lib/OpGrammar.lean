import Mathlib

/-!
# Expressions with operator levels

The grammar of expressions with a conditional operator, left-associative binary
operators on levels one to `top` and prefix operators that bind tightest, as
language definitions write it down. `Reads` is the recursive-descent reader of
it, which leaves the tokens behind an expression; the reader is deterministic
and reads what the grammar derives, so the grammar is unambiguous.
-/

namespace Csapp.OpGrammar

variable {Atom Pre Op : Type}

/-- The tokens of an operator grammar. -/
inductive Tok (Atom Pre Op : Type)
  | atom (a : Atom)
  | pre (p : Pre)
  | op (o : Op)
  | lpar
  | rpar
  | quest
  | colon
deriving DecidableEq, Repr

/-- Its expressions. -/
inductive Tree (Atom Pre Op : Type)
  | atom (a : Atom)
  | pre (p : Pre) (e : Tree Atom Pre Op)
  | bin (o : Op) (a b : Tree Atom Pre Op)
  | cond (c a b : Tree Atom Pre Op)
deriving DecidableEq, Repr

variable (level : Op → Nat) (top : Nat)

/-- `ts` is an expression of the level `l` whose tree is `e`. Level zero is a
conditional expression and `top + 1` an operand. -/
inductive Derives : Nat → List (Tok Atom Pre Op) → Tree Atom Pre Op → Prop
  | atom (a : Atom) : Derives (top + 1) [.atom a] (.atom a)
  | paren {ts e} : Derives 0 ts e → Derives (top + 1) (.lpar :: (ts ++ [.rpar])) e
  | pre (p : Pre) {ts e} : Derives (top + 1) ts e → Derives (top + 1) (.pre p :: ts) (.pre p e)
  | up {l ts e} : l ≤ top → Derives (l + 1) ts e → Derives l ts e
  | bin {l ts us a b} (o : Op) : level o = l → 0 < l → l ≤ top → Derives l ts a →
      Derives (l + 1) us b → Derives l (ts ++ .op o :: us) (.bin o a b)
  | cond {ts us vs c a b} : Derives 1 ts c → Derives 0 us a → Derives 0 vs b →
      Derives 0 (ts ++ .quest :: (us ++ .colon :: vs)) (.cond c a b)

/-! ## The reader -/

/-- What the reader is about to do: read an expression of a level, or go on with
the operators of the level behind the operand `a`. -/
inductive Goal (Atom Pre Op : Type)
  | expr (l : Nat)
  | more (l : Nat) (a : Tree Atom Pre Op)

/-- The next token is an operator for which `p` holds. -/
def Ahead (p : Op → Prop) (ts : List (Tok Atom Pre Op)) : Prop := ∃ o, ts.head? = some (.op o) ∧ p o

/-- With the goal `g` and the tokens `ts` ahead, the reader returns `e` and
leaves `rest`. -/
inductive Reads : Goal Atom Pre Op → List (Tok Atom Pre Op) → Tree Atom Pre Op →
    List (Tok Atom Pre Op) → Prop
  | atom (a : Atom) {rest} : Reads (.expr (top + 1)) (.atom a :: rest) (.atom a) rest
  | paren {ts e rest} : Reads (.expr 0) ts e (.rpar :: rest) →
      Reads (.expr (top + 1)) (.lpar :: ts) e rest
  | pre (p : Pre) {ts e rest} : Reads (.expr (top + 1)) ts e rest →
      Reads (.expr (top + 1)) (.pre p :: ts) (.pre p e) rest
  | left {l ts us a e rest} : 0 < l → l ≤ top → Reads (.expr (l + 1)) ts a us →
      Reads (.more l a) us e rest → Reads (.expr l) ts e rest
  | done {l a ts} : ¬ Ahead (level · = l) ts → Reads (.more l a) ts a ts
  | more {l a us vs b e rest} (o : Op) : level o = l → Reads (.expr (l + 1)) us b vs →
      Reads (.more l (.bin o a b)) vs e rest → Reads (.more l a) (.op o :: us) e rest
  | plain {ts e rest} : Reads (.expr 1) ts e rest → rest.head? ≠ some .quest →
      Reads (.expr 0) ts e rest
  | cond {ts us vs c a b rest} : Reads (.expr 1) ts c (.quest :: us) →
      Reads (.expr 0) us a (.colon :: vs) → Reads (.expr 0) vs b rest →
      Reads (.expr 0) ts (.cond c a b) rest

variable {level top}

theorem Reads.deterministic {g : Goal Atom Pre Op} {ts rest rest' : List (Tok Atom Pre Op)}
    {e e' : Tree Atom Pre Op} (h : Reads level top g ts e rest)
    (h' : Reads level top g ts e' rest') : e = e' ∧ rest = rest' := by
  induction h generalizing e' rest' with
  | atom a =>
      cases h' with
      | atom => exact ⟨rfl, rfl⟩
      | left _ hl => omega
  | paren _ ih =>
      cases h' with
      | paren h' =>
          obtain ⟨rfl, hr⟩ := ih h'
          exact ⟨rfl, (List.cons.inj hr).2⟩
      | left _ hl => omega
  | pre p _ ih =>
      cases h' with
      | pre _ h' =>
          obtain ⟨rfl, rfl⟩ := ih h'
          exact ⟨rfl, rfl⟩
      | left _ hl => omega
  | left hl ht _ _ iha ih =>
      cases h' with
      | left _ _ ha h' =>
          obtain ⟨rfl, rfl⟩ := iha ha
          exact ih h'
      | atom => omega
      | paren => omega
      | pre => omega
      | plain => omega
      | cond => omega
  | done hn =>
      cases h' with
      | done => exact ⟨rfl, rfl⟩
      | more o ho => exact absurd ⟨o, rfl, ho⟩ hn
  | more o ho _ _ ihb ih =>
      cases h' with
      | done hn => exact absurd ⟨o, rfl, ho⟩ hn
      | more _ _ hb h' =>
          obtain ⟨rfl, rfl⟩ := ihb hb
          exact ih h'
  | plain _ hq ih =>
      cases h' with
      | plain h' => exact ih h'
      | cond hc =>
          obtain ⟨-, rfl⟩ := ih hc
          exact absurd rfl hq
      | left hl => omega
  | cond _ _ _ ihc iha ihb =>
      cases h' with
      | plain h' hq =>
          obtain ⟨-, rfl⟩ := ihc h'
          exact absurd rfl hq
      | cond hc ha hb =>
          obtain ⟨rfl, hu⟩ := ihc hc
          obtain rfl := (List.cons.inj hu).2
          obtain ⟨rfl, hv⟩ := iha ha
          obtain rfl := (List.cons.inj hv).2
          obtain ⟨rfl, rfl⟩ := ihb hb
          exact ⟨rfl, rfl⟩
      | left hl => omega

/-! ## What the grammar derives is read -/

/-- The reader, having read the operand `e` of level `l`, returns `e'` in the end. -/
def Ends (level : Op → Nat) (top l : Nat) (e : Tree Atom Pre Op) (rest : List (Tok Atom Pre Op))
    (e' : Tree Atom Pre Op) (rest' : List (Tok Atom Pre Op)) : Prop :=
  if l ≤ top then Reads level top (.more l e) rest e' rest' else e' = e ∧ rest' = rest

/-- Where no operator of the level follows, an operand is the whole expression. -/
theorem Ends.self {l : Nat} {e : Tree Atom Pre Op} {rest : List (Tok Atom Pre Op)}
    (h : ¬ Ahead (level · = l) rest) : Ends level top l e rest e rest := by
  rw [Ends]
  split_ifs
  · exact .done h
  · exact ⟨rfl, rfl⟩

theorem not_ahead {p q : Op → Prop} {rest : List (Tok Atom Pre Op)} (h : ¬ Ahead p rest)
    (hpq : ∀ o, q o → p o) : ¬ Ahead q rest := by
  rintro ⟨o, ho, hq⟩
  exact h ⟨o, ho, hpq o hq⟩

/-- An expression of a level is read whatever follows it, except an operator that
binds tighter; a conditional expression, except an operator or a question mark. -/
theorem Derives.reads {l : Nat} {ts : List (Tok Atom Pre Op)} {e : Tree Atom Pre Op}
    (h : Derives level top l ts e) :
    (0 < l → ∀ rest e' rest', ¬ Ahead (l < level ·) rest → Ends level top l e rest e' rest' →
      Reads level top (.expr l) (ts ++ rest) e' rest') ∧
    (l = 0 → ∀ rest, ¬ Ahead (fun _ => True) rest → rest.head? ≠ some .quest →
      Reads level top (.expr 0) (ts ++ rest) e rest) := by
  induction h with
  | atom a =>
      refine ⟨fun _ rest e' rest' _ he => ?_, fun h0 => absurd h0 (Nat.succ_ne_zero _)⟩
      rw [Ends, if_neg (by omega)] at he
      obtain ⟨rfl, rfl⟩ := he
      exact .atom a
  | paren _ ih =>
      refine ⟨fun _ rest e' rest' _ he => ?_, fun h0 => absurd h0 (Nat.succ_ne_zero _)⟩
      rw [Ends, if_neg (by omega)] at he
      obtain ⟨rfl, rfl⟩ := he
      rw [List.cons_append, List.append_assoc]
      refine .paren (ih.2 rfl _ ?_ (by simp))
      rintro ⟨o, ho, -⟩
      simp at ho
  | pre p _ ih =>
      refine ⟨fun hl rest e' rest' hn he => ?_, fun h0 => absurd h0 (Nat.succ_ne_zero _)⟩
      rw [Ends, if_neg (by omega)] at he
      obtain ⟨rfl, rfl⟩ := he
      refine .pre p (ih.1 hl _ _ _ hn ?_)
      rw [Ends, if_neg (by omega)]
      exact ⟨rfl, rfl⟩
  | @up l ts e hl _ ih =>
      constructor
      · intro h0 rest e' rest' hn he
        rw [Ends, if_pos hl] at he
        refine .left h0 hl (ih.1 (Nat.succ_pos l) rest e rest ?_ (Ends.self ?_)) he
        · exact not_ahead hn fun o ho => by omega
        · exact not_ahead hn fun o ho => by omega
      · rintro rfl rest hn hq
        refine .plain (ih.1 Nat.one_pos rest e rest ?_ (Ends.self ?_)) hq
        · exact not_ahead hn fun _ _ => trivial
        · exact not_ahead hn fun _ _ => trivial
  | @bin l ts us a b o ho h0 hl _ _ iha ihb =>
      refine ⟨fun _ rest e' rest' hn he => ?_, fun hz => absurd hz (by omega)⟩
      rw [Ends, if_pos hl] at he
      rw [List.append_assoc]
      refine iha.1 h0 _ _ _ ?_ ?_
      · rintro ⟨o', ho', hlt⟩
        obtain rfl : o = o' := by simpa using ho'
        omega
      · rw [Ends, if_pos hl]
        refine .more o ho (ihb.1 (Nat.succ_pos l) rest b rest ?_ (Ends.self ?_)) he
        · exact not_ahead hn fun o' ho' => by omega
        · exact not_ahead hn fun o' ho' => by omega
  | @cond ts us vs c a b _ _ _ ihc iha ihb =>
      refine ⟨fun h0 => absurd h0 (lt_irrefl 0), fun _ rest hn hq => ?_⟩
      rw [List.append_assoc, List.cons_append, List.append_assoc, List.cons_append]
      have hquest : ∀ p : Op → Prop, ∀ r : List (Tok Atom Pre Op), ¬ Ahead p (.quest :: r) := by
        rintro p r ⟨o, ho, -⟩
        simp at ho
      refine .cond (ihc.1 Nat.one_pos _ _ _ (hquest _ _) (Ends.self (hquest _ _)))
        (iha.2 rfl _ ?_ (by simp)) (ihb.2 rfl rest hn hq)
      rintro ⟨o, ho, -⟩
      simp at ho

/-- A token list is an expression in one way at most. -/
theorem Derives.unique {ts : List (Tok Atom Pre Op)} {e e' : Tree Atom Pre Op}
    (h : Derives level top 0 ts e) (h' : Derives level top 0 ts e') : e = e' := by
  have hn : ¬ Ahead (fun _ => True) ([] : List (Tok Atom Pre Op)) := by
    rintro ⟨o, ho, -⟩
    simp at ho
  exact ((h.reads.2 rfl [] hn (by simp)).deterministic (h'.reads.2 rfl [] hn (by simp))).1

/-- An expression of a level is one of every looser level. -/
theorem Derives.lower {l l' : Nat} {ts : List (Tok Atom Pre Op)} {e : Tree Atom Pre Op}
    (h : Derives level top l' ts e) (hl : l ≤ l') (ht : l' ≤ top + 1) :
    Derives level top l ts e := by
  induction hl using Nat.decreasingInduction with
  | self => exact h
  | of_succ k hk ih => exact .up (by omega) ih

end Csapp.OpGrammar
