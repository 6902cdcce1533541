import Mathlib

/-!
# Circular doubly linked lists

A ring is a list read off two link functions: a head node, the nodes behind it
in `next` order, and the head again. Nothing here knows what a node is or where
its links are kept; a store is only the pair of functions `nx` and `pv`, and a
program that threads a list through its memory gets the functions by reading
the two link fields.

The two edits such programs make are insertion right behind the head and
removal from the middle. Both are stated through the link functions before and
after, never through the writes that changed them: whatever the order of the
four assignments, a ring results as soon as the named links hold and every
other link of the ring is what it was. That is what makes the edits frame
lemmas too, because a ring none of whose links changed is still a ring.
-/

namespace Csapp

variable {α : Type _} {nx pv nx' pv' : α → α}

/-- A linked segment from `x` to `y` through the nodes listed between them:
every neighbouring pair is linked both ways. -/
def Seg (nx pv : α → α) : α → List α → α → Prop
  | x, [], y => nx x = y ∧ pv y = x
  | x, n :: l, y => nx x = n ∧ pv n = x ∧ Seg nx pv n l y

/-- The circular list of head `h` with the nodes `l` behind it. -/
def Ring (nx pv : α → α) (h : α) (l : List α) : Prop :=
  Seg nx pv h l h

@[simp] theorem seg_nil {x y : α} : Seg nx pv x [] y ↔ nx x = y ∧ pv y = x :=
  Iff.rfl

@[simp] theorem seg_cons {x n y : α} {l : List α} :
    Seg nx pv x (n :: l) y ↔ nx x = n ∧ pv n = x ∧ Seg nx pv n l y := Iff.rfl

theorem seg_append {n y : α} {l₂ : List α} :
    ∀ {l₁ : List α} {x : α},
      Seg nx pv x (l₁ ++ n :: l₂) y ↔ Seg nx pv x l₁ n ∧ Seg nx pv n l₂ y := by
  intro l₁
  induction l₁ with
  | nil => intro x; simp [and_assoc]
  | cons m l₁ ih => intro x; simp [ih, and_assoc]

/-- A segment reads `next` of all its nodes but the last and `prev` of all but
the first, and nothing else. -/
theorem Seg.congr {l : List α} {x y : α} (h : Seg nx pv x l y)
    (hnx : ∀ z ∈ x :: l, nx' z = nx z) (hpv : ∀ z ∈ l ++ [y], pv' z = pv z) :
    Seg nx' pv' x l y := by
  induction l generalizing x with
  | nil =>
      obtain ⟨hn, hp⟩ := h
      exact ⟨(hnx x (by simp)).trans hn, (hpv y (by simp)).trans hp⟩
  | cons n l ih =>
      obtain ⟨hn, hp, hs⟩ := h
      refine ⟨(hnx x (by simp)).trans hn, (hpv n (by simp)).trans hp, ?_⟩
      exact ih hs (fun z hz => hnx z (by simp only [List.mem_cons] at hz ⊢; tauto))
        (fun z hz => hpv z (by simp only [List.cons_append, List.mem_cons]; tauto))

theorem Ring.congr {h : α} {l : List α} (hr : Ring nx pv h l)
    (hnx : ∀ z ∈ h :: l, nx' z = nx z) (hpv : ∀ z ∈ h :: l, pv' z = pv z) :
    Ring nx' pv' h l :=
  Seg.congr hr hnx fun z hz => hpv z (by
    simp only [List.mem_append, List.mem_cons] at hz ⊢
    tauto)

@[simp] theorem ring_nil {h : α} : Ring nx pv h [] ↔ nx h = h ∧ pv h = h := Iff.rfl

/-! ## Following the links -/

theorem Seg.next_mem {l : List α} {x y : α} (h : Seg nx pv x l y) :
    ∀ z ∈ x :: l, nx z ∈ l ++ [y] ∧ pv (nx z) = z := by
  induction l generalizing x with
  | nil =>
      obtain ⟨rfl, hp⟩ := h
      simp [hp]
  | cons n l ih =>
      obtain ⟨rfl, hp, hs⟩ := h
      intro z hz
      rcases List.mem_cons.mp hz with rfl | hz
      · exact ⟨by simp, hp⟩
      · obtain ⟨hm, hb⟩ := ih hs z hz
        exact ⟨by simp only [List.cons_append, List.mem_cons]; exact Or.inr hm, hb⟩

theorem Seg.prev_mem {l : List α} {x y : α} (h : Seg nx pv x l y) :
    ∀ z ∈ l ++ [y], pv z ∈ x :: l ∧ nx (pv z) = z := by
  induction l generalizing x with
  | nil =>
      obtain ⟨hn, rfl⟩ := h
      simp [hn]
  | cons n l ih =>
      obtain ⟨hn, rfl, hs⟩ := h
      intro z hz
      rcases List.mem_cons.mp hz with rfl | hz
      · exact ⟨by simp, hn⟩
      · obtain ⟨hm, hb⟩ := ih hs z hz
        exact ⟨List.mem_cons_of_mem _ hm, hb⟩

/-- On the nodes of a ring the two links are inverse to each other. -/
theorem Ring.next {h z : α} {l : List α} (hr : Ring nx pv h l) (hz : z ∈ h :: l) :
    nx z ∈ h :: l ∧ pv (nx z) = z := by
  obtain ⟨hm, hb⟩ := Seg.next_mem hr z hz
  refine ⟨?_, hb⟩
  simp only [List.mem_append, List.mem_cons] at hm ⊢
  tauto

theorem Ring.prev {h z : α} {l : List α} (hr : Ring nx pv h l) (hz : z ∈ h :: l) :
    pv z ∈ h :: l ∧ nx (pv z) = z :=
  Seg.prev_mem hr z (by
    simp only [List.mem_append, List.mem_cons] at hz ⊢
    tauto)

/-- The node behind the start of a segment. -/
theorem Seg.next_start {l : List α} {x y : α} (h : Seg nx pv x l y) :
    nx x = l.head?.getD y := by
  cases l with
  | nil => exact h.1
  | cons n l => exact h.1

/-- The node before the end of a segment. -/
theorem Seg.prev_end {l : List α} {x y : α} (h : Seg nx pv x l y) :
    pv y = l.getLast?.getD x := by
  induction l generalizing x with
  | nil => exact h.2
  | cons n l ih =>
      rw [ih h.2.2]
      cases l with
      | nil => rfl
      | cons m l => simp [List.getLast?_cons]

/-- A ring is read off its links: one head, one list. -/
theorem Seg.unique {l₁ : List α} {x y : α} (h₁ : Seg nx pv x l₁ y) (hn₁ : y ∉ l₁) :
    ∀ {l₂ : List α}, Seg nx pv x l₂ y → y ∉ l₂ → l₁ = l₂ := by
  induction l₁ generalizing x with
  | nil =>
      intro l₂ h₂ hn₂
      cases l₂ with
      | nil => rfl
      | cons n l₂ => exact absurd (h₂.1.symm.trans h₁.1) (by simp_all)
  | cons m l₁ ih =>
      intro l₂ h₂ hn₂
      cases l₂ with
      | nil => exact absurd (h₁.1.symm.trans h₂.1) (by simp_all)
      | cons n l₂ =>
          obtain rfl : m = n := h₁.1.symm.trans h₂.1
          rw [ih h₁.2.2 (fun hm => hn₁ (List.mem_cons_of_mem _ hm)) h₂.2.2
            (fun hm => hn₂ (List.mem_cons_of_mem _ hm))]

theorem Ring.unique {h : α} {l₁ l₂ : List α} (h₁ : Ring nx pv h l₁)
    (hn₁ : h ∉ l₁) (h₂ : Ring nx pv h l₂) (hn₂ : h ∉ l₂) : l₁ = l₂ :=
  Seg.unique h₁ hn₁ h₂ hn₂

/-- A node of the ring is neither of its neighbours. -/
theorem Ring.apart {h n : α} {l : List α} (hr : Ring nx pv h l)
    (hnd : (h :: l).Nodup) (hn : n ∈ l) : nx n ≠ n ∧ pv n ≠ n := by
  obtain ⟨l₁, l₂, rfl⟩ := List.append_of_mem hn
  obtain ⟨hs₁, hs₂⟩ := seg_append.mp hr
  have hp : pv n ∈ h :: l₁ := (hs₁.prev_mem n (by simp)).1
  have hx : nx n ∈ l₂ ++ [h] := (hs₂.next_mem n (by simp)).1
  simp only [List.nodup_cons, List.mem_append, List.mem_cons, List.nodup_append] at hnd
  refine ⟨?_, ?_⟩
  · intro he
    rw [he] at hx
    simp only [List.mem_append, List.mem_singleton] at hx
    rcases hx with hx | hx
    · exact hnd.2.2.1.1 hx
    · exact hnd.1 (.inr (.inl hx.symm))
  · intro he
    rw [he] at hp
    rcases List.mem_cons.mp hp with hp | hp
    · exact hnd.1 (.inr (.inl hp.symm))
    · exact hnd.2.2.2 n hp n (.inl rfl) rfl

/-! ## The two edits -/

/-- Insertion right behind the head. -/
theorem Ring.insert {h n : α} {l : List α} (hr : Ring nx pv h l)
    (hnd : (h :: l).Nodup)
    (hh : nx' h = n) (hn : nx' n = nx h) (hp : pv' n = h) (hf : pv' (nx h) = n)
    (hnx : ∀ z ∈ l, nx' z = nx z)
    (hpv : ∀ z ∈ h :: l, z ≠ nx h → pv' z = pv z) :
    Ring nx' pv' h (n :: l) := by
  refine ⟨hh, hp, ?_⟩
  cases l with
  | nil =>
      obtain ⟨hself, -⟩ := hr
      rw [hself] at hn hf
      exact ⟨hn, hf⟩
  | cons m l =>
      obtain ⟨hm, -, hs⟩ := hr
      rw [hm] at hn hf hpv
      refine ⟨hn, hf, hs.congr hnx fun z hz => ?_⟩
      have hzm : z ∈ h :: m :: l := by
        simp only [List.mem_append, List.mem_cons] at hz ⊢
        tauto
      refine hpv z hzm ?_
      rintro rfl
      simp only [List.nodup_cons, List.mem_cons, not_or] at hnd
      simp only [List.mem_append, List.mem_singleton] at hz
      rcases hz with hz | hz
      · exact hnd.2.1 hz
      · exact hnd.1.1 hz.symm

/-- The end of a segment moves from `n` to `y`: only the last node's `next`
and the new end's `prev` change. -/
theorem Seg.retarget {x n y : α} {l : List α} (hs : Seg nx pv x l n)
    (hnd : (x :: l).Nodup) (hn : nx' (pv n) = y) (hp : pv' y = pv n)
    (hnx : ∀ z ∈ x :: l, z ≠ pv n → nx' z = nx z) (hpv : ∀ z ∈ l, pv' z = pv z) :
    Seg nx' pv' x l y := by
  induction l generalizing x with
  | nil =>
      obtain ⟨-, hx⟩ := hs
      rw [hx] at hn hp
      exact ⟨hn, hp⟩
  | cons m l ih =>
      obtain ⟨hm, hpm, hs⟩ := hs
      obtain ⟨hxm, hnd⟩ := List.nodup_cons.mp hnd
      have hlast : pv n ∈ m :: l := (hs.prev_mem n (by simp)).1
      have hx : nx' x = nx x :=
        hnx x List.mem_cons_self fun he => hxm (he ▸ hlast)
      refine ⟨hx.trans hm, (hpv m List.mem_cons_self).trans hpm, ?_⟩
      exact ih hs hnd (fun z hz => hnx z (List.mem_cons_of_mem _ hz))
        fun z hz => hpv z (List.mem_cons_of_mem _ hz)

/-- Removal of a node, wherever it stands. -/
theorem Ring.remove {h n : α} {l₁ l₂ : List α}
    (hr : Ring nx pv h (l₁ ++ n :: l₂)) (hnd : (h :: (l₁ ++ n :: l₂)).Nodup)
    (hn : nx' (pv n) = nx n) (hp : pv' (nx n) = pv n)
    (hnx : ∀ z ∈ h :: (l₁ ++ l₂), z ≠ pv n → nx' z = nx z)
    (hpv : ∀ z ∈ h :: (l₁ ++ l₂), z ≠ nx n → pv' z = pv z) :
    Ring nx' pv' h (l₁ ++ l₂) := by
  obtain ⟨hs₁, hs₂⟩ := seg_append.mp hr
  obtain ⟨hh, hnd'⟩ := List.nodup_cons.mp hnd
  obtain ⟨hd₁, hd₂, hdis⟩ := List.nodup_append.mp hnd'
  have hnd₁ : (h :: l₁).Nodup :=
    List.nodup_cons.mpr ⟨fun hm => hh (List.mem_append_left _ hm), hd₁⟩
  have hnx₁ : ∀ z ∈ h :: l₁, z ≠ pv n → nx' z = nx z := fun z hz =>
    hnx z (List.cons_subset_cons _ (List.subset_append_left _ _) hz)
  cases l₂ with
  | nil =>
      obtain ⟨hb, -⟩ := hs₂
      rw [hb] at hn hp hpv
      rw [List.append_nil]
      refine hs₁.retarget hnd₁ hn hp hnx₁ fun z hz => hpv z (by simp [hz]) ?_
      rintro rfl
      exact (List.nodup_cons.mp hnd₁).1 hz
  | cons b l₂ =>
      obtain ⟨hb, -, hs₂⟩ := hs₂
      rw [hb] at hn hp hpv
      have hpn : pv n ∈ h :: l₁ := (hs₁.prev_mem n (by simp)).1
      refine seg_append.mpr ⟨?_, hs₂.congr (fun z hz => ?_) fun z hz => ?_⟩
      · refine hs₁.retarget hnd₁ hn hp hnx₁ fun z hz => hpv z (by simp [hz]) ?_
        exact hdis z hz b (by simp)
      · refine hnx z (by simp only [List.mem_cons, List.mem_append] at hz ⊢; tauto) ?_
        rintro rfl
        rcases List.mem_cons.mp hpn with he | hm
        · exact hh (by rw [← he]; simp only [List.mem_append, List.mem_cons] at hz ⊢; tauto)
        · exact hdis _ hm _ (List.mem_cons_of_mem _ hz) rfl
      · simp only [List.mem_append, List.mem_singleton] at hz
        refine hpv z (by simp only [List.mem_cons, List.mem_append]; tauto) ?_
        rintro rfl
        rcases hz with hz | rfl
        · exact (List.nodup_cons.mp (List.nodup_cons.mp hd₂).2).1 hz
        · exact hh (by simp)

end Csapp
