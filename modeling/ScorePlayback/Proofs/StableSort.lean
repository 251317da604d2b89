import ScorePlayback.StableSort

/-! # What sorting keeps in order

Insertion never puts an element behind one that it may precede, so elements that already
stand in order keep it. No law of the order is needed for this. Where the order is total and
transitive, the result is in order, and equal elements keep theirs. -/

namespace ScorePlayback

variable {α : Type}

theorem insertSorted_pairwise_not {le : α → α → Bool} {r : α → α → Prop} {x : α} {xs : List α}
    (hx : ∀ y ∈ xs, (r x y → le x y = true) ∧ ¬ r y x)
    (hxs : xs.Pairwise fun y z => ¬ r z y) :
    (insertSorted le x xs).Pairwise fun y z => ¬ r z y := by
  induction xs with
  | nil => simp [insertSorted]
  | cons y ys ih =>
      obtain ⟨hy, hys⟩ := List.pairwise_cons.mp hxs
      unfold insertSorted
      split
      · exact List.pairwise_cons.mpr ⟨fun z hz => (hx z hz).2, hxs⟩
      · next hxy =>
        refine List.pairwise_cons.mpr ⟨?_, ih (fun z hz => hx z (by simp [hz])) hys⟩
        intro z hz
        rcases List.mem_cons.mp ((insertSorted_perm le x ys).mem_iff.mp hz) with rfl | hz
        · exact fun h => hxy ((hx y (by simp)).1 h)
        · exact hy z hz

/-- If of any two elements the one in front may precede the other whenever `r` forbids to
exchange them, sorting exchanges no such elements. -/
theorem stableSort_pairwise_not {le : α → α → Bool} {r : α → α → Prop} {xs : List α}
    (hle : xs.Pairwise fun x y => r x y → le x y = true)
    (hr : xs.Pairwise fun x y => ¬ r y x) :
    (stableSort le xs).Pairwise fun x y => ¬ r y x := by
  induction xs with
  | nil => exact .nil
  | cons x xs ih =>
      obtain ⟨hx, hle⟩ := List.pairwise_cons.mp hle
      obtain ⟨hr', hr⟩ := List.pairwise_cons.mp hr
      refine insertSorted_pairwise_not ?_ (ih hle hr)
      intro y hy
      have hy' := (stableSort_perm le xs).mem_iff.mp hy
      exact ⟨hx y hy', hr' y hy'⟩

theorem filter_insertSorted_of_neg {le : α → α → Bool} {p : α → Bool} {x : α} (hp : p x = false)
    (xs : List α) : (insertSorted le x xs).filter p = xs.filter p := by
  induction xs with
  | nil => simp [insertSorted, hp]
  | cons y ys ih =>
      unfold insertSorted
      split
      · simp [hp]
      · simp [List.filter_cons, ih]

theorem filter_insertSorted_of_pos {le : α → α → Bool} {p : α → Bool} {x : α} (hp : p x = true)
    {xs : List α} (h : ∀ y ∈ xs, p y = true → le x y = true) :
    (insertSorted le x xs).filter p = x :: xs.filter p := by
  induction xs with
  | nil => simp [insertSorted, hp]
  | cons y ys ih =>
      unfold insertSorted
      split
      · simp [hp]
      · next hxy =>
        have hy : ¬ p y = true := fun hy => hxy (h y (by simp) hy)
        rw [List.filter_cons_of_neg hy, List.filter_cons_of_neg hy,
          ih fun z hz => h z (by simp [hz])]

/-- Elements that stand in order among each other stay where they are among each other. -/
theorem filter_stableSort {le : α → α → Bool} {p : α → Bool} {xs : List α}
    (h : (xs.filter p).Pairwise fun x y => le x y = true) :
    (stableSort le xs).filter p = xs.filter p := by
  induction xs with
  | nil => rfl
  | cons x xs ih =>
      show (insertSorted le x (stableSort le xs)).filter p = _
      cases hp : p x with
      | false =>
          rw [filter_insertSorted_of_neg hp, List.filter_cons_of_neg (by simp [hp])]
          exact ih (by rwa [List.filter_cons_of_neg (by simp [hp])] at h)
      | true =>
          rw [List.filter_cons_of_pos hp] at h ⊢
          obtain ⟨hx, hxs⟩ := List.pairwise_cons.mp h
          rw [filter_insertSorted_of_pos hp, ih hxs]
          intro y hy hpy
          exact hx y (List.mem_filter.mpr ⟨(stableSort_perm le xs).mem_iff.mp hy, hpy⟩)

/-! ## Ends that are in order -/

theorem insertSorted_of_forall_le {le : α → α → Bool} {x : α} {xs : List α}
    (h : ∀ y ∈ xs, le x y = true) : insertSorted le x xs = x :: xs := by
  cases xs with
  | nil => rfl
  | cons y ys => rw [insertSorted, if_pos (h y (by simp))]

/-- Elements that stand in order in front of all others stay there. -/
theorem stableSort_append {le : α → α → Bool} {xs ys : List α}
    (hxs : xs.Pairwise fun x y => le x y = true) (h : ∀ x ∈ xs, ∀ y ∈ ys, le x y = true) :
    stableSort le (xs ++ ys) = xs ++ stableSort le ys := by
  induction xs with
  | nil => rfl
  | cons x xs ih =>
      obtain ⟨hx, hxs⟩ := List.pairwise_cons.mp hxs
      show insertSorted le x (stableSort le (xs ++ ys)) = _
      rw [ih hxs fun z hz => h z (by simp [hz]), insertSorted_of_forall_le, List.cons_append]
      intro y hy
      rcases List.mem_append.mp hy with hy | hy
      · exact hx y hy
      · exact h x (by simp) y ((stableSort_perm le ys).mem_iff.mp hy)

theorem insertSorted_concat {le : α → α → Bool} {x last : α} (hx : le x last = true) (xs : List α) :
    insertSorted le x (xs ++ [last]) = insertSorted le x xs ++ [last] := by
  induction xs with
  | nil => simp [insertSorted, hx]
  | cons y ys ih =>
      rw [List.cons_append]
      unfold insertSorted
      split
      · rfl
      · rw [ih, List.cons_append]

/-- An element behind all others that may precede it stays there. -/
theorem stableSort_concat {le : α → α → Bool} {xs : List α} {last : α}
    (h : ∀ x ∈ xs, le x last = true) :
    stableSort le (xs ++ [last]) = stableSort le xs ++ [last] := by
  induction xs with
  | nil => rfl
  | cons x xs ih =>
      show insertSorted le x (stableSort le (xs ++ [last])) = _
      rw [ih fun y hy => h y (by simp [hy]), insertSorted_concat (h x (by simp))]
      rfl

/-! ## Keys -/

section

variable {β : Type} {le : α → α → Bool} {le' : β → β → Bool} {f : α → β}
  (hf : ∀ a b, le' (f a) (f b) = le a b)

include hf

theorem map_insertSorted (x : α) (xs : List α) :
    (insertSorted le x xs).map f = insertSorted le' (f x) (xs.map f) := by
  induction xs with
  | nil => rfl
  | cons y ys ih =>
      rw [insertSorted, List.map_cons, insertSorted, hf]
      split
      · rfl
      · rw [List.map_cons, ih]

/-- What is not compared may be changed before or behind sorting. -/
theorem map_stableSort (xs : List α) : (stableSort le xs).map f = stableSort le' (xs.map f) := by
  induction xs with
  | nil => rfl
  | cons x xs ih =>
      show (insertSorted le x (stableSort le xs)).map f = _
      rw [map_insertSorted hf, ih]
      rfl

end

/-! ## The result is in order -/

section

variable {le : α → α → Bool} (htrans : ∀ a b c, le a b = true → le b c = true → le a c = true)
  (htotal : ∀ a b, le a b = true ∨ le b a = true)

include htrans htotal

theorem insertSorted_pairwise {r : α → α → Prop} {x : α} {xs : List α} (hx : ∀ y ∈ xs, r x y)
    (hxs : xs.Pairwise fun a b => le a b = true ∧ (le b a = true → r a b)) :
    (insertSorted le x xs).Pairwise fun a b => le a b = true ∧ (le b a = true → r a b) := by
  induction xs with
  | nil => simp [insertSorted]
  | cons y ys ih =>
      obtain ⟨hy, hys⟩ := List.pairwise_cons.mp hxs
      unfold insertSorted
      split
      · next hxy =>
        refine List.pairwise_cons.mpr ⟨fun z hz => ⟨?_, fun _ => hx z hz⟩, hxs⟩
        rcases List.mem_cons.mp hz with rfl | hz
        · exact hxy
        · exact htrans x y z hxy (hy z hz).1
      · next hxy =>
        refine List.pairwise_cons.mpr ⟨fun z hz => ?_, ih (fun z hz => hx z (by simp [hz])) hys⟩
        rcases List.mem_cons.mp ((insertSorted_perm le x ys).mem_iff.mp hz) with rfl | hz
        · exact ⟨(htotal z y).resolve_left hxy, fun h => absurd h hxy⟩
        · exact hy z hz

/-- Sorting puts elements in order. Of two equal ones the first stays in front, so whatever holds
of each element and those behind it still holds of equal elements. -/
theorem stableSort_pairwise {r : α → α → Prop} {xs : List α} (h : xs.Pairwise r) :
    (stableSort le xs).Pairwise fun a b => le a b = true ∧ (le b a = true → r a b) := by
  induction xs with
  | nil => exact .nil
  | cons x xs ih =>
      obtain ⟨hx, hxs⟩ := List.pairwise_cons.mp h
      exact insertSorted_pairwise htrans htotal
        (fun y hy => hx y ((stableSort_perm le xs).mem_iff.mp hy)) (ih hxs)

omit htotal in
theorem filter_insertSorted {p : α → Bool} {x : α} (hp : p x = true) {xs : List α}
    (hxs : xs.Pairwise fun a b => le a b = true) :
    (insertSorted le x xs).filter p = insertSorted le x (xs.filter p) := by
  induction xs with
  | nil => simp [insertSorted, hp]
  | cons y ys ih =>
      obtain ⟨hy, hys⟩ := List.pairwise_cons.mp hxs
      by_cases hxy : le x y = true
      · have hle : ∀ z ∈ (y :: ys).filter p, le x z = true := fun z hz =>
          (List.mem_cons.mp (List.mem_filter.mp hz).1).elim (· ▸ hxy) fun hz =>
            htrans x y z hxy (hy z hz)
        rw [insertSorted, if_pos hxy, List.filter_cons_of_pos hp, insertSorted_of_forall_le hle]
      · rw [insertSorted, if_neg hxy]
        cases hkept : p y with
        | true =>
            rw [List.filter_cons_of_pos hkept, List.filter_cons_of_pos hkept, ih hys, insertSorted,
              if_neg hxy]
        | false =>
            rw [List.filter_cons_of_neg (by simp [hkept]), ih hys,
              List.filter_cons_of_neg (by simp [hkept])]

/-- What is deleted does not change the order of the others. -/
theorem stableSort_filter (p : α → Bool) (xs : List α) :
    stableSort le (xs.filter p) = (stableSort le xs).filter p := by
  induction xs with
  | nil => rfl
  | cons x xs ih =>
      cases hp : p x with
      | true =>
          have hsorted : (stableSort le xs).Pairwise fun a b => le a b = true :=
            (stableSort_pairwise htrans htotal
              (List.pairwise_of_forall (R := fun _ _ => True) fun _ _ => trivial)).imp And.left
          rw [List.filter_cons_of_pos hp]
          exact (congrArg (insertSorted le x) ih).trans (filter_insertSorted htrans hp hsorted).symm
      | false =>
          rw [List.filter_cons_of_neg (by simp [hp]), ih]
          exact (filter_insertSorted_of_neg hp (stableSort le xs)).symm

end

/-! ## Blocks of elements that are not equal -/

section

variable {le : α → α → Bool} (htrans : ∀ a b c, le a b = true → le b c = true → le a c = true)

include htrans

theorem insertSorted_comm_of_lt {x y : α} (hxy : le x y = true) (hyx : le y x = false)
    (zs : List α) :
    insertSorted le x (insertSorted le y zs) = insertSorted le y (insertSorted le x zs) := by
  induction zs with
  | nil => simp [insertSorted, hxy, hyx]
  | cons z zs ih =>
      cases hyz : le y z with
      | true =>
          have hxz : le x z = true := htrans x y z hxy hyz
          simp [insertSorted, hxy, hyx, hyz, hxz]
      | false =>
          cases hxz : le x z with
          | true => simp [insertSorted, hyx, hyz, hxz]
          | false => simp [insertSorted, hyz, hxz, ih]

variable (htotal : ∀ a b, le a b = true ∨ le b a = true)

include htotal

theorem insertSorted_comm {x y : α} (h : ¬ (le x y = true ∧ le y x = true)) (zs : List α) :
    insertSorted le x (insertSorted le y zs) = insertSorted le y (insertSorted le x zs) := by
  rcases htotal x y with hxy | hyx
  · exact insertSorted_comm_of_lt htrans hxy (Bool.eq_false_iff.mpr fun hyx => h ⟨hxy, hyx⟩) zs
  · have hxy : le x y = false := Bool.eq_false_iff.mpr fun hxy => h ⟨hxy, hyx⟩
    exact (insertSorted_comm_of_lt htrans hyx hxy zs).symm

theorem insertSorted_foldr {x : α} {ys : List α}
    (h : ∀ y ∈ ys, ¬ (le x y = true ∧ le y x = true)) (zs : List α) :
    insertSorted le x (ys.foldr (insertSorted le) zs) =
      ys.foldr (insertSorted le) (insertSorted le x zs) := by
  induction ys with
  | nil => rfl
  | cons y ys ih =>
      obtain ⟨hy, hys⟩ := List.forall_mem_cons.mp h
      rw [List.foldr_cons, List.foldr_cons, insertSorted_comm htrans htotal hy, ih hys]

theorem foldr_insertSorted_comm {xs ys : List α}
    (h : ∀ x ∈ xs, ∀ y ∈ ys, ¬ (le x y = true ∧ le y x = true)) (zs : List α) :
    xs.foldr (insertSorted le) (ys.foldr (insertSorted le) zs) =
      ys.foldr (insertSorted le) (xs.foldr (insertSorted le) zs) := by
  induction xs with
  | nil => rfl
  | cons x xs ih =>
      obtain ⟨hx, hxs⟩ := List.forall_mem_cons.mp h
      rw [List.foldr_cons, ih hxs, insertSorted_foldr htrans htotal hx, List.foldr_cons]

/-- Which of two blocks comes first does not matter, if no element of one equals one of the
other. -/
theorem stableSort_exchange {xs ys : List α}
    (h : ∀ x ∈ xs, ∀ y ∈ ys, ¬ (le x y = true ∧ le y x = true)) (front behind : List α) :
    stableSort le (front ++ (xs ++ (ys ++ behind))) =
      stableSort le (front ++ (ys ++ (xs ++ behind))) := by
  simp only [stableSort, List.foldr_append, foldr_insertSorted_comm htrans htotal h]

end

end ScorePlayback
