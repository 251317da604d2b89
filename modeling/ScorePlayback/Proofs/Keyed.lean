import ScorePlayback.Keyed

/-! # Entries with keys

What is found under a key is what was put there last. A list whose keys ascend has at most one entry
for each key, and all operations keep it so. -/

namespace ScorePlayback.Keyed

variable {κ μ ν : Type} [Ord κ] {key : κ} {value : ν} {entries : List (κ × ν)}

/-! ## Members -/

theorem mem_insert {e : κ × ν} (h : e ∈ insert key value entries) :
    e = (key, value) ∨ e ∈ entries := by
  induction entries with
  | nil => exact .inl (List.mem_singleton.mp h)
  | cons entry rest ih =>
      unfold insert at h
      split at h
      · exact List.mem_cons.mp h
      · exact (List.mem_cons.mp h).imp_right (List.mem_cons_of_mem _)
      · rcases List.mem_cons.mp h with h | h
        · exact .inr (h ▸ List.mem_cons_self ..)
        · exact (ih h).imp_right (List.mem_cons_of_mem _)

theorem exists_mem_of_find? (h : find? key entries = some value) : ∃ k, (k, value) ∈ entries := by
  induction entries with
  | nil => simp [find?] at h
  | cons entry rest ih =>
      unfold find? at h
      split at h
      · obtain rfl := Option.some.inj h
        exact ⟨_, List.mem_cons_self ..⟩
      · obtain ⟨k, hk⟩ := ih h
        exact ⟨k, List.mem_cons_of_mem _ hk⟩

theorem erase_cons_of_eq {entry : κ × ν} (h : compare key entry.1 = .eq) :
    erase key (entry :: entries) = erase key entries := List.filter_cons_of_neg (by simpa using h)

theorem erase_cons_of_ne {entry : κ × ν} (h : compare key entry.1 ≠ .eq) :
    erase key (entry :: entries) = entry :: erase key entries :=
  List.filter_cons_of_pos (by simpa using h)

theorem erase_of_find?_eq_none (h : find? key entries = none) : erase key entries = entries := by
  induction entries with
  | nil => rfl
  | cons entry rest ih =>
      unfold find? at h
      split at h
      · simp at h
      · next hne =>
        rw [erase_cons_of_ne hne, ih h]

/-! ## Other values under the same keys -/

theorem map_insert (f : μ → ν) (key : κ) (value : μ) (entries : List (κ × μ)) :
    (insert key value entries).map (Prod.map id f) =
      insert key (f value) (entries.map (Prod.map id f)) := by
  induction entries with
  | nil => rfl
  | cons entry rest ih =>
      obtain ⟨k, v⟩ := entry
      simp only [insert, List.map_cons, Prod.map, id]
      split
      · rfl
      · rfl
      · exact congrArg ((k, f v) :: ·) ih

theorem map_erase (f : μ → ν) (key : κ) (entries : List (κ × μ)) :
    (erase key entries).map (Prod.map id f) = erase key (entries.map (Prod.map id f)) := by
  rw [erase, erase, List.filter_map]
  rfl

theorem find?_map (f : μ → ν) (key : κ) (entries : List (κ × μ)) :
    find? key (entries.map (Prod.map id f)) = (find? key entries).map f := by
  induction entries with
  | nil => rfl
  | cons entry rest ih =>
      simp only [List.map_cons, Prod.map, id, find?]
      split
      · rfl
      · exact ih

/-! ## What is found -/

theorem find?_erase_self (key : κ) (entries : List (κ × ν)) :
    find? key (erase key entries) = none := by
  induction entries with
  | nil => rfl
  | cons entry rest ih =>
      by_cases h : compare key entry.1 = .eq
      · rwa [erase_cons_of_eq h]
      · simpa [erase_cons_of_ne h, find?, h] using ih

section

variable [Std.LawfulEqOrd κ]

theorem mem_of_find? (h : find? key entries = some value) : (key, value) ∈ entries := by
  induction entries with
  | nil => simp [find?] at h
  | cons entry rest ih =>
      obtain ⟨k, v⟩ := entry
      unfold find? at h
      split at h
      · next hkey =>
        obtain rfl := Std.LawfulEqOrd.eq_of_compare hkey
        obtain rfl := Option.some.inj h
        exact List.mem_cons_self
      · exact List.mem_cons_of_mem _ (ih h)

theorem find?_insert_self (key : κ) (value : ν) (entries : List (κ × ν)) :
    find? key (insert key value entries) = some value := by
  induction entries with
  | nil => simp [insert, find?]
  | cons entry rest ih =>
      obtain ⟨k, v⟩ := entry
      simp only [insert]
      split
      · simp [find?]
      · simp [find?]
      · next h => simp [find?, h, ih]

theorem find?_insert_of_ne {other : κ} (h : other ≠ key) (value : ν) (entries : List (κ × ν)) :
    find? other (insert key value entries) = find? other entries := by
  have hkey : compare other key ≠ .eq := fun heq => h (Std.LawfulEqOrd.eq_of_compare heq)
  induction entries with
  | nil => simp [insert, find?, hkey]
  | cons entry rest ih =>
      obtain ⟨k, v⟩ := entry
      simp only [insert]
      split
      · simp [find?, hkey]
      · next heq =>
        obtain rfl := Std.LawfulEqOrd.eq_of_compare heq
        simp [find?, hkey]
      · simp [find?, ih]

theorem find?_erase_of_ne {other : κ} (h : other ≠ key) (entries : List (κ × ν)) :
    find? other (erase key entries) = find? other entries := by
  induction entries with
  | nil => rfl
  | cons entry rest ih =>
      by_cases hkey : compare key entry.1 = .eq
      · obtain rfl := Std.LawfulEqOrd.eq_of_compare hkey
        simpa [erase_cons_of_eq hkey, find?, h] using ih
      · simp [erase_cons_of_ne hkey, find?, ih]

end

/-! ## Ascending keys -/

/-- The keys ascend, so no two entries have the same. -/
def Ascends (entries : List (κ × ν)) : Prop := entries.Pairwise fun a b => compare a.1 b.1 = .lt

theorem length_insert_of_find? (h : find? key entries = none) (value : ν) :
    (Keyed.insert key value entries).length = entries.length + 1 := by
  induction entries with
  | nil => rfl
  | cons entry rest ih =>
      obtain ⟨k, v⟩ := entry
      simp only [find?] at h
      split at h
      · cases h
      · simp only [Keyed.insert]
        split
        · rfl
        · next hne _ heq => exact absurd heq hne
        · simp [ih h]

section

variable [Std.LawfulEqOrd κ]

theorem Ascends.insert [Std.TransOrd κ] (h : Ascends entries) (key : κ) (value : ν) :
    Ascends (insert key value entries) := by
  induction entries with
  | nil => exact List.pairwise_singleton _ _
  | cons entry rest ih =>
      obtain ⟨k, v⟩ := entry
      obtain ⟨hfirst, hrest⟩ := List.pairwise_cons.mp h
      simp only [Keyed.insert]
      split
      · next hlt =>
        refine List.pairwise_cons.mpr ⟨List.forall_mem_cons.mpr ⟨hlt, fun e he => ?_⟩, h⟩
        exact Std.TransCmp.lt_trans hlt (hfirst e he)
      · next heq =>
        obtain rfl := Std.LawfulEqOrd.eq_of_compare heq
        exact List.pairwise_cons.mpr ⟨hfirst, hrest⟩
      · next hgt =>
        refine List.pairwise_cons.mpr ⟨fun e he => ?_, ih hrest⟩
        rcases mem_insert he with rfl | he
        · exact Std.OrientedCmp.gt_iff_lt.mp hgt
        · exact hfirst e he

omit [Std.LawfulEqOrd κ] in
theorem Ascends.erase (h : Ascends entries) (key : κ) : Ascends (erase key entries) :=
  List.Pairwise.filter _ h

theorem Ascends.find?_of_mem (h : Ascends entries) (hmem : (key, value) ∈ entries) :
    find? key entries = some value := by
  induction entries with
  | nil => cases hmem
  | cons entry rest ih =>
      obtain ⟨hfirst, hrest⟩ := List.pairwise_cons.mp h
      rcases List.mem_cons.mp hmem with rfl | hmem
      · simp [find?]
      · have hne : compare key entry.1 ≠ .eq := by
          intro heq
          obtain rfl := Std.LawfulEqOrd.eq_of_compare heq
          simpa using hfirst _ hmem
        simpa [find?, hne] using ih hrest hmem

/-- Only the entry that is found is taken away. -/
theorem Ascends.perm_erase (h : Ascends entries) {old : ν} (hold : find? key entries = some old) :
    entries.Perm ((key, old) :: Keyed.erase key entries) := by
  induction entries with
  | nil => cases hold
  | cons entry rest ih =>
      obtain ⟨k, v⟩ := entry
      obtain ⟨hfirst, hrest⟩ := List.pairwise_cons.mp h
      by_cases hkey : compare key k = .eq
      · obtain rfl := Std.LawfulEqOrd.eq_of_compare hkey
        obtain rfl : v = old := by simpa [find?] using hold
        have hnone : find? key rest = none := by
          refine Option.eq_none_iff_forall_ne_some.mpr fun v hv => ?_
          simpa using hfirst _ (mem_of_find? hv)
        rw [erase_cons_of_eq hkey, erase_of_find?_eq_none hnone]
      · have hrestOld : find? key rest = some old := by
          simpa [find?, hkey] using hold
        rw [erase_cons_of_ne hkey]
        exact ((ih hrest hrestOld).cons (k, v)).trans (.swap (key, old) (k, v) _)

/-- Under its key there is only what has been put there, and everything else stays. -/
theorem Ascends.perm_insert [Std.TransOrd κ] (h : Ascends entries) (key : κ) (value : ν) :
    (Keyed.insert key value entries).Perm ((key, value) :: Keyed.erase key entries) := by
  have hkept {rest : List (κ × ν)} (hrest : ∀ e ∈ rest, compare key e.1 = .lt) :
      Keyed.erase key rest = rest :=
    List.filter_eq_self.mpr fun e he => by simp [hrest e he]
  induction entries with
  | nil => exact .refl _
  | cons entry rest ih =>
      obtain ⟨k, v⟩ := entry
      obtain ⟨hfirst, hrest⟩ := List.pairwise_cons.mp h
      simp only [Keyed.insert]
      split
      · next hlt =>
        have hall : ∀ e ∈ (k, v) :: rest, compare key e.1 = .lt :=
          List.forall_mem_cons.mpr ⟨hlt, fun e he => Std.TransCmp.lt_trans hlt (hfirst e he)⟩
        rw [hkept hall]
      · next heq =>
        obtain rfl := Std.LawfulEqOrd.eq_of_compare heq
        rw [erase_cons_of_eq heq, hkept hfirst]
      · next hgt =>
        rw [erase_cons_of_ne (by simp [hgt])]
        exact ((ih hrest).cons (k, v)).trans (.swap (key, value) (k, v) _)

/-- A value that was there is replaced. -/
theorem Ascends.length_insert [Std.TransOrd κ] (h : Ascends entries) {old : ν}
    (hold : find? key entries = some old) (value : ν) :
    (Keyed.insert key value entries).length = entries.length :=
  (h.perm_insert key value).length_eq.trans (h.perm_erase hold).length_eq.symm

theorem Ascends.length_erase (h : Ascends entries) {old : ν} (hold : find? key entries = some old) :
    (Keyed.erase key entries).length + 1 = entries.length := (h.perm_erase hold).length_eq.symm

end

end ScorePlayback.Keyed
