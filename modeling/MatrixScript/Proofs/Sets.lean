import MatrixScript.Proofs.Sets.Elements

/-!
# Sets as sets

Whatever operations a set comes from, it holds no two elements that count as one, and the elements
of an ordered set ascend. So its elements are known from its members, up to those that count as one,
and in an ordered set also their sequence.
-/

namespace MatrixScript

theorem Double.representative_representative (x : Double) :
    x.representative.representative = x.representative := by
  unfold representative
  split
  · rfl
  · split
    · rfl
    · rfl

namespace Element

theorem compare_folded (x y : Element) : x.folded.compare y.folded = x.compare y := by
  cases x <;> cases y <;>
    simp [folded, compare, representative, Double.representative_representative]

theorem not_compare_self (x : Element) : ¬x.compare x = .lt := by
  intro h
  cases x with
  | number z =>
      have hkeys : (representative z).totalCompare (representative z) = .lt := h
      simp [Complex.totalCompare, Ordering.then_eq_lt, Double.totalCompare_eq_lt] at hkeys
  | text s => exact String.lt_irrefl s (compareOfLessAndEq_eq_lt.mp h)

end Element

namespace ElementSet

/-- The sets that operations on sets make, from empty ones on. -/
inductive Built : ElementSet → Prop where
  | empty (name : String) (ordered : Bool) : Built (empty name ordered)
  | insert {s : ElementSet} (hs : Built s) (x : Element) : Built (s.insert x).2
  | value {s t : ElementSet} {v : Value} (hs : Built s) (h : s.insertValue v = .ok t) : Built t
  | union {s t : ElementSet} (hs : Built s) (ht : Built t) : Built (s.union t)
  | intersect {s t : ElementSet} (hs : Built s) (ht : Built t) : Built (s.intersect t)
  | sorted {s : ElementSet} (hs : Built s) : Built s.sorted
  | renamed {s : ElementSet} (hs : Built s) (name : String) : Built (s.renamed name)

variable {s t : ElementSet} {x y : Element} {xs ys : List Element}

theorem Built.wellFormed (h : s.Built) : s.WellFormed := by
  induction h with
  | empty name ordered => exact wellFormed_empty name ordered
  | insert _ x ih => exact ih.insert x
  | value _ h ih => exact insertValue_yields ih _ _ h
  | union => exact wellFormed_union _ _
  | intersect => exact wellFormed_intersect _ _
  | sorted => exact wellFormed_sorted _
  | renamed _ name ih => exact ih.renamed name

theorem Built.insertAll (h : s.Built) (xs : List Element) : (s.insertAll xs).Built := by
  induction xs generalizing s with
  | nil => exact h
  | cons x xs ih => exact ih (h.insert x)

/-! ### Members -/

theorem contains_iff : s.contains x = true ↔ ∃ y ∈ s.elements, x.CountsAs y := by
  rw [contains, List.any_eq_true]
  simp only [Element.same_iff]

theorem contains_iff_folded : s.contains x = true ↔ x.folded ∈ s.elements.map Element.folded := by
  rw [contains_iff, List.mem_map]
  refine exists_congr fun y => and_congr_right fun _ => ?_
  rw [← Element.folded_eq_iff, eq_comm]

/-- By whatever numbers elements are hashed, looking among those of the same hash misses none. -/
theorem lookup_eq_contains (hash : UInt8 × (UInt64 × UInt64 ⊕ String) → UInt64) (s : ElementSet)
    (x : Element) : s.lookup hash x = s.contains x := by
  rw [lookup, List.any_filter, contains]
  refine congrArg s.elements.any (funext fun y => ?_)
  cases hsame : x.same y with
  | false => rw [Bool.and_false]
  | true =>
      rw [Element.key_eq_iff.mpr (Element.same_iff.mp hsame), beq_self_eq_true, Bool.true_and]

theorem insert_name (s : ElementSet) (x : Element) : (s.insert x).2.name = s.name := by
  unfold insert
  split_ifs <;> rfl

theorem insert_ordered (s : ElementSet) (x : Element) : (s.insert x).2.ordered = s.ordered := by
  unfold insert
  split_ifs <;> rfl

theorem insertAll_name (s : ElementSet) (xs : List Element) : (s.insertAll xs).name = s.name := by
  induction xs generalizing s with
  | nil => rfl
  | cons x xs ih => exact (ih _).trans (insert_name s x)

theorem insertAll_ordered (s : ElementSet) (xs : List Element) :
    (s.insertAll xs).ordered = s.ordered := by
  induction xs generalizing s with
  | nil => rfl
  | cons x xs ih => exact (ih _).trans (insert_ordered s x)

/-- A new element joins the others, wherever it is put. -/
theorem insert_perm (h : s.contains x = false) :
    (s.insert x).2.elements.Perm (x :: s.elements) := by
  cases ho : s.ordered with
  | true =>
      have hplaced : (s.insert x).2.elements = place x s.elements := by simp [insert, h, ho]
      rw [hplaced]
      exact place_perm x s.elements
  | false =>
      rw [insert_of_new ho h]
      exact List.perm_append_singleton x s.elements

theorem contains_insert :
    (s.insert x).2.contains y = true ↔ s.contains y = true ∨ y.CountsAs x := by
  cases hx : s.contains x with
  | true =>
      rw [insert_of_contains hx]
      refine ⟨.inl, fun h => h.elim (fun h => h) fun hy => ?_⟩
      obtain ⟨z, hz, hxz⟩ := contains_iff.mp hx
      exact contains_iff.mpr ⟨z, hz, hy.trans hxz⟩
  | false =>
      simp only [contains_iff, (insert_perm hx).mem_iff, List.mem_cons, exists_eq_or_imp, or_comm]

theorem contains_insertAll : (s.insertAll xs).contains y = true
    ↔ s.contains y = true ∨ ∃ x ∈ xs, y.CountsAs x := by
  induction xs generalizing s with
  | nil => simp [insertAll]
  | cons x xs ih =>
      change ((s.insert x).2.insertAll xs).contains y = true ↔ _
      rw [ih, contains_insert, or_assoc, List.exists_mem_cons_iff]

theorem contains_empty (name : String) (ordered : Bool) :
    ¬(empty name ordered).contains x = true := Bool.false_ne_true

theorem contains_union :
    (s.union t).contains x = true ↔ s.contains x = true ∨ t.contains x = true := by
  rw [union, contains_insertAll, or_iff_right (contains_empty _ _), contains_iff, contains_iff]
  simp only [List.mem_append, or_and_right, exists_or]

theorem contains_intersect :
    (s.intersect t).contains x = true ↔ s.contains x = true ∧ t.contains x = true := by
  rw [intersect, contains_insertAll, or_iff_right (contains_empty _ _), contains_iff]
  constructor
  · rintro ⟨y, hy, hxy⟩
    obtain ⟨hmem, hother⟩ := List.mem_filter.mp hy
    obtain ⟨z, hz, hyz⟩ := contains_iff.mp hother
    exact ⟨⟨y, hmem, hxy⟩, contains_iff.mpr ⟨z, hz, hxy.trans hyz⟩⟩
  · rintro ⟨⟨y, hmem, hxy⟩, hother⟩
    obtain ⟨z, hz, hxz⟩ := contains_iff.mp hother
    exact ⟨y, List.mem_filter.mpr ⟨hmem, contains_iff.mpr ⟨z, hz, hxy.symm.trans hxz⟩⟩, hxy⟩

theorem contains_sorted : s.sorted.contains x = true ↔ s.contains x = true := by
  rw [sorted, contains_insertAll, or_iff_right (contains_empty _ _), contains_iff]

/-! ### Equal sets -/

theorem WellFormed.nodup_folded (h : s.WellFormed) : (s.elements.map Element.folded).Nodup := by
  refine List.pairwise_map.mpr (h.distinct.imp fun {x y} hxy heq => ?_)
  exact Bool.false_ne_true (hxy.symm.trans (Element.same_iff.mpr (Element.folded_eq_iff.mp heq)))

/-- Sets with the same members have the same elements, up to those that count as one. -/
theorem perm_folded_of_members (hs : s.WellFormed) (ht : t.WellFormed)
    (h : ∀ x, s.contains x = t.contains x) :
    (s.elements.map Element.folded).Perm (t.elements.map Element.folded) := by
  refine (List.perm_ext_iff_of_nodup hs.nodup_folded ht.nodup_folded).mpr fun z => ?_
  constructor
  · intro hz
    obtain ⟨x, hx, rfl⟩ := List.mem_map.mp hz
    exact contains_iff_folded.mp (h x ▸ contains_iff_folded.mpr hz)
  · intro hz
    obtain ⟨x, hx, rfl⟩ := List.mem_map.mp hz
    exact contains_iff_folded.mp (h x ▸ contains_iff_folded.mpr hz)

/-- Sets of the same size are equal when all elements of one are in the other: there are no more. -/
theorem eq_iff (hs : s.WellFormed) (ht : t.WellFormed) : s.eq t = true
    ↔ s.name = t.name ∧ s.ordered = t.ordered ∧ ∀ x, s.contains x = t.contains x := by
  rw [eq, Bool.and_eq_true, Bool.and_eq_true, Bool.and_eq_true, beq_iff_eq, beq_iff_eq, beq_iff_eq,
    and_assoc, and_assoc]
  refine and_congr_right fun _ => and_congr_right fun _ => ?_
  constructor
  · rintro ⟨hsize, hall⟩
    have hsub : s.elements.map Element.folded ⊆ t.elements.map Element.folded := by
      intro z hz
      obtain ⟨x, hx, rfl⟩ := List.mem_map.mp hz
      exact contains_iff_folded.mp (List.all_eq_true.mp hall x hx)
    have hlength : (t.elements.map Element.folded).length
        ≤ (s.elements.map Element.folded).length := by
      rw [List.length_map, List.length_map]
      exact hsize.ge
    have hperm := (List.subperm_of_subset hs.nodup_folded hsub).perm_of_length_le hlength
    intro x
    exact Bool.eq_iff_iff.mpr
      (contains_iff_folded.trans (hperm.mem_iff.trans contains_iff_folded.symm))
  · intro h
    have hperm := perm_folded_of_members hs ht h
    refine ⟨?_, List.all_eq_true.mpr fun x hx => ?_⟩
    · simpa [size] using hperm.length_eq
    · exact contains_iff_folded.mpr (hperm.subset (List.mem_map_of_mem hx))

/-- The members of an ordered set say in which sequence its elements stand. -/
theorem forall₂_of_members (hs : s.WellFormed) (ht : t.WellFormed) (hordered : s.ordered = true)
    (hordered' : t.ordered = true) (h : ∀ x, s.contains x = t.contains x) :
    List.Forall₂ Element.CountsAs s.elements t.elements := by
  have hascending {s : ElementSet} (hs : s.WellFormed) (hordered : s.ordered = true) :
      (s.elements.map Element.folded).Pairwise fun x y => x.compare y = .lt :=
    List.pairwise_map.mpr ((hs.sorted hordered).imp fun {x y} hxy => by
      rwa [Element.compare_folded])
  have hsame : s.elements.map Element.folded = t.elements.map Element.folded :=
    List.Perm.eq_of_pairwise
      (fun x y _ _ hxy hyx => absurd (Element.compare_lt_trans hxy hyx) x.not_compare_self)
      (hascending hs hordered) (hascending ht hordered') (perm_folded_of_members hs ht h)
  have hfolded : List.Forall₂ Eq (s.elements.map Element.folded)
      (t.elements.map Element.folded) := by
    rw [List.forall₂_eq_eq_eq]
    exact hsame
  exact (List.forall₂_map_left_iff.mp (List.forall₂_map_right_iff.mp hfolded)).imp
    fun _ _ => Element.folded_eq_iff.mp

/-! ### Operations on sets -/

/-- Whatever operations two sets come from, no two elements of the first one count as one, and those
of an ordered set ascend. The members of a union are those of either set, those of an intersection
are in both, and a sorted copy has the same. Sets of one name and order are equal when they have the
same members. Therefore it makes no difference in which order elements are added. -/
theorem laws_of_built (hs : s.Built) (ht : t.Built) :
    s.elements.Pairwise (fun x y => ¬x.CountsAs y)
    ∧ (s.ordered = true → s.elements.Pairwise Element.Precedes)
    ∧ (∀ x, s.contains x = true ↔ ∃ y ∈ s.elements, x.CountsAs y)
    ∧ (∀ x, (s.union t).contains x = true ↔ s.contains x = true ∨ t.contains x = true)
    ∧ (∀ x, (s.intersect t).contains x = true ↔ s.contains x = true ∧ t.contains x = true)
    ∧ (∀ x, s.sorted.contains x = true ↔ s.contains x = true)
    ∧ (s.union t).ordered = s.ordered ∧ (s.intersect t).ordered = s.ordered
    ∧ (s.eq t = true ↔ s.name = t.name ∧ s.ordered = t.ordered ∧ ∀ x, s.contains x = t.contains x)
    ∧ ∀ xs ys : List Element,
      (∀ x : Element, (∃ y ∈ xs, x.CountsAs y) ↔ ∃ y ∈ ys, x.CountsAs y) →
      (s.insertAll xs).eq (s.insertAll ys) = true
      ∧ (s.ordered = true →
        List.Forall₂ Element.CountsAs (s.insertAll xs).elements (s.insertAll ys).elements) := by
  have hwell := hs.wellFormed
  refine ⟨?_, fun ho => ?_, fun x => contains_iff, fun x => contains_union,
    fun x => contains_intersect, fun x => contains_sorted, insertAll_ordered _ _,
    insertAll_ordered _ _, eq_iff hwell ht.wellFormed, fun xs ys hsame => ?_⟩
  · refine hwell.distinct.imp fun {x y} hxy hcounts => ?_
    exact Bool.false_ne_true (hxy.symm.trans (Element.same_iff.mpr hcounts))
  · exact (hwell.sorted ho).imp Element.compare_lt_iff.mp
  · have hxs := hwell.insertAll xs
    have hys := hwell.insertAll ys
    have hmembers (x : Element) : (s.insertAll xs).contains x = (s.insertAll ys).contains x := by
      rw [Bool.eq_iff_iff, contains_insertAll, contains_insertAll, hsame x]
    refine ⟨(eq_iff hxs hys).mpr ⟨?_, ?_, hmembers⟩, fun ho => ?_⟩
    · rw [insertAll_name, insertAll_name]
    · rw [insertAll_ordered, insertAll_ordered]
    · refine forall₂_of_members hxs hys ?_ ?_ hmembers
      · rw [insertAll_ordered, ho]
      · rw [insertAll_ordered, ho]

/-- Of the two zeros and the two NaNs one each is kept, and whichever comes first stays. -/
theorem laws_of_built_folded :
    let xs : List Element := [.text "b", .number (.ofReal .nan), .number (.ofReal .negativeZero),
      .number .zero, .number (.ofReal .invalid)]
    let s := (empty "s" true).insertAll xs
    let t := (empty "s" true).insertAll xs.reverse
    s.size = 3 ∧ s.elements.Pairwise Element.Precedes ∧ s.eq t = true
      ∧ List.Forall₂ Element.CountsAs s.elements t.elements := by
  intro xs s t
  have hempty : (empty "s" true).Built := .empty "s" true
  obtain ⟨-, -, -, -, -, -, -, -, -, horders⟩ := laws_of_built hempty hempty
  obtain ⟨heq, hsequence⟩ := horders xs xs.reverse fun x => by simp only [List.mem_reverse]
  obtain ⟨-, hascending, -⟩ := laws_of_built (hempty.insertAll xs) hempty
  exact ⟨by decide +kernel, hascending (by decide +kernel), heq, hsequence rfl⟩

end ElementSet

end MatrixScript
