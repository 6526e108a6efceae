import MatrixScript.ElementSet
import MatrixScript.Library.Standard
import MatrixScript.Proofs.Values.Doubles
import MatrixScript.Proofs.Values.Keeping

/-!
# Growing sets

The order of elements is transitive, so a list whose neighbours ascend ascends as a whole. A set
holds an element once: adding the elements of a list one by one leaves no two that count as one, and
leaves a list that has none such as it is.

A set grows by one element at a time, so what inserting an element keeps, every operation on sets
keeps. In an ordered set the new element goes before the first one above it. All before that one are
below the new element, because of two elements that do not count as one, one comes first.
-/

namespace MatrixScript

/-! ### Elements -/

theorem Double.totalCompare_eq_lt {x y : Double} :
    x.totalCompare y = .lt ↔ x.orderKey < y.orderKey := compareOfLessAndEq_eq_lt

theorem Double.totalCompare_eq_eq {x y : Double} :
    x.totalCompare y = .eq ↔ x.orderKey = y.orderKey := Std.compare_eq_iff_eq

theorem Complex.totalCompare_lt_trans {x y z : Complex} (hxy : x.totalCompare y = .lt)
    (hyz : y.totalCompare z = .lt) : x.totalCompare z = .lt := by
  simp only [Complex.totalCompare, Ordering.then_eq_lt, Double.totalCompare_eq_lt,
    Double.totalCompare_eq_eq, UInt64.lt_iff_toNat_lt, ← UInt64.toNat_inj] at *
  omega

theorem Complex.totalCompare_lt_or {z w : Complex} (h : z ≠ w) :
    z.totalCompare w = .lt ∨ w.totalCompare z = .lt := by
  have hkeys : ¬(z.re.orderKey = w.re.orderKey ∧ z.im.orderKey = w.im.orderKey) := by
    rintro ⟨hre, him⟩
    have hparts : z.re = w.re ∧ z.im = w.im :=
      ⟨Double.orderKey_inj hre, Double.orderKey_inj him⟩
    exact h (by rwa [← Complex.mk.injEq] at hparts)
  simp only [Complex.totalCompare, Ordering.then_eq_lt, Double.totalCompare_eq_lt,
    Double.totalCompare_eq_eq, UInt64.lt_iff_toNat_lt, ← UInt64.toNat_inj] at hkeys ⊢
  omega

namespace Element

theorem same_comm (x y : Element) : x.same y = y.same x := by
  cases x <;> cases y <;> simp [same, Bool.beq_comm]

theorem compare_lt_trans {x y z : Element} (hxy : x.compare y = .lt) (hyz : y.compare z = .lt) :
    x.compare z = .lt := by
  cases x <;> cases y <;> cases z
  case number.number.number => exact Complex.totalCompare_lt_trans hxy hyz
  case text.text.text =>
    exact compareOfLessAndEq_eq_lt.mpr
      (String.lt_trans (compareOfLessAndEq_eq_lt.mp hxy) (compareOfLessAndEq_eq_lt.mp hyz))
  case number.number.text | number.text.text => rfl
  case text.number.number | text.number.text => cases hxy
  case number.text.number | text.text.number => cases hyz

/-- Of two elements that do not count as one, one comes before the other. -/
theorem compare_lt_or {x y : Element} (h : x.same y = false) :
    x.compare y = .lt ∨ y.compare x = .lt := by
  cases x with
  | number z =>
      cases y with
      | number w => exact Complex.totalCompare_lt_or (beq_eq_false_iff_ne.mp h)
      | text t => exact .inl rfl
  | text s =>
      cases y with
      | number w => exact .inr rfl
      | text t =>
          have hne : s ≠ t := beq_eq_false_iff_ne.mp h
          rcases Std.lt_trichotomy s t with hlt | heq | hgt
          · exact .inl (compareOfLessAndEq_eq_lt.mpr hlt)
          · exact absurd heq hne
          · exact .inr (compareOfLessAndEq_eq_lt.mpr hgt)

end Element

namespace ElementSet

/-- No two elements count as one. -/
def Distinct (xs : List Element) : Prop := xs.Pairwise fun x y => x.same y = false

theorem ascending_iff {xs : List Element} :
    ascending xs = true ↔ xs.Pairwise fun x y => x.compare y = .lt := by
  induction xs with
  | nil => simp [ascending]
  | cons x xs ih =>
      cases xs with
      | nil => simp [ascending]
      | cons y rest =>
          rw [ascending, Bool.and_eq_true, beq_iff_eq, ih]
          constructor
          · rintro ⟨hxy, hrest⟩
            refine List.Pairwise.cons (fun z hz => ?_) hrest
            rcases List.mem_cons.mp hz with rfl | hz
            · exact hxy
            · exact Element.compare_lt_trans hxy (List.rel_of_pairwise_cons hrest hz)
          · intro h
            exact ⟨List.rel_of_pairwise_cons h List.mem_cons_self, h.tail⟩

theorem contains_eq_false {s : ElementSet} {x : Element} :
    s.contains x = false ↔ ∀ y ∈ s.elements, y.same x = false := by
  simp only [contains, List.any_eq_false, Bool.not_eq_true]
  exact forall₂_congr fun y _ => by rw [Element.same_comm]

theorem insert_of_contains {s : ElementSet} {x : Element} (h : s.contains x = true) :
    (s.insert x).2 = s := by
  rw [insert, if_pos h]

theorem insert_of_new {s : ElementSet} {x : Element} (hs : s.ordered = false)
    (h : s.contains x = false) : (s.insert x).2 = { s with elements := s.elements ++ [x] } := by
  simp [insert, h, hs]

/-- What is added one by one to a set in insertion order is a part of what was offered, and leaves
no two elements that count as one. -/
theorem insertAll_elements {s : ElementSet} (xs : List Element) (hs : s.ordered = false)
    (h : Distinct s.elements) :
    ∃ ys, ys.Sublist xs ∧ (s.insertAll xs).elements = s.elements ++ ys
      ∧ Distinct (s.elements ++ ys) := by
  induction xs generalizing s with
  | nil => exact ⟨[], List.Sublist.refl [], (List.append_nil _).symm, by rwa [List.append_nil]⟩
  | cons x xs ih =>
      change ∃ ys, _ ∧ ((s.insert x).2.insertAll xs).elements = _ ∧ _
      cases hx : s.contains x with
      | true =>
          rw [insert_of_contains hx]
          obtain ⟨ys, hsub, helements, hdistinct⟩ := ih hs h
          exact ⟨ys, hsub.cons x, helements, hdistinct⟩
      | false =>
          rw [insert_of_new hs hx]
          have hnew : Distinct (s.elements ++ [x]) := by
            refine List.pairwise_append.mpr ⟨h, List.pairwise_singleton _ _, fun y hy z hz => ?_⟩
            rw [List.mem_singleton.mp hz]
            exact contains_eq_false.mp hx y hy
          obtain ⟨ys, hsub, helements, hdistinct⟩ :=
            ih (s := { s with elements := s.elements ++ [x] }) hs hnew
          exact ⟨x :: ys, hsub.cons_cons x, by simp [helements], by simpa using hdistinct⟩

/-- Adding the elements of a list to an empty set keeps the list if no two count as one. -/
theorem insertAll_of_distinct {s : ElementSet} {xs : List Element} (hs : s.ordered = false)
    (h : Distinct (s.elements ++ xs)) :
    s.insertAll xs = { s with elements := s.elements ++ xs } := by
  induction xs generalizing s with
  | nil => simp [insertAll]
  | cons x xs ih =>
      have hx : s.contains x = false := contains_eq_false.mpr fun y hy =>
        (List.pairwise_append.mp h).2.2 y hy x List.mem_cons_self
      change (s.insert x).2.insertAll xs = _
      rw [insert_of_new hs hx, ih (s := { s with elements := s.elements ++ [x] }) hs (by simpa using h)]
      simp

/-! ### Inserting and adding -/

variable {s t : ElementSet} {x : Element} {xs : List Element}

theorem place_perm (x : Element) (xs : List Element) : (place x xs).Perm (x :: xs) := by
  induction xs with
  | nil => exact .refl _
  | cons y xs ih =>
      unfold place
      split
      · exact .refl _
      · exact (ih.cons y).trans (.swap x y xs)

theorem place_ascending (hxs : xs.Pairwise fun x y => x.compare y = .lt)
    (hnew : ∀ y ∈ xs, y.same x = false) :
    (place x xs).Pairwise fun x y => x.compare y = .lt := by
  induction xs with
  | nil => exact List.pairwise_singleton _ _
  | cons y xs ih =>
      obtain ⟨hy, hrest⟩ := List.pairwise_cons.mp hxs
      unfold place
      split
      · rename_i hlt
        refine List.pairwise_cons.mpr ⟨fun z hz => ?_, hxs⟩
        rcases List.mem_cons.mp hz with rfl | hz
        · exact beq_iff_eq.mp hlt
        · exact Element.compare_lt_trans (beq_iff_eq.mp hlt) (hy z hz)
      · rename_i hlt
        have hyx : y.compare x = .lt :=
          (Element.compare_lt_or (hnew y List.mem_cons_self)).resolve_right
            fun h => hlt (beq_iff_eq.mpr h)
        refine List.pairwise_cons.mpr
          ⟨fun z hz => ?_, ih hrest fun z hz => hnew z (List.mem_cons_of_mem y hz)⟩
        rcases List.mem_cons.mp ((place_perm x xs).subset hz) with rfl | hz
        · exact hyx
        · exact hy z hz

theorem wellFormed_empty (name : String) (ordered : Bool) : (empty name ordered).WellFormed :=
  ⟨.nil, fun _ => .nil⟩

theorem WellFormed.insert (h : s.WellFormed) (x : Element) : (s.insert x).2.WellFormed := by
  cases hx : s.contains x with
  | true => rwa [insert_of_contains hx]
  | false =>
      have hnew := contains_eq_false.mp hx
      cases ho : s.ordered with
      | true =>
          have hplaced : (s.insert x).2 = { s with elements := place x s.elements } := by
            simp [ElementSet.insert, hx, ho]
          have hdistinct : Distinct (x :: s.elements) :=
            List.pairwise_cons.mpr ⟨fun y hy => Element.same_comm x y ▸ hnew y hy, h.distinct⟩
          rw [hplaced]
          refine ⟨?_, fun _ => place_ascending (h.sorted ho) hnew⟩
          exact ((place_perm x s.elements).pairwise_iff
            fun {a b} hab => (Element.same_comm b a).trans hab).mpr hdistinct
      | false =>
          rw [insert_of_new ho hx]
          refine ⟨List.pairwise_append.mpr ⟨h.distinct, List.pairwise_singleton _ _, ?_⟩,
            fun hordered => absurd (ho.symm.trans hordered) Bool.false_ne_true⟩
          intro y hy z hz
          rw [List.mem_singleton.mp hz]
          exact hnew y hy

theorem WellFormed.insertAll (h : s.WellFormed) (xs : List Element) :
    (s.insertAll xs).WellFormed := by
  induction xs generalizing s with
  | nil => exact h
  | cons x xs ih => exact ih (h.insert x)

theorem wellFormed_union (s t : ElementSet) : (s.union t).WellFormed :=
  (wellFormed_empty _ _).insertAll _

theorem wellFormed_intersect (s t : ElementSet) : (s.intersect t).WellFormed :=
  (wellFormed_empty _ _).insertAll _

theorem wellFormed_sorted (s : ElementSet) : s.sorted.WellFormed :=
  (wellFormed_empty _ _).insertAll _

theorem WellFormed.renamed (h : s.WellFormed) (name : String) : (s.renamed name).WellFormed :=
  ⟨h.distinct, h.sorted⟩

theorem insertValue_yields (h : s.WellFormed) (v : Value) :
    Yields (s.insertValue v) WellFormed :=
  Yields.map (P := fun _ => True) (fun _ _ => trivial) fun xs _ => h.insertAll xs

/-- Sets that operations make one after another. -/
theorem wellFormed_foldl {op : ElementSet → ElementSet → ElementSet}
    (hop : ∀ s t, (op s t).WellFormed) (h : s.WellFormed) (ts : List ElementSet) :
    (ts.foldl op s).WellFormed := by
  induction ts generalizing s with
  | nil => exact h
  | cons t ts ih => exact ih (hop s t)

end ElementSet

end MatrixScript
