import MatrixScript.Proofs.Values.Sets
import MatrixScript.Saved.Decode

/-!
# Constructors accept exactly what is well-formed

A constructor that checks its parts succeeds on well-formed parts and on no others, and then it
keeps them as they are. A set that is put together from a list keeps a part of the list.
-/

namespace MatrixScript

theorem elementCount_eq_ok_iff {rows cols n : Nat} :
    elementCount rows cols = .ok n ↔ n = rows * cols ∧ rows * cols ≤ elementLimit := by
  unfold elementCount
  split
  · rename_i hlimit
    constructor
    · intro h
      exact ⟨(Except.ok.inj h).symm, hlimit⟩
    · rintro ⟨rfl, -⟩
      rfl
  · rename_i hlimit
    constructor
    · intro h
      cases h
    · rintro ⟨-, h⟩
      exact absurd h hlimit

theorem Matrix.ofData_eq_ok_iff {rows cols : Nat} {data : Array Complex} {m : Matrix} :
    Matrix.ofData rows cols data = .ok m ↔ m = ⟨rows, cols, data⟩ ∧ m.WellFormed := by
  constructor
  · intro h
    cases hcount : elementCount rows cols with
    | error fault =>
        rw [Matrix.ofData, hcount] at h
        cases h
    | ok n =>
        obtain ⟨rfl, hlimit⟩ := elementCount_eq_ok_iff.mp hcount
        rw [Matrix.ofData, hcount] at h
        change (if data.size = rows * cols then _ else _) = Except.ok m at h
        split at h
        · cases h
          exact ⟨rfl, ‹_›, hlimit⟩
        · cases h
  · rintro ⟨rfl, hwf⟩
    rw [Matrix.ofData, elementCount_eq_ok_iff.mpr ⟨rfl, hwf.size_le⟩]
    exact if_pos hwf.size_eq

theorem Progression.make_eq_ok_iff {start step : Double} {stop : Bound} {r : Progression} :
    Progression.make start step stop = .ok r ↔ r = ⟨start, step, stop⟩ ∧ r.WellFormed := by
  simp only [Progression.make]
  split
  · rename_i hstep
    constructor
    · intro h
      cases h
    · rintro ⟨rfl, hwf⟩
      simp [hwf.step_nonzero, hwf.step_number] at hstep
  · rename_i hstep
    split
    · rename_i hlong
      constructor
      · intro h
        cases h
      · rintro ⟨rfl, hwf⟩
        rw [hwf.not_tooLong] at hlong
        cases hlong
    · rename_i hlong
      constructor
      · intro h
        obtain rfl := Except.ok.inj h
        simp only [Bool.or_eq_true, not_or, Bool.not_eq_true] at hstep hlong
        exact ⟨rfl, hstep.1, hstep.2, hlong⟩
      · rintro ⟨rfl, -⟩
        rfl

namespace Decoder

theorem makeSet_of_wellFormed {s : ElementSet} (hwf : s.WellFormed) :
    makeSet s.name s.ordered s.elements = .ok s := by
  have hall : ((ElementSet.empty s.name false).insertAll s.elements).elements = s.elements := by
    rw [ElementSet.insertAll_of_distinct (s := ElementSet.empty s.name false) rfl hwf.distinct]
    rfl
  have hsorted : (s.ordered && !ElementSet.ascending s.elements) = false := by
    cases ho : s.ordered with
    | false => rfl
    | true =>
        rw [ElementSet.ascending_iff.mpr (hwf.sorted ho)]
        rfl
  unfold makeSet
  simp only [hall, hsorted, Bool.false_eq_true, if_false]

theorem wellFormed_of_makeSet {name : String} {ordered : Bool} {elements : List Element}
    {s : ElementSet} (h : makeSet name ordered elements = .ok s) :
    s.WellFormed ∧ s.name = name ∧ s.elements.Sublist elements := by
  obtain ⟨ys, hsub, hys, hdistinct⟩ := ElementSet.insertAll_elements (s := ElementSet.empty name false)
    elements rfl List.Pairwise.nil
  rw [show (ElementSet.empty name false).elements = [] from rfl, List.nil_append] at hys hdistinct
  unfold makeSet at h
  simp only [hys] at h
  split at h
  · cases h
  · rename_i hsorted
    obtain rfl := Except.ok.inj h
    refine ⟨⟨hdistinct, fun ho => ElementSet.ascending_iff.mp ?_⟩, rfl, hsub⟩
    simpa [show ordered = true from ho] using hsorted

theorem checkLambda_eq_ok_iff {f : Lambda} : checkLambda f = .ok () ↔ f.WellFormed := by
  unfold checkLambda
  cases hroot : f.forest.contains f.root with
  | false =>
      constructor
      · intro h
        cases h
      · intro hwf
        rw [hwf.root] at hroot
        cases hroot
  | true =>
      cases hlinks : f.forest.brokenLink? with
      | none => exact ⟨fun _ => ⟨hlinks, hroot⟩, fun _ => rfl⟩
      | some link =>
          constructor
          · intro h
            cases h
          · intro hwf
            rw [hwf.links] at hlinks
            cases hlinks

end Decoder

end MatrixScript
